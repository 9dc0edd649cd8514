import LoxFront.Proofs.Lexical.Line
import LoxFront.Proofs.Number.Text
import LoxFront.Proofs.Session.Encoding
import LoxFront.Proofs.Session.Run
import LoxFront.Session.History
import LoxFront.Session.Listed
/-!
# Listings can be read back

The lines of a listing are not its entries: a string stands in its entry
twice, and may hold newlines and what looks like entries. Still each entry
is read for itself (`Listed.read_display_of_isRead`), because a string has
no quote inside and no other lexeme has whitespace. So a listing is read
back whatever stands behind it (`readListing_listing`), no listing is the
start of another (`eq_of_listingBytes_isPrefix`), and listings that are
written one behind the other can be told apart.
-/

namespace LoxFront

/-! ## Cuts -/

/-- A text is cut at the first stop in it. -/
theorem cutAt_append {stop : Char} {front : List Char} (h : stop ∉ front) (rest : List Char) :
    cutAt stop (front ++ stop :: rest) = (front, rest) := by
  have hstop : Halts (· != stop) (stop :: rest) := by simp
  rw [cutAt, takeWhile_append_of_halts (bne_of_not_mem h) hstop,
    dropWhile_append_of_halts (bne_of_not_mem h) hstop]
  rfl

/-! ## Entries -/

/-- How a value is shown behind a lexeme, if there is one. -/
def shownValue : Option Value → List Char
  | some value => ' ' :: value.display.toList
  | none => []

/-- An entry is the name of the kind, the lexeme, and the value if there is
one. -/
theorem toList_display (kind : TokenKind) (text : List Char) (line : Nat) :
    (Token.ofLexeme kind text line).display.toList =
      kind.name.toList ++ ' ' :: (text ++ shownValue (kind.literal? text)) := by
  unfold Token.display Token.ofLexeme shownValue
  cases kind.literal? text <;> simp

theorem shownValue_string (body : List Char) :
    shownValue (TokenKind.literal? .string ('"' :: (body ++ ['"']))) = ' ' :: body := by
  simp [TokenKind.literal?, shownValue, Value.display]

namespace Listed

/-- The name of a kind ends at the first blank. -/
theorem space_not_mem_name (kind : TokenKind) : ' ' ∉ kind.name.toList := by
  cases kind with
  | keyword k => cases k <;> decide
  | _ => decide

/-- An entry is read when its lexeme is. -/
theorem read_of_readLexeme {kind : TokenKind} {shown lexeme rest : List Char}
    (h : readLexeme kind shown = (lexeme, rest)) :
    read (kind.name.toList ++ ' ' :: shown) = some (ofLexeme kind lexeme, rest) := by
  rw [read, cutAt_append (space_not_mem_name kind)]
  simp [h]

/-- A string ends at its second quote, and its entry so much later as it
is long. -/
theorem readLexeme_string {body : List Char} (h : '"' ∉ body) (rest : List Char) :
    readLexeme .string ('"' :: (body ++ ['"']) ++ ' ' :: body ++ '\n' :: rest) =
      ('"' :: (body ++ ['"']), rest) := by
  have hcut : cutAt '"' (body ++ '"' :: ' ' :: (body ++ '\n' :: rest)) =
      (body, ' ' :: (body ++ '\n' :: rest)) := cutAt_append h _
  have hagain : (' ' :: (body ++ '\n' :: rest)).drop (body.length + 2) = rest := by
    simp [List.drop_append]
  have htail : ('"' :: (body ++ ['"']) ++ ' ' :: body ++ '\n' :: rest).tail =
      body ++ '"' :: ' ' :: (body ++ '\n' :: rest) := by simp
  rw [readLexeme, if_pos rfl, htail, hcut]
  simp only [hagain]

/-- Any other lexeme ends at the first space of its line, or with it. -/
theorem readLexeme_line {kind : TokenKind} (hkind : kind ≠ .string) {lexeme value : List Char}
    (hlexeme : ∀ b ∈ whitespace, b ∉ lexeme) (hvalue : '\n' ∉ value)
    (hspace : Halts (· != ' ') value) (rest : List Char) :
    readLexeme kind (lexeme ++ value ++ '\n' :: rest) = (lexeme, rest) := by
  have hline : '\n' ∉ lexeme ++ value := by
    rw [List.mem_append, not_or]
    exact ⟨hlexeme _ (by decide), hvalue⟩
  have hcut : (cutAt ' ' (lexeme ++ value)).1 = lexeme :=
    takeWhile_append_of_halts (bne_of_not_mem (hlexeme _ (by decide))) hspace
  rw [readLexeme, if_neg hkind, cutAt_append hline]
  simp only [hcut]

/-- The value of a lexeme that is no string is a number, or there is none. -/
theorem shownValue_of_ne_string {kind : TokenKind} (hkind : kind ≠ .string) (lexeme : List Char) :
    '\n' ∉ shownValue (kind.literal? lexeme) ∧
      Halts (· != ' ') (shownValue (kind.literal? lexeme)) := by
  cases kind with
  | string => exact (hkind rfl).elim
  | number =>
    refine ⟨List.not_mem_cons_of_ne_of_not_mem (by decide) (Double.newline_not_mem_text _), ?_⟩
    exact halts_cons.2 rfl
  | _ => exact ⟨List.not_mem_nil, halts_nil _⟩

/-- An entry is read up to its newline when its lexeme is read off what is
shown of it. -/
theorem read_display {kind : TokenKind} {text rest : List Char} (line : Nat)
    (h : readLexeme kind (text ++ shownValue (kind.literal? text) ++ '\n' :: rest) = (text, rest)) :
    read ((Token.ofLexeme kind text line).display.toList ++ '\n' :: rest) =
      some ((Token.ofLexeme kind text line).listed, rest) := by
  rw [toList_display, List.append_assoc, List.cons_append]
  exact read_of_readLexeme h

/-- **An entry of a scanned token is read back**, whatever stands behind it. -/
theorem read_display_of_isRead {t : Token} (h : t.IsRead) (rest : List Char) :
    read (t.display.toList ++ '\n' :: rest) = some (t.listed, rest) := by
  obtain ⟨kind, text, after, line, hcut, rfl⟩ := h
  apply read_display
  by_cases hkind : kind = .string
  · subst hkind
    obtain ⟨body, hbody, rfl⟩ := spells_of_cut hcut
    rw [shownValue_string]
    exact readLexeme_string hbody rest
  · obtain ⟨hline, hspace⟩ := shownValue_of_ne_string hkind text
    exact readLexeme_line hkind (whitespace_not_mem_of_cut hcut hkind) hline hspace rest

/-- The entry of the end is read back as well, with nothing between its blank
and the newline. -/
theorem read_display_eof (line : Nat) (rest : List Char) :
    read ((Token.eof line).display.toList ++ '\n' :: rest) =
      some ((Token.eof line).listed, rest) := by
  have heof : Token.eof line = .ofLexeme .eof [] line := rfl
  rw [heof]
  apply read_display
  exact readLexeme_line (by decide) (fun _ _ => List.not_mem_nil) List.not_mem_nil (halts_nil _) rest

end Listed

/-! ## Listings -/

/-- A listing goes on until the entry of the end. -/
theorem readListing_of_read {text : List Char} {entry : Listed} {rest : List Char}
    (h : Listed.read text = some (entry, rest)) :
    readListing text =
      if entry.kind = TokenKind.eof then some ([entry], rest)
      else (readListing rest).map fun (more, left) => (entry :: more, left) := by
  rw [readListing]
  split
  · next hnone => rw [hnone] at h; cases h
  · next hsome => rw [hsome] at h; cases h; rfl

/-- No scanned token has the kind of the end. -/
theorem Token.IsRead.kind_ne_eof {t : Token} (h : t.IsRead) : t.kind ≠ .eof := by
  obtain ⟨kind, text, after, line, hcut, rfl⟩ := h
  rintro rfl
  obtain ⟨s, hs, -⟩ := spells_of_cut hcut
  cases hs

theorem toList_listing_cons (t : Token) (ts : List Token) :
    (listing (t :: ts)).toList = t.display.toList ++ '\n' :: (listing ts).toList := by
  simp [listing, String.toList_join]

/-- **A listing is read back**, and nothing of what stands behind it is. -/
theorem readListing_listing {ts : List Token} (h : ∀ t ∈ ts, t.IsRead) (line : Nat)
    (rest : List Char) :
    readListing ((listing (ts ++ [Token.eof line])).toList ++ rest) =
      some ((ts ++ [Token.eof line]).map Token.listed, rest) := by
  induction ts with
  | nil =>
    rw [List.nil_append, toList_listing_cons, List.append_assoc, List.cons_append,
      readListing_of_read (Listed.read_display_eof line _)]
    rfl
  | cons t ts ih =>
    rw [List.forall_mem_cons] at h
    have hkind : t.listed.kind ≠ .eof := h.1.kind_ne_eof
    rw [List.cons_append, toList_listing_cons, List.append_assoc, List.cons_append,
      readListing_of_read (Listed.read_display_of_isRead h.1 _), if_neg hkind, ih h.2]
    rfl

/-- **A listing is read off in front of anything**: it says itself where it
ends. -/
theorem readListing_scan (source : String) (rest : List Char) :
    readListing ((listing (scan source).tokens).toList ++ rest) =
      some ((scan source).tokens.map Token.listed, rest) :=
  readListing_listing (fun _ => isRead_of_mem_lexed) _ rest

/-- A string may hold the end of a listing. -/
example : readListing "String \"\nEof \n\" \nEof \n\nEof \nPlus +\n".toList =
    some ([.ofLexeme .string "\"\nEof \n\"".toList, .ofLexeme .eof []], "Plus +\n".toList) := by
  decide +kernel

theorem decodeListing_scan (source : String) :
    decodeListing (scan source).listingBytes = some ((scan source).tokens.map Token.listed) := by
  have hread := readListing_scan source []
  rw [List.append_nil] at hread
  rw [decodeListing, Scan.listingBytes, decode?_encode]
  simp only [hread]

/-- **No listing is the start of another.** -/
theorem eq_of_listingBytes_isPrefix {a b : String}
    (h : (scan a).listingBytes <+: (scan b).listingBytes) :
    (scan a).listingBytes = (scan b).listingBytes ∧
      (scan a).tokens.map Token.listed = (scan b).tokens.map Token.listed := by
  obtain ⟨rest, hrest⟩ := toList_isPrefix_of_encode h
  have hfirst := readListing_scan a rest
  have hsecond := readListing_scan b []
  rw [List.append_nil] at hsecond
  rw [hrest, hsecond] at hfirst
  obtain ⟨hlisted, hnil⟩ := Prod.mk.inj (Option.some.inj hfirst)
  rw [← hnil, List.append_nil] at hrest
  refine ⟨?_, hlisted.symm⟩
  rw [Scan.listingBytes, String.toList_inj.1 hrest]
  rfl

/-- No listing is empty, as each has the entry of the end. -/
theorem listingBytes_ne_nil (source : String) : (scan source).listingBytes ≠ [] := by
  intro hnil
  have hempty : listing (scan source).tokens = "" := encode_injective hnil
  have hne : (scan source).tokens ≠ [] := by simp [Scan.tokens]
  obtain ⟨t, ts, htokens⟩ := List.exists_cons_of_ne_nil hne
  have hchars := toList_listing_cons t ts
  rw [← htokens, hempty] at hchars
  simp at hchars

/-! ## Listings one behind the other -/

/-- Listings one behind the other fall apart in one way only. -/
theorem map_listingBytes_of_flatMap {as bs : List String}
    (h : as.flatMap (fun a => (scan a).listingBytes) = bs.flatMap fun b => (scan b).listingBytes) :
    as.map (fun a => (scan a).listingBytes) = bs.map (fun b => (scan b).listingBytes) ∧
      as.map (fun a => (scan a).tokens.map Token.listed) =
        bs.map fun b => (scan b).tokens.map Token.listed := by
  induction as generalizing bs with
  | nil =>
    cases bs with
    | nil => exact ⟨rfl, rfl⟩
    | cons b bs => exact absurd (List.append_eq_nil_iff.1 h.symm).1 (listingBytes_ne_nil b)
  | cons a as ih =>
    cases bs with
    | nil => exact absurd (List.append_eq_nil_iff.1 h).1 (listingBytes_ne_nil a)
    | cons b bs =>
      rw [List.flatMap_cons, List.flatMap_cons] at h
      -- of two starts of one text one starts with the other
      have hsame : (scan a).listingBytes = (scan b).listingBytes ∧
          (scan a).tokens.map Token.listed = (scan b).tokens.map Token.listed := by
        rcases List.prefix_or_prefix_of_prefix (h ▸ List.prefix_append _ _)
          (List.prefix_append _ _) with hab | hba
        · exact eq_of_listingBytes_isPrefix hab
        · exact (eq_of_listingBytes_isPrefix hba).imp Eq.symm Eq.symm
      rw [hsame.1] at h
      obtain ⟨hbytes, hlisted⟩ := ih (List.append_cancel_left h)
      rw [List.map_cons, List.map_cons, List.map_cons, List.map_cons, hsame.1, hsame.2, hbytes,
        hlisted]
      exact ⟨rfl, rfl⟩

/-- The outputs of successive runs with room for all of it. -/
def Session.runOutputs (s : Session) (sources : List String) : List Bytes :=
  (s.performAll (sources.map fun source => .run source .unlimited)).map fun done => done.1.output

theorem runOutputs_eq (s : Session) (sources : List String) :
    s.runOutputs sources = sources.map fun source => (scan source).listingBytes := by
  induction sources generalizing s with
  | nil => rfl
  | cons source rest ih =>
    rw [List.map_cons, ← ih (s.run source .unlimited).2, ← Session.output_run_unlimited s source]
    rfl

/-- **A listing is unambiguous.** Of two runs the output of one starts with
that of the other only where the two are the same, and then the tokens are
so but for their lines; a listing can be decoded into these; and where
successive runs write to one writer, in any session, all that was written
falls apart into the listings of runs in one way only. -/
theorem run_outputs_unambiguous (s s' : Session) (a b : String) (as bs : List String) :
    ((s.run a .unlimited).1.output <+: (s'.run b .unlimited).1.output ↔
      (s.run a .unlimited).1.output = (s'.run b .unlimited).1.output ∧
        (scan a).tokens.map Token.listed = (scan b).tokens.map Token.listed) ∧
    decodeListing (s.run a .unlimited).1.output = some ((scan a).tokens.map Token.listed) ∧
    ((s.runOutputs as).flatten = (s'.runOutputs bs).flatten ↔
      s.runOutputs as = s'.runOutputs bs ∧
        as.map (fun a => (scan a).tokens.map Token.listed) =
          bs.map fun b => (scan b).tokens.map Token.listed) := by
  rw [Session.output_run_unlimited, Session.output_run_unlimited, runOutputs_eq, runOutputs_eq,
    ← List.flatMap_def, ← List.flatMap_def]
  refine ⟨⟨eq_of_listingBytes_isPrefix, fun h => h.1 ▸ List.prefix_rfl⟩, decodeListing_scan a,
    map_listingBytes_of_flatMap, fun h => ?_⟩
  rw [List.flatMap_def, List.flatMap_def, h.1]

end LoxFront
