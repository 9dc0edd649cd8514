import LoxFront.Command.Offender
import LoxFront.Proofs.Command.Answer
import Mathlib.Data.List.Induction
/-!
# The first offender decides

The reader of arguments keeps two things, whether flags are still read and
what was named. Both are told by the arguments it has passed over without
an offence (`Behind`): flags are read until the mark has come, and what was
named is what is left without the mark. One more argument that does not
offend keeps this, so it holds behind any arguments that do not
(`exists_behind`); the first that does is answered at once, whatever comes
behind it (`FirstOffender.ofArguments_eq`).
-/

namespace LoxFront

namespace Request

variable {before after arguments : List String} {argument : String} {flags : Bool}
  {named : Option String} {kind : List String → String → Prop}

/-! ## Arguments of a kind -/

theorem not_somewhere_nil : ¬Somewhere kind [] := by
  rintro ⟨before, argument, after, h, -⟩
  exact absurd h.symm (List.append_ne_nil_of_right_ne_nil _ (List.cons_ne_nil _ _))

/-- One more argument is of the kind, or one of those before it is. -/
theorem somewhere_concat :
    Somewhere kind (before ++ [argument]) ↔ Somewhere kind before ∨ kind before argument := by
  constructor
  · rintro ⟨front, found, rest, hsplit, hkind⟩
    rcases List.eq_nil_or_concat rest with rfl | ⟨more, last, rfl⟩
    · obtain ⟨rfl, hlast⟩ := List.append_inj' hsplit rfl
      cases hlast
      exact .inr hkind
    · have hconcat : before ++ [argument] = (front ++ found :: more) ++ [last] := by
        simpa using hsplit
      exact .inl ⟨front, found, more, (List.append_inj' hconcat rfl).1, hkind⟩
  · rintro (⟨front, found, rest, rfl, hkind⟩ | hkind)
    · exact ⟨front, found, rest ++ [argument], by simp, hkind⟩
    · exact ⟨before, argument, [], rfl, hkind⟩

/-- Where there is one of a kind there is a first one. -/
theorem Somewhere.exists_first (h : Somewhere kind arguments) :
    ∃ before argument after, arguments = before ++ argument :: after ∧
      kind before argument ∧ ¬Somewhere kind before := by
  induction arguments using List.reverseRecOn with
  | nil => exact (not_somewhere_nil h).elim
  | append_singleton front last ih =>
    by_cases hfront : Somewhere kind front
    · obtain ⟨before, argument, after, rfl, hkind⟩ := ih hfront
      exact ⟨before, argument, after ++ [last], by simp, hkind⟩
    · exact ⟨front, last, [], rfl, (somewhere_concat.1 h).resolve_left hfront, hfront⟩

/-! ## What one argument is -/

/-- A flag starts with a minus sign, and is neither that sign alone nor the
mark. -/
theorem isFlag_iff :
    isFlag argument = true ↔
      ['-'] <+: argument.toList ∧ argument ≠ "-" ∧ argument ≠ endOfFlags := by
  simp [isFlag, List.isPrefixOf_iff_prefix, and_assoc]

theorem ofFlag_eq :
    ofFlag argument =
      if argument = "--help" ∨ ['-', 'h'] <+: argument.toList then help else usage := by
  simp [ofFlag, List.isPrefixOf_iff_prefix]

/-- Without the mark a name stays where it is. -/
theorem NameBehind.erase_append (h : NameBehind before argument) (after : List String) :
    (before ++ argument :: after).erase endOfFlags = before.erase endOfFlags ++
      argument :: if endOfFlags ∈ before then after else after.erase endOfFlags := by
  by_cases hmark : endOfFlags ∈ before
  · rw [if_pos hmark, List.erase_append_left _ hmark]
  · have hname : argument ≠ endOfFlags := fun hsame => h.2 ⟨hmark, hsame⟩
    rw [if_neg hmark, List.erase_append_right _ hmark, List.erase_of_not_mem hmark,
      List.erase_cons_tail (by simpa using hname)]

/-! ## What the reader keeps -/

/-- **The reader behind arguments** of which none offends. -/
structure Behind (before : List String) (flags : Bool) (named : Option String) : Prop where
  clean : ¬Somewhere Offends before
  flags_iff : flags = true ↔ endOfFlags ∉ before
  named_iff : named.isSome = true ↔ Somewhere NameBehind before
  erase_eq : before.erase endOfFlags = named.toList

namespace Behind

theorem start : Behind [] true none where
  clean := not_somewhere_nil
  flags_iff := by simp
  named_iff := by simp [not_somewhere_nil]
  erase_eq := rfl

/-- The mark is passed over, and the flags have come to an end. -/
theorem mark (h : Behind before flags named) (hmark : MarkBehind before argument) :
    Behind (before ++ [argument]) false named := by
  have hoffends : ¬Offends before argument := by
    rintro (hflag | hempty | ⟨hname, -⟩)
    · exact hflag.2.2.2 hmark.2
    · exact absurd (hmark.2.symm.trans hempty) (by decide)
    · exact hname.2 hmark
  obtain ⟨hfirst, rfl⟩ := hmark
  have hname : ¬NameBehind before endOfFlags := fun hname => hname.2 ⟨hfirst, rfl⟩
  refine ⟨?_, by simp, ?_, ?_⟩
  · rw [somewhere_concat]
    exact not_or.2 ⟨h.clean, hoffends⟩
  · rw [h.named_iff, somewhere_concat, or_iff_left hname]
  · rw [← h.erase_eq, List.erase_append_right _ hfirst, List.erase_cons_head, List.append_nil,
      List.erase_of_not_mem hfirst]

/-- A name is passed over, if it is the first and not empty. -/
theorem name (h : Behind before flags none) (hname : NameBehind before argument)
    (hne : argument ≠ "") : Behind (before ++ [argument]) flags (some argument) := by
  have hfirst : ¬Somewhere NameBehind before := by simpa using h.named_iff
  refine ⟨?_, ?_, ?_, ?_⟩
  · rw [somewhere_concat]
    refine not_or.2 ⟨h.clean, ?_⟩
    rintro (hflag | hempty | ⟨-, hother⟩)
    · exact hname.1 hflag
    · exact hne hempty
    · exact hfirst hother
  · have hmark : endOfFlags ∉ before → endOfFlags ≠ argument :=
      fun hbefore hsame => hname.2 ⟨hbefore, hsame.symm⟩
    rw [h.flags_iff, List.mem_append, List.mem_singleton, not_or]
    exact ⟨fun hbefore => ⟨hbefore, hmark hbefore⟩, And.left⟩
  · simp [somewhere_concat, hname]
  · rw [hname.erase_append, h.erase_eq, List.erase_nil, ite_self]
    rfl

/-! ## What the reader does next -/

/-- The reader takes for the mark what is the mark there: its flag says
whether there was one before. -/
theorem mark_iff (h : Behind before flags named) :
    (flags && argument == endOfFlags) = true ↔ MarkBehind before argument := by
  rw [Bool.and_eq_true, beq_iff_eq, h.flags_iff, MarkBehind]

/-- The reader takes for a flag what is a flag there. -/
theorem flag_iff (h : Behind before flags named) :
    (flags && isFlag argument) = true ↔ FlagBehind before argument := by
  rw [Bool.and_eq_true, isFlag_iff, h.flags_iff, FlagBehind]

theorem read_mark (h : Behind before flags named) (hmark : MarkBehind before argument)
    (rest : List String) : read flags named (argument :: rest) = read false named rest := by
  rw [read, if_pos (h.mark_iff.2 hmark)]

/-- A name that is not empty is kept, and the reading goes on. -/
theorem read_name (h : Behind before flags none) (hname : NameBehind before argument)
    (hne : argument ≠ "") (rest : List String) :
    read flags none (argument :: rest) = read flags (some argument) rest := by
  rw [read, if_neg (mt h.mark_iff.1 hname.2), if_neg (mt h.flag_iff.1 hname.1), if_neg (by simpa)]

/-- **An offender is answered at once.** -/
theorem read_offender (h : Behind before flags named) (hoffends : Offends before argument)
    (rest : List String) :
    (HelpBehind before argument → read flags named (argument :: rest) = help) ∧
      (¬HelpBehind before argument → read flags named (argument :: rest) = usage) := by
  have hmark : ¬MarkBehind before argument := by
    intro hmark
    exact (h.mark hmark).clean (somewhere_concat.2 (.inr hoffends))
  rw [read, if_neg (mt h.mark_iff.1 hmark)]
  by_cases hflag : FlagBehind before argument
  · rw [if_pos (h.flag_iff.2 hflag), ofFlag_eq]
    exact ⟨fun hhelp => if_pos hhelp.2, fun hhelp => if_neg fun htext => hhelp ⟨hflag, htext⟩⟩
  · -- it is empty, or not the first name
    have hrefused : (argument.isEmpty || named.isSome) = true := by
      rw [Bool.or_eq_true, String.isEmpty_iff, h.named_iff]
      exact (hoffends.resolve_left hflag).imp_right And.right
    rw [if_neg (mt h.flag_iff.1 hflag), if_pos hrefused]
    exact ⟨fun hhelp => (hflag hhelp.1).elim, fun _ => rfl⟩

end Behind

/-- **Behind arguments that do not offend** the reader is somewhere. -/
theorem exists_behind (h : ¬Somewhere Offends before) :
    ∃ flags named, Behind before flags named ∧
      ∀ rest, ofArguments (before ++ rest) = read flags named rest := by
  induction before using List.reverseRecOn with
  | nil => exact ⟨true, none, .start, fun _ => rfl⟩
  | append_singleton front last ih =>
    rw [somewhere_concat, not_or] at h
    obtain ⟨flags, named, hbehind, hread⟩ := ih h.1
    have hnext : ∀ rest, ofArguments (front ++ [last] ++ rest) = read flags named (last :: rest) :=
      fun rest => by rw [← hread, List.append_assoc, List.singleton_append]
    by_cases hmark : MarkBehind front last
    · exact ⟨false, named, hbehind.mark hmark,
        fun rest => (hnext rest).trans (hbehind.read_mark hmark rest)⟩
    · have hname : NameBehind front last := ⟨fun hflag => h.2 (.inl hflag), hmark⟩
      have hne : last ≠ "" := fun hempty => h.2 (.inr (.inl hempty))
      cases named with
      | none =>
        exact ⟨flags, some last, hbehind.name hname hne,
          fun rest => (hnext rest).trans (hbehind.read_name hname hne rest)⟩
      | some other => exact (h.2 (.inr (.inr ⟨hname, hbehind.named_iff.1 rfl⟩))).elim

/-! ## What arguments ask for -/

/-- **The first offender decides.** -/
theorem FirstOffender.ofArguments_eq (h : FirstOffender arguments before argument after) :
    (HelpBehind before argument → ofArguments arguments = help) ∧
      (¬HelpBehind before argument → ofArguments arguments = usage) := by
  obtain ⟨flags, named, hbehind, hread⟩ := exists_behind h.first
  rw [h.split, hread]
  exact hbehind.read_offender h.offends after

/-- It stays the first when there are more arguments. -/
theorem FirstOffender.append (h : FirstOffender arguments before argument after)
    (more : List String) : FirstOffender (arguments ++ more) before argument (after ++ more) :=
  ⟨by simp [h.split], h.offends, h.first⟩

/-- If any argument offends, one is the first. -/
theorem exists_firstOffender (h : Somewhere Offends arguments) :
    ∃ before argument after, FirstOffender arguments before argument after := by
  obtain ⟨before, argument, after, hsplit, hoffends, hfirst⟩ := h.exists_first
  exact ⟨before, argument, after, hsplit, hoffends, hfirst⟩

/-- **What the first offender asks for stands**, whatever comes behind. -/
theorem FirstOffender.append_eq (h : FirstOffender arguments before argument after)
    (more : List String) : ofArguments (arguments ++ more) = ofArguments arguments := by
  have hmore := (h.append more).ofArguments_eq
  by_cases hhelp : HelpBehind before argument
  · rw [hmore.1 hhelp, h.ofArguments_eq.1 hhelp]
  · rw [hmore.2 hhelp, h.ofArguments_eq.2 hhelp]

/-- Without an offender a session is asked for, on what is left without the
mark. -/
theorem exists_ofArguments_eq (h : ¬Somewhere Offends arguments) :
    ∃ named, arguments.erase endOfFlags = named.toList ∧
      ofArguments arguments = ofScript named := by
  obtain ⟨flags, named, hbehind, hread⟩ := exists_behind h
  have hend := hread []
  rw [List.append_nil] at hend
  exact ⟨named, hbehind.erase_eq, hend⟩

theorem Somewhere.mono {other : List String → String → Prop} (h : Somewhere kind arguments)
    (hle : ∀ before argument, kind before argument → other before argument) :
    Somewhere other arguments := by
  obtain ⟨before, argument, after, hsplit, hkind⟩ := h
  exact ⟨before, argument, after, hsplit, hle _ _ hkind⟩

/-- The empty argument offends wherever it stands. -/
theorem somewhere_offends_of_mem (h : "" ∈ arguments) : Somewhere Offends arguments := by
  obtain ⟨before, after, hsplit⟩ := List.append_of_mem h
  exact ⟨before, "", after, hsplit, .inr (.inl rfl)⟩

/-- Where there is no flag, and without the mark no more than a name is
left, there is no offender. -/
theorem not_somewhere_offends (hflags : ¬Somewhere FlagBehind arguments)
    (hnamed : arguments.erase endOfFlags = named.toList) (hne : named ≠ some "") :
    ¬Somewhere Offends arguments := by
  intro hoffends
  obtain ⟨before, argument, after, hsplit, hoffends, hfirst⟩ := hoffends.exists_first
  rcases hoffends with hflag | rfl | ⟨hname, hother⟩
  · exact hflags ⟨before, argument, after, hsplit, hflag⟩
  · have hmem : "" ∈ arguments.erase endOfFlags :=
      (List.mem_erase_of_ne (by decide)).2 (by simp [hsplit])
    rw [hnamed, Option.mem_toList] at hmem
    exact hne hmem
  · -- two names are left
    obtain ⟨flags, earlier, hbehind, -⟩ := exists_behind hfirst
    obtain ⟨name, rfl⟩ := Option.isSome_iff_exists.1 (hbehind.named_iff.2 hother)
    rw [hsplit, hname.erase_append, hbehind.erase_eq] at hnamed
    cases named <;> simp at hnamed

/-- The request for a session tells its script, and whether it has one. -/
theorem ofScript_injective : Function.Injective ofScript := by
  intro named other h
  cases named <;> cases other <;> cases h <;> rfl

/-- **When a session is asked for**, and on which script. -/
theorem ofArguments_eq_ofScript_iff :
    ofArguments arguments = ofScript named ↔
      ¬Somewhere FlagBehind arguments ∧ arguments.erase endOfFlags = named.toList ∧
        named ≠ some "" := by
  constructor
  · intro hsession
    by_cases hoffends : Somewhere Offends arguments
    · obtain ⟨before, argument, after, hfirst⟩ := exists_firstOffender hoffends
      have hanswer := hfirst.ofArguments_eq
      rw [hsession] at hanswer
      by_cases hhelp : HelpBehind before argument
      · cases named <;> cases hanswer.1 hhelp
      · cases named <;> cases hanswer.2 hhelp
    · obtain ⟨other, herase, hother⟩ := exists_ofArguments_eq hoffends
      obtain rfl := ofScript_injective (hsession.symm.trans hother)
      refine ⟨fun hflag => hoffends (hflag.mono fun _ _ => .inl), herase, ?_⟩
      rintro rfl
      have hmem : "" ∈ arguments.erase endOfFlags := by simp [herase]
      exact hoffends (somewhere_offends_of_mem (List.mem_of_mem_erase hmem))
  · rintro ⟨hflags, herase, hne⟩
    obtain ⟨other, hother, hsession⟩ :=
      exists_ofArguments_eq (not_somewhere_offends hflags herase hne)
    have hsame : other = named := by
      have hlist := hother.symm.trans herase
      cases other <;> cases named <;> simp_all
    rw [hsession, hsame]

end Request

open Request

/-- **The first offender decides.** A session is asked for if there is no
flag and without the mark there is one argument left that is not empty, its
script, or none, and then it prompts. Where none is asked for there is a
first argument that is a flag, or empty, or a name behind another, and it
decides alone: a flag for help is answered with the help, and everything
else with the usage line, whatever the files and the standard input. So the
answer stays, whatever arguments are put behind the others. Behind the mark
no argument is a flag, and `--help` is a name like others. -/
theorem ofArguments_firstOffender (arguments : List String) :
    (∀ path, Request.ofArguments arguments = .script path ↔
      ¬Somewhere FlagBehind arguments ∧ arguments.erase "--" = [path] ∧ path ≠ "") ∧
    (Request.ofArguments arguments = .prompt ↔
      ¬Somewhere FlagBehind arguments ∧ arguments.erase "--" = []) ∧
    ((∃ path, Request.ofArguments arguments = .script path) ∨
      Request.ofArguments arguments = .prompt ∨
      ∃ before argument after, FirstOffender arguments before argument after) ∧
    (∀ before argument after, FirstOffender arguments before argument after →
      ∀ (folder : Folder) (stdin : Bytes),
        (HelpBehind before argument →
          Answer.ofArguments arguments folder stdin = ⟨0, encode Answer.helpText, []⟩) ∧
        (¬HelpBehind before argument → Answer.ofArguments arguments folder stdin =
          ⟨64, encode "Usage: rlox [script]\n", []⟩)) ∧
    (Request.ofArguments arguments = .help ∨ Request.ofArguments arguments = .usage →
      ∀ (more : List String) (folder : Folder) (stdin : Bytes),
        Answer.ofArguments (arguments ++ more) folder stdin =
          Answer.ofArguments arguments folder stdin) := by
  have hsession (named : Option String) : Request.ofArguments arguments = ofScript named ↔ _ :=
    ofArguments_eq_ofScript_iff
  refine ⟨fun path => ?_, ?_, ?_, ?_, ?_⟩
  · have hscript := hsession (some path)
    rw [Option.toList_some, ne_eq, Option.some_inj] at hscript
    exact hscript
  · have hprompt := hsession none
    rw [Option.toList_none, and_iff_left (by simp : (none : Option String) ≠ some "")] at hprompt
    exact hprompt
  · by_cases hoffends : Somewhere Offends arguments
    · exact .inr (.inr (exists_firstOffender hoffends))
    · obtain ⟨named, -, hsession⟩ := exists_ofArguments_eq hoffends
      cases named with
      | none => exact .inr (.inl hsession)
      | some path => exact .inl ⟨path, hsession⟩
  · intro before argument after hfirst folder stdin
    rw [Answer.ofArguments_eq]
    refine ⟨fun hhelp => ?_, fun hhelp => ?_⟩
    · rw [hfirst.ofArguments_eq.1 hhelp]
    · rw [hfirst.ofArguments_eq.2 hhelp]
      rfl
  · intro hanswered more folder stdin
    by_cases hoffends : Somewhere Offends arguments
    · obtain ⟨before, argument, after, hfirst⟩ := exists_firstOffender hoffends
      rw [Answer.ofArguments_eq, Answer.ofArguments_eq, hfirst.append_eq more]
    · obtain ⟨named, -, hsession⟩ := exists_ofArguments_eq hoffends
      rw [hsession] at hanswered
      cases named <;> rcases hanswered with h | h <;> cases h

/-- A name behind the mark that looks like a flag for help is one too many
here, and is not asked for help; put first it would be. -/
theorem ofArguments_firstOffender_behindMark :
    FirstOffender ["-", "--", "-h"] ["-", "--"] "-h" [] ∧
    Answer.ofArguments ["-", "--", "-h"] ⟨[]⟩ [] = ⟨64, encode "Usage: rlox [script]\n", []⟩ ∧
    Answer.ofArguments ["-h", "-", "--"] ⟨[]⟩ [] = ⟨0, encode Answer.helpText, []⟩ := by
  have hlast : FirstOffender ["-", "--", "-h"] ["-", "--"] "-h" [] :=
    ⟨rfl, by decide, by decide⟩
  have hfront : FirstOffender ["-h", "-", "--"] [] "-h" ["-", "--"] := ⟨rfl, by decide, by decide⟩
  obtain ⟨-, -, -, husage, -⟩ := ofArguments_firstOffender ["-", "--", "-h"]
  obtain ⟨-, -, -, hhelp, -⟩ := ofArguments_firstOffender ["-h", "-", "--"]
  exact ⟨hlast, (husage _ _ _ hlast ⟨[]⟩ []).2 (by decide),
    (hhelp _ _ _ hfront ⟨[]⟩ []).1 (by decide)⟩

end LoxFront
