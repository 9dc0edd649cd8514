import LoxFront.Command.Request
/-!
# Offenders

What an argument is depends on those before it, and on nothing else: a
flag, the mark that ends the flags, or a name. This file says so without a
reader, and says which arguments offend: the flags, the empty ones, and
every name behind another. The first of them decides, and there is no
offender where a session is asked for.
-/

namespace LoxFront

namespace Request

/-- There is an argument of this kind, told by those before it. -/
def Somewhere (kind : List String → String → Prop) (arguments : List String) : Prop :=
  ∃ before argument after, arguments = before ++ argument :: after ∧ kind before argument

/-- Behind these arguments this one is a flag. -/
def FlagBehind (before : List String) (argument : String) : Prop :=
  endOfFlags ∉ before ∧ ['-'] <+: argument.toList ∧ argument ≠ "-" ∧ argument ≠ endOfFlags

/-- Behind these arguments this one ends the flags. Only the first mark
does. -/
def MarkBehind (before : List String) (argument : String) : Prop :=
  endOfFlags ∉ before ∧ argument = endOfFlags

/-- Behind these arguments this one is a name. -/
def NameBehind (before : List String) (argument : String) : Prop :=
  ¬FlagBehind before argument ∧ ¬MarkBehind before argument

/-- **Behind these arguments this one offends.** -/
def Offends (before : List String) (argument : String) : Prop :=
  FlagBehind before argument ∨ argument = "" ∨
    (NameBehind before argument ∧ Somewhere NameBehind before)

/-- **The first offender** among arguments, with those before it and those
behind. -/
structure FirstOffender (arguments before : List String) (argument : String)
    (after : List String) : Prop where
  split : arguments = before ++ argument :: after
  offends : Offends before argument
  first : ¬Somewhere Offends before

/-- Behind these arguments this one is a flag for help. -/
def HelpBehind (before : List String) (argument : String) : Prop :=
  FlagBehind before argument ∧ (argument = "--help" ∨ ['-', 'h'] <+: argument.toList)

/-! ## Looking for offenders -/

/-- An argument of a kind is looked for place by place. -/
theorem somewhere_iff {kind : List String → String → Prop} {arguments : List String} :
    Somewhere kind arguments ↔
      ∃ i : Fin arguments.length, kind (arguments.take i) arguments[i] := by
  constructor
  · rintro ⟨before, argument, after, rfl, hkind⟩
    exact ⟨⟨before.length, by simp⟩, by simpa using hkind⟩
  · rintro ⟨i, hkind⟩
    refine ⟨arguments.take i, arguments[i], arguments.drop (i + 1), ?_, hkind⟩
    exact (List.take_append_drop i arguments).symm.trans (by simp)

instance {kind : List String → String → Prop} [∀ before, DecidablePred (kind before)]
    (arguments : List String) : Decidable (Somewhere kind arguments) :=
  decidable_of_iff _ somewhere_iff.symm

instance (before : List String) : DecidablePred (FlagBehind before) :=
  fun argument => inferInstanceAs (Decidable (_ ∧ ['-'] <+: argument.toList ∧ _ ∧ _))

instance (before : List String) : DecidablePred (MarkBehind before) :=
  fun _ => inferInstanceAs (Decidable (_ ∧ _))

instance (before : List String) : DecidablePred (NameBehind before) :=
  fun _ => inferInstanceAs (Decidable (_ ∧ _))

instance (before : List String) : DecidablePred (Offends before) :=
  fun _ => inferInstanceAs (Decidable (_ ∨ _ ∨ _ ∧ _))

instance (before : List String) : DecidablePred (HelpBehind before) :=
  fun argument => inferInstanceAs (Decidable (_ ∧ (_ ∨ ['-', 'h'] <+: argument.toList)))

example : Offends ["-", "--"] "-h" ∧ ¬Somewhere Offends ["-", "--"] ∧ Offends ["--", "--"] "" := by
  decide

end Request

end LoxFront
