/-!
# Cutting text

A text is cut at the first character of a kind, which belongs to neither
part, and into lines at its newlines. A line has no newline, and a carriage
return at its end is a part of it.
-/

namespace LoxFront

/-- What stands before the first of these characters, and what behind it. -/
def cutAt (stop : Char) (text : List Char) : List Char × List Char :=
  (text.takeWhile (· != stop), (text.dropWhile (· != stop)).tail)

/-- Behind the cut no more is left than there was. -/
theorem length_cutAt_le (stop : Char) (text : List Char) :
    (cutAt stop text).2.length ≤ text.length := by
  have hdrop := (List.dropWhile_suffix (p := (· != stop)) (l := text)).length_le
  rw [cutAt, List.length_tail]
  omega

/-- Less is left, unless there was nothing: a cut takes its stop with it. -/
theorem length_cutAt_lt (stop : Char) {text : List Char} (h : text ≠ []) :
    (cutAt stop text).2.length < text.length := by
  have hdrop := (List.dropWhile_suffix (p := (· != stop)) (l := text)).length_le
  have hpos := List.length_pos_iff.2 h
  rw [cutAt, List.length_tail]
  omega

/-- **The lines of a text.** What stands behind the last newline is a line
too, unless it is empty. -/
def textLines : List Char → List (List Char)
  | [] => []
  | c :: rest => (cutAt '\n' (c :: rest)).1 :: textLines (cutAt '\n' (c :: rest)).2
termination_by text => text.length
decreasing_by exact length_cutAt_lt '\n' (List.cons_ne_nil c rest)

@[simp] theorem textLines_nil : textLines [] = [] := by rw [textLines]

end LoxFront
