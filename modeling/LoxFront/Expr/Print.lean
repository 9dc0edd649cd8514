import LoxFront.Expr.Visitor
/-!
# The printed form

A tree is printed with every node but the literals in parentheses and what
the node is first: the lexeme of its operator, whatever that is, or the
word `group`. Literals are displayed as values are. Neither the kind nor
the line of an operator's token shows.
-/

namespace LoxFront

/-- A node in parentheses: its name, and its parts with a space before
each. -/
def parenthesized (name : String) (parts : List String) : String :=
  "(" ++ name ++ String.join (parts.map (" " ++ ·)) ++ ")"

/-- The visitor that prints. -/
def Visitor.printer : Visitor String where
  binary operator left right := parenthesized operator.token.lexeme [left, right]
  grouping inner := parenthesized "group" [inner]
  literal value := value.display
  unary operator operand := parenthesized operator.token.lexeme [operand]

/-- **The printed form** of a tree. -/
def Expr.print (e : Expr) : String := e.visit Visitor.printer

end LoxFront
