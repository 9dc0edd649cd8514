import LoxFront.Expr.Visitor
/-!
# The shape of a tree

Where a tree has nodes and of which kinds, whatever operators and values
they hold. A node has an address: the numbers of the children to go down to
from the top, the first being number 0. An address comes before those that
go on from it and before those that turn off to a later child, so the
lexicographic order of addresses puts a node before its children and left
before right.

A visitor may also keep a record and change it as it goes: what a tree is
worth to it is an action, and each node says when its children's actions
are run.
-/

namespace LoxFront

namespace Expr

/-- The kind of the node at the top. -/
def kind : Expr → NodeKind
  | binary _ _ _ => .binary
  | grouping _ => .grouping
  | literal _ => .literal
  | unary _ _ => .unary

/-- The trees below the node at the top, from left to right. -/
def children : Expr → List Expr
  | binary _ left right => [left, right]
  | grouping inner => [inner]
  | literal _ => []
  | unary _ operand => [operand]

/-- The tree whose top is at this address. -/
def at? (e : Expr) : List Nat → Option Expr
  | [] => some e
  | i :: address => e.children[i]?.bind (·.at? address)

/-- **Trees of one shape**: the nodes are of the same kinds all through. -/
inductive SameShape : Expr → Expr → Prop
  | binary {o p : BinaryOperator} {left right left' right' : Expr} :
      SameShape left left' → SameShape right right' →
      SameShape (.binary o left right) (.binary p left' right')
  | grouping {inner inner' : Expr} :
      SameShape inner inner' → SameShape (.grouping inner) (.grouping inner')
  | literal {v w : Value} : SameShape (.literal v) (.literal w)
  | unary {o p : UnaryOperator} {operand operand' : Expr} :
      SameShape operand operand' → SameShape (.unary o operand) (.unary p operand')

end Expr

/-- **The visitor that notes nodes as it goes**: it puts each at the end of
its record before it goes on to the children, left before right, and gives
back how many it came to. -/
def Visitor.noting : Visitor (StateM (List NodeKind) Nat) where
  binary _ left right := do
    modify (· ++ [.binary])
    return 1 + (← left) + (← right)
  grouping inner := do
    modify (· ++ [.grouping])
    return 1 + (← inner)
  literal _ := do
    modify (· ++ [.literal])
    return 1
  unary _ operand := do
    modify (· ++ [.unary])
    return 1 + (← operand)

end LoxFront
