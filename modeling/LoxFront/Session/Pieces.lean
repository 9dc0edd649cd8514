import LoxFront.Session.Basic
/-!
# A listing in pieces

A listing is not handed over at once. Token by token its writer is given
the name of the kind, a space, the lexeme, where there is a value another
space and the value, and the end of the line. Of the first piece that finds
too little room the writer takes what it has room for, and it is given none
behind that.
-/

namespace LoxFront

/-- The pieces of a token's line in a listing. -/
def Token.pieces (t : Token) : List String :=
  t.kind.name :: " " :: t.lexeme ::
    match t.literal with
    | some value => [" ", value.display, "\n"]
    | none => ["\n"]

namespace Session

/-- **Writes pieces** to an output writer, up to the first that fails. -/
def writePieces : List Bytes → Room → Outcome
  | [], _ => .nothing
  | piece :: rest, out =>
    let sent := out.deliver piece
    if sent.complete then .ofOutput sent.accepted ++ writePieces rest sent.room
    else { Outcome.ofOutput sent.accepted with failure := some .sinkFull }

/-- Writes the lines of tokens, piece by piece. -/
def writeTokens (tokens : List Token) (out : Room) : Outcome :=
  writePieces (tokens.flatMap fun t => t.pieces.map encode) out

end Session

end LoxFront
