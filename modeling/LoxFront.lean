import LoxFront.Main
import LoxFront.Expr.Clear
import LoxFront.Expr.Form
import LoxFront.Expr.PrefixForm
import LoxFront.Expr.Piece
import LoxFront.Expr.Print
import LoxFront.Expr.Shape
import LoxFront.Lexical.Cursor
import LoxFront.Lexical.Grammar
import LoxFront.Lexical.LineEnding
import LoxFront.Lexical.Mode
import LoxFront.Number.Rounding
import LoxFront.Number.Spacing
import LoxFront.Session.History
import LoxFront.Session.Listed
import LoxFront.Session.Mark
import LoxFront.Session.Note
import LoxFront.Session.TextLines
import LoxFront.Session.Utf8
import LoxFront.Proofs.Command.Answer
import LoxFront.Proofs.Command.Folder
import LoxFront.Proofs.Expr.Canonical
import LoxFront.Proofs.Expr.Printed
import LoxFront.Proofs.Expr.Reading
import LoxFront.Proofs.Expr.Congruence
import LoxFront.Proofs.Expr.Equality
import LoxFront.Proofs.Expr.Tally
import LoxFront.Proofs.Lexical.Comment
import LoxFront.Proofs.Lexical.ErrorReport
import LoxFront.Proofs.Lexical.Extension
import LoxFront.Proofs.Lexical.Lexeme
import LoxFront.Proofs.Lexical.Line
import LoxFront.Proofs.Lexical.LineEnding
import LoxFront.Proofs.Lexical.LongestMatch
import LoxFront.Proofs.Lexical.Newline
import LoxFront.Proofs.Lexical.TrailingReturn
import LoxFront.Proofs.Lexical.Written
import LoxFront.Proofs.Number.Display
import LoxFront.Proofs.Number.Literal
import LoxFront.Proofs.Number.Numeral
import LoxFront.Proofs.Number.ReadBack
import LoxFront.Proofs.Number.Rounding
import LoxFront.Proofs.Number.Text
import LoxFront.Proofs.Session.Encoding
import LoxFront.Proofs.Session.History
import LoxFront.Proofs.Session.Input
import LoxFront.Proofs.Session.Limit
import LoxFront.Proofs.Session.Listing
import LoxFront.Proofs.Session.Log
import LoxFront.Proofs.Session.Prompt
import LoxFront.Proofs.Session.Run
import LoxFront.Proofs.Session.Pass
import LoxFront.Proofs.Session.File
import LoxFront.Proofs.Session.Utf8
import LoxFront.Proofs.Expr.Narrowing
import LoxFront.Command.Offender
import LoxFront.Proofs.Command.Offender
import LoxFront.Number.DecimalText
import LoxFront.Proofs.Number.DecimalText
import LoxFront.Proofs.Number.Shortest
import LoxFront.Lexical.Reader
import LoxFront.Proofs.Lexical.Reader
import LoxFront.Proofs.Lexical.Progress
