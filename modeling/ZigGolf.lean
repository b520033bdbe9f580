import ZigGolf.Main
import ZigGolf.Tool.Desk
import ZigGolf.Proofs.Minification.RoundTrip
import ZigGolf.Proofs.Minification.Idempotence
import ZigGolf.Proofs.Minification.Outcome
import ZigGolf.Proofs.Minification.Formatting
import ZigGolf.Proofs.Minification.Canonical
import ZigGolf.Proofs.Lexing.Line
import ZigGolf.Proofs.Minification.LineEnd
import ZigGolf.Proofs.Minification.Session
import ZigGolf.Proofs.Tool.Run
import ZigGolf.Proofs.Naming.Assignment
import ZigGolf.Proofs.Minification.Length
import ZigGolf.Proofs.Source.Mark
import ZigGolf.Proofs.Lexing.Malformed
import ZigGolf.Proofs.Naming.Shortlex
import ZigGolf.Proofs.Lexing.Numeral
import ZigGolf.Proofs.Lexing.Literal
import ZigGolf.Proofs.Source.Position
import ZigGolf.Proofs.Minification.CodePoint
import ZigGolf.Proofs.Lexing.Alone
import ZigGolf.Proofs.Lexing.Lexer
import ZigGolf.Proofs.Diagnostic.Report
import ZigGolf.Proofs.Diagnostic.Message
import ZigGolf.Proofs.Tool.Settings
import ZigGolf.Proofs.Lexing.Listing
import ZigGolf.Proofs.Source.Walk
import ZigGolf.Proofs.Naming.Search
