import ExprLang.Editor.Workspace
import ExprLang.Main
import ExprLang.Parse.Session
import ExprLang.Proofs.Chains
import ExprLang.Proofs.Division
import ExprLang.Proofs.FixedPoint
import ExprLang.Proofs.Nesting
import ExprLang.Proofs.Absence
import ExprLang.Proofs.Carried
import ExprLang.Proofs.Terminator
import ExprLang.Proofs.OneAhead
import ExprLang.Proofs.Layout
import ExprLang.Proofs.Documents
import ExprLang.Proofs.Excerpts
import ExprLang.Proofs.Height
import ExprLang.Proofs.Files
import ExprLang.Proofs.Mistakes
import ExprLang.Proofs.Dialogue
import ExprLang.Proofs.Checks
import ExprLang.Proofs.Overflow
import ExprLang.Proofs.Lines
import ExprLang.Proofs.Sites
import ExprLang.Proofs.Carets
import ExprLang.Proofs.Notices
import ExprLang.Proofs.Words
import ExprLang.Proofs.Lookup
import ExprLang.Proofs.Outline
import ExprLang.Proofs.LineByLine
import ExprLang.Proofs.Sequences
import ExprLang.Proofs.Colour
import ExprLang.Proofs.Unreadable
import ExprLang.Proofs.Nearest
