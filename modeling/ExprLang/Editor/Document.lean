/-
An open document, and what an editor may ask about it.

All answers come from the text alone: it is parsed when the document is
opened or changed, and the bindings at its top level are remembered by name.
When a name is bound more than once the first binding counts.
-/
import ExprLang.Editor.Range
import ExprLang.Editor.Word
import ExprLang.Parse.Program
import ExprLang.Tree.Render

namespace ExprLang.Editor

/-- A binding of a name at the top level of a document. -/
structure Definition where
  token : Token
  name : Name
  value : Option Expr
deriving Repr

namespace Definition

/-- The binding that a statement is. -/
def ofStmt? : Stmt → Option Definition
  | .binding t n v => some ⟨t, n, v⟩
  | _ => none

/-- The statement that a binding is. -/
def toStmt (d : Definition) : Stmt := .binding d.token d.name d.value

/-- The text of the statement. -/
def text (d : Definition) : Except RenderError String := d.toStmt.text

/-- Whether the name stands for a function. -/
def isFn (d : Definition) : Bool := (d.value.map Expr.isFn).getD false

/-- From the keyword to the end of the name. -/
def span (d : Definition) : Span :=
  let first := d.token.span
  let last := d.name.token.span
  ⟨first.file, first.startLine, first.startColumn, last.endLine, last.endColumn⟩

/-- Adds a binding, unless its name is already bound. -/
def addFirst (ds : List Definition) (d : Definition) : List Definition :=
  if ds.any (·.name.text = d.name.text) then ds else ds ++ [d]

/-- The first binding of each name, in the order of the text. -/
def ofStatements (ss : List Stmt) : List Definition :=
  (ss.filterMap ofStmt?).foldl addFirst []

end Definition

/-- A document: its text, and what was read off it. -/
structure Document where
  source : String
  definitions : List Definition
  notices : List Notice
deriving Repr

namespace Document

/-- The document of a text. Its name stands for the file in spans. -/
def ofSource (uri source : String) : Document :=
  let r := parse uri source nestingLimit
  ⟨source, Definition.ofStatements r.statements, r.diagnostics.map Notice.ofDiagnostic⟩

/-- The definition of a name. -/
def definition? (d : Document) (name : String) : Option Definition :=
  d.definitions.find? (·.name.text = name)

end Document

/-! ## Hovering -/

/-- What there is to know about a keyword. -/
def keywordHelp : List (String × String) :=
  [("let", "`let <name> = <expression>;` binds a name."),
   ("return", "`return <expression>;` returns a value."),
   ("fn", "`fn(<params>) \x7b ... \x7d` is a function literal."),
   ("if", "`if (<condition>) \x7b ... \x7d else \x7b ... \x7d` is a conditional expression."),
   ("else", "Alternative branch of an `if` expression."),
   ("true", "Boolean literal."),
   ("false", "Boolean literal.")]

/-- What is shown over a position, as Markdown: the help on a keyword, or the
text of a definition. -/
def Document.hover (d : Document) (line character : Int) : Except RenderError (Option String) :=
  let word := wordAt d.source line character
  if word.isEmpty then .ok none
  else match keywordHelp.lookup word with
    | some help => .ok (some ("**keyword** `" ++ word ++ "`: " ++ help))
    | none =>
      match d.definition? word with
      | none => .ok none
      | some found => found.text.map fun text => some ("```donkey\n" ++ text ++ "\n```")

/-! ## Definitions, completions and symbols -/

/-- Where the name at a position is bound. -/
def Document.definitionRange? (d : Document) (line character : Int) : Option Range :=
  (d.definition? (wordAt d.source line character)).map fun found =>
    Range.ofSpan found.name.token.span

/-- The kinds of completion. -/
inductive CompletionKind where
  | keyword | function | value
deriving Repr, DecidableEq

/-- The number of a kind of completion. -/
def CompletionKind.number : CompletionKind → Nat
  | .keyword => 14
  | .function => 3
  | .value => 6

/-- A completion, with the text of the definition it stands for. -/
structure Completion where
  label : String
  kind : CompletionKind
  detail : Option String
deriving Repr, DecidableEq

/-- The keywords as completions. -/
def keywordCompletions : List Completion :=
  keywords.map fun (word, _) => ⟨word, .keyword, none⟩

/-- A definition as a completion. -/
def Completion.ofDefinition (d : Definition) : Except RenderError Completion :=
  d.text.map fun text =>
    ⟨d.name.text, if d.isFn then .function else .value, some text⟩

/-- The names that a document adds to the completions. -/
def Document.completions (d : Document) : Except RenderError (List Completion) :=
  d.definitions.mapM Completion.ofDefinition

/-- A symbol in the outline of a document. -/
structure Symbol where
  name : String
  isFunction : Bool
  range : Range
  selection : Range
  detail : String
deriving Repr, DecidableEq

/-- The number of the kind of a symbol. -/
def Symbol.kindNumber (s : Symbol) : Nat := if s.isFunction then 12 else 13

/-- A definition as a symbol. -/
def Symbol.ofDefinition (d : Definition) : Except RenderError Symbol :=
  d.text.map fun text =>
    ⟨d.name.text, d.isFn, Range.ofSpan d.span, Range.ofSpan d.name.token.span, text⟩

/-- The outline of a document. -/
def Document.symbols (d : Document) : Except RenderError (List Symbol) :=
  d.definitions.mapM Symbol.ofDefinition

end ExprLang.Editor
