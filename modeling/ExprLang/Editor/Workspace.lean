/-
The documents that an editor has open, and the answers to what it sends.

Opening and changing a document replace all that is known about it, closing
it forgets it. Requests change nothing. A request about a place has to name a
position, whether or not the document is open.
-/
import ExprLang.Editor.Document

namespace ExprLang.Editor

/-- The open documents by name, in the order in which they were opened. -/
structure Workspace where
  documents : List (String × Document)
deriving Repr

/-- What an editor sends. -/
inductive Message where
  | open (uri text : String)
  /-- The texts a document was changed to, one after the other. -/
  | change (uri : String) (texts : List String)
  | close (uri : String)
  | hover (uri : String) (line character : Int)
  | definition (uri : String) (line character : Int)
  | completion (uri : String) (line character : Int)
  | symbols (uri : String)
deriving Repr

/-- Why the numbers in a message are no position. -/
def Message.fault? : Message → Option PositionError
  | .hover _ line character | .definition _ line character | .completion _ line character =>
    positionFault? line character
  | .open _ _ | .change _ _ | .close _ | .symbols _ => none

/-- Why a message has no answer. -/
inductive MessageError where
  | position (e : PositionError)
  | render (e : RenderError)
deriving Repr, DecidableEq

/-- What an editor gets. -/
inductive Answer where
  /-- The notices on a document. -/
  | published (uri : String) (notices : List Notice)
  | nothing
  | hover (markdown : String)
  | location (uri : String) (range : Range)
  | completions (items : List Completion)
  | symbols (items : List Symbol)
deriving Repr

namespace Workspace

/-- Nothing is open. -/
def empty : Workspace := ⟨[]⟩

/-- The names of the open documents. -/
def uris (w : Workspace) : List String := w.documents.map (·.1)

/-- An open document. -/
def find? (w : Workspace) (uri : String) : Option Document := w.documents.lookup uri

/-- Puts a document in the place of one of the same name, or at the end. -/
def put (uri : String) (d : Document) : List (String × Document) → List (String × Document)
  | [] => [(uri, d)]
  | (u, old) :: more => if u = uri then (uri, d) :: more else (u, old) :: put uri d more

/-- A document gets a text. -/
def setText (w : Workspace) (uri text : String) : Answer × Workspace :=
  let d := Document.ofSource uri text
  (.published uri d.notices, ⟨put uri d w.documents⟩)

/-- The completions for a document; the keywords are always among them. -/
def completions (w : Workspace) (uri : String) : Except RenderError (List Completion) := do
  match w.find? uri with
  | none => return keywordCompletions
  | some d => return keywordCompletions ++ (← d.completions)

/-- The outline of a document; one that is not open has nothing in it. -/
def symbols (w : Workspace) (uri : String) : Except RenderError (List Symbol) :=
  match w.find? uri with
  | none => .ok []
  | some d => d.symbols

/-- Where the name at a position is bound. -/
def definition (w : Workspace) (uri : String) (line character : Int) : Answer :=
  match (w.find? uri).bind (·.definitionRange? line character) with
  | none => .nothing
  | some range => .location uri range

/-- What is shown over a position. -/
def hover (w : Workspace) (uri : String) (line character : Int) : Except RenderError Answer := do
  match w.find? uri with
  | none => return .nothing
  | some d =>
    match ← d.hover line character with
    | none => return .nothing
    | some markdown => return .hover markdown

/-- The answer to a message whose numbers are a position, and the documents after it. -/
def answer (w : Workspace) : Message → Except RenderError (Answer × Workspace)
  | .open uri text => .ok (w.setText uri text)
  | .change uri texts => .ok (w.setText uri (texts.getLast?.getD ""))
  | .close uri => .ok (.nothing, ⟨w.documents.filter (·.1 ≠ uri)⟩)
  | .hover uri line character => return (← w.hover uri line character, w)
  | .definition uri line character => .ok (w.definition uri line character, w)
  | .completion uri _ _ => return (.completions (← w.completions uri), w)
  | .symbols uri => return (.symbols (← w.symbols uri), w)

/-- The answer to a message, and the documents after it. -/
def handle (w : Workspace) (m : Message) : Except MessageError (Answer × Workspace) :=
  match m.fault? with
  | some e => .error (.position e)
  | none => (w.answer m).mapError .render

end Workspace

end ExprLang.Editor
