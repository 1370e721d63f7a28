/-
What is at each place of a file tree, and that a write changes one place.

Following a path is walking from place to place (`FileTree.Way`), so what it
reads depends on nothing but what is at the places (`FileTree.AlikeBut`). A
file that is written is no way to another, so whoever asks for another file
gets what there was (`Command.diskText_write`).
-/
import ExprLang.Command.Run
import ExprLang.Proofs.Entries

namespace ExprLang

namespace FileTree

/-! ## Places -/

/-- The node at a place: the names lead from directory to directory. -/
def at? (t : FileTree) : List String → Option FileTree
  | [] => some t
  | name :: rest =>
    match t with
    | .file _ => none
    | .dir entries =>
      match entries.lookup name with
      | none => none
      | some entry => entry.at? rest

/-- What is at a place: nothing, a directory, or a file with its text. -/
def view (t : FileTree) (place : List String) : Option (Option String) :=
  (t.at? place).map text?

/-- Trees with the same at all places but one, where no directory is in either. -/
structure AlikeBut (q : List String) (t t' : FileTree) : Prop where
  others : ∀ place ≠ q, t.view place = t'.view place
  left : t.view q ≠ some none
  right : t'.view q ≠ some none

/-- A node is at a place, and above it are these directories, the nearest first. -/
inductive Way (t : FileTree) : List String → FileTree → List FileTree → Prop
  | root : Way t [] t []
  | enter : Way t place (.dir entries) trail → entries.lookup name = some node →
      Way t (place ++ [name]) node (.dir entries :: trail)

/-- Where components lead, starting from a place. -/
def moved (place parts : List String) : List String :=
  parts.foldl (fun done part => if part = ".." then done.dropLast else done ++ [part]) place

/-- The text that components lead to, if they lead to a file. -/
def textFrom (node : FileTree) (trail : List FileTree) (parts : List String) : Option String :=
  (node.follow trail parts).toOption.bind text?

variable {t t' node node' : FileTree} {place q parts : List String} {trail trail' : List FileTree}
  {entries entries' : List (String × FileTree)}

@[simp] theorem at?_nil (t : FileTree) : t.at? [] = some t := by
  cases t <;> rfl

@[simp] theorem at?_file (text name : String) (rest : List String) :
    (file text).at? (name :: rest) = none := rfl

theorem at?_dir (entries : List (String × FileTree)) (name : String) (rest : List String) :
    (dir entries).at? (name :: rest) = (entries.lookup name).bind (·.at? rest) := by
  rw [at?]
  cases entries.lookup name <;> rfl

theorem at?_append (t : FileTree) (p q : List String) :
    t.at? (p ++ q) = (t.at? p).bind (·.at? q) := by
  induction p generalizing t with
  | nil => simp
  | cons name rest ih =>
    cases t with
    | file text => rfl
    | dir entries =>
      rw [List.cons_append, at?_dir, at?_dir]
      cases entries.lookup name with
      | none => rfl
      | some entry => exact ih entry

/-! ## Walking -/

theorem Way.at? (h : Way t place node trail) : t.at? place = some node := by
  induction h with
  | root => simp
  | enter _ hl ih => rw [at?_append, ih, Option.bind_some, at?_dir, hl, Option.bind_some, at?_nil]

theorem Way.view (h : Way t place node trail) : t.view place = some node.text? := by
  rw [FileTree.view, h.at?, Option.map_some]

theorem Way.view_concat (h : Way t place (.dir entries) trail) (name : String) :
    t.view (place ++ [name]) = (entries.lookup name).map text? := by
  rw [FileTree.view, at?_append, h.at?, Option.bind_some, at?_dir]
  cases entries.lookup name <;> simp

/-- Two dots lead to the directory above, and nowhere at the root. -/
theorem Way.up (h : Way t place node trail) :
    Way t place.dropLast (trail.headD t) trail.tail := by
  cases h with
  | root => exact .root
  | enter h _ => simpa using h

@[simp] theorem textFrom_nil (node : FileTree) (trail : List FileTree) :
    node.textFrom trail [] = node.text? := by
  cases node <;> rfl

theorem textFrom_up (h : Way t place (.dir entries) trail) (rest : List String) :
    (dir entries).textFrom trail (".." :: rest) = (trail.headD t).textFrom trail.tail rest := by
  cases h <;> rfl

theorem textFrom_name {name : String} (h1 : name ≠ ".") (h2 : name ≠ "..") (rest : List String) :
    (dir entries).textFrom trail (name :: rest) =
      (entries.lookup name).bind (·.textFrom (dir entries :: trail) rest) := by
  change (if name = "." then _ else if name = ".." then _ else _ :
    Except PathError FileTree).toOption.bind text? = _
  rw [if_neg h1, if_neg h2]
  cases entries.lookup name <;> rfl

/-- A file has nothing under it. -/
theorem textFrom_of_ne_dir (hn : node.text? ≠ none) (hp : parts ≠ []) :
    node.textFrom trail parts = none := by
  cases node with
  | dir => simp [text?] at hn
  | file text =>
    cases parts with
    | nil => exact absurd rfl hp
    | cons => rfl

/-- Walks to a place where the trees are alike read the same. -/
theorem AlikeBut.textFrom_eq (h : AlikeBut q t t') (hw : Way t place node trail)
    (hw' : Way t' place node' trail') (hdot : "." ∉ parts) (hq : moved place parts ≠ q) :
    node.textFrom trail parts = node'.textFrom trail' parts := by
  induction parts generalizing place node node' trail trail' with
  | nil =>
    have hview := h.others place hq
    rw [hw.view, hw'.view] at hview
    simpa using hview
  | cons part rest ih =>
    rw [List.mem_cons, not_or] at hdot
    obtain ⟨hpart, hdot⟩ := hdot
    by_cases hplace : place = q
    · -- A walk does not go on from a file.
      subst hplace
      have hn : node.text? ≠ none := fun hn => h.left (by rw [hw.view, hn])
      have hn' : node'.text? ≠ none := fun hn => h.right (by rw [hw'.view, hn])
      rw [textFrom_of_ne_dir hn (List.cons_ne_nil _ _), textFrom_of_ne_dir hn' (List.cons_ne_nil _ _)]
    have hview := h.others place hplace
    rw [hw.view, hw'.view, Option.some_inj] at hview
    match node, node', hview with
    | .file _, .file _, _ => rfl
    | .dir entries, .dir entries', _ =>
      by_cases hup : part = ".."
      · subst hup
        rw [textFrom_up hw, textFrom_up hw']
        exact ih hw.up hw'.up hdot hq
      have hmoved : moved (place ++ [part]) rest ≠ q := by
        simpa [moved, hup] using hq
      rw [textFrom_name (Ne.symm hpart) hup, textFrom_name (Ne.symm hpart) hup]
      have hl := hw.view_concat part
      have hl' := hw'.view_concat part
      by_cases hnext : place ++ [part] = q
      · have hrest : rest ≠ [] := fun he => hmoved (by rw [he]; exact hnext)
        rw [hnext] at hl hl'
        rw [Option.bind_eq_none_iff.mpr, Option.bind_eq_none_iff.mpr]
        · intro entry he
          exact textFrom_of_ne_dir (fun hn => h.right (by rw [hl', he, Option.map_some, hn])) hrest
        · intro entry he
          exact textFrom_of_ne_dir (fun hn => h.left (by rw [hl, he, Option.map_some, hn])) hrest
      · have hsame := h.others _ hnext
        rw [hl, hl'] at hsame
        match he : entries.lookup part, he' : entries'.lookup part, hsame with
        | none, none, _ => rfl
        | some entry, some entry', _ => exact ih (hw.enter he) (hw'.enter he') hdot hmoved

/-! ## Writing -/

theorem lookup_setEntry (name : String) (node : FileTree) (entries : List (String × FileTree))
    (other : String) : (setEntry name node entries).lookup other =
      if other = name then some node else entries.lookup other := by
  induction entries with
  | nil => rw [setEntry, lookup_cons_eq]
  | cons entry entries ih =>
    obtain ⟨n, old⟩ := entry
    by_cases hn : n = name
    · rw [setEntry, if_pos hn, lookup_cons_eq, lookup_cons_eq, hn]
      split <;> rfl
    · rw [setEntry, if_neg hn, lookup_cons_eq, lookup_cons_eq, ih]
      grind

/-- A file can be written at a place: it is in a directory, and no directory itself. -/
structure Writable (t : FileTree) (place : List String) : Prop where
  parent : t.view place.dropLast = some none
  here : t.view place ≠ some none

theorem view_dir (entries : List (String × FileTree)) (name : String) (rest : List String) :
    (dir entries).view (name :: rest) = (entries.lookup name).bind (·.view rest) := by
  rw [view, at?_dir]
  cases entries.lookup name <;> rfl

theorem view_nil (t : FileTree) : t.view [] = some t.text? := by
  rw [view, at?_nil, Option.map_some]

/-- In the last directory on the way the file is the new entry, before that
the writing goes on in a directory that is there. -/
theorem Writable.view_put_child {name : String} {rest : List String}
    (h : (dir entries).Writable (name :: rest)) (text : String) (more : List String)
    (ih : ∀ child : FileTree, child.Writable rest → (child.put rest (.file text)).view more =
      if more = rest then some (some text) else child.view more) :
    (put ((entries.lookup name).getD (.dir [])) rest (.file text)).view more =
      if name :: more = name :: rest then some (some text)
      else (entries.lookup name).bind (·.view more) := by
  have hhere := h.here
  have hparent := h.parent
  rw [view_dir] at hhere
  cases rest with
  | nil =>
    change (file text).view more = _
    cases more with
    | nil => simp [view_nil, text?]
    | cons other more =>
      rw [if_neg (by simp), eq_comm, Option.bind_eq_none_iff.mpr]
      · rfl
      intro entry he
      rw [he, Option.bind_some, view_nil] at hhere
      match entry, hhere with
      | .file _, _ => rfl
      | .dir _, hhere => exact absurd rfl hhere
  | cons other rest =>
    rw [List.dropLast_cons_of_ne_nil (List.cons_ne_nil _ _), view_dir] at hparent
    obtain ⟨child, hchild, hparent⟩ := Option.bind_eq_some_iff.mp hparent
    rw [hchild, Option.bind_some] at hhere
    rw [hchild, Option.getD_some, Option.bind_some, ih child ⟨hparent, hhere⟩]
    simp

/-- A file that is written is at its place, and elsewhere is what was. -/
theorem Writable.view_put (h : t.Writable q) (text : String) (place : List String) :
    (t.put q (.file text)).view place = if place = q then some (some text) else t.view place := by
  induction q generalizing t place with
  | nil => exact absurd h.parent h.here
  | cons name rest ih =>
    match t, h with
    | .file old, h =>
      have hp := h.parent
      cases rest <;> simp [view, text?] at hp
    | .dir entries, h =>
      change (dir (setEntry name _ entries)).view place = _
      cases place with
      | nil => simp [view_nil, text?]
      | cons other more =>
        rw [view_dir, view_dir, lookup_setEntry]
        by_cases hother : other = name
        · rw [if_pos hother, hother, Option.bind_some]
          exact h.view_put_child text more fun child hc => ih hc more
        · rw [if_neg hother, if_neg (by simp [hother])]

theorem Writable.alikeBut (h : t.Writable q) (text : String) :
    AlikeBut q t (t.put q (.file text)) where
  others place hp := by rw [h.view_put, if_neg hp]
  left := h.here
  right := by simp [h.view_put]

end FileTree

/-- A file can be written at a path. -/
def FileSystem.Writable (fs : FileSystem) (p : Path) : Prop := fs.root.Writable (fs.resolve p)

theorem Path.dot_notMem_parts_ofString (text : String) : "." ∉ (ofString text).parts := by
  simp [ofString]

/-- Writing a file changes the text of no other. -/
theorem Command.diskText_write {fs : FileSystem} {p : Path} {file : String} (h : fs.Writable p)
    (hdot : "." ∉ fs.workingDir) (hne : fs.resolve (Path.ofString file) ≠ fs.resolve p)
    (text : String) : diskText (fs.write p text) file = diskText fs file := by
  have hparts : "." ∉ if (Path.ofString file).absolute then (Path.ofString file).parts
      else fs.workingDir ++ (Path.ofString file).parts := by
    split
    · exact Path.dot_notMem_parts_ofString file
    · exact fun hm => (List.mem_append.mp hm).elim hdot (Path.dot_notMem_parts_ofString file)
  have heq := (h.alikeBut text).textFrom_eq .root .root hparts hne
  simp only [diskText, FileSystem.find?, FileSystem.find, FileSystem.follow, FileSystem.write]
  cases Path.fault? (Path.ofString file).toString with
  | some e => rfl
  | none => exact congrArg (Option.map asRead) heq.symm

end ExprLang
