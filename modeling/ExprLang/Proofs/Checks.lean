/-
Checking files is parsing each of them alone.

What checking a list of files prints is put together from the reports on the
single files, and the report on a file knows nothing of the others or of what
was kept of them (`Command.checkEach_append`). Main statement:
`Command.check_each`.
-/
import ExprLang.Proofs.Excerpts
import ExprLang.Proofs.Height
import ExprLang.Proofs.Layout
import ExprLang.Proofs.Printed
import ExprLang.Proofs.Search

namespace ExprLang

/-- A diagnostic as text, with its line taken from a text. -/
def Diagnostic.renderIn (color : Bool) (source : String) (d : Diagnostic) : String :=
  d.render color (d.span?.bind fun span => Sources.line? (Sources.linesOf source) span.startLine)

theorem file_of_mem_tokenize {file source : String} {t : Token} (ht : t ∈ tokenize file source) :
    t.span.file = file := by
  have hkept := (Cursor.kept_move file source.toList 0 .drain).tokens t
  rw [← Cursor.start_eq_ofOffset] at hkept
  exact (hkept ht).file

theorem file?_of_mem_diagnostics {file source : String} {limit : Nat} {d : Diagnostic}
    (hd : d ∈ (parse file source limit).diagnostics) : d.file? = some file := by
  obtain ⟨e, he, rfl⟩ := List.mem_map.mp hd
  obtain ⟨t, ht, hspan⟩ := exists_mem_span_eq he
  rw [← file_of_mem_tokenize ht, hspan]
  rfl

namespace Command

/-- The failure that a command ends with before it is through. -/
def Outcome.failure? : Outcome → Option Failure
  | .failed _ failure => some failure
  | .misused | .ended _ _ => none

variable {fs : FileSystem} {color : Bool} {name source : String}

/-- Where the text of a file is registered, its diagnostics are shown in it. -/
theorem renderAll_eq (disk : String → Option String) {src : Sources} {ds : List Diagnostic}
    (hsrc : src.kept.lookup name = some (Sources.linesOf source)) (hds : ∀ d ∈ ds, d.file? = some name) :
    renderAll disk color src ds = (ds.map (·.renderIn color source), src) := by
  induction ds with
  | nil => rfl
  | cons d ds ih =>
    obtain ⟨hd, hds⟩ := List.forall_mem_cons.mp hds
    obtain ⟨span, hspan, hfile⟩ := Option.map_eq_some_iff.mp hd
    have hload : src.load disk span.file = (Sources.linesOf source, src) := by
      rw [Sources.load, hfile, hsrc]
    have hrender : src.render disk color d = (d.renderIn color source, src) := by
      rw [Sources.render_eq, hspan, Diagnostic.renderIn, hspan]
      simp only [hload, Option.bind_some]
    simp only [renderAll, hrender, ih hds, List.map_cons]

/-- What is printed about a file as it is parsed alone. -/
def reportAlone (color : Bool) (name source : String) : List Piece :=
  let r := parse name source nestingLimit
  Log.ofReading name source r ++ r.diagnostics.map fun d => .errLine (d.renderIn color source)

/-- What was kept before does not matter for a report. -/
theorem report_eq (fs : FileSystem) (color : Bool) (src : Sources) (name source : String) :
    ∃ src', report fs color src name source =
      (parse name source nestingLimit, reportAlone color name source, src') := by
  unfold report reportAlone
  cases he : (parse name source nestingLimit).errors with
  | nil => exact ⟨src, by simp [he, Reading.diagnostics]⟩
  | cons e es =>
    have hkept : (src.add name source).kept.lookup name = some (Sources.linesOf source) := by
      simp [Sources.add]
    have hfile : ∀ d ∈ (parse name source nestingLimit).diagnostics, d.file? = some name :=
      fun _ => file?_of_mem_diagnostics
    have hall := @renderAll_eq color name source (diskText fs) _ _ hkept hfile
    exact ⟨src.add name source, by simp [he, hall]⟩

/-- Whether a file has mistakes. -/
def isMistaken (e : Path × String) : Bool :=
  !(parse e.1.toString (asRead e.2) nestingLimit).diagnostics.isEmpty

/-- Each file is reported on alone, and counted if it has mistakes, whatever comes behind. -/
theorem checkEach_append (src : Sources) {entries : List (Path × String)}
    (h : ∀ e ∈ entries, fs.find? e.1 = some (.file e.2)) (rest : List Path) :
    ∃ src', checkEach fs color src (entries.map (·.1) ++ rest) =
      ⟨(entries.flatMap fun e => reportAlone color e.1.toString (asRead e.2)) ++
          (checkEach fs color src' rest).pieces,
        entries.countP isMistaken + (checkEach fs color src' rest).failed,
        (checkEach fs color src' rest).failure⟩ := by
  induction entries generalizing src with
  | nil => exact ⟨src, by simp⟩
  | cons e entries ih =>
    obtain ⟨he, hmore⟩ := List.forall_mem_cons.mp h
    obtain ⟨src', hreport⟩ := report_eq fs color src e.1.toString (asRead e.2)
    obtain ⟨src'', hrest⟩ := ih src' hmore
    refine ⟨src'', ?_⟩
    simp only [List.map_cons, List.cons_append, checkEach, he, Option.bind_some, FileTree.text?, hreport, hrest,
      List.flatMap_cons, List.append_assoc, List.countP_cons, isMistaken, Reading.diagnostics, List.isEmpty_map,
      Checked.mk.injEq, and_true, true_and]
    cases (parse e.1.toString (asRead e.2) nestingLimit).errors with
    | nil => simp
    | cons => simp only [List.isEmpty_cons, Bool.not_false, Bool.false_eq_true, if_false, if_true]; omega

theorem checkEach_eq (src : Sources) {entries : List (Path × String)}
    (h : ∀ e ∈ entries, fs.find? e.1 = some (.file e.2)) :
    checkEach fs color src (entries.map (·.1)) =
      ⟨entries.flatMap fun e => reportAlone color e.1.toString (asRead e.2),
        entries.countP isMistaken, none⟩ := by
  obtain ⟨src', heq⟩ := @checkEach_append fs color src entries h []
  simpa [checkEach] using heq

/-- The line that sums up the files with mistakes among all files, if there are any. -/
def mistakenLine (failed total : Nat) : String :=
  if failed = 0 then "" else toString failed ++ " of " ++ toString total ++ " file(s) had errors\n"

/-- The outcome is that of parsing each of the files alone, one after the other:
on standard error stands what each of them is answered with, which are the
texts of its own diagnostics if the log is not shown, and then one line if there
were any. -/
structure SumsUp (fs : FileSystem) (color : Bool) (entries : List (Path × String)) (o : Outcome) :
    Prop where
  ended : o = .ended o.pieces o.status
  status : o.status = if entries.countP isMistaken = 0 then 0 else 1
  reports : ∃ summary, o.pieces =
    (entries.flatMap fun e => reportAlone color e.1.toString (asRead e.2)) ++ [summary]
  stderr : ∀ terminal verbose, Transcript.stderr terminal verbose o.pieces =
    String.join (entries.map fun e => Transcript.stderr terminal verbose
      (showProgram fs color e.1.toString (asRead e.2)).pieces) ++
    mistakenLine (entries.countP isMistaken) entries.length
  diagnostics : ∀ terminal, Transcript.stderr terminal false o.pieces =
    String.join (entries.flatMap fun e =>
      (parse e.1.toString (asRead e.2) nestingLimit).diagnostics.map fun d =>
        Piece.shown terminal (d.renderIn color (asRead e.2) ++ "\n")) ++
    mistakenLine (entries.countP isMistaken) entries.length

/-- Parsing a file alone shows the report on it on standard error. -/
theorem stderr_showProgram (terminal verbose : Bool) :
    Transcript.stderr terminal verbose (showProgram fs color name source).pieces =
      Transcript.stderr terminal verbose (reportAlone color name source) := by
  obtain ⟨src', hreport⟩ := report_eq fs color Sources.empty name source
  simp only [showProgram, hreport]
  split
  · cases (parse name source nestingLimit).program.text <;>
      simp [Outcome.pieces, Piece.outLine, Piece.onErr]
  · rfl

theorem stderr_reportAlone (terminal : Bool) :
    Transcript.stderr terminal false (reportAlone color name source) =
      String.join ((parse name source nestingLimit).diagnostics.map fun d =>
        Piece.shown terminal (d.renderIn color source ++ "\n")) := by
  rw [reportAlone, Transcript.stderr_append, Transcript.stderr_logs fun _ => Log.log_of_mem_ofReading]
  simp [Transcript.stderr, Piece.errLine, Piece.onErr, Function.comp_def]

/-- The line in which mistaken files are counted is shown as it is. -/
theorem onErr_mistaken (terminal verbose : Bool) (failed total : Nat) :
    (Piece.errLine (toString failed ++ " of " ++ toString total ++ " file(s) had errors")).onErr
      terminal verbose = toString failed ++ " of " ++ toString total ++ " file(s) had errors\n" := by
  have hdigits (n : Nat) : '\x1b' ∉ Nat.toDigits 10 n := fun h =>
    absurd (Nat.isDigit_of_mem_toDigits (by decide) (by decide) h) (by decide)
  have hline : toString failed ++ " of " ++ toString total ++ " file(s) had errors" ++ "\n" =
      toString failed ++ " of " ++ toString total ++ " file(s) had errors\n" := by
    rw [String.append_assoc]
    rfl
  rw [Piece.errLine, Piece.onErr, hline]
  refine Piece.shown_of_notMem terminal ?_
  simp [hdigits]

theorem sumsUp_checkFiles {entries : List (Path × String)}
    (h : ∀ e ∈ entries, fs.find? e.1 = some (.file e.2)) :
    SumsUp fs color entries (checkFiles fs color (entries.map (·.1))) := by
  obtain ⟨summary, houtcome, hsummary⟩ : ∃ summary,
      checkFiles fs color (entries.map (·.1)) = .ended
        ((entries.flatMap fun e => reportAlone color e.1.toString (asRead e.2)) ++ [summary])
        (if entries.countP isMistaken = 0 then 0 else 1) ∧
      ∀ terminal verbose, summary.onErr terminal verbose =
        mistakenLine (entries.countP isMistaken) entries.length := by
    simp only [checkFiles, checkEach_eq _ h, List.length_map, mistakenLine]
    split
    · exact ⟨_, rfl, fun terminal verbose => rfl⟩
    · exact ⟨_, rfl, fun terminal verbose => onErr_mistaken terminal verbose _ _⟩
  rw [houtcome]
  have hstderr (terminal verbose : Bool) (ps : List Piece) :
      Transcript.stderr terminal verbose (ps ++ [summary]) = Transcript.stderr terminal verbose ps ++
        mistakenLine (entries.countP isMistaken) entries.length := by
    simp [hsummary]
  refine ⟨rfl, rfl, ⟨summary, rfl⟩, fun terminal verbose => (hstderr terminal verbose _).trans ?_,
    fun terminal => (hstderr terminal false _).trans ?_⟩
  · simp only [Transcript.stderr_flatMap, stderr_showProgram]
  · simp only [Transcript.stderr_flatMap, stderr_reportAlone, join_flatMap]

/-- The files that are checked, with their texts: in order, and each once. If
there are none, a warning is all there is. -/
structure Checks (fs : FileSystem) (color : Bool) (extension : String) (entries : List (Path × String))
    (o : Outcome) : Prop where
  once : (entries.map (·.1)).Nodup
  ordered : (entries.map (·.1)).Pairwise (·.sortKey ≤ ·.sortKey)
  none : entries = [] → o = .ended [.errLine ("warning: no " ++ extension ++ " files found")] 0
  some : entries ≠ [] → SumsUp fs color entries o

theorem checks_checkUnder {settings : Settings} {extension : String} {p : Path}
    {entries : List (Path × String)} (hext : settings.extension.text = .ok extension)
    (hfound : globUnder fs ("*" ++ extension) p = .ok (entries.map (·.1)))
    (h : ∀ e ∈ entries, fs.find? e.1 = some (.file e.2)) :
    Checks fs color extension entries (checkUnder fs settings color p) := by
  obtain ⟨honce, hordered⟩ := pairwise_globUnder hfound
  refine ⟨honce, hordered, fun he => ?_, fun he => ?_⟩
  · subst he
    simp only [checkUnder, hext, hfound, List.map_nil]
  · have hsums : SumsUp fs color entries _ := sumsUp_checkFiles h
    cases entries with
    | nil => exact absurd rfl he
    | cons e entries => simpa only [checkUnder, hext, hfound, List.map_cons] using hsums

/-- **Checking files is parsing each of them alone.** At the path of a file it is
this one file that is checked, whatever its name. Otherwise it is what the pattern
of the extension finds, if that is files only: in order, each once, and each
reported on as if it were alone, whatever is wrong with the others. The status
tells whether there were mistakes, and their last line in how many files. A
pattern of one component finds what is anywhere under the directory and has a
name that matches. -/
theorem check_each {fs : FileSystem} {path : String} {t : FileTree} {settings : Settings}
    (hpath : fs.locate path = .ok t) (hsettings : Settings.discover fs (.ofString path) = .ok settings)
    (stdin : String) (color : Option Bool) :
    let p := Path.ofString path
    let colored := color.getD settings.color.isTrue
    let o := perform fs stdin (.check path color)
    (∀ text, fs.find? p = some (.file text) → SumsUp fs colored [(p, text)] o) ∧
    (∀ extension, settings.extension.text = .ok extension →
      (∀ text, fs.find? p ≠ some (.file text)) →
      (∀ entries : List (Path × String),
        globUnder fs ("*" ++ extension) p = .ok (entries.map (·.1)) →
        (∀ e ∈ entries, fs.find? e.1 = some (.file e.2)) → Checks fs colored extension entries o) ∧
      ∀ dir : FileTree, fs.find? p = some dir → dir.Proper →
        (∀ e ∈ dir.nodes, Path.fault? (p.append e.1).toString = none) →
        Component ("*" ++ extension) →
        (∀ place name node, dir.at? (place ++ [name]) = some node →
          globMatch ("*" ++ extension) name → ∃ text, node = .file text) →
        ∃ entries : List (Path × String), Checks fs colored extension entries o ∧
          ∀ q text, (q, text) ∈ entries ↔ ∃ place name, dir.at? (place ++ [name]) = some (.file text) ∧
            globMatch ("*" ++ extension) name ∧ q = p.append (place ++ [name])) := by
  intro p colored o
  have ho : o = check fs settings colored p := by
    simp only [o, perform, hpath, withSettings, hsettings, p, colored]
  refine ⟨fun text htext => ?_, fun extension hext hfile => ?_⟩
  · have hcheck : o = checkFiles fs colored [p] := by rw [ho, check, htext]
    rw [hcheck]
    exact @sumsUp_checkFiles fs colored [(p, text)] (by simpa using htext)
  have hcheck : o = checkUnder fs settings colored p := by
    rw [ho, check]
    split
    next text htext => exact absurd htext (hfile text)
    next => rfl
  rw [hcheck]
  have hlist {entries : List (Path × String)}
      (hfound : globUnder fs ("*" ++ extension) p = .ok (entries.map (·.1)))
      (h : ∀ e ∈ entries, fs.find? e.1 = some (.file e.2)) :
      Checks fs colored extension entries (checkUnder fs settings colored p) :=
    checks_checkUnder hext hfound h
  refine ⟨fun entries hfound h => hlist hfound h, fun dir hdir hproper hfault hcomponent hregular => ?_⟩
  obtain ⟨entries, hfound, hread, hmem⟩ := hcomponent.exists_entries hdir hproper hfault hregular
  exact ⟨entries, hlist hfound hread, hmem⟩

/-- Of two files in two directories the second has a mistake; a third one has
another extension. -/
theorem check_each_second :
    let fs : FileSystem := ⟨.dir [("b.dk", .file "1;"), ("c", .dir [("a.dk", .file ")"), ("x", .file "(")])], []⟩
    let o := perform fs "" (.check "." (some false))
    (∃ entries, Checks fs false ".dk" entries o ∧
      ∀ q text, (q, text) ∈ entries ↔ ∃ place name, fs.root.at? (place ++ [name]) = some (.file text) ∧
        globMatch "*.dk" name ∧ q = Path.append ⟨false, []⟩ (place ++ [name])) ∧
    Transcript.stderr false false o.pieces =
      "error[E201]: no prefix parse function for RPAREN found\n  --> c/a.dk:1:1\n     |\n" ++
        "   1 | )\n     | ^ expression cannot start here\n1 of 2 file(s) had errors\n" ∧
    o.status = 1 := by
  intro fs o
  have hpath : fs.locate "." = .ok fs.root := by rfl
  have hsettings : Settings.discover fs (.ofString ".") = .ok Settings.default := by
    have hnone : Settings.find fs (.ofString ".") = .ok none := by decide +kernel
    rw [Settings.discover, hnone]
  obtain ⟨-, htree⟩ := check_each hpath hsettings "" (some false)
  obtain ⟨hlist, hdir⟩ := htree ".dk" rfl (fun text h => by cases h)
  have hchecks := hlist [(⟨false, ["b.dk"]⟩, "1;"), (⟨false, ["c", "a.dk"]⟩, ")")] (by decide +kernel)
    (by simp only [List.forall_mem_cons]; exact ⟨by rfl, by rfl, by simp⟩)
  have hsums := hchecks.some (by simp)
  refine ⟨?_, (hsums.diagnostics false).trans (by decide +kernel), hsums.status.trans (by decide +kernel)⟩
  have hproper : fs.root.Proper := by
    refine .dir (by decide) (by decide) ?_
    simp only [List.forall_mem_cons]
    refine ⟨.file _, .dir (by decide) (by decide) ?_, by simp⟩
    simp only [List.forall_mem_cons]
    exact ⟨.file _, .file _, by simp⟩
  refine hdir fs.root rfl hproper (by decide +kernel) ⟨by decide, by decide, by decide⟩ ?_
  intro place name node hat hmatch
  have hfiles : ∀ e ∈ fs.root.nodes, e.1.getLast?.any (globMatch "*.dk") → e.2.isDir = false := by
    decide +kernel
  have hnode := hfiles _ (hproper.mem_nodes.mpr hat) (by simpa using hmatch)
  cases node with
  | file text => exact ⟨text, rfl⟩
  | dir entries => cases hnode

end Command

end ExprLang
