/-
Colour adds control sequences to a text and nothing else.

What is painted begins with a sequence and ends with one, and no sequence of the
text itself runs on over these ends, whether they are there or not. So a
diagnostic in colour and the same one plain are the same text without control
sequences (`Diagnostic.strip_render`), also where broken sequences stand in the
texts that it is made of. A stream that is no terminal shows no control
sequences, so on such streams a program prints the same in colour and without
(`Command.alike_perform`). Main statement: `Command.colour_stripped`.
-/
import ExprLang.Proofs.Checks
import ExprLang.Proofs.Sequences

namespace ExprLang

open Text (SequenceForm stripAnsi)

namespace Text.SequenceForm

variable {f : SequenceForm} {u v : List Char}

/-- The control sequences that texts are painted with. -/
def accents : List String :=
  [Severity.error.accent, Severity.warning.accent, Severity.note.accent, boldAccent, frameAccent, accentEnd]

/-- A form that the accents are sequences of. No sequence of it runs on over a
line break or another sequence, or behind the bars and brackets of a diagnostic. -/
structure Ordinary (f : SequenceForm) : Prop where
  accents : ∀ a ∈ accents, f.IsSequence a.toList
  stops : f.Stops '\n' ∧ f.Stops '\x1b'
  closes : f.Closes ']' ∧ f.Closes '|'

theorem Ordinary.of_eq (h : f = standard ∨ f = simple) : f.Ordinary := by
  have haccents (a : String) (ha : a ∈ SequenceForm.accents) : f.IsSequence a.toList := by
    simp only [SequenceForm.accents, List.mem_cons, List.not_mem_nil, or_false] at ha
    rcases h with rfl | rfl <;>
      rcases ha with rfl | rfl | rfl | rfl | rfl | rfl <;> exact ⟨by decide, fun _ => rfl⟩
  refine ⟨haccents, ?_, ?_⟩
  · rcases h with rfl | rfl <;> exact ⟨⟨⟨rfl, rfl⟩, rfl, by decide⟩, ⟨⟨rfl, rfl⟩, rfl, by decide⟩⟩
  · rcases h with rfl | rfl <;>
      exact ⟨⟨⟨rfl, rfl⟩, by decide, by decide⟩, ⟨⟨rfl, rfl⟩, by decide, by decide⟩⟩

theorem ordinary_standard : standard.Ordinary := .of_eq (.inl rfl)

theorem ordinary_simple : simple.Ordinary := .of_eq (.inr rfl)

namespace Ordinary

variable (hf : f.Ordinary)

include hf

/-- Nothing runs on over the end of a line. -/
theorem strip_line (u v : List Char) : f.strip (u ++ '\n' :: v) = f.strip u ++ '\n' :: f.strip v := by
  have hbreak : f.strip (['\n'] ++ v) = ['\n'] ++ f.strip v := by
    rw [strip_append (.of_notMem (by decide)), strip_of_notMem (by decide)]
  rw [strip_append (.of_head? fun c hc => Option.mem_some.mp hc ▸ hf.stops.1)]
  exact congrArg (f.strip u ++ ·) hbreak

theorem strip_intercalate (ls : List String) : f.strip ("\n".intercalate ls).toList =
    ['\n'].intercalate (ls.map fun l => f.strip l.toList) := by
  have hbreak : "\n".toList = ['\n'] := rfl
  rw [String.toList_intercalate, hbreak]
  induction ls with
  | nil => rfl
  | cons l ls ih =>
    cases ls with
    | nil => simp
    | cons k ls =>
      simp only [List.map_cons, List.intercalate_cons_cons, List.append_assoc, List.singleton_append] at ih ⊢
      rw [hf.strip_line, ih]

/-- A text is the same painted and plain, and so is what stands behind it. -/
theorem strip_paint {accent : String} (ha : accent ∈ SequenceForm.accents) (color : Bool) {text : String}
    (h : f.Splits text.toList v) :
    f.strip ((paint color accent text).toList ++ v) = f.strip text.toList ++ f.strip v := by
  cases color with
  | false => exact strip_append h
  | true =>
    have hend : accentEnd ∈ SequenceForm.accents := by simp [SequenceForm.accents]
    have hsplits : f.Splits text.toList (accentEnd.toList ++ v) :=
      .of_head? fun c hc => by
        obtain rfl : '\x1b' = c := Option.some.inj hc
        exact hf.stops.2
    rw [paint, if_pos rfl, String.toList_append, String.toList_append, List.append_assoc, List.append_assoc,
      (hf.accents _ ha).strip_append, strip_append hsplits, (hf.accents _ hend).strip_append]

theorem strip_painted {accent : String} (ha : accent ∈ SequenceForm.accents) (color : Bool) (text : String) :
    f.strip (paint color accent text).toList = f.strip text.toList := by
  have hsplits : f.Splits text.toList [] := .of_head? (by simp)
  have h := hf.strip_paint ha color hsplits
  rwa [List.append_nil, strip_nil, List.append_nil] at h

end Ordinary

end Text.SequenceForm

/-! ## Diagnostics -/

namespace Diagnostic

open Text.SequenceForm

variable {f : SequenceForm} (hf : f.Ordinary) (color : Bool)

theorem accent_mem (s : Severity) : s.accent ∈ accents := by
  cases s <;> simp [accents]

include hf

theorem strip_header (d : Diagnostic) : f.strip (d.header color).toList =
    f.strip (d.severity.name ++ "[" ++ d.code ++ "]").toList ++ f.strip (": " ++ d.message).toList := by
  have hlast : (d.severity.name ++ "[" ++ d.code ++ "]").toList.getLast? = some ']' := by
    rw [String.toList_append, List.getLast?_append]
    rfl
  rw [header, String.toList_append, hf.strip_paint (accent_mem _) color (.of_getLast? hlast hf.closes.1),
    hf.strip_painted (by simp [accents])]

theorem strip_placeLine (s : Span) : f.strip (placeLine color s).toList =
    "  ".toList ++ ("-->".toList ++ f.strip (" " ++ s.location).toList) := by
  rw [placeLine, String.append_assoc, String.toList_append, String.toList_append, List.append_assoc,
    strip_append (.of_notMem (by decide)), hf.strip_paint (by simp [accents]) color (.of_notMem (by decide)),
    strip_of_notMem (by decide), strip_of_notMem (by decide)]

/-- A line that the bar frames, with a painted text at its end. -/
theorem strip_framed {accent indent : String} (ha : accent ∈ accents) (hi : '\x1b' ∉ indent.toList)
    (text : String) : f.strip (excerptBar color ++ indent ++ paint color accent text).toList =
      "     |".toList ++ (indent.toList ++ f.strip text.toList) := by
  rw [String.append_assoc, String.toList_append, String.toList_append, excerptBar,
    hf.strip_paint (by simp [accents]) color (.of_notMem (by decide)), strip_of_notMem (by decide),
    strip_append (.of_notMem hi), strip_of_notMem hi, hf.strip_painted ha]

theorem strip_numbered (n : Int) (line : String) :
    f.strip (paint color frameAccent (lineNumber n ++ " |") ++ " " ++ line).toList =
      f.strip (lineNumber n ++ " |").toList ++ f.strip (" " ++ line).toList := by
  have hlast : (lineNumber n ++ " |").toList.getLast? = some '|' := by
    rw [String.toList_append, List.getLast?_append]
    rfl
  rw [String.append_assoc, String.toList_append,
    hf.strip_paint (by simp [accents]) color (.of_getLast? hlast hf.closes.2)]

theorem strip_excerpt (d : Diagnostic) (label : Label) (line? : Option String) (color color' : Bool) :
    (d.excerpt color label line?).map (fun l => f.strip l.toList) =
      (d.excerpt color' label line?).map fun l => f.strip l.toList := by
  have hspaces (n : Nat) : '\x1b' ∉ (" " ++ String.ofList (List.replicate n ' ')).toList := by
    simp [List.mem_replicate]
  cases line? with
  | none =>
    rw [excerpt, excerpt]
    split
    · rfl
    · have hblank : '\x1b' ∉ " ".toList := by decide
      simp only [List.map_cons, List.map_nil, strip_framed hf _ (accent_mem _) hblank]
  | some line =>
    have hindent (color : Bool) (indent : String) :
        excerptBar color ++ " " ++ indent = excerptBar color ++ (" " ++ indent) := String.append_assoc
    simp only [excerpt, List.map_cons, List.map_nil, strip_numbered hf, hindent,
      strip_framed hf _ (accent_mem _) (hspaces _)]

/-- **In colour and plain a diagnostic is the same text without control sequences.** -/
theorem strip_render (d : Diagnostic) (line? : Option String) (color color' : Bool) :
    f.strip (d.render color line?).toList = f.strip (d.render color' line?).toList := by
  have hbar (color : Bool) : f.strip (excerptBar color).toList = "     |".toList := by
    rw [excerptBar, hf.strip_painted (by simp [accents]), strip_of_notMem (by decide)]
  unfold render
  split
  · rw [strip_header hf, strip_header hf]
  next label _ _ =>
    simp only [hf.strip_intercalate, List.map_append, List.map_cons, List.map_nil, strip_header hf,
      strip_placeLine hf, hbar, strip_excerpt hf d label line? color color']

end Diagnostic

/-! ## What streams show -/

/-- Streams that are no terminals show the same of both. -/
structure ShownAlike (ps qs : List Piece) : Prop where
  stdout : Transcript.stdout false ps = Transcript.stdout false qs
  stderr : ∀ verbose, Transcript.stderr false verbose ps = Transcript.stderr false verbose qs

namespace ShownAlike

variable {ps ps' qs qs' : List Piece}

theorem refl (ps : List Piece) : ShownAlike ps ps := ⟨rfl, fun _ => rfl⟩

theorem append (h : ShownAlike ps qs) (h' : ShownAlike ps' qs') : ShownAlike (ps ++ ps') (qs ++ qs') where
  stdout := by rw [Transcript.stdout_append, Transcript.stdout_append, h.stdout, h'.stdout]
  stderr verbose := by
    rw [Transcript.stderr_append, Transcript.stderr_append, h.stderr verbose, h'.stderr verbose]

end ShownAlike

theorem shown_line {text text' : String}
    (h : SequenceForm.standard.strip text.toList = SequenceForm.standard.strip text'.toList) :
    Piece.shown false (text ++ "\n") = Piece.shown false (text' ++ "\n") := by
  have hline (t : String) : (t ++ "\n").toList = t.toList ++ '\n' :: [] := String.toList_append
  change stripAnsi _ = stripAnsi _
  rw [SequenceForm.standard_strip, SequenceForm.standard_strip, hline, hline,
    SequenceForm.ordinary_standard.strip_line, SequenceForm.ordinary_standard.strip_line, h]

namespace Command

variable (fs : FileSystem) (color color' : Bool)

theorem shownAlike_reportAlone (name source : String) :
    ShownAlike (reportAlone color name source) (reportAlone color' name source) := by
  refine .append (.refl _) ⟨?_, fun verbose => ?_⟩
  · simp [Transcript.stdout, Piece.errLine, Piece.onOut, Function.comp_def]
  · have hline (d : Diagnostic) := shown_line
      (d.strip_render SequenceForm.ordinary_standard
        (d.span?.bind fun span => Sources.line? (Sources.linesOf source) span.startLine) color color')
    simp only [Transcript.stderr, List.map_map, Function.comp_def, Piece.errLine, Piece.onErr,
      Diagnostic.renderIn, hline]

/-- The outcomes are shown alike and end alike. -/
structure Outcome.Alike (o o' : Outcome) : Prop where
  shown : ShownAlike o.pieces o'.pieces
  status : o.status = o'.status
  failure : o.failure? = o'.failure?

namespace Outcome.Alike

variable {ps qs : List Piece}

theorem refl (o : Outcome) : o.Alike o := ⟨.refl _, rfl, rfl⟩

theorem ended (h : ShownAlike ps qs) (status : Nat) : (ended ps status).Alike (ended qs status) :=
  ⟨h, rfl, rfl⟩

theorem failed (h : ShownAlike ps qs) (failure : Failure) : (failed ps failure).Alike (failed qs failure) :=
  ⟨h, rfl, rfl⟩

end Outcome.Alike

theorem alike_showProgram (name source : String) :
    (showProgram fs color name source).Alike (showProgram fs color' name source) := by
  have halike := shownAlike_reportAlone color color' name source
  obtain ⟨src, h⟩ := report_eq fs color Sources.empty name source
  obtain ⟨src', h'⟩ := report_eq fs color' Sources.empty name source
  simp only [showProgram, h, h']
  split
  · cases (parse name source nestingLimit).program.text with
    | ok text => exact .ended (halike.append (.refl _)) 0
    | error e => exact .failed halike _
  · exact .ended halike 1

/-- Checking comes to the same with each file. -/
theorem shownAlike_checkEach (src src' : Sources) (files : List Path) :
    ShownAlike (checkEach fs color src files).pieces (checkEach fs color' src' files).pieces ∧
    (checkEach fs color src files).failed = (checkEach fs color' src' files).failed ∧
    (checkEach fs color src files).failure = (checkEach fs color' src' files).failure := by
  induction files generalizing src src' with
  | nil => exact ⟨.refl _, rfl, rfl⟩
  | cons p files ih =>
    cases htext : (fs.find? p).bind (·.text?) with
    | none =>
      simp only [checkEach, htext, and_self, and_true]
      exact .refl _
    | some text =>
      obtain ⟨next, h⟩ := report_eq fs color src p.toString (asRead text)
      obtain ⟨next', h'⟩ := report_eq fs color' src' p.toString (asRead text)
      obtain ⟨hpieces, hfailed, hfailure⟩ := ih next next'
      simp only [checkEach, htext, h, h', hfailed, hfailure, and_self, and_true]
      exact (shownAlike_reportAlone color color' _ _).append hpieces

theorem alike_checkFiles (files : List Path) :
    (checkFiles fs color files).Alike (checkFiles fs color' files) := by
  obtain ⟨hpieces, hfailed, hfailure⟩ :=
    shownAlike_checkEach fs color color' Sources.empty Sources.empty files
  simp only [checkFiles, hfailed, hfailure]
  split
  · exact .failed hpieces _
  · split
    · exact .ended (hpieces.append (.refl _)) 0
    · exact .ended (hpieces.append (.refl _)) 1

theorem alike_check (settings : Settings) (p : Path) :
    (check fs settings color p).Alike (check fs settings color' p) := by
  unfold check
  split
  · exact alike_checkFiles fs color color' _
  · unfold checkUnder
    split
    · exact .refl _
    · split
      · exact .refl _
      · exact .refl _
      · exact alike_checkFiles fs color color' _

/-- The task with what it says on colour changed. -/
def Task.recolor (c : Option Bool → Option Bool) : Task → Task
  | .parse file color => .parse file (c color)
  | .check path color => .check path (c color)
  | task => task

/-- Whatever tasks say on colour, they are shown alike. -/
theorem alike_perform (stdin : String) (task : Task) (c c' : Option Bool → Option Bool) :
    (perform fs stdin (task.recolor c)).Alike (perform fs stdin (task.recolor c')) := by
  cases task with
  | version | help | tokens | shell => exact .refl _
  | parse file color =>
    simp only [Task.recolor, perform]
    split
    · exact .refl _
    · unfold withSettings
      split
      · exact alike_showProgram fs _ _ _ _
      · exact .refl _
  | check path color =>
    simp only [Task.recolor, perform]
    split
    · exact .refl _
    · unfold withSettings
      split
      · exact alike_check fs _ _ _ _
      · exact .refl _

/-! ## Arguments -/

/-- The option that asks for colour, or for none. -/
def colorOption (color : Bool) : String := if color then "--color" else "--no-color"

/-- The commands that show diagnostics. -/
def Reporting (command : String) : Prop := command = "parse" ∨ command = "check"

/-- A long option without a value is one option more. -/
theorem sortOut_flag {forms : List OptionForm} {name : String} (hdashes : name ≠ "--")
    (hoption : isOption name = true) (hcut : cutAtEquals name = (name, none))
    (hform : forms.find? (·.name = name) = some ⟨name, false⟩) (hlong : name.length ≠ 2)
    (mixed : Bool) (args : List String) :
    sortOut forms mixed (name :: args) = (sortOut forms mixed args).map (·.withOption name "") := by
  simp only [sortOut, hdashes, hoption, hcut, hform, hlong, if_false, if_true, Bool.false_eq_true]
  cases sortOut forms mixed args <;> rfl

theorem sortOut_colorOption (args : List String) : sortOut colorForms true (colorOption color :: args) =
    (sortOut colorForms true args).map (·.withOption (colorOption color) "") := by
  cases color <;> exact sortOut_flag (by decide) (by decide) (by decide) (by decide) (by decide) _ _

/-- The last option on colour counts, and this one stands in front. -/
theorem colorOf_withOption (g : Given) :
    colorOf (g.withOption (colorOption color) "") = (colorOf g).or (some color) := by
  unfold colorOf Given.withOption
  rw [List.reverse_cons, List.find?_append]
  cases color <;> cases g.options.reverse.find? _ <;> rfl

/-- An option on colour changes what the task says on it, and nothing else. -/
theorem taskOf_colorOption {command : String} (hc : Reporting command) (args : List String) :
    taskOf command (colorOption color :: args) =
      (taskOf command args).map (Task.recolor (·.or (some color))) := by
  have hhelp (g : Given) : (g.withOption (colorOption color) "").has "--help" = g.has "--help" := by
    cases color <;> rfl
  have honly (g : Given) (default : String) :
      only (g.withOption (colorOption color) "") default = only g default := rfl
  rcases hc with rfl | rfl <;>
  · simp only [taskOf, sortOut_colorOption]
    cases sortOut colorForms true args with
    | none => rfl
    | some g =>
      simp only [Option.map_some, hhelp, honly, colorOf_withOption, bind, Option.bind]
      split
      · rfl
      · cases only g _ <;> rfl

/-- A word that is no option ends the options that stand in front of a command. -/
theorem sortOut_word {word : String} (h : isOption word = false) (forms : List OptionForm)
    (rest : List String) : sortOut forms false (word :: rest) = some ⟨[], word :: rest⟩ := by
  have hdashes : word ≠ "--" := by
    rintro rfl
    exact absurd h (by decide)
  simp only [sortOut, hdashes, h, if_false, Bool.false_eq_true]

theorem invocation?_reporting {command : String} (hc : Reporting command) (rest : List String) :
    invocation? (command :: rest) = (taskOf command rest).map fun t => ⟨false, t⟩ := by
  have hword : isOption command = false ∧ commands.contains command = true := by
    rcases hc with rfl | rfl <;> decide
  rw [invocation?, sortOut_word hword.1]
  change (if commands.contains command then _ else _ : Option Invocation) = _
  rw [if_pos hword.2]
  cases taskOf command rest <;> rfl

/-- The runs print the same on streams that are no terminals, and end alike. -/
structure Run.Alike (r r' : Run) : Prop where
  stdout : r.stdout false = r'.stdout false
  stderr : r.stderr false = r'.stderr false
  status : r.outcome.status = r'.outcome.status
  failure : r.outcome.failure? = r'.outcome.failure?

theorem Outcome.Alike.run {o o' : Outcome} (h : o.Alike o') (verbose : Bool) :
    Run.Alike ⟨verbose, o⟩ ⟨verbose, o'⟩ :=
  ⟨h.shown.stdout, h.shown.stderr verbose, h.status, h.failure⟩

theorem alike_run (stdin : String) {command : String} (hc : Reporting command) (args : List String) :
    Run.Alike (run fs stdin (command :: colorOption color :: args))
      (run fs stdin (command :: colorOption color' :: args)) := by
  simp only [run, invocation?_reporting hc, taskOf_colorOption _ hc]
  cases taskOf command args with
  | none => exact (Outcome.Alike.refl _).run _
  | some task => exact (alike_perform fs stdin task _ _).run _

/-- **Colour never changes the text.** Whatever texts a diagnostic is made of,
and whatever was kept of source texts, it is the same in colour and plain
without control sequences, both for those of the simple form and for all that
streams strip; and the same is kept of source texts. So on streams that are no
terminals a program prints the same and ends alike with the one option and with
the other, and wherever else a task gets its colour from. -/
theorem colour_stripped (fs : FileSystem) (stdin : String) :
    (∀ disk sources d,
      SequenceForm.simple.strip (Sources.render disk true sources d).1.toList =
        SequenceForm.simple.strip (Sources.render disk false sources d).1.toList ∧
      stripAnsi (Sources.render disk true sources d).1 = stripAnsi (Sources.render disk false sources d).1 ∧
      (Sources.render disk true sources d).2 = (Sources.render disk false sources d).2) ∧
    (∀ args,
      Run.Alike (run fs stdin ("parse" :: "--color" :: args)) (run fs stdin ("parse" :: "--no-color" :: args)) ∧
      Run.Alike (run fs stdin ("check" :: "--color" :: args)) (run fs stdin ("check" :: "--no-color" :: args))) ∧
    (∀ (verbose : Bool) (task : Task) (c c' : Option Bool → Option Bool),
      Run.Alike ⟨verbose, perform fs stdin (task.recolor c)⟩ ⟨verbose, perform fs stdin (task.recolor c')⟩) := by
  refine ⟨fun disk sources d => ?_, fun args => ⟨?_, ?_⟩, fun verbose task c c' => ?_⟩
  · have hrender {f : SequenceForm} (hf : f.Ordinary) : f.strip (Sources.render disk true sources d).1.toList =
        f.strip (Sources.render disk false sources d).1.toList := by
      unfold Sources.render
      split <;> exact d.strip_render hf _ true false
    refine ⟨hrender SequenceForm.ordinary_simple, ?_, ?_⟩
    · rw [SequenceForm.standard_strip, SequenceForm.standard_strip, hrender SequenceForm.ordinary_standard]
    · unfold Sources.render
      split <;> rfl
  · exact alike_run fs true false stdin (.inl rfl) args
  · exact alike_run fs true false stdin (.inr rfl) args
  · exact (alike_perform fs stdin task c c').run verbose

end Command

end ExprLang
