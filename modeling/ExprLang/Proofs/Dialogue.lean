/-
A session of the shell is a walk over the lines of its input.

What is printed up to a line is put together from the answers to the single
lines (`Shell.lines_append`), and the answer to a line is its `Shell.echo`,
which knows nothing of other lines. The walk stops at the first line that is
the exit command but for the blanks around it, or behind the last line. Main
statement: `Shell.run_lines`.
-/
import ExprLang.Proofs.Height
import ExprLang.Proofs.Printed

namespace ExprLang

namespace Text

/-! ## Lines -/

/-- The text is cut into these lines, each behind the line break that ends it;
the last one may have none. -/
inductive Cut : List Char → List (List Char) → Prop
  | nil : Cut [] []
  | last : line ≠ [] → '\n' ∉ line → Cut line [line]
  | line : '\n' ∉ line → Cut cs ls → Cut (line ++ '\n' :: cs) ((line ++ ['\n']) :: ls)

theorem cut_shellLines (cs : List Char) : Cut cs (shellLines cs) := by
  induction cs with
  | nil => exact .nil
  | cons c cs ih =>
    by_cases hc : c = '\n'
    · rw [hc, shellLines]
      exact Cut.line List.not_mem_nil ih
    · have hmem : ∀ {line : List Char}, '\n' ∉ line → '\n' ∉ c :: line :=
        fun h => List.not_mem_cons_of_ne_of_not_mem (Ne.symm hc) h
      rw [shellLines.eq_3 c cs hc]
      generalize shellLines cs = ls at ih
      cases ih with
      | nil => exact .last (List.cons_ne_nil _ _) (hmem List.not_mem_nil)
      | last _ hno => exact .last (List.cons_ne_nil _ _) (hmem hno)
      | line hno h => exact .line (hmem hno) h

theorem Cut.flatten {cs : List Char} {ls : List (List Char)} (h : Cut cs ls) : ls.flatten = cs := by
  induction h with
  | nil => rfl
  | last => simp
  | line _ _ ih => simp [ih]

/-! ## Blanks around a text -/

/-- The one text is the other without the blanks around it. -/
structure Trimmed (cs ds : List Char) : Prop where
  around : ∃ ws ws', cs = ws ++ ds ++ ws' ∧ (∀ c ∈ ws, isSpace c = true) ∧ ∀ c ∈ ws', isSpace c = true
  first : ∀ c ∈ ds.head?, isSpace c = false
  last : ∀ c ∈ ds.getLast?, isSpace c = false

theorem dropWhile_isSpace_of_head? {cs : List Char} (h : ∀ c ∈ cs.head?, isSpace c = false) :
    cs.dropWhile isSpace = cs := by
  cases cs with
  | nil => rfl
  | cons c cs => rw [List.dropWhile_cons_of_neg (by rw [h c rfl]; exact Bool.false_ne_true)]

theorem isSpace_head?_dropWhile (cs : List Char) :
    ∀ c ∈ (cs.dropWhile isSpace).head?, isSpace c = false := by
  intro c hc
  have := List.head?_dropWhile_not isSpace cs
  rwa [hc] at this

theorem trimmed_strip (cs : List Char) : Trimmed cs (strip cs) := by
  generalize hds : cs.dropWhile isSpace = ds
  have hfront : cs = cs.takeWhile isSpace ++ ds := by
    rw [← hds, List.takeWhile_append_dropWhile]
  have hback : ds = (ds.reverse.dropWhile isSpace).reverse ++ (ds.reverse.takeWhile isSpace).reverse := by
    rw [← List.reverse_append, List.takeWhile_append_dropWhile, List.reverse_reverse]
  rw [strip, hds]
  refine ⟨⟨cs.takeWhile isSpace, (ds.reverse.takeWhile isSpace).reverse, ?_, ?_, ?_⟩, ?_, ?_⟩
  · rw [List.append_assoc, ← hback]
    exact hfront
  · exact fun c hc => List.mem_takeWhile_imp hc
  · exact fun c hc => List.mem_takeWhile_imp (List.mem_reverse.mp hc)
  · intro c hc
    refine isSpace_head?_dropWhile cs c ?_
    rw [hds, hback]
    cases hr : (ds.reverse.dropWhile isSpace).reverse with
    | nil => rw [hr] at hc; cases hc
    | cons d rest => rwa [hr] at hc
  · intro c hc
    rw [List.getLast?_reverse] at hc
    exact isSpace_head?_dropWhile ds.reverse c hc

theorem Trimmed.strip_eq {cs ds : List Char} (h : Trimmed cs ds) : strip cs = ds := by
  obtain ⟨⟨ws, ws', rfl, hws, hws'⟩, hfirst, hlast⟩ := h
  have hws'r : ∀ c ∈ ws'.reverse, isSpace c = true := fun c hc => hws' c (List.mem_reverse.mp hc)
  rw [strip, List.append_assoc, List.dropWhile_append_of_pos hws]
  cases ds with
  | nil =>
    rw [List.nil_append, List.dropWhile_eq_nil_iff.mpr hws']
    rfl
  | cons d ds =>
    have hkeep : (d :: ds ++ ws').dropWhile isSpace = d :: ds ++ ws' :=
      dropWhile_isSpace_of_head? (by simpa using hfirst)
    rw [hkeep, List.reverse_append, List.dropWhile_append_of_pos hws'r, dropWhile_isSpace_of_head?,
      List.reverse_reverse]
    rw [List.head?_reverse]
    exact hlast

theorem trimmed_iff {cs ds : List Char} : Trimmed cs ds ↔ strip cs = ds :=
  ⟨Trimmed.strip_eq, fun h => h ▸ trimmed_strip cs⟩

end Text

/-- The last token of a text and no other is its end token. -/
theorem exists_tokenize_eq (file source : String) : ∃ ts final, tokenize file source = ts ++ [final] ∧
    final.kind = .eof ∧ final.literal = "" ∧ ∀ t ∈ ts, t.kind ≠ .eof := by
  obtain ⟨xs, hxs⟩ := Scans.exists source.toList
  have hfinal := (@TokenStream.lexemes_ofSource file _ _ hxs).2
  have hs := TokenStream.ended_ofSource file source
  rw [TokenStream.tokenize_eq]
  generalize TokenStream.ofSource file source = stream at hfinal hs
  refine ⟨stream.pending, stream.final, rfl, hs.final, ?_, hs.pending⟩
  exact String.toList_eq_nil_iff.mp (congrArg Prod.snd hfinal)

namespace Shell

/-! ## The answer to a line -/

/-- The line can be answered: its tree, where it is to be shown, is not too high. -/
def Answerable (mode : ShellMode) (line : String) : Prop :=
  mode = .parse → (parse fileName line nestingLimit).errors = [] →
    (parse fileName line nestingLimit).program.height ≤ renderLimit

/-- What is printed for a line: a record of each token, or the line as it is
parsed, or a heading and each of its mistakes. -/
def echo (terminal : Bool) (mode : ShellMode) (line : String) : String :=
  match mode with
  | .tokens =>
    String.join ((tokenize fileName line).map fun t => Piece.shown terminal (record t ++ "\n"))
  | .parse =>
    let r := parse fileName line nestingLimit
    if r.errors = [] then Piece.shown terminal (r.program.render ++ "\n")
    else Piece.shown terminal "parser errors:\n" ++
      String.join (r.messages.map fun m => Piece.shown terminal ("\t" ++ m ++ "\n"))

variable {mode : ShellMode} {line : String}

theorem failure_answer (h : Answerable mode line) : (answer mode line).failure = none := by
  cases mode with
  | tokens => rfl
  | parse =>
    rw [answer, showParse_eq]
    by_cases he : (parse fileName line nestingLimit).errors = []
    · simp [he, h rfl he]
    · simp [he]

theorem stdout_answer (terminal : Bool) (h : Answerable mode line) :
    Transcript.stdout terminal (answer mode line).pieces = echo terminal mode line := by
  cases mode with
  | tokens =>
    rw [answer, showTokens, Transcript.stdout_flatMap]
    simp [echo, Transcript.stdout_logs fun _ => Log.log_of_mem_ofToken, Piece.outLine, Piece.onOut]
  | parse =>
    have hlog : Transcript.stdout terminal
        (Log.ofReading fileName line (parse fileName line nestingLimit)) = "" :=
      Transcript.stdout_logs fun _ => Log.log_of_mem_ofReading
    rw [answer, showParse_eq, echo]
    by_cases he : (parse fileName line nestingLimit).errors = []
    · simp [he, h rfl he, hlog, Piece.outLine, Piece.onOut]
    · simp only [he, ne_eq, not_false_eq_true, if_true, if_false, Transcript.stdout_append,
        Transcript.stdout_cons, hlog, String.empty_append]
      simp [Transcript.stdout, Piece.outLine, Piece.onOut, Function.comp_def]

/-! ## The walk over the lines -/

variable {s : ShellSettings} {prompt exitCommand : String}

theorem isExit_iff (he : s.exitCommand = .string exitCommand) (line : List Char) :
    isExit s line = true ↔ Text.Trimmed line exitCommand.toList := by
  rw [isExit, he, Toml.Value.isText, decide_eq_true_iff, Text.trimmed_iff, ← String.toList_inj,
    String.toList_ofList]
  exact eq_comm

/-- Lines that are answered come before what the rest of the lines comes to. -/
theorem lines_append (before rest : List (List Char))
    (h : ∀ line ∈ before, isExit s line = false ∧ Answerable s.mode (String.ofList line)) :
    lines s prompt (before ++ rest) = (lines s prompt rest).after
      (before.flatMap fun line => .out prompt :: (answer s.mode (String.ofList line)).pieces) := by
  induction before with
  | nil => rfl
  | cons line before ih =>
    obtain ⟨⟨hexit, hanswer⟩, hbefore⟩ := List.forall_mem_cons.mp h
    rw [List.cons_append, lines, if_neg (by rw [hexit]; exact Bool.false_ne_true)]
    simp [failure_answer hanswer, ih hbefore, Result.after]

/-- The welcome, if there is one. -/
def welcome (terminal : Bool) (s : ShellSettings) (exitCommand : String) : String :=
  if s.welcome.isTrue then Piece.shown terminal (banner exitCommand) else ""

theorem session_eq (hp : s.prompt = .string prompt) (he : s.exitCommand = .string exitCommand)
    (input : List (List Char)) : ∃ ps, session s input = (lines s prompt input).after ps ∧
      ∀ terminal, Transcript.stdout terminal ps = welcome terminal s exitCommand := by
  by_cases hw : s.welcome.isTrue
  · refine ⟨[.log Log.shell ("starting repl in " ++ s.mode.name ++ " mode"), .out (banner exitCommand)],
      ?_, fun terminal => ?_⟩
    · simp [session, opening, hp, he, hw, Toml.Value.text]
    · simp [welcome, hw, Piece.onOut]
  · refine ⟨[.log Log.shell ("starting repl in " ++ s.mode.name ++ " mode")], ?_, fun terminal => ?_⟩
    · simp [session, opening, hp, hw, Toml.Value.text]
    · simp [welcome, hw, Piece.onOut]

/-- What has been printed when the lines in front of the next prompt are answered. -/
def printed (terminal : Bool) (s : ShellSettings) (prompt exitCommand : String)
    (before : List (List Char)) : String :=
  welcome terminal s exitCommand ++ String.join (before.map fun line =>
    Piece.shown terminal prompt ++ echo terminal s.mode (String.ofList line)) ++
    Piece.shown terminal prompt

theorem stdout_answers (terminal : Bool) {before : List (List Char)}
    (h : ∀ line ∈ before, Answerable s.mode (String.ofList line)) :
    Transcript.stdout terminal
        (before.flatMap fun line => .out prompt :: (answer s.mode (String.ofList line)).pieces) =
      String.join (before.map fun line =>
        Piece.shown terminal prompt ++ echo terminal s.mode (String.ofList line)) := by
  rw [Transcript.stdout_flatMap]
  refine congrArg String.join (List.map_congr_left fun line hline => ?_)
  rw [Transcript.stdout_cons, stdout_answer terminal (h line hline), Piece.onOut]

/-- **A session answers line by line up to the exit command.** The lines are
those of the input, each cut off behind its line break. In front of the first
line that is the exit command but for blanks around it, each line is answered
behind a prompt by its own echo; there is one more prompt, and what follows
that line is left unread. Without such a line all are answered, and a line
break follows the last prompt. The tokens that are shown of a line are those
of the line alone, and the end token is the last of them only. -/
theorem run_lines (s : ShellSettings) (prompt exitCommand input : String)
    (hp : s.prompt = .string prompt) (he : s.exitCommand = .string exitCommand) :
    Text.Cut input.toList (Text.shellLines input.toList) ∧
    (∀ before line after, Text.shellLines input.toList = before ++ line :: after →
      (∀ l ∈ before, ¬ Text.Trimmed l exitCommand.toList ∧ Answerable s.mode (String.ofList l)) →
      Text.Trimmed line exitCommand.toList →
      (run s input).unread = after ∧
      input.toList = before.flatten ++ line ++ (run s input).unread.flatten ∧
      (run s input).failure = none ∧
      ∀ terminal, Transcript.stdout terminal (run s input).pieces =
        printed terminal s prompt exitCommand before) ∧
    ((∀ l ∈ Text.shellLines input.toList,
        ¬ Text.Trimmed l exitCommand.toList ∧ Answerable s.mode (String.ofList l)) →
      (run s input).unread = [] ∧ (run s input).failure = none ∧
      ∀ terminal, Transcript.stdout terminal (run s input).pieces =
        printed terminal s prompt exitCommand (Text.shellLines input.toList) ++ "\n") ∧
    ∀ line, ∃ ts final, tokenize fileName line = ts ++ [final] ∧
      final.kind = .eof ∧ final.literal = "" ∧ ∀ t ∈ ts, t.kind ≠ .eof := by
  have hcut := Text.cut_shellLines input.toList
  obtain ⟨ps, hsession, hps⟩ := session_eq hp he (Text.shellLines input.toList)
  have hanswered : ∀ {before : List (List Char)},
      (∀ l ∈ before, ¬ Text.Trimmed l exitCommand.toList ∧ Answerable s.mode (String.ofList l)) →
      ∀ l ∈ before, isExit s l = false ∧ Answerable s.mode (String.ofList l) := by
    intro before h l hl
    exact ⟨Bool.eq_false_iff.mpr fun hx => (h l hl).1 ((isExit_iff he l).mp hx), (h l hl).2⟩
  refine ⟨hcut, ?_, ?_, exists_tokenize_eq fileName⟩
  · intro before line after hlines hbefore hline
    have hrun : run s input = (lines s prompt (line :: after)).after (ps ++ before.flatMap fun line =>
        .out prompt :: (answer s.mode (String.ofList line)).pieces) := by
      rw [run, hsession, hlines, lines_append before _ (hanswered hbefore)]
      simp [Result.after]
    rw [lines, if_pos ((isExit_iff he line).mpr hline)] at hrun
    have hunread : (run s input).unread = after := by rw [hrun]; rfl
    refine ⟨hunread, ?_, by rw [hrun]; rfl, fun terminal => ?_⟩
    · rw [hunread, ← hcut.flatten, hlines]
      simp
    · rw [hrun]
      simp [Result.after, hps, stdout_answers terminal fun l hl => (hbefore l hl).2, printed, Piece.onOut,
        String.append_assoc]
  · intro hall
    have hrun : run s input = (lines s prompt []).after
        (ps ++ (Text.shellLines input.toList).flatMap fun line =>
          .out prompt :: (answer s.mode (String.ofList line)).pieces) := by
      rw [run, hsession]
      conv_lhs => rw [← List.append_nil (Text.shellLines input.toList)]
      rw [lines_append _ _ (hanswered hall)]
      simp [Result.after]
    rw [hrun]
    refine ⟨rfl, rfl, fun terminal => ?_⟩
    have hbreak : Piece.shown terminal "\n" = "\n" := Piece.shown_of_notMem terminal (by decide)
    simp [Result.after, lines, hps, stdout_answers terminal fun l hl => (hall l hl).2, printed, Piece.onOut,
      Piece.outLine, hbreak, String.append_assoc]

/-- A line and a mistake are answered; the exit command stands between blanks,
and what follows it is not read. -/
theorem run_lines_bye :
    Text.shellLines "a;\n)\n\tbye \nc".toList =
      [['a', ';', '\n'], [')', '\n']] ++ ['\t', 'b', 'y', 'e', ' ', '\n'] :: [['c']] ∧
    (run ⟨.string "> ", .string "bye", .parse, .bool false⟩ "a;\n)\n\tbye \nc").unread = [['c']] ∧
    Transcript.stdout false
        (run ⟨.string "> ", .string "bye", .parse, .bool false⟩ "a;\n)\n\tbye \nc").pieces =
      "> a\n> parser errors:\n\tno prefix parse function for RPAREN found\n> " := by
  have hlines : Text.shellLines "a;\n)\n\tbye \nc".toList =
      [['a', ';', '\n'], [')', '\n']] ++ ['\t', 'b', 'y', 'e', ' ', '\n'] :: [['c']] := by decide
  obtain ⟨-, hexit, -⟩ := run_lines ⟨.string "> ", .string "bye", .parse, .bool false⟩ "> " "bye"
    "a;\n)\n\tbye \nc" rfl rfl
  obtain ⟨hunread, -, -, hout⟩ := hexit _ _ _ hlines
    (by
      simp only [List.forall_mem_cons, Text.trimmed_iff]
      exact ⟨⟨by decide, fun _ _ => by decide⟩, ⟨by decide, fun _ he => absurd he (by decide)⟩, by simp⟩)
    (Text.trimmed_iff.mpr (by decide))
  exact ⟨hlines, hunread, (hout false).trans (by decide +kernel)⟩

end Shell

end ExprLang
