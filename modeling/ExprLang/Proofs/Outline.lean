/-
The outline of a document and its completions.

Both list the names that a document binds at its top level, each once and in
the order in which they are first bound (`Definition.names_ofStatements`). The
range of a binding goes from its `let` to its name. These are words of the text
in its order, also in a text with mistakes and over several lines, and between
two words there is always something (`Token.Before.stop_lt_start`); so the
ranges come one after the other. Main statement: `Workspace.outline_agrees`.
-/
import Mathlib.Data.List.Nodup
import Mathlib.Data.Prod.Lex
import ExprLang.Proofs.Carried
import ExprLang.Proofs.Lookup

namespace ExprLang

variable {file uri source : String} {cs before after before' after' : List Char} {t u : Token} {k : Nat}

/-! ## Words apart -/

namespace Editor.Range

/-- The place where a range starts: the line, and the character on it. -/
def start (r : Range) : Int ×ₗ Int := toLex (r.startLine, r.startCharacter)

/-- The place behind a range. -/
def stop (r : Range) : Int ×ₗ Int := toLex (r.endLine, r.endCharacter)

end Editor.Range

open Editor (Range)

/-- A word does not start right behind another one, let alone in it. -/
theorem Token.Sited.length_add_lt (ht : t.Sited file cs k before after) (hu : u.Sited file cs k before' after')
    (htw : ∀ c ∈ t.literal.toList, isWordChar c = true) (huw : ∀ c ∈ u.literal.toList, isWordChar c = true)
    (h : before.length < before'.length) : before.length + t.literal.toList.length < before'.length := by
  have hline : before ++ (t.literal.toList ++ after) = before' ++ (u.literal.toList ++ after') := by
    rw [← List.append_assoc, ← List.append_assoc]
    exact Option.some_inj.mp (ht.line.symm.trans hu.line)
  obtain ⟨xs, rfl⟩ : before <+: before' :=
    List.prefix_of_prefix_length_le (List.prefix_append _ _) ⟨_, hline.symm⟩ (Nat.le_of_lt h)
  rw [List.append_assoc, List.append_cancel_left_eq] at hline
  rw [List.length_append] at h ⊢
  by_contra hle
  -- The characters between the two starts are all of the first word.
  have hxs : xs <+: t.literal.toList :=
    List.prefix_of_prefix_length_le ⟨_, hline.symm⟩ (List.prefix_append _ _) (by omega)
  have hne : xs ≠ [] := List.ne_nil_of_length_pos (by omega)
  obtain ⟨d, ds, hd⟩ := List.exists_cons_of_ne_nil hu.ne_nil
  have hdw := huw d (by rw [hd]; exact List.mem_cons_self)
  refine hu.starts (xs.getLast hne) ?_ d (by rw [hd]; rfl) ⟨htw _ ?_, hdw⟩
  · rw [List.getLast?_append, List.getLast?_eq_some_getLast hne, Option.some_or]
    rfl
  · exact hxs.mem (List.getLast_mem hne)

theorem Editor.Range.start_lt_stop (h : t.Sited file cs k before after) :
    (ofSpan t.span).start < (ofSpan t.span).stop := by
  have hpos := List.length_pos_iff.mpr h.ne_nil
  rw [ofSpan_eq h, start, stop, Prod.Lex.toLex_lt_toLex]
  exact .inr ⟨rfl, by simp only; omega⟩

/-- Words come one after the other, with something between them. -/
theorem Token.Before.stop_lt_start (h : t.Before u) (ht : t ∈ tokenize file source)
    (hu : u ∈ tokenize file source) (htk : t.kind = .ident ∨ t.kind.isKeyword)
    (huk : u.kind = .ident ∨ u.kind.isKeyword) : (Range.ofSpan t.span).stop < (Range.ofSpan u.span).start := by
  have hword {k : Kind} (hk : k = .ident ∨ k.isKeyword) : k ≠ .eof := by
    rintro rfl
    revert hk
    decide
  obtain ⟨k, before, after, hts⟩ := exists_sited ht (hword htk)
  obtain ⟨k', before', after', hus⟩ := exists_sited hu (hword huk)
  rw [Range.ofSpan_eq hts, Range.ofSpan_eq hus, Range.stop, Range.start, Prod.Lex.toLex_lt_toLex]
  rw [Before, hts.startLine, hus.startLine, hts.startColumn, hus.startColumn] at h
  by_cases hk : k = k'
  · subst hk
    have := hts.length_add_lt hus ((written_of_mem_tokenize ht).all_isWordChar htk)
      ((written_of_mem_tokenize hu).all_isWordChar huk) (by omega)
    exact .inr ⟨rfl, Int.ofNat_lt.mpr this⟩
  · exact .inl (by simp only; omega)

/-! ## The bindings of a program -/

/-- The first of the statements that bind a name. -/
def firstBinding? (ss : List Stmt) (name : String) : Option Stmt :=
  ss.find? fun x => x.bound?.any (·.text = name)

namespace Editor.Definition

/-- The tokens that the range of a definition starts and stops with. -/
def ends (d : Definition) : List Token := [d.token, d.name.token]

theorem toStmt_ofStmt? {x : Stmt} {d : Definition} (h : ofStmt? x = some d) : d.toStmt = x := by
  cases x <;> cases h
  rfl

theorem map_name_ofStmt? (x : Stmt) : (ofStmt? x).map (·.name) = x.bound? := by
  cases x <;> rfl

/-- The tokens of its definitions are some of those of a program. -/
theorem sublist_leavesOfItems (ss : List Stmt) :
    ((ss.filterMap ofStmt?).flatMap ends).Sublist ((leavesOfItems ss).filterMap Leaf.token?) := by
  induction ss with
  | nil => exact .slnil
  | cons x ss ih =>
    rw [leavesOfItems, List.filterMap_append]
    cases x with
    | binding t n v =>
      have hends : [t, n.token].Sublist ((Stmt.binding t n v).leaves.filterMap Leaf.token?) := by
        simp [Stmt.leaves, Name.leaf, Leaf.token?]
      exact hends.append ih
    | ret | expression | block => exact ih.trans (List.sublist_append_right _ _)

end Editor.Definition

namespace Parse

open Editor (Definition)

/-- A binding starts with `let`. -/
theorem kwLet_statement (expr : Precedence → Parse (Option Expr)) (s : TokenStream) :
    Meets (statement expr) s [] (fun v _ _ => ∀ x ∈ v, ∀ d ∈ Definition.ofStmt? x, d.token.kind = .kwLet)
      fun _ _ => True := by
  have hnone : ∀ x ∈ (none : Option Stmt), ∀ d ∈ Definition.ofStmt? x, d.token.kind = .kwLet := by simp
  refine .current ?_
  split
  next hk =>
    refine .current (.expect (fun _ => .current (.expect (fun _ => .advance ?_) fun _ => .pure hnone))
      fun _ => .pure hnone)
    refine .bind (.trivial _ _ _) fun v s' es' _ => .skipSemicolon (.pure ?_)
    simpa [Definition.ofStmt?] using hk
  · refine .current (.advance (.bind (.trivial _ _ _) fun v s' es' _ => .skipSemicolon (.pure ?_)))
    simp [Definition.ofStmt?]
  · refine .current (.bind (.trivial _ _ _) fun v s' es' _ => .skipSemicolon (.pure ?_))
    cases v <;> simp [Definition.ofStmt?]

theorem kwLet_parse {limit : Nat} {d : Definition}
    (hd : d ∈ (parse file source limit).statements.filterMap Definition.ofStmt?) : d.token.kind = .kwLet := by
  obtain ⟨x, hx, hd⟩ := List.mem_filterMap.mp hd
  refine (forall_statements (P := fun x => ∀ d ∈ Definition.ofStmt? x, d.token.kind = .kwLet)
    (Q := fun _ => True) limit _ (fun _ => ?_) (fun _ _ => trivial) (.refl _)).1 x hx d hd
  exact (kwLet_statement _ _).mono (fun _ _ _ h => ⟨h, fun _ _ => trivial⟩) fun _ _ _ _ _ => trivial

/-- The ends of the definitions are tokens of the text in its order. -/
theorem ends_sublist_tokenize (file source : String) (limit : Nat) :
    (((parse file source limit).statements.filterMap Definition.ofStmt?).flatMap Definition.ends).Sublist
      (tokenize file source) := by
  have hs := TokenStream.ended_ofSource file source
  have h0 : InOrder (.ofSource file source) (.ofSource file source) [] [] := ⟨hs.final, by simp⟩
  have h := ((tally_inOrder _).parse (fun h => h) file source limit h0).2
  rw [TokenStream.tokenize_eq]
  exact (Definition.sublist_leavesOfItems _).trans
    ((List.sublist_append_left _ _).trans (h.trans (List.sublist_append_left _ _)))

theorem pairwise_ends (file source : String) (limit : Nat) :
    (((parse file source limit).statements.filterMap Definition.ofStmt?).flatMap Definition.ends).Pairwise
      Token.Before :=
  (pairwise_tokenize file source).sublist (ends_sublist_tokenize file source limit)

end Parse

namespace Editor.Definition

/-! ## The first binding of each name -/

variable {ss : List Stmt} {d : Definition}

theorem ofStatements_sublist (ss : List Stmt) : (ofStatements ss).Sublist (ss.filterMap ofStmt?) := by
  rw [ofStatements]
  induction ss.filterMap ofStmt? using List.reverseRecOn with
  | nil => exact .slnil
  | append_singleton ds d ih =>
    rw [List.foldl_concat, addFirst]
    split
    · exact ih.trans (List.sublist_append_left _ _)
    · exact ih.append (.refl _)

/-- Each name that is bound is defined once, in the order of the first bindings. -/
theorem names_ofStatements (ss : List Stmt) :
    (ofStatements ss).map (·.name.text) = ((ss.filterMap Stmt.bound?).map (·.text)).eraseDups := by
  have hbound : (ss.filterMap Stmt.bound?).map (·.text) = (ss.filterMap ofStmt?).map (·.name.text) := by
    rw [List.map_filterMap, List.map_filterMap]
    refine List.filterMap_congr fun x _ => ?_
    cases x <;> rfl
  rw [hbound, ofStatements]
  induction ss.filterMap ofStmt? using List.reverseRecOn with
  | nil => rfl
  | append_singleton ds d ih =>
    have hany : (ds.foldl addFirst []).any (·.name.text = d.name.text) =
        (ds.map (·.name.text)).elem d.name.text := by
      rw [Bool.eq_iff_iff, List.elem_iff, ← List.mem_eraseDups, ← ih]
      simp
    rw [List.foldl_concat, List.map_append, List.map_singleton, eraseDups_concat, ← hany, ← ih, addFirst]
    split <;> simp

theorem nodup_names_ofStatements (ss : List Stmt) : ((ofStatements ss).map (·.name.text)).Nodup := by
  rw [names_ofStatements]
  exact nodup_eraseDups _

/-- What is defined is the first binding of its name. -/
theorem firstBinding?_of_mem (hd : d ∈ ofStatements ss) : firstBinding? ss d.name.text = some d.toStmt := by
  obtain ⟨d', hfound⟩ : ∃ d', (ofStatements ss).find? (·.name.text = d.name.text) = some d' :=
    Option.isSome_iff_exists.mp (List.find?_isSome.mpr ⟨d, hd, decide_eq_true rfl⟩)
  have hname : d'.name.text = d.name.text := by simpa using List.find?_some hfound
  have hmem := List.mem_of_find?_eq_some hfound
  obtain rfl := List.inj_on_of_nodup_map (nodup_names_ofStatements ss) hmem hd hname
  have hfirst : (ss.filterMap ofStmt?).find? (·.name.text = d'.name.text) = some d' := by
    rw [← hfound, ofStatements, find?_foldl_addFirst, List.nil_append]
  rw [List.find?_filterMap, Option.bind_eq_some_iff] at hfirst
  obtain ⟨x, hx, hd'⟩ := hfirst
  rw [toStmt_ofStmt? hd', ← hx, firstBinding?]
  congr 1
  funext x
  rw [← map_name_ofStmt?, Option.any_map]

end Definition

/-! ## Symbols and completions -/

/-- A keyword as a completion. -/
def Completion.ofKeyword (word : String) : Completion := ⟨word, .keyword, none⟩

/-- The completion of the name that a symbol is of. -/
def Completion.ofSymbol (s : Symbol) : Completion :=
  ⟨s.name, if s.isFunction then .function else .value, some s.detail⟩

theorem Completion.labels_eq (words : List String) (symbols : List Symbol) :
    (words.map ofKeyword ++ symbols.map ofSymbol).map (·.label) = words ++ symbols.map (·.name) := by
  simp [ofKeyword, ofSymbol, Function.comp_def]

namespace Definition

/-- The symbol of a definition whose text is not too high. -/
def symbol (d : Definition) : Symbol :=
  ⟨d.name.text, d.isFn, Range.ofSpan d.span, Range.ofSpan d.name.token.span, d.toStmt.render⟩

variable {d : Definition}

theorem text_eq_ok (h : d.toStmt.height ≤ renderLimit) : d.text = .ok d.toStmt.render := if_pos h

theorem symbol_ofDefinition (h : d.toStmt.height ≤ renderLimit) : Symbol.ofDefinition d = .ok d.symbol := by
  rw [Symbol.ofDefinition, text_eq_ok h]
  rfl

theorem completion_ofDefinition (h : d.toStmt.height ≤ renderLimit) :
    Completion.ofDefinition d = .ok (.ofSymbol d.symbol) := by
  rw [Completion.ofDefinition, text_eq_ok h]
  rfl

end Definition

theorem Document.symbols_eq_ok {doc : Document} (h : ∀ d ∈ doc.definitions, d.toStmt.height ≤ renderLimit) :
    doc.symbols = .ok (doc.definitions.map Definition.symbol) :=
  mapM_eq_map fun d hd => Definition.symbol_ofDefinition (h d hd)

theorem Document.completions_eq_ok {doc : Document} (h : ∀ d ∈ doc.definitions, d.toStmt.height ≤ renderLimit) :
    doc.completions = .ok ((doc.definitions.map Definition.symbol).map Completion.ofSymbol) := by
  rw [List.map_map]
  exact mapM_eq_map fun d hd => Definition.completion_ofDefinition (h d hd)

/-- The symbol is of the first binding of its name: it shows how that is
rendered, and it is about what stands between the `let` and the name there. -/
structure Outlines (uri source : String) (s : Symbol) : Prop where
  binding : ∃ t n v, firstBinding? (parse uri source nestingLimit).statements s.name = some (.binding t n v) ∧
    (Stmt.binding t n v).text = .ok s.detail ∧ (s.isFunction ↔ ∃ e ∈ v, e.isFn) ∧
    t.kind = .kwLet ∧ s.range.start = (Range.ofSpan t.span).start ∧ s.selection = Range.ofSpan n.token.span
  /-- The selection is the name. -/
  cut : s.selection.cut source.toList = s.name.toList
  within : s.range.start < s.selection.start ∧ s.selection.start < s.selection.stop ∧
    s.selection.stop = s.range.stop

section

variable {d : Definition}

/-- The ends of a definition are its `let` and its name, in the text and in this order. -/
theorem Definition.ends_of_mem (hd : d ∈ ofStatements (parse uri source nestingLimit).statements) :
    d.token ∈ tokenize uri source ∧ d.name.Among (tokenize uri source) ∧ d.token.kind = .kwLet ∧
      d.token.Before d.name.token := by
  have hmem := (ofStatements_sublist _).mem hd
  have hbefore := (List.pairwise_flatMap.mp (Parse.pairwise_ends uri source nestingLimit)).1 d hmem
  have hlet : d.token ∈ tokenize uri source := (Parse.ends_sublist_tokenize uri source nestingLimit).mem
    (List.mem_flatMap.mpr ⟨d, hmem, List.mem_cons_self⟩)
  refine ⟨hlet, ?_, Parse.kwLet_parse hmem, List.pairwise_pair.mp hbefore⟩
  obtain ⟨x, hx, hd⟩ := List.mem_filterMap.mp hmem
  exact Parse.bound_parse hx (by rw [← map_name_ofStmt?, hd]; rfl)

theorem outlines_symbol (hd : d ∈ Definition.ofStatements (parse uri source nestingLimit).statements)
    (hr : d.toStmt.height ≤ renderLimit) : Outlines uri source d.symbol := by
  obtain ⟨hlet, hname, hkind, hbefore⟩ := Definition.ends_of_mem hd
  obtain ⟨k, before, after, h⟩ := exists_sited hlet (by rw [hkind]; decide)
  obtain ⟨k', before', after', h'⟩ := exists_sited hname.mem (by rw [hname.kind]; decide)
  have hapart := hbefore.stop_lt_start hlet hname.mem (.inr (by rw [hkind]; decide)) (.inl hname.kind)
  refine ⟨⟨_, _, _, Definition.firstBinding?_of_mem hd, if_pos hr, ?_, hkind, rfl, rfl⟩, ?_, ?_⟩
  · rw [Definition.symbol, Definition.isFn]
    cases d.value <;> simp
  · rw [Definition.symbol, Range.cut_ofSpan h', hname.text]
  · exact ⟨(Range.start_lt_stop h).trans hapart, Range.start_lt_stop h', rfl⟩

/-- The ranges of the symbols come one after the other. -/
theorem pairwise_symbols (uri source : String) :
    ((Definition.ofStatements (parse uri source nestingLimit).statements).map Definition.symbol).Pairwise
      (·.range.stop < ·.range.start) := by
  have hbefore := (List.pairwise_flatMap.mp (Parse.pairwise_ends uri source nestingLimit)).2
  rw [List.pairwise_map]
  refine (hbefore.sublist (Definition.ofStatements_sublist _)).imp_of_mem ?_
  intro d d' hd hd' h
  obtain ⟨-, hname, -, -⟩ := Definition.ends_of_mem hd
  obtain ⟨hlet, -, hkind, -⟩ := Definition.ends_of_mem hd'
  have hn : d.name.token ∈ d.ends := List.mem_cons_of_mem _ (List.mem_singleton_self _)
  exact (h _ hn _ List.mem_cons_self).stop_lt_start hname.mem hlet (.inl hname.kind)
    (.inr (by rw [hkind]; decide))

end

/-- No keyword is bound. -/
theorem ofWord_bound {limit : Nat} {n : Name}
    (hn : n ∈ (parse file source limit).statements.filterMap Stmt.bound?) : Kind.ofWord n.text = .ident := by
  obtain ⟨x, hx, hn⟩ := List.mem_filterMap.mp hn
  have h := Parse.bound_parse hx hn
  rw [h.text, ← String.ofList_toList (s := n.token.literal)]
  exact ((written_of_mem_tokenize h.mem).isName h.kind).2.2

theorem mem_keywords_iff (word : String) : word ∈ keywords.map (·.1) ↔ Kind.ofWord word ≠ .ident := by
  have hkinds : ∀ e ∈ keywords, e.2 ≠ .ident := by decide
  rw [Kind.ofWord]
  cases h : keywords.lookup word with
  | none => simpa using (lookup_eq_none_iff_notMem _ _).mp h
  | some k =>
    have hmem := (lookup_eq_some_iff_mem (by decide)).mp h
    exact iff_of_true (List.mem_map_of_mem hmem) (hkinds _ hmem)

namespace Workspace

/-- **Outline and completions agree.** In every text that an editor has open,
whatever it has sent before, the outline has one symbol for each name that is
bound at the top level, in the order of the first bindings, and each symbol
tells about the first one. The ranges of the symbols come one after the other.
The completions are the keywords in order, and behind them the same names. None
of them comes twice, and no binding has the name of a keyword. -/
theorem outline_agrees {ms : List Message} {uri source : String} (hms : latestText? uri ms = some source)
    (hr : ∀ name, ∀ x ∈ firstBinding? (parse uri source nestingLimit).statements name, x.height ≤ renderLimit) :
    ∃ symbols items,
      (empty.after ms).handle (.symbols uri) = .ok (.symbols symbols, empty.after ms) ∧
      (∀ line character, isPlace line → isPlace character →
        (empty.after ms).handle (.completion uri line character) = .ok (.completions items, empty.after ms)) ∧
      symbols.map (·.name) =
        (((parse uri source nestingLimit).statements.filterMap Stmt.bound?).map (·.text)).eraseDups ∧
      (∀ s ∈ symbols, Outlines uri source s) ∧
      symbols.Pairwise (·.range.stop < ·.range.start) ∧
      items = (keywords.map (·.1)).map Completion.ofKeyword ++ symbols.map Completion.ofSymbol ∧
      (keywords.map (·.1)).Pairwise (· < ·) ∧ (∀ word, word ∈ keywords.map (·.1) ↔ Kind.ofWord word ≠ .ident) ∧
      (items.map (·.label)).Nodup ∧
      ∀ n ∈ (parse uri source nestingLimit).statements.filterMap Stmt.bound?, n.text ∉ keywords.map (·.1) := by
  have hfind : (empty.after ms).find? uri = some (.ofSource uri source) := by
    rw [find?_after, hms, Option.map_some]
  have hlow : ∀ d ∈ (Document.ofSource uri source).definitions, d.toStmt.height ≤ renderLimit := fun d hd =>
    hr _ _ (Definition.firstBinding?_of_mem hd)
  have hnames : ((Document.ofSource uri source).definitions.map Definition.symbol).map (·.name) =
      (((parse uri source nestingLimit).statements.filterMap Stmt.bound?).map (·.text)).eraseDups := by
    rw [List.map_map, ← Definition.names_ofStatements]
    rfl
  have hfree : ∀ n ∈ (parse uri source nestingLimit).statements.filterMap Stmt.bound?,
      n.text ∉ keywords.map (·.1) := fun n hn hk => (mem_keywords_iff _).mp hk (ofWord_bound hn)
  refine ⟨(Document.ofSource uri source).definitions.map Definition.symbol, _, ?_, fun line character hl hc => ?_,
    hnames, ?_, pairwise_symbols uri source, rfl, by decide, mem_keywords_iff, ?_, hfree⟩
  · rw [handle, answer, symbols, hfind]
    simp only [Document.symbols_eq_ok hlow]
    rfl
  · have hfault : (Message.completion uri line character).fault? = none := by
      simp [Message.fault?, positionFault?, hl, hc]
    rw [handle, hfault, answer, completions, hfind]
    simp only [Document.completions_eq_ok hlow, keywordCompletions, List.map_map]
    rfl
  · intro s hs
    obtain ⟨d, hd, rfl⟩ := List.mem_map.mp hs
    exact outlines_symbol hd (hlow d hd)
  · rw [Completion.labels_eq, hnames]
    refine List.nodup_append'.mpr ⟨by decide, nodup_eraseDups _, ?_⟩
    intro name hk hname
    obtain ⟨n, hn, rfl⟩ := List.mem_map.mp (List.mem_eraseDups.mp hname)
    exact hfree n hn hk

/-- Two bindings of one name, a function, and a statement with a mistake before
a binding over two lines. -/
theorem outline_agrees_three :
    let source := "let a = 1; let a = 2; let 5; let\nb = fn(x) \x7b x \x7d; let c = b(a);"
    let ms : List Message := [.open "demo" "let d = 1", .change "demo" [source]]
    latestText? "demo" ms = some source ∧
    (∀ name, ∀ x ∈ firstBinding? (parse "demo" source nestingLimit).statements name, x.height ≤ renderLimit) ∧
    ∃ symbols items, symbols.map (·.name) = ["a", "b", "c"] ∧
      (empty.after ms).handle (.symbols "demo") = .ok (.symbols symbols, empty.after ms) ∧
      (empty.after ms).handle (.completion "demo" 0 0) = .ok (.completions items, empty.after ms) ∧
      items.map (·.label) = ["else", "false", "fn", "if", "let", "return", "true", "a", "b", "c"] ∧
      symbols.Pairwise (·.range.stop < ·.range.start) := by
  intro source ms
  have hms : latestText? "demo" ms = some source := by decide
  have hlow : ∀ x ∈ (parse "demo" source nestingLimit).statements, x.height ≤ renderLimit := by decide +kernel
  have hr : ∀ name, ∀ x ∈ firstBinding? (parse "demo" source nestingLimit).statements name,
      x.height ≤ renderLimit := fun name x hx => hlow x (List.mem_of_find?_eq_some hx)
  obtain ⟨symbols, items, hsymbols, hitems, hnames, -, hpairs, rfl, -, -, -, -⟩ := outline_agrees hms hr
  have hbound : ((parse "demo" source nestingLimit).statements.filterMap Stmt.bound?).map (·.text) =
      ["a", "a", "b", "c"] := by decide +kernel
  rw [hbound] at hnames
  refine ⟨hms, hr, symbols, _, hnames, hsymbols, hitems 0 0 rfl rfl, ?_, hpairs⟩
  rw [Completion.labels_eq, hnames]
  rfl

end Workspace

end Editor

end ExprLang
