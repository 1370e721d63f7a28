/-
Looking up definitions in texts where an editor and the language agree.

In a `Plain` text both see the same lines and the same words. So the word under
a cursor that touches a word of the language is that word, and the definition
that is looked up is the first binding of that name. Main statement:
`Workspace.definition_exact`.
-/
import ExprLang.Proofs.Notices
import ExprLang.Proofs.WellRead
import ExprLang.Proofs.Words

namespace ExprLang

open Text (Solid chomp isLineBreak unbroken)

variable {file uri source : String} {cs line before after : List Char} {t : Token} {k : Nat} {c : Char}

/-! ## Plain texts -/

/-- A text of ASCII characters whose lines end with `\n` or `\r\n`, and with
nothing else that separates lines. -/
structure Text.Plain (cs : List Char) : Prop where
  ascii : ∀ c ∈ cs, c.toNat < 128
  breaks : ∀ c ∈ cs, c ∉ ['\x0b', '\x0c', '\x1c', '\x1d', '\x1e']
  returns : ∀ front back, cs = front ++ '\r' :: back → back.head? = some '\n'

namespace Text

theorem plain_iff : Plain cs ↔
    (cs.all fun c => c.toNat < 128 ∧ c ∉ ['\x0b', '\x0c', '\x1c', '\x1d', '\x1e']) = true ∧
      ∀ i < cs.length, cs[i]? = some '\r' → cs[i + 1]? = some '\n' := by
  rw [List.all_eq_true]
  constructor
  · intro h
    refine ⟨fun c hc => decide_eq_true ⟨h.ascii c hc, h.breaks c hc⟩, fun i hi hr => ?_⟩
    have hsplit : cs = cs.take i ++ '\r' :: cs.drop (i + 1) := by
      obtain ⟨hlt, hr⟩ := List.getElem?_eq_some_iff.mp hr
      rw [← hr, List.getElem_cons_drop, List.take_append_drop]
    rw [← List.head?_drop]
    exact h.returns _ _ hsplit
  · rintro ⟨hall, hreturns⟩
    refine ⟨fun c hc => (of_decide_eq_true (hall c hc)).1, fun c hc => (of_decide_eq_true (hall c hc)).2, ?_⟩
    rintro front back rfl
    have hnext := hreturns front.length (by simp) (by simp)
    rwa [List.getElem?_append_right (Nat.le_add_right _ 1), Nat.add_sub_cancel_left, List.getElem?_cons_succ,
      ← List.head?_eq_getElem?] at hnext

instance : DecidablePred Plain := fun _ => decidable_of_iff _ plain_iff.symm

/-- A carriage return that is left in a line is not at its end. -/
theorem exists_of_mem_chomp (h : '\r' ∈ chomp line) :
    ∃ front back, line = front ++ '\r' :: back ∧ back ≠ [] := by
  induction line with
  | nil => simp [chomp] at h
  | cons c line ih =>
    by_cases hc : c = '\r' ∧ line = []
    · simp [chomp, hc] at h
    · rw [chomp, if_neg hc, List.mem_cons] at h
      rcases h with rfl | h
      · exact ⟨[], line, rfl, fun hl => hc ⟨rfl, hl⟩⟩
      · obtain ⟨front, back, rfl, hb⟩ := ih h
        exact ⟨c :: front, back, rfl, hb⟩

/-- Of the line breaks of a plain text only the carriage return can be in a line. -/
theorem Plain.eq_return (h : Plain cs) (hc : c ∈ cs) (hb : isLineBreak c = true) (hn : c ≠ '\n') : c = '\r' := by
  have hascii := h.ascii c hc
  have hno := h.breaks c hc
  simp only [List.mem_cons, List.not_mem_nil, or_false, not_or] at hno
  have hwide : c ≠ '\u0085' ∧ c ≠ '\u2028' ∧ c ≠ '\u2029' := by
    refine ⟨?_, ?_, ?_⟩ <;> (rintro rfl; revert hascii; decide)
  simpa [isLineBreak, hn, hno, hwide] using hb

theorem Plain.of_append {front : List Char} (h : Plain (front ++ cs)) : Plain cs where
  ascii c hc := h.ascii c (List.mem_append_right _ hc)
  breaks c hc := h.breaks c (List.mem_append_right _ hc)
  returns front' back hcs := h.returns (front ++ front') back (by rw [hcs, List.append_assoc])

theorem Plain.solid_line {rest : List Char} (h : Plain (line ++ rest)) (hn : '\n' ∉ line) : Solid line := by
  intro c hc
  by_contra hb
  rw [Bool.not_eq_false] at hb
  have hmem := mem_of_mem_chomp hc
  obtain rfl := h.eq_return (List.mem_append_left _ hmem) hb (by rintro rfl; exact hn hmem)
  obtain ⟨front, back, rfl, hne⟩ := exists_of_mem_chomp hc
  obtain ⟨d, back, rfl⟩ := List.exists_cons_of_ne_nil hne
  have hd := h.returns front (d :: back ++ rest) (by simp)
  obtain rfl : d = '\n' := by simpa using hd
  simp at hn

/-- The lines of a plain text are solid. -/
theorem Plain.solid (h : Plain cs) : ∀ line ∈ cs.splitOn '\n', Solid line := by
  induction cs using splitOn_induction with
  | @last line hn =>
    rw [← List.append_nil line] at h
    exact List.forall_mem_singleton.mpr (h.solid_line hn)
  | @more line rest hn ih =>
    refine List.forall_mem_cons.mpr ⟨h.solid_line hn, ih ?_⟩
    rw [List.append_cons] at h
    exact h.of_append

end Text

/-- The words of the language and those of an editor are made of the same ASCII characters. -/
theorem isWordPart_eq (h : c.toNat < 128) : Editor.isWordPart c = isWordChar c := by
  rw [Editor.isWordPart, Text.isLetter, if_pos h, isWordChar]

/-! ## Words of the language -/

/-- The kinds of keywords. -/
def Kind.isKeyword (k : Kind) : Prop := k ∈ keywords.map (·.2)

instance : DecidablePred Kind.isKeyword := fun _ => inferInstanceAs (Decidable (_ ∈ _))

theorem Kind.spelling_of_isKeyword : ∀ k, isKeyword k → k.spelling ≠ [] ∧
    (∀ c ∈ k.spelling, isWordChar c = true) ∧ ofWord (String.ofList k.spelling) = k := by
  have key : ∀ k ∈ keywords.map (·.2), k.spelling ≠ [] ∧ (k.spelling.all isWordChar) = true ∧
      ofWord (String.ofList k.spelling) = k := by decide
  intro k hk
  obtain ⟨hne, hall, hkind⟩ := key k hk
  exact ⟨hne, List.all_eq_true.mp hall, hkind⟩

/-- Identifiers and keywords are words. -/
theorem Token.Written.all_isWordChar (h : t.Written) (hk : t.kind = .ident ∨ t.kind.isKeyword) :
    ∀ c ∈ t.literal.toList, isWordChar c = true := by
  rcases hk with hk | hk
  · exact (h.isName hk).2.1
  · obtain ⟨hne, hall, -⟩ := Kind.spelling_of_isKeyword _ hk
    rwa [h.eq_spelling hne]

/-- A word of the language is a word of its line, if the text is plain. -/
theorem Token.Sited.word (h : t.Sited file cs k before after) (hp : Text.Plain cs)
    (hw : ∀ c ∈ t.literal.toList, isWordChar c = true) :
    Editor.Word (before ++ t.literal.toList ++ chomp after) before t.literal.toList (chomp after) := by
  have hascii : ∀ c ∈ before ++ t.literal.toList ++ after, c.toNat < 128 := fun c hc =>
    hp.ascii c ((Text.sublist_of_mem_splitOn _ (List.mem_of_getElem? h.line)).mem hc)
  simp only [List.forall_mem_append] at hascii
  obtain ⟨⟨hbefore, hliteral⟩, hafter⟩ := hascii
  refine ⟨rfl, h.ne_nil, fun c hc => ?_, fun c hc => ?_, fun c hc => ?_⟩
  · rw [isWordPart_eq (hliteral c hc), hw c hc]
  · obtain ⟨d, ds, hd⟩ := List.exists_cons_of_ne_nil h.ne_nil
    have hdw := hw d (by rw [hd]; exact List.mem_cons_self)
    rw [isWordPart_eq (hbefore c (List.mem_of_getLast? hc)), ← Bool.not_eq_true]
    exact fun hcw => h.starts c hc d (by rw [hd]; rfl) ⟨hcw, hdw⟩
  · have hhead : c ∈ after.head? := by
      rcases Text.eq_chomp_or after with he | he
      · rwa [he]
      · rw [he, List.head?_append, hc]
        rfl
    rw [isWordPart_eq (hafter c (List.mem_of_head? hhead)), ← Bool.not_eq_true]
    exact fun hcw => h.ends c hhead (.inl ⟨hw, hcw⟩)

theorem written_of_mem_tokenize (ht : t ∈ tokenize file source) : t.Written := by
  have hs := TokenStream.written_ofSource file source
  rw [TokenStream.tokenize_eq, List.mem_append, List.mem_singleton] at ht
  rcases ht with ht | rfl
  · exact hs.pending t ht
  · rw [Token.Written, hs.final]
    trivial

/-- The word at a character that a word of the language touches is that word. -/
theorem wordAt_token (hp : Text.Plain source.toList) (ht : t ∈ tokenize file source)
    (hk : t.kind = .ident ∨ t.kind.isKeyword) {character : Int} (hs : t.span.startColumn - 1 ≤ character)
    (he : character ≤ t.span.endColumn) :
    Editor.wordAt source (t.span.startLine - 1) character = t.literal := by
  have hw := (written_of_mem_tokenize ht).all_isWordChar hk
  have hne : t.kind ≠ .eof := by
    intro hend
    rw [hend] at hk
    revert hk
    decide
  obtain ⟨k, before, after, h⟩ := exists_sited ht hne
  have hlines := Text.getElem?_lines h.line (by simp [h.ne_nil]) fun l hl => hp.solid l (List.mem_of_mem_take hl)
  rw [Text.unbroken_eq_chomp_iff.mpr (hp.solid _ (List.mem_of_getElem? h.line)), h.chomp_line] at hlines
  have hline : t.span.startLine - 1 = (k : Nat) := by
    rw [h.startLine]
    omega
  rw [h.startColumn] at hs
  rw [h.endColumn] at he
  have hword : Editor.wordInLine (before ++ t.literal.toList ++ chomp after) character = t.literal.toList :=
    (Editor.wordInLine_eq_iff h.ne_nil).mpr ⟨before, chomp after, h.word hp hw, by omega⟩
  rw [hline, Editor.wordAt_of_getElem? hlines, hword, String.ofList_toList]

/-! ## Bindings -/

/-- The name that a statement binds. -/
def Stmt.bound? : Stmt → Option Name
  | .binding _ n _ => some n
  | _ => none

/-- The name in the first of the statements that bind it. -/
def firstBound? (ss : List Stmt) (name : String) : Option Name :=
  (ss.filterMap Stmt.bound?).find? (·.text = name)

/-- The name is an identifier among the tokens, and it is what that is written as. -/
structure Name.Among (ts : List Token) (n : Name) : Prop where
  mem : n.token ∈ ts
  kind : n.token.kind = .ident
  text : n.text = n.token.literal

namespace Parse

theorem Meets.trivial {α : Type} (p : Parse α) (s : TokenStream) (es : List ParseError) :
    Meets p s es (fun _ _ _ => True) fun _ _ => True := by
  unfold Meets
  split <;> exact True.intro

/-- What a statement binds is an identifier that was still to come. -/
theorem bound_statement {o s : TokenStream} (ho : Onward o s) (expr : Precedence → Parse (Option Expr)) :
    Meets (statement expr) s [] (fun v _ _ => ∀ x ∈ v, ∀ n ∈ x.bound?, n.Among (o.pending ++ [o.final]))
      fun _ _ => True := by
  have hnone : ∀ x ∈ (none : Option Stmt), ∀ n ∈ x.bound?, n.Among (o.pending ++ [o.final]) := by simp
  refine .current ?_
  split
  · refine .current (.expect (fun hi => ?_) fun _ => .pure hnone)
    have hn : (⟨s.advance.current, s.advance.current.literal⟩ : Name).Among (o.pending ++ [o.final]) :=
      ⟨ho.advance.current_mem, hi, rfl⟩
    refine .current (.expect (fun _ => ?_) fun _ => .pure hnone)
    refine .advance (.bind (.trivial _ _ _) fun v s' es' _ => .skipSemicolon (.pure ?_))
    simpa [Stmt.bound?] using hn
  · refine .current (.advance (.bind (.trivial _ _ _) fun v s' es' _ => .skipSemicolon (.pure ?_)))
    simp [Stmt.bound?]
  · refine .current (.bind (.trivial _ _ _) fun v s' es' _ => .skipSemicolon (.pure ?_))
    cases v <;> simp [Stmt.bound?]

/-- What statements at the top level bind are identifiers of the text. -/
theorem bound_parse {limit : Nat} {x : Stmt} (hx : x ∈ (parse file source limit).statements) {n : Name}
    (hn : n ∈ x.bound?) : n.Among (tokenize file source) := by
  rw [TokenStream.tokenize_eq]
  refine (forall_statements (P := fun x => ∀ n ∈ x.bound?, n.Among _) (Q := fun _ => True) limit _
    (fun ho => ?_) (fun _ _ => True.intro) (.refl _)).1 x hx n hn
  exact (bound_statement ho _).mono (fun v _ _ h => ⟨h, fun _ _ => True.intro⟩) fun _ _ _ _ _ => True.intro

end Parse

/-- The name that is found is an identifier of the text with the text that is looked for. -/
theorem among_of_firstBound? {limit : Nat} {name : String} {n : Name}
    (h : firstBound? (parse file source limit).statements name = some n) :
    n.Among (tokenize file source) ∧ n.text = name := by
  obtain ⟨x, hx, hn⟩ := List.mem_filterMap.mp (List.mem_of_find?_eq_some h)
  exact ⟨Parse.bound_parse hx hn, by simpa using List.find?_some h⟩

/-- Keywords are not bound. -/
theorem firstBound?_of_isKeyword (ht : t ∈ tokenize file source) (hk : t.kind.isKeyword) (limit : Nat) :
    firstBound? (parse file source limit).statements t.literal = none := by
  rw [Option.eq_none_iff_forall_ne_some]
  intro n h
  obtain ⟨hn, hname⟩ := among_of_firstBound? h
  obtain ⟨hne, -, hkind⟩ := Kind.spelling_of_isKeyword _ hk
  have hident := ((written_of_mem_tokenize hn.mem).isName hn.kind).2.2
  rw [← hn.text, hname, (written_of_mem_tokenize ht).eq_spelling hne, hkind] at hident
  rw [hident] at hk
  exact absurd hk (by decide)

namespace Editor

/-- Among definitions that were kept the first of a name is found. -/
theorem find?_foldl_addFirst (ds acc : List Definition) (name : String) :
    (ds.foldl Definition.addFirst acc).find? (·.name.text = name) =
      (acc ++ ds).find? (·.name.text = name) := by
  induction ds generalizing acc with
  | nil => rw [List.foldl_nil, List.append_nil]
  | cons d ds ih =>
    rw [List.foldl_cons, ih, Definition.addFirst]
    split
    next hany =>
      -- The binding that is dropped is not the first of its name.
      by_cases hd : d.name.text = name
      · obtain ⟨d', hmem, hname⟩ := List.any_eq_true.mp hany
        have hsome : (acc.find? (·.name.text = name)).isSome := by
          rw [List.find?_isSome]
          exact ⟨d', hmem, by simpa [hd] using hname⟩
        rw [List.find?_append, List.find?_append, Option.or_of_isSome hsome, Option.or_of_isSome hsome]
      · rw [List.find?_append, List.find?_append, List.find?_cons_of_neg (by simpa using hd)]
    next => rw [List.append_assoc, List.singleton_append]

/-- The definition of a name is the first binding of it. -/
theorem definition?_ofSource (uri source name : String) :
    ((Document.ofSource uri source).definition? name).map (·.name) =
      firstBound? (parse uri source nestingLimit).statements name := by
  have hname : ∀ ss : List Stmt, (ss.filterMap Definition.ofStmt?).map (·.name) = ss.filterMap Stmt.bound? := by
    intro ss
    rw [List.map_filterMap]
    refine List.filterMap_congr fun x _ => ?_
    cases x <;> rfl
  rw [Document.definition?, Document.ofSource, Definition.ofStatements, find?_foldl_addFirst, List.nil_append,
    firstBound?, ← hname, List.find?_map]
  rfl

namespace Workspace

/-- **Definitions are looked up by the words of the language.** In a plain text
that an editor has open, whatever it has sent before, the word at each place
that an identifier or a keyword touches is what that is written as. So the
definition of an identifier is the range of the name in the first binding at
the top level that binds it, and this range cuts the name out of the text;
there is none if nothing binds it, and none of a keyword. -/
theorem definition_exact {ms : List Message} {uri source : String} (hms : latestText? uri ms = some source)
    (hp : Text.Plain source.toList) {t : Token} (ht : t ∈ tokenize uri source)
    (hk : t.kind = .ident ∨ t.kind.isKeyword) {character : Int} (hs : t.span.startColumn - 1 ≤ character)
    (he : character ≤ t.span.endColumn) :
    wordAt source (t.span.startLine - 1) character = t.literal ∧
    (t.kind.isKeyword → (empty.after ms).definition uri (t.span.startLine - 1) character = .nothing) ∧
    match firstBound? (parse uri source nestingLimit).statements t.literal with
    | none => (empty.after ms).definition uri (t.span.startLine - 1) character = .nothing
    | some n =>
      (empty.after ms).definition uri (t.span.startLine - 1) character = .location uri (.ofSpan n.token.span) ∧
      n.text = t.literal ∧ (Range.ofSpan n.token.span).cut source.toList = n.text.toList := by
  have hfind : (empty.after ms).find? uri = some (.ofSource uri source) := by
    rw [find?_after, hms, Option.map_some]
  have hword := wordAt_token hp ht hk hs he
  have hrange : (Document.ofSource uri source).definitionRange? (t.span.startLine - 1) character =
      (firstBound? (parse uri source nestingLimit).statements t.literal).map fun n => .ofSpan n.token.span := by
    rw [← definition?_ofSource, Option.map_map, ← hword]
    rfl
  have hdefinition : (empty.after ms).definition uri (t.span.startLine - 1) character =
      match firstBound? (parse uri source nestingLimit).statements t.literal with
      | none => .nothing
      | some n => .location uri (.ofSpan n.token.span) := by
    rw [definition, hfind, Option.bind_some, hrange]
    cases firstBound? (parse uri source nestingLimit).statements t.literal <;> rfl
  refine ⟨hword, fun hkw => ?_, ?_⟩
  · rw [hdefinition, firstBound?_of_isKeyword ht hkw]
  · cases hbound : firstBound? (parse uri source nestingLimit).statements t.literal with
    | none => rw [hdefinition, hbound]
    | some n =>
      obtain ⟨hn, hname⟩ := among_of_firstBound? hbound
      obtain ⟨k, before, after, h⟩ := exists_sited hn.mem (by rw [hn.kind]; decide)
      refine ⟨by rw [hdefinition, hbound], hname, ?_⟩
      rw [Range.cut_ofSpan h, hn.text]

/-- Right behind a name that is bound twice, in a text with a mistake. -/
theorem definition_exact_secondLine :
    let source := "let ab = 1;\r\n)ab; let ab = 2"
    let ms : List Message := [.open "demo" "ab", .change "demo" ["", source]]
    latestText? "demo" ms = some source ∧ Text.Plain source.toList ∧
    (⟨.ident, "ab", ⟨"demo", 2, 2, 2, 3⟩⟩ : Token) ∈ tokenize "demo" source ∧
    wordAt source 1 3 = "ab" ∧ (empty.after ms).definition "demo" 1 3 = .location "demo" ⟨0, 4, 0, 6⟩ ∧
    Range.cut source.toList ⟨0, 4, 0, 6⟩ = ['a', 'b'] := by
  intro source ms
  have hms : latestText? "demo" ms = some source := by decide
  have hp : Text.Plain source.toList := by decide
  have ht : (⟨.ident, "ab", ⟨"demo", 2, 2, 2, 3⟩⟩ : Token) ∈ tokenize "demo" source := by decide
  obtain ⟨hword, -, hfirst⟩ := @definition_exact ms "demo" source hms hp _ ht (.inl rfl) 3 (by decide) (by decide)
  have hbound : firstBound? (parse "demo" source nestingLimit).statements "ab" =
      some ⟨⟨.ident, "ab", ⟨"demo", 1, 5, 1, 6⟩⟩, "ab"⟩ := by decide +kernel
  simp only [hbound] at hfirst
  obtain ⟨hlocation, -, hcut⟩ := hfirst
  exact ⟨hms, hp, ht, hword, hlocation, hcut⟩

end Workspace

end Editor

end ExprLang
