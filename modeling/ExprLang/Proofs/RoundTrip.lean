/-
Rendering is undone by parsing.

Each part of a well-formed tree is `Restored`: its text scans as tokens from
which the parser reads the part again, whatever token follows that does not
go on with it. An expression is read operand first, and what follows may be
operators with any rank up to that of a sign, so the same fact serves the
callee of a call, an operand, a condition and a whole statement.

Main statement: the rendering of a program whose top-level statements keep
apart is parsed without an error as the same program (`Program.parse_render`).
-/
import Mathlib.Data.List.Chain
import ExprLang.Proofs.Accepts
import ExprLang.Proofs.WellFormed

namespace ExprLang

open Parse

/-! ## Tokens without their places -/

theorem Token.erase_eq {t u : Token} (h : t.lexeme = u.lexeme) : t.erase = u.erase := by
  simp only [lexeme, Prod.mk.injEq, String.toList_inj] at h
  rw [erase, erase, h.1, h.2]

theorem Token.Spelled.lexeme_eq {t : Token} {k : Kind} (h : t.Spelled k) : t.lexeme = k.lexeme := by
  simp [lexeme, Kind.lexeme, h.1, h.2]

/-- A token that was scanned with the spelling of a node's token. -/
theorem Token.Spelled.erase_eq {t u : Token} {k : Kind} (h : t.Spelled k) (hu : u.lexeme = k.lexeme) :
    u.erase = t.erase ∧ u.literal = t.literal ∧ u.kind = k := by
  have he := Token.erase_eq (hu.trans h.lexeme_eq.symm)
  exact ⟨he, congrArg (·.literal) he, congrArg Prod.fst hu⟩

namespace TokenStream

/-- The tokens still to come, without their places. -/
def lexemes (s : TokenStream) : List (Kind × List Char) := s.pending.map Token.lexeme

theorem kinds_eq_map (s : TokenStream) : s.kinds = s.lexemes.map Prod.fst := by
  simp [kinds, lexemes, Token.lexeme]

variable {s : TokenStream} {x : Kind × List Char} {xs : List (Kind × List Char)}

theorem lexemes_eq_cons (h : s.lexemes = x :: xs) : s.current.lexeme = x ∧ s.advance.lexemes = xs := by
  cases hp : s.pending with
  | nil => simp [lexemes, hp] at h
  | cons t ts => simpa [lexemes, current, hp] using h

/-- The same one token later. -/
theorem lexemes_advance_eq_cons (h : s.advance.lexemes = x :: xs) :
    s.peek.lexeme = x ∧ s.advance.advance.lexemes = xs := lexemes_eq_cons h

end TokenStream

theorem next_lexeme {k : Kind} {p : Kind → Prop} (h : p k) {rest : List (Kind × List Char)} :
    ∀ x ∈ (k.lexeme :: rest).head?, p x.1 := by
  rintro x hx
  obtain rfl : k.lexeme = x := by simpa using hx
  exact h

/-- The stream stands on the token before these. -/
structure Before (rest : List (Kind × List Char)) (s : TokenStream) : Prop where
  final : s.final.kind = .eof
  lexemes : s.advance.lexemes = rest

namespace Before

variable {s : TokenStream} {x : Kind × List Char} {rest : List (Kind × List Char)}

theorem peek (h : Before rest s) {p : Kind → Prop} (hr : ∀ x ∈ rest.head?, p x.1) (he : p .eof) :
    p s.peek.kind := by
  rw [TokenStream.kind_peek h.final, TokenStream.kinds_eq_map, h.lexemes]
  cases rest with
  | nil => exact he
  | cons x xs => exact hr x rfl

theorem cons (h : Before (x :: rest) s) : s.peek.lexeme = x ∧ Before rest s.advance :=
  ⟨(TokenStream.lexemes_advance_eq_cons h.lexemes).1, h.final,
    (TokenStream.lexemes_advance_eq_cons h.lexemes).2⟩

end Before

/-! ## Expressions -/

/-- A conditional that a second branch can still follow. -/
def Expr.Open : Expr → Prop
  | .cond _ _ _ none => True
  | _ => False

/-- The expression is read from these tokens. What follows may go on with it,
but not with a second branch. -/
def Expr.ReadsBack (e : Expr) (ys : List (Kind × List Char)) : Prop :=
  ∀ s rest, s.final.kind = .eof → s.lexemes = ys ++ rest →
    (e.Open → ∀ x ∈ rest.head?, x.1 ≠ .kwElse) →
    ∃ e' s₁, e'.erase = e.erase ∧ Before rest s₁ ∧ ∀ least x s',
      least.level ≤ Precedence.unary.level →
        (Reads (.expression least x) s s' ↔ Reads (.operators least e' x) s₁ s')

/-- The text starts with a parenthesis, or with a word or a number that goes on
with no statement. -/
def Starts (cs : List Char) (ys : List (Kind × List Char)) : Prop :=
  ∃ c cs' y ys', cs = c :: cs' ∧ ys = y :: ys' ∧
    (c = '(' ∨ (isWordChar c = true ∨ c.isDigit = true) ∧ ¬ Continues y.1)

/-- The text of the expression scans as tokens that it is read from. -/
def Expr.Restored (e : Expr) : Prop :=
  ∃ ys, Scans e.render.toList ys ∧ Starts e.render.toList ys ∧ e.ReadsBack ys

theorem Expr.ReadsBack.of_operand {e : Expr} {ys : List (Kind × List Char)}
    (h : ∀ s rest, s.final.kind = .eof → s.lexemes = ys ++ rest →
      (e.Open → ∀ x ∈ rest.head?, x.1 ≠ .kwElse) →
      ∃ e' s₁, e'.erase = e.erase ∧ Before rest s₁ ∧ Reads (.operand e') s s₁) : e.ReadsBack ys := by
  intro s rest hf hs hr
  obtain ⟨e', s₁, he, hb, hread⟩ := h s rest hf hs hr
  refine ⟨e', s₁, he, hb, fun _ _ _ _ => ⟨fun hx => ?_, fun ho => .expression hread ho⟩⟩
  cases hx with
  | expression h₁ ho =>
    obtain ⟨rfl, rfl⟩ := h₁.operand_unique hread hf
    exact ho

/-- In front of a token that ends it, the expression is read as a whole. -/
theorem Expr.ReadsBack.expression {e : Expr} {ys : List (Kind × List Char)} (h : e.ReadsBack ys)
    {s : TokenStream} {rest : List (Kind × List Char)} (hf : s.final.kind = .eof)
    (hs : s.lexemes = ys ++ rest) (hr : ∀ x ∈ rest.head?, endsExpression x.1) {least : Precedence}
    (hl : least.level ≤ Precedence.unary.level) :
    ∃ e' s₁, e'.erase = e.erase ∧ Before rest s₁ ∧ Reads (.expression least e') s s₁ := by
  obtain ⟨e', s₁, he, hb, hread⟩ := h s rest hf hs fun _ x hx => (hr x hx).2.2
  have hend : endsExpression s₁.peek.kind := hb.peek hr (by decide)
  exact ⟨e', s₁, he, hb, (hread _ _ _ hl).mpr (.stop (hend.endsChain.not_level_lt least))⟩

/-- A text that is one token, of a kind that goes on with no statement. -/
theorem scans_starts {k : Kind} {cs : List Char} (hl : lexeme cs = (k, cs)) (hk : ¬ Continues k)
    (hc : ∀ c ∈ cs.head?, isWordChar c = true ∨ c.isDigit = true) (hne : cs ≠ []) :
    Scans cs [(k, cs)] ∧ Starts cs [(k, cs)] := by
  obtain ⟨c, cs, rfl⟩ := List.exists_cons_of_ne_nil hne
  have hcw := hc c rfl
  exact ⟨.whole (isBlank_eq_false hcw) hl, c, cs, _, [], rfl, rfl, .inr ⟨hcw, hk⟩⟩

theorem IsName.scans_starts {cs : List Char} (h : IsName cs) :
    Scans cs [(.ident, cs)] ∧ Starts cs [(.ident, cs)] :=
  ExprLang.scans_starts h.lexeme_eq (by decide) (fun c hc => .inl (h.2.1 c (List.mem_of_head? hc))) h.1

theorem Name.WellFormed.erase_nameAt {n : Name} (h : n.WellFormed) {s : TokenStream}
    (hs : s.current.lexeme = (.ident, n.text.toList)) : (nameAt s).erase = n.erase := by
  have ht : s.current.erase = n.token.erase :=
    Token.erase_eq (hs.trans (by simp [Token.lexeme, h.kind, h.literal]))
  have hlit : s.current.literal = n.text := (congrArg (·.literal) ht).trans h.literal
  simp only [Name.erase, nameAt, ht, hlit]

theorem Expr.restored_name {n : Name} (h : n.WellFormed) : (Expr.name n).Restored := by
  obtain ⟨hscan, hst⟩ := h.word.scans_starts
  refine ⟨_, hscan, hst, .of_operand fun s rest hf hs _ => ?_⟩
  obtain ⟨hl, hr⟩ := TokenStream.lexemes_eq_cons hs
  exact ⟨.name (nameAt s), s, congrArg Expr.name (h.erase_nameAt hl), ⟨hf, hr⟩,
    .name (congrArg Prod.fst hl)⟩

theorem Expr.restored_int {t : Token} (hk : t.kind = .int) (h : IsNumber t.literal.toList) :
    (Expr.int t (some (decimalValue t.literal.toList))).Restored := by
  obtain ⟨hscan, hst⟩ := scans_starts h.lexeme_eq (by decide)
    (fun c hc => .inr (h.2.1 c (List.mem_of_head? hc))) h.1
  refine ⟨_, hscan, hst, .of_operand fun s rest hf hs _ => ?_⟩
  obtain ⟨hl, hr⟩ := TokenStream.lexemes_eq_cons hs
  have ht : s.current.erase = t.erase := Token.erase_eq (hl.trans (by simp [Token.lexeme, hk]))
  have hlit : s.current.literal = t.literal := congrArg (·.literal) ht
  refine ⟨_, s, ?_, ⟨hf, hr⟩, .int (congrArg Prod.fst hl) (hlit ▸ h.2.2)⟩
  simp only [Expr.erase, ht, hlit]

theorem Expr.restored_bool {t : Token} {b : Bool} (h : t.Spelled (if b then .kwTrue else .kwFalse)) :
    (Expr.bool t b).Restored := by
  have htext : (Expr.bool t b).render.toList = (if b then Kind.kwTrue else Kind.kwFalse).spelling := by
    cases b <;> simp [Expr.render, Kind.spelling]
  refine ⟨[(if b then Kind.kwTrue else Kind.kwFalse).lexeme], ?_, ?_, .of_operand fun s rest hf hs _ => ?_⟩
  · rw [htext]
    exact scans_spelling (by cases b <;> decide)
  · rw [htext]
    cases b <;> exact ⟨_, _, _, _, rfl, rfl, .inr (by decide)⟩
  · obtain ⟨hl, hr⟩ := TokenStream.lexemes_eq_cons hs
    obtain ⟨ht, -, hk⟩ := h.erase_eq hl
    refine ⟨.bool s.current b, s, ?_, ⟨hf, hr⟩, ?_⟩
    · simp only [Expr.erase, ht]
    · cases b
      · exact .no hk
      · exact .yes hk

/-- The tokens of an expression in parentheses. -/
def parenthesized (ys : List (Kind × List Char)) : List (Kind × List Char) :=
  Kind.lparen.lexeme :: (ys ++ [Kind.rparen.lexeme])

theorem scans_parenthesized {cs : List Char} {ys : List (Kind × List Char)} (h : Scans cs ys) :
    Scans ('(' :: (cs ++ [')'])) (parenthesized ys) :=
  scans_cons rfl (by decide) (h.append_lone (by decide) (scans_cons rfl (by decide) .done))

theorem starts_parenthesized (cs : List Char) (ys : List (Kind × List Char)) :
    Starts ('(' :: cs) (parenthesized ys) :=
  ⟨_, _, _, _, rfl, rfl, .inl rfl⟩

/-- What is read in parentheses up to the closing one is an operand. -/
theorem Expr.ReadsBack.parenthesized {e : Expr} {ys : List (Kind × List Char)}
    (h : ∀ s rest, s.final.kind = .eof → s.lexemes = ys ++ Kind.rparen.lexeme :: rest →
      ∃ e' s₁, e'.erase = e.erase ∧ Before (Kind.rparen.lexeme :: rest) s₁ ∧
        Reads (.expression .lowest e') s s₁) : e.ReadsBack (parenthesized ys) := by
  refine .of_operand fun s rest hf hs _ => ?_
  obtain ⟨hl, hs⟩ := TokenStream.lexemes_eq_cons hs
  obtain ⟨e', s₁, he, hb, hread⟩ := h s.advance rest hf (by simpa using hs)
  obtain ⟨hr, hb⟩ := hb.cons
  exact ⟨e', s₁.advance, he, hb, .group (congrArg Prod.fst hl) hread (congrArg Prod.fst hr)⟩

/-- No operator goes on in front of a closing parenthesis. -/
theorem Before.stop {s : TokenStream} {rest : List (Kind × List Char)}
    (h : Before (Kind.rparen.lexeme :: rest) s) (least : Precedence) :
    ¬ least.level < s.peek.kind.precedence.level := by
  have hk : endsChain s.peek.kind := h.peek (next_lexeme (by decide)) (by decide)
  exact hk.not_level_lt least

theorem apart_bang {c : Char} {cs : List Char} (h : c ≠ '=') : Apart Kind.bang.spelling (c :: cs) := by
  intro l hl d hd
  obtain rfl : '!' = l := by simpa [Kind.spelling] using hl
  obtain rfl : c = d := by simpa using hd
  simp [isWordChar, h]

theorem Expr.Restored.unary {t : Token} {e : Expr} (he : e.Restored)
    (hk : t.kind = .bang ∨ t.kind = .minus) (ht : t.Spelled t.kind) :
    (Expr.unary t t.literal (some e)).Restored := by
  obtain ⟨ys, hscan, ⟨c, cs, y, ys', hc, -, hst⟩, hread⟩ := he
  have htext : (Expr.unary t t.literal (some e)).render.toList =
      '(' :: (t.kind.spelling ++ e.render.toList ++ [')']) := by
    simp [Expr.render, renderOptional, ht.2]
  rw [Expr.Restored, htext]
  refine ⟨parenthesized (t.kind.lexeme :: ys), scans_parenthesized ?_, starts_parenthesized _ _,
    .parenthesized fun s rest hf hs => ?_⟩
  · refine (scans_spelling ?_).append hscan ?_
    · rcases hk with hk | hk <;> simp [hk, Kind.spelling]
    · rw [hc]
      rcases hk with hk | hk <;> rw [hk]
      · refine apart_bang ?_
        rintro rfl
        simp [isWordChar] at hst
      · exact Lone.apart_left (c := '-') (by decide) rfl _
  · obtain ⟨hl, hs⟩ := TokenStream.lexemes_eq_cons hs
    obtain ⟨herase, hlit, hkind⟩ := ht.erase_eq hl
    obtain ⟨e', s₁, he, hb, hread⟩ :=
      hread.expression (s := s.advance) hf hs (next_lexeme (by decide)) (Nat.le_refl Precedence.unary.level)
    refine ⟨.unary s.current s.current.literal (some e'), s₁, ?_, hb,
      .expression (.unary (hkind ▸ hk) hread) (.stop (hb.stop _))⟩
    simp only [Expr.erase, erasePart, herase, hlit, he]

theorem Expr.Restored.binary {t : Token} {l r : Expr} (hl : l.Restored) (hr : r.Restored)
    (hk : isInfix t.kind) (ht : t.Spelled t.kind) :
    (Expr.binary t l t.literal (some r)).Restored := by
  obtain ⟨ys, hscan, -, hread⟩ := hl
  obtain ⟨zs, hscan', -, hread'⟩ := hr
  have htext : (Expr.binary t l t.literal (some r)).render.toList =
      '(' :: (l.render.toList ++ ' ' :: (t.kind.spelling ++ ' ' :: r.render.toList) ++ [')']) := by
    simp [Expr.render, renderOptional, ht.2]
  rw [Expr.Restored, htext]
  refine ⟨parenthesized (ys ++ t.kind.lexeme :: zs), scans_parenthesized ?_, starts_parenthesized _ _,
    .parenthesized fun s rest hf hs => ?_⟩
  · have hop : Scans t.kind.spelling [t.kind.lexeme] :=
      scans_spelling (by rcases hk with hk | hk | hk | hk | hk | hk | hk | hk <;> simp [hk, Kind.spelling])
    exact hscan.append_lone (by decide) (.blank rfl (hop.append_lone (by decide) (.blank rfl hscan')))
  · obtain ⟨l', s₁, hl, hb, hreadl⟩ :=
      hread s (t.kind.lexeme :: (zs ++ Kind.rparen.lexeme :: rest)) hf (by simpa using hs)
        fun _ => next_lexeme (p := (· ≠ .kwElse)) (endsOperand_of_isInfix hk).2
    obtain ⟨hop, hb⟩ := hb.cons
    obtain ⟨herase, hlit, hkind⟩ := ht.erase_eq hop
    have hk₁ : isInfix s₁.peek.kind := hkind ▸ hk
    obtain ⟨r', s₂, hr, hb₂, hreadr⟩ :=
      hread'.expression (s := s₁.advance.advance) hb.final hb.lexemes (next_lexeme (by decide))
        (Nat.le_of_lt hk₁.level_lt_unary)
    have hloop : Reads (.operators .lowest l' (.binary s₁.peek l' s₁.peek.literal (some r'))) s₁ s₂ :=
      .binary hk₁.lowest_level_lt hk₁.ne_lparen hreadr (.stop (hb₂.stop _))
    refine ⟨_, s₂, ?_, hb₂, (hreadl _ _ _ (by decide)).mpr hloop⟩
    simp only [Expr.erase, erasePart, herase, hlit, hl, hr]

/-! ## Arguments and calls -/

/-- Arguments from the first one on: their text scans as tokens that they are
read from, up to the closing parenthesis. -/
theorem restored_arguments {e : Expr} {es : List Expr} (h : ∀ a ∈ e :: es, a.Restored) :
    ∃ ys, Scans (renderArguments (e :: es)).toList ys ∧
      ∀ s rest, s.final.kind = .eof → s.lexemes = ys ++ Kind.rparen.lexeme :: rest →
        ∃ e' es' s₁ s₂, Reads (.expression .lowest e') s s₁ ∧ Reads (.moreExpressions es') s₁ s₂ ∧
          e'.erase = e.erase ∧ eraseArguments es' = eraseArguments es ∧
          Before (Kind.rparen.lexeme :: rest) s₂ := by
  induction es generalizing e with
  | nil =>
    obtain ⟨ys, hscan, -, hread⟩ := h e (by simp)
    refine ⟨ys, by simpa [renderArguments] using hscan, fun s rest hf hs => ?_⟩
    obtain ⟨e', s₁, he, hb, hre⟩ := hread.expression hf hs (next_lexeme (by decide))
      (show Precedence.lowest.level ≤ _ by decide)
    have hk : s₁.peek.kind = .rparen := congrArg Prod.fst hb.cons.1
    exact ⟨e', [], s₁, s₁, hre, .lastExpression (by simp [hk]), he, rfl, hb⟩
  | cons a as ih =>
    obtain ⟨⟨ys, hscan, -, hread⟩, has⟩ := List.forall_mem_cons.mp h
    obtain ⟨zs, hscan', hmore⟩ := ih has
    have htext : (renderArguments (e :: a :: as)).toList =
        e.render.toList ++ ',' :: ' ' :: (renderArguments (a :: as)).toList := by
      simp [renderArguments]
    refine ⟨ys ++ Kind.comma.lexeme :: zs, ?_, fun s rest hf hs => ?_⟩
    · rw [htext]
      exact hscan.append_lone (by decide) (scans_cons rfl (by decide) (.blank rfl hscan'))
    · obtain ⟨e', s₁, he, hb, hre⟩ := hread.expression hf
        (by simpa using hs : s.lexemes = ys ++ Kind.comma.lexeme :: (zs ++ Kind.rparen.lexeme :: rest))
        (next_lexeme (by decide)) (show Precedence.lowest.level ≤ _ by decide)
      obtain ⟨hc, hb⟩ := hb.cons
      obtain ⟨a', as', s₂, s₃, hra, hras, ha, has', hb'⟩ := hmore s₁.advance.advance rest hb.final hb.lexemes
      refine ⟨e', a' :: as', s₁, s₃, hre, .moreExpressions (congrArg Prod.fst hc) hra hras, he, ?_, hb'⟩
      simp only [eraseArguments, ha, has']

/-- The same with no argument allowed, from the opening parenthesis on. -/
theorem restored_expressions {es : List Expr} (h : ∀ a ∈ es, a.Restored) :
    ∃ ys, Scans (renderArguments es).toList ys ∧
      ∀ s rest, Before (ys ++ Kind.rparen.lexeme :: rest) s →
        ∃ es' s', eraseArguments es' = eraseArguments es ∧ Before rest s' ∧
          Reads (.expressions .rparen es') s s' := by
  cases es with
  | nil =>
    refine ⟨[], .done, fun s rest hs => ?_⟩
    obtain ⟨hk, hb⟩ := hs.cons
    exact ⟨[], s.advance, rfl, hb, .noExpressions (congrArg Prod.fst hk)⟩
  | cons e es =>
    obtain ⟨ys, hscan, hread⟩ := restored_arguments h
    refine ⟨ys, hscan, fun s rest hs => ?_⟩
    obtain ⟨e', es', s₁, s₂, hre, hres, he, hes, hb⟩ := hread s.advance rest hs.final hs.lexemes
    obtain ⟨hk, hb⟩ := hb.cons
    have hst : startsExpression s.peek.kind := hre.starts
    refine ⟨e' :: es', s₂.advance, by simp only [eraseArguments, he, hes], hb,
      .expressions (fun h => ?_) hre hres (congrArg Prod.fst hk)⟩
    simp [startsExpression, h] at hst

theorem Starts.append {cs : List Char} {ys : List (Kind × List Char)} (h : Starts cs ys)
    (ds : List Char) (zs : List (Kind × List Char)) : Starts (cs ++ ds) (ys ++ zs) := by
  obtain ⟨c, cs, y, ys, rfl, rfl, hc⟩ := h
  exact ⟨c, _, y, _, rfl, rfl, hc⟩

theorem Expr.Restored.call {t : Token} {e : Expr} {es : List Expr} (he : e.Restored)
    (hes : ∀ a ∈ es, a.Restored) (ht : t.Spelled .lparen) : (Expr.call t e es).Restored := by
  obtain ⟨ys, hscan, hst, hread⟩ := he
  obtain ⟨zs, hscan', hread'⟩ := restored_expressions hes
  have htext : (Expr.call t e es).render.toList =
      e.render.toList ++ '(' :: ((renderArguments es).toList ++ [')']) := by
    simp [Expr.render]
  rw [Expr.Restored, htext]
  refine ⟨ys ++ parenthesized zs, hscan.append_lone (by decide) (scans_parenthesized hscan'),
    hst.append _ _, fun s rest hf hs hr => ?_⟩
  obtain ⟨e', s₁, he, hb, hreade⟩ :=
    hread s (Kind.lparen.lexeme :: (zs ++ Kind.rparen.lexeme :: rest)) hf
      (by simpa [parenthesized] using hs) fun _ => next_lexeme (p := (· ≠ .kwElse)) (by decide)
  have hf₁ := hb.final
  obtain ⟨hl, hb⟩ := hb.cons
  obtain ⟨es', s₂, hes, hb, hreades⟩ := hread' s₁.advance rest hb
  have hk : s₁.peek.kind = .lparen := congrArg Prod.fst hl
  refine ⟨.call s₁.peek e' es', s₂, ?_, hb, fun least x s' hle => (hreade least x s' hle).trans ?_⟩
  · simp only [Expr.erase, (ht.erase_eq hl).1, he, hes]
  · have hlt : least.level < s₁.peek.kind.precedence.level := by
      rw [hk]
      exact Nat.lt_of_le_of_lt hle (by decide)
    exact Reads.operators_call_iff hlt hk hreades hf₁

/-! ## Blocks and statements -/

/-- The statement is read from these tokens in front of a token of some kind. -/
def Stmt.ReadsBack (x : Stmt) (ys : List (Kind × List Char)) (next : Kind → Prop) : Prop :=
  ∀ s rest, s.final.kind = .eof → s.lexemes = ys ++ rest → (∀ y ∈ rest.head?, next y.1) →
    ∃ x' s', x'.erase = x.erase ∧ Before rest s' ∧ Reads (.statement x') s s'

/-- What a block has behind a statement that has no semicolon by itself. -/
def Stmt.separator (x : Stmt) : List (Kind × List Char) :=
  if x.isExpression then [Kind.semicolon.lexeme] else []

/-- The text of the statement scans as tokens that it is read from, in front of
anything if a semicolon ends them. -/
def Stmt.Restored (x : Stmt) : Prop :=
  ∃ ys, Scans x.render.toList ys ∧ Starts x.render.toList ys ∧
    x.ReadsBack ys (¬ Continues ·) ∧ x.ReadsBack (ys ++ x.separator) fun _ => True

/-- The text of the block scans as tokens that it is read from. -/
def Block.Restored (b : Block) : Prop :=
  ∃ ys, Scans b.render.toList ys ∧ (∃ zs, ys = Kind.lbrace.lexeme :: zs) ∧
    ∀ s rest, s.final.kind = .eof → s.lexemes = ys ++ rest →
      ∃ b' s', b'.erase = b.erase ∧ Before rest s' ∧ Reads (.block b') s s'

/-- A semicolon belongs to the statement before it. -/
theorem Before.afterSemicolon {rest : List (Kind × List Char)} {s : TokenStream}
    (h : Before (Kind.semicolon.lexeme :: rest) s) : Before rest (afterSemicolon s) := by
  obtain ⟨hk, hb⟩ := h.cons
  have hk : s.peek.kind = .semicolon := congrArg Prod.fst hk
  rwa [Parse.afterSemicolon, if_pos hk]

theorem Before.afterSemicolon_eq {rest : List (Kind × List Char)} {s : TokenStream}
    (h : Before rest s) (hr : ∀ y ∈ rest.head?, ¬ Continues y.1) : Parse.afterSemicolon s = s := by
  have hk := h.peek (p := (¬ Continues ·)) hr (by decide)
  rw [Parse.afterSemicolon, if_neg fun h => hk (by simp [Continues, h])]

theorem Expr.Restored.statement {t : Token} {e : Expr} (he : e.Restored) :
    (Stmt.expression t (some e)).Restored := by
  obtain ⟨ys, hscan, hst, hread⟩ := he
  refine ⟨ys, hscan, hst, fun s rest hf hs hr => ?_, fun s rest hf hs _ => ?_⟩
  · obtain ⟨e', s₁, he, hb, hre⟩ := hread.expression hf hs
      (fun y hy => endsExpression_of_not_continues (hr y hy)) (show Precedence.lowest.level ≤ _ by decide)
    refine ⟨.expression s.current (some e'), s₁, by simp only [Stmt.erase, erasePart, he], hb, ?_⟩
    exact hb.afterSemicolon_eq hr ▸ hre.statement
  · obtain ⟨e', s₁, he, hb, hre⟩ := hread.expression hf
      (by simpa [Stmt.separator, Stmt.isExpression] using hs :
        s.lexemes = ys ++ Kind.semicolon.lexeme :: rest)
      (next_lexeme (by decide)) (show Precedence.lowest.level ≤ _ by decide)
    exact ⟨_, _, by simp only [Stmt.erase, erasePart, he], hb.afterSemicolon, hre.statement⟩

/-- A statement with its own semicolon is read in front of anything. -/
theorem Stmt.restored_of_readsBack {x : Stmt} (ys : List (Kind × List Char)) (hx : x.isExpression = false)
    (hscan : Scans x.render.toList ys) (hst : Starts x.render.toList ys)
    (hread : x.ReadsBack ys fun _ => True) : x.Restored := by
  refine ⟨ys, hscan, hst, fun s rest hf hs _ => hread s rest hf hs fun _ _ => trivial, ?_⟩
  simpa [Stmt.separator, hx] using hread

theorem Expr.Restored.ret {t : Token} {e : Expr} (he : e.Restored) (ht : t.Spelled .kwReturn) :
    (Stmt.ret t (some e)).Restored := by
  obtain ⟨ys, hscan, -, hread⟩ := he
  have htext : (Stmt.ret t (some e)).render.toList =
      Kind.kwReturn.spelling ++ ' ' :: (e.render.toList ++ [';']) := by
    simp [Stmt.render, renderOptional, ht.2]
  refine Stmt.restored_of_readsBack (Kind.kwReturn.lexeme :: (ys ++ [Kind.semicolon.lexeme])) rfl
    ?_ ?_ fun s rest hf hs _ => ?_
  · rw [htext]
    exact (scans_spelling (by decide)).append_lone (by decide)
      (.blank rfl (hscan.append_lone (by decide) (scans_cons rfl (by decide) .done)))
  · rw [htext]
    exact ⟨_, _, _, _, rfl, rfl, .inr (by decide)⟩
  · obtain ⟨hl, hs⟩ := TokenStream.lexemes_eq_cons hs
    obtain ⟨herase, -, hk⟩ := ht.erase_eq hl
    obtain ⟨e', s₁, he, hb, hre⟩ := hread.expression (s := s.advance) hf
      (by simpa using hs : s.advance.lexemes = ys ++ Kind.semicolon.lexeme :: rest)
      (next_lexeme (by decide)) (show Precedence.lowest.level ≤ _ by decide)
    exact ⟨_, _, by simp only [Stmt.erase, erasePart, herase, he], hb.afterSemicolon, .ret hk hre⟩

theorem Expr.Restored.binding {t : Token} {n : Name} {e : Expr} (he : e.Restored)
    (hn : n.WellFormed) (ht : t.Spelled .kwLet) : (Stmt.binding t n (some e)).Restored := by
  obtain ⟨ys, hscan, -, hread⟩ := he
  have htext : (Stmt.binding t n (some e)).render.toList = Kind.kwLet.spelling ++ ' ' ::
      (n.text.toList ++ ' ' :: (Kind.assign.spelling ++ ' ' :: (e.render.toList ++ [';']))) := by
    simp [Stmt.render, renderOptional, ht.2, Kind.spelling]
  refine Stmt.restored_of_readsBack (Kind.kwLet.lexeme :: (.ident, n.text.toList) ::
    Kind.assign.lexeme :: (ys ++ [Kind.semicolon.lexeme])) rfl ?_ ?_ fun s rest hf hs _ => ?_
  · rw [htext]
    refine (scans_spelling (by decide)).append_lone (by decide) (.blank rfl ?_)
    refine hn.word.scans_starts.1.append_lone (by decide) (.blank rfl ?_)
    refine (scans_spelling (by decide)).append_lone (by decide) (.blank rfl ?_)
    exact hscan.append_lone (by decide) (scans_cons rfl (by decide) .done)
  · rw [htext]
    exact ⟨_, _, _, _, rfl, rfl, .inr (by decide)⟩
  · obtain ⟨hl, hs⟩ := TokenStream.lexemes_eq_cons hs
    obtain ⟨hi, hs⟩ := TokenStream.lexemes_advance_eq_cons hs
    obtain ⟨ha, hs⟩ := TokenStream.lexemes_advance_eq_cons hs
    obtain ⟨herase, -, hk⟩ := ht.erase_eq hl
    obtain ⟨e', s₁, he, hb, hre⟩ := hread.expression (s := s.advance.advance.advance) hf
      (by simpa using hs : _ = ys ++ Kind.semicolon.lexeme :: rest)
      (next_lexeme (by decide)) (show Precedence.lowest.level ≤ _ by decide)
    refine ⟨_, _, ?_, hb.afterSemicolon, .binding hk (congrArg Prod.fst hi) (congrArg Prod.fst ha) hre⟩
    have hname : (nameAt s.advance).erase = n.erase := hn.erase_nameAt hi
    simp only [Stmt.erase, erasePart, herase, hname, he]

/-- The statements of a block: their text scans as tokens that they are read
from, up to the closing brace. -/
theorem restored_items {x : Stmt} {xs : List Stmt} (h : ∀ y ∈ x :: xs, y.Restored) :
    ∃ ys, Scans (renderItems (x :: xs)).toList ys ∧
      ∀ s rest, s.final.kind = .eof → s.lexemes = ys ++ Kind.rbrace.lexeme :: rest →
        ∃ xs' s', eraseItems xs' = eraseItems (x :: xs) ∧ s'.current.kind = .rbrace ∧ Before rest s' ∧
          Reads (.statements xs') s s' := by
  induction xs generalizing x with
  | nil =>
    obtain ⟨ys, hscan, -, hread, -⟩ := h x (by simp)
    refine ⟨ys, by simpa [renderItems] using hscan, fun s rest hf hs => ?_⟩
    obtain ⟨x', s₁, hx, hb, hrx⟩ := hread s _ hf hs (next_lexeme (p := (¬ Continues ·)) (by decide))
    obtain ⟨hk, hb⟩ := hb.cons
    exact ⟨[x'], s₁.advance, by simp only [eraseItems, hx], congrArg Prod.fst hk, hb,
      .statements hrx .noStatements⟩
  | cons y xs ih =>
    obtain ⟨⟨ys, hscan, -, -, hread⟩, hxs⟩ := List.forall_mem_cons.mp h
    obtain ⟨zs, hscan', hread'⟩ := ih hxs
    refine ⟨ys ++ x.separator ++ zs, ?_, fun s rest hf hs => ?_⟩
    · cases hx : x.isExpression with
      | true =>
        have htext : (renderItems (x :: y :: xs)).toList =
            x.render.toList ++ ';' :: ' ' :: (renderItems (y :: xs)).toList := by
          simp [renderItems, hx]
        rw [htext, Stmt.separator, if_pos hx, List.append_assoc]
        exact hscan.append_lone (by decide) (scans_cons rfl (by decide) (.blank rfl hscan'))
      | false =>
        have htext : (renderItems (x :: y :: xs)).toList =
            x.render.toList ++ ' ' :: (renderItems (y :: xs)).toList := by
          simp [renderItems, hx]
        rw [htext, Stmt.separator, if_neg (by simp [hx]), List.append_nil]
        exact hscan.append_lone (by decide) (.blank rfl hscan')
    · obtain ⟨x', s₁, hx, hb, hrx⟩ := hread s (zs ++ Kind.rbrace.lexeme :: rest) hf
        (by simpa using hs) fun _ _ => trivial
      obtain ⟨xs', s', hxs', hk, hb', hrxs⟩ := hread' s₁.advance rest hb.final hb.lexemes
      refine ⟨x' :: xs', s', ?_, hk, hb', .statements hrx hrxs⟩
      simp only [eraseItems] at hxs' ⊢
      rw [hx, hxs']

theorem Block.restored {t : Token} {xs : List Stmt} (h : ∀ x ∈ xs, x.Restored) (ht : t.Spelled .lbrace) :
    (Block.mk t xs).Restored := by
  cases xs with
  | nil =>
    have htext : (Block.mk t []).render.toList = ['\x7b', '\x7d'] := by simp [Block.render]
    refine ⟨[Kind.lbrace.lexeme, Kind.rbrace.lexeme], ?_, ⟨_, rfl⟩, fun s rest hf hs => ?_⟩
    · rw [htext]
      exact scans_cons rfl (by decide) (scans_cons rfl (by decide) .done)
    · obtain ⟨hl, hs⟩ := TokenStream.lexemes_eq_cons hs
      obtain ⟨hr, hs⟩ := TokenStream.lexemes_advance_eq_cons hs
      refine ⟨_, s.advance, ?_, ⟨hf, hs⟩, .block .noStatements (.inl (congrArg Prod.fst hr))⟩
      simp only [Block.erase, (ht.erase_eq hl).1, eraseItems]
  | cons x xs =>
    obtain ⟨ys, hscan, hread⟩ := restored_items h
    have htext : (Block.mk t (x :: xs)).render.toList =
        '\x7b' :: ' ' :: ((renderItems (x :: xs)).toList ++ ' ' :: ['\x7d']) := by
      simp [Block.render]
    refine ⟨Kind.lbrace.lexeme :: (ys ++ [Kind.rbrace.lexeme]), ?_, ⟨_, rfl⟩, fun s rest hf hs => ?_⟩
    · rw [htext]
      exact scans_cons rfl (by decide) (.blank rfl (hscan.append_lone (by decide)
        (.blank rfl (scans_cons rfl (by decide) .done))))
    · obtain ⟨hl, hs⟩ := TokenStream.lexemes_eq_cons hs
      obtain ⟨xs', s', hxs, hk, hb, hrxs⟩ := hread s.advance rest hf (by simpa using hs)
      refine ⟨_, s', ?_, hb, .block hrxs (.inl hk)⟩
      simp only [Block.erase, (ht.erase_eq hl).1, hxs]

/-! ## Functions and conditionals -/

/-- Parameters from the first one on: their text scans as its token and tokens
that the others are read from, up to the closing parenthesis. -/
theorem restored_parameters {p : Name} {ps : List Name} (h : ∀ q ∈ p :: ps, q.WellFormed) :
    ∃ ys, Scans (", ".intercalate ((p :: ps).map (·.text))).toList ((.ident, p.text.toList) :: ys) ∧
      ∀ s rest, Before (ys ++ Kind.rparen.lexeme :: rest) s →
        ∃ ps' s', ps'.map Name.erase = ps.map Name.erase ∧ Before (Kind.rparen.lexeme :: rest) s' ∧
          Reads (.moreParameters ps') s s' := by
  induction ps generalizing p with
  | nil =>
    refine ⟨[], by simpa using (h p (by simp)).word.scans_starts.1, fun s rest hs => ?_⟩
    have hk : s.peek.kind = .rparen := congrArg Prod.fst hs.cons.1
    exact ⟨[], s, rfl, hs, .lastParameter (by simp [hk])⟩
  | cons q qs ih =>
    obtain ⟨hp, hqs⟩ := List.forall_mem_cons.mp h
    obtain ⟨ys, hscan, hread⟩ := ih hqs
    refine ⟨Kind.comma.lexeme :: (.ident, q.text.toList) :: ys, ?_, fun s rest hs => ?_⟩
    · have htext : (", ".intercalate ((p :: q :: qs).map (·.text))).toList =
          p.text.toList ++ ',' :: ' ' :: (", ".intercalate ((q :: qs).map (·.text))).toList := by
        simp [String.intercalate_cons_cons]
      rw [htext]
      exact hp.word.scans_starts.1.append_lone (by decide) (scans_cons rfl (by decide) (.blank rfl hscan))
    · obtain ⟨hc, hs⟩ := hs.cons
      obtain ⟨hi, hs⟩ := hs.cons
      obtain ⟨qs', s', hqs', hb, hr⟩ := hread s.advance.advance rest hs
      refine ⟨_, s', ?_, hb, .moreParameters (congrArg Prod.fst hc) (congrArg Prod.fst hi) hr⟩
      have hname : (nameAt s.advance.advance).erase = q.erase := (hqs q (by simp)).erase_nameAt hi
      simp only [List.map_cons, hname, hqs']

theorem Expr.restored_fn {t : Token} {ps : List Name} {b : Block} (hps : ∀ p ∈ ps, p.WellFormed)
    (hb : b.Restored) (ht : t.Spelled .kwFn) : (Expr.fn t ps b).Restored := by
  obtain ⟨zs, hscan, ⟨ws, rfl⟩, hreadb⟩ := hb
  obtain ⟨ys, hys, hread⟩ : ∃ ys, Scans (", ".intercalate (ps.map (·.text))).toList ys ∧
      ∀ s rest, Before (ys ++ Kind.rparen.lexeme :: rest) s →
        ∃ ps' s', ps'.map Name.erase = ps.map Name.erase ∧ Before rest s' ∧
          Reads (.parameters ps') s s' := by
    cases ps with
    | nil =>
      refine ⟨[], by simpa using .done, fun s rest hs => ?_⟩
      exact ⟨[], s.advance, rfl, hs.cons.2, .noParameters (congrArg Prod.fst hs.cons.1)⟩
    | cons p ps =>
      obtain ⟨ys, hys, hread⟩ := restored_parameters hps
      refine ⟨_, hys, fun s rest hs => ?_⟩
      obtain ⟨hi, hs⟩ := hs.cons
      obtain ⟨ps', s', hps', hb, hr⟩ := hread s.advance rest hs
      refine ⟨_, _, ?_, hb.cons.2, .parameters (congrArg Prod.fst hi) hr (congrArg Prod.fst hb.cons.1)⟩
      have hname : (nameAt s.advance).erase = p.erase := (hps p (by simp)).erase_nameAt hi
      simp only [List.map_cons, hname, hps']
  have htext : (Expr.fn t ps b).render.toList = Kind.kwFn.spelling ++ '(' ::
      ((", ".intercalate (ps.map (·.text))).toList ++ ')' :: ' ' :: b.render.toList) := by
    simp [Expr.render, ht.2]
  refine ⟨Kind.kwFn.lexeme :: Kind.lparen.lexeme :: (ys ++ Kind.rparen.lexeme :: Kind.lbrace.lexeme :: ws),
    ?_, ?_, .of_operand fun s rest hf hs _ => ?_⟩
  · rw [htext]
    refine (scans_spelling (by decide)).append_lone (by decide) (scans_cons rfl (by decide) ?_)
    exact hys.append_lone (by decide) (scans_cons rfl (by decide) (.blank rfl hscan))
  · rw [htext]
    exact ⟨_, _, _, _, rfl, rfl, .inr (by decide)⟩
  · obtain ⟨hl, hs⟩ := TokenStream.lexemes_eq_cons hs
    obtain ⟨hp, hs⟩ := TokenStream.lexemes_advance_eq_cons hs
    obtain ⟨herase, -, hk⟩ := ht.erase_eq hl
    obtain ⟨ps', s₁, hps', hb, hr⟩ :=
      hread s.advance (Kind.lbrace.lexeme :: (ws ++ rest)) ⟨hf, by simpa using hs⟩
    obtain ⟨b', s', hb', hb₂, hrb⟩ := hreadb s₁.advance rest hb.final hb.lexemes
    refine ⟨_, s', ?_, hb₂, .fn hk (congrArg Prod.fst hp) hr (congrArg Prod.fst hb.cons.1) hrb⟩
    simp only [Expr.erase, herase, hps', hb']

/-- The condition and the first branch of a conditional: their text scans as
tokens that they are read from, in front of anything. -/
theorem restored_branch {c : Expr} {b : Block} (hc : c.Restored) (hb : b.Restored) :
    ∃ ys, Scans (Kind.kwIf.spelling ++ ' ' :: (c.render.toList ++ ' ' :: b.render.toList))
        (Kind.kwIf.lexeme :: ys) ∧
      ∀ (s : TokenStream) rest, s.final.kind = .eof → s.advance.lexemes = ys ++ rest →
        ∃ c' s₁ b' s', c'.erase = c.erase ∧ b'.erase = b.erase ∧ Before rest s' ∧
          Reads (.expression .lowest c') s.advance s₁ ∧ s₁.peek.kind = .lbrace ∧
          Reads (.block b') s₁.advance s' := by
  obtain ⟨xs, hscan, -, hreadc⟩ := hc
  obtain ⟨ys, hscanb, ⟨ws, rfl⟩, hreadb⟩ := hb
  refine ⟨xs ++ Kind.lbrace.lexeme :: ws, ?_, fun s rest hf hs => ?_⟩
  · exact (scans_spelling (by decide)).append_lone (by decide)
      (.blank rfl (hscan.append_lone (by decide) (.blank rfl hscanb)))
  · obtain ⟨c', s₁, hc, hb₁, hrc⟩ := hreadc.expression (s := s.advance) hf
      (by simpa using hs : _ = xs ++ Kind.lbrace.lexeme :: (ws ++ rest))
      (next_lexeme (by decide)) (show Precedence.lowest.level ≤ _ by decide)
    obtain ⟨b', s', hb, hb', hrb⟩ := hreadb s₁.advance rest hb₁.final hb₁.lexemes
    exact ⟨c', s₁, b', s', hc, hb, hb', hrc, congrArg Prod.fst hb₁.cons.1, hrb⟩

theorem restored_else {a : Option Block} (h : ∀ b, a = some b → b.Restored) :
    ∃ ys, (∀ cs xs, Scans cs xs → Scans (cs ++ (renderElse a).toList) (xs ++ ys)) ∧
      ∀ s rest, Before (ys ++ rest) s → (a = none → ∀ x ∈ rest.head?, x.1 ≠ .kwElse) →
        ∃ a' s', eraseElse a' = eraseElse a ∧ Before rest s' ∧ Reads (.alternative a') s s' := by
  cases a with
  | none =>
    refine ⟨[], fun cs xs h => by simpa [renderElse] using h, fun s rest hs hr => ?_⟩
    exact ⟨none, s, rfl, hs, .noAlternative (Before.peek hs (p := (· ≠ .kwElse)) (hr rfl) (by decide))⟩
  | some b =>
    obtain ⟨ys, hscan, ⟨zs, rfl⟩, hread⟩ := h b rfl
    have htext : (renderElse (some b)).toList = ' ' :: (Kind.kwElse.spelling ++ ' ' :: b.render.toList) := by
      simp [renderElse, Kind.spelling]
    refine ⟨Kind.kwElse.lexeme :: Kind.lbrace.lexeme :: zs, fun cs xs h => ?_, fun s rest hs _ => ?_⟩
    · rw [htext]
      exact h.append_lone (by decide) (.blank rfl
        ((scans_spelling (by decide)).append_lone (by decide) (.blank rfl hscan)))
    · obtain ⟨hk, hs⟩ := hs.cons
      obtain ⟨b', s', hb, hb', hr⟩ := hread s.advance.advance rest hs.final hs.lexemes
      refine ⟨some b', s', by simp only [eraseElse, hb], hb', ?_⟩
      exact .alternative (congrArg Prod.fst hk) (congrArg Prod.fst hs.cons.1) hr

theorem Expr.Restored.cond {t : Token} {c : Expr} {b : Block} {a : Option Block} (hc : c.Restored)
    (hb : b.Restored) (ha : ∀ b, a = some b → b.Restored) (ht : t.Spelled .kwIf) :
    (Expr.cond t c b a).Restored := by
  obtain ⟨ys, hscan, hread⟩ := restored_branch hc hb
  obtain ⟨zs, hscana, hreada⟩ := restored_else ha
  have htext : (Expr.cond t c b a).render.toList = Kind.kwIf.spelling ++ ' ' ::
      (c.render.toList ++ ' ' :: b.render.toList) ++ (renderElse a).toList := by
    simp [Expr.render, Kind.spelling]
  refine ⟨Kind.kwIf.lexeme :: ys ++ zs, htext ▸ hscana _ _ hscan, ?_,
    .of_operand fun s rest hf hs hr => ?_⟩
  · rw [htext]
    exact ⟨_, _, _, _, rfl, rfl, .inr (by decide)⟩
  · obtain ⟨hl, hs⟩ := TokenStream.lexemes_eq_cons hs
    obtain ⟨herase, -, hk⟩ := ht.erase_eq hl
    obtain ⟨c', s₁, b', s₂, hc, hb, hb₂, hrc, hkb, hrb⟩ := hread s (zs ++ rest) hf (by simpa using hs)
    obtain ⟨a', s', ha, hb', hra⟩ := hreada s₂ rest hb₂ fun ha => hr (ha ▸ trivial)
    refine ⟨_, s', ?_, hb', .cond hk hrc hkb hrb hra⟩
    simp only [Expr.erase, herase, hc, hb, ha]

/-! ## Well-formed trees -/

mutual

theorem Expr.WellFormed.restored : ∀ {e : Expr}, e.WellFormed → e.Restored
  | .name _, h => Expr.restored_name h
  | .int _ _, ⟨hk, hn, hv⟩ => hv ▸ Expr.restored_int hk hn
  | .bool _ _, h => Expr.restored_bool h
  | .unary _ _ (some _), ⟨hk, ht, ho, he⟩ => ho ▸ (Expr.WellFormed.restored he).unary hk ht
  | .binary _ _ _ (some _), ⟨hk, ht, ho, hl, hr⟩ => ho ▸ hl.restored.binary (Expr.WellFormed.restored hr) hk ht
  | .cond _ _ _ none, ⟨ht, hc, hb, _⟩ => hc.restored.cond hb.restored (by simp) ht
  | .cond _ _ _ (some _), ⟨ht, hc, hb, ha⟩ =>
    hc.restored.cond hb.restored (by rintro _ ⟨⟩; exact Block.WellFormed.restored ha) ht
  | .fn _ _ _, ⟨ht, hps, hb⟩ => Expr.restored_fn hps hb.restored ht
  | .call _ _ _, ⟨ht, he, hes⟩ => he.restored.call (restored_of_wellFormedArguments hes) ht

theorem restored_of_wellFormedArguments : ∀ {es : List Expr}, wellFormedArguments es → ∀ e ∈ es, e.Restored
  | [], _ => by simp
  | _ :: _, ⟨he, hes⟩ => List.forall_mem_cons.mpr ⟨he.restored, restored_of_wellFormedArguments hes⟩

theorem Block.WellFormed.restored : ∀ {b : Block}, b.WellFormed → b.Restored
  | ⟨_, _⟩, ⟨ht, hxs⟩ => Block.restored (restored_of_wellFormedItems hxs) ht

theorem restored_of_wellFormedItems : ∀ {xs : List Stmt}, wellFormedItems xs → ∀ x ∈ xs, x.Restored
  | [], _ => by simp
  | _ :: _, ⟨hx, hxs⟩ => List.forall_mem_cons.mpr ⟨hx.restored, restored_of_wellFormedItems hxs⟩

theorem Stmt.WellFormed.restored : ∀ {x : Stmt}, x.WellFormed → x.Restored
  | .binding _ _ (some _), ⟨ht, hn, he⟩ => (Expr.WellFormed.restored he).binding hn ht
  | .ret _ (some _), ⟨ht, he⟩ => (Expr.WellFormed.restored he).ret ht
  | .expression _ (some _), h => (Expr.WellFormed.restored h).statement

end

/-! ## Programs -/

/-- Nothing stands between top-level statements. Behind an expression the next
statement keeps apart if no token runs on into it and it cannot be the
arguments of a call. -/
def KeepsApart (x y : Stmt) : Prop :=
  x.isExpression = true → Apart x.render.toList y.render.toList ∧ y.render.toList.head? ≠ some '('

/-- Each top-level statement keeps apart from the one before it. -/
def Program.Separated (p : Program) : Prop := p.statements.IsChain KeepsApart

theorem Stmt.WellFormed.apart {x : Stmt} (h : x.WellFormed) (hx : x.isExpression = false)
    (ds : List Char) : Apart x.render.toList ds := by
  have hlone : Lone ';' := by decide
  cases x with
  | binding | ret => exact hlone.apart_left (by simp [Stmt.render, List.getLast?_cons]) ds
  | expression => simp [isExpression] at hx
  | block => exact h.elim

/-- No statement has an empty text. -/
theorem Stmt.WellFormed.head?_flatMap {x : Stmt} (h : x.WellFormed) (xs : List Stmt) :
    ((x :: xs).flatMap fun x => x.render.toList).head? = x.render.toList.head? := by
  obtain ⟨_, -, ⟨c, cs, _, _, hc, -⟩, -⟩ := h.restored
  simp [hc]

theorem restored_statements {xs : List Stmt} (h : ∀ x ∈ xs, x.WellFormed) (hs : xs.IsChain KeepsApart) :
    ∃ ys, Scans (xs.flatMap fun x => x.render.toList) ys ∧
      (xs ≠ [] → Starts (xs.flatMap fun x => x.render.toList) ys) ∧
      ∀ s, s.final.kind = .eof → s.lexemes = ys →
        ∃ xs' s', eraseItems xs' = eraseItems xs ∧ s'.current.kind = .eof ∧
          Reads (.statements xs') s s' := by
  induction xs with
  | nil =>
    refine ⟨[], .done, fun h => absurd rfl h, fun s hf hs => ⟨[], s, rfl, ?_, .noStatements⟩⟩
    rw [TokenStream.kind_current hf, TokenStream.kinds_eq_map, hs]
    rfl
  | cons x xs ih =>
    obtain ⟨hx, hxs⟩ := List.forall_mem_cons.mp h
    obtain ⟨ys, hscan, hst, hbare, hclosed⟩ := hx.restored
    obtain ⟨zs, hscan', hst', hread⟩ := ih hxs hs.tail
    have hapart : Apart x.render.toList (xs.flatMap fun x => x.render.toList) ∧
        (x.isExpression = true → ∀ z ∈ zs.head?, ¬ Continues z.1) := by
      cases xs with
      | nil =>
        cases hscan'
        simp [Apart]
      | cons y xs =>
        obtain ⟨c, cs, z, zs, htext, rfl, hc⟩ := hst' (by simp)
        have hhead := (hxs y (by simp)).head?_flatMap xs
        cases he : x.isExpression with
        | false => exact ⟨hx.apart he _, by simp⟩
        | true =>
          obtain ⟨hap, hne⟩ := (List.isChain_cons_cons.mp hs).1 he
          rw [← hhead, htext] at hne
          refine ⟨hap.congr hhead, fun _ w hw => ?_⟩
          obtain rfl : z = w := by simpa using hw
          exact (hc.resolve_left (by simpa using hne)).2
    refine ⟨ys ++ zs, hscan.append hscan' hapart.1, fun _ => hst.append _ _, fun s hf hs' => ?_⟩
    have hnext : ∃ x' s', x'.erase = x.erase ∧ Before zs s' ∧ Reads (.statement x') s s' := by
      cases he : x.isExpression with
      | true => exact hbare s zs hf hs' (hapart.2 he)
      | false =>
        refine hclosed s zs hf ?_ fun _ _ => trivial
        simpa [Stmt.separator, he] using hs'
    obtain ⟨x', s₁, hx', hb, hr⟩ := hnext
    obtain ⟨xs', s', hxs', hend, hrs⟩ := hread s₁.advance hb.final hb.lexemes
    exact ⟨x' :: xs', s', by simp only [eraseItems, hx', hxs'], hend, .statements hr hrs⟩

theorem Program.toList_render (p : Program) :
    p.render.toList = p.statements.flatMap fun x => x.render.toList := by
  simp [Program.render, List.flatMap_map]

/-- The text of a program whose statements keep apart reads as the same program. -/
theorem Program.reads_render {p : Program} (hw : p.WellFormed) (hs : p.Separated) (file : String) :
    ∃ xs s', Reads (.statements xs) (.ofSource file p.render) s' ∧ s'.current.kind = .eof ∧
      eraseItems xs = eraseItems p.statements := by
  obtain ⟨ys, hscan, -, hread⟩ := restored_statements hw hs
  obtain ⟨hp, hf⟩ := @TokenStream.lexemes_ofSource file _ _ (p.toList_render ▸ hscan)
  obtain ⟨xs, s', hxs, he, hr⟩ := hread (.ofSource file p.render) (congrArg Prod.fst hf) hp
  exact ⟨xs, s', hr, he, hxs⟩

/-- **Rendering is undone by parsing**, up to places, where the top-level
statements keep apart: under every limit that the text stays within, and it
stays within all from some depth on. -/
theorem Program.parse_render_of_separated {p : Program} (hw : p.WellFormed) (hs : p.Separated)
    (file : String) : (∃ depth, ∀ limit ≥ depth, (parse file p.render limit).WithinLimit) ∧
      ∀ limit, (parse file p.render limit).WithinLimit →
        (parse file p.render limit).errors = [] ∧
        (parse file p.render limit).program.erase = p.erase := by
  obtain ⟨xs, s', hr, he, hxs⟩ := p.reads_render hw hs file
  have hf := (TokenStream.ended_ofSource file p.render).final
  refine ⟨?_, fun limit hl => ?_⟩
  · obtain ⟨depth, hd⟩ := Filter.eventually_atTop.mp (hr.eventually_program_eq hf he)
    refine ⟨depth, fun limit hl => withinLimit_of_errors_eq_nil ?_⟩
    exact congrArg Reading.errors (hd limit hl)
  · have hp : parse file p.render limit = ⟨xs, [], s'⟩ := hr.program_eq hf he hl
    rw [hp]
    exact ⟨rfl, congrArg Program.mk hxs⟩

/-- At the top level only the last statement may be an expression. -/
def Program.Closed (p : Program) : Prop := ∀ x ∈ p.statements.dropLast, x.isExpression = false

theorem isChain_of_dropLast {α : Type} {R : α → α → Prop} {xs : List α}
    (h : ∀ x ∈ xs.dropLast, ∀ y, R x y) : xs.IsChain R := by
  induction xs with
  | nil => exact .nil
  | cons x xs ih =>
    cases xs with
    | nil => exact .singleton x
    | cons y ys =>
      rw [List.dropLast_cons_cons] at h
      obtain ⟨hx, hxs⟩ := List.forall_mem_cons.mp h
      exact List.isChain_cons_cons.mpr ⟨hx y, ih hxs⟩

theorem Program.Closed.separated {p : Program} (h : p.Closed) : p.Separated :=
  isChain_of_dropLast fun x hx _ he => by simp [h x hx] at he

/-- **Rendering is undone by parsing.** -/
theorem Program.parse_render {p : Program} (hw : p.WellFormed) (hc : p.Closed) (file : String) :
    (∃ depth, ∀ limit ≥ depth, (parse file p.render limit).WithinLimit) ∧
      ∀ limit, (parse file p.render limit).WithinLimit →
        (parse file p.render limit).errors = [] ∧
        (parse file p.render limit).program.erase = p.erase ∧
        (parse file p.render limit).program.render = p.render := by
  obtain ⟨hd, hp⟩ := p.parse_render_of_separated hw hc.separated file
  refine ⟨hd, fun limit hl => ?_⟩
  obtain ⟨he, hp⟩ := hp limit hl
  exact ⟨he, hp, Program.render_eq_of_erase hp⟩

/-- A binding of a function, and a conditional that is called. -/
theorem Program.parse_render_call :
    let name (text : String) : Name := ⟨⟨.ident, text, default⟩, text⟩
    let body (e : Expr) : Block := ⟨⟨.lbrace, "\x7b", default⟩, [.expression default (some e)]⟩
    let f : Expr := .fn ⟨.kwFn, "fn", default⟩ [name "x"]
      (body (.unary ⟨.minus, "-", default⟩ "-" (some (.name (name "x")))))
    let c : Expr := .cond ⟨.kwIf, "if", default⟩ (.bool ⟨.kwTrue, "true", default⟩ true)
      (body (.name (name "g"))) none
    let p : Program := ⟨[.binding ⟨.kwLet, "let", default⟩ (name "g") (some f),
      .expression default (some (.call ⟨.lparen, "(", default⟩ c
        [.int ⟨.int, "07", default⟩ (some 7)]))]⟩
    p.render = "let g = fn(x) \x7b (-x) \x7d;if true \x7b g \x7d(07)" ∧
      (parse "demo" p.render 4).errors = [] ∧ (parse "demo" p.render 4).program.erase = p.erase := by
  intro name body f c p
  have hg : (name "g").WellFormed := ⟨⟨by decide, by simp [isWordChar, name], by decide⟩, rfl, rfl⟩
  have hx : (name "x").WellFormed := ⟨⟨by decide, by simp [isWordChar, name], by decide⟩, rfl, rfl⟩
  have hbody : ∀ e : Expr, e.WellFormed → (body e).WellFormed := fun e he => ⟨⟨rfl, rfl⟩, he, trivial⟩
  have hf : f.WellFormed :=
    ⟨⟨rfl, rfl⟩, by simpa using hx, hbody _ ⟨.inr rfl, ⟨rfl, rfl⟩, rfl, hx⟩⟩
  have hi : IsNumber "07".toList := ⟨by decide, by simp, by decide⟩
  have hcall : c.WellFormed := ⟨⟨rfl, rfl⟩, ⟨rfl, rfl⟩, hbody _ hg, trivial⟩
  have hw : p.WellFormed := by
    refine List.forall_mem_cons.mpr ⟨⟨⟨rfl, rfl⟩, hg, hf⟩, List.forall_mem_cons.mpr ⟨?_, by simp⟩⟩
    exact ⟨⟨rfl, rfl⟩, hcall, ⟨rfl, hi, rfl⟩, trivial⟩
  have hc : p.Closed := by
    intro x hx
    obtain rfl := List.mem_singleton.mp hx
    rfl
  have hr : p.render = "let g = fn(x) \x7b (-x) \x7d;if true \x7b g \x7d(07)" := by decide
  have hl : (parse "demo" p.render 4).WithinLimit := by
    rw [hr]
    exact withinLimit_of_errors_eq_nil (by decide)
  obtain ⟨he, hp, -⟩ := (p.parse_render hw hc "demo").2 4 hl
  exact ⟨hr, he, hp⟩

end ExprLang
