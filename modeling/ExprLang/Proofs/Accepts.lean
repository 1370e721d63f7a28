/-
The parser accepts exactly its grammar.

What reads can be derived (`Reads.derived`), and what can be derived greedily
reads (`readAs_of_derives`). With `Derives.greedy` between them, a text whose
nesting stays within the limit is parsed without an error exactly when its
tokens can be derived as statements (`errors_eq_nil_iff_derives`).
-/
import ExprLang.Proofs.Climbing
import ExprLang.Proofs.Program
import ExprLang.Proofs.Scan

namespace ExprLang

/-! ## Streams of kinds -/

namespace TokenStream

/-- The kinds of the tokens still to come. -/
def kinds (s : TokenStream) : List Kind := s.pending.map (·.kind)

variable {s s' : TokenStream}

theorem Ended.onward (h : s.Ended) (ho : Parse.Onward s s') : s'.Ended :=
  ⟨ho.kind_final h.final, fun t ht => h.pending t (ho.suffix.subset ht)⟩

theorem Ended.advance (h : s.Ended) : s.advance.Ended :=
  h.onward (Parse.Onward.refl s).advance

theorem kind_current (h : s.final.kind = .eof) : s.current.kind = s.kinds.headD .eof := by
  cases hp : s.pending <;> simp [current, kinds, hp, h]

theorem kind_peek (h : s.final.kind = .eof) : s.peek.kind = s.advance.kinds.headD .eof :=
  kind_current (s := s.advance) h

theorem Ended.kinds_of_current (h : s.Ended) {k : Kind} (hk : s.current.kind = k) (hne : k ≠ .eof) :
    s.kinds = k :: s.advance.kinds := by
  cases hp : s.pending with
  | nil => simp [current, hp, h.final, hne.symm] at hk
  | cons t ts => simpa [kinds, hp, current] using hk

theorem Ended.kinds_of_peek (h : s.Ended) {k : Kind} (hk : s.peek.kind = k) (hne : k ≠ .eof) :
    s.advance.kinds = k :: s.advance.advance.kinds :=
  h.advance.kinds_of_current hk hne

theorem kinds_eq_cons {k : Kind} {ks : List Kind} (h : s.kinds = k :: ks) :
    s.current.kind = k ∧ s.advance.kinds = ks ∧ s.pending ≠ [] := by
  cases hp : s.pending with
  | nil => simp [kinds, hp] at h
  | cons t ts => simpa [kinds, current, hp] using h

theorem current_mem (h : s.pending ≠ []) : s.current ∈ s.pending := by
  cases hp : s.pending with
  | nil => exact absurd hp h
  | cons t ts => simp [current, hp]

/-- The same one token later. -/
theorem kinds_advance_eq_cons {k : Kind} {ks : List Kind} (h : s.advance.kinds = k :: ks) :
    s.peek.kind = k ∧ s.advance.advance.kinds = ks :=
  ⟨(kinds_eq_cons h).1, (kinds_eq_cons h).2.1⟩

theorem Ended.kinds_of_eof (h : s.Ended) (hk : s.current.kind = .eof) : s.kinds = [] := by
  cases hp : s.pending with
  | nil => simp [kinds, hp]
  | cons t ts => exact absurd (by simpa [current, hp] using hk) (h.pending t (by simp [hp]))

end TokenStream

namespace Parse

variable {s s' : TokenStream}

/-! ## What reads can be derived -/

theorem Reads.operators_stop {least : Precedence} {left e : Expr}
    (h : Reads (.operators least left e) s s') : ¬ least.level < s'.peek.kind.precedence.level := by
  generalize hφ : Phrase.operators least left e = φ at h
  induction h generalizing left with
  | stop hl => cases hφ; exact hl
  | call _ _ _ _ _ ih | binary _ _ _ _ _ ih => cases hφ; exact ih rfl
  | _ => cases hφ

/-- An expression ends in front of what binds no tighter than it was read with. -/
theorem Reads.expression_stop {least : Precedence} {e : Expr}
    (h : Reads (.expression least e) s s') : ¬ least.level < s'.peek.kind.precedence.level := by
  cases h with
  | expression _ hr => exact hr.operators_stop

theorem isInfix_of_level_lt {least : Precedence} {k : Kind}
    (h : least.level < k.precedence.level) (hk : k ≠ .lparen) : isInfix k := by
  cases k <;> simp [isInfix] at hk ⊢ <;> cases least <;> simp [Kind.precedence, Precedence.level] at h

/-- What the tokens of a phrase are derived from. A phrase that starts behind
the current token is derived from there on. -/
def Phrase.Derived : Phrase → TokenStream → TokenStream → Prop
  | .expression least _, s, s' => Derives .free .expression s.kinds s'.advance.kinds ∧
      (Precedence.unary.level ≤ least.level → Derives .free .operand s.kinds s'.advance.kinds)
  | .operand _, s, s' => Derives .free .primary s.kinds s'.advance.kinds ∨
      (Derives .free .operand s.kinds s'.advance.kinds ∧ s'.peek.kind ≠ .lparen)
  | .operators least _ _, s, s' => ∃ ks, Derives .free .calls s.advance.kinds ks ∧
      Derives .free .links ks s'.advance.kinds ∧
      (Precedence.unary.level ≤ least.level → ks = s'.advance.kinds) ∧
      (s.peek.kind ≠ .lparen → ks = s.advance.kinds)
  | .expressions close _, s, s' =>
      close = .rparen → Derives .free .arguments s.advance.kinds s'.advance.kinds
  | .moreExpressions _, s, s' => s'.peek.kind = .rparen →
      Derives .free .moreArguments s.advance.kinds s'.advance.advance.kinds
  | .parameters _, s, s' => Derives .free .parameters s.advance.kinds s'.advance.kinds
  | .moreParameters _, s, s' => s'.peek.kind = .rparen →
      Derives .free .moreParameters s.advance.kinds s'.advance.advance.kinds
  | .block _, s, s' => s.current.kind = .lbrace → Derives .free .block s.kinds s'.advance.kinds
  | .alternative _, s, s' => Derives .free .alternative s.advance.kinds s'.advance.kinds
  | .statement _, s, s' => Derives .free .statement s.kinds s'.advance.kinds
  | .statements _, s, s' => Derives .free .statements s.kinds s'.kinds

theorem ending_derived (h : s.Ended) :
    Derives .free .ending s.advance.kinds (afterSemicolon s).advance.kinds := by
  unfold afterSemicolon
  split
  · next hk =>
    rw [h.kinds_of_peek hk (by simp)]
    exact .semicolon
  · exact .noSemicolon trivial

/-- An operand, and behind it calls and links. -/
theorem expression_derived {least : Precedence} {a e : Expr} {s₁ : TokenStream}
    (hp : (Phrase.operand a).Derived s s₁) (ho : (Phrase.operators least a e).Derived s₁ s') :
    (Phrase.expression least e).Derived s s' := by
  obtain ⟨ks, hc, hl, hu, hk⟩ := ho
  have hop : Derives .free .operand s.kinds ks := by
    rcases hp with hp | ⟨hop, hne⟩
    · exact .operand hp hc
    · exact hk hne ▸ hop
  exact ⟨.expression hop hl, fun hle => hu hle ▸ hop⟩

/-- What reads can be derived. -/
theorem Reads.derived {φ : Phrase} (h : Reads φ s s') (hs : s.Ended) : φ.Derived s s' := by
  induction h with
  | expression h₁ _ ih₁ ih₂ => exact expression_derived (ih₁ hs) (ih₂ (hs.onward h₁.onward))
  | name hk | int hk | yes hk | no hk =>
    refine .inl ?_
    rw [hs.kinds_of_current hk (by simp)]
    exact .atom (by simp)
  | unary hk he ih =>
    refine .inr ⟨?_, fun hl => he.expression_stop (by simp [hl, Kind.precedence, Precedence.level])⟩
    rw [hs.kinds_of_current rfl (by rcases hk with hk | hk <;> simp [hk])]
    exact .unary hk ((ih hs.advance).2 (Nat.le_refl _))
  | group hk he hr ih =>
    have hd := (ih hs.advance).1
    rw [(hs.advance.onward he.onward).kinds_of_peek hr (by simp)] at hd
    refine .inl ?_
    rw [hs.kinds_of_current hk (by simp)]
    exact .group hd
  | cond hk hc hb hbl ha ihc ihb iha =>
    have hs₁ := hs.advance.onward hc.onward
    have hs₂ := hs₁.advance.onward hbl.onward
    refine .inl ?_
    rw [hs.kinds_of_current hk (by simp)]
    exact .cond (ihc hs.advance).1 (ihb hs₁.advance hb) (iha hs₂)
  | fn hk hl hp hb hbl ihp ihb =>
    have hs₁ := hs.advance.onward hp.onward
    refine .inl ?_
    rw [hs.kinds_of_current hk (by simp), hs.kinds_of_peek hl (by simp)]
    exact .fn (ihp hs.advance) (ihb hs₁.advance hb)
  | stop => exact ⟨_, .noCalls, .noLinks, fun _ => rfl, fun _ => rfl⟩
  | call hl hk he ho ihe iho =>
    obtain ⟨ks, hc, hlk, hu, -⟩ := iho (hs.advance.onward he.onward)
    refine ⟨ks, ?_, hlk, hu, fun hne => absurd hk hne⟩
    rw [hs.kinds_of_peek hk (by simp)]
    exact .calls (ihe hs.advance rfl) hc
  | @binary _ s₁ _ _ _ _ _ hl hk he ho ihe iho =>
    have hs₁ := hs.advance.advance.onward he.onward
    obtain ⟨ks, hc, hlk, -, hkc⟩ := iho hs₁
    have hin := isInfix_of_level_lt hl hk
    -- a call behind the right operand is part of the right operand
    have hne : s₁.peek.kind ≠ .lparen := by
      intro hp
      have := he.expression_stop
      have := hin.level_lt_unary
      simp_all [Kind.precedence, Precedence.level]
      omega
    obtain rfl := hkc hne
    refine ⟨_, .noCalls, ?_, fun hu => ?_, fun _ => rfl⟩
    · rw [hs.kinds_of_peek rfl (kind_ne_eof_of_level_lt hl)]
      cases (ihe hs.advance.advance).1 with
      | expression hop hlk' => exact .links hin hop (hlk'.links_trans hlk)
    · have := hin.level_lt_unary
      omega
  | noExpressions hk =>
    rintro rfl
    rw [hs.kinds_of_peek hk (by simp)]
    exact .noArguments
  | expressions hk he hm hc ihe ihm =>
    rintro rfl
    exact .arguments (ihe hs.advance).1 (ihm (hs.advance.onward he.onward) hc)
  | lastExpression hk =>
    intro hr
    rw [hs.kinds_of_peek hr (by simp)]
    exact .lastArgument
  | moreExpressions hk he hm ihe ihm =>
    intro hr
    rw [hs.kinds_of_peek hk (by simp)]
    exact .moreArguments (ihe hs.advance.advance).1 (ihm (hs.advance.advance.onward he.onward) hr)
  | noParameters hk =>
    change Derives _ _ _ _
    rw [hs.kinds_of_peek hk (by simp)]
    exact .noParameters
  | parameters hk hm hr ihm =>
    change Derives _ _ _ _
    rw [hs.kinds_of_peek hk (by simp)]
    exact .parameters (ihm hs.advance hr)
  | lastParameter hk =>
    intro hr
    rw [hs.kinds_of_peek hr (by simp)]
    exact .lastParameter
  | moreParameters hk hi hm ihm =>
    intro hr
    rw [hs.kinds_of_peek hk (by simp), hs.advance.kinds_of_peek hi (by simp)]
    exact .moreParameters (ihm hs.advance.advance hr)
  | @block _ s' _ hx he ihx =>
    intro hk
    have hd := ihx hs.advance
    have hs' := hs.advance.onward hx.onward
    rw [hs.kinds_of_current hk (by simp)]
    rcases he with he | he
    · exact .block (hs'.kinds_of_current he (by simp) ▸ hd)
    · have hn := hs'.kinds_of_eof he
      have hn' : s'.advance.kinds = [] := by simp_all [TokenStream.kinds]
      rw [hn']
      exact .openBlock (hn ▸ hd) rfl
  | noAlternative hk => exact .noAlternative
  | alternative hk hl hb ihb =>
    change Derives _ _ _ _
    rw [hs.kinds_of_peek hk (by simp)]
    exact .alternative (ihb hs.advance.advance hl)
  | binding hk hi ha he ih =>
    change Derives _ _ _ _
    rw [hs.kinds_of_current hk (by simp), hs.kinds_of_peek hi (by simp),
      hs.advance.kinds_of_peek ha (by simp)]
    exact .binding (ih hs.advance.advance.advance).1
      (ending_derived (hs.advance.advance.advance.onward he.onward))
  | ret hk he ih =>
    change Derives _ _ _ _
    rw [hs.kinds_of_current hk (by simp)]
    exact .ret (ih hs.advance).1 (ending_derived (hs.advance.onward he.onward))
  | plain _ _ he ih => exact .plain (ih hs).1 (ending_derived (hs.onward he.onward))
  | noStatements => exact .noStatements
  | statements hx _ ihx ih =>
    exact .statements (ihx hs) (ih (hs.onward hx.onward).advance)

/-! ## What can be derived greedily reads -/

/-- The grammar alone decides on the stream: no integer in it is too long to be read. -/
structure Readable (s : TokenStream) : Prop where
  final : s.final.kind = .eof
  digits : ∀ t ∈ s.pending, t.kind = .int → t.literal.toList.length ≤ digitLimit

theorem Readable.onward (h : Readable s) (ho : Onward s s') : Readable s' :=
  ⟨ho.kind_final h.final, fun t ht => h.digits t (ho.suffix.subset ht)⟩

theorem Readable.advance (h : Readable s) : Readable s.advance := h.onward (Onward.refl s).advance

/-- What comes next is the end of the text or a kind with the property. -/
def Next (p : Kind → Prop) (ks : List Kind) : Prop := ∀ k ∈ ks.head?, p k

theorem next_cons {p : Kind → Prop} {k : Kind} {ks : List Kind} : Next p (k :: ks) ↔ p k := by
  simp [Next]

theorem Next.imp {p q : Kind → Prop} {ks : List Kind} (h : Next p ks) (hpq : ∀ k, p k → q k) :
    Next q ks := fun k hk => hpq k (h k hk)

theorem Next.peek {p : Kind → Prop} (hs : Readable s) (h : Next p s.advance.kinds) (he : p .eof) :
    p s.peek.kind := by
  rw [TokenStream.kind_peek hs.final]
  cases hk : s.advance.kinds with
  | nil => exact he
  | cons k ks => exact h k (by simp [hk])

/-- Kinds that an operand ends in front of. -/
def endsOperand (k : Kind) : Prop := k ≠ .lparen ∧ k ≠ .kwElse

/-- Kinds that an expression ends in front of. -/
def endsExpression (k : Kind) : Prop := ¬ isInfix k ∧ endsOperand k

instance : DecidablePred endsOperand := fun _ => inferInstanceAs (Decidable (_ ∧ _))

instance : DecidablePred endsExpression := fun _ => inferInstanceAs (Decidable (_ ∧ _))

theorem endsExpression.endsChain {k : Kind} (h : endsExpression k) : endsChain k := ⟨h.1, h.2.1⟩

theorem endsOperand_of_isInfix {k : Kind} (h : isInfix k) : endsOperand k := by
  rcases h with rfl | rfl | rfl | rfl | rfl | rfl | rfl | rfl <;> simp [endsOperand]

theorem not_unary_level_lt {k : Kind} (h : k ≠ .lparen) :
    ¬ Precedence.unary.level < k.precedence.level := by
  cases k <;> simp [Kind.precedence, Precedence.level] at h ⊢

theorem endsExpression_of_not_continues {k : Kind} (h : ¬ Continues k) : endsExpression k := by
  simp only [Continues, not_or] at h
  exact ⟨h.1, h.2.1, h.2.2.1⟩

theorem next_of_settled {ks : List Kind} (h : Settled ks) : Next endsExpression ks :=
  fun k hk => endsExpression_of_not_continues (h k hk)

theorem next_of_links {f : Follow} {ks rest : List Kind} (h : Derives f .links ks rest)
    (hr : Next endsExpression rest) : Next endsOperand ks := by
  cases h with
  | noLinks => exact hr.imp fun _ hk => hk.2
  | links hk => exact next_cons.mpr (endsOperand_of_isInfix hk)

theorem next_of_calls {f : Follow} {ks rest : List Kind} (h : Derives f .calls ks rest)
    (hr : Next endsOperand rest) : Next (· ≠ .kwElse) ks := by
  cases h with
  | noCalls => exact hr.imp fun _ hk => hk.2
  | calls => exact next_cons.mpr (by simp)

/-- Reading stopped in front of `rest`, on the last token read unless a block
was left open. -/
structure Reached (f : Follow) (s : TokenStream) (rest : List Kind) : Prop where
  kinds : s.advance.kinds = rest
  ended : s.pending = [] → f.block []

theorem Reached.of_cons {f : Follow} {k : Kind} {rest : List Kind} (h : s.advance.kinds = k :: rest) :
    Reached f s.advance rest :=
  ⟨(TokenStream.kinds_eq_cons h).2.1, fun hn => absurd hn (TokenStream.kinds_eq_cons h).2.2⟩

/-- What the derivations of a nonterminal are read as. -/
def ReadAs (f : Follow) : Nonterminal → List Kind → List Kind → Prop
  | .statements, ks, rest => ∀ s, Readable s → s.kinds = ks →
      ∃ xs s', Reads (.statements xs) s s' ∧ s'.kinds = rest
  | .statement, ks, rest => ∀ s, Readable s → s.kinds = ks →
      ∃ x s', Reads (.statement x) s s' ∧ s'.advance.kinds = rest
  | .ending, ks, rest => Next endsExpression ks ∧ ∀ s, Readable s → s.advance.kinds = ks →
      (afterSemicolon s).advance.kinds = rest
  | .expression, ks, rest => Next endsExpression rest → ∀ s, Readable s → s.kinds = ks →
      ∃ e s', Reads (.expression .lowest e) s s' ∧ s'.advance.kinds = rest
  | .links, ks, rest => Next endsExpression rest → ∀ s, Readable s → s.advance.kinds = ks →
      ∃ xs s', Links s xs s' ∧ s'.advance.kinds = rest
  | .operand, ks, rest => Next endsOperand rest → ∀ s, Readable s → s.kinds = ks →
      ∃ e s', Reads (.expression .unary e) s s' ∧ Reached f s' rest
  | .primary, ks, rest => Next (· ≠ .kwElse) rest → ∀ s, Readable s → s.kinds = ks →
      ∃ e s', Reads (.operand e) s s' ∧ Reached f s' rest
  | .calls, ks, rest => Next endsOperand rest → ∀ s, Readable s → Reached f s ks → ∀ left,
      ∃ e s', Reads (.operators .unary left e) s s' ∧ Reached f s' rest
  | .arguments, ks, rest => ∀ s, Readable s → s.advance.kinds = ks →
      ∃ es s', Reads (.expressions .rparen es) s s' ∧ Reached f s' rest
  | .moreArguments, ks, rest => Next endsExpression ks ∧ ∀ s, Readable s → s.advance.kinds = ks →
      ∃ es s', Reads (.moreExpressions es) s s' ∧ s'.peek.kind = .rparen ∧ Reached f s'.advance rest
  | .parameters, ks, rest => ∀ s, Readable s → s.advance.kinds = ks →
      ∃ ps s', Reads (.parameters ps) s s' ∧ s'.advance.kinds = rest
  | .moreParameters, ks, rest => ∀ s, Readable s → s.advance.kinds = ks →
      ∃ ps s', Reads (.moreParameters ps) s s' ∧ s'.peek.kind = .rparen ∧
        s'.advance.advance.kinds = rest
  | .block, ks, rest => Next endsExpression ks ∧ ∀ s, Readable s → s.kinds = ks →
      s.current.kind = .lbrace ∧ ∃ b s', Reads (.block b) s s' ∧ Reached f s' rest
  | .alternative, ks, rest => Next (· ≠ .kwElse) rest → ∀ s, Readable s → Reached f s ks →
      ∃ b s', Reads (.alternative b) s s' ∧ Reached f s' rest

open TokenStream in
/-- What can be derived greedily reads. -/
theorem readAs_of_derives {f : Follow} (hb : ∀ ks, f.block ks → ks = [])
    (hf : ∀ ks, f.statement ks → Settled ks) {φ : Nonterminal} {ks rest : List Kind}
    (h : Derives f φ ks rest) : ReadAs f φ ks rest := by
  induction h with
  | noStatements => exact fun s _ hs => ⟨[], s, .noStatements, hs⟩
  | statements _ _ ihx ih =>
    intro s hr hs
    obtain ⟨x, s₁, hx, h₁⟩ := ihx s hr hs
    obtain ⟨xs, s', hxs, h'⟩ := ih s₁.advance (hr.onward hx.onward).advance h₁
    exact ⟨_, _, .statements hx hxs, h'⟩
  | binding _ _ ihe ihk =>
    intro s hr hs
    obtain ⟨hl, h₁, -⟩ := kinds_eq_cons hs
    obtain ⟨hi, h₂⟩ := kinds_advance_eq_cons h₁
    obtain ⟨ha, h₃⟩ := kinds_advance_eq_cons h₂
    obtain ⟨e, s', he, h'⟩ := ihe ihk.1 s.advance.advance.advance hr.advance.advance.advance h₃
    exact ⟨_, _, .binding hl hi ha he, ihk.2 s' (hr.advance.advance.advance.onward he.onward) h'⟩
  | ret _ _ ihe ihk =>
    intro s hr hs
    obtain ⟨hk, h₁, -⟩ := kinds_eq_cons hs
    obtain ⟨e, s', he, h'⟩ := ihe ihk.1 s.advance hr.advance h₁
    exact ⟨_, _, .ret hk he, ihk.2 s' (hr.advance.onward he.onward) h'⟩
  | plain _ _ ihe ihk =>
    intro s hr hs
    obtain ⟨e, s', he, h'⟩ := ihe ihk.1 s hr hs
    exact ⟨_, _, he.statement, ihk.2 s' (hr.onward he.onward) h'⟩
  | semicolon =>
    refine ⟨next_cons.mpr (by decide), fun s _ hs => ?_⟩
    obtain ⟨hk, h'⟩ := kinds_advance_eq_cons hs
    rw [afterSemicolon, if_pos hk, h']
  | noSemicolon hst =>
    refine ⟨next_of_settled (hf _ hst), fun s hr hs => ?_⟩
    have hn : Next (¬ Continues ·) s.advance.kinds := hs ▸ hf _ hst
    have hk := hn.peek hr (by decide)
    rw [afterSemicolon, if_neg fun h => hk (by simp [Continues, h]), hs]
  | expression _ hl iho ihl =>
    intro hn s hr hs
    obtain ⟨a, s₁, ha, h₁⟩ := iho (next_of_links hl hn) s hr hs
    have hr₁ := hr.onward ha.onward
    obtain ⟨xs, s', hxs, h'⟩ := ihl hn s₁ hr₁ h₁.kinds
    have hend : endsExpression s'.peek.kind := by
      refine Next.peek (hr₁.onward hxs.onward) (h' ▸ hn) ?_
      decide
    obtain ⟨e, he⟩ := hxs.climb_all hend.endsChain
    exact ⟨e, s', ha.expression_trans (by simp [Precedence.level]) he, h'⟩
  | noLinks => exact fun _ s _ hs => ⟨[], s, .nil, hs⟩
  | links hk _ hl iho ihl =>
    intro hn s hr hs
    obtain ⟨rfl, h₁⟩ := kinds_advance_eq_cons hs
    obtain ⟨a, s₁, ha, h₁⟩ := iho (next_of_links hl hn) s.advance.advance hr.advance.advance h₁
    obtain ⟨xs, s', hxs, h'⟩ := ihl hn s₁ (hr.advance.advance.onward ha.onward) h₁.kinds
    exact ⟨_, s', .cons hk ha hxs, h'⟩
  | unary hk _ ih =>
    intro hn s hr hs
    obtain ⟨rfl, h₁, -⟩ := kinds_eq_cons hs
    obtain ⟨e, s', he, h'⟩ := ih hn s.advance hr.advance h₁
    have hend : endsOperand s'.peek.kind := by
      refine Next.peek (hr.advance.onward he.onward) (h'.kinds ▸ hn) ?_
      decide
    exact ⟨_, s', .expression (.unary hk he) (.stop (not_unary_level_lt hend.1)), h'⟩
  | operand _ hc ihp ihc =>
    intro hn s hr hs
    obtain ⟨a, s₁, ha, h₁⟩ := ihp (next_of_calls hc hn) s hr hs
    obtain ⟨e, s', he, h'⟩ := ihc hn s₁ (hr.onward ha.onward) h₁ a
    exact ⟨e, s', .expression ha he, h'⟩
  | noCalls =>
    intro hn s hr hs left
    have hend : endsOperand s.peek.kind :=
      Next.peek hr (hs.kinds ▸ hn) (by decide)
    exact ⟨left, s, .stop (not_unary_level_lt hend.1), hs⟩
  | calls _ _ iha ihc =>
    intro hn s hr hs left
    obtain ⟨hk, h₁⟩ := kinds_advance_eq_cons hs.kinds
    obtain ⟨es, s₁, hes, h₁⟩ := iha s.advance hr.advance h₁
    obtain ⟨e, s', he, h'⟩ := ihc hn s₁ (hr.advance.onward hes.onward) h₁ (.call s.peek left es)
    exact ⟨e, s', .call (by simp [hk, Kind.precedence, Precedence.level]) hk hes he, h'⟩
  | atom hk =>
    intro _ s hr hs
    obtain ⟨rfl, h₁, hp⟩ := kinds_eq_cons hs
    have hd := hr.digits s.current (current_mem hp)
    have hs' : Reached f s _ := ⟨h₁, fun h => absurd h hp⟩
    rcases hk with hk | hk | hk | hk
    · exact ⟨_, s, .name hk, hs'⟩
    · exact ⟨_, s, .int hk (hd hk), hs'⟩
    · exact ⟨_, s, .yes hk, hs'⟩
    · exact ⟨_, s, .no hk, hs'⟩
  | group _ ih =>
    intro _ s hr hs
    obtain ⟨hk, h₁, -⟩ := kinds_eq_cons hs
    obtain ⟨e, s₁, he, h₁⟩ := ih (next_cons.mpr (by decide)) s.advance hr.advance h₁
    exact ⟨e, s₁.advance, .group hk he (kinds_advance_eq_cons h₁).1, .of_cons h₁⟩
  | cond _ _ _ ihe ihb iha =>
    intro hn s hr hs
    obtain ⟨hk, h₁, -⟩ := kinds_eq_cons hs
    obtain ⟨c, s₁, hc, h₁⟩ := ihe ihb.1 s.advance hr.advance h₁
    have hr₁ := hr.advance.onward hc.onward
    obtain ⟨hl, b, s₂, hb, h₂⟩ := ihb.2 s₁.advance hr₁.advance h₁
    obtain ⟨a, s', ha, h'⟩ := iha hn s₂ (hr₁.advance.onward hb.onward) h₂
    exact ⟨_, s', .cond hk hc hl hb ha, h'⟩
  | fn _ _ ihp ihb =>
    intro _ s hr hs
    obtain ⟨hk, h₁, -⟩ := kinds_eq_cons hs
    obtain ⟨hl, h₂⟩ := kinds_advance_eq_cons h₁
    obtain ⟨ps, s₁, hps, h₁⟩ := ihp s.advance hr.advance h₂
    have hr₁ := hr.advance.onward hps.onward
    obtain ⟨hl', b, s', hb, h'⟩ := ihb.2 s₁.advance hr₁.advance h₁
    exact ⟨_, s', .fn hk hl hps hl' hb, h'⟩
  | noArguments =>
    intro s _ hs
    exact ⟨[], _, .noExpressions (kinds_advance_eq_cons hs).1, .of_cons hs⟩
  | arguments _ _ ihe iha =>
    intro s hr hs
    obtain ⟨e, s₁, he, h₁⟩ := ihe iha.1 s.advance hr.advance hs
    have hr₁ := hr.advance.onward he.onward
    obtain ⟨es, s₂, hes, hc, h'⟩ := iha.2 s₁ hr₁ h₁
    have hst : startsExpression s.peek.kind := he.starts
    refine ⟨_, _, .expressions (fun hk => ?_) he hes hc, h'⟩
    simp [startsExpression, hk] at hst
  | lastArgument =>
    refine ⟨next_cons.mpr (by decide), fun s _ hs => ?_⟩
    have hk := (kinds_advance_eq_cons hs).1
    exact ⟨[], s, .lastExpression (by simp [hk]), hk, .of_cons hs⟩
  | moreArguments _ _ ihe iha =>
    refine ⟨next_cons.mpr (by decide), fun s hr hs => ?_⟩
    obtain ⟨hk, h₁⟩ := kinds_advance_eq_cons hs
    obtain ⟨e, s₁, he, h₁⟩ := ihe iha.1 s.advance.advance hr.advance.advance h₁
    obtain ⟨es, s₂, hes, hc, h'⟩ := iha.2 s₁ (hr.advance.advance.onward he.onward) h₁
    exact ⟨_, s₂, .moreExpressions hk he hes, hc, h'⟩
  | noParameters =>
    intro s _ hs
    obtain ⟨hk, h'⟩ := kinds_advance_eq_cons hs
    exact ⟨[], _, .noParameters hk, h'⟩
  | parameters _ ih =>
    intro s hr hs
    obtain ⟨hk, h₁⟩ := kinds_advance_eq_cons hs
    obtain ⟨ps, s', hps, hc, h'⟩ := ih s.advance hr.advance h₁
    exact ⟨_, _, .parameters hk hps hc, h'⟩
  | lastParameter =>
    intro s _ hs
    obtain ⟨hk, h'⟩ := kinds_advance_eq_cons hs
    exact ⟨[], s, .lastParameter (by simp [hk]), hk, h'⟩
  | moreParameters _ ih =>
    intro s hr hs
    obtain ⟨hk, h₁⟩ := kinds_advance_eq_cons hs
    obtain ⟨hi, h₂⟩ := kinds_advance_eq_cons h₁
    obtain ⟨ps, s', hps, hc, h'⟩ := ih s.advance.advance hr.advance.advance h₂
    exact ⟨_, s', .moreParameters hk hi hps, hc, h'⟩
  | block _ ih =>
    refine ⟨next_cons.mpr (by decide), fun s hr hs => ?_⟩
    obtain ⟨hk, h₁, -⟩ := kinds_eq_cons hs
    obtain ⟨xs, s', hxs, h'⟩ := ih s.advance hr.advance h₁
    obtain ⟨hc, h', hp⟩ := kinds_eq_cons h'
    exact ⟨hk, _, s', .block hxs (.inl hc), h', fun h => absurd h hp⟩
  | openBlock _ hopen ih =>
    refine ⟨next_cons.mpr (by decide), fun s hr hs => ?_⟩
    obtain ⟨hk, h₁, -⟩ := kinds_eq_cons hs
    obtain ⟨xs, s', hxs, h'⟩ := ih s.advance hr.advance h₁
    obtain rfl := hb _ hopen
    have he : s'.current.kind = .eof := by
      rw [kind_current (hr.advance.onward hxs.onward).final, h']
      rfl
    have hp : s'.pending = [] := List.map_eq_nil_iff.mp h'
    exact ⟨hk, _, s', .block hxs (.inr he), by simp [kinds, hp], fun _ => hopen⟩
  | noAlternative =>
    intro hn s hr hs
    have hk := Next.peek hr (hs.kinds ▸ hn) (by simp)
    exact ⟨none, s, .noAlternative hk, hs⟩
  | alternative _ ih =>
    intro hn s hr hs
    obtain ⟨hk, h₁⟩ := kinds_advance_eq_cons hs.kinds
    obtain ⟨hl, b, s', hb, h'⟩ := ih.2 s.advance.advance hr.advance.advance h₁
    exact ⟨some b, s', .alternative hk hl hb, h'⟩

/-! ## Source texts -/

/-- **The parser accepts exactly its grammar.** A text without overlong
integers, whose nesting stays within the limit, is parsed without an error
exactly when its tokens can be derived. -/
theorem errors_eq_nil_iff_derives {file source : String} {limit : Nat}
    (hd : ∀ t ∈ tokenize file source, t.kind = .int → t.literal.toList.length ≤ digitLimit)
    (hw : (parse file source limit).WithinLimit) :
    (parse file source limit).errors = [] ↔
      Derives .free .statements ((tokenize file source).dropLast.map (·.kind)) [] := by
  have hs := TokenStream.ended_ofSource file source
  rw [← TokenStream.pending_ofSource]
  change _ ↔ Derives .free .statements (TokenStream.ofSource file source).kinds []
  constructor
  · intro he
    obtain ⟨hx, hk⟩ := reads_of_errors_eq_nil hs.final he
    have hder := hx.derived hs
    rwa [Phrase.Derived, (hs.onward hx.onward).kinds_of_eof hk] at hder
  · intro hder
    have hr : Readable (TokenStream.ofSource file source) := by
      refine ⟨hs.final, fun t ht => hd t ?_⟩
      rw [TokenStream.pending_ofSource] at ht
      exact List.dropLast_subset _ ht
    have hg := hder.greedy (fun _ => id) settled_nil
    obtain ⟨xs, s', hx, hk⟩ := readAs_of_derives (fun _ => id) (fun _ => id) hg _ hr rfl
    have he : s'.current.kind = .eof := by
      rw [TokenStream.kind_current (hs.onward hx.onward).final, hk]
      rfl
    exact congrArg Reading.errors (hx.program_eq hs.final he hw)

/-- A text with a block left open, and with an operator and a call that the
grammar also allows to start a statement. -/
theorem errors_eq_nil_iff_derives_openBlock :
    (parse "demo" "if a -1 \x7b b(2)" 3).errors = [] ↔
      Derives .free .statements [.kwIf, .ident, .minus, .int, .lbrace, .ident, .lparen, .int, .rparen] [] :=
  errors_eq_nil_iff_derives (by decide) (withinLimit_of_errors_eq_nil (by decide))

end Parse

end ExprLang
