/-
Precedence and associativity for chains of operators of every length.

An operand is any text that the grammar derives as one, without a block that
the end of the text would have to close. What an operand is read as does not
depend on what stands behind it (`Reads.before`), so that tree is a matter of
the operand alone (`OperandTree`).

Main statement: started with a rank on a chain of operands and operators, the
parser takes the operators in front that bind tighter than that rank, and
yields the one grouped tree over the operands that it took (`expression_chain`).
-/
import Mathlib.Data.List.Forall2
import ExprLang.Proofs.Accepts

namespace ExprLang

/-! ## Tokens behind a stream -/

namespace TokenStream

/-- The stream with other tokens behind its own. -/
def before (s : TokenStream) (rest : List Token) (final : Token) : TokenStream :=
  ⟨s.pending ++ rest, final⟩

variable {s : TokenStream} (rest : List Token) (final : Token)

theorem current_before (h : s.pending ≠ []) : (s.before rest final).current = s.current := by
  cases hp : s.pending with
  | nil => exact absurd hp h
  | cons t ts => simp [before, current, hp]

theorem advance_before (h : s.pending ≠ []) :
    (s.before rest final).advance = s.advance.before rest final := by
  cases hp : s.pending with
  | nil => exact absurd hp h
  | cons t ts => simp [before, advance, hp]

theorem peek_before (h : s.advance.pending ≠ []) : (s.before rest final).peek = s.peek := by
  cases hp : s.pending with
  | nil => simp [hp] at h
  | cons t ts =>
    cases ts with
    | nil => simp [hp] at h
    | cons u us => simp [before, peek, hp]

/-- Behind the last token of its own the stream goes on with the others. -/
theorem peek_before_last (h : s.advance.pending = []) (hs : s.pending ≠ []) :
    (s.before rest final).peek = rest.headD final := by
  cases hp : s.pending with
  | nil => exact absurd hp hs
  | cons t ts =>
    obtain rfl : ts = [] := by simpa [hp] using h
    simp [before, peek, hp]

end TokenStream

namespace Parse

open TokenStream

variable {s s' : TokenStream} (rest : List Token) (final : Token)

theorem nameAt_before (h : s.pending ≠ []) : nameAt (s.before rest final) = nameAt s := by
  simp [nameAt, current_before rest final h]

theorem Onward.pending_ne_nil (h : Onward s s') (hn : s'.pending ≠ []) : s.pending ≠ [] :=
  fun hs => hn (List.suffix_nil.mp (hs ▸ h.suffix))

/-- From the last token reading can only go on to the end. -/
theorem Onward.last (h : Onward s s') (hs : s.advance.pending = []) : s'.advance.pending = [] := by
  have := h.length_le
  have := congrArg List.length hs
  simp only [pending_advance, List.length_tail, List.length_nil] at this
  exact List.length_eq_zero_iff.mp (by simp; omega)

theorem pending_ne_nil_of_advance (h : s.advance.pending ≠ []) : s.pending ≠ [] :=
  (Onward.refl s).advance.pending_ne_nil h

theorem pending_ne_nil_of_afterSemicolon (h : (afterSemicolon s).advance.pending ≠ []) :
    s.advance.pending ≠ [] :=
  fun hs => h ((Onward.refl s).afterSemicolon.last hs)

theorem afterSemicolon_before (h : (afterSemicolon s).advance.pending ≠ []) :
    afterSemicolon (s.before rest final) = (afterSemicolon s).before rest final := by
  unfold afterSemicolon at h ⊢
  split at h
  · next hk =>
    have h₁ := pending_ne_nil_of_advance h
    rw [peek_before rest final h₁, if_pos hk, if_pos hk,
      advance_before rest final (pending_ne_nil_of_advance h₁)]
  · next hk => rw [peek_before rest final h, if_neg hk, if_neg hk]

/-- The phrases that can be read up to the last token of a stream, whatever
operand ends there. -/
def Phrase.EndsOperand : Phrase → Prop
  | .expression least _ | .operators least _ _ => Precedence.unary.level ≤ least.level
  | .moreExpressions _ | .moreParameters _ | .statement _ => False
  | _ => True

/-- What was read stays so when tokens follow that end an operand. -/
theorem Reads.before {φ : Phrase} (h : Reads φ s s') (hn : s'.pending ≠ [])
    (he : s'.advance.pending = [] → φ.EndsOperand ∧ endsOperand (rest.headD final).kind) :
    Reads φ (s.before rest final) (s'.before rest final) := by
  induction h with
  | expression h₁ h₂ ih₁ ih₂ =>
    exact .expression (ih₁ (h₂.onward.pending_ne_nil hn) fun h => ⟨trivial, (he (h₂.onward.last h)).2⟩)
      (ih₂ hn he)
  | name hk =>
    rw [← nameAt_before rest final hn]
    exact .name (by rwa [current_before rest final hn])
  | int hk hd =>
    rw [← current_before rest final hn] at hk hd ⊢
    exact .int hk hd
  | yes hk =>
    rw [← current_before rest final hn] at hk ⊢
    exact .yes hk
  | no hk =>
    rw [← current_before rest final hn] at hk ⊢
    exact .no hk
  | unary hk h ih =>
    have h₁ := h.onward.pending_ne_nil hn
    have h₀ := pending_ne_nil_of_advance h₁
    have hr := ih hn fun h => ⟨Nat.le_refl _, (he h).2⟩
    rw [← current_before rest final h₀] at hk ⊢
    rw [← advance_before rest final h₀] at hr
    exact .unary hk hr
  | group hk h hr ih =>
    have h₂ := pending_ne_nil_of_advance hn
    have h₀ := pending_ne_nil_of_advance (h.onward.pending_ne_nil h₂)
    have hr' := ih h₂ fun h => absurd h hn
    rw [← current_before rest final h₀] at hk
    rw [← advance_before rest final h₀] at hr'
    rw [← peek_before rest final hn] at hr
    rw [← advance_before rest final h₂]
    exact .group hk hr' hr
  | cond hk hc hl hb ha ihc ihb iha =>
    have h₂ := ha.onward.pending_ne_nil hn
    have h₁ := hb.onward.pending_ne_nil h₂
    have h₁' := pending_ne_nil_of_advance h₁
    have h₀ := pending_ne_nil_of_advance (hc.onward.pending_ne_nil h₁')
    have hrc := ihc h₁' fun h => absurd h h₁
    have hrb := ihb h₂ fun h => ⟨trivial, (he (ha.onward.last h)).2⟩
    rw [← current_before rest final h₀] at hk ⊢
    rw [← advance_before rest final h₀] at hrc
    rw [← peek_before rest final h₁] at hl
    rw [← advance_before rest final h₁'] at hrb
    exact .cond hk hrc hl hrb (iha hn he)
  | fn hk hl hp hl' hb ihp ihb =>
    have h₁ := hb.onward.pending_ne_nil hn
    have h₁' := pending_ne_nil_of_advance h₁
    have ha := hp.onward.pending_ne_nil h₁'
    have h₀ := pending_ne_nil_of_advance ha
    have hrp := ihp h₁' fun h => absurd h h₁
    have hrb := ihb hn he
    rw [← current_before rest final h₀] at hk ⊢
    rw [← peek_before rest final ha] at hl
    rw [← advance_before rest final h₀] at hrp
    rw [← peek_before rest final h₁] at hl'
    rw [← advance_before rest final h₁'] at hrb
    exact .fn hk hl hrp hl' hrb
  | @stop least e s hl =>
    refine .stop ?_
    by_cases h : s.advance.pending = []
    · obtain ⟨hu, hk, -⟩ := he h
      rw [peek_before_last rest final h hn]
      have := not_unary_level_lt hk
      change Precedence.unary.level ≤ least.level at hu
      omega
    · rwa [peek_before rest final h]
  | call hl hk h₁ h₂ ih₁ ih₂ =>
    have hs₁ := h₂.onward.pending_ne_nil hn
    have ha := h₁.onward.pending_ne_nil hs₁
    have hr₁ := ih₁ hs₁ fun h => ⟨trivial, (he (h₂.onward.last h)).2⟩
    have hr₂ := ih₂ hn he
    rw [← peek_before rest final ha] at hl hk hr₂
    rw [← advance_before rest final (pending_ne_nil_of_advance ha)] at hr₁
    exact .call hl hk hr₁ hr₂
  | binary hl hk h₁ h₂ ih₁ ih₂ =>
    have hs₁ := h₂.onward.pending_ne_nil hn
    have ha' := h₁.onward.pending_ne_nil hs₁
    have ha := pending_ne_nil_of_advance ha'
    have hr₁ := ih₁ hs₁ fun h =>
      ⟨Nat.le_of_lt (Nat.lt_of_le_of_lt (he (h₂.onward.last h)).1 hl), (he (h₂.onward.last h)).2⟩
    have hr₂ := ih₂ hn he
    rw [← peek_before rest final ha] at hl hk hr₁ hr₂
    rw [← advance_before rest final ha,
      ← advance_before rest final (pending_ne_nil_of_advance ha)] at hr₁
    exact .binary hl hk hr₁ hr₂
  | noExpressions hk =>
    rw [← peek_before rest final hn] at hk
    rw [← advance_before rest final (pending_ne_nil_of_advance hn)]
    exact .noExpressions hk
  | expressions hk h₁ h₂ hc ih₁ ih₂ =>
    have hs₂ := pending_ne_nil_of_advance hn
    have hs₁ := h₂.onward.pending_ne_nil hs₂
    have ha := h₁.onward.pending_ne_nil hs₁
    have hr₁ := ih₁ hs₁ fun h => absurd (h₂.onward.last h) hn
    have hr₂ := ih₂ hs₂ fun h => absurd h hn
    rw [← peek_before rest final ha] at hk
    rw [← advance_before rest final (pending_ne_nil_of_advance ha)] at hr₁
    rw [← peek_before rest final hn] at hc
    rw [← advance_before rest final hs₂]
    exact .expressions hk hr₁ hr₂ hc
  | lastExpression hk => exact .lastExpression (by rwa [peek_before rest final fun h => (he h).1])
  | moreExpressions hk h₁ h₂ ih₁ ih₂ =>
    have hs₁ := h₂.onward.pending_ne_nil hn
    have ha' := h₁.onward.pending_ne_nil hs₁
    have ha := pending_ne_nil_of_advance ha'
    have hr₁ := ih₁ hs₁ fun h => (he (h₂.onward.last h)).1.elim
    rw [← peek_before rest final ha] at hk
    rw [← advance_before rest final ha,
      ← advance_before rest final (pending_ne_nil_of_advance ha)] at hr₁
    exact .moreExpressions hk hr₁ (ih₂ hn he)
  | noParameters hk =>
    rw [← peek_before rest final hn] at hk
    rw [← advance_before rest final (pending_ne_nil_of_advance hn)]
    exact .noParameters hk
  | parameters hk h hc ih =>
    have hs₁ := pending_ne_nil_of_advance hn
    have ha := h.onward.pending_ne_nil hs₁
    have h₀ := pending_ne_nil_of_advance ha
    have hr := ih hs₁ fun h => absurd h hn
    rw [← peek_before rest final ha] at hk
    rw [← advance_before rest final h₀] at hr
    rw [← peek_before rest final hn] at hc
    rw [← nameAt_before rest final ha, ← advance_before rest final h₀, ← advance_before rest final hs₁]
    exact .parameters hk hr hc
  | lastParameter hk => exact .lastParameter (by rwa [peek_before rest final fun h => (he h).1])
  | moreParameters hk hi h ih =>
    have ha' := h.onward.pending_ne_nil hn
    have ha := pending_ne_nil_of_advance ha'
    have h₀ := pending_ne_nil_of_advance ha
    have hr := ih hn he
    rw [← peek_before rest final ha] at hk
    rw [← peek_before rest final ha', ← advance_before rest final h₀] at hi
    rw [← advance_before rest final ha, ← advance_before rest final h₀] at hr
    rw [← nameAt_before rest final ha', ← advance_before rest final ha, ← advance_before rest final h₀]
    exact .moreParameters hk hi hr
  | block h hend ih =>
    have ha := h.onward.pending_ne_nil hn
    have h₀ := pending_ne_nil_of_advance ha
    have hr := ih hn he
    rw [← advance_before rest final h₀] at hr
    rw [← current_before rest final hn] at hend
    rw [← current_before rest final h₀]
    exact .block hr hend
  | @noAlternative s hk =>
    refine .noAlternative ?_
    by_cases h : s.advance.pending = []
    · rw [peek_before_last rest final h hn]
      exact (he h).2.2
    · rwa [peek_before rest final h]
  | alternative hk hl h ih =>
    have ha' := h.onward.pending_ne_nil hn
    have ha := pending_ne_nil_of_advance ha'
    have h₀ := pending_ne_nil_of_advance ha
    have hr := ih hn he
    rw [← peek_before rest final ha] at hk
    rw [← peek_before rest final ha', ← advance_before rest final h₀] at hl
    rw [← advance_before rest final ha, ← advance_before rest final h₀] at hr
    exact .alternative hk hl hr
  | binding hk hi ha h ih =>
    have hs' := fun h => (he h).1
    have hs₁ := pending_ne_nil_of_afterSemicolon hs'
    have h₃ := h.onward.pending_ne_nil (pending_ne_nil_of_advance hs₁)
    have h₂ := pending_ne_nil_of_advance h₃
    have h₁ := pending_ne_nil_of_advance h₂
    have h₀ := pending_ne_nil_of_advance h₁
    have hr := ih (pending_ne_nil_of_advance hs₁) fun h => absurd h hs₁
    rw [← current_before rest final h₀] at hk
    rw [← peek_before rest final h₁] at hi
    rw [← peek_before rest final h₂, ← advance_before rest final h₀] at ha
    rw [← advance_before rest final h₂, ← advance_before rest final h₁,
      ← advance_before rest final h₀] at hr
    rw [← afterSemicolon_before rest final hs', ← current_before rest final h₀,
      ← nameAt_before rest final h₁, ← advance_before rest final h₀]
    exact .binding hk hi ha hr
  | ret hk h ih =>
    have hs' := fun h => (he h).1
    have hs₁ := pending_ne_nil_of_afterSemicolon hs'
    have h₀ := pending_ne_nil_of_advance (h.onward.pending_ne_nil (pending_ne_nil_of_advance hs₁))
    have hr := ih (pending_ne_nil_of_advance hs₁) fun h => absurd h hs₁
    rw [← current_before rest final h₀] at hk
    rw [← advance_before rest final h₀] at hr
    rw [← afterSemicolon_before rest final hs', ← current_before rest final h₀]
    exact .ret hk hr
  | plain hl hr h ih =>
    have hs' := fun h => (he h).1
    have hs₁ := pending_ne_nil_of_afterSemicolon hs'
    have h₀ := h.onward.pending_ne_nil (pending_ne_nil_of_advance hs₁)
    have hre := ih (pending_ne_nil_of_advance hs₁) fun h => absurd h hs₁
    rw [← current_before rest final h₀] at hl hr
    rw [← afterSemicolon_before rest final hs', ← current_before rest final h₀]
    exact .plain hl hr hre
  | noStatements => exact .noStatements
  | statements h₁ h₂ ih₁ ih₂ =>
    have ha := h₂.onward.pending_ne_nil hn
    have h₁ := pending_ne_nil_of_advance ha
    have hr := ih₂ hn he
    rw [← advance_before rest final h₁] at hr
    exact .statements (ih₁ h₁ fun h => absurd h ha) hr

/-! ## Operands by themselves -/

/-- The tokens are an operand: signs, and behind them a primary with its calls. -/
structure IsOperand (ts : List Token) : Prop where
  derives : Derives .closed .operand (ts.map (·.kind)) []
  digits : ∀ t ∈ ts, t.kind = .int → t.literal.toList.length ≤ digitLimit

/-- The tokens are read as this tree if nothing else stands in the text. -/
def OperandTree (ts : List Token) (a : Expr) : Prop :=
  ∃ last, ts.getLast? = some last ∧ ∀ final : Token, final.kind = .eof →
    ∃ limit, (expression limit .unary).Yields ⟨ts, final⟩ (some a) ⟨[last], final⟩

theorem Links.unique {xs : List (Token × Expr)} {s₁ s₂ : TokenStream} (hf : s.final.kind = .eof)
    (h₁ : Links s xs s₁) (h₂ : Links s xs s₂) : s₁ = s₂ := by
  induction h₁ with
  | nil => cases h₂; rfl
  | @cons _ _ _ _ _ _ hb _ ih =>
    cases h₂ with
    | cons _ hb' hxs =>
      obtain ⟨-, rfl⟩ := hb.expression_unique hb' hf
      exact ih (hb.onward.kind_final hf) hxs

theorem OperandTree.unique {ts : List Token} {a b : Expr} (ha : OperandTree ts a)
    (hb : OperandTree ts b) : a = b := by
  obtain ⟨last, -, ha⟩ := ha
  obtain ⟨last', -, hb⟩ := hb
  obtain ⟨n, hn⟩ := ha ⟨.eof, "", default⟩ rfl
  obtain ⟨m, hm⟩ := hb ⟨.eof, "", default⟩ rfl
  have := (expression_of_done (Nat.le_max_left n m) hn).symm.trans
    (expression_of_done (Nat.le_max_right n m) hm)
  simp at this
  exact this.1

/-- An operand is read as one tree, whatever follows that ends it. -/
theorem IsOperand.reads {ts : List Token} (h : IsOperand ts) :
    ∃ a last, OperandTree ts a ∧ ts.getLast? = some last ∧ ∀ rest final,
      endsOperand (List.headD rest final).kind →
        Reads (.expression .unary a) ⟨ts ++ rest, final⟩ ⟨last :: rest, final⟩ := by
  have hd : Derives Follow.closed.greedy .operand (ts.map (·.kind)) [] :=
    h.derives.greedily fun _ => False.elim
  have hr : Readable ⟨ts, ⟨.eof, "", default⟩⟩ := ⟨rfl, h.digits⟩
  obtain ⟨a, s', ha, hk, hn⟩ :=
    readAs_of_derives (fun _ => False.elim) (fun _ => id) hd (by simp [Next]) _ hr rfl
  -- a closed operand ends on its last token
  obtain ⟨last, hl⟩ : ∃ last, s'.pending = [last] := by
    cases hp : s'.pending with
    | nil => exact (hn hp).elim
    | cons t us =>
      obtain rfl : us = [] := by simpa [kinds, hp] using hk
      exact ⟨t, rfl⟩
  have hlast : ts.getLast? = some last := by
    obtain ⟨us, hus⟩ := ha.onward.suffix
    simp only [hl] at hus
    rw [← hus, List.getLast?_concat]
  have hreads : ∀ rest final, endsOperand (List.headD rest final).kind →
      Reads (.expression .unary a) ⟨ts ++ rest, final⟩ ⟨last :: rest, final⟩ := by
    intro rest final he
    have := ha.before rest final (by simp [hl]) fun _ => ⟨Nat.le_refl _, he⟩
    rwa [before, before, hl] at this
  refine ⟨a, last, ⟨last, hlast, fun final hf => ?_⟩, hlast, hreads⟩
  obtain ⟨limit, hy⟩ := ((hreads [] final (by simp [hf, endsOperand])).parsed hf).exists
  exact ⟨limit, by simpa [Phrase.Parsed] using hy⟩

/-! ## Chains -/

/-- Operators, each with the tokens of the operand behind it, as one list of tokens. -/
def chain (xs : List (Token × List Token)) : List Token := xs.flatMap fun x => x.1 :: x.2

/-- A link and its tokens. -/
def LinkTree (x : Token × List Token) (y : Token × Expr) : Prop := x.1 = y.1 ∧ OperandTree x.2 y.2

/-- The in-order reading of the tree is this chain. -/
structure OpTree.Over (e₀ : List Token) (xs : List (Token × List Token)) (t : OpTree) : Prop where
  first : OperandTree e₀ t.first
  links : List.Forall₂ LinkTree xs t.links

theorem linkTrees_unique {xs : List (Token × List Token)} {ys zs : List (Token × Expr)}
    (hy : List.Forall₂ LinkTree xs ys) (hz : List.Forall₂ LinkTree xs zs) : ys = zs := by
  induction hy generalizing zs with
  | nil => cases hz; rfl
  | cons hy _ ih =>
    cases hz with
    | cons hz hzs => rw [ih hzs, Prod.ext (hy.1.symm.trans hz.1) (hy.2.unique hz.2)]

/-- A chain has one grouped tree. -/
theorem OpTree.Over.unique {e₀ : List Token} {xs : List (Token × List Token)} {t u : OpTree}
    (ht : t.Over e₀ xs) (hu : u.Over e₀ xs) (hgt : t.Grouped) (hgu : u.Grouped) : u = t :=
  hgu.unique hgt (hu.first.unique ht.first) (linkTrees_unique hu.links ht.links)

theorem getLast?_append_cons {α : Type} {us : List α} {u : α} (h : us.getLast? = some u)
    (vs ws : List α) : (vs ++ (us ++ ws)).getLast? = (u :: ws).getLast? := by
  obtain ⟨us, rfl⟩ := List.getLast?_eq_some_iff.mp h
  simp [List.getLast?_append, List.getLast?_cons]

/-- A chain is read link by link, from the last token of its first operand. -/
theorem links_of_chain {xs : List (Token × List Token)}
    (hx : ∀ x ∈ xs, isInfix x.1.kind ∧ IsOperand x.2)
    (hend : endsOperand (rest.headD final).kind) (t : Token) :
    ∃ ys last, List.Forall₂ LinkTree xs ys ∧ (t :: chain xs).getLast? = some last ∧
      Links ⟨t :: (chain xs ++ rest), final⟩ ys ⟨last :: rest, final⟩ := by
  induction xs generalizing t with
  | nil => exact ⟨[], t, .nil, rfl, .nil⟩
  | cons x xs ih =>
    obtain ⟨⟨hk, ho⟩, hxs⟩ := List.forall_mem_cons.mp hx
    obtain ⟨a, u, ha, hu, hr⟩ := ho.reads
    obtain ⟨ys, last, hys, hlast, hl⟩ := ih hxs u
    have hnext : endsOperand (List.headD (chain xs ++ rest) final).kind := by
      cases xs with
      | nil => exact hend
      | cons y ys => exact endsOperand_of_isInfix (hxs y (by simp)).1
    refine ⟨(x.1, a) :: ys, last, .cons ⟨rfl, ha⟩ hys, ?_, ?_⟩
    · rw [← hlast, ← getLast?_append_cons hu [t, x.1]]
      rfl
    · have hlink : Links ⟨t :: x.1 :: (x.2 ++ (chain xs ++ rest)), final⟩ ((x.1, a) :: ys)
          ⟨last :: rest, final⟩ := .cons hk (hr _ final hnext) hl
      simpa [chain] using hlink

theorem linkTrees_takeWhile {xs : List (Token × List Token)} {ys : List (Token × Expr)}
    (h : List.Forall₂ LinkTree xs ys) (least : Precedence) :
    List.Forall₂ LinkTree (xs.takeWhile fun x => least.level < rank x.1)
      (ys.takeWhile (tighter least)) := by
  induction h with
  | nil => exact .nil
  | @cons x y _ _ hy _ ih =>
    by_cases hlt : least.level < rank x.1
    · have hlt' : tighter least y = true := by simpa [tighter, ← hy.1] using hlt
      simp only [List.takeWhile_cons, hlt, hlt', decide_true, if_true]
      exact .cons hy ih
    · have hlt' : ¬ tighter least y = true := by simpa [tighter, ← hy.1] using hlt
      simp [hlt, hlt']

theorem chain_append (xs ys : List (Token × List Token)) : chain (xs ++ ys) = chain xs ++ chain ys :=
  List.flatMap_append

/-- An expression is what its tokens read as, under every limit that it stays within. -/
theorem Reads.expression_eq {least : Precedence} {e : Expr} {limit : Nat}
    (h : Reads (.expression least e) s s') (hf : s.final.kind = .eof)
    (hlim : ∀ s' es, Parse.expression limit least s ≠ .tooDeep s' es) :
    Parse.expression limit least s = .done (some e) s' [] := by
  obtain ⟨limit', hl, hy⟩ := ((Filter.eventually_ge_atTop limit).and (h.parsed hf)).exists
  cases hs : Parse.expression limit least s with
  | tooDeep s' es => exact absurd hs (hlim s' es)
  | done v s'' es => exact (expression_of_done hl hs).symm.trans hy

/-- **Precedence and associativity.** On a chain of operands and operators,
with a token behind it that goes on with no operand, the parser of expressions
takes the operators in front that bind tighter than `least`. It meets no
mistake, ends on the last token of the last operand it took, and yields the
one grouped tree over what it took. -/
theorem expression_chain {e₀ : List Token} {xs : List (Token × List Token)} {rest : List Token}
    {final : Token} {least : Precedence} {limit : Nat} (h₀ : IsOperand e₀)
    (hx : ∀ x ∈ xs, isInfix x.1.kind ∧ IsOperand x.2) (hend : endsExpression (rest.headD final).kind)
    (hf : final.kind = .eof) (hp : least.level ≤ Precedence.unary.level)
    (hlim : ∀ s' es, expression limit least ⟨e₀ ++ chain xs ++ rest, final⟩ ≠ .tooDeep s' es) :
    let taken := xs.takeWhile fun x => least.level < rank x.1
    let left := xs.dropWhile fun x => least.level < rank x.1
    ∃ t last, (e₀ ++ chain taken).getLast? = some last ∧
      expression limit least ⟨e₀ ++ chain xs ++ rest, final⟩ =
        .done (some t.expr) ⟨last :: (chain left ++ rest), final⟩ [] ∧
      t.Over e₀ taken ∧ t.Grouped ∧ ∀ u : OpTree, u.Over e₀ taken → u.Grouped → u = t := by
  intro taken left
  obtain ⟨a, t₀, ha, ht₀, hr₀⟩ := h₀.reads
  obtain ⟨ys, _, hys, -, hl⟩ := links_of_chain rest final hx hend.2 t₀
  obtain ⟨t, s₁, hc⟩ : ∃ t s₁, Climbs least (.operand a) ys _ _ t s₁ :=
    hl.climb hend.endsChain trivial (by simp [OpTree.root?])
  have hsplit : chain xs = chain taken ++ chain left := by
    rw [← chain_append, List.takeWhile_append_dropWhile]
  have hxt : ∀ x ∈ taken, isInfix x.1.kind ∧ IsOperand x.2 :=
    fun x hm => hx x (List.takeWhile_subset _ hm)
  have hxl : ∀ x ∈ left, isInfix x.1.kind ∧ IsOperand x.2 :=
    fun x hm => hx x ((List.dropWhile_suffix _).subset hm)
  have hbehind : ∀ (zs : List (Token × List Token)), (∀ x ∈ zs, isInfix x.1.kind ∧ IsOperand x.2) →
      endsOperand (List.headD (chain zs ++ rest) final).kind := by
    intro zs hzs
    cases zs with
    | nil => exact hend.2
    | cons z zs => exact endsOperand_of_isInfix (hzs z (by simp)).1
  -- the links that the loop took are those in front, so it ended where these end
  obtain ⟨zs, last, hzs, hlast, hlz⟩ := links_of_chain (chain left ++ rest) final hxt (hbehind left hxl) t₀
  obtain rfl := linkTrees_unique hzs (linkTrees_takeWhile hys least)
  have hs₁ := hc.taken
  rw [hsplit, List.append_assoc] at hs₁
  obtain rfl := hlz.unique hf hs₁
  have hreads := (hr₀ (chain xs ++ rest) final (hbehind xs hx)).expression_trans hp hc.reads
  have hover : t.Over e₀ taken := ⟨hc.first ▸ ha, by simpa [hc.links, OpTree.links] using hzs⟩
  refine ⟨t, last, ?_, ?_, hover, hc.grouped, fun u hu hg => hover.unique hu hc.grouped hg⟩
  · rw [← hlast, ← getLast?_append_cons ht₀ []]
    rfl
  · rw [List.append_assoc] at hlim ⊢
    exact hreads.expression_eq hf hlim

theorem isOperand_name (t : Token) (h : t.kind = .ident) : IsOperand [t] := by
  refine ⟨.operand ?_ .noCalls, fun u hu hk => ?_⟩
  · simpa [h] using Derives.atom (.inl rfl)
  · simp_all

/-- The chain `a - b * c == d` in front of a semicolon, read with the rank of `==`. -/
theorem expression_chain_names :
    let name (text : String) : Token := ⟨.ident, text, default⟩
    let minus : Token := ⟨.minus, "-", default⟩
    let times : Token := ⟨.asterisk, "*", default⟩
    let equals : Token := ⟨.eq, "==", default⟩
    let behind : List Token := [equals, name "d", ⟨.semicolon, ";", default⟩]
    let final : Token := ⟨.eof, "", default⟩
    ∃ t : OpTree, expression 3 .equality
        ⟨[name "a", minus, name "b", times, name "c"] ++ behind, final⟩ =
        .done (some t.expr) ⟨name "c" :: behind, final⟩ [] ∧
      t.Over [name "a"] [(minus, [name "b"]), (times, [name "c"])] ∧ t.Grouped := by
  intro name minus times equals behind final
  have hx : ∀ x ∈ [(minus, [name "b"]), (times, [name "c"]), (equals, [name "d"])],
      isInfix x.1.kind ∧ IsOperand x.2 := by
    simp [isInfix, minus, times, equals, isOperand_name, name]
  obtain ⟨t, last, hl, he, ho, hg, -⟩ :=
    @expression_chain _ _ [⟨.semicolon, ";", default⟩] final .equality 3 (isOperand_name (name "a") rfl) hx
      (by decide) rfl (by decide) (by intro _ _ h; cases h)
  obtain rfl : name "c" = last := Option.some.inj hl
  exact ⟨t, he, ho, hg⟩

end Parse

end ExprLang
