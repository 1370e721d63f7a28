/-
Chains of operators, and the tree that a chain is read as.

A chain is an operand with links behind it, each an operator with its right
operand. Of all trees with the chain as their in-order reading exactly one is
`Grouped`: below each operator stand operators that bind at least as tightly
on its left and more tightly on its right (`Grouped.unique`). The loop of the
parser, with the recursion it makes for each right operand, builds that tree
from the links that bind tighter than the rank it was started with
(`Links.climb`).
-/
import Mathlib.Data.List.TakeWhile
import ExprLang.Proofs.Grammar
import ExprLang.Proofs.Reads

namespace ExprLang

/-! ## Operators -/

/-- Neither an operator nor a call can go on with this kind of token. -/
def endsChain (k : Kind) : Prop := ¬ isInfix k ∧ k ≠ .lparen

instance : DecidablePred endsChain := fun _ => inferInstanceAs (Decidable (_ ∧ _))

theorem endsChain.not_level_lt {k : Kind} (h : endsChain k) (least : Precedence) :
    ¬ least.level < k.precedence.level := by
  cases k <;> simp [endsChain, isInfix] at h <;> cases least <;> simp [Kind.precedence, Precedence.level]

theorem isInfix.ne_lparen {k : Kind} (h : isInfix k) : k ≠ .lparen := by
  rintro rfl; simp [isInfix] at h

theorem isInfix.level_lt_unary {k : Kind} (h : isInfix k) :
    k.precedence.level < Precedence.unary.level := by
  rcases h with rfl | rfl | rfl | rfl | rfl | rfl | rfl | rfl <;>
    simp [Kind.precedence, Precedence.level]

theorem isInfix.lowest_level_lt {k : Kind} (h : isInfix k) :
    Precedence.lowest.level < k.precedence.level := by
  rcases h with rfl | rfl | rfl | rfl | rfl | rfl | rfl | rfl <;>
    simp [Kind.precedence, Precedence.level]

namespace Parse

/-! ## Trees of operators -/

/-- The rank of an operator. -/
def rank (op : Token) : Nat := op.kind.precedence.level

/-- A tree of operators over operands that are left as they are. -/
inductive OpTree where
  | operand (e : Expr)
  | node (left : OpTree) (op : Token) (right : OpTree)

namespace OpTree

/-- The tree as an expression. -/
def expr : OpTree → Expr
  | operand e => e
  | node l op r => .binary op l.expr op.literal (some r.expr)

/-- The first operand of the in-order reading. -/
def first : OpTree → Expr
  | operand e => e
  | node l _ _ => l.first

/-- The operators of the in-order reading, each with the operand behind it. -/
def links : OpTree → List (Token × Expr)
  | operand _ => []
  | node l op r => l.links ++ (op, r.first) :: r.links

/-- The operator at the root. -/
def root? : OpTree → Option Token
  | operand _ => none
  | node _ op _ => some op

/-- Each operator stands above operators that bind at least as tightly on its
left, and above operators that bind more tightly on its right. -/
def Grouped : OpTree → Prop
  | operand _ => True
  | node l op r => l.Grouped ∧ r.Grouped ∧ (∀ o ∈ l.root?, rank op ≤ rank o) ∧
      (∀ o ∈ r.root?, rank op < rank o)

/-- What bounds the root of a grouped tree bounds all its operators. -/
theorem Grouped.le_rank {t : OpTree} {n : Nat} (h : t.Grouped) (hr : ∀ o ∈ t.root?, n ≤ rank o) :
    ∀ x ∈ t.links, n ≤ rank x.1 := by
  induction t generalizing n with
  | operand => simp [links]
  | node l op r ihl ihr =>
    obtain ⟨hl, hr', hlo, hro⟩ := h
    have hn : n ≤ rank op := hr op rfl
    intro x hx
    simp only [links, List.mem_append, List.mem_cons] at hx
    rcases hx with hx | rfl | hx
    · exact ihl hl (fun o ho => hn.trans (hlo o ho)) x hx
    · exact hn
    · exact ihr hr' (fun o ho => hn.trans (Nat.le_of_lt (hro o ho))) x hx

theorem Grouped.le_rank_left {l r : OpTree} {op : Token} (h : (node l op r).Grouped) :
    ∀ x ∈ l.links, rank op ≤ rank x.1 := h.1.le_rank h.2.2.1

theorem Grouped.lt_rank_right {l r : OpTree} {op : Token} (h : (node l op r).Grouped) :
    ∀ x ∈ r.links, rank op < rank x.1 := h.2.1.le_rank h.2.2.2

/-- Two grouped trees with one reading have their root at the same link: of
two operators neither can stand both left and right of the other. -/
theorem Grouped.not_split {l r l' r' : OpTree} {op op' : Token} {m : List (Token × Expr)}
    (h : (node l op r).Grouped) (h' : (node l' op' r').Grouped)
    (hl : l'.links = l.links ++ (op, r.first) :: m) (hr : r.links = m ++ (op', r'.first) :: r'.links) :
    False := by
  have h₁ : rank op < rank op' := h.lt_rank_right (op', r'.first) (by simp [hr])
  have h₂ : rank op' ≤ rank op := h'.le_rank_left (op, r.first) (by simp [hl])
  omega

/-- **A chain has one grouped tree.** -/
theorem Grouped.unique {t u : OpTree} (ht : t.Grouped) (hu : u.Grouped) (hf : t.first = u.first)
    (hl : t.links = u.links) : t = u := by
  induction t generalizing u with
  | operand e =>
    cases u with
    | operand => exact congrArg operand hf
    | node l op r => simp [links] at hl
  | node l op r ihl ihr =>
    cases u with
    | operand => simp [links] at hl
    | node l' op' r' =>
      simp only [links] at hl
      rcases List.append_eq_append_iff.mp hl with ⟨m, hm, hm'⟩ | ⟨m, hm, hm'⟩
      · cases m with
        | nil =>
          simp only [List.nil_append, List.append_nil, List.cons.injEq, Prod.mk.injEq] at hm hm'
          obtain ⟨⟨rfl, hrf⟩, hrl⟩ := hm'
          rw [ihl ht.1 hu.1 hf hm.symm, ihr ht.2.1 hu.2.1 hrf hrl]
        | cons x m =>
          simp only [List.cons_append, List.cons.injEq] at hm'
          obtain ⟨rfl, hm'⟩ := hm'
          exact (ht.not_split hu hm hm').elim
      · cases m with
        | nil =>
          simp only [List.nil_append, List.append_nil, List.cons.injEq, Prod.mk.injEq] at hm hm'
          obtain ⟨⟨rfl, hrf⟩, hrl⟩ := hm'
          rw [ihl ht.1 hu.1 hf hm, ihr ht.2.1 hu.2.1 hrf.symm hrl.symm]
        | cons x m =>
          simp only [List.cons_append, List.cons.injEq] at hm'
          obtain ⟨rfl, hm'⟩ := hm'
          exact (hu.not_split ht hm hm').elim

end OpTree

/-! ## Reading a chain -/

/-- The links of a chain, from the last token of its first operand to the last
token of all. -/
inductive Links : TokenStream → List (Token × Expr) → TokenStream → Prop
  | nil : Links s [] s
  | cons : isInfix s.peek.kind → Reads (.expression .unary b) s.advance.advance s₁ →
      Links s₁ xs s' → Links s ((s.peek, b) :: xs) s'

/-- Operators that were read with a higher rank are read with a lower one as
well, and reading goes on behind them. -/
theorem Reads.operators_trans {hi lo : Precedence} {a b c : Expr} {s s₁ s' : TokenStream}
    (hle : lo.level ≤ hi.level) (h₁ : Reads (.operators hi a b) s s₁)
    (h₂ : Reads (.operators lo b c) s₁ s') : Reads (.operators lo a c) s s' := by
  generalize hφ : Phrase.operators hi a b = φ at h₁
  induction h₁ generalizing a with
  | stop => cases hφ; exact h₂
  | call hl hk he _ _ ih => cases hφ; exact .call (by omega) hk he (ih h₂ rfl)
  | binary hl hk he _ _ ih => cases hφ; exact .binary (by omega) hk he (ih h₂ rfl)
  | _ => cases hφ

theorem Reads.expression_trans {hi lo : Precedence} {a b : Expr} {s s₁ s' : TokenStream}
    (hle : lo.level ≤ hi.level) (h₁ : Reads (.expression hi a) s s₁)
    (h₂ : Reads (.operators lo a b) s₁ s') : Reads (.expression lo b) s s' := by
  cases h₁ with
  | expression ho hr => exact .expression ho (hr.operators_trans hle h₂)

theorem Links.onward {xs : List (Token × Expr)} {s s' : TokenStream} (h : Links s xs s') :
    Onward s s' := by
  induction h with
  | nil => exact .refl _
  | cons _ hb _ ih => exact hb.onward.of_advance.of_advance.trans ih

theorem Links.trans {xs ys : List (Token × Expr)} {s s₁ s' : TokenStream} (h₁ : Links s xs s₁)
    (h₂ : Links s₁ ys s') : Links s (xs ++ ys) s' := by
  induction h₁ with
  | nil => exact h₂
  | cons hk hb _ ih => exact .cons hk hb (ih h₂)

/-- Whether a link binds tighter than a rank. -/
def tighter (least : Precedence) (x : Token × Expr) : Bool := least.level < rank x.1

theorem tighter_mono {lo hi : Precedence} (h : lo.level ≤ hi.level) {x : Token × Expr}
    (hx : tighter hi x = true) : tighter lo x = true := by
  simp only [tighter, decide_eq_true_eq] at hx ⊢
  omega

theorem takeWhile_append_takeWhile {α : Type} {p q : α → Bool} (h : ∀ x, q x = true → p x = true)
    (l : List α) : l.takeWhile q ++ (l.dropWhile q).takeWhile p = l.takeWhile p := by
  induction l with
  | nil => rfl
  | cons x l ih => by_cases hq : q x = true <;> simp [List.takeWhile_cons, hq, h x, ih]

theorem dropWhile_dropWhile {α : Type} {p q : α → Bool} (h : ∀ x, q x = true → p x = true)
    (l : List α) : (l.dropWhile q).dropWhile p = l.dropWhile p := by
  induction l with
  | nil => rfl
  | cons x l ih => by_cases hq : q x = true <;> simp [List.dropWhile_cons, hq, h x, ih]

/-- Where links that bind tighter end, one follows that binds at most as tightly. -/
theorem rank_le_of_dropWhile {least : Precedence} {xs : List (Token × Expr)} {x : Token × Expr}
    (h : x ∈ (xs.dropWhile (tighter least)).head?) : rank x.1 ≤ least.level := by
  have := List.head?_dropWhile_not (tighter least) xs
  rw [Option.mem_def.mp h] at this
  simpa [tighter] using this

/-- What the loop makes of an operand, or of a tree that it has made so far:
the tree that takes in the links in front that bind tighter than `least`. -/
structure Climbs (least : Precedence) (left : OpTree) (xs : List (Token × Expr))
    (s s' : TokenStream) (t : OpTree) (s₁ : TokenStream) : Prop where
  reads : Reads (.operators least left.expr t.expr) s s₁
  taken : Links s (xs.takeWhile (tighter least)) s₁
  rest : Links s₁ (xs.dropWhile (tighter least)) s'
  grouped : t.Grouped
  first : t.first = left.first
  links : t.links = left.links ++ xs.takeWhile (tighter least)
  root : ∀ o ∈ t.root?, o ∈ left.root? ∨ least.level < rank o

/-- **Precedence climbing.** From links that nothing goes on behind, the loop
takes those in front that bind tighter than `least`, and makes the grouped
tree of what it was given and of these. -/
theorem Links.climb {least : Precedence} {left : OpTree} {xs : List (Token × Expr)}
    {s s' : TokenStream} (h : Links s xs s') (he : endsChain s'.peek.kind) (hg : left.Grouped)
    (hr : ∀ x ∈ xs.head?, ∀ o ∈ left.root?, tighter least x = true → rank x.1 ≤ rank o) :
    ∃ t s₁, Climbs least left xs s s' t s₁ := by
  induction hn : xs.length using Nat.strong_induction_on generalizing least left xs s with
  | h n ih =>
  subst hn
  cases h with
  | nil =>
    exact ⟨left, s', .stop (he.not_level_lt least), .nil, .nil, hg, rfl, by simp, fun o ho => .inl ho⟩
  | @cons b s₁ xs _ _ hk hb hxs =>
    by_cases hlt : tighter least (s.peek, b) = true
    · have hlt' : least.level < s.peek.kind.precedence.level := of_decide_eq_true hlt
      -- the right operand takes what binds tighter than this operator
      obtain ⟨r, s₂, hr₂⟩ : ∃ r s₂, Climbs s.peek.kind.precedence (.operand b) xs s₁ s' r s₂ :=
        ih xs.length (by simp) hxs trivial (by simp [OpTree.root?]) rfl
      have hright := hb.expression_trans (Nat.le_of_lt hk.level_lt_unary) hr₂.reads
      have hg₃ : (OpTree.node left s.peek r).Grouped :=
        ⟨hg, hr₂.grouped, fun o ho => hr _ rfl o ho hlt,
          fun o ho => (hr₂.root o ho).resolve_left (by simp [OpTree.root?])⟩
      -- and the loop goes on with the links that this leaves
      obtain ⟨t, s₃, hr₃⟩ : ∃ t s₃, Climbs least (.node left s.peek r)
          (xs.dropWhile (tighter s.peek.kind.precedence)) s₂ s' t s₃ := by
        refine ih _ (Nat.lt_succ_of_le (List.dropWhile_suffix _).length_le) hr₂.rest hg₃ ?_ rfl
        intro x hx o ho _
        obtain rfl : s.peek = o := by simpa [OpTree.root?] using ho
        exact rank_le_of_dropWhile hx
      have himp := fun x => @tighter_mono _ _ (Nat.le_of_lt hlt') x
      refine ⟨t, s₃, .binary hlt' hk.ne_lparen hright hr₃.reads, ?_, ?_, hr₃.grouped, hr₃.first, ?_, ?_⟩
      · rw [List.takeWhile_cons_of_pos hlt, ← takeWhile_append_takeWhile himp xs]
        exact .cons hk hb (hr₂.taken.trans hr₃.taken)
      · rw [List.dropWhile_cons_of_pos hlt, ← dropWhile_dropWhile himp xs]
        exact hr₃.rest
      · rw [List.takeWhile_cons_of_pos hlt, ← takeWhile_append_takeWhile himp xs, hr₃.links]
        simp [OpTree.links, hr₂.links, hr₂.first, OpTree.first]
      · intro o ho
        refine .inr ((hr₃.root o ho).elim (fun ho => ?_) id)
        obtain rfl : s.peek = o := by simpa [OpTree.root?] using ho
        exact hlt'
    · refine ⟨left, s, .stop (mt decide_eq_true hlt), ?_, ?_, hg, rfl, ?_, fun _ => .inl⟩
      · rw [List.takeWhile_cons_of_neg hlt]
        exact .nil
      · rw [List.dropWhile_cons_of_neg hlt]
        exact .cons hk hb hxs
      · rw [List.takeWhile_cons_of_neg hlt, List.append_nil]

theorem Links.isInfix {xs : List (Token × Expr)} {s s' : TokenStream} (h : Links s xs s') :
    ∀ x ∈ xs, isInfix x.1.kind := by
  induction h with
  | nil => simp
  | cons hk _ _ ih => exact List.forall_mem_cons.mpr ⟨hk, ih⟩

/-- Started with the lowest rank, the loop takes all links. -/
theorem Links.climb_all {xs : List (Token × Expr)} {a : Expr} {s s' : TokenStream}
    (h : Links s xs s') (he : endsChain s'.peek.kind) :
    ∃ e, Reads (.operators .lowest a e) s s' := by
  obtain ⟨t, s₁, hc⟩ : ∃ t s₁, Climbs .lowest (.operand a) xs s s' t s₁ :=
    h.climb he trivial (by simp [OpTree.root?])
  have hd : xs.dropWhile (tighter .lowest) = [] := by
    refine List.dropWhile_eq_nil_iff.mpr fun x hx => ?_
    exact decide_eq_true (h.isInfix x hx).lowest_level_lt
  have hr := hc.rest
  rw [hd] at hr
  cases hr
  exact ⟨_, hc.reads⟩

end Parse

end ExprLang
