/-
The nesting limit is only a limit: a run that does not hit it is the same
under every higher one.

`Within g p q` says that `q` is done wherever `p` is, and yields `g v` where
`p` yields `v`. It passes through the steps of a parser (`stepwise_within`), so
more levels of nesting change no expression and no statement that is done
(`expression_of_done`, `statement_of_done`). For a whole program the runs that
count are the readings without an error about nesting
(`statements_of_withinLimit`).
-/
import ExprLang.Proofs.Relocation
import ExprLang.Proofs.Run

namespace ExprLang

namespace Parse

variable {α : Type}

/-- Wherever `p` is done, `q` is done in the same way, with `g v` for the value `v`. -/
structure Within (g : α → α) (p q : Parse α) : Prop where
  done : ∀ {s v s' es}, p s = .done v s' es → q s = .done (g v) s' es

theorem stepwise_within : Stepwise id @Within where
  pure g a := ⟨fun h => by cases h; rfl⟩
  bind {α β g h p q k l} hpq hkl := by
    refine ⟨fun hd => ?_⟩
    obtain ⟨a, s₁, es₁, es₂, hp, hk, rfl⟩ := bind_eq_done.mp hd
    exact bind_eq_done.mpr ⟨g a, s₁, es₁, es₂, hpq.done hp, (hkl a).done hk, rfl⟩
  current := ⟨id⟩
  peek := ⟨id⟩
  remaining := ⟨id⟩
  advance := ⟨id⟩
  report e := by
    rw [ParseError.relocate_id]
    exact ⟨id⟩

variable {limit limit' : Nat} {least : Precedence} {s s' : TokenStream} {es : List ParseError}

theorem within_expression (hl : limit ≤ limit') (least : Precedence) :
    Within (Option.map (Expr.relocate id)) (expression limit least) (expression limit' least) := by
  induction limit generalizing limit' least with
  | zero => exact ⟨fun h => by cases h⟩
  | succ limit ih =>
    obtain ⟨limit', rfl⟩ : ∃ l, limit' = l + 1 := ⟨limit' - 1, by omega⟩
    exact stepwise_within.level (ih (by omega)) least

/-- An expression that is done is the same under every higher limit. -/
theorem expression_of_done {v : Option Expr} (hl : limit ≤ limit')
    (h : expression limit least s = .done v s' es) : expression limit' least s = .done v s' es := by
  have hd := (within_expression hl least).done h
  rwa [funext Expr.relocate_id, Option.map_id_apply'] at hd

/-- So is a statement. -/
theorem statement_of_done {v : Option Stmt} (hl : limit ≤ limit')
    (h : statement (expression limit) s = .done v s' es) :
    statement (expression limit') s = .done v s' es := by
  have hd := (stepwise_within.statement (within_expression hl)).done h
  rwa [funext Stmt.relocate_id, Option.map_id_apply'] at hd

end Parse

/-- No statement of the reading was given up for its nesting. -/
def Reading.WithinLimit (r : Reading) : Prop := ∀ start reached, .tooDeep start reached ∉ r.errors

theorem Reading.WithinLimit.of_after {xs : List Stmt} {es : List ParseError} {r : Reading}
    (h : (r.after xs es).WithinLimit) : r.WithinLimit :=
  fun start reached hm => h start reached (List.mem_append_right _ hm)

namespace Parse

/-- A program that stays within a limit is read in the same way under every higher one. -/
theorem statements_of_withinLimit {limit limit' : Nat} (hl : limit ≤ limit') {n : Nat}
    {s : TokenStream} (h : (statements limit n s).WithinLimit) :
    statements limit' n s = statements limit n s := by
  induction n generalizing s with
  | zero => rfl
  | succ n ih =>
    simp only [statements] at h ⊢
    split
    · rfl
    · next he =>
      rw [if_neg he] at h
      cases hs : statement (expression limit) s with
      | done v rest es =>
        rw [hs] at h
        rw [statement_of_done hl hs]
        simp only [ih h.of_after]
      | tooDeep rest es =>
        rw [hs] at h
        exact absurd (List.mem_append_left _ (by simp)) (h s.current rest.current)

/-- The same for a whole text. -/
theorem parse_of_withinLimit {file source : String} {limit limit' : Nat} (hl : limit ≤ limit')
    (h : (parse file source limit).WithinLimit) :
    parse file source limit' = parse file source limit :=
  statements_of_withinLimit hl h

end Parse

end ExprLang
