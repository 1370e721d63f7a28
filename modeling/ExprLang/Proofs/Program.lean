/-
Programs without mistakes: a program is read with no error exactly when its
tokens read as statements up to the end, and then its statements are these,
under every limit that it stays within (`Reads.program_eq`,
`reads_of_errors_eq_nil`).
-/
import ExprLang.Proofs.Limit
import ExprLang.Proofs.Reads

namespace ExprLang.Parse

open Filter

variable {s s' : TokenStream}

theorem Reads.statements_eq {xs : List Stmt} (h : Reads (.statements xs) s s')
    (hf : s.final.kind = .eof) (he : s'.current.kind = .eof) :
    ∀ᶠ limit in atTop, ∀ n, s.pending.length ≤ n → Parse.statements limit n s = ⟨xs, [], s'⟩ := by
  induction xs generalizing s with
  | nil =>
    cases h
    refine .of_forall fun limit n _ => ?_
    cases n <;> simp [Parse.statements, he]
  | cons x xs ih =>
    cases h with
    | statements hx hxs =>
    filter_upwards [hx.parsed hf, ih hxs (hx.onward.kind_final hf)] with limit hy hys n hn
    have hlt := hx.length_advance_lt hf
    obtain ⟨n, rfl⟩ : ∃ m, n = m + 1 := ⟨n - 1, by omega⟩
    have hk : s.current.kind ≠ .eof := fun hk => hx.not_ends (.inr hk)
    change Parse.statement (Parse.expression limit) s = _ at hy
    simp only [Parse.statements, if_neg hk, hy, hys n (by omega), Reading.after, Option.toList_some,
      List.singleton_append, List.nil_append]

/-- What reads up to the end is the program, under every limit from some depth on. -/
theorem Reads.eventually_program_eq {xs : List Stmt} (h : Reads (.statements xs) s s')
    (hf : s.final.kind = .eof) (he : s'.current.kind = .eof) :
    ∀ᶠ limit in atTop, program limit s = ⟨xs, [], s'⟩ := by
  filter_upwards [h.statements_eq hf he] with limit hs
  exact hs _ (Nat.le_refl _)

/-- What reads up to the end is the program, under every limit it stays within. -/
theorem Reads.program_eq {xs : List Stmt} (h : Reads (.statements xs) s s')
    (hf : s.final.kind = .eof) (he : s'.current.kind = .eof) {limit : Nat}
    (hw : (program limit s).WithinLimit) : program limit s = ⟨xs, [], s'⟩ := by
  obtain ⟨limit', hl, hs⟩ := ((eventually_ge_atTop limit).and (h.eventually_program_eq hf he)).exists
  rw [← hs]
  exact (statements_of_withinLimit hl hw).symm

theorem withinLimit_of_errors_eq_nil {r : Reading} (h : r.errors = []) : r.WithinLimit := by
  simp [Reading.WithinLimit, h]

theorem reads_of_statements {limit n : Nat} (hf : s.final.kind = .eof) (hn : s.pending.length ≤ n)
    (h : (Parse.statements limit n s).errors = []) :
    Reads (.statements (Parse.statements limit n s).statements) s (Parse.statements limit n s).rest ∧
      (Parse.statements limit n s).rest.current.kind = .eof := by
  induction n generalizing s with
  | zero =>
    refine ⟨.noStatements, ?_⟩
    have hnil : s.pending = [] := List.length_eq_zero_iff.mp (by omega)
    simpa [Parse.statements, TokenStream.current, hnil] using hf
  | succ n ih =>
    simp only [Parse.statements] at h ⊢
    split at h
    · next hk => simp only [if_pos hk]; exact ⟨.noStatements, hk⟩
    · next hk =>
      simp only [if_neg hk]
      cases hs : statement (expression limit) s with
      | tooDeep rest es => simp [hs, Reading.after] at h
      | done v rest es =>
        simp only [hs, Reading.after, List.append_eq_nil_iff] at h ⊢
        obtain ⟨rfl, h⟩ := h
        obtain ⟨x, rfl, hx⟩ :=
          reads_statement (present_expression limit) (reads_expression limit) hf hs
        have hlt := hx.length_advance_lt hf
        obtain ⟨hr, he⟩ := ih (s := rest.advance) (hx.onward.kind_final hf) (by omega) h
        exact ⟨.statements hx hr, he⟩

/-- A program without errors is a reading up to the end. -/
theorem reads_of_errors_eq_nil {limit : Nat} (hf : s.final.kind = .eof)
    (h : (program limit s).errors = []) :
    Reads (.statements (program limit s).statements) s (program limit s).rest ∧
      (program limit s).rest.current.kind = .eof :=
  reads_of_statements hf (Nat.le_refl _) h

end ExprLang.Parse
