/-
Parsers look one token ahead and no further.

Two sequences of tokens that agree from an index up to the one behind a stop
are the same tokens in front of streams that are alike
(`TokenStream.Agree.exists_after`), and so what is local runs on both in the same
way. That goes for all operations of a session but `verify`, which looks at
errors only. Main statement: `Session.perform_agree`.
-/
import ExprLang.Proofs.Lookahead
import ExprLang.Proofs.Window

namespace ExprLang

namespace TokenStream

/-! ## Sequences that agree -/

/-- The stream from an index on. -/
def drop (s : TokenStream) (i : Nat) : TokenStream := { s with pending := s.pending.drop i }

/-- The tokens from the index `i` to the index `j`, both included, are the same. -/
def Agree (i j : Nat) (s t : TokenStream) : Prop := ∀ k, i ≤ k → k ≤ j → t.get k = s.get k

variable {s t : TokenStream} {i j : Nat}

theorem current_drop (s : TokenStream) (i : Nat) : (s.drop i).current = s.get i := by
  rw [current, drop, get, List.headD_eq_head?_getD, List.head?_drop, List.getD_eq_getElem?_getD]

theorem advance_drop (s : TokenStream) (i : Nat) : (s.drop i).advance = s.drop (i + 1) := by
  rw [advance, drop, drop, List.tail_drop]

theorem peek_drop (s : TokenStream) (i : Nat) : (s.drop i).peek = s.get (i + 1) := by
  rw [← current_drop, ← advance_drop]
  rfl

theorem onward_drop (s : TokenStream) (i : Nat) : Parse.Onward s (s.drop i) := ⟨rfl, List.drop_suffix _ _⟩

theorem exists_drop_of_onward (h : Parse.Onward (s.drop i) t) : ∃ j, i ≤ j ∧ t = s.drop j := by
  have hp := pending_eq_drop h
  have hf : t.final = s.final := h.final
  obtain ⟨pending, final⟩ := t
  refine ⟨i + (s.drop i).gone ⟨pending, final⟩, Nat.le_add_right _ _, ?_⟩
  rw [drop, ← List.drop_drop, ← hf]
  exact congrArg (TokenStream.mk · final) hp

/-- At an end token a stream is at its end. -/
theorem Ended.eq_of_eof (h : s.Ended) (hk : s.current.kind = .eof) : s = ⟨[], s.current⟩ := by
  have hp : s.pending = [] := List.map_eq_nil_iff.mp (h.kinds_of_eof hk)
  cases s
  simp_all [current]

theorem after_current (h : s.current.kind ≠ .eof) (hs : s.Ended) : s = s.advance.after [s.current] := by
  cases s with
  | mk pending final =>
    cases pending with
    | nil => exact absurd hs.final h
    | cons x more => rfl

theorem Agree.alike (h : Agree i (i + 1) s t) : Parse.Alike Eq (s.drop i) (t.drop i) := by
  constructor
  · rw [current_drop, current_drop, h i (Nat.le_refl _) (Nat.le_succ _)]
  · rw [peek_drop, peek_drop, h (i + 1) (Nat.le_succ _) (Nat.le_refl _)]

/-- Where the sequences agree they go over the same tokens. Behind the end token
no more are gone over. -/
theorem Agree.exists_after (hs : s.Ended) (ht : t.Ended) (h : Agree i (i + n) s t) :
    ∃ ts, s.drop i = (s.drop (i + n)).after ts ∧ t.drop i = (t.drop (i + n)).after ts := by
  induction n generalizing i with
  | zero => exact ⟨[], rfl, rfl⟩
  | succ n ih =>
    have hnext : Agree (i + 1) (i + 1 + n) s t := fun k hi hj => h k (by omega) (by omega)
    obtain ⟨ts, hts, hts'⟩ := ih hnext
    have hcurrent : (t.drop i).current = (s.drop i).current := by
      rw [current_drop, current_drop, h i (Nat.le_refl _) (Nat.le_add_right _ _)]
    rw [show i + (n + 1) = i + 1 + n by omega]
    have hi := hs.onward (onward_drop s i)
    have hi' := ht.onward (onward_drop t i)
    by_cases hk : (s.drop i).current.kind = .eof
    · have hstay {u : TokenStream} (hu : (u.drop i).Ended) (hk : (u.drop i).current.kind = .eof) :
          u.drop i = u.drop (i + 1) := by
        rw [← advance_drop, hu.eq_of_eof hk]
        rfl
      exact ⟨ts, (hstay hi hk).trans hts, (hstay hi' (hcurrent ▸ hk)).trans hts'⟩
    · refine ⟨(s.drop i).current :: ts, ?_, ?_⟩
      · rw [after_current hk hi, advance_drop, hts]
        rfl
      · rw [after_current (hcurrent ▸ hk) hi', advance_drop, hts', hcurrent]
        rfl

/-- At the end sequences that agree are the same. -/
theorem Agree.drop_eq (hs : s.Ended) (ht : t.Ended) (h : Agree i (i + n + 1) s t)
    (hk : (s.drop (i + n)).current.kind = .eof) : t.drop i = s.drop i ∧ t.drop (i + n) = s.drop (i + n) := by
  have hcurrent : (t.drop (i + n)).current = (s.drop (i + n)).current := by
    rw [current_drop, current_drop, h (i + n) (Nat.le_add_right _ _) (Nat.le_succ _)]
  have hstop : t.drop (i + n) = s.drop (i + n) := by
    rw [(ht.onward (onward_drop t _)).eq_of_eof (hcurrent ▸ hk), hcurrent,
      ← (hs.onward (onward_drop s _)).eq_of_eof hk]
  obtain ⟨ts, hts, hts'⟩ := Agree.exists_after hs ht (fun k hi hj => h k hi (Nat.le_succ_of_le hj))
  exact ⟨by rw [hts', hstop, ← hts], hstop⟩

end TokenStream

/-! ## Runs on sequences that agree -/

namespace Parse

variable {α : Type} {E : Token → Token → Prop}

theorem stands_eq : Stands Eq := ⟨fun _ => rfl, fun h => .inl h.symm⟩

theorem Match.eq {e e' : ParseError} (h : Match Eq e e') : e = e' := by
  cases h with
  | same => rfl
  | unexpected h => rw [h]

theorem matches_eq {es es' : List ParseError} (h : List.Forall₂ (Match Eq) es es') : es = es' := by
  induction h with
  | nil => rfl
  | cons he _ ih => rw [he.eq, ih]

/-- Steps on the result of a local run are local. -/
theorem Local.map {β : Type} {p : Parse α} {s : TokenStream} (hE : Stands E) (f : α → β)
    (h : Local E p s) : Local E (f <$> p) s :=
  .bind hE h fun _ _ _ _ => .pure _ _

end Parse

namespace Session

open Parse

variable {s t : TokenStream} {i n limit : Nat} {es new : List ParseError}

theorem tokens_run {α : Type} (p : Parse α) (s : Session) : (run p s).2.tokens = (p s.tokens).rest := by
  unfold run
  cases p s.tokens <;> rfl

/-- A local parser runs in the same way, whatever was reported before. -/
theorem run_agree {α : Type} {p : Parse α} {y : Option α} (hp : ∀ s, Local Eq p s) (hs : s.Ended)
    (ht : t.Ended) (hrun : run p ⟨s.drop i, es⟩ = (y, ⟨s.drop (i + n), es ++ new⟩))
    (h : TokenStream.Agree i (i + n + 1) s t) (es' : List ParseError) :
    run p ⟨t.drop i, es'⟩ = (y, ⟨t.drop (i + n), es' ++ new⟩) := by
  obtain ⟨ts, hts, hts'⟩ := TokenStream.Agree.exists_after hs ht (fun k hi hj => h k hi (Nat.le_succ_of_le hj))
  have halike : Alike Eq (s.drop (i + n)) (t.drop (i + n)) :=
    TokenStream.Agree.alike fun k hi hj => h k (Nat.le_trans (Nat.le_add_right _ _) hi) hj
  have hstop : (p (s.drop i)).rest = s.drop (i + n) := by
    rw [← tokens_run p ⟨s.drop i, es⟩, hrun]
  have hanswers : Answers Eq (t.drop (i + n)) (p (s.drop i)) (p (t.drop i)) := by
    rw [hts']
    refine (hp (s.drop i)).same hs.final (by rw [hstop]; exact hts) ?_ (by rw [hstop]; exact halike)
    rw [← hts']
    exact ht.onward (TokenStream.onward_drop t i)
  unfold run at hrun ⊢
  simp only at hrun ⊢
  clear hstop
  generalize p (s.drop i) = x, p (t.drop i) = x' at hanswers hrun ⊢
  cases hanswers with
  | done he | tooDeep he =>
    simp only [Prod.mk.injEq, Session.mk.injEq, List.append_cancel_left_eq] at hrun
    obtain ⟨rfl, -, rfl⟩ := hrun
    rw [matches_eq he]

/-- Up to the end a program is read from tokens that are the same. -/
theorem program_agree {y : Option Yield} (hs : s.Ended) (ht : t.Ended)
    (hrun : perform limit ⟨s.drop i, es⟩ .program = (y, ⟨s.drop (i + n), es ++ new⟩))
    (h : TokenStream.Agree i (i + n + 1) s t) (es' : List ParseError) :
    perform limit ⟨t.drop i, es'⟩ .program = (y, ⟨t.drop (i + n), es' ++ new⟩) := by
  have hend : (Parse.program limit (s.drop i)).rest.current.kind = .eof :=
    statements_ends hs.final (Nat.le_refl _)
  simp only [perform, Prod.mk.injEq, Session.mk.injEq, List.append_cancel_left_eq] at hrun ⊢
  obtain ⟨hy, hstop, hnew⟩ := hrun
  rw [hstop] at hend
  obtain ⟨hstart, hrest⟩ := TokenStream.Agree.drop_eq hs ht h hend
  rw [hstart, hrest]
  exact ⟨hy, hstop, hnew⟩

/-- The two tokens of the window are the same, and it stays where it is. -/
theorem precedences_agree {y : Option Yield} (hs : s.Ended) (ht : t.Ended)
    (hrun : perform limit ⟨s.drop i, es⟩ .precedences = (y, ⟨s.drop (i + n), es ++ new⟩))
    (h : TokenStream.Agree i (i + n + 1) s t) (es' : List ParseError) :
    perform limit ⟨t.drop i, es'⟩ .precedences = (y, ⟨t.drop (i + n), es' ++ new⟩) := by
  obtain ⟨ts, hts, hts'⟩ := TokenStream.Agree.exists_after hs ht (fun k hi hj => h k hi (Nat.le_succ_of_le hj))
  have halike : Alike Eq (s.drop i) (t.drop i) := TokenStream.Agree.alike fun k hi hj => h k hi (by omega)
  simp only [perform, Prod.mk.injEq, Session.mk.injEq, List.self_eq_append_right] at hrun ⊢
  obtain ⟨rfl, hstop, rfl⟩ := hrun
  obtain rfl : ts = [] := eq_nil_of_after (hstop.symm.trans hts)
  rw [halike.current, ← halike.peek]
  exact ⟨rfl, hts', rfl⟩

/-- **One token of lookahead is all that is used.** On any sequence of tokens,
which ends with the end token for ever, an operation begun at the index `i` stops
at some index `j`. What it yields and reports, and that it stops there, is told by
the tokens from `i` to `j` and the one behind: on another sequence that has the
same tokens there it does the same, whatever was reported before. So do all
operations, also those that hit the nesting limit; `verify` looks at no token. -/
theorem perform_agree {s : TokenStream} (hs : s.Ended) (limit : Nat) {op : Operation} (hop : op ≠ .verify)
    (i : Nat) (es : List ParseError) :
    (∃ j new y, i ≤ j ∧ perform limit ⟨s.drop i, es⟩ op = (y, ⟨s.drop j, es ++ new⟩)) ∧
    ∀ j new y, i ≤ j → perform limit ⟨s.drop i, es⟩ op = (y, ⟨s.drop j, es ++ new⟩) →
      ∀ t : TokenStream, t.Ended → TokenStream.Agree i (j + 1) s t →
        ∀ es', perform limit ⟨t.drop i, es'⟩ op = (y, ⟨t.drop j, es' ++ new⟩) := by
  constructor
  · obtain ⟨ho, new, hnew⟩ := follows_perform (s := ⟨s.drop i, es⟩) hs.final limit op
    obtain ⟨j, hij, hj⟩ := TokenStream.exists_drop_of_onward ho
    exact ⟨j, new, _, hij, by rw [hnew, ← hj]⟩
  intro j new y hij hrun t ht h es'
  obtain ⟨n, rfl⟩ := Nat.exists_eq_add_of_le hij
  have hx (least : Precedence) (s : TokenStream) : Local Eq (expression limit least) s :=
    local_expression stands_eq limit least s
  have hlist (close : Kind) (s : TokenStream) : Local Eq (expressions (expression limit) close) s :=
    local_expressions stands_eq hx (fun _ _ hu hk => hu ▸ hk) s
  have hexpect (kind : Kind) (s : TokenStream) : Local Eq (expect kind) s :=
    .expect stands_eq (fun _ _ hu hk => hu ▸ hk) s
  cases op with
  | program => exact program_agree hs ht hrun h es'
  | statement => exact run_agree (fun s => (local_statement stands_eq limit s).map stands_eq _) hs ht hrun h es'
  | block => exact run_agree (fun s => (local_block stands_eq hx s).map stands_eq _) hs ht hrun h es'
  | expression least => exact run_agree (fun s => (hx least s).map stands_eq _) hs ht hrun h es'
  | expressions close => exact run_agree (fun s => (hlist close s).map stands_eq _) hs ht hrun h es'
  | parameters => exact run_agree (fun s => (local_parameters stands_eq s).map stands_eq _) hs ht hrun h es'
  | advance => exact run_agree (fun s => (Local.advance stands_eq s).map stands_eq fun _ => Yield.nothing) hs ht hrun h es'
  | expect kind => exact run_agree (fun s => (hexpect kind s).map stands_eq _) hs ht hrun h es'
  | precedences => exact precedences_agree hs ht hrun h es'
  | verify => exact absurd rfl hop

/-- Arguments with a comma too many are reported on alike, whatever is called and
whatever comes behind the next name. -/
theorem perform_agree_arguments :
    let s := TokenStream.ofSource "demo" "f(1,) x y"
    let t := TokenStream.ofSource "demo" "g(1,) x = 2"
    s.Ended ∧ t.Ended ∧ TokenStream.Agree 1 5 s t ∧ t.get 0 ≠ s.get 0 ∧ t.get 6 ≠ s.get 6 ∧
    perform 5 ⟨s.drop 1, []⟩ (.expressions .rparen) =
      (some (.expressions none), ⟨s.drop 4, [.noOperand (s.get 4)]⟩) ∧
    perform 5 ⟨t.drop 1, []⟩ (.expressions .rparen) =
      (some (.expressions none), ⟨t.drop 4, [.noOperand (s.get 4)]⟩) := by
  have hy : (perform 5 ⟨(TokenStream.ofSource "demo" "f(1,) x y").drop 1, []⟩ (.expressions .rparen)).1 =
      some (.expressions none) := by rfl
  intro s t
  have hs : s.Ended := TokenStream.ended_ofSource _ _
  have ht : t.Ended := TokenStream.ended_ofSource _ _
  have hagree : TokenStream.Agree 1 5 s t := by
    have hall : ∀ k < 6, 1 ≤ k → t.get k = s.get k := by decide +kernel
    exact fun k hi hj => hall k (Nat.lt_succ_of_le hj) hi
  have htokens : (perform 5 ⟨s.drop 1, []⟩ (.expressions .rparen)).2.tokens = s.drop 4 := by decide +kernel
  have herrors : (perform 5 ⟨s.drop 1, []⟩ (.expressions .rparen)).2.errors = [.noOperand (s.get 4)] := by
    decide +kernel
  have hrun : perform 5 ⟨s.drop 1, []⟩ (.expressions .rparen) =
      (some (.expressions none), ⟨s.drop 4, [.noOperand (s.get 4)]⟩) :=
    Prod.ext hy (congrArg₂ Session.mk htokens herrors)
  refine ⟨hs, ht, hagree, by decide +kernel, by decide +kernel, hrun, ?_⟩
  have hop : Operation.expressions .rparen ≠ .verify := by decide
  exact (perform_agree hs 5 hop 1 []).2 4 [.noOperand (s.get 4)] _ (by decide) hrun t ht hagree []

end Session

end ExprLang
