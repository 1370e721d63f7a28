/-
How far a semicolon contains the damage of a malformed statement.

Take a text whose last token is its only semicolon and which has no
parentheses and no braces. However it is malformed, the loop over statements
comes to stand right behind the semicolon, with one exception: the semicolon is
taken for an operand that is missing, and what follows it is taken for a part
of the same statement (`Terminator.Missed`). Main statement: `parse_terminated`.

What a parser does in front of the semicolon is stated by `Terminator.Ends`,
which passes through `>>=` and in which the exception is always allowed for; so
it is met where a token behind the semicolon is looked at, and nowhere else.
-/
import ExprLang.Proofs.Joined
import ExprLang.Proofs.Limit
import ExprLang.Proofs.WellRead

namespace ExprLang

/-! ## Kinds -/

/-- A token of this kind ends no statement, and it opens and closes nothing. -/
def Kind.Plain (k : Kind) : Prop :=
  k ∉ [Kind.semicolon, .lparen, .rparen, .lbrace, .rbrace, .eof]

/-- Behind a token of this kind an expression has an operand, or an `if` its condition. -/
def Kind.TakesOperand (k : Kind) : Prop :=
  Precedence.lowest.level < k.precedence.level ∨ k = .bang ∨ k = .kwIf

/-- A token of this kind goes on with an expression, or with an `if` behind its condition. -/
def Kind.GoesOn (k : Kind) : Prop :=
  Precedence.lowest.level < k.precedence.level ∨ k = .lbrace

/-- Where a semicolon behind `last` was taken for a missing operand, a token of
the kind `next` behind it can be taken for a part of the same statement: another
semicolon always, and what goes on with an expression if `last` is in one. -/
def Joins (last : Option Token) (next : Kind) : Prop :=
  next = .semicolon ∨ next.GoesOn ∧ ∃ t ∈ last, t.kind.TakesOperand

instance : DecidablePred Kind.Plain := fun k => inferInstanceAs (Decidable (k ∉ _))

instance : DecidablePred Kind.TakesOperand := fun _ => inferInstanceAs (Decidable (_ ∨ _))

instance : DecidablePred Kind.GoesOn := fun _ => inferInstanceAs (Decidable (_ ∨ _))

instance (last : Option Token) (next : Kind) : Decidable (Joins last next) :=
  inferInstanceAs (Decidable (_ ∨ _ ∧ _))

namespace Parse

/-! ## In front of a terminator -/

/-- A semicolon in a stream, with plain tokens before it and anything behind it. -/
structure Terminator where
  front : List Token
  semi : Token
  tail : TokenStream
  plain : ∀ t ∈ front, t.kind.Plain
  kind : semi.kind = .semicolon

namespace Terminator

variable {T : Terminator} {s s' : TokenStream} {es : List ParseError} {α β : Type}

/-- The stream is at the terminator or at a token before it. -/
def Ahead (T : Terminator) (s : TokenStream) : Prop :=
  ∃ ts, ts <:+ T.front ∧ s = T.tail.after (ts ++ [T.semi])

/-- The terminator was taken for a missing operand, and what follows it can be
taken for a part of the same statement. -/
structure Missed (T : Terminator) (es : List ParseError) : Prop where
  reported : .noOperand T.semi ∈ es
  joins : Joins T.front.getLast? T.tail.current.kind

theorem Missed.mono {es' : List ParseError} (h : T.Missed es) (hs : es ⊆ es') : T.Missed es' :=
  ⟨hs h.reported, h.joins⟩

theorem ne_semi (T : Terminator) {t : Token} (ht : t.kind ≠ .semicolon) : t ≠ T.semi := by
  intro he
  rw [he] at ht
  exact ht T.kind

theorem ne_semi_of_mem {t : Token} (ht : t ∈ T.front) : t ≠ T.semi := by
  refine T.ne_semi fun hk => ?_
  have hp := T.plain t ht
  rw [hk] at hp
  exact absurd hp (by decide)

namespace Ahead

theorem kind_current (h : T.Ahead s) : s.current.kind.Plain ∨ s.current = T.semi := by
  obtain ⟨ts, hts, rfl⟩ := h
  cases ts with
  | nil => exact .inr rfl
  | cons t ts => exact .inl (T.plain t (hts.mem List.mem_cons_self))

theorem advance (h : T.Ahead s) (hs : s.current ≠ T.semi) : T.Ahead s.advance := by
  obtain ⟨ts, hts, rfl⟩ := h
  cases ts with
  | nil => exact absurd rfl hs
  | cons t ts => exact ⟨ts, (List.suffix_cons t ts).trans hts, rfl⟩

theorem advance_eq (h : T.Ahead s) (hs : s.current = T.semi) : s.advance = T.tail := by
  obtain ⟨ts, hts, rfl⟩ := h
  cases ts with
  | nil => rfl
  | cons t ts => exact absurd hs (ne_semi_of_mem (hts.mem List.mem_cons_self))

/-- The token right before the terminator is the last one of those before it. -/
theorem getLast? (h : T.Ahead s) (hs : s.current ≠ T.semi) (ha : s.advance.current = T.semi) :
    T.front.getLast? = some s.current := by
  obtain ⟨ts, hts, rfl⟩ := h
  cases ts with
  | nil => exact absurd rfl hs
  | cons t ts =>
    cases ts with
    | nil =>
      obtain ⟨us, hus⟩ := hts
      rw [← hus, List.getLast?_concat]
      rfl
    | cons u ts =>
      have hu := hts.mem (List.mem_cons_of_mem t List.mem_cons_self)
      exact absurd ha (ne_semi_of_mem hu)

/-- Nothing opens before the terminator. -/
theorem kind_peek_ne (h : T.Ahead s) (hs : s.current ≠ T.semi) {k : Kind} (hk : ¬ k.Plain)
    (hne : k ≠ .semicolon) : s.peek.kind ≠ k := by
  intro hp
  rcases (h.advance hs).kind_current with hplain | he
  · exact hk (hp ▸ hplain)
  · have hkind : s.peek.kind = .semicolon := by
      rw [← T.kind, ← he]
      rfl
    exact hne (hp.symm.trans hkind)

end Ahead

/-! ## Runs -/

/-- Each run of `p` from `s` that does not hit the limit ends as `P` says, of its
value, where it stopped and all errors, those met before (`es`) included; or it
has missed the terminator. -/
def Ends (T : Terminator) (p : Parse α) (s : TokenStream) (es : List ParseError)
    (P : α → TokenStream → List ParseError → Prop) : Prop :=
  ∀ v s' es', p s = .done v s' es' → P v s' (es ++ es') ∨ T.Missed (es ++ es')

namespace Ends

variable {P : β → TokenStream → List ParseError → Prop} {Q : α → TokenStream → List ParseError → Prop}

theorem missed {p : Parse β} (h : T.Missed es) : T.Ends p s es P :=
  fun _ _ es' _ => .inr (h.mono (List.subset_append_left es es'))

theorem mono {p : Parse α} {R : α → TokenStream → List ParseError → Prop} (h : T.Ends p s es Q)
    (hr : ∀ v s' es', Q v s' es' → R v s' es') : T.Ends p s es R :=
  fun v s' es' hd => (h v s' es' hd).imp_left (hr v s' _)

/-- The only run. -/
theorem done {p : Parse β} {b : β} {es' : List ParseError} (hp : p s = .done b s' es')
    (h : P b s' (es ++ es')) : T.Ends p s es P := by
  intro v s' es' hd
  rw [hp] at hd
  cases hd
  exact .inl h

theorem pure {b : β} (h : P b s es) : T.Ends (pure b) s es P :=
  done rfl (by rwa [List.append_nil])

variable {p : Parse α} {f : α → Parse β}

theorem bind (hp : T.Ends p s es Q) (hf : ∀ v s' es', Q v s' es' → T.Ends (f v) s' es' P) :
    T.Ends (p >>= f) s es P := by
  intro v s' es' hd
  obtain ⟨a, s₁, es₁, es₂, hp', hf', rfl⟩ := bind_eq_done.mp hd
  rw [← List.append_assoc]
  rcases hp a s₁ es₁ hp' with hq | hm
  · exact hf a s₁ _ hq v s' es₂ hf'
  · exact .inr (hm.mono (List.subset_append_left _ es₂))

/-- A first step whose one run is known. -/
theorem step {a : α} {es' : List ParseError} (hp : p s = .done a s' es')
    (hf : T.Ends (f a) s' (es ++ es') P) : T.Ends (p >>= f) s es P := by
  intro v s₂ es₃ hd
  obtain ⟨a', s₁, es₁, es₂, hp', hf', rfl⟩ := bind_eq_done.mp hd
  rw [hp] at hp'
  cases hp'
  rw [← List.append_assoc]
  exact hf v s₂ es₂ hf'

theorem current {f : Token → Parse β} (hf : T.Ends (f s.current) s es P) :
    T.Ends (current >>= f) s es P := step rfl (by rwa [List.append_nil])

theorem peek {f : Token → Parse β} (hf : T.Ends (f s.peek) s es P) :
    T.Ends (peek >>= f) s es P := step rfl (by rwa [List.append_nil])

theorem remaining {f : Nat → Parse β} (hf : T.Ends (f s.pending.length) s es P) :
    T.Ends (remaining >>= f) s es P := step rfl (by rwa [List.append_nil])

theorem advance {f : Unit → Parse β} (hf : T.Ends (f ()) s.advance es P) :
    T.Ends (advance >>= f) s es P := step rfl (by rwa [List.append_nil])

theorem report {e : ParseError} {f : Unit → Parse β} (hf : T.Ends (f ()) s (es ++ [e]) P) :
    T.Ends (report e >>= f) s es P := step rfl hf

theorem ite {c : Prop} [Decidable c] {p q : Parse β} (hp : c → T.Ends p s es P)
    (hq : ¬ c → T.Ends q s es P) : T.Ends (if c then p else q) s es P := by
  by_cases hc : c
  · rw [if_pos hc]
    exact hp hc
  · rw [if_neg hc]
    exact hq hc

/-- A step to the token that has to follow, if it is there. -/
theorem expect {kind : Kind} {p q : Parse β} (hp : s.peek.kind = kind → T.Ends p s.advance es P)
    (hq : s.peek.kind ≠ kind → T.Ends q s (es ++ [.unexpected kind s.peek]) P) :
    T.Ends (do if ← expect kind then p else q) s es P := by
  by_cases hk : s.peek.kind = kind
  · refine step (expect_eq_true hk) ?_
    rw [if_pos rfl, List.append_nil]
    exact hp hk
  · refine step (expect_eq_false hk) ?_
    rw [if_neg Bool.false_ne_true]
    exact hq hk

end Ends

/-! ## Where expressions end -/

/-- An expression was left at `s`: before the terminator, or at the terminator
when that was taken for an operand of it. -/
structure Left (T : Terminator) (s : TokenStream) (es : List ParseError) : Prop where
  ahead : T.Ahead s
  reported : s.current = T.semi → .noOperand T.semi ∈ es
  last : s.current = T.semi → ∃ t ∈ T.front.getLast?, t.kind.TakesOperand

/-- What an expression that is due at `s` comes to. At the terminator it is
absent, and nothing is taken. -/
inductive Spot (T : Terminator) (s : TokenStream) : Option Expr → TokenStream → List ParseError → Prop
  | ended {v : Option Expr} {s' : TokenStream} {es : List ParseError} : s.current ≠ T.semi → T.Left s' es → Spot T s v s' es
  | absent {es : List ParseError} : s.current = T.semi → .noOperand T.semi ∈ es → Spot T s none s es

theorem Left.of_ne (ha : T.Ahead s) (hs : s.current ≠ T.semi) : T.Left s es :=
  ⟨ha, fun h => absurd h hs, fun h => absurd h hs⟩

theorem Left.append (h : T.Left s es) (es' : List ParseError) : T.Left s (es ++ es') :=
  ⟨h.ahead, fun hs => List.mem_append_left _ (h.reported hs), h.last⟩

/-- An expression that was left at the terminator is gone on with behind it. -/
theorem Left.missed (h : T.Left s es) (hs : s.current = T.semi) (hg : s.peek.kind.GoesOn) : T.Missed es := by
  refine ⟨h.reported hs, .inr ⟨?_, h.last hs⟩⟩
  rw [← h.ahead.advance_eq hs]
  exact hg

/-- An operand that comes to nothing leaves its expression at the terminator. -/
theorem Spot.left {v : Option Expr} (h : T.Spot s.advance v s' es) (ha : T.Ahead s)
    (hs : s.current ≠ T.semi) (hk : s.current.kind.TakesOperand) : T.Left s' es := by
  cases h with
  | ended _ hl => exact hl
  | absent hs' hr => exact ⟨ha.advance hs, fun _ => hr, fun _ => ⟨s.current, ha.getLast? hs hs', hk⟩⟩

theorem Spot.ahead {v : Option Expr} (h : T.Spot s v s' es) (ha : T.Ahead s) : T.Ahead s' := by
  cases h with
  | ended _ hl => exact hl.ahead
  | absent => exact ha

theorem Spot.reported {v : Option Expr} (h : T.Spot s v s' es) (hs : s'.current = T.semi) :
    .noOperand T.semi ∈ es := by
  cases h with
  | ended _ hl => exact hl.reported hs
  | absent _ hr => exact hr

/-! ## Expressions -/

theorem ends_integer (ha : T.Ahead s) (hs : s.current ≠ T.semi) :
    T.Ends integer s es fun _ => T.Left := by
  refine .current (.ite ?_ ?_)
  · intro _
    exact .pure (.of_ne ha hs)
  · intro _
    exact .report (.pure (.of_ne ha hs))

theorem ends_function {expr : Precedence → Parse (Option Expr)} (ha : T.Ahead s) (hs : s.current ≠ T.semi) :
    T.Ends (function expr) s es fun _ => T.Left := by
  refine .current (.expect ?_ ?_)
  · intro hl
    exact absurd hl (ha.kind_peek_ne hs (by decide) (by decide))
  · intro _
    exact .pure (.of_ne ha hs)

section

variable {expr : Precedence → Parse (Option Expr)}
  (h : ∀ least s es, T.Ahead s → T.Ends (expr least) s es (T.Spot s))

include h

/-- The operand behind the current token. -/
theorem ends_next (least : Precedence) (ha : T.Ahead s) (hs : s.current ≠ T.semi)
    (hk : s.current.kind.TakesOperand) : T.Ends (expr least) s.advance es fun _ => T.Left := by
  refine (h least s.advance es (ha.advance hs)).mono ?_
  intro _ _ _ hq
  exact hq.left ha hs hk

theorem ends_unary (ha : T.Ahead s) (hs : s.current ≠ T.semi) (hk : s.current.kind.TakesOperand) :
    T.Ends (unary expr) s es fun _ => T.Left := by
  refine .current (.advance (.bind (ends_next h _ ha hs hk) ?_))
  intro _ _ _ hl
  exact .pure hl

theorem ends_binary (left : Expr) (ha : T.Ahead s) (hs : s.current ≠ T.semi)
    (hk : s.current.kind.TakesOperand) : T.Ends (binary expr left) s es fun _ => T.Left := by
  refine .current (.advance (.bind (ends_next h _ ha hs hk) ?_))
  intro _ _ _ hl
  exact .pure hl

/-- A condition may be left at the terminator, and then a brace behind it
opens the block. -/
theorem ends_conditional (ha : T.Ahead s) (hk : s.current.kind = .kwIf) :
    T.Ends (conditional expr) s es fun _ => T.Left := by
  have hs : s.current ≠ T.semi := T.ne_semi (by rw [hk]; decide)
  refine .current (.advance (.bind (ends_next h _ ha hs (.inr (.inr hk))) ?_))
  intro v s' es' hl
  cases v with
  | none => exact .pure hl
  | some c =>
    refine .expect ?_ ?_
    · intro hb
      by_cases hs' : s'.current = T.semi
      · exact .missed (hl.missed hs' (.inr hb))
      · exact absurd hb (hl.ahead.kind_peek_ne hs' (by decide) (by decide))
    · intro _
      exact .pure (hl.append _)

theorem ends_operand (ha : T.Ahead s) : T.Ends (operand expr) s es (T.Spot s) := by
  by_cases hs : s.current = T.semi
  · have hk : s.current.kind = .semicolon := by rw [hs, T.kind]
    refine .current ?_
    rw [hk]
    refine .report (.pure (.absent hs ?_))
    rw [hs]
    exact List.mem_append_right _ List.mem_cons_self
  · have hended : ∀ {p : Parse (Option Expr)}, T.Ends p s es (fun _ => T.Left) → T.Ends p s es (T.Spot s) :=
      fun hp => hp.mono fun _ _ _ => .ended hs
    refine hended (.current ?_)
    split
    case h_1 | h_3 | h_4 => exact .pure (.of_ne ha hs)
    case h_2 => exact ends_integer ha hs
    case h_5 hb => exact ends_unary h ha hs (.inr (.inl hb))
    case h_6 hm => exact ends_unary h ha hs (.inl (by rw [hm]; decide))
    case h_7 hl =>
      have hp := ha.kind_current.resolve_right hs
      rw [hl] at hp
      exact absurd hp (by decide)
    case h_8 hi => exact ends_conditional h ha hi
    case h_9 => exact ends_function ha hs
    case h_10 => exact .report (.pure (.of_ne ha hs))

/-- The loop over operators goes on behind the terminator only where that was
taken for an operand. -/
theorem ends_operators (least : Precedence) (n : Nat) (left : Expr) (hl : T.Left s es) :
    T.Ends (operators expr least n left) s es fun _ => T.Left := by
  induction n generalizing left s es with
  | zero => exact .pure hl
  | succ n ih =>
    refine .peek (.ite ?_ fun _ => .pure hl)
    intro hlevel
    have hlow : Precedence.lowest.level < s.peek.kind.precedence.level :=
      Nat.lt_of_le_of_lt (by cases least <;> decide) hlevel
    by_cases hs : s.current = T.semi
    · exact .missed (hl.missed hs (.inl hlow))
    · have hn : s.peek ≠ T.semi := by
        refine T.ne_semi fun hp => ?_
        rw [hp] at hlow
        exact absurd hlow (by decide)
      have hp := hl.ahead.kind_peek_ne hs (k := .lparen) (by decide) (by decide)
      refine .advance (.ite (fun hc => absurd hc hp) fun _ => ?_)
      refine .bind (ends_binary h left (hl.ahead.advance hs) hn (.inl hlow)) ?_
      intro v s' es' hl'
      cases v with
      | none => exact .pure hl'
      | some e => exact ih e hl'

theorem ends_level (least : Precedence) (ha : T.Ahead s) : T.Ends (level expr least) s es (T.Spot s) := by
  refine .bind (ends_operand h ha) ?_
  intro v s' es' hq
  cases hq with
  | absent hs hr => exact .pure (.absent hs hr)
  | ended hs hl =>
    cases v with
    | none => exact .pure (.ended hs hl)
    | some e => exact .remaining ((ends_operators h least _ e hl).mono fun _ _ _ => .ended hs)

end

theorem ends_expression (limit : Nat) (least : Precedence) (s : TokenStream) (es : List ParseError)
    (ha : T.Ahead s) : T.Ends (expression limit least) s es (T.Spot s) := by
  induction limit generalizing least s es with
  | zero =>
    intro v s' es' hd
    cases hd
  | succ limit ih => exact ends_level ih least ha

/-! ## Statements -/

theorem ends_skipSemicolon (ha : T.Ahead s) (hr : s.current = T.semi → .noOperand T.semi ∈ es) :
    T.Ends skipSemicolon s es fun _ s' _ => T.Ahead s' := by
  refine .peek (.ite ?_ fun _ => .pure ha)
  intro hp
  by_cases hs : s.current = T.semi
  · refine .missed ⟨hr hs, .inl ?_⟩
    rw [← ha.advance_eq hs]
    exact hp
  · exact .done rfl (ha.advance hs)

section

variable {expr : Precedence → Parse (Option Expr)}
  (h : ∀ least s es, T.Ahead s → T.Ends (expr least) s es (T.Spot s))

include h

/-- The last part of every statement. -/
theorem ends_value {f : Option Expr → Option Stmt} (ha : T.Ahead s) :
    T.Ends (do let value ← expr .lowest; skipSemicolon; return f value) s es
      fun _ s' _ => T.Ahead s' := by
  refine .bind (h _ _ _ ha) ?_
  intro v s' es' hq
  refine .bind (ends_skipSemicolon (hq.ahead ha) hq.reported) ?_
  intro _ _ _ ha'
  exact .pure ha'

theorem ends_binding (ha : T.Ahead s) (hs : s.current ≠ T.semi) :
    T.Ends (binding expr) s es fun _ s' _ => T.Ahead s' := by
  refine .current (.expect ?_ fun _ => .pure ha)
  intro hi
  have ha₁ := ha.advance hs
  have hs₁ : s.advance.current ≠ T.semi := T.ne_semi (t := s.peek) (by rw [hi]; decide)
  refine .current (.expect ?_ fun _ => .pure ha₁)
  intro he
  have hs₂ : s.advance.advance.current ≠ T.semi := T.ne_semi (t := s.advance.peek) (by rw [he]; decide)
  exact .advance (ends_value h ((ha₁.advance hs₁).advance hs₂))

theorem ends_statement (ha : T.Ahead s) : T.Ends (statement expr) s es fun _ s' _ => T.Ahead s' := by
  refine .current ?_
  split
  · next hl => exact ends_binding h ha (T.ne_semi (by rw [hl]; decide))
  · next hr => exact .current (.advance (ends_value h (ha.advance (T.ne_semi (by rw [hr]; decide)))))
  · exact .current (ends_value h ha)

end

/-- The loop over statements comes to stand right behind the terminator. -/
theorem exists_rest_eq {limit : Nat} (hf : T.tail.final.kind = .eof) (ha : T.Ahead s)
    (hl : ∀ k, (statements limit k s).WithinLimit) (hm : ∀ k, ¬ T.Missed (statements limit k s).errors) :
    ∃ k, (statements limit k s).rest = T.tail := by
  induction hn : s.pending.length using Nat.strongRecOn generalizing s with
  | ind n ih =>
  have hc : s.current.kind ≠ .eof := by
    intro he
    rcases ha.kind_current with hp | hs
    · rw [he] at hp
      exact absurd hp (by decide)
    · rw [hs, T.kind] at he
      cases he
  cases hs : statement (expression limit) s with
  | tooDeep rest es =>
    have h1 := hl 1
    simp only [statements, if_neg hc, hs] at h1
    exact absurd (List.mem_append_left _ (by simp)) (h1 s.current rest.current)
  | done v rest es =>
    have hround : ∀ k, statements limit (k + 1) s = (statements limit k rest.advance).after v.toList es := by
      intro k
      simp only [statements, if_neg hc, hs]
    have hend : T.Ends (statement (expression limit)) s [] fun _ s' _ => T.Ahead s' :=
      ends_statement (ends_expression limit) ha
    rcases hend v rest es hs with har | hms
    · by_cases hr : rest.current = T.semi
      · refine ⟨1, ?_⟩
        rw [hround]
        exact har.advance_eq hr
      · have hlt : rest.advance.pending.length < s.pending.length := by
          have ho := onward_statement limit s
          rw [hs] at ho
          obtain ⟨ts, -, rfl⟩ := ha
          exact ho.length_advance_lt hf hc
        have hl' : ∀ k, (statements limit k rest.advance).WithinLimit := by
          intro k
          have hk := hl (k + 1)
          rw [hround] at hk
          exact hk.of_after
        have hm' : ∀ k, ¬ T.Missed (statements limit k rest.advance).errors := by
          intro k hk
          refine hm (k + 1) ?_
          rw [hround]
          exact hk.mono (List.subset_append_right _ _)
        obtain ⟨k, hrest⟩ := ih _ (hn ▸ hlt) (har.advance hr) hl' hm' rfl
        refine ⟨k + 1, ?_⟩
        rw [hround]
        exact hrest
    · refine absurd ?_ (hm 1)
      rw [hround]
      exact hms.mono (List.subset_append_left _ _)

/-- Behind the terminator the program goes on as what follows would by itself. -/
theorem program_ahead {limit : Nat} (hf : T.tail.final.kind = .eof) (ha : T.Ahead s)
    (hl : (program limit s).WithinLimit) (hm : ¬ T.Missed (program limit s).errors) :
    ∃ xs es, program limit s = (program limit T.tail).after xs es := by
  have hs : s.final.kind = .eof := by
    obtain ⟨ts, -, rfl⟩ := ha
    exact hf
  have hresume := program_resume hs limit
  have hsub : ∀ k, (statements limit k s).errors ⊆ (program limit s).errors := by
    intro k
    rw [hresume k]
    exact List.subset_append_left _ _
  obtain ⟨k, hrest⟩ := exists_rest_eq hf ha (fun k start reached hmem => hl start reached (hsub k hmem))
    (fun k h => hm (h.mono (hsub k)))
  have h := hresume k
  rw [hrest] at h
  exact ⟨_, _, h⟩

end Terminator

end Parse

/-! ## Texts with a terminator -/

/-- A text without parentheses and braces whose last token, `semi`, is its only semicolon. -/
structure Terminated (file a : String) (semi : Token) : Prop where
  flat : '(' ∉ a.toList ∧ ')' ∉ a.toList ∧ '\x7b' ∉ a.toList ∧ '\x7d' ∉ a.toList
  once : a.toList.count ';' = 1
  last : (TokenStream.ofSource file a).pending.getLast? = some semi
  kind : semi.kind = .semicolon

variable {file a b : String} {semi : Token}

theorem Token.Written.toList_literal {t : Token} {c : Char} (h : t.Written) (hc : t.kind.spelling = [c]) :
    t.literal.toList = [c] := by
  rw [h.eq_spelling (by rw [hc]; simp), hc]

theorem Terminated.pending_eq (h : Terminated file a semi) :
    (TokenStream.ofSource file a).pending = (TokenStream.ofSource file a).pending.dropLast ++ [semi] := by
  obtain ⟨ts, hts⟩ := List.getLast?_eq_some_iff.mp h.last
  rw [hts, List.dropLast_concat]

/-- All tokens before the terminator are plain. -/
theorem Terminated.plain (h : Terminated file a semi) :
    ∀ t ∈ (TokenStream.ofSource file a).pending.dropLast, t.kind.Plain := by
  have hts := h.pending_eq
  generalize (TokenStream.ofSource file a).pending.dropLast = ts at hts ⊢
  have hsub := TokenStream.literals_sublist file a
  have hw := (TokenStream.written_ofSource file a).pending
  have he := (TokenStream.ended_ofSource file a).pending
  rw [hts] at hsub hw he
  have hflat : ∀ t ∈ ts, ∀ c ∉ a.toList, t.kind.spelling ≠ [c] := by
    intro t ht c hc hs
    have ht' := List.mem_append_left [semi] ht
    refine hc (hsub.subset (List.mem_flatMap.mpr ⟨t, ht', ?_⟩))
    rw [(hw t ht').toList_literal hs]
    exact List.mem_singleton_self c
  have honce : ∀ t ∈ ts, t.kind ≠ .semicolon := by
    intro t ht hk
    have hc := hsub.count_le ';'
    rw [h.once, List.flatMap_append, List.count_append, List.flatMap_singleton,
      (hw semi (by simp)).toList_literal (c := ';') (by rw [h.kind]; rfl), List.count_singleton_self] at hc
    have hpos : 0 < (ts.flatMap (·.literal.toList)).count ';' := by
      refine List.count_pos_iff.mpr (List.mem_flatMap.mpr ⟨t, ht, ?_⟩)
      rw [(hw t (List.mem_append_left _ ht)).toList_literal (c := ';') (by rw [hk]; rfl)]
      exact List.mem_singleton_self _
    omega
  obtain ⟨hlp, hrp, hlb, hrb⟩ := h.flat
  intro t ht hp
  simp only [List.mem_cons, List.not_mem_nil, or_false] at hp
  rcases hp with hk | hk | hk | hk | hk | hk
  · exact honce t ht hk
  · exact hflat t ht '(' hlp (by rw [hk]; rfl)
  · exact hflat t ht ')' hrp (by rw [hk]; rfl)
  · exact hflat t ht '\x7b' hlb (by rw [hk]; rfl)
  · exact hflat t ht '\x7d' hrb (by rw [hk]; rfl)
  · exact he t (List.mem_append_left _ ht) hk

/-- The semicolon in front of the tokens of another text. -/
def Terminated.terminator (h : Terminated file a semi) (tail : TokenStream) : Parse.Terminator :=
  ⟨(TokenStream.ofSource file a).pending.dropLast, semi, tail, h.plain, h.kind⟩

theorem Terminated.ahead (h : Terminated file a semi) (tail : TokenStream) :
    (h.terminator tail).Ahead (tail.after (TokenStream.ofSource file a).pending) :=
  ⟨(TokenStream.ofSource file a).pending.dropLast, List.suffix_rfl, congrArg (tail.after ·) h.pending_eq⟩

namespace Parse

/-- What follows the tokens of a terminated text is read as by itself. -/
theorem program_after {limit : Nat} {tail : TokenStream} (h : Terminated file a semi)
    (hf : tail.final.kind = .eof)
    (hl : (program limit (tail.after (TokenStream.ofSource file a).pending)).WithinLimit)
    (hm : .noOperand semi ∉ (program limit (tail.after (TokenStream.ofSource file a).pending)).errors ∨
      ¬ Joins (TokenStream.ofSource file a).pending.dropLast.getLast? tail.current.kind) :
    ∃ xs es, program limit (tail.after (TokenStream.ofSource file a).pending) =
      (program limit tail).after xs es := by
  refine Terminator.program_ahead (T := h.terminator tail) hf (h.ahead tail) hl ?_
  intro hmissed
  rcases hm with hr | hj
  · exact hr hmissed.reported
  · exact hj hmissed.joins

/-- **A semicolon ends the damage of the malformed statements before it**, unless
it is taken for a missing operand and what follows for a part of the same
statement: the statements and the errors of two texts together end with those
of the second one, further down. -/
theorem parse_terminated {limit : Nat} (h : Terminated file a semi)
    (hl : (parse file (a ++ "\n" ++ b) limit).WithinLimit)
    (hm : .noOperand semi ∉ (parse file (a ++ "\n" ++ b) limit).errors ∨
      ¬ Joins (TokenStream.ofSource file a).pending.dropLast.getLast? (TokenStream.ofSource file b).current.kind) :
    ∃ xs es, parse file (a ++ "\n" ++ b) limit =
      ((parse file b limit).relocate (Span.below (1 + a.toList.count '\n'))).after xs es := by
  have hf := (TokenStream.ended_ofSource file b).final
  rw [parse, TokenStream.ofSource_joined] at hl hm ⊢
  rw [parse, ← program_relocate]
  refine program_after h hf hl ?_
  rw [TokenStream.current_relocate]
  exact hm

/-- A binding without its value does not keep the sign on the next line from
beginning a statement. -/
theorem parse_terminated_noValue :
    Terminated "demo" "let x = ;" ⟨.semicolon, ";", ⟨"demo", 1, 9, 1, 9⟩⟩ ∧
      (parse "demo" ("let x = ;" ++ "\n" ++ "-b") 5).WithinLimit ∧
      ¬ Joins (TokenStream.ofSource "demo" "let x = ;").pending.dropLast.getLast?
        (TokenStream.ofSource "demo" "-b").current.kind ∧
      ∃ xs es, parse "demo" ("let x = ;" ++ "\n" ++ "-b") 5 =
        ((parse "demo" "-b" 5).relocate (Span.below 1)).after xs es := by
  have ha : Terminated "demo" "let x = ;" ⟨.semicolon, ";", ⟨"demo", 1, 9, 1, 9⟩⟩ :=
    ⟨by decide, by decide, by decide, rfl⟩
  have hl : (parse "demo" ("let x = ;" ++ "\n" ++ "-b") 5).WithinLimit := by
    have he : (parse "demo" ("let x = ;" ++ "\n" ++ "-b") 5).errors =
      [.noOperand ⟨.semicolon, ";", ⟨"demo", 1, 9, 1, 9⟩⟩] := by rfl
    intro start reached hmem
    rw [he] at hmem
    simp at hmem
  have hj : ¬ Joins (TokenStream.ofSource "demo" "let x = ;").pending.dropLast.getLast?
      (TokenStream.ofSource "demo" "-b").current.kind := by decide
  exact ⟨ha, hl, hj, parse_terminated ha hl (.inr hj)⟩

/-- Where the semicolon is taken for the missing operand of `+`, the sign that
begins the next statement is read as one more operator. -/
theorem parse_not_terminated :
    Terminated "demo" "a + ;" ⟨.semicolon, ";", ⟨"demo", 1, 5, 1, 5⟩⟩ ∧
      (parse "demo" ("a + ;" ++ "\n" ++ "-b") 5).WithinLimit ∧
      ¬ ∃ xs, (parse "demo" ("a + ;" ++ "\n" ++ "-b") 5).statements =
        xs ++ ((parse "demo" "-b" 5).relocate (Span.below 1)).statements := by
  have he : (parse "demo" ("a + ;" ++ "\n" ++ "-b") 5).errors =
    [.noOperand ⟨.semicolon, ";", ⟨"demo", 1, 5, 1, 5⟩⟩] := by rfl
  refine ⟨⟨by decide, by decide, by decide, rfl⟩, ?_, ?_⟩
  · intro start reached hmem
    rw [he] at hmem
    simp at hmem
  · have hj : (parse "demo" ("a + ;" ++ "\n" ++ "-b") 5).statements.map Stmt.render = ["((a + ) - b)"] := by
      decide
    have hb : ((parse "demo" "-b" 5).relocate (Span.below 1)).statements.map Stmt.render = ["(-b)"] := by
      decide
    intro ⟨xs, hxs⟩
    have hlast := congrArg (fun ys => (ys.map Stmt.render).getLast?) hxs
    simp only [List.map_append, hj, hb, List.getLast?_concat, List.getLast?_singleton] at hlast
    exact absurd hlast (by decide)

end Parse

end ExprLang
