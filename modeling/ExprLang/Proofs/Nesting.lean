/-
Parsing ends, and the nesting limit is only a limit.

Each loop and each level of nesting has done with a token before it goes on,
so the tokens left bound both: no loop uses its rounds up (`Unhurried`), and a
limit above the number of tokens is never hit. Under such a limit the parser
of expressions is the one that calls itself without counting anything down,
whose recursion has one solution only (`Limitless`). Main statement:
`parse_limitless`.
-/
import ExprLang.Proofs.Accepts
import ExprLang.Proofs.Tally

namespace ExprLang.Parse

variable {α β : Type} {s s' : TokenStream} {es : List ParseError} {limit : Nat} {least : Precedence}

/-! ## Rounds -/

/-- What a run goes on with matters only where its first step ends. -/
theorem bind_congr {p : Parse α} {f g : α → Parse β}
    (h : ∀ a s' es, p s = .done a s' es → f a s' = g a s') : (p >>= f) s = (p >>= g) s := by
  change Parse.bind p f s = Parse.bind p g s
  unfold Parse.bind
  cases hp : p s with
  | done a s' es => simp only [h a s' es hp]
  | tooDeep => rfl

theorem bind_congr_left {p q : Parse α} {f : α → Parse β} (h : p s = q s) : (p >>= f) s = (q >>= f) s := by
  change Parse.bind p f s = Parse.bind q f s
  simp only [Parse.bind, h]

theorem onward_of_done {p : Parse α} {a : α} (hp : ∀ s, Onward s (p s).rest)
    (h : p s = .done a s' es) : Onward s s' := by
  have ho := hp s
  rwa [h] at ho

/-- A loop that goes on only where fewer tokens are left does the same in any
number of rounds that is not less than the number of tokens. -/
theorem rounds_suffice {ι γ : Type} (loop : ι → Nat → TokenStream → γ)
    (hend : ∀ i s, s.final.kind = .eof → s.pending = [] → loop i 1 s = loop i 0 s)
    (hround : ∀ i n m s, s.final.kind = .eof →
      (∀ j t, Onward s t → t.pending.length < s.pending.length → loop j n t = loop j m t) →
      loop i (n + 1) s = loop i (m + 1) s)
    (i : ι) {n : Nat} (hf : s.final.kind = .eof) (hn : s.pending.length ≤ n) :
    loop i n s = loop i s.pending.length s := by
  have hempty : ∀ i m (s : TokenStream), s.final.kind = .eof → s.pending = [] → loop i m s = loop i 0 s := by
    intro i m s hf hp
    cases m with
    | zero => rfl
    | succ m =>
      rw [← hend i s hf hp]
      refine hround i m 0 s hf fun j t _ hlt => ?_
      simp [hp] at hlt
  have key : ∀ n m i (s : TokenStream), s.final.kind = .eof → s.pending.length ≤ n →
      s.pending.length ≤ m → loop i n s = loop i m s := by
    intro n
    induction n with
    | zero =>
      intro m i s hf hn _
      exact (hempty i m s hf (List.length_eq_zero_iff.mp (by omega))).symm
    | succ n ih =>
      intro m i s hf hn hm
      cases m with
      | zero => exact hempty i _ s hf (List.length_eq_zero_iff.mp (by omega))
      | succ m =>
        refine hround i n m s hf fun j t ho hlt => ?_
        exact ih m j t (ho.kind_final hf) (by omega) (by omega)
  exact key n _ i s hf hn (Nat.le_refl _)

/-- A round that does not go on ends as no round does. -/
theorem peek_ite_neg {c : Token → Prop} [DecidablePred c] {f : Token → Parse β} {b : β} (h : ¬ c s.peek) :
    (peek >>= fun t => if c t then f t else pure b) s = (pure b : Parse β) s := by
  change Reply.after [] ((if c s.peek then f s.peek else pure b) s) = _
  rw [if_neg h]
  rfl

theorem peek_eq_final (h : s.pending = []) : s.peek = s.final := by
  rw [TokenStream.peek, h]
  rfl

theorem length_advance_lt_of_peek (hf : s.final.kind = .eof) (hk : s.peek.kind ≠ .eof) :
    s.advance.pending.length < s.pending.length := TokenStream.length_advance_lt hf rfl hk

theorem moreParameters_rounds {n : Nat} (hf : s.final.kind = .eof) (hn : s.pending.length ≤ n) :
    moreParameters n s = moreParameters s.pending.length s := by
  refine rounds_suffice (fun _ : Unit => moreParameters) ?_ ?_ () hf hn
  · intro _ s hf hp
    have hk : s.peek.kind ≠ .comma := by rw [peek_eq_final hp, hf]; decide
    exact peek_ite_neg (c := fun t => t.kind = .comma) hk
  · intro _ n m s hf ih
    refine bind_congr ?_
    rintro _ _ _ ⟨⟩
    by_cases hk : s.peek.kind = .comma
    · simp only [if_pos hk]
      have hlt := TokenStream.length_advance_lt hf hk (by decide)
      refine bind_congr ?_
      rintro _ _ _ ⟨⟩
      refine bind_congr ?_
      intro ok t es ht
      have ho := onward_of_done (stepwise_onward.expect .ident) ht
      have hle := ho.length_le
      cases ok with
      | false => rfl
      | true =>
        refine bind_congr ?_
        rintro _ _ _ ⟨⟩
        exact bind_congr_left (ih () t ho.of_advance (by omega))
    · simp only [if_neg hk]

section

variable {expr : Precedence → Parse (Option Expr)} (h : ∀ least s, Onward s (expr least s).rest)

include h

theorem moreExpressions_rounds {n : Nat} (hf : s.final.kind = .eof) (hn : s.pending.length ≤ n) :
    moreExpressions expr n s = moreExpressions expr s.pending.length s := by
  refine rounds_suffice (fun _ : Unit => moreExpressions expr) ?_ ?_ () hf hn
  · intro _ s hf hp
    have hk : s.peek.kind ≠ .comma := by rw [peek_eq_final hp, hf]; decide
    exact peek_ite_neg (c := fun t => t.kind = .comma) hk
  · intro _ n m s hf ih
    refine bind_congr ?_
    rintro _ _ _ ⟨⟩
    by_cases hk : s.peek.kind = .comma
    · simp only [if_pos hk]
      have hlt := TokenStream.length_advance_lt hf hk (by decide)
      refine bind_congr ?_
      rintro _ _ _ ⟨⟩
      refine bind_congr ?_
      rintro _ _ _ ⟨⟩
      refine bind_congr ?_
      intro v t es ht
      have ho := (onward_of_done (h .lowest) ht).of_advance
      have hle := ho.length_le
      cases v with
      | none => rfl
      | some e =>
        exact bind_congr_left (ih () t ho.of_advance (by omega))
    · simp only [if_neg hk]

theorem operators_rounds {n : Nat} (left : Expr) (hf : s.final.kind = .eof) (hn : s.pending.length ≤ n) :
    operators expr least n left s = operators expr least s.pending.length left s := by
  refine rounds_suffice (fun left n => operators expr least n left) ?_ ?_ left hf hn
  · intro left s hf hp
    have hl : ¬ least.level < s.peek.kind.precedence.level := by
      intro hl
      exact kind_ne_eof_of_level_lt hl (by rw [peek_eq_final hp, hf])
    exact peek_ite_neg (c := fun t => least.level < t.kind.precedence.level) hl
  · intro left n m s hf ih
    refine bind_congr ?_
    rintro _ _ _ ⟨⟩
    by_cases hl : least.level < s.peek.kind.precedence.level
    · simp only [if_pos hl]
      have hlt := length_advance_lt_of_peek hf (kind_ne_eof_of_level_lt hl)
      refine bind_congr ?_
      rintro _ _ _ ⟨⟩
      -- Behind a call and behind an operator the loop goes on in the same way.
      have hgo : ∀ (v : Option Expr) t, Onward s.advance t →
          nextRound expr least n v t = nextRound expr least m v t := by
        intro v t ho
        have hle := ho.length_le
        cases v with
        | none => rfl
        | some e => exact ih e t ho.of_advance (by omega)
      by_cases hp : s.peek.kind = .lparen
      · simp only [if_pos hp]
        refine bind_congr fun v t es ht => hgo v t ?_
        exact onward_of_done (@Stepwise.call _ _ stepwise_onward expr expr h left) ht
      · simp only [if_neg hp]
        refine bind_congr fun v t es ht => hgo v t ?_
        exact onward_of_done (@Stepwise.binary _ _ stepwise_onward expr expr h left) ht
    · simp only [if_neg hl]

theorem blockStatements_rounds {n : Nat} (hf : s.final.kind = .eof) (hn : s.pending.length ≤ n) :
    blockStatements expr n s = blockStatements expr s.pending.length s := by
  refine rounds_suffice (fun _ : Unit => blockStatements expr) ?_ ?_ () hf hn
  · intro _ s hf hp
    have hk : s.current.kind = .eof := by rw [TokenStream.current, hp]; exact hf
    refine (bind_congr (g := fun _ => pure []) ?_).trans rfl
    rintro _ _ _ ⟨⟩
    exact congrFun (if_pos (.inr hk)) _
  · intro _ n m s hf ih
    refine bind_congr ?_
    rintro _ _ _ ⟨⟩
    by_cases hk : s.current.kind = .rbrace ∨ s.current.kind = .eof
    · simp only [if_pos hk]
    · simp only [if_neg hk]
      refine bind_congr ?_
      intro v t es ht
      have ho := onward_of_done (@Stepwise.statement _ _ stepwise_onward expr expr h) ht
      have hlt := ho.length_advance_lt hf fun he => hk (.inr he)
      refine bind_congr ?_
      rintro _ _ _ ⟨⟩
      exact bind_congr_left (ih () t.advance ho.advance hlt)

end

/-- No loop that starts here uses up as many rounds as there are tokens: with
any more it does the same. -/
structure Unhurried (expr : Precedence → Parse (Option Expr)) (s : TokenStream) : Prop where
  parameters : ∀ {n}, s.pending.length ≤ n → moreParameters n s = moreParameters s.pending.length s
  expressions : ∀ {n}, s.pending.length ≤ n →
    moreExpressions expr n s = moreExpressions expr s.pending.length s
  operators : ∀ {n} least left, s.pending.length ≤ n →
    operators expr least n left s = operators expr least s.pending.length left s
  block : ∀ {n}, s.pending.length ≤ n →
    blockStatements expr n s = blockStatements expr s.pending.length s

theorem unhurried (limit : Nat) (hf : s.final.kind = .eof) : Unhurried (expression limit) s :=
  have h := stepwise_onward.expression .refl limit
  ⟨moreParameters_rounds hf, moreExpressions_rounds h hf, fun _ left => operators_rounds h left hf,
    blockStatements_rounds h hf⟩

/-! ## Levels of nesting -/

theorem Keeps.done {A : TokenStream → List Leaf → List ParseError → Prop} {leaves : α → List Leaf}
    {p : Parse α} {ps : List Leaf} {D : Prop} (h : Keeps A D leaves p s ps []) (hd : ¬ D) :
    ∃ v s' es, p s = .done v s' es ∧ A s'.advance (ps ++ leaves v) es := by
  unfold Keeps Meets at h
  split at h
  · next v s' es hp => exact ⟨v, s', es, hp, h⟩
  · exact absurd h.1 hd

/-- None of the errors is about nesting. -/
def Shallow (_ : TokenStream) (_ : List Leaf) (es : List ParseError) : Prop :=
  ∀ start reached, .tooDeep start reached ∉ es

theorem tally_shallow : Tally Shallow where
  skip h := h
  take h _ := h
  report {s ps es e} h he start reached hm := by
    rcases List.mem_append.mp hm with hm | hm
    · exact h start reached hm
    · cases List.mem_singleton.mp hm
      cases he
  drop h _ := h

/-- A limit above the number of tokens left is not hit. -/
theorem expression_done (hf : s.final.kind = .eof) (hl : s.pending.length < limit) (least : Precedence) :
    ∃ v s' es, expression limit least s = .done v s' es := by
  have h0 : Shallow s [] [] := by simp [Shallow]
  obtain ⟨v, s', es, h, -⟩ := (tally_shallow.keeps_expression limit least hf h0).done (by omega)
  exact ⟨v, s', es, h⟩

theorem statement_done (hf : s.final.kind = .eof) (hl : s.pending.length < limit) :
    ∃ v s' es, statement (expression limit) s = .done v s' es ∧ Onward s s' ∧
      ∀ start reached, .tooDeep start reached ∉ es := by
  have h0 : Shallow s [] [] := by simp [Shallow]
  obtain ⟨v, s', es, h, he⟩ := (tally_shallow.keeps_statement limit hf h0).done (by omega)
  exact ⟨v, s', es, h, onward_of_done (onward_statement limit) h, he⟩

theorem statements_withinLimit (hf : s.final.kind = .eof) (hl : s.pending.length < limit) (n : Nat) :
    (statements limit n s).WithinLimit := by
  induction n generalizing s with
  | zero => simp [statements, Reading.WithinLimit]
  | succ n ih =>
    by_cases hk : s.current.kind = .eof
    · simp [statements_of_eof hk, Reading.WithinLimit]
    · obtain ⟨v, s', es, hs, ho, he⟩ := statement_done hf hl
      have hlt := ho.length_advance_lt hf hk
      have hrest := ih (s := s'.advance) (ho.kind_final hf) (by omega)
      simp only [statements, if_neg hk, hs]
      intro start reached hm
      rcases List.mem_append.mp hm with hm | hm
      · exact he start reached hm
      · exact hrest start reached hm

/-! ## No limit at all -/

/-- The parser of nested expressions that `level` takes, given by `level`
itself: a call of it nests another one, and none of them is counted. -/
def Limitless (expr : Precedence → Parse (Option Expr)) : Prop :=
  ∀ least s, s.final.kind = .eof → expr least s = level expr least s

/-- Wherever `p` is done before tokens that end, `q` is done in the same way. -/
structure Follows (g : α → α) (p q : Parse α) : Prop where
  done : ∀ {s v s' es}, s.final.kind = .eof → p s = .done v s' es →
    q s = .done (g v) s' es ∧ s'.final.kind = .eof

theorem stepwise_follows : Stepwise id @Follows where
  pure g a := ⟨fun hf h => by cases h; exact ⟨rfl, hf⟩⟩
  bind {α β g h p q k l} hpq hkl := by
    refine ⟨fun hf hd => ?_⟩
    obtain ⟨a, s₁, es₁, es₂, hp, hk, rfl⟩ := bind_eq_done.mp hd
    obtain ⟨hq, hf₁⟩ := hpq.done hf hp
    obtain ⟨hl, hf'⟩ := (hkl a).done hf₁ hk
    exact ⟨bind_eq_done.mpr ⟨g a, s₁, es₁, es₂, hq, hl, rfl⟩, hf'⟩
  current := ⟨fun hf h => by cases h; exact ⟨rfl, hf⟩⟩
  peek := ⟨fun hf h => by cases h; exact ⟨rfl, hf⟩⟩
  remaining := ⟨fun hf h => by cases h; exact ⟨rfl, hf⟩⟩
  advance := ⟨fun hf h => by cases h; exact ⟨rfl, hf⟩⟩
  report e := ⟨fun hf h => by cases h; rw [ParseError.relocate_id]; exact ⟨rfl, hf⟩⟩

section

variable {expr : Precedence → Parse (Option Expr)}

theorem Limitless.follows (h : Limitless expr) (limit : Nat) (least : Precedence) :
    Follows (Option.map (Expr.relocate id)) (expression limit least) (expr least) := by
  induction limit generalizing least with
  | zero => exact ⟨fun _ hd => by cases hd⟩
  | succ limit ih =>
    refine ⟨fun hf hd => ?_⟩
    rw [h least _ hf]
    exact (stepwise_follows.level ih least).done hf hd

/-- Without a limit a statement is what it is under a limit that it cannot hit. -/
theorem Limitless.statement_eq (h : Limitless expr) (hf : s.final.kind = .eof)
    (hl : s.pending.length < limit) : statement expr s = statement (expression limit) s := by
  obtain ⟨v, s', es, hs, -⟩ := statement_done hf hl
  have hd := ((stepwise_follows.statement (h.follows limit)).done hf hs).1
  rw [funext Stmt.relocate_id, Option.map_id_apply'] at hd
  rw [hd, hs]

end

/-- A parser of expressions under no limit but the number of tokens left. -/
def unlimited (least : Precedence) : Parse (Option Expr) :=
  fun s => expression (s.pending.length + 1) least s

theorem limitless_unlimited : Limitless unlimited := by
  intro least s hf
  have hnested : ∀ least, Follows (Option.map (Expr.relocate id)) (expression s.pending.length least)
      (unlimited least) := by
    intro least
    refine ⟨fun {t v t' es} hf hd => ?_⟩
    obtain ⟨w, t₁, es₁, hw⟩ := expression_done hf (Nat.lt_succ_self _) least
    have heq := (expression_of_done (Nat.le_max_left _ _) hd).symm.trans
      (expression_of_done (Nat.le_max_right _ _) hw)
    have ho := onward_of_done (stepwise_onward.expression .refl _ least) hd
    rw [funext Expr.relocate_id, Option.map_id_apply', heq]
    exact ⟨hw, ho.kind_final hf⟩
  obtain ⟨v, s', es, hs⟩ := expression_done hf (Nat.lt_succ_self _) least
  have hd := ((stepwise_follows.level hnested least).done hf hs).1
  rw [funext Expr.relocate_id, Option.map_id_apply'] at hd
  rw [hd]
  exact hs

/-- The statements up to the end of the text with a given parser of
expressions; it is one that hits no limit. -/
def statementsBy (expr : Precedence → Parse (Option Expr)) : (rounds : Nat) → TokenStream → Reading
  | 0, s => ⟨[], [], s⟩
  | rounds + 1, s =>
    if s.current.kind = .eof then ⟨[], [], s⟩
    else match statement expr s with
      | .done v rest es => (statementsBy expr rounds rest.advance).after v.toList es
      | .tooDeep rest es => ⟨[], es, rest⟩

theorem Limitless.statementsBy_eq {expr : Precedence → Parse (Option Expr)} (h : Limitless expr)
    (hf : s.final.kind = .eof) (hl : s.pending.length < limit) (n : Nat) :
    statementsBy expr n s = statements limit n s := by
  induction n generalizing s with
  | zero => rfl
  | succ n ih =>
    by_cases hk : s.current.kind = .eof
    · simp only [statementsBy, statements, if_pos hk]
    · obtain ⟨v, s', es, hs, ho, -⟩ := statement_done hf hl
      have hlt := ho.length_advance_lt hf hk
      have hrest := ih (s := s'.advance) (ho.kind_final hf) (by omega)
      simp only [statementsBy, statements, if_neg hk, h.statement_eq hf hl, hs, hrest]

/-! ## Chains -/

/-- The kinds behind the first name of a chain: operators with another name
behind each, and calls without arguments. -/
inductive Chain : List Kind → Prop
  | nil : Chain []
  | link : isInfix k → Chain ks → Chain (k :: .ident :: ks)
  | call : Chain ks → Chain (.lparen :: .rparen :: ks)

/-- The loop goes on along a chain if the nested expressions do on shorter ones. -/
theorem yields_operators_of_chain {l bound : Nat}
    (ih : ∀ {least s ks}, Chain ks → s.Ended → s.kinds = .ident :: ks → ks.length < bound →
      6 ≤ l + least.level → least.level ≤ 5 →
      ∃ e s', (expression l least).Yields s (some e) s' ∧ Chain s'.advance.kinds ∧
        s'.advance.kinds.length ≤ ks.length)
    (hl : 5 ≤ l + least.level) (n : Nat) (left : Expr) (hs : s.Ended) (hc : Chain s.advance.kinds)
    (hb : s.advance.kinds.length ≤ bound) :
    ∃ e s', (operators (expression l) least n left).Yields s (some e) s' ∧ Chain s'.advance.kinds ∧
      s'.advance.kinds.length ≤ s.advance.kinds.length := by
  induction n generalizing s left with
  | zero => exact ⟨left, s, yields_pure.mpr ⟨rfl, rfl⟩, hc, Nat.le_refl _⟩
  | succ n ihn =>
    have hx := present_expression l
    by_cases hlt : least.level < s.peek.kind.precedence.level
    swap
    · exact ⟨left, s, (yields_operators_succ hx).mpr (.inr ⟨hlt, rfl, rfl⟩), hc, Nat.le_refl _⟩
    generalize hks : s.advance.kinds = ks at hc hb
    cases hc with
    | nil =>
      have hk : s.peek.kind = .eof := by rw [TokenStream.kind_peek hs.final, hks]; rfl
      exact absurd hk (kind_ne_eof_of_level_lt hlt)
    | @link k ks hi hc =>
      obtain ⟨hk, hright⟩ := TokenStream.kinds_advance_eq_cons hks
      rw [hk] at hlt
      have hk5 := hi.level_lt_unary
      rw [List.length_cons, List.length_cons] at hb
      obtain ⟨e, s₁, he, hc₁, hlen⟩ := ih hc hs.advance.advance hright (by omega)
        (show 6 ≤ l + k.precedence.level by omega) (Nat.le_of_lt_succ hk5)
      have hs₁ := hs.advance.advance.onward (reads_expression l hs.advance.advance.final he).onward
      obtain ⟨e', s', ho, hc', hlen'⟩ := ihn (.binary s.peek left s.peek.literal (some e)) hs₁ hc₁ (by omega)
      have hne : s.peek.kind ≠ .lparen := by rw [hk]; rintro rfl; simp [isInfix] at hi
      have hbin : (binary (expression l) left).Yields s.advance
          (some (.binary s.peek left s.peek.literal (some e))) s₁ := by
        refine yields_binary.mpr ⟨some e, ?_, rfl⟩
        change (expression l s.peek.kind.precedence).Yields _ _ _
        rwa [hk]
      refine ⟨e', s', (yields_operators_succ hx).mpr (.inl ⟨hk ▸ hlt, _, s₁, .inr ⟨hne, hbin⟩, ho⟩), hc', ?_⟩
      rw [List.length_cons, List.length_cons]
      omega
    | @call ks hc =>
      obtain ⟨hk, hclose⟩ := TokenStream.kinds_advance_eq_cons hks
      obtain ⟨hk', hrest⟩ := TokenStream.kinds_advance_eq_cons hclose
      rw [List.length_cons, List.length_cons] at hb
      obtain ⟨e', s', ho, hc', hlen'⟩ := ihn (s := s.advance.advance) (.call s.peek left []) hs.advance.advance
        (hrest ▸ hc) (by rw [hrest]; omega)
      have hcall : (call (expression l) left).Yields s.advance (some (.call s.peek left [])) s.advance.advance :=
        yields_call.mpr ⟨some [], (yields_expressions hx).mpr (.inl ⟨hk', rfl, rfl⟩), rfl⟩
      refine ⟨e', s', (yields_operators_succ hx).mpr (.inl ⟨hlt, _, _, .inl ⟨hk, hcall⟩, ho⟩), hc', ?_⟩
      rw [hrest] at hlen'
      rw [List.length_cons, List.length_cons]
      omega

/-- Each operator of a chain nests one level, and its right operand takes only
operators that bind tighter. -/
theorem yields_of_chain {l : Nat} {ks : List Kind} (hc : Chain ks) (hs : s.Ended)
    (hk : s.kinds = .ident :: ks) (hl : 6 ≤ l + least.level) (hp : least.level ≤ 5) :
    ∃ e s', (expression l least).Yields s (some e) s' ∧ Chain s'.advance.kinds ∧
      s'.advance.kinds.length ≤ ks.length := by
  induction hb : ks.length using Nat.strongRecOn generalizing l least s ks with
  | ind bound ih =>
  obtain ⟨l, rfl⟩ : ∃ l', l = l' + 1 := ⟨l - 1, by omega⟩
  obtain ⟨hident, hrest, -⟩ := TokenStream.kinds_eq_cons hk
  obtain ⟨e, s', ho, hc', hlen⟩ := yields_operators_of_chain
    (fun hc hs hk hlt hl hp => ih _ hlt hc hs hk hl hp rfl) (show 5 ≤ l + least.level by omega) s.pending.length (.name (nameAt s)) hs
    (hrest ▸ hc) (by rw [hrest, hb])
  refine ⟨e, s', (yields_level (present_expression l)).mpr ⟨_, s, ?_, ho⟩, hc', ?_⟩
  · simp [operand, hident, nameAt]
  · rwa [hrest, hb] at hlen

/-- A chain is read as a whole: an expression goes on where it can. -/
theorem kind_peek_of_chain {e : Expr} (hf : s'.final.kind = .eof) (h : Reads (.expression .lowest e) s s')
    (hc : Chain s'.advance.kinds) : s'.peek.kind = .eof := by
  have hstop := h.expression_stop
  generalize hks : s'.advance.kinds = ks at hc
  cases hc with
  | nil =>
    rw [TokenStream.kind_peek hf, hks]
    rfl
  | link hi _ =>
    rw [(TokenStream.kinds_advance_eq_cons hks).1] at hstop
    exact absurd hi.lowest_level_lt hstop
  | call _ =>
    rw [(TokenStream.kinds_advance_eq_cons hks).1] at hstop
    exact absurd (by decide) hstop

/-- An expression that takes up the whole text is the program. -/
theorem parse_of_yields {file source : String} {e : Expr}
    (hident : (TokenStream.ofSource file source).current.kind = .ident)
    (hy : (expression limit .lowest).Yields (.ofSource file source) (some e) s')
    (hpeek : s'.peek.kind = .eof) :
    (parse file source limit).errors = [] ∧ (parse file source limit).statements =
      [.expression (TokenStream.ofSource file source).current (some e)] := by
  have hafter : afterSemicolon s' = s' := if_neg (by rw [hpeek]; decide)
  have hstatement : (statement (expression limit)).Yields (.ofSource file source)
      (some (.expression (TokenStream.ofSource file source).current (some e))) s' := by
    refine yields_statement.mpr (.inr (.inr ⟨by rw [hident]; decide, by rw [hident]; decide, ?_⟩))
    exact yields_expressionStatement.mpr ⟨some e, s', hy, rfl, hafter.symm⟩
  have hne := TokenStream.pending_ne_nil_of_kind (TokenStream.ended_ofSource file source).final hident
    (by decide)
  obtain ⟨n, hn⟩ : ∃ n, (TokenStream.ofSource file source).pending.length = n + 1 :=
    Nat.exists_eq_succ_of_ne_zero fun h => hne (List.length_eq_zero_iff.mp h)
  have heof : s'.advance.current.kind = .eof := hpeek
  rw [parse, program, hn, statements, if_neg (by rw [hident]; decide), hstatement]
  simp only [statements_of_eof heof]
  exact ⟨rfl, rfl⟩

theorem errors_of_chain {file source : String} {ks : List Kind} (hc : Chain ks)
    (hk : (tokenize file source).map (·.kind) = .ident :: ks ++ [.eof]) (hl : 5 ≤ limit) :
    (parse file source limit).errors = [] := by
  have hs := TokenStream.ended_ofSource file source
  have hkinds : (TokenStream.ofSource file source).kinds = .ident :: ks := by
    rw [TokenStream.tokenize_eq, List.map_append, List.map_singleton, hs.final] at hk
    exact List.append_cancel_right hk
  obtain ⟨e, s', hy, hc', -⟩ := yields_of_chain hc hs hkinds
    (show 6 ≤ limit + Precedence.lowest.level by rw [Precedence.level]; omega) (by decide)
  have hr := reads_expression limit hs.final hy
  exact (parse_of_yields (TokenStream.kinds_eq_cons hkinds).1 hy
    (kind_peek_of_chain (hr.onward.kind_final hs.final) hr hc')).1

/-- **Parsing ends, and the nesting limit is only a limit.** Take a text with
`N` tokens, the end token counted.

Under every limit reading stops at the end, and no loop on its way uses its
rounds up. Under a limit of at least `N`, that is, with at most `N` expressions
nested in each other, nothing is given up, and the reading is the one without a
limit, with the parser of expressions whose recursion counts nothing; there is
such a parser. A text that stays within a limit is read in the same way under
every higher one. And a chain of operators and calls stays within a limit of
five, however long it is. -/
theorem parse_limitless (file source : String) :
    (∀ limit, (parse file source limit).rest.current.kind = .eof) ∧
    (∀ limit s, Onward (.ofSource file source) s → Unhurried (expression limit) s) ∧
    (∀ limit, (tokenize file source).length ≤ limit → (parse file source limit).WithinLimit) ∧
    (∃ expr, Limitless expr) ∧
    (∀ expr, Limitless expr → ∀ rounds limit, (tokenize file source).length ≤ rounds →
      (tokenize file source).length ≤ limit →
      statementsBy expr rounds (.ofSource file source) = parse file source limit) ∧
    (∀ limit limit', limit ≤ limit' → (parse file source limit).WithinLimit →
      parse file source limit' = parse file source limit) ∧
    (∀ ks, Chain ks → (tokenize file source).map (·.kind) = .ident :: ks ++ [.eof] →
      ∀ limit, 5 ≤ limit → (parse file source limit).errors = []) := by
  have hf := (TokenStream.ended_ofSource file source).final
  have hlength : (tokenize file source).length = (TokenStream.ofSource file source).pending.length + 1 := by
    rw [TokenStream.tokenize_eq, List.length_append, List.length_singleton]
  refine ⟨?_, ?_, ?_, ⟨unlimited, limitless_unlimited⟩, ?_, ?_, ?_⟩
  · exact fun limit => statements_ends hf (Nat.le_refl _)
  · exact fun limit s ho => unhurried limit (ho.kind_final hf)
  · exact fun limit hl => statements_withinLimit hf (by omega) _
  · intro expr hx rounds limit hr hl
    rw [hx.statementsBy_eq hf (show _ < limit by omega), statements_eq_program hf (by omega), parse]
  · exact fun limit limit' hl hw => parse_of_withinLimit hl hw
  · exact fun ks hc hk limit hl => errors_of_chain hc hk hl

/-- Groups in each other, with three expressions nested where there are six
tokens; and a chain of operators and calls of four ranks. -/
theorem parse_limitless_groups :
    (tokenize "demo" "((a))").length = 6 ∧
    (parse "demo" "((a))" 6).WithinLimit ∧
    statementsBy unlimited 6 (.ofSource "demo" "((a))") = parse "demo" "((a))" 6 ∧
    (parse "demo" "((a))" 2).messages = ["expression nested too deeply"] ∧
    (parse "demo" "((a))" 3).WithinLimit ∧
    parse "demo" "((a))" 480 = parse "demo" "((a))" 3 ∧
    (parse "demo" "a==b<c-d*f()()+a" 5).errors = [] := by
  obtain ⟨-, -, hwithin, -, hlimitless, hmore, -⟩ := parse_limitless "demo" "((a))"
  have hn : (tokenize "demo" "((a))").length = 6 := by decide
  have h3 : (parse "demo" "((a))" 3).WithinLimit := by
    have he : (parse "demo" "((a))" 3).errors = [] := by decide
    simp [Reading.WithinLimit, he]
  have hkinds : (tokenize "demo" "a==b<c-d*f()()+a").map (·.kind) = .ident ::
      [.eq, .ident, .lt, .ident, .minus, .ident, .asterisk, .ident, .lparen, .rparen, .lparen, .rparen, .plus,
        .ident] ++ [.eof] := by decide
  have hchain := (parse_limitless "demo" "a==b<c-d*f()()+a").2.2.2.2.2.2 _ ?_ hkinds 5 (Nat.le_refl _)
  · exact ⟨hn, hwithin 6 (by omega), hlimitless unlimited limitless_unlimited 6 6 (by omega) (by omega),
      by decide, h3, hmore 3 480 (by decide) h3, hchain⟩
  · exact .link (by decide) (.link (by decide) (.link (by decide) (.link (by decide) (.call (.call
      (.link (by decide) .nil))))))

end ExprLang.Parse
