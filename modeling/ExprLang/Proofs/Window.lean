/-
A session sees the tokens of its text through a window of two.

The tokens are pulled from a cursor one by one, past the end too, where they
are the end token for ever (`Cursor.nth_eq_get`). Whatever is done in a
session, in any order, its window lies on two neighbours of that sequence and
moves on, never back. Main statement: `Session.reached_window`.
-/
import ExprLang.Parse.Session
import ExprLang.Proofs.Accepts
import ExprLang.Proofs.Resume

namespace ExprLang

/-! ## The tokens for ever -/

/-- The token that a cursor yields after `i` others. -/
def Cursor.nth (c : Cursor) : Nat → Token
  | 0 => c.next.1
  | i + 1 => c.next.2.nth i

/-- The token at an index of a stream; behind the others the end token for ever. -/
def TokenStream.get (s : TokenStream) (i : Nat) : Token := s.pending.getD i s.final

namespace Cursor

variable {file : String} {cs : List Char} {n : Nat}

/-- There is one end token. -/
theorem eq_of_placed_final {t u : Token} (ht : t.Placed file cs) (hu : u.Placed file cs)
    (hkt : t.kind = .eof) (hku : u.kind = .eof) : t = u := by
  obtain ⟨hlt, hst⟩ := ht.final hkt
  obtain ⟨hlu, hsu⟩ := hu.final hku
  cases t
  cases u
  simp_all

/-- Behind the end token comes the end token. -/
theorem next_of_eof (hk : (ofOffset file cs n).next.1.kind = .eof) :
    (ofOffset file cs n).next.2.next.1 = (ofOffset file cs n).next.1 := by
  obtain ⟨m, hm⟩ := exists_next_eq_ofOffset file cs n
  refine eq_of_placed_final (hm ▸ placed_next file cs m) (placed_next file cs n) ?_ hk
  have hrest : (ofOffset file cs n).next.2.rest = [] := by
    rw [kind_next] at hk
    cases hd : (ofOffset file cs n).rest.dropWhile isBlank with
    | nil => simp [next, hd]
    | cons c ds =>
      rw [hd] at hk
      exact absurd hk (lexeme_ne_eof c ds)
  rw [kind_next, hrest]
  rfl

theorem nth_of_eof (hk : (ofOffset file cs n).next.1.kind = .eof) (i : Nat) :
    (ofOffset file cs n).nth i = (ofOffset file cs n).next.1 := by
  induction i generalizing n with
  | zero => rfl
  | succ i ih =>
    have hnext := next_of_eof hk
    obtain ⟨m, hm⟩ := exists_next_eq_ofOffset file cs n
    rw [hm] at hnext
    rw [nth, hm, ih (hnext ▸ hk), hnext]

theorem nth_ofOffset (file : String) (cs : List Char) (n i : Nat) :
    (ofOffset file cs n).nth i = (TokenStream.ofCursor (ofOffset file cs n)).get i := by
  induction i generalizing n with
  | zero =>
    have hc := TokenStream.current_ofCursor (ofOffset file cs n)
    rw [nth, ← hc, TokenStream.current, TokenStream.get]
    cases (TokenStream.ofCursor (ofOffset file cs n)).pending <;> rfl
  | succ i ih =>
    by_cases hk : (ofOffset file cs n).next.1.kind = .eof
    · rw [nth_of_eof hk, TokenStream.ofCursor_of_eof hk, TokenStream.get, List.getD_nil]
    · obtain ⟨m, hm⟩ := exists_next_eq_ofOffset file cs n
      rw [nth, hm, ih, TokenStream.ofCursor_of_ne hk, hm]
      rfl

/-- **The tokens pulled from a cursor one by one are those of the text**, and
then the end token for ever. -/
theorem nth_eq_get (file source : String) (i : Nat) :
    (start file source).nth i = (TokenStream.ofSource file source).get i := by
  rw [start_eq_ofOffset, TokenStream.ofSource_eq_ofCursor, nth_ofOffset]

end Cursor

namespace TokenStream

theorem get_eq_tokenize (file source : String) (i : Nat) : (ofSource file source).get i =
    (tokenize file source).getD i (ofSource file source).final := by
  rw [tokenize_eq, get]
  rcases Nat.lt_or_ge i (ofSource file source).pending.length with h | h
  · simp [List.getD_eq_getElem?_getD, List.getElem?_append_left h]
  · rw [List.getD_eq_getElem?_getD, List.getD_eq_getElem?_getD, List.getElem?_append_right h,
      List.getElem?_eq_none h]
    cases i - (ofSource file source).pending.length <;> rfl

variable {s s' : TokenStream}

/-- How many tokens of the one stream are gone in the other. -/
def gone (s s' : TokenStream) : Nat := s.pending.length - s'.pending.length

theorem pending_eq_drop (h : Parse.Onward s s') : s'.pending = s.pending.drop (gone s s') :=
  List.suffix_iff_eq_drop.mp h.suffix

theorem current_eq_get (h : Parse.Onward s s') : s'.current = s.get (gone s s') := by
  rw [current, pending_eq_drop h, h.final, get, List.headD_eq_head?_getD, List.head?_drop,
    List.getD_eq_getElem?_getD]

theorem peek_eq_get (h : Parse.Onward s s') : s'.peek = s.get (gone s s' + 1) := by
  rw [peek, pending_eq_drop h, h.final, get, List.tail_drop, List.headD_eq_head?_getD, List.head?_drop,
    List.getD_eq_getElem?_getD]

end TokenStream

namespace Session

/-- The session after some operations. -/
def after (limit : Nat) (s : Session) (ops : List Operation) : Session :=
  ops.foldl (fun s op => (s.perform limit op).2) s

/-- The session on a text after some operations. -/
def reached (file source : String) (limit : Nat) (ops : List Operation) : Session :=
  (ofSource file source).after limit ops

/-- How many tokens of the text lie before the current one. -/
def index (file source : String) (s : Session) : Nat := (TokenStream.ofSource file source).gone s.tokens

variable {limit : Nat} {s : Session}

/-! ## One operation -/

/-- The window moves on, and errors are only added. -/
structure Follows (s s' : Session) : Prop where
  tokens : Parse.Onward s.tokens s'.tokens
  errors : s.errors <+: s'.errors

theorem Follows.refl (s : Session) : Follows s s := ⟨.refl _, List.prefix_rfl⟩

theorem Follows.trans {s₁ s₂ s₃ : Session} (h : Follows s₁ s₂) (h' : Follows s₂ s₃) : Follows s₁ s₃ :=
  ⟨h.tokens.trans h'.tokens, h.errors.trans h'.errors⟩

theorem follows_run {α β : Type} {f : α → β} {p : Parse α} (h : ∀ t, Parse.Onward t (p t).rest) :
    Follows s (s.run (f <$> p)).2 := by
  have ho := h s.tokens
  have hm : (f <$> p) s.tokens = Parse.bind p (fun a => pure (f a)) s.tokens := rfl
  rw [run, hm, Parse.bind]
  cases hp : p s.tokens with
  | done a rest es =>
    rw [hp] at ho
    exact ⟨ho, List.prefix_append _ _⟩
  | tooDeep rest es =>
    rw [hp] at ho
    exact ⟨ho, List.prefix_append _ _⟩

open Parse in
theorem follows_perform (hf : s.tokens.final.kind = .eof) (limit : Nat) (op : Operation) :
    Follows s (s.perform limit op).2 := by
  have hx := stepwise_onward.expression .refl limit
  cases op with
  | program => exact ⟨onward_statements hf limit _, List.prefix_append _ _⟩
  | statement => exact follows_run (onward_statement limit)
  | block => exact follows_run (@Stepwise.block _ _ stepwise_onward (expression limit) (expression limit) hx)
  | expression least => exact follows_run (hx least)
  | expressions close =>
    exact follows_run (@Stepwise.expressions _ _ stepwise_onward (expression limit) (expression limit) hx close)
  | parameters => exact follows_run stepwise_onward.parameters
  | advance => exact follows_run stepwise_onward.advance
  | expect kind => exact follows_run (stepwise_onward.expect kind)
  | precedences => exact .refl s
  | verify => exact .refl s

theorem follows_after (hf : s.tokens.final.kind = .eof) (limit : Nat) (ops : List Operation) :
    Follows s (s.after limit ops) := by
  induction ops generalizing s with
  | nil => exact .refl s
  | cons op ops ih =>
    have h := follows_perform hf limit op
    exact h.trans (ih (h.tokens.kind_final hf))

/-! ## Whole sessions -/

section

variable {file source : String} {ops : List Operation}

theorem reached_append (ops more : List Operation) :
    reached file source limit (ops ++ more) = (reached file source limit ops).after limit more :=
  List.foldl_append

theorem onward_reached (file source : String) (limit : Nat) (ops : List Operation) :
    Parse.Onward (TokenStream.ofSource file source) (reached file source limit ops).tokens :=
  (follows_after (s := ofSource file source) (TokenStream.ended_ofSource file source).final limit ops).tokens

theorem ended_reached (file source : String) (limit : Nat) (ops : List Operation) :
    (reached file source limit ops).tokens.Ended :=
  (TokenStream.ended_ofSource file source).onward (onward_reached file source limit ops)

theorem expect_failed {kind : Kind} (h : (s.perform limit (.expect kind)).1 = some (.matched false)) :
    (s.perform limit (.expect kind)).2.tokens = s.tokens := by
  by_cases hk : s.tokens.peek.kind = kind
  · have hp : (Yield.matched <$> Parse.expect kind) s.tokens = .done (.matched true) s.tokens.advance [] := by
      change Parse.bind (Parse.expect kind) (fun a => pure (Yield.matched a)) s.tokens = _
      rw [Parse.bind, Parse.expect_eq_true hk]
      rfl
    rw [perform, run, hp] at h
    cases h
  · have hp : (Yield.matched <$> Parse.expect kind) s.tokens =
        .done (.matched false) s.tokens [.unexpected kind s.tokens.peek] := by
      change Parse.bind (Parse.expect kind) (fun a => pure (Yield.matched a)) s.tokens = _
      rw [Parse.bind, Parse.expect_eq_false hk]
      rfl
    rw [perform, run, hp]

/-- At the end a program is empty, and reading it does nothing. -/
theorem program_of_eof (hk : s.tokens.current.kind = .eof) :
    s.perform limit .program = (some (.program ⟨[]⟩), s) := by
  rw [perform, Parse.program, Parse.statements_of_eof hk, List.append_nil]
  rfl

/-- At the end a session stays there. -/
theorem current_of_eof (hs : s.tokens.Ended) (hk : s.tokens.current.kind = .eof) (more : List Operation) :
    (s.after limit more).tokens.current.kind = .eof := by
  have hp : s.tokens.pending = [] := List.map_eq_nil_iff.mp (hs.kinds_of_eof hk)
  have ho := (follows_after hs.final limit more).tokens
  have hp' : (s.after limit more).tokens.pending = [] := List.suffix_nil.mp (hp ▸ ho.suffix)
  rw [TokenStream.current, hp']
  exact ho.kind_final hs.final

end

/-- **The window of a session.** Pulled one by one, the tokens of a text are
those of the whole list and then the end token for ever. After any operations
on it, in any order, the current token and the one after it are two neighbours
of these, at the index and behind it; one more operation does not move the
index back and leaves the errors that there are at the front of the list. An
`expect` that fails does not move the window; `verify` changes nothing and
passes exactly without errors. And a program is read up to the end: whatever is
done after that, another one is empty and changes nothing. -/
theorem reached_window (file source : String) (limit : Nat) (ops : List Operation) (op : Operation) :
    (∀ i, (Cursor.start file source).nth i =
      (tokenize file source).getD i (TokenStream.ofSource file source).final) ∧
    (TokenStream.ofSource file source).final.kind = .eof ∧
    (reached file source limit ops).tokens.current =
      (Cursor.start file source).nth ((reached file source limit ops).index file source) ∧
    (reached file source limit ops).tokens.peek =
      (Cursor.start file source).nth ((reached file source limit ops).index file source + 1) ∧
    (reached file source limit ops).index file source ≤
      (reached file source limit (ops ++ [op])).index file source ∧
    (reached file source limit ops).errors <+: (reached file source limit (ops ++ [op])).errors ∧
    (∀ kind, ((reached file source limit ops).perform limit (.expect kind)).1 = some (.matched false) →
      ((reached file source limit ops).perform limit (.expect kind)).2.tokens =
        (reached file source limit ops).tokens) ∧
    (∃ failure, (reached file source limit ops).perform limit .verify =
        (some (.verified failure), reached file source limit ops) ∧
      (failure = none ↔ (reached file source limit ops).errors = [])) ∧
    (reached file source limit (ops ++ [.program])).tokens.current.kind = .eof ∧
    (∀ more, (reached file source limit (ops ++ [.program] ++ more)).perform limit .program =
      (some (.program ⟨[]⟩), reached file source limit (ops ++ [.program] ++ more))) := by
  have hs := ended_reached file source limit ops
  have ho := onward_reached file source limit ops
  have hstep : Follows (reached file source limit ops) (reached file source limit (ops ++ [op])) := by
    rw [reached_append]
    exact follows_after hs.final limit [op]
  have hend : (reached file source limit (ops ++ [.program])).tokens.current.kind = .eof := by
    rw [reached_append]
    exact Parse.statements_ends hs.final (Nat.le_refl _)
  refine ⟨?_, (TokenStream.ended_ofSource file source).final, ?_, ?_, ?_, hstep.errors, ?_, ?_, hend, ?_⟩
  · intro i
    rw [Cursor.nth_eq_get, TokenStream.get_eq_tokenize]
  · rw [Cursor.nth_eq_get]
    exact TokenStream.current_eq_get ho
  · rw [Cursor.nth_eq_get]
    exact TokenStream.peek_eq_get ho
  · have hle := hstep.tokens.length_le
    unfold index TokenStream.gone
    omega
  · exact fun kind h => expect_failed h
  · refine ⟨_, rfl, ?_⟩
    cases (reached file source limit ops).errors <;> simp
  · intro more
    refine program_of_eof ?_
    rw [reached_append]
    exact current_of_eof (ended_reached _ _ _ _) hend more

/-- A parenthesis is expected where a name follows; then the rest is read as a
program, twice. -/
theorem reached_window_expect :
    ((reached "demo" "x y" 5 []).perform 5 (.expect .lparen)).1 = some (.matched false) ∧
    ((reached "demo" "x y" 5 []).perform 5 (.expect .lparen)).2.tokens = (reached "demo" "x y" 5 []).tokens ∧
    (reached "demo" "x y" 5 [.expect .lparen]).errors.length = 1 ∧
    (reached "demo" "x y" 5 [.expect .lparen, .advance]).index "demo" "x y" = 1 ∧
    (reached "demo" "x y" 5 [.expect .lparen, .advance]).tokens.current.literal = "y" ∧
    (reached "demo" "x y" 5 [.expect .lparen, .program, .advance]).perform 5 .program =
      (some (.program ⟨[]⟩), reached "demo" "x y" 5 [.expect .lparen, .program, .advance]) := by
  obtain ⟨-, -, -, -, -, -, hexpect, -⟩ := reached_window "demo" "x y" 5 [] .verify
  obtain ⟨-, -, -, -, -, -, -, -, -, hprogram⟩ := reached_window "demo" "x y" 5 [.expect .lparen] .verify
  have hfailed : ((reached "demo" "x y" 5 []).perform 5 (.expect .lparen)).1 = some (.matched false) := rfl
  exact ⟨hfailed, hexpect .lparen hfailed, rfl, rfl, rfl, hprogram [.advance]⟩

end Session

end ExprLang
