/-
Each token is carried by one node at most.

The tokens of a text stand in its order. Those that the nodes of a program
carry, read from left to right, are some of them in the same order, however
malformed the text is: a parser that gives up has left its tokens behind and
none of them comes back. In a text without errors they are all but the
punctuation, which tokens alone tell (`carried`). Main statement:
`parse_carried`.
-/
import ExprLang.Proofs.Accepts
import ExprLang.Proofs.Joined
import ExprLang.Proofs.Tally

namespace ExprLang

/-! ## The order of the text -/

/-- The token starts further up than the other one, or on the same line further left. -/
def Token.Before (t u : Token) : Prop :=
  t.span.startLine < u.span.startLine ∨
    (t.span.startLine = u.span.startLine ∧ t.span.startColumn < u.span.startColumn)

section

variable {file : String} {cs : List Char} {m n : Nat} {t u : Token}

theorem lineAt_lt_or_columnAt_lt (h : m < n) (hn : n ≤ cs.length) :
    lineAt cs m < lineAt cs n ∨ (lineAt cs m = lineAt cs n ∧ columnAt cs m < columnAt cs n) := by
  have ht : cs.take n = cs.take m ++ (cs.drop m).take (n - m) := by
    rw [← List.take_add, Nat.add_sub_cancel' (Nat.le_of_lt h)]
  rw [columnAt_eq, columnAt_eq, lineAt, lineAt, ht, List.count_append]
  by_cases hb : '\n' ∈ (cs.drop m).take (n - m)
  · have := List.count_pos_iff.mpr hb
    omega
  · rw [lastLine_append_of_not_mem hb, List.count_eq_zero.mpr hb, List.length_append, List.length_take,
      List.length_drop]
    omega

theorem Token.StartsAt.before (ht : t.StartsAt cs m) (hu : u.StartsAt cs n) (h : m < n) : t.Before u := by
  have := lineAt_lt_or_columnAt_lt h hu.le
  rw [Before, ht.line, ht.column, hu.line, hu.column]
  omega

theorem startsAt_tokenAt (file : String) (hn : n ≤ cs.length) : (Cursor.tokenAt file cs n).StartsAt cs n :=
  ⟨hn, rfl, by rw [columnAt_eq]; rfl⟩

/-- A token takes at least one character, and all that it takes is there. -/
theorem exists_next_of_ne_eof (hn : n ≤ cs.length) (hk : (Cursor.ofOffset file cs n).next.1.kind ≠ .eof) :
    ∃ m, Cursor.firstFrom cs n < m ∧ m ≤ cs.length ∧ (Cursor.ofOffset file cs n).next =
      (Cursor.tokenAt file cs (Cursor.firstFrom cs n), .ofOffset file cs m) := by
  have hfirst := firstFrom_le hn
  have hnext := Cursor.next_ofOffset file cs n
  obtain ⟨c, r, hr⟩ : ∃ c r, cs.drop (Cursor.firstFrom cs n) = c :: r := by
    refine List.exists_cons_of_ne_nil fun hd => hk ?_
    rw [hnext, Cursor.tokenAt, hd]
    rfl
  have hpos := length_lexeme_pos c r
  have hle := (lexeme_leads c r).length_le
  rw [← hr] at hpos hle
  rw [List.length_drop] at hle
  exact ⟨_, by omega, by omega, hnext⟩

/-- The tokens from an offset on start there or later, one after the other. -/
theorem ordered_ofCursor (file : String) (hn : n ≤ cs.length) {s : TokenStream}
    (hs : TokenStream.ofCursor (.ofOffset file cs n) = s) :
    (∀ t ∈ s.pending ++ [s.final], ∃ m, n ≤ m ∧ t.StartsAt cs m) ∧
      (s.pending ++ [s.final]).Pairwise Token.Before := by
  induction hl : cs.length - n using Nat.strongRecOn generalizing n s with
  | ind l ih =>
  have hge : n ≤ Cursor.firstFrom cs n := Nat.le_add_right _ _
  have hstart := startsAt_tokenAt file (firstFrom_le hn)
  by_cases hk : (Cursor.ofOffset file cs n).next.1.kind = .eof
  · rw [TokenStream.ofCursor_of_eof hk, Cursor.next_ofOffset] at hs
    subst hs
    simpa using ⟨_, hge, hstart⟩
  · obtain ⟨m, hlt, hm, hnext⟩ := exists_next_of_ne_eof hn hk
    obtain ⟨rest, hrest⟩ : ∃ rest, TokenStream.ofCursor (.ofOffset file cs m) = rest := ⟨_, rfl⟩
    obtain ⟨hlater, hpairs⟩ := ih _ (by omega) hm hrest rfl
    rw [TokenStream.ofCursor_of_ne hk, hnext, hrest] at hs
    subst hs
    rw [List.cons_append]
    refine ⟨List.forall_mem_cons.mpr ⟨⟨_, hge, hstart⟩, ?_⟩, List.pairwise_cons.mpr ⟨?_, hpairs⟩⟩
    · intro t ht
      obtain ⟨i, hi, ht⟩ := hlater t ht
      exact ⟨i, by omega, ht⟩
    · intro t ht
      obtain ⟨i, hi, ht⟩ := hlater t ht
      exact hstart.before ht (by omega)

/-- The tokens of a text stand in its order. -/
theorem pairwise_tokenize (file source : String) : (tokenize file source).Pairwise Token.Before := by
  rw [TokenStream.tokenize_eq]
  exact (ordered_ofCursor file (Nat.zero_le _) (TokenStream.ofSource_eq_ofCursor file source).symm).2

end

/-! ## Punctuation -/

/-- The kinds of token that an expression ends with. -/
def finishesExpression (k : Kind) : Prop :=
  k = .ident ∨ k = .int ∨ k = .kwTrue ∨ k = .kwFalse ∨ k = .rparen ∨ k = .rbrace

instance : DecidablePred finishesExpression := fun _ => inferInstanceAs (Decidable (_ ∨ _))

/-- Whether a node carries a token of a kind, behind a token of another kind.
Punctuation is not carried, with one exception: the parenthesis that opens the
arguments of a call. It is the one behind an expression; behind `fn` it opens
parameters, and anywhere else a group. -/
def isCarried (behind : Kind) : Kind → Bool
  | .semicolon | .comma | .rparen | .rbrace | .assign | .kwElse | .eof => false
  | .lparen => decide (finishesExpression behind)
  | _ => true

theorem isCarried_of_isInfix {k : Kind} (behind : Kind) (h : isInfix k) : isCarried behind k = true := by
  rcases h with rfl | rfl | rfl | rfl | rfl | rfl | rfl | rfl <;> rfl

theorem not_finishesExpression_of_isInfix {k : Kind} (h : isInfix k) : ¬ finishesExpression k := by
  rcases h with rfl | rfl | rfl | rfl | rfl | rfl | rfl | rfl <;> decide

/-- The tokens that nodes carry, behind a token of a kind. -/
def carriedBehind (behind : Kind) : List Token → List Token
  | [] => []
  | t :: ts =>
    if isCarried behind t.kind then t :: carriedBehind t.kind ts else carriedBehind t.kind ts

/-- The tokens of a text that the nodes of its program carry, if it has no
errors. A text begins like what follows a semicolon. -/
def carried (ts : List Token) : List Token := carriedBehind .semicolon ts

theorem carriedBehind_concat_eof {t : Token} (ht : t.kind = .eof) (k : Kind) (ts : List Token) :
    carriedBehind k (ts ++ [t]) = carriedBehind k ts := by
  induction ts generalizing k with
  | nil => simp [carriedBehind, ht, isCarried]
  | cons u us ih => simp only [List.cons_append, carriedBehind, ih]

namespace Parse

/-! ## No token twice -/

/-- The tokens read stand in front of those to come, as they do in `o`. -/
def InOrder (o s : TokenStream) (ps : List Leaf) (_ : List ParseError) : Prop :=
  s.final.kind = .eof ∧ (ps.filterMap Leaf.token? ++ s.pending).Sublist o.pending

theorem tally_inOrder (o : TokenStream) : Tally (InOrder o) where
  skip h := ⟨h.1, ((List.tail_sublist _).append_left _).trans h.2⟩
  take {s ps es} h hk := by
    obtain ⟨t, ts, hp⟩ := List.exists_cons_of_ne_nil (TokenStream.pending_ne_nil_of_kind h.1 rfl hk)
    have hc : s.current = t := by rw [TokenStream.current, hp, List.headD_cons]
    refine ⟨h.1, ?_⟩
    have ho := h.2
    rw [hp] at ho
    simpa [hc, hp, Leaf.token?] using ho
  report h _ := by simpa [InOrder, Leaf.token?, List.filterMap_cons] using h
  drop h hs := ⟨h.1, ((hs.filterMap _).append_right _).trans h.2⟩

/-! ## Which tokens -/

variable {s s' : TokenStream} {c k : Kind}

/-- What is still to be carried, as leaves, behind a token of a kind. -/
def ahead (behind : Kind) (s : TokenStream) : List Leaf := (carriedBehind behind s.pending).map .token

theorem ahead_take (hf : s.final.kind = .eof) (hk : s.current.kind = c) (hc : isCarried k c = true) :
    ahead k s = .token s.current :: ahead s.current.kind s.advance := by
  subst hk
  cases hp : s.pending with
  | nil =>
    rw [TokenStream.current, hp, List.headD_nil, hf] at hc
    cases hc
  | cons t ts => simp_all [ahead, carriedBehind, TokenStream.current]

theorem ahead_skip (hk : s.current.kind = c) (hc : isCarried k c = false) :
    ahead k s = ahead s.current.kind s.advance := by
  subst hk
  cases hp : s.pending with
  | nil => simp [ahead, hp, carriedBehind]
  | cons t ts => simp_all [ahead, carriedBehind, TokenStream.current]

/-- The same one token later. -/
theorem ahead_take_peek (hf : s.final.kind = .eof) (hk : s.peek.kind = c) (hc : isCarried k c = true) :
    ahead k s.advance = .token s.peek :: ahead s.advance.current.kind s.advance.advance :=
  ahead_take (s := s.advance) hf hk hc

theorem ahead_skip_peek (hk : s.peek.kind = c) (hc : isCarried k c = false) :
    ahead k s.advance = ahead s.advance.current.kind s.advance.advance :=
  ahead_skip (s := s.advance) hk hc

theorem ahead_afterSemicolon (s : TokenStream) :
    ahead (afterSemicolon s).current.kind (afterSemicolon s).advance = ahead s.current.kind s.advance := by
  unfold afterSemicolon
  split
  · next hk => exact (ahead_skip_peek hk rfl).symm
  · rfl

/-- If a token follows, then it follows an expression. -/
def Finished (s : TokenStream) : Prop := s.peek.kind ≠ .eof → finishesExpression s.current.kind

/-- The phrase ends as expressions do; operators do if what they go on with did. -/
def Phrase.Finished (s s' : TokenStream) : Phrase → Prop
  | .expression _ _ | .operand _ | .block _ => Parse.Finished s'
  | .operators _ _ _ | .alternative _ => Parse.Finished s → Parse.Finished s'
  | .expressions close _ => close = .rparen → Parse.Finished s'
  | _ => True

theorem Finished.of_kind (hk : s.current.kind = c) (hc : finishesExpression c) : Finished s :=
  fun _ => hk ▸ hc

theorem Reads.finished {φ : Phrase} (h : Reads φ s s') (hs : s.Ended) : φ.Finished s s' := by
  induction h with
  | name hk | int hk | yes hk | no hk => exact .of_kind hk (by decide)
  | expression h₁ _ ih₁ ih₂ => exact ih₂ (hs.onward h₁.onward) (ih₁ hs)
  | unary _ _ ih => exact ih hs.advance
  | group _ _ hr => exact .of_kind hr (by decide)
  | cond _ h₁ _ h₂ _ _ ihb iha =>
    have hs₁ := (hs.advance.onward h₁.onward).advance
    exact iha (hs₁.onward h₂.onward) (ihb hs₁)
  | fn _ _ h₁ _ _ _ ihb => exact ihb (hs.advance.onward h₁.onward).advance
  | stop | noAlternative => exact id
  | call _ _ h₁ _ ihe ih => exact fun _ => ih (hs.advance.onward h₁.onward) (ihe hs.advance rfl)
  | binary _ _ h₁ _ ihe ih =>
    exact fun _ => ih (hs.advance.advance.onward h₁.onward) (ihe hs.advance.advance)
  | noExpressions hk => exact fun hr => .of_kind (hk.trans hr) (by decide)
  | expressions _ _ _ hc => exact fun hr => .of_kind (hc.trans hr) (by decide)
  | block h₁ hk _ =>
    have hs' := hs.advance.onward h₁.onward
    rcases hk with hk | hk
    · exact .of_kind hk (by decide)
    · intro hne
      have hnil := List.map_eq_nil_iff.mp (hs'.kinds_of_eof hk)
      exact absurd (by rw [TokenStream.peek, hnil]; exact hs'.final) hne
  | alternative _ _ _ ih => exact fun _ => ih hs.advance.advance
  | lastExpression | moreExpressions | noParameters | parameters | lastParameter | moreParameters
  | binding | ret | plain | noStatements | statements => trivial

/-- A parenthesis at the current token, behind a token of a kind, opens a group. -/
def Opens (behind : Kind) (s : TokenStream) : Prop :=
  s.current.kind = .lparen → ¬ finishesExpression behind

theorem Opens.of_kind (hk : s.current.kind = c) (hc : ¬ finishesExpression c) : Opens s.current.kind s' :=
  fun _ => hk ▸ hc

theorem Opens.of_peek (hk : s.peek.kind = c) (hc : ¬ finishesExpression c) :
    Opens s.advance.current.kind s' := .of_kind (s := s.advance) hk hc

/-- Behind a statement starts another one. -/
theorem Reads.opens {x : Stmt} (h : Reads (.statement x) s s') : Opens s'.current.kind s'.advance := by
  have key : ∀ {s e s₁}, Reads (.expression .lowest e) s s₁ →
      Opens (afterSemicolon s₁).current.kind (afterSemicolon s₁).advance := by
    intro s e s₁ he
    unfold afterSemicolon
    split
    · next hk => exact .of_kind (s := s₁.advance) hk (by decide)
    · intro hl
      have hl : s₁.peek.kind = .lparen := hl
      have := he.expression_stop
      simp [hl, Kind.precedence, Precedence.level] at this
  cases h with
  | binding _ _ _ he | ret _ he | plain _ _ he => exact key he

/-- The phrase takes its leaves off those ahead. -/
def Phrase.Carried (s s' : TokenStream) : Phrase → Prop
  | .expression _ e | .operand e =>
    ∀ k, Opens k s → ahead k s = e.leaves ++ ahead s'.current.kind s'.advance
  | .operators _ left e => Parse.Finished s → left.leaves ++ ahead s.current.kind s.advance =
      e.leaves ++ ahead s'.current.kind s'.advance
  | .expressions close es => close = .rparen → s.current.kind = .lparen →
      ahead s.current.kind s.advance = leavesOfArguments es ++ ahead s'.current.kind s'.advance
  | .moreExpressions es =>
    ahead s.current.kind s.advance = leavesOfArguments es ++ ahead s'.current.kind s'.advance
  | .parameters ps | .moreParameters ps =>
    ahead s.current.kind s.advance = ps.map Name.leaf ++ ahead s'.current.kind s'.advance
  | .block b => s.current.kind = .lbrace →
    ∀ k, ahead k s = b.leaves ++ ahead s'.current.kind s'.advance
  | .alternative b =>
    ahead s.current.kind s.advance = leavesOfElse b ++ ahead s'.current.kind s'.advance
  | .statement x => ∀ k, Opens k s → ahead k s = x.leaves ++ ahead s'.current.kind s'.advance
  | .statements xs => s'.current.kind = .rbrace ∨ s'.current.kind = .eof → ∀ k, Opens k s →
    ahead k s = leavesOfItems xs ++ ahead s'.current.kind s'.advance

/-- The leaves of a phrase are the tokens of its stretch without the punctuation. -/
theorem Reads.carried {φ : Phrase} (h : Reads φ s s') (hs : s.Ended) : φ.Carried s s' := by
  induction h with
  | expression h₁ _ ih₁ ih₂ =>
    intro k hk
    rw [ih₁ hs k hk]
    exact ih₂ (hs.onward h₁.onward) (h₁.finished hs)
  | name hk | int hk | yes hk | no hk =>
    intro k _
    rw [ahead_take hs.final hk rfl]
    simp [Expr.leaves, Name.leaf, nameAt]
  | unary hk _ ih =>
    intro k _
    rcases hk with hk | hk <;>
    · rw [ahead_take hs.final hk rfl, ih hs.advance _ (.of_kind hk (by decide))]
      simp [Expr.leaves, leavesOfPart]
  | group hk _ hr ih =>
    intro k ho
    rw [ahead_skip hk (decide_eq_false (ho hk)), ih hs.advance _ (.of_kind hk (by decide)),
      ahead_skip_peek hr rfl]
  | cond hk h₁ hb h₂ _ ihc ihb iha =>
    intro k _
    have hs₁ := (hs.advance.onward h₁.onward).advance
    rw [ahead_take hs.final hk rfl, ihc hs.advance _ (.of_kind hk (by decide)), ihb hs₁ hb,
      iha (hs₁.onward h₂.onward)]
    simp [Expr.leaves]
  | fn hk hl h₁ hb _ ihp ihb =>
    intro k _
    have hs₁ := (hs.advance.onward h₁.onward).advance
    rw [ahead_take hs.final hk rfl, hk, ahead_skip_peek hl rfl, ihp hs.advance, ihb hs₁ hb]
    simp [Expr.leaves]
  | stop => exact fun _ => rfl
  | call _ hk h₁ _ ihe ih =>
    intro hfin
    have hc := hfin (by rw [hk]; decide)
    have hargs := ihe hs.advance rfl hk
    rw [← ih (hs.advance.onward h₁.onward) (h₁.finished hs.advance rfl),
      ahead_take_peek hs.final hk (decide_eq_true hc), hargs]
    simp [Expr.leaves]
  | binary hlt hk h₁ _ ihe ih =>
    intro _
    have hi := isInfix_of_level_lt hlt hk
    have hright := ihe hs.advance.advance _ (.of_peek rfl (not_finishesExpression_of_isInfix hi))
    rw [← ih (hs.advance.advance.onward h₁.onward) (h₁.finished hs.advance.advance),
      ahead_take_peek hs.final rfl (isCarried_of_isInfix _ hi), hright]
    simp [Expr.leaves, leavesOfPart]
  | noExpressions hk =>
    rintro rfl _
    exact ahead_skip_peek hk rfl
  | noParameters hk => exact ahead_skip_peek hk rfl
  | expressions hk h₁ h₂ hc ihe ih =>
    rintro rfl hl
    rw [ihe hs.advance _ (.of_kind hl (by decide)), ih (hs.advance.onward h₁.onward), ahead_skip_peek hc rfl]
    simp [leavesOfArguments]
  | lastExpression | lastParameter | noAlternative => exact rfl
  | moreExpressions hk h₁ _ ihe ih =>
    have hs₁ := hs.advance.advance.onward h₁.onward
    change _ = _
    rw [ahead_skip_peek hk rfl, ihe hs.advance.advance _ (.of_peek hk (by decide)), ih hs₁]
    simp [leavesOfArguments]
  | parameters hk _ hr ih =>
    change _ = _
    rw [ahead_take_peek hs.final hk rfl, ih hs.advance, ahead_skip_peek hr rfl]
    rfl
  | moreParameters hk hi _ ih =>
    change _ = _
    rw [ahead_skip_peek hk rfl, ahead_take_peek hs.advance.final hi rfl, ih hs.advance.advance]
    rfl
  | block h₁ hk ih =>
    intro hl k
    rw [ahead_take hs.final hl rfl, ih hs.advance hk _ (.of_kind hl (by decide))]
    simp [Block.leaves]
  | alternative hk hb _ ih =>
    change _ = _
    rw [ahead_skip_peek hk rfl, ih hs.advance.advance hb]
    rfl
  | binding hk hi ha _ ih =>
    intro k _
    rw [ahead_take hs.final hk rfl, ahead_take_peek hs.final hi rfl, ahead_skip_peek ha rfl,
      ih hs.advance.advance.advance _ (.of_peek ha (by decide)), ahead_afterSemicolon]
    rfl
  | ret hk _ ih =>
    intro k _
    rw [ahead_take hs.final hk rfl, ih hs.advance _ (.of_kind hk (by decide)), ahead_afterSemicolon]
    simp [Stmt.leaves, leavesOfPart]
  | plain hl hr _ ih =>
    intro k ho
    rw [ih hs k ho, ahead_afterSemicolon]
    simp [Stmt.leaves, leavesOfPlain]
  | noStatements =>
    intro hk k _
    rcases hk with hk | hk <;> exact ahead_skip hk rfl
  | statements h₁ _ ihx ih =>
    intro hk k ho
    rw [ihx hs k ho, ih (hs.onward h₁.onward).advance hk _ h₁.opens]
    simp [leavesOfItems]

/-- **No token is lost or used twice.** The tokens that the nodes of a program
carry are among those of its text, in the same order, and each stands further
on in the text than the one before it. Without errors none is missing but the
punctuation. -/
theorem parse_carried (file source : String) (limit : Nat) :
    (parse file source limit).program.tokens.Sublist (tokenize file source) ∧
    (parse file source limit).program.tokens.Pairwise Token.Before ∧
    ((parse file source limit).errors = [] →
      (parse file source limit).program.tokens = carried (tokenize file source)) := by
  have hs := TokenStream.ended_ofSource file source
  have htokens := TokenStream.tokenize_eq file source
  have h0 : InOrder (.ofSource file source) (.ofSource file source) [] [] := ⟨hs.final, by simp⟩
  have h := (tally_inOrder _).parse (fun h => h) file source limit h0
  have hsub : (parse file source limit).program.tokens.Sublist (tokenize file source) := by
    rw [htokens]
    exact ((List.sublist_append_left _ _).trans h.2).trans (List.sublist_append_left _ _)
  refine ⟨hsub, (pairwise_tokenize file source).sublist hsub, ?_⟩
  intro he
  have hr : (program limit (.ofSource file source)).errors = [] := he
  obtain ⟨hreads, heof⟩ := reads_of_errors_eq_nil hs.final hr
  have hleaves := hreads.carried hs (.inr heof) .semicolon (fun _ => by decide)
  have hrest : (program limit (.ofSource file source)).rest.pending = [] :=
    List.map_eq_nil_iff.mp ((hs.onward hreads.onward).kinds_of_eof heof)
  have hend : ahead .eof (program limit (.ofSource file source)).rest.advance = [] := by
    rw [ahead, TokenStream.pending_advance, hrest]
    rfl
  rw [heof, hend, List.append_nil] at hleaves
  calc (parse file source limit).program.tokens
      = (ahead .semicolon (.ofSource file source)).filterMap Leaf.token? := by rw [hleaves]; rfl
    _ = carriedBehind .semicolon (TokenStream.ofSource file source).pending := by
      rw [ahead, List.filterMap_map]
      exact List.filterMap_some
    _ = carried (tokenize file source) := by rw [htokens, carried, carriedBehind_concat_eof hs.final]

/-- Of the three opening parentheses only that of the call is carried. -/
theorem parse_carried_parentheses :
    (parse "demo" "fn(a) \x7b (a) \x7d(2, b);" 5).errors = [] ∧
    (parse "demo" "fn(a) \x7b (a) \x7d(2, b);" 5).program.tokens =
      carried (tokenize "demo" "fn(a) \x7b (a) \x7d(2, b);") ∧
    (carried (tokenize "demo" "fn(a) \x7b (a) \x7d(2, b);")).map (·.literal) =
      ["fn", "a", "\x7b", "a", "(", "2", "b"] ∧
    (carried (tokenize "demo" "fn(a) \x7b (a) \x7d(2, b);")).Pairwise Token.Before := by
  have he : (parse "demo" "fn(a) \x7b (a) \x7d(2, b);" 5).errors = [] := by decide
  obtain ⟨-, hbefore, htokens⟩ := parse_carried "demo" "fn(a) \x7b (a) \x7d(2, b);" 5
  have ht := htokens he
  exact ⟨he, ht, by decide, ht ▸ hbefore⟩

end Parse

end ExprLang
