/-
What is read is well-formed.

How a token is written follows from its kind: an identifier is a word that is
no keyword, an integer is digits, and any other token that a parser takes is
spelled in one way. All tokens of a source text are `Written` so. Carried
through the rules of reading this makes each tree that is read `WellFormed`,
and so is a program that is read without an error
(`Parse.wellFormed_of_errors_eq_nil`).
-/
import ExprLang.Proofs.Accepts
import ExprLang.Proofs.WellFormed

namespace ExprLang

/-! ## Tokens of a text -/

/-- The characters that tokens of a kind are written with. -/
def Kind.Writes : Kind → List Char → Prop
  | .illegal, _ | .eof, _ => True
  | .ident, cs => IsName cs
  | .int, cs => cs ≠ [] ∧ ∀ c ∈ cs, c.isDigit = true
  | k, cs => cs = k.spelling

theorem Kind.writes_spelling {k : Kind} (h : k.spelling ≠ []) : k.Writes k.spelling := by
  cases k <;> first | exact absurd rfl h | rfl

theorem Kind.Writes.eq_spelling {k : Kind} {cs : List Char} (h : k.Writes cs) (hk : k.spelling ≠ []) :
    cs = k.spelling := by
  cases k <;> first | exact absurd rfl hk | exact h

theorem Kind.toList_of_ofWord {w : String} (h : Kind.ofWord w ≠ .ident) :
    w.toList = (Kind.ofWord w).spelling := by
  unfold Kind.ofWord keywords at h ⊢
  simp only [List.lookup_cons, List.lookup_nil] at h ⊢
  repeat' split
  all_goals simp_all [Kind.spelling]

theorem Kind.writes_ofWord {c : Char} {cs : List Char} (h : ∀ d ∈ c :: cs, isWordChar d = true) :
    (Kind.ofWord (String.ofList (c :: cs))).Writes (c :: cs) := by
  by_cases hk : Kind.ofWord (String.ofList (c :: cs)) = .ident
  · rw [hk]
    exact ⟨by simp, h, hk⟩
  · have hs : c :: cs = (Kind.ofWord (String.ofList (c :: cs))).spelling :=
      String.toList_ofList.symm.trans (Kind.toList_of_ofWord hk)
    have := Kind.writes_spelling (k := Kind.ofWord (String.ofList (c :: cs))) (by rw [← hs]; simp)
    rwa [← hs] at this

theorem Kind.writes_ofSymbol? (c : Char) : ((Kind.ofSymbol? c).getD .illegal).Writes [c] := by
  unfold Kind.ofSymbol?
  split <;> first | rfl | trivial

/-- The token at the head of a text is written as its kind says. -/
theorem writes_lexeme (c : Char) (cs : List Char) : (lexeme (c :: cs)).1.Writes (lexeme (c :: cs)).2 := by
  simp only [lexeme]
  split
  · next hw =>
    exact Kind.writes_ofWord (List.forall_mem_cons.mpr ⟨hw, fun d hd => List.mem_takeWhile_imp hd⟩)
  · split
    · next hd =>
      exact ⟨by simp, List.forall_mem_cons.mpr ⟨hd, fun d hd => List.mem_takeWhile_imp hd⟩⟩
    · split
      · next hc => split <;> subst hc <;> rfl
      · split
        · next hc => split <;> subst hc <;> rfl
        · exact Kind.writes_ofSymbol? c

theorem Scans.writes {cs : List Char} {xs : List (Kind × List Char)} (h : Scans cs xs) :
    ∀ x ∈ xs, x.1.Writes x.2 := by
  induction h with
  | done => simp
  | blank _ _ ih => exact ih
  | token _ _ ih => exact List.forall_mem_cons.mpr ⟨writes_lexeme _ _, ih⟩

/-- A token that is written as its kind says. -/
def Token.Written (t : Token) : Prop := t.kind.Writes t.literal.toList

namespace Token.Written

variable {t : Token} {k : Kind}

theorem isName (h : t.Written) (hk : t.kind = .ident) : IsName t.literal.toList := by
  unfold Written at h
  rwa [hk] at h

theorem isNumber (h : t.Written) (hk : t.kind = .int)
    (hl : t.literal.toList.length ≤ Parse.digitLimit) : IsNumber t.literal.toList := by
  unfold Written at h
  rw [hk] at h
  exact ⟨h.1, h.2, hl⟩

theorem spelled (h : t.Written) (hk : t.kind = k) (hs : k.spelling ≠ []) : t.Spelled k := by
  subst hk
  exact ⟨rfl, by rw [← h.eq_spelling hs, String.ofList_toList]⟩

end Token.Written

/-! ## Streams -/

namespace TokenStream

/-- All tokens are written as their kinds say, and only the last one is an end token. -/
structure Written (s : TokenStream) : Prop where
  final : s.final.kind = .eof
  pending : ∀ t ∈ s.pending, t.Written

variable {s s' : TokenStream}

theorem written_ofSource (file source : String) : (ofSource file source).Written := by
  obtain ⟨xs, hxs⟩ := Scans.exists source.toList
  refine ⟨(ended_ofSource file source).final, fun t ht => hxs.writes t.lexeme ?_⟩
  rw [← (@lexemes_ofSource file _ _ hxs).1]
  exact List.mem_map_of_mem ht

namespace Written

theorem onward (h : s.Written) (ho : Parse.Onward s s') : s'.Written :=
  ⟨ho.kind_final h.final, fun t ht => h.pending t (ho.suffix.mem ht)⟩

theorem advance (h : s.Written) : s.advance.Written := h.onward (Parse.Onward.refl s).advance

theorem current (h : s.Written) : s.current.Written := by
  cases hp : s.pending with
  | nil => simp [TokenStream.current, hp, Token.Written, h.final, Kind.Writes]
  | cons t ts =>
    rw [TokenStream.current, hp]
    exact h.pending t (by simp [hp])

theorem peek (h : s.Written) : s.peek.Written := h.advance.current

end Written

end TokenStream

/-! ## Readings -/

namespace Parse

/-- The tree of a phrase that starts at `s` is well-formed; behind operators,
if what they go on with is, and of a block, if it starts with a brace. -/
def Phrase.WellFormed (s : TokenStream) : Phrase → Prop
  | .expression _ e | .operand e => e.WellFormed
  | .operators _ left e => left.WellFormed → e.WellFormed
  | .expressions _ es | .moreExpressions es => wellFormedArguments es
  | .parameters ps | .moreParameters ps => ∀ p ∈ ps, p.WellFormed
  | .block b => s.current.kind = .lbrace → b.WellFormed
  | .alternative b => wellFormedElse b
  | .statement x => x.WellFormed
  | .statements xs => wellFormedItems xs

variable {s s' : TokenStream}

theorem wellFormed_nameAt (h : s.Written) (hk : s.current.kind = .ident) : (nameAt s).WellFormed :=
  ⟨h.current.isName hk, hk, rfl⟩

/-- What is read from tokens of a text is well-formed. -/
theorem Reads.wellFormed {φ : Phrase} (h : Reads φ s s') (hs : s.Written) : φ.WellFormed s := by
  induction h with
  | expression h₁ _ ih₁ ih₂ => exact ih₂ (hs.onward h₁.onward) (ih₁ hs)
  | name hk => exact wellFormed_nameAt hs hk
  | int hk hl => exact ⟨hk, hs.current.isNumber hk hl, rfl⟩
  | yes hk | no hk => exact hs.current.spelled hk (by decide)
  | unary hk _ ih =>
    exact ⟨hk, hs.current.spelled rfl (by rcases hk with hk | hk <;> simp [hk, Kind.spelling]), rfl,
      ih hs.advance⟩
  | group _ _ _ ih => exact ih hs.advance
  | cond hk h₁ hb h₂ _ ihc ihb iha =>
    have hs₁ := (hs.advance.onward h₁.onward).advance
    exact ⟨hs.current.spelled hk (by decide), ihc hs.advance, ihb hs₁ hb, iha (hs₁.onward h₂.onward)⟩
  | fn hk _ h₁ hb _ ihp ihb =>
    exact ⟨hs.current.spelled hk (by decide), ihp hs.advance,
      ihb (hs.advance.onward h₁.onward).advance hb⟩
  | stop => exact id
  | call _ hk h₁ _ ihe ih =>
    exact fun hl => ih (hs.advance.onward h₁.onward)
      ⟨hs.peek.spelled hk (by decide), hl, ihe hs.advance⟩
  | binary hl hk h₁ _ ihe ih =>
    have hi := isInfix_of_level_lt hl hk
    refine fun hw => ih (hs.advance.advance.onward h₁.onward)
      ⟨hi, hs.peek.spelled rfl ?_, rfl, hw, ihe hs.advance.advance⟩
    rcases hi with h | h | h | h | h | h | h | h <;> simp [h, Kind.spelling]
  | noExpressions | lastExpression | noStatements | noAlternative => trivial
  | expressions _ h₁ _ _ ihe ih => exact ⟨ihe hs.advance, ih (hs.advance.onward h₁.onward)⟩
  | moreExpressions _ h₁ _ ihe ih =>
    exact ⟨ihe hs.advance.advance, ih (hs.advance.advance.onward h₁.onward)⟩
  | noParameters | lastParameter => simp [Phrase.WellFormed]
  | parameters hk _ _ ih =>
    exact List.forall_mem_cons.mpr ⟨wellFormed_nameAt hs.advance hk, ih hs.advance⟩
  | moreParameters _ hi _ ih =>
    exact List.forall_mem_cons.mpr ⟨wellFormed_nameAt hs.advance.advance hi, ih hs.advance.advance⟩
  | block _ _ ih => exact fun hk => ⟨hs.current.spelled hk (by decide), ih hs.advance⟩
  | alternative _ hb _ ih => exact ih hs.advance.advance hb
  | binding hk hi _ _ ih =>
    exact ⟨hs.current.spelled hk (by decide), wellFormed_nameAt hs.advance hi,
      ih hs.advance.advance.advance⟩
  | ret hk _ ih => exact ⟨hs.current.spelled hk (by decide), ih hs.advance⟩
  | plain _ _ _ ih => exact ih hs
  | statements h₁ _ ihx ih => exact ⟨ihx hs, ih (hs.onward h₁.onward).advance⟩

/-- **What is read without an error is well-formed.** -/
theorem wellFormed_of_errors_eq_nil {file source : String} {limit : Nat}
    (h : (parse file source limit).errors = []) : (parse file source limit).program.WellFormed := by
  have hs := TokenStream.written_ofSource file source
  exact wellFormedItems_iff.mp ((reads_of_errors_eq_nil hs.final h).1.wellFormed hs)

end Parse

end ExprLang
