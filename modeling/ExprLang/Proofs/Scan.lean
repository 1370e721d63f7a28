/-
What a text is scanned as, without the places of its tokens.

`Scans cs xs` says that the characters `cs` are blanks and the tokens `xs`.
Every text scans (`Scans.exists`), and a cursor over it yields just these
tokens and then the end token, for ever (`Scans.take_eq`). So the stream of a
source text is `Ended`: no token before its end is an end token.
-/
import ExprLang.Proofs.Run

namespace ExprLang

/-! ## One token -/

/-- A token without its place. -/
def Token.lexeme (t : Token) : Kind × List Char := (t.kind, t.literal.toList)

theorem Kind.ofWord_ne_eof (w : String) : Kind.ofWord w ≠ .eof := by
  unfold Kind.ofWord keywords
  simp only [List.lookup_cons, List.lookup_nil]
  repeat' split
  all_goals simp

theorem Kind.ofSymbol?_ne_eof (c : Char) : (Kind.ofSymbol? c).getD .illegal ≠ .eof := by
  unfold Kind.ofSymbol?
  split <;> simp

/-- The token at the head of a text is a word, a number, or one or two other characters. -/
theorem lexeme_cases (c : Char) (cs : List Char) :
    (isWordChar c = true ∧ lexeme (c :: cs) =
      (.ofWord (String.ofList (c :: cs.takeWhile isWordChar)), c :: cs.takeWhile isWordChar)) ∨
    (isWordChar c = false ∧ c.isDigit = true ∧
      lexeme (c :: cs) = (.int, c :: cs.takeWhile Char.isDigit)) ∨
    (∃ k ds, cs = '=' :: ds ∧ k ≠ .eof ∧ lexeme (c :: cs) = (k, [c, '='])) ∨
    (∃ k, k ≠ .eof ∧ lexeme (c :: cs) = (k, [c])) := by
  have twice : ∀ {k k' : Kind}, k ≠ .eof → k' ≠ .eof →
      lexeme (c :: cs) = (if cs.head? = some '=' then (k, [c, '=']) else (k', [c])) →
      (∃ k ds, cs = '=' :: ds ∧ k ≠ .eof ∧ lexeme (c :: cs) = (k, [c, '='])) ∨
      (∃ k, k ≠ .eof ∧ lexeme (c :: cs) = (k, [c])) := by
    intro k k' hk hk' hl
    split at hl
    · next he =>
      obtain ⟨ds, rfl⟩ := List.head?_eq_some_iff.mp he
      exact .inl ⟨k, ds, rfl, hk, hl⟩
    · exact .inr ⟨k', hk', hl⟩
  cases hw : isWordChar c with
  | true => simp [lexeme, hw]
  | false =>
  cases hd : c.isDigit with
  | true => simp [lexeme, hw, hd]
  | false =>
  refine .inr (.inr ?_)
  by_cases he : c = '='
  · subst he
    exact @twice .eq .assign (by simp) (by simp) rfl
  · by_cases hb : c = '!'
    · subst hb
      exact @twice .notEq .bang (by simp) (by simp) rfl
    · exact .inr ⟨_, Kind.ofSymbol?_ne_eof c, by simp [lexeme, hw, hd, he, hb]⟩

theorem lexeme_ne_eof (c : Char) (cs : List Char) : (lexeme (c :: cs)).1 ≠ .eof := by
  rcases lexeme_cases c cs with ⟨-, h⟩ | ⟨-, -, h⟩ | ⟨k, ds, -, hk, h⟩ | ⟨k, hk, h⟩ <;> rw [h]
  · exact Kind.ofWord_ne_eof _
  · simp
  · exact hk
  · exact hk

/-- A token takes at least one character. -/
theorem length_lexeme_pos (c : Char) (cs : List Char) : 0 < (lexeme (c :: cs)).2.length := by
  rcases lexeme_cases c cs with ⟨-, h⟩ | ⟨-, -, h⟩ | ⟨k, ds, -, -, h⟩ | ⟨k, -, h⟩ <;> simp [h]

/-- A token is written with the characters at the head of the text. -/
theorem lexeme_leads (c : Char) (cs : List Char) : (lexeme (c :: cs)).2 <+: c :: cs := by
  rcases lexeme_cases c cs with ⟨-, h⟩ | ⟨-, -, h⟩ | ⟨k, ds, rfl, -, h⟩ | ⟨k, -, h⟩ <;> rw [h]
  · exact List.cons_prefix_cons.mpr ⟨rfl, List.takeWhile_prefix _⟩
  · exact List.cons_prefix_cons.mpr ⟨rfl, List.takeWhile_prefix _⟩
  · exact ⟨ds, rfl⟩
  · exact ⟨cs, rfl⟩

theorem isWordChar_of_isDigit {c : Char} (h : c.isDigit = true) : isWordChar c = false := by
  have hne : c ≠ '_' := by rintro rfl; simp at h
  simp only [Char.isDigit, Bool.and_eq_true, decide_eq_true_eq, ge_iff_le, UInt32.le_iff_toNat_le] at h
  have h9 : c.val.toNat ≤ 57 := h.2
  have hU : c.isUpper = false := by
    change decide (65 ≤ c.val ∧ c.val ≤ 90) = false
    rw [decide_eq_false_iff_not, UInt32.le_iff_toNat_le]
    rintro ⟨hA, -⟩
    have : 65 ≤ c.val.toNat := hA
    omega
  have hL : c.isLower = false := by
    change (decide (97 ≤ c.val) && decide (c.val ≤ 122)) = false
    rw [← Bool.not_eq_true, Bool.and_eq_true, decide_eq_true_eq, UInt32.le_iff_toNat_le]
    rintro ⟨ha, -⟩
    have : 97 ≤ c.val.toNat := ha
    omega
  change ((c.isUpper || c.isLower) || decide (c = '_')) = false
  simp [hU, hL, hne]

theorem isBlank_eq_false {c : Char} (h : isWordChar c = true ∨ c.isDigit = true) : isBlank c = false := by
  cases hb : isBlank c with
  | false => rfl
  | true =>
    simp only [isBlank, Bool.or_eq_true, decide_eq_true_eq] at hb
    rcases hb with ((rfl | rfl) | rfl) | rfl <;> simp [isWordChar] at h

/-! ## Texts -/

/-- The text `cs` is the tokens `xs`, with blanks around and between them. -/
inductive Scans : List Char → List (Kind × List Char) → Prop
  | done : Scans [] []
  | blank : isBlank c = true → Scans cs xs → Scans (c :: cs) xs
  | token : isBlank c = false → Scans ((c :: cs).drop (lexeme (c :: cs)).2.length) xs →
      Scans (c :: cs) (lexeme (c :: cs) :: xs)

/-- Every text scans. -/
theorem Scans.exists (cs : List Char) : ∃ xs, Scans cs xs := by
  induction hn : cs.length using Nat.strongRecOn generalizing cs with
  | ind n ih =>
  cases cs with
  | nil => exact ⟨[], .done⟩
  | cons c cs =>
    subst hn
    cases hb : isBlank c with
    | true =>
      obtain ⟨xs, hxs⟩ := ih cs.length (by simp) cs rfl
      exact ⟨xs, .blank hb hxs⟩
    | false =>
      have hpos := length_lexeme_pos c cs
      have hlt : ((c :: cs).drop (lexeme (c :: cs)).2.length).length < (c :: cs).length := by
        simp only [List.length_drop, List.length_cons]
        omega
      obtain ⟨xs, hxs⟩ := ih _ hlt _ rfl
      exact ⟨_, .token hb hxs⟩

/-- A text scans in one way. -/
theorem Scans.unique {cs : List Char} {xs ys : List (Kind × List Char)} (hx : Scans cs xs)
    (hy : Scans cs ys) : xs = ys := by
  induction hx generalizing ys with
  | done => cases hy; rfl
  | blank hb _ ih =>
    cases hy with
    | blank _ h => exact ih h
    | token hn _ => simp [hb] at hn
  | token hb _ ih =>
    cases hy with
    | blank hn _ => simp [hb] at hn
    | token _ h => rw [ih h]

/-- A text that is one token. -/
theorem Scans.whole {k : Kind} {c : Char} {cs : List Char} (hb : isBlank c = false)
    (h : lexeme (c :: cs) = (k, c :: cs)) : Scans (c :: cs) [(k, c :: cs)] := by
  rw [← h]
  exact .token hb (by simpa [h] using .done)

theorem Scans.ne_eof {cs : List Char} {xs : List (Kind × List Char)} (h : Scans cs xs) :
    ∀ x ∈ xs, x.1 ≠ .eof := by
  induction h with
  | done => simp
  | blank _ _ ih => exact ih
  | token _ _ ih => exact List.forall_mem_cons.mpr ⟨lexeme_ne_eof _ _, ih⟩

/-- The characters of the tokens are among those of the text, in their order. -/
theorem Scans.sublist {cs : List Char} {xs : List (Kind × List Char)} (h : Scans cs xs) :
    (xs.flatMap Prod.snd).Sublist cs := by
  induction h with
  | done => exact List.Sublist.refl _
  | blank _ _ ih => exact ih.cons _
  | @token c cs xs _ _ ih =>
    rw [List.flatMap_cons]
    have hsplit := List.prefix_iff_eq_append.mp (lexeme_leads c cs)
    have happ := ih.append_left (lexeme (c :: cs)).2
    rw [hsplit] at happ
    exact happ

/-! ## Texts side by side -/

/-- The last token of `cs` does not run on into `ds`. -/
def Apart (cs ds : List Char) : Prop :=
  ∀ c ∈ cs.getLast?, ∀ d ∈ ds.head?, ¬ (isWordChar c = true ∧ isWordChar d = true) ∧
    ¬ (c.isDigit = true ∧ d.isDigit = true) ∧ ¬ ((c = '=' ∨ c = '!') ∧ d = '=')

/-- A run of characters that ends before the text does, or with a character
that does not go with the next one, ends there too. -/
theorem takeWhile_append {p : Char → Bool} {c : Char} {cs ds : List Char} (hc : p c = true)
    (h : (cs.takeWhile p).length < cs.length ∨
      ∀ l ∈ (c :: cs).getLast?, ∀ d ∈ ds.head?, ¬ (p l = true ∧ p d = true)) :
    (cs ++ ds).takeWhile p = cs.takeWhile p := by
  induction cs generalizing c with
  | nil =>
    cases ds with
    | nil => rfl
    | cons d ds =>
      have hd := h.resolve_left (by simp) c rfl d rfl
      simp only [hc, true_and] at hd
      simp [hd]
  | cons e cs ih =>
    by_cases he : p e = true
    · have := ih he (h.imp (fun h => by simpa [he] using h) fun h => by simpa using h)
      simp [he, this]
    · simp [he]

/-- A token that ends before the text does, or is apart from what follows, ends there too. -/
theorem lexeme_append {c : Char} {cs ds : List Char}
    (h : (lexeme (c :: cs)).2.length < (c :: cs).length ∨ Apart (c :: cs) ds) :
    lexeme (c :: (cs ++ ds)) = lexeme (c :: cs) := by
  cases hw : isWordChar c with
  | true =>
    have hl : (lexeme (c :: cs)).2 = c :: cs.takeWhile isWordChar := by simp [lexeme, hw]
    have := @takeWhile_append _ _ _ ds hw (h.imp (by simp [hl]) fun h l hl d hd => (h l hl d hd).1)
    simp [lexeme, hw, this]
  | false =>
  cases hd : c.isDigit with
  | true =>
    have hl : (lexeme (c :: cs)).2 = c :: cs.takeWhile Char.isDigit := by simp [lexeme, hw, hd]
    have := @takeWhile_append _ _ _ ds hd (h.imp (by simp [hl]) fun h l hl d hd => (h l hl d hd).2.1)
    simp [lexeme, hw, hd, this]
  | false =>
  by_cases hc : c = '=' ∨ c = '!'
  · have hhead : (cs ++ ds).head? = some '=' ↔ cs.head? = some '=' := by
      cases cs with
      | cons d cs => simp
      | nil =>
        have hap := h.resolve_left (by rcases hc with rfl | rfl <;> simp [lexeme, isWordChar])
        simp only [List.nil_append, List.head?_nil, reduceCtorEq, iff_false]
        exact fun he => (hap c rfl '=' he).2.2 ⟨hc, rfl⟩
    rcases hc with rfl | rfl <;> simp only [lexeme, hw, hd, hhead, Bool.false_eq_true, if_false]
  · simp only [not_or] at hc
    simp [lexeme, hw, hd, hc]

theorem Apart.drop {cs ds : List Char} (h : Apart cs ds) (n : Nat) : Apart (cs.drop n) ds := by
  intro l hl
  refine h l ?_
  rw [List.getLast?_drop] at hl
  split at hl
  · simp at hl
  · exact hl

theorem Apart.congr {cs ds ds' : List Char} (h : Apart cs ds) (hd : ds'.head? = ds.head?) :
    Apart cs ds' := fun l hl d hd' => h l hl d (hd ▸ hd')

/-- Texts that are apart scan as the tokens of both. -/
theorem Scans.append {cs ds : List Char} {xs ys : List (Kind × List Char)} (hx : Scans cs xs)
    (hy : Scans ds ys) (h : Apart cs ds) : Scans (cs ++ ds) (xs ++ ys) := by
  induction hx with
  | done => exact hy
  | @blank c cs xs hb _ ih => exact .blank hb (ih (h.drop 1))
  | @token c cs xs hb _ ih =>
    have hl := lexeme_append (.inr h)
    have hle := (lexeme_leads c cs).length_le
    have hr := ih (h.drop _)
    rw [← List.drop_append_of_le_length hle] at hr
    simp only [List.cons_append] at hr ⊢
    rw [← hl] at hr ⊢
    exact .token hb hr

/-- A character that no token starting with another one goes on with, and
that is no start of a longer one. -/
def Lone (c : Char) : Prop := isWordChar c = false ∧ c.isDigit = false ∧ c ≠ '=' ∧ c ≠ '!'

instance : DecidablePred Lone := fun _ => inferInstanceAs (Decidable (_ ∧ _))

theorem Lone.apart_left {c : Char} {cs : List Char} (h : Lone c) (hc : cs.getLast? = some c)
    (ds : List Char) : Apart cs ds := by
  obtain ⟨hw, hd, he, hb⟩ := h
  intro l hl
  obtain rfl : c = l := Option.some.inj (hc.symm.trans hl)
  simp [hw, hd, he, hb]

theorem Lone.apart_right {c : Char} (h : Lone c) (cs ds : List Char) : Apart cs (c :: ds) := by
  obtain ⟨hw, hd, he, -⟩ := h
  intro l _ d hd'
  obtain rfl : c = d := by simpa using hd'
  simp [hw, hd, he]

/-- A text scans in front of a lone character as it does by itself. -/
theorem Scans.append_lone {c : Char} {cs ds : List Char} {xs ys : List (Kind × List Char)}
    (hx : Scans cs xs) (hc : Lone c) (hy : Scans (c :: ds) ys) : Scans (cs ++ c :: ds) (xs ++ ys) :=
  hx.append hy (hc.apart_right cs ds)

/-! ## Spellings -/

/-- How the tokens of a kind are written; empty where that is not fixed. -/
def Kind.spelling : Kind → List Char
  | .illegal | .eof | .ident | .int => []
  | .assign => ['=']
  | .plus => ['+']
  | .minus => ['-']
  | .asterisk => ['*']
  | .slash => ['/']
  | .eq => ['=', '=']
  | .notEq => ['!', '=']
  | .lt => ['<']
  | .gt => ['>']
  | .bang => ['!']
  | .comma => [',']
  | .semicolon => [';']
  | .lparen => ['(']
  | .rparen => [')']
  | .lbrace => ['\x7b']
  | .rbrace => ['\x7d']
  | .kwFn => ['f', 'n']
  | .kwLet => ['l', 'e', 't']
  | .kwIf => ['i', 'f']
  | .kwElse => ['e', 'l', 's', 'e']
  | .kwTrue => ['t', 'r', 'u', 'e']
  | .kwFalse => ['f', 'a', 'l', 's', 'e']
  | .kwReturn => ['r', 'e', 't', 'u', 'r', 'n']

theorem scans_spelling {k : Kind} (h : k.spelling ≠ []) : Scans k.spelling [(k, k.spelling)] := by
  cases k <;> first | exact absurd rfl h | exact .token (by decide) .done

/-- The token of a kind whose spelling is fixed. -/
def Kind.lexeme (k : Kind) : Kind × List Char := (k, k.spelling)

theorem scans_cons {k : Kind} {c : Char} {cs : List Char} {xs : List (Kind × List Char)}
    (hk : k.spelling = [c]) (hc : Lone c) (h : Scans cs xs) : Scans (c :: cs) (k.lexeme :: xs) := by
  have := scans_spelling (k := k) (by simp [hk])
  rw [hk] at this
  simpa [Kind.lexeme, hk] using this.append h (hc.apart_left rfl cs)

/-! ## Cursors -/

namespace Cursor

@[simp] theorem rest_advance (c : Cursor) : c.advance.rest = c.rest.tail := by
  unfold advance
  split
  · next h => simp [h]
  · next h => split <;> simp [h]

@[simp] theorem rest_advanceBy (n : Nat) (c : Cursor) : (advanceBy n c).rest = c.rest.drop n := by
  induction n generalizing c with
  | zero => rfl
  | succ n ih => rw [advanceBy, ih, rest_advance, List.drop_tail]

@[simp] theorem rest_skipBlanks (c : Cursor) : c.skipBlanks.rest = c.rest.dropWhile isBlank := by
  have h : c.rest.takeWhile isBlank ++ c.rest.dropWhile isBlank = c.rest :=
    List.takeWhile_append_dropWhile
  rw [skipBlanks, rest_advanceBy]
  exact (congrArg _ h.symm).trans List.drop_left

theorem lexeme_next (c : Cursor) : c.next.1.lexeme = ExprLang.lexeme (c.rest.dropWhile isBlank) := by
  simp [next, token, Token.lexeme]

theorem kind_next (c : Cursor) : c.next.1.kind = (ExprLang.lexeme (c.rest.dropWhile isBlank)).1 := by
  rw [← c.lexeme_next, Token.lexeme]

end Cursor

/-- A cursor yields the tokens that its text scans as, and then the end token. -/
theorem Scans.take_eq {cs : List Char} {xs : List (Kind × List Char)} (h : Scans cs xs) {n : Nat}
    (hn : cs.length ≤ n) {c : Cursor} (hc : c.rest.dropWhile isBlank = cs.dropWhile isBlank) :
    (c.take n).1.map Token.lexeme = xs ∧ (c.take n).2.next.1.lexeme = (.eof, []) := by
  induction h generalizing n c with
  | done =>
    have hl : c.next.1.lexeme = (.eof, []) := by simp [c.lexeme_next, hc, lexeme]
    have hk : c.next.1.kind = .eof := congrArg Prod.fst hl
    cases n <;> simp [Cursor.take, hk, hl]
  | blank hb _ ih =>
    refine ih (by simp at hn; omega) ?_
    rw [hc, List.dropWhile_cons_of_pos hb]
  | @token b cs xs hb _ ih =>
    have hpos := length_lexeme_pos b cs
    obtain ⟨n, rfl⟩ : ∃ m, n = m + 1 := ⟨n - 1, by simp at hn; omega⟩
    have hl : c.rest.dropWhile isBlank = b :: cs := by
      rw [hc, List.dropWhile_cons_of_neg (by simp [hb])]
    have hk : c.next.1.kind ≠ .eof := by rw [c.kind_next, hl]; exact lexeme_ne_eof b cs
    have hr : c.next.2.rest = (b :: cs).drop (lexeme (b :: cs)).2.length := by
      simp [Cursor.next, hl, Nat.max_eq_left hpos]
    have hlt : ((b :: cs).drop (lexeme (b :: cs)).2.length).length ≤ n := by
      simp only [List.length_drop, List.length_cons] at hn ⊢
      omega
    obtain ⟨ht, he⟩ := ih hlt (congrArg _ hr)
    simp only [Cursor.take, if_neg hk, List.map_cons, ht, he, c.lexeme_next, hl, and_self]

/-! ## Streams -/

namespace TokenStream

/-- Only the last token is an end token. -/
structure Ended (s : TokenStream) : Prop where
  final : s.final.kind = .eof
  pending : ∀ t ∈ s.pending, t.kind ≠ .eof

theorem lexemes_ofSource {file source : String} {xs : List (Kind × List Char)}
    (h : Scans source.toList xs) :
    (ofSource file source).pending.map Token.lexeme = xs ∧
      (ofSource file source).final.lexeme = (.eof, []) :=
  h.take_eq (Nat.le_refl _) rfl

theorem literals_sublist (file source : String) :
    ((ofSource file source).pending.flatMap (·.literal.toList)).Sublist source.toList := by
  obtain ⟨xs, hxs⟩ := Scans.exists source.toList
  have h := hxs.sublist
  rw [← (@lexemes_ofSource file _ _ hxs).1, List.flatMap_map] at h
  exact h

theorem ended_ofSource (file source : String) : (ofSource file source).Ended := by
  obtain ⟨xs, hxs⟩ := Scans.exists source.toList
  obtain ⟨hp, hf⟩ := @lexemes_ofSource file _ _ hxs
  refine ⟨congrArg Prod.fst hf, fun t ht => hxs.ne_eof t.lexeme ?_⟩
  rw [← hp]
  exact List.mem_map_of_mem ht

theorem tokenize_eq (file source : String) :
    tokenize file source = (ofSource file source).pending ++ [(ofSource file source).final] := by
  simp only [ofSource, tokenize, Cursor.drain]

theorem pending_ofSource (file source : String) :
    (ofSource file source).pending = (tokenize file source).dropLast := by
  rw [tokenize_eq, List.dropLast_concat]

end TokenStream

end ExprLang
