/-
How a text divides into blanks and tokens.

`Divided cs xs` says what a division is without a scanner: blanks and tokens
take turns and leave nothing out, each token is written as its kind asks
(`Kind.Fits`), and none of them could have been longer (`RunsOn`). A text has
exactly one division (`divided_iff_scans`), and it is the one that `tokenize`
finds (`tokenize_divided`).
-/
import Mathlib.Data.List.TakeWhile
import ExprLang.Proofs.Scan

namespace ExprLang

/-! ## What tokens look like -/

/-- The operators and delimiters, each of which is spelled in one way. -/
def Kind.marks : List Kind :=
  [.assign, .plus, .minus, .asterisk, .slash, .eq, .notEq, .lt, .gt, .bang, .comma, .semicolon,
   .lparen, .rparen, .lbrace, .rbrace]

/-- Tokens of a kind may be written with these characters. -/
inductive Kind.Fits : Kind → List Char → Prop
  | word : cs ≠ [] → (∀ c ∈ cs, isWordChar c = true) → Fits (.ofWord (String.ofList cs)) cs
  | digits : cs ≠ [] → (∀ c ∈ cs, c.isDigit = true) → Fits .int cs
  | mark : k ∈ marks → Fits k k.spelling
  | stray : isWordChar c = false → c.isDigit = false → isBlank c = false →
      (∀ k ∈ marks, k.spelling ≠ [c]) → Fits .illegal [c]

/-- A token that would have taken in the character behind it. -/
def RunsOn (x : Kind × List Char) (d : Char) : Prop :=
  ((∀ c ∈ x.2, isWordChar c = true) ∧ isWordChar d = true) ∨ (x.1 = .int ∧ d.isDigit = true) ∨
    ((x.1 = .assign ∨ x.1 = .bang) ∧ d = '=')

/-- The text `cs` is the tokens `xs`, with blanks in front of, between and
behind them, and no token could have been longer. -/
inductive Divided : List Char → List (Kind × List Char) → Prop
  | last : (∀ c ∈ ws, isBlank c = true) → Divided ws []
  | token : (∀ c ∈ ws, isBlank c = true) → x.1.Fits x.2 → (∀ d ∈ cs.head?, ¬ RunsOn x d) →
      Divided cs xs → Divided (ws ++ x.2 ++ cs) (x :: xs)

variable {k k' : Kind} {c d : Char} {cs : List Char} {x : Kind × List Char}
  {xs ys : List (Kind × List Char)}

namespace Kind

theorem spelling_of_mem_marks : ∀ k ∈ marks, k.spelling ≠ [] ∧
    ∀ c ∈ k.spelling, isWordChar c = false ∧ c.isDigit = false ∧ isBlank c = false := by
  have key : ∀ k ∈ marks, k.spelling ≠ [] ∧
      (k.spelling.all fun c => !isWordChar c && !c.isDigit && !isBlank c) = true := by decide
  intro k hk
  obtain ⟨hne, hall⟩ := key k hk
  refine ⟨hne, fun c hc => ?_⟩
  have h := List.all_eq_true.mp hall c hc
  simpa [and_assoc] using h

theorem spelling_injOn_marks : ∀ k ∈ marks, ∀ k' ∈ marks, k.spelling = k'.spelling → k = k' := by decide

theorem ofSymbol?_eq_some (h : ofSymbol? c = some k) : k ∈ marks ∧ k.spelling = [c] := by
  unfold ofSymbol? at h
  split at h <;> cases h <;> decide

theorem ofSymbol?_eq_none (h : ofSymbol? c = none) (he : c ≠ '=') (hb : c ≠ '!') :
    ∀ k ∈ marks, k.spelling ≠ [c] := by
  intro k hk hs
  have hall : ∀ k ∈ marks, ∀ c, k.spelling = [c] → c = '=' ∨ c = '!' ∨ (ofSymbol? c).isSome := by
    simp [marks, spelling, ofSymbol?]
  rcases hall k hk c hs with h' | h' | h'
  · exact he h'
  · exact hb h'
  · rw [h] at h'
    cases h'

theorem ofSymbol?_eq_none_of_forall (h : ∀ k ∈ marks, k.spelling ≠ [c]) : ofSymbol? c = none := by
  cases hs : ofSymbol? c with
  | none => rfl
  | some k => exact absurd (ofSymbol?_eq_some hs).2 (h k (ofSymbol?_eq_some hs).1)

/-- The kinds of words are none of the kinds with a rule of their own. -/
theorem ofWord_ne (w : String) : ofWord w ≠ .int ∧ ofWord w ≠ .assign ∧ ofWord w ≠ .bang := by
  unfold ofWord keywords
  simp only [List.lookup_cons, List.lookup_nil]
  repeat' split
  all_goals simp

theorem ofSymbol?_ne (c : Char) : (ofSymbol? c).getD .illegal ≠ .int ∧
    (ofSymbol? c).getD .illegal ≠ .assign ∧ (ofSymbol? c).getD .illegal ≠ .bang := by
  unfold ofSymbol?
  split <;> simp

/-- **How a token is written says what kind it is of.** -/
theorem Fits.unique (h : k.Fits cs) (h' : k'.Fits cs) : k = k' := by
  have hmark : ∀ {k : Kind} {p : Char → Bool}, k ∈ marks → (∀ c ∈ k.spelling, p c = true) →
      (∀ c, p c = true → isWordChar c = true ∨ c.isDigit = true) → False := by
    intro k p hk hp hpc
    obtain ⟨hne, hs⟩ := spelling_of_mem_marks k hk
    obtain ⟨c, cs, hc⟩ := List.exists_cons_of_ne_nil hne
    have hc : c ∈ k.spelling := by rw [hc]; exact List.mem_cons_self
    have := hs c hc
    have := hpc c (hp c hc)
    simp_all
  have hmixed : cs ≠ [] → (∀ c ∈ cs, isWordChar c = true) → (∀ c ∈ cs, c.isDigit = true) → False := by
    intro hne hw hd
    obtain ⟨c, cs, rfl⟩ := List.exists_cons_of_ne_nil hne
    have hw := hw c List.mem_cons_self
    rw [isWordChar_of_isDigit (hd c List.mem_cons_self)] at hw
    cases hw
  generalize hcs : cs = cs' at h'
  cases h with
  | word hne hw =>
    cases h' with
    | word => rw [hcs]
    | digits _ hd => subst hcs; exact (hmixed hne hw hd).elim
    | mark hk => subst hcs; exact (hmark hk hw fun _ h => .inl h).elim
    | stray hw' => subst hcs; simp [hw'] at hw
  | digits hne hd =>
    cases h' with
    | word _ hw => subst hcs; exact (hmixed hne hw hd).elim
    | digits => rfl
    | mark hk => subst hcs; exact (hmark hk hd fun _ h => .inr h).elim
    | stray _ hd' => subst hcs; simp [hd'] at hd
  | mark hk =>
    cases h' with
    | word _ hw => subst hcs; exact (hmark hk hw fun _ h => .inl h).elim
    | digits _ hd => subst hcs; exact (hmark hk hd fun _ h => .inr h).elim
    | mark hk' => exact spelling_injOn_marks _ hk _ hk' hcs
    | stray _ _ _ hs => exact (hs _ hk hcs).elim
  | stray hw hd hb hs =>
    cases h' with
    | word _ hw' => subst hcs; simp [hw] at hw'
    | digits _ hd' => subst hcs; simp [hd] at hd'
    | mark hk' => exact (hs _ hk' hcs.symm).elim
    | stray => rfl

end Kind

/-! ## The token at the head of a text -/

/-- A token is written as its kind asks. -/
theorem fits_lexeme (hb : isBlank c = false) : (lexeme (c :: cs)).1.Fits (lexeme (c :: cs)).2 := by
  simp only [lexeme]
  split
  · next hw =>
    exact .word (by simp) (List.forall_mem_cons.mpr ⟨hw, fun d hd => List.mem_takeWhile_imp hd⟩)
  · next hw =>
    split
    · next hd =>
      exact .digits (by simp) (List.forall_mem_cons.mpr ⟨hd, fun d hd => List.mem_takeWhile_imp hd⟩)
    · next hd =>
      rw [Bool.not_eq_true] at hw hd
      split
      · next he =>
        subst he
        split
        · exact .mark (k := .eq) (by decide)
        · exact .mark (k := .assign) (by decide)
      · next he =>
        split
        · next hx =>
          subst hx
          split
          · exact .mark (k := .notEq) (by decide)
          · exact .mark (k := .bang) (by decide)
        · next hx =>
          cases hs : Kind.ofSymbol? c with
          | none => exact .stray hw hd hb (Kind.ofSymbol?_eq_none hs he hx)
          | some k =>
            obtain ⟨hk, hsp⟩ := Kind.ofSymbol?_eq_some hs
            simpa [hsp] using Kind.Fits.mark hk

theorem head?_drop_takeWhile {p : Char → Bool} (hd : d ∈ (cs.drop (cs.takeWhile p).length).head?) :
    p d = false := by
  have hcs : cs.takeWhile p ++ cs.dropWhile p = cs := List.takeWhile_append_dropWhile
  have hdrop : cs.drop (cs.takeWhile p).length = cs.dropWhile p :=
    (congrArg _ hcs.symm).trans List.drop_left
  have h := List.head?_dropWhile_not p cs
  rwa [← hdrop, hd] at h

/-- A token is as long as it can be. -/
theorem not_runsOn_lexeme (hd : d ∈ ((c :: cs).drop (lexeme (c :: cs)).2.length).head?) :
    ¬ RunsOn (lexeme (c :: cs)) d := by
  revert hd
  simp only [lexeme]
  split
  · next hw =>
    intro hd
    have hd : isWordChar d = false := head?_drop_takeWhile (by simpa using hd)
    simp [RunsOn, Kind.ofWord_ne, hd]
  · next hw =>
    split
    · next hdig =>
      intro hd
      have hd : d.isDigit = false := head?_drop_takeWhile (by simpa using hd)
      simp [RunsOn, hd, hw]
    · split
      · next he =>
        subst he
        split
        · simp [RunsOn, isWordChar]
        · next hn =>
          intro hd he
          simp only [RunsOn, isWordChar] at he
          simp_all
      · split
        · next he =>
          subst he
          split
          · simp [RunsOn, isWordChar]
          · next hn =>
            intro hd he
            simp only [RunsOn, isWordChar] at he
            simp_all
        · simp [RunsOn, Kind.ofSymbol?_ne, hw]

theorem takeWhile_append_of_head? {p : Char → Bool} {ds : List Char} (hp : ∀ c ∈ cs, p c = true)
    (hd : ∀ d ∈ ds.head?, p d = false) : (cs ++ ds).takeWhile p = cs := by
  rw [List.takeWhile_append_of_pos hp]
  cases ds with
  | nil => rw [List.takeWhile_nil, List.append_nil]
  | cons d ds => rw [List.takeWhile_cons_of_neg (by simp [hd d rfl]), List.append_nil]

/-- What is written as a kind asks, and cannot be longer, is the next token. -/
theorem lexeme_of_fits {ds : List Char} (h : k.Fits ds) (hr : ∀ d ∈ cs.head?, ¬ RunsOn (k, ds) d) :
    lexeme (ds ++ cs) = (k, ds) := by
  cases h with
  | word hne hw =>
    obtain ⟨c, ds, rfl⟩ := List.exists_cons_of_ne_nil hne
    obtain ⟨hc, hds⟩ := List.forall_mem_cons.mp hw
    have ht : (ds ++ cs).takeWhile isWordChar = ds := by
      refine takeWhile_append_of_head? hds fun d hd => ?_
      rw [← Bool.not_eq_true]
      exact fun hw' => hr d hd (.inl ⟨hw, hw'⟩)
    simp only [List.cons_append, lexeme, hc, if_true, ht]
  | digits hne hdig =>
    obtain ⟨c, ds, rfl⟩ := List.exists_cons_of_ne_nil hne
    obtain ⟨hc, hds⟩ := List.forall_mem_cons.mp hdig
    have ht : (ds ++ cs).takeWhile Char.isDigit = ds := by
      refine takeWhile_append_of_head? hds fun d hd => ?_
      rw [← Bool.not_eq_true]
      exact fun hd' => hr d hd (.inr (.inl ⟨rfl, hd'⟩))
    simp only [List.cons_append, lexeme, isWordChar_of_isDigit hc, hc, if_true, Bool.false_eq_true,
      if_false, ht]
  | mark hk =>
    have hne : k = .assign ∨ k = .bang → cs.head? ≠ some '=' :=
      fun hk he => hr '=' he (.inr (.inr ⟨hk, rfl⟩))
    simp only [Kind.marks, List.mem_cons, List.not_mem_nil, or_false] at hk
    rcases hk with rfl | rfl | rfl | rfl | rfl | rfl | rfl | rfl | rfl | rfl | rfl | rfl | rfl | rfl |
      rfl | rfl <;> simp_all [Kind.spelling, lexeme, isWordChar, Kind.ofSymbol?]
  | @stray c hw hd hb hs =>
    have he : c ≠ '=' := fun he => hs .assign (by decide) (by rw [he]; rfl)
    have hx : c ≠ '!' := fun hx => hs .bang (by decide) (by rw [hx]; rfl)
    simp [lexeme, hw, hd, he, hx, Kind.ofSymbol?_eq_none_of_forall hs]

theorem Kind.Fits.exists_cons (h : k.Fits cs) : ∃ c ds, cs = c :: ds ∧ isBlank c = false := by
  cases h with
  | word hne hw =>
    obtain ⟨c, ds, rfl⟩ := List.exists_cons_of_ne_nil hne
    exact ⟨c, ds, rfl, isBlank_eq_false (.inl (hw c List.mem_cons_self))⟩
  | digits hne hd =>
    obtain ⟨c, ds, rfl⟩ := List.exists_cons_of_ne_nil hne
    exact ⟨c, ds, rfl, isBlank_eq_false (.inr (hd c List.mem_cons_self))⟩
  | mark hk =>
    obtain ⟨hne, hs⟩ := spelling_of_mem_marks k hk
    obtain ⟨c, ds, hc⟩ := List.exists_cons_of_ne_nil hne
    exact ⟨c, ds, hc, (hs c (by rw [hc]; exact List.mem_cons_self)).2.2⟩
  | stray _ _ hb => exact ⟨_, [], rfl, hb⟩

/-! ## Texts -/

theorem Divided.blank (hb : isBlank c = true) (h : Divided cs xs) : Divided (c :: cs) xs := by
  cases h with
  | last hw => exact .last (List.forall_mem_cons.mpr ⟨hb, hw⟩)
  | token hw hx hr h => exact .token (List.forall_mem_cons.mpr ⟨hb, hw⟩) hx hr h

theorem Scans.blanks {ws : List Char} (hw : ∀ c ∈ ws, isBlank c = true) (h : Scans cs xs) :
    Scans (ws ++ cs) xs := by
  induction ws with
  | nil => exact h
  | cons c ws ih =>
    obtain ⟨hc, hws⟩ := List.forall_mem_cons.mp hw
    exact .blank hc (ih hws)

/-- A text is divided into the tokens it scans as, and in no other way. -/
theorem divided_iff_scans : Divided cs xs ↔ Scans cs xs := by
  constructor
  · intro h
    induction h with
    | last hw => simpa using Scans.blanks hw .done
    | @token _ x cs _ hw hx hr _ ih =>
      obtain ⟨c, ds, hc, hb⟩ := hx.exists_cons
      have hl : lexeme (x.2 ++ cs) = x := lexeme_of_fits hx hr
      rw [List.append_assoc]
      refine Scans.blanks hw ?_
      rw [hc, List.cons_append] at hl ⊢
      rw [← hl]
      refine .token hb ?_
      rwa [hl, hc, ← List.cons_append, List.drop_left]
  · intro h
    induction h with
    | done => exact .last (by simp)
    | blank hb _ ih => exact ih.blank hb
    | @token c cs xs hb _ ih =>
      have hcs : (lexeme (c :: cs)).2 ++ (c :: cs).drop (lexeme (c :: cs)).2.length = c :: cs :=
        List.prefix_iff_eq_append.mp (lexeme_leads c cs)
      have h : Divided ([] ++ (lexeme (c :: cs)).2 ++ _) (lexeme (c :: cs) :: xs) :=
        .token (by simp) (fits_lexeme hb) (fun d hd => not_runsOn_lexeme hd) ih
      rwa [List.nil_append, hcs] at h

/-- **A text is cut into its tokens without loss, and each of them is as long
as it can be.** The tokens end with one end token, the others and the blanks
between them are the text, and there is no other way to divide it. -/
theorem tokenize_divided (file source : String) : ∃ ts final,
    tokenize file source = ts ++ [final] ∧ final.kind = .eof ∧ final.literal = "" ∧
      (∀ t ∈ ts, t.kind ≠ .eof) ∧ Divided source.toList (ts.map Token.lexeme) ∧
      ∀ xs, Divided source.toList xs → xs = ts.map Token.lexeme := by
  obtain ⟨xs, hxs⟩ := Scans.exists source.toList
  obtain ⟨hp, hf⟩ := @TokenStream.lexemes_ofSource file _ _ hxs
  have he := TokenStream.ended_ofSource file source
  refine ⟨(TokenStream.ofSource file source).pending, (TokenStream.ofSource file source).final,
    TokenStream.tokenize_eq file source, he.final, ?_, he.pending, ?_, fun ys hys => ?_⟩
  · rw [Token.lexeme, Prod.mk.injEq] at hf
    exact String.toList_eq_nil_iff.mp hf.2
  · rw [hp]
    exact divided_iff_scans.mpr hxs
  · rw [hp]
    exact (divided_iff_scans.mp hys).unique hxs

end ExprLang
