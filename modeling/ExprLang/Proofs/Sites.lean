/-
Tokens on their lines.

A token stands between two pieces of a line, and its span tells how long the
first of them is (`Token.Sited`). It could not have taken in the character
behind it, and a word did not start before its first character, so no word
goes on over the place where a token starts (`Parted`). Errors are about tokens
of the text (`Parse.token_mem_tokenize`), so all this is known of what they
point at.
-/
import ExprLang.Proofs.Division
import ExprLang.Proofs.Lines
import ExprLang.Proofs.Mistakes
import ExprLang.Proofs.Overflow

namespace ExprLang

variable {file source : String} {cs : List Char} {n : Nat} {t : Token}

/-! ## Where tokens start -/

/-- The characters on both sides of an offset are not both of words. -/
def Parted (cs : List Char) (n : Nat) : Prop :=
  ∀ c ∈ (cs.take n).getLast?, ∀ d ∈ (cs.drop n).head?, ¬ (isWordChar c = true ∧ isWordChar d = true)

theorem parted_zero (cs : List Char) : Parted cs 0 := by
  simp [Parted]

/-- Behind some characters the last of them is in front of the offset. -/
theorem getLast?_take_add {xs : List Char} (h : xs <+: cs.drop n) (hne : xs ≠ []) :
    (cs.take (n + xs.length)).getLast? = xs.getLast? := by
  have ht : cs.take (n + xs.length) = cs.take n ++ xs := by
    rw [List.take_add, ← List.prefix_iff_eq_take.mp h]
  rw [ht, List.getLast?_append, List.getLast?_eq_some_getLast hne, Option.some_or]

/-- Blanks are no part of a word. -/
theorem Parted.firstFrom (h : Parted cs n) : Parted cs (Cursor.firstFrom cs n) := by
  by_cases hne : (cs.drop n).takeWhile isBlank = []
  · rwa [Cursor.firstFrom, hne]
  · intro c hc d _ hw
    rw [Cursor.firstFrom, getLast?_take_add (List.takeWhile_prefix _) hne] at hc
    have hb := List.mem_takeWhile_imp (List.mem_of_getLast? hc)
    rw [isBlank_eq_false (.inl hw.1)] at hb
    cases hb

/-- A token with a character of a word in it is a word. -/
theorem Kind.Fits.all_isWordChar {k : Kind} {xs : List Char} (h : k.Fits xs) {c : Char} (hc : c ∈ xs)
    (hw : isWordChar c = true) : ∀ d ∈ xs, isWordChar d = true := by
  have hno : isWordChar c ≠ false := by simp [hw]
  cases h with
  | word _ hall => exact hall
  | digits _ hall => exact absurd (isWordChar_of_isDigit (hall c hc)) hno
  | mark hk => exact absurd ((Kind.spelling_of_mem_marks _ hk).2 c hc).1 hno
  | stray hs => exact absurd (List.mem_singleton.mp hc ▸ hs) hno

/-- Behind a token no word goes on. -/
theorem parted_lexeme {c : Char} {ds : List Char} (hd : cs.drop n = c :: ds) (hb : isBlank c = false) :
    Parted cs (n + (lexeme (c :: ds)).2.length) := by
  have hleads : (lexeme (c :: ds)).2 <+: cs.drop n := hd ▸ lexeme_leads c ds
  have hne : (lexeme (c :: ds)).2 ≠ [] := List.ne_nil_of_length_pos (length_lexeme_pos c ds)
  intro a ha d hd' hw
  rw [getLast?_take_add hleads hne] at ha
  rw [← List.drop_drop, hd] at hd'
  have hall := (fits_lexeme hb).all_isWordChar (List.mem_of_getLast? ha) hw.1
  exact not_runsOn_lexeme hd' (.inl ⟨hall, hw.2⟩)

/-- Each token is the one at an offset, and no word goes on over its start. -/
theorem exists_eq_tokenAt (file : String) (hn : n ≤ cs.length) (hp : Parted cs n) {s : TokenStream}
    (hs : TokenStream.ofCursor (.ofOffset file cs n) = s) :
    ∀ t ∈ s.pending ++ [s.final], ∃ m ≤ cs.length, t = Cursor.tokenAt file cs m ∧
      (∀ c ∈ (cs.drop m).head?, isBlank c = false) ∧ Parted cs m := by
  induction hl : cs.length - n using Nat.strongRecOn generalizing n s with
  | ind l ih =>
  have hfirst : ∃ m ≤ cs.length, Cursor.tokenAt file cs (Cursor.firstFrom cs n) = Cursor.tokenAt file cs m ∧
      (∀ c ∈ (cs.drop m).head?, isBlank c = false) ∧ Parted cs m :=
    ⟨_, firstFrom_le hn, rfl, Cursor.not_isBlank_firstFrom cs n, hp.firstFrom⟩
  by_cases hk : (Cursor.ofOffset file cs n).next.1.kind = .eof
  · rw [TokenStream.ofCursor_of_eof hk, Cursor.next_ofOffset] at hs
    subst hs
    simpa using hfirst
  · obtain ⟨c, ds, hd⟩ : ∃ c ds, cs.drop (Cursor.firstFrom cs n) = c :: ds := by
      refine List.exists_cons_of_ne_nil fun hd => hk ?_
      rw [Cursor.next_ofOffset, Cursor.tokenAt, hd]
      rfl
    have hb : isBlank c = false := Cursor.not_isBlank_firstFrom cs n c (by rw [hd]; rfl)
    have hpos := length_lexeme_pos c ds
    have hle := (lexeme_leads c ds).length_le
    rw [← hd, List.length_drop, hd] at hle
    have hnext := Cursor.next_ofOffset file cs n
    rw [hd, Nat.max_eq_left hpos] at hnext
    have hge : n ≤ Cursor.firstFrom cs n := Nat.le_add_right _ _
    rw [TokenStream.ofCursor_of_ne hk, hnext] at hs
    subst hs
    rw [List.cons_append]
    refine List.forall_mem_cons.mpr ⟨hfirst, ?_⟩
    exact ih _ (by omega) (by omega) (parted_lexeme hd hb) rfl rfl

/-! ## What stands around a token -/

/-- The token stands on the line of a number, counted from zero, between
`before` and `after`, where its span says. Neither does it continue a word that
starts before it, nor could it have taken in what stands behind it. -/
structure Token.Sited (file : String) (cs : List Char) (t : Token) (k : Nat)
    (before after : List Char) : Prop where
  span : t.span = ⟨file, k + 1, before.length + 1, k + 1, before.length + t.literal.toList.length⟩
  line : (cs.splitOn '\n')[k]? = some (before ++ t.literal.toList ++ after)
  starts : ∀ c ∈ before.getLast?, ∀ d ∈ t.literal.toList.head?,
    ¬ (isWordChar c = true ∧ isWordChar d = true)
  ends : ∀ d ∈ after.head?, ¬ RunsOn t.lexeme d
  ne_nil : t.literal.toList ≠ []
  not_isBlank : ∀ c ∈ t.literal.toList, isBlank c = false

namespace Token.Sited

variable {before after : List Char} {k : Nat}

theorem startLine (h : t.Sited file cs k before after) : t.span.startLine = k + 1 :=
  congrArg Span.startLine h.span

theorem startColumn (h : t.Sited file cs k before after) : t.span.startColumn = before.length + 1 :=
  congrArg Span.startColumn h.span

theorem endColumn (h : t.Sited file cs k before after) :
    t.span.endColumn = before.length + t.literal.toList.length :=
  congrArg Span.endColumn h.span

/-- A carriage return at the end of a line is behind its tokens. -/
theorem chomp_line (h : t.Sited file cs k before after) :
    Text.chomp (before ++ t.literal.toList ++ after) = before ++ t.literal.toList ++ Text.chomp after := by
  by_cases ha : after = []
  · have hno : '\r' ∉ t.literal.toList := fun hr => absurd (h.not_isBlank _ hr) (by decide)
    rw [ha, List.append_nil, Text.chomp_append before h.ne_nil, Text.chomp_eq_self hno]
    exact (List.append_nil _).symm
  · rw [Text.chomp_append _ ha]

end Token.Sited

theorem lastLine_suffix (cs : List Char) : lastLine cs <:+ cs := by
  induction cs with
  | nil => exact List.suffix_rfl
  | cons c cs ih =>
    rw [lastLine]
    split
    · exact ih.trans (List.suffix_cons c cs)
    · split
      · exact List.suffix_cons c cs
      · exact List.suffix_rfl

/-- The token at an offset stands behind what the line has in front of it. -/
theorem sited_tokenAt (file : String) {c : Char} {ds : List Char} (hd : cs.drop n = c :: ds)
    (hb : isBlank c = false) (hp : Parted cs n) : ∃ after,
      (Cursor.tokenAt file cs n).Sited file cs ((cs.take n).count '\n') (lastLine (cs.take n)) after := by
  obtain ⟨xs, hxs⟩ : ∃ xs, (lexeme (c :: ds)).2 = xs := ⟨_, rfl⟩
  have hpos : 0 < xs.length := hxs ▸ length_lexeme_pos c ds
  have hsplit : cs.drop n = xs ++ cs.drop (n + xs.length) := by
    rw [← List.drop_drop, hd, ← hxs]
    exact (List.prefix_iff_eq_append.mp (lexeme_leads c ds)).symm
  have hblank : ∀ d ∈ xs, isBlank d = false := fun d hd' => not_isBlank_of_mem_lexeme hb (hxs ▸ hd')
  have hlexeme : (Cursor.tokenAt file cs n).lexeme = lexeme (c :: ds) := by
    rw [Cursor.tokenAt, hd, Token.lexeme, Cursor.token, String.toList_ofList]
  have hlit : (Cursor.tokenAt file cs n).literal.toList = xs := (congrArg Prod.snd hlexeme).trans hxs
  have hspan : (Cursor.tokenAt file cs n).span = ⟨file, lineAt cs n, (lastLine (cs.take n)).length + 1,
      lineAt cs n, (lastLine (cs.take n)).length + 1 + (max xs.length 1 : Nat) - 1⟩ := by
    rw [Cursor.tokenAt, hd, ← hxs]
    rfl
  refine ⟨(cs.drop (n + xs.length)).takeWhile (· ≠ '\n'), ?_, ?_, ?_, ?_, ?_, ?_⟩
  · rw [hspan, hlit, Nat.max_eq_left hpos, lineAt, Span.mk.injEq]
    refine ⟨rfl, ?_⟩
    omega
  · have hbreak : ∀ c ∈ xs, decide (c ≠ '\n') = true := by
      intro c hc
      rw [decide_eq_true_eq]
      rintro rfl
      exact absurd (hblank '\n' hc) (by decide)
    rw [hlit, getElem?_splitOn_count, hsplit, List.takeWhile_append_of_pos hbreak, List.append_assoc]
  · intro a ha d hd' hw
    obtain ⟨front, hfront⟩ := lastLine_suffix (cs.take n)
    refine hp a ?_ d ?_ hw
    · rw [← hfront, List.getLast?_append, ha]
      rfl
    · rw [hsplit, List.head?_append, ← hlit, hd']
      rfl
  · intro d hd'
    rw [List.head?_takeWhile] at hd'
    rw [hlexeme]
    refine not_runsOn_lexeme ?_
    rw [hxs, ← hd, List.drop_drop]
    exact (Option.mem_filter_iff.mp hd').1
  · rw [hlit]
    exact List.ne_nil_of_length_pos hpos
  · rwa [hlit]

/-- Every token but the end token has its place on a line. -/
theorem exists_sited (ht : t ∈ tokenize file source) (hk : t.kind ≠ .eof) :
    ∃ k before after, t.Sited file source.toList k before after := by
  rw [TokenStream.tokenize_eq] at ht
  obtain ⟨m, hm, rfl, hb, hp⟩ := exists_eq_tokenAt file (Nat.zero_le _) (parted_zero _)
    (TokenStream.ofSource_eq_ofCursor file source).symm t ht
  obtain ⟨c, ds, hd⟩ : ∃ c ds, source.toList.drop m = c :: ds := by
    refine List.exists_cons_of_ne_nil fun hd => hk ?_
    rw [Cursor.tokenAt, hd]
    rfl
  exact ⟨_, _, sited_tokenAt file hd (hb c (by rw [hd]; rfl)) hp⟩

/-- The end token covers the one column behind the text. -/
theorem span_of_eof (ht : t ∈ tokenize file source) (hk : t.kind = .eof) :
    t.span = ⟨file, source.toList.count '\n' + 1, (lastLine source.toList).length + 1,
      source.toList.count '\n' + 1, (lastLine source.toList).length + 1⟩ := by
  rw [TokenStream.tokenize_eq] at ht
  obtain ⟨m, -, rfl, hb, -⟩ := exists_eq_tokenAt file (Nat.zero_le _) (parted_zero _)
    (TokenStream.ofSource_eq_ofCursor file source).symm t ht
  obtain ⟨-, hspan⟩ := (Cursor.placed_tokenAt file hb).final hk
  rw [hspan, columnAt_eq, lineAt, List.take_length]
  simp [Int.add_comm]

/-! ## What errors are about -/

namespace Parse

/-- On the way from `o` to `s` errors were about tokens of `o`. -/
def Met (o s : TokenStream) (_ : List Leaf) (es : List ParseError) : Prop :=
  Onward o s ∧ ∀ e ∈ es, e.token ∈ o.pending ++ [o.final]

theorem Onward.current_mem {o s : TokenStream} (h : Onward o s) : s.current ∈ o.pending ++ [o.final] := by
  rw [TokenStream.current]
  cases hp : s.pending with
  | nil => simp [h.final]
  | cons t ts => exact List.mem_append_left _ (h.suffix.mem (by rw [hp]; exact List.mem_cons_self))

theorem tally_met (o : TokenStream) : Tally (Met o) where
  skip h := ⟨h.1.advance, h.2⟩
  take h _ := ⟨h.1.advance, h.2⟩
  report h he := by
    refine ⟨h.1, List.forall_mem_append.mpr ⟨h.2, List.forall_mem_singleton.mpr ?_⟩⟩
    rw [he.token_eq]
    exact h.1.current_mem
  drop h _ := h

/-- What holds of each statement and its errors, wherever it starts, holds of a
whole program, also where statements hit the limit. -/
theorem forall_statements {P : Stmt → Prop} {Q : ParseError → Prop} {o s : TokenStream} (limit n : Nat)
    (hstatement : ∀ {s}, Onward o s → Meets (statement (expression limit)) s []
      (fun v _ es => (∀ x ∈ v, P x) ∧ ∀ e ∈ es, Q e) fun _ es => ∀ e ∈ es, Q e)
    (hdeep : ∀ {s} reached, Onward o s → Q (.tooDeep s.current reached)) (ho : Onward o s) :
    (∀ x ∈ (statements limit n s).statements, P x) ∧ ∀ e ∈ (statements limit n s).errors, Q e := by
  induction n generalizing s with
  | zero => simp [statements]
  | succ n ih =>
    by_cases hk : s.current.kind = .eof
    · simp [statements_of_eof hk]
    · have hv := hstatement ho
      have hr := ho.trans (onward_statement limit s)
      unfold Meets at hv
      cases hs : statement (expression limit) s with
      | done v r es =>
        rw [hs] at hv hr
        obtain ⟨hxs, hes⟩ := ih hr.advance
        rw [statements_of_done hk hs]
        refine ⟨List.forall_mem_append.mpr ⟨fun x hx => hv.1 x (Option.mem_toList.mp hx), hxs⟩, ?_⟩
        exact List.forall_mem_append.mpr ⟨hv.2, hes⟩
      | tooDeep r es =>
        rw [hs] at hv hr
        obtain ⟨hxs, hes⟩ := ih (hr.skipTo .semicolon).advance
        rw [statements_of_tooDeep hk hs]
        refine ⟨hxs, List.forall_mem_append.mpr ⟨List.forall_mem_append.mpr ⟨hv, ?_⟩, hes⟩⟩
        exact List.forall_mem_singleton.mpr (hdeep _ ho)

/-- Every error is about a token of the text. -/
theorem token_mem_tokenize {limit : Nat} {e : ParseError} (he : e ∈ (parse file source limit).errors) :
    e.token ∈ tokenize file source := by
  have hf := (TokenStream.ended_ofSource file source).final
  rw [TokenStream.tokenize_eq]
  refine (forall_statements (P := fun _ => True) (Q := fun e => e.token ∈ _) limit _ (fun {s} ho => ?_)
    (fun _ ho => ho.current_mem) (.refl _)).2 e he
  have h0 : Met (.ofSource file source) s [] [] := ⟨ho, by simp⟩
  refine Meets.mono ((tally_met _).keeps_statement limit (ho.kind_final hf) h0) ?_ ?_
  · exact fun v s' es h => ⟨fun _ _ => trivial, h.2⟩
  · rintro s' es ⟨-, qs, h⟩
    exact h.2

end Parse

end ExprLang
