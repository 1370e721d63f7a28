/-
Texts joined by a line break are read side by side.

No token runs on over a line break, and behind it the columns are counted
afresh. So the tokens of two joined texts are those of the one and then those
of the other, the latter further down by the lines of the former
(`TokenStream.ofSource_joined`).
-/
import ExprLang.Proofs.Resume

namespace ExprLang

/-! ## Further down -/

/-- The span some lines further down. -/
def Span.below (k : Nat) (s : Span) : Span :=
  ⟨s.file, s.startLine + k, s.startColumn, s.endLine + k, s.endColumn⟩

namespace Cursor

/-- The cursor with `n` more characters before it, on `k` more lines. -/
def shift (n k : Nat) (c : Cursor) : Cursor :=
  ⟨c.file, c.rest, c.position + n, c.readPosition + n, c.line + k, c.column⟩

variable {c : Cursor} {n k m : Nat}

@[simp] theorem rest_shift : (c.shift n k).rest = c.rest := rfl

theorem advance_shift : (c.shift n k).advance = c.advance.shift n k := by
  unfold advance
  rw [rest_shift]
  cases c.rest with
  | nil => simp [shift, Nat.add_right_comm]
  | cons x rest => by_cases hx : x = '\n' <;> simp [shift, hx, Nat.add_right_comm]

theorem advanceBy_shift : advanceBy m (c.shift n k) = (advanceBy m c).shift n k := by
  induction m generalizing c with
  | zero => rfl
  | succ m ih => rw [advanceBy, advance_shift, ih, advanceBy]

theorem next_shift : (c.shift n k).next = (c.next.1.relocate (Span.below k), c.next.2.shift n k) := by
  have hs : (c.shift n k).skipBlanks = c.skipBlanks.shift n k := advanceBy_shift
  simp only [next, hs, rest_shift, advanceBy_shift]
  rfl

theorem take_shift : (c.shift n k).take m =
    ((c.take m).1.map (Token.relocate (Span.below k)), (c.take m).2.shift n k) := by
  induction m generalizing c with
  | zero => rfl
  | succ m ih =>
    have hk : ∀ t : Token, (t.relocate (Span.below k)).kind = t.kind := fun _ => rfl
    by_cases he : c.next.1.kind = .eof
    · simp only [take, next_shift, hk, if_pos he, List.map_nil]
    · simp only [take, next_shift, hk, if_neg he, ih, List.map_cons]

end Cursor

theorem TokenStream.ofCursor_shift (c : Cursor) (n k : Nat) :
    ofCursor (c.shift n k) = (ofCursor c).relocate (Span.below k) := by
  simp only [ofCursor, Cursor.rest_shift, Cursor.take_shift, Cursor.next_shift]
  rfl

/-! ## Behind and before a line break -/

theorem lastLine_append_break (cs ds : List Char) : lastLine (cs ++ '\n' :: ds) = lastLine ds := by
  induction cs with
  | nil => exact lastLine_break ds
  | cons c cs ih => rw [List.cons_append, lastLine, if_pos (by simp), ih]

section

variable {file : String} {cs ds : List Char} {n : Nat}

/-- An offset behind the line break. -/
theorem ofOffset_beyond (file : String) (cs ds : List Char) (n : Nat) :
    Cursor.ofOffset file (cs ++ '\n' :: ds) (cs.length + 1 + n) =
      (Cursor.ofOffset file ds n).shift (cs.length + 1) (1 + cs.count '\n') := by
  have hd : (cs ++ '\n' :: ds).drop (cs.length + 1 + n) = ds.drop n := by
    rw [Nat.add_assoc, ← List.drop_drop, List.drop_left, Nat.add_comm 1 n, List.drop_succ_cons]
  have ht : (cs ++ '\n' :: ds).take (cs.length + 1 + n) = cs ++ '\n' :: ds.take n := by
    rw [Nat.add_assoc, List.take_length_add_append, Nat.add_comm 1 n, List.take_succ_cons]
  have hl : lineAt (cs ++ '\n' :: ds) (cs.length + 1 + n) = lineAt ds n + (1 + cs.count '\n') := by
    rw [lineAt, ht, List.count_append, List.count_cons_self, lineAt]
    omega
  simp only [Cursor.ofOffset, hd, hl, ht, lastLine_append_break, Cursor.shift, Cursor.mk.injEq, true_and,
    and_true]
  omega

/-- No token runs on over the line break. -/
theorem lexeme_before (ds : List Char) (hn : n < cs.length) :
    lexeme (cs.drop n ++ '\n' :: ds) = lexeme (cs.drop n) := by
  obtain ⟨c, r, hr⟩ := List.exists_cons_of_ne_nil (List.drop_eq_nil_iff.not.mpr (Nat.not_le.mpr hn))
  rw [hr]
  exact lexeme_append (.inr (Lone.apart_right (by decide) _ _))

theorem tokenAt_before (file : String) (ds : List Char) (hn : n < cs.length) :
    Cursor.tokenAt file (cs ++ '\n' :: ds) n = Cursor.tokenAt file cs n := by
  rw [Cursor.tokenAt, List.drop_append_of_le_length (Nat.le_of_lt hn), lexeme_before ds hn, Cursor.tokenAt,
    Cursor.token, Cursor.token, Cursor.ofOffset, lineAt, List.take_append_of_le_length (Nat.le_of_lt hn)]
  rfl

theorem firstFrom_le (hn : n ≤ cs.length) : Cursor.firstFrom cs n ≤ cs.length := by
  have h := (List.takeWhile_prefix isBlank (l := cs.drop n)).length_le
  rw [List.length_drop] at h
  rw [Cursor.firstFrom]
  omega

theorem firstFrom_before (ds : List Char) (hn : Cursor.firstFrom cs n < cs.length) :
    Cursor.firstFrom (cs ++ '\n' :: ds) n = Cursor.firstFrom cs n := by
  have hle : n ≤ cs.length := Nat.le_trans (Nat.le_add_right _ _) (Nat.le_of_lt hn)
  have hne : ((cs.drop n).takeWhile isBlank).length ≠ (cs.drop n).length := by
    rw [Cursor.firstFrom] at hn
    rw [List.length_drop]
    omega
  rw [Cursor.firstFrom, List.drop_append_of_le_length hle, List.takeWhile_append, if_neg hne, Cursor.firstFrom]

/-- A token before the line break is also there with what stands behind it. -/
theorem next_before (file : String) (ds : List Char) (hn : Cursor.firstFrom cs n < cs.length) :
    ∃ t m, t.kind ≠ .eof ∧ n < m ∧ m ≤ cs.length ∧
      (Cursor.ofOffset file cs n).next = (t, .ofOffset file cs m) ∧
      (Cursor.ofOffset file (cs ++ '\n' :: ds) n).next = (t, .ofOffset file (cs ++ '\n' :: ds) m) := by
  obtain ⟨c, r, hr⟩ := List.exists_cons_of_ne_nil (List.drop_eq_nil_iff.not.mpr (Nat.not_le.mpr hn))
  have hpos := length_lexeme_pos c r
  have hlead := (lexeme_leads c r).length_le
  rw [← hr] at hpos hlead
  rw [List.length_drop] at hlead
  have hge : n ≤ Cursor.firstFrom cs n := Nat.le_add_right _ _
  refine ⟨Cursor.tokenAt file cs (Cursor.firstFrom cs n), _, ?_, ?_, ?_, Cursor.next_ofOffset file cs n, ?_⟩
  · rw [Cursor.tokenAt, hr]
    exact lexeme_ne_eof c r
  · omega
  · omega
  · rw [Cursor.next_ofOffset, firstFrom_before ds hn, tokenAt_before file ds hn,
      List.drop_append_of_le_length (Nat.le_of_lt hn), lexeme_before ds hn]

/-- Where only blanks are left before the line break, what follows it is next. -/
theorem firstFrom_beyond (ds : List Char) (hn : Cursor.firstFrom cs n = cs.length) (hle : n ≤ cs.length) :
    Cursor.firstFrom (cs ++ '\n' :: ds) n = Cursor.firstFrom (cs ++ '\n' :: ds) (cs.length + 1) := by
  have hlen : ((cs.drop n).takeWhile isBlank).length = (cs.drop n).length := by
    rw [Cursor.firstFrom] at hn
    rw [List.length_drop]
    omega
  have hb : ∀ xs, ('\n' :: xs).takeWhile isBlank = '\n' :: xs.takeWhile isBlank := fun xs =>
    List.takeWhile_cons_of_pos rfl
  have hd : (cs ++ '\n' :: ds).drop (cs.length + 1) = ds := by
    rw [← List.drop_drop, List.drop_left, List.drop_one, List.tail_cons]
  rw [Cursor.firstFrom, List.drop_append_of_le_length hle, List.takeWhile_append, if_pos hlen, hb,
    Cursor.firstFrom, hd, List.length_append, List.length_cons, List.length_drop]
  omega

end

/-! ## Side by side -/

namespace TokenStream

/-- The tokens in front of the stream. -/
def after (ts : List Token) (s : TokenStream) : TokenStream := ⟨ts ++ s.pending, s.final⟩

@[simp] theorem after_nil (s : TokenStream) : s.after [] = s := rfl

variable {cs : List Char}

/-- From any offset before the line break on there are the tokens up to it
and then those behind it. -/
theorem ofCursor_joined (file : String) (ds : List Char) {n : Nat} (hn : n ≤ cs.length) :
    ofCursor (.ofOffset file (cs ++ '\n' :: ds) n) =
      (ofCursor (.ofOffset file (cs ++ '\n' :: ds) (cs.length + 1))).after
        (ofCursor (.ofOffset file cs n)).pending := by
  induction hl : cs.length - n using Nat.strongRecOn generalizing n with
  | ind l ih =>
  have hfirst := firstFrom_le hn
  rcases Nat.lt_or_ge (Cursor.firstFrom cs n) cs.length with hlt | hge
  · -- One more token before the line break.
    obtain ⟨t, m, hk, hnm, hm, hnext, hnext'⟩ := next_before file ds hlt
    have hleft : ofCursor (.ofOffset file cs n) =
        ⟨t :: (ofCursor (.ofOffset file cs m)).pending, (ofCursor (.ofOffset file cs m)).final⟩ := by
      rw [ofCursor_of_ne (by rw [hnext]; exact hk), hnext]
    rw [ofCursor_of_ne (by rw [hnext']; exact hk), hnext', ih _ (by omega) hm rfl, hleft]
    rfl
  · -- Nothing but blanks.
    have he := Nat.le_antisymm hfirst hge
    have hk : (Cursor.ofOffset file cs n).next.1.kind = .eof := by
      rw [Cursor.next_ofOffset, Cursor.tokenAt, he, List.drop_length]
      rfl
    rw [ofCursor_of_eof hk, after_nil]
    refine ofCursor_congr ?_
    rw [Cursor.skipBlanks_ofOffset, Cursor.skipBlanks_ofOffset, firstFrom_beyond ds he hn]

/-- **The tokens of two texts joined by a line break are the tokens of both**,
those of the second on lines further down. -/
theorem ofSource_joined (file a b : String) : ofSource file (a ++ "\n" ++ b) =
    ((ofSource file b).relocate (Span.below (1 + a.toList.count '\n'))).after (ofSource file a).pending := by
  have ht : (a ++ "\n" ++ b).toList = a.toList ++ '\n' :: b.toList := by simp
  rw [ofSource_eq_ofCursor, ofSource_eq_ofCursor, ofSource_eq_ofCursor, ht,
    ofCursor_joined file b.toList (Nat.zero_le _), ← ofCursor_shift, ← ofOffset_beyond]

end TokenStream

end ExprLang
