/-
Where a cursor stands, in closed form.

A cursor counts lines and columns while it moves, character by character.
What its count comes to depends on its offset alone: `Cursor.ofOffset` is the
cursor of an offset, and every move from there, also past the end of the text,
leads to the cursor of another one. Main statement: `Cursor.placed_run`, on
all states that moves can reach and all tokens that are yielded on the way.
-/
import Mathlib.Data.List.TakeWhile
import ExprLang.Proofs.Scan

namespace ExprLang

variable {cs : List Char} {n : Nat}

/-! ## Lines and columns -/

/-- The index of the last line break, and −1 where there is none. -/
def lastBreak : List Char → Int
  | [] => -1
  | c :: cs => if '\n' ∈ cs then lastBreak cs + 1 else if c = '\n' then 0 else -1

/-- The line of an offset. Past the end it is the line of the end. -/
def lineAt (cs : List Char) (n : Nat) : Nat := 1 + (cs.take n).count '\n'

/-- The column of an offset: how far it is from the last line break before it. -/
def columnAt (cs : List Char) (n : Nat) : Int := (min n cs.length : Nat) - lastBreak (cs.take n)

/-- What stands behind the last line break. -/
def lastLine : List Char → List Char
  | [] => []
  | c :: cs => if '\n' ∈ cs then lastLine cs else if c = '\n' then cs else c :: cs

theorem lastLine_of_not_mem (h : '\n' ∉ cs) : lastLine cs = cs := by
  cases cs with
  | nil => rfl
  | cons c cs =>
    simp only [List.mem_cons, not_or] at h
    rw [lastLine, if_neg h.2, if_neg (Ne.symm h.1)]

theorem lastLine_break (cs : List Char) : lastLine ('\n' :: cs) = lastLine cs := by
  by_cases h : '\n' ∈ cs
  · rw [lastLine, if_pos h]
  · rw [lastLine, if_neg h, if_pos rfl, lastLine_of_not_mem h]

theorem lastLine_concat (cs : List Char) (c : Char) :
    lastLine (cs ++ [c]) = if c = '\n' then [] else lastLine cs ++ [c] := by
  induction cs with
  | nil => simp [lastLine]
  | cons d cs ih =>
    by_cases hc : c = '\n'
    · simpa [lastLine, hc] using ih
    · have hm : '\n' ∈ cs ++ [c] ↔ '\n' ∈ cs := by simp [Ne.symm hc]
      simp only [List.cons_append, lastLine, hm, ih, if_neg hc]
      by_cases hcs : '\n' ∈ cs
      · simp only [if_pos hcs]
      · by_cases hd : d = '\n' <;> simp only [if_neg hcs, hd, if_true, if_false, List.cons_append]

theorem lastLine_append_of_not_mem {ds : List Char} (h : '\n' ∉ ds) :
    lastLine (cs ++ ds) = lastLine cs ++ ds := by
  induction cs with
  | nil => exact lastLine_of_not_mem h
  | cons c cs ih =>
    have hm : '\n' ∈ cs ++ ds ↔ '\n' ∈ cs := by simp [h]
    simp only [List.cons_append, lastLine, hm, ih]
    by_cases hcs : '\n' ∈ cs
    · simp only [if_pos hcs]
    · by_cases hc : c = '\n' <;> simp only [if_neg hcs, hc, if_true, if_false, List.cons_append]

theorem length_lastLine (cs : List Char) : ((lastLine cs).length : Int) + 1 = cs.length - lastBreak cs := by
  induction cs with
  | nil => rfl
  | cons c cs ih =>
    rw [lastLine, lastBreak]
    by_cases hcs : '\n' ∈ cs
    · rw [if_pos hcs, if_pos hcs, ih, List.length_cons]
      omega
    · rw [if_neg hcs, if_neg hcs]
      split <;> simp

theorem columnAt_eq (cs : List Char) (n : Nat) : columnAt cs n = (lastLine (cs.take n)).length + 1 := by
  rw [columnAt, length_lastLine, List.length_take]

/-- No two offsets are on the same line and in the same column. -/
theorem offset_unique {m : Nat} (hn : n ≤ cs.length) (hm : m ≤ cs.length) (hl : lineAt cs n = lineAt cs m)
    (hc : columnAt cs n = columnAt cs m) : n = m := by
  rw [columnAt_eq, columnAt_eq] at hc
  have key : ∀ {n m : Nat}, n ≤ m → m ≤ cs.length → lineAt cs n = lineAt cs m →
      (lastLine (cs.take n)).length = (lastLine (cs.take m)).length → n = m := by
    intro n m hnm hm hl hc
    have ht : cs.take m = cs.take n ++ (cs.drop n).take (m - n) := by
      rw [← List.take_add, Nat.add_sub_cancel' hnm]
    have hmem : '\n' ∉ (cs.drop n).take (m - n) := by
      rw [lineAt, lineAt, ht, List.count_append] at hl
      exact List.count_eq_zero.mp (by omega)
    rw [ht, lastLine_append_of_not_mem hmem, List.length_append, List.length_take, List.length_drop] at hc
    omega
  rcases Nat.le_total n m with h | h
  · exact key h hm hl (by omega)
  · exact (key h hn hl.symm (by omega)).symm

/-- The line that an offset stands on, from its line break to the next one. -/
theorem getElem?_splitOn_count (cs : List Char) (n : Nat) :
    (cs.splitOn '\n')[(cs.take n).count '\n']? =
      some (lastLine (cs.take n) ++ (cs.drop n).takeWhile (· ≠ '\n')) := by
  induction cs generalizing n with
  | nil => simp [List.splitOn_eq_splitOnP, lastLine]
  | cons c cs ih =>
    simp only [List.splitOn_eq_splitOnP] at ih ⊢
    rw [List.splitOnP_cons_eq_if_modifyHead]
    cases n with
    | zero =>
      have h := ih 0
      by_cases hc : c = '\n' <;> simp_all [lastLine]
    | succ n =>
      rw [List.take_succ_cons, List.drop_succ_cons]
      by_cases hc : c = '\n'
      · subst hc
        simp [lastLine_break, ih n]
      · have h := ih n
        by_cases hm : '\n' ∈ cs.take n
        · obtain ⟨k, hk⟩ : ∃ k, (cs.take n).count '\n' = k + 1 :=
            Nat.exists_eq_succ_of_ne_zero fun h => List.count_eq_zero.mp h hm
          simp_all [lastLine]
        · have hk : (cs.take n).count '\n' = 0 := List.count_eq_zero.mpr hm
          simp_all [lastLine, lastLine_of_not_mem]

/-! ## The cursor of an offset -/

namespace Cursor

variable {file : String}

/-- The cursor of an offset. -/
def ofOffset (file : String) (cs : List Char) (n : Nat) : Cursor :=
  ⟨file, cs.drop n, n, n + 1, lineAt cs n, (lastLine (cs.take n)).length + 1⟩

theorem start_eq_ofOffset (file source : String) : start file source = ofOffset file source.toList 0 := by
  simp [start, ofOffset, lineAt, lastLine]

theorem advance_ofOffset (file : String) (cs : List Char) (n : Nat) :
    (ofOffset file cs n).advance = ofOffset file cs (n + 1) := by
  rcases Nat.lt_or_ge n cs.length with h | h
  · obtain ⟨c, hd, ht⟩ : ∃ c, cs.drop n = c :: cs.drop (n + 1) ∧ cs.take (n + 1) = cs.take n ++ [c] :=
      ⟨cs[n], List.drop_eq_getElem_cons h, by simp⟩
    by_cases hc : c = '\n'
    · simp [ofOffset, advance, lineAt, hd, ht, hc, lastLine_concat, Nat.add_assoc]
    · simp [ofOffset, advance, lineAt, hd, ht, hc, lastLine_concat]
  · have hd : cs.drop n = [] := List.drop_eq_nil_of_le h
    have hd' : cs.drop (n + 1) = [] := List.drop_eq_nil_of_le (by omega)
    have ht : cs.take (n + 1) = cs.take n := by
      rw [List.take_of_length_le h, List.take_of_length_le (by omega)]
    simp [ofOffset, advance, lineAt, hd, hd', ht]

theorem advanceBy_ofOffset (file : String) (cs : List Char) (k n : Nat) :
    advanceBy k (ofOffset file cs n) = ofOffset file cs (n + k) := by
  induction k generalizing n with
  | zero => rfl
  | succ k ih =>
    rw [advanceBy, advance_ofOffset, ih]
    congr 1
    omega

/-- The first offset from `n` on where no blank stands; the end of the text
if there is none before it. -/
def firstFrom (cs : List Char) (n : Nat) : Nat := n + ((cs.drop n).takeWhile isBlank).length

/-- The token at an offset. -/
def tokenAt (file : String) (cs : List Char) (n : Nat) : Token :=
  (ofOffset file cs n).token (lexeme (cs.drop n)).1 (lexeme (cs.drop n)).2

theorem skipBlanks_ofOffset (file : String) (cs : List Char) (n : Nat) :
    (ofOffset file cs n).skipBlanks = ofOffset file cs (firstFrom cs n) := by
  exact advanceBy_ofOffset file cs _ n

theorem next_ofOffset (file : String) (cs : List Char) (n : Nat) :
    (ofOffset file cs n).next = (tokenAt file cs (firstFrom cs n),
      ofOffset file cs (firstFrom cs n + max (lexeme (cs.drop (firstFrom cs n))).2.length 1)) := by
  rw [next, skipBlanks_ofOffset]
  simp only [advanceBy_ofOffset]
  rfl

theorem exists_next_eq_ofOffset (file : String) (cs : List Char) (n : Nat) :
    ∃ m, (ofOffset file cs n).next.2 = ofOffset file cs m := ⟨_, by rw [next_ofOffset]⟩

theorem drop_firstFrom (cs : List Char) (n : Nat) :
    cs.drop (firstFrom cs n) = (cs.drop n).dropWhile isBlank := by
  have h := (ofOffset "" cs n).rest_skipBlanks
  rw [skipBlanks_ofOffset] at h
  exact h

theorem not_isBlank_firstFrom (cs : List Char) (n : Nat) :
    ∀ c ∈ (cs.drop (firstFrom cs n)).head?, isBlank c = false := by
  intro c hc
  rw [drop_firstFrom] at hc
  have h := List.head?_dropWhile_not isBlank (cs.drop n)
  rwa [hc] at h

end Cursor

/-! ## What a span covers -/

/-- The part of a text that a span covers: what stands on its line from its
first column to its last. -/
def Span.slice (s : Span) (cs : List Char) : List Char :=
  (((cs.splitOn '\n').getD (s.startLine - 1).toNat []).drop (s.startColumn - 1).toNat).take
    (s.endColumn + 1 - s.startColumn).toNat

theorem take_takeWhile {p : Char → Bool} {xs : List Char} (h : xs <+: cs) (hp : ∀ c ∈ xs, p c = true) :
    (cs.takeWhile p).take xs.length = xs := by
  obtain ⟨ys, rfl⟩ := h
  rw [List.takeWhile_append_of_pos hp, List.take_left]

/-- Characters on one line are what their span covers. -/
theorem slice_eq {file : String} {xs : List Char} (h : xs <+: cs.drop n) (hb : '\n' ∉ xs) :
    Span.slice ⟨file, lineAt cs n, columnAt cs n, lineAt cs n, columnAt cs n + xs.length - 1⟩ cs = xs := by
  have hl : ((lineAt cs n : Int) - 1).toNat = (cs.take n).count '\n' := by
    rw [lineAt]
    omega
  have hc : (columnAt cs n - 1).toNat = (lastLine (cs.take n)).length := by
    rw [columnAt_eq]
    omega
  have hw : (columnAt cs n + xs.length - 1 + 1 - columnAt cs n).toNat = xs.length := by omega
  simp only [Span.slice, hl, hc, hw, List.getD_eq_getElem?_getD, getElem?_splitOn_count,
    Option.getD_some, List.drop_left]
  refine take_takeWhile h fun c hm => ?_
  rw [decide_eq_true_eq]
  rintro rfl
  exact hb hm

/-! ## Tokens in their places -/

/-- No blank is part of a token. -/
theorem not_isBlank_of_mem_lexeme {c d : Char} (hb : isBlank c = false) (hd : d ∈ (lexeme (c :: cs)).2) :
    isBlank d = false := by
  rcases lexeme_cases c cs with ⟨hc, h⟩ | ⟨-, hc, h⟩ | ⟨k, ds, -, -, h⟩ | ⟨k, -, h⟩ <;>
    simp only [h, List.mem_cons, List.not_mem_nil, or_false] at hd
  · rcases hd with rfl | hd
    · exact hb
    · exact isBlank_eq_false (.inl (List.mem_takeWhile_imp hd))
  · rcases hd with rfl | hd
    · exact hb
    · exact isBlank_eq_false (.inr (List.mem_takeWhile_imp hd))
  · rcases hd with rfl | rfl
    · exact hb
    · rfl
  · exact hd ▸ hb

/-- The token stands in the text where its span says. An end token covers the
one column behind the text, and any other token just its characters. -/
structure Token.Placed (file : String) (cs : List Char) (t : Token) : Prop where
  start : ∃ n ≤ cs.length, t.literal.toList <+: cs.drop n ∧ t.span.startLine = lineAt cs n ∧
    t.span.startColumn = columnAt cs n
  endLine : t.span.endLine = t.span.startLine
  slice : t.kind ≠ .eof → t.literal ≠ "" ∧ t.span.slice cs = t.literal.toList
  final : t.kind = .eof → t.literal = "" ∧ t.span =
    ⟨file, lineAt cs cs.length, columnAt cs cs.length, lineAt cs cs.length, columnAt cs cs.length⟩
  file : t.span.file = file

namespace Cursor

theorem placed_tokenAt (file : String) (h : ∀ c ∈ (cs.drop n).head?, isBlank c = false) :
    (tokenAt file cs n).Placed file cs := by
  have hcol := columnAt_eq cs n
  cases hd : cs.drop n with
  | nil =>
    have hle : cs.length ≤ n := List.drop_eq_nil_iff.mp hd
    have ht : cs.take n = cs.take cs.length := by
      rw [List.take_of_length_le hle, List.take_length]
    have hline : lineAt cs n = lineAt cs cs.length := by rw [lineAt, ht, lineAt]
    have hcolumn : columnAt cs n = columnAt cs cs.length := by rw [columnAt_eq, ht, columnAt_eq]
    have hspan : (tokenAt file cs n).span = ⟨file, lineAt cs cs.length, columnAt cs cs.length,
        lineAt cs cs.length, columnAt cs cs.length⟩ := by
      simp [tokenAt, token, ofOffset, hd, lexeme, hline, ← hcol, hcolumn]
    have hkind : (tokenAt file cs n).kind = .eof := by rw [tokenAt, hd]; rfl
    have hlit : (tokenAt file cs n).literal = "" := by rw [tokenAt, hd]; rfl
    refine ⟨⟨cs.length, Nat.le_refl _, ?_, ?_, ?_⟩, by rw [hspan],
      fun hk => absurd hkind hk, fun _ => ⟨hlit, hspan⟩, by rw [hspan]⟩
    · rw [hlit]
      exact List.nil_prefix
    · rw [hspan]
    · rw [hspan]
  | cons c ds =>
    have hb : isBlank c = false := h c (by rw [hd]; rfl)
    have hlt : n < cs.length := by
      rcases Nat.lt_or_ge n cs.length with hlt | hge
      · exact hlt
      · rw [List.drop_eq_nil_of_le hge] at hd
        cases hd
    have hpos := length_lexeme_pos c ds
    have hlit : (tokenAt file cs n).literal.toList = (lexeme (c :: ds)).2 := by
      rw [tokenAt, hd, token, String.toList_ofList]
    have hleads : (tokenAt file cs n).literal.toList <+: cs.drop n := by
      rw [hlit, hd]
      exact lexeme_leads c ds
    have hspan : (tokenAt file cs n).span = ⟨file, lineAt cs n, columnAt cs n, lineAt cs n,
        columnAt cs n + (tokenAt file cs n).literal.toList.length - 1⟩ := by
      rw [hlit]
      simp [tokenAt, token, ofOffset, hd, ← hcol, Nat.max_eq_left hpos]
    refine ⟨⟨n, Nat.le_of_lt hlt, hleads, by rw [hspan], by rw [hspan]⟩, by rw [hspan],
      fun _ => ⟨?_, ?_⟩, fun hk => ?_, by rw [hspan]⟩
    · intro he
      rw [he] at hlit
      rw [← hlit] at hpos
      exact Nat.lt_irrefl 0 hpos
    · rw [hspan]
      refine slice_eq hleads fun hm => ?_
      rw [hlit] at hm
      exact Bool.noConfusion (not_isBlank_of_mem_lexeme hb hm)
    · have hne := lexeme_ne_eof c ds
      rw [tokenAt, hd] at hk
      exact absurd hk hne

theorem placed_next (file : String) (cs : List Char) (n : Nat) :
    (ofOffset file cs n).next.1.Placed file cs := by
  rw [next_ofOffset]
  exact placed_tokenAt file (not_isBlank_firstFrom cs n)

/-! ## Runs -/

/-- What can be asked of a cursor. -/
inductive Move where
  | next | drain | peek | skipBlanks | advance

/-- The tokens that a move yields, and the cursor after it. -/
def move (c : Cursor) : Move → List Token × Cursor
  | .next => ([c.next.1], c.next.2)
  | .drain => c.drain
  | .peek => ([], c)
  | .skipBlanks => ([], c.skipBlanks)
  | .advance => ([], c.advance)

/-- The tokens that moves yield, and the cursor after them. -/
def run (c : Cursor) : List Move → List Token × Cursor
  | [] => ([], c)
  | m :: ms => ((c.move m).1 ++ ((c.move m).2.run ms).1, ((c.move m).2.run ms).2)

/-- The state of a cursor follows from its position in the text. -/
structure Placed (cs : List Char) (c : Cursor) : Prop where
  readPosition : c.readPosition = c.position + 1
  char : c.char? = cs[c.position]?
  peekChar : c.peekChar? = cs[c.readPosition]?
  line : c.line = lineAt cs c.position
  column : c.column = columnAt cs c.position

theorem placed_ofOffset (file : String) (cs : List Char) (n : Nat) : (ofOffset file cs n).Placed cs where
  readPosition := rfl
  char := List.head?_drop
  peekChar := by rw [peekChar?, ofOffset, List.tail_drop, List.head?_drop]
  line := rfl
  column := by rw [ofOffset, columnAt_eq, Int.natCast_add, Int.natCast_one]

/-- The tokens stand in their places, and the cursor is one of the text. -/
structure Kept (file : String) (cs : List Char) (r : List Token × Cursor) : Prop where
  tokens : ∀ t ∈ r.1, t.Placed file cs
  cursor : ∃ n, r.2 = ofOffset file cs n

theorem kept_take (file : String) (cs : List Char) (k n : Nat) : Kept file cs (take k (ofOffset file cs n)) := by
  induction k generalizing n with
  | zero => exact ⟨by simp [take], n, rfl⟩
  | succ k ih =>
    by_cases hk : (ofOffset file cs n).next.1.kind = .eof
    · simp only [take, if_pos hk]
      exact ⟨by simp, n, rfl⟩
    · simp only [take, if_neg hk]
      have ht := placed_next file cs n
      obtain ⟨m, hm⟩ := exists_next_eq_ofOffset file cs n
      obtain ⟨hs, hc⟩ := ih m
      rw [hm]
      exact ⟨List.forall_mem_cons.mpr ⟨ht, hs⟩, hc⟩

theorem kept_move (file : String) (cs : List Char) (n : Nat) (m : Move) :
    Kept file cs ((ofOffset file cs n).move m) := by
  cases m with
  | next =>
    exact ⟨by simpa [move] using placed_next file cs n, exists_next_eq_ofOffset file cs n⟩
  | drain =>
    obtain ⟨hs, k, hc⟩ := kept_take file cs (ofOffset file cs n).rest.length n
    have ht := placed_next file cs k
    refine ⟨?_, ?_⟩
    · simp only [move, drain, hc, List.forall_mem_append]
      exact ⟨hs, by simpa using ht⟩
    · simp only [move, drain, hc]
      exact exists_next_eq_ofOffset file cs k
  | peek => exact ⟨by simp [move], n, rfl⟩
  | skipBlanks => exact ⟨by simp [move], _, skipBlanks_ofOffset file cs n⟩
  | advance => exact ⟨by simp [move], _, advance_ofOffset file cs n⟩

theorem kept_run (file : String) (cs : List Char) (n : Nat) (ms : List Move) :
    Kept file cs ((ofOffset file cs n).run ms) := by
  induction ms generalizing n with
  | nil => exact ⟨by simp [run], n, rfl⟩
  | cons m ms ih =>
    obtain ⟨hs, k, hc⟩ := kept_move file cs n m
    obtain ⟨hs', hc'⟩ := ih k
    rw [run, hc]
    exact ⟨List.forall_mem_append.mpr ⟨hs, hs'⟩, hc'⟩

/-- **Wherever a cursor is moved, in any order and past the end too, its line
and column are those of its position, and so are those of each token.** -/
theorem placed_run (file source : String) (ms : List Move) :
    ((start file source).run ms).2.Placed source.toList ∧
      ∀ t ∈ ((start file source).run ms).1, t.Placed file source.toList := by
  obtain ⟨hs, n, hc⟩ := kept_run file source.toList 0 ms
  rw [start_eq_ofOffset]
  refine ⟨?_, hs⟩
  rw [hc]
  exact placed_ofOffset file source.toList n

end Cursor

end ExprLang
