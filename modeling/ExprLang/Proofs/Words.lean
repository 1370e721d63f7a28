/-
The word under the cursor.

A word of a line is a run of word characters that goes on neither to the left
nor to the right (`Word`). The cursor touches one at most, and that one is
looked up. A cursor at the end of the line is taken to be on the last
character, and so finds a word that ends in front of that one, too. Main
statement: `wordAt_eq_iff`.
-/
import Mathlib.Data.List.DropRight
import ExprLang.Editor.Word
import ExprLang.Proofs.Division

namespace ExprLang.Editor

variable {source w : String} {line before word after : List Char} {n : Nat} {character : Int}

/-- The line has a word between two other parts, neither of which continues it. -/
structure Word (line before word after : List Char) : Prop where
  eq : line = before ++ word ++ after
  ne_nil : word ≠ []
  all : ∀ c ∈ word, isWordPart c = true
  left : ∀ c ∈ before.getLast?, isWordPart c = false
  right : ∀ c ∈ after.head?, isWordPart c = false

theorem Word.length_eq (h : Word line before word after) :
    line.length = before.length + word.length + after.length := by
  rw [h.eq, List.length_append, List.length_append]

/-! ## Around a place -/

/-- What is found around a place at a word is this word. -/
theorem Word.wordAround_eq (h : Word line before word after) (hs : before.length ≤ n)
    (he : n ≤ before.length + word.length) : wordAround line n = word := by
  obtain ⟨i, rfl⟩ := Nat.exists_eq_add_of_le hs
  have hsplit : line = (before ++ word.take i) ++ (word.drop i ++ after) := by
    rw [List.append_assoc, ← List.append_assoc (word.take i), List.take_append_drop, ← List.append_assoc, h.eq]
  have hlen : (before ++ word.take i).length = before.length + i := by
    rw [List.length_append, List.length_take]
    omega
  have hleft : ((before ++ word.take i).reverse.takeWhile isWordPart).reverse = word.take i := by
    rw [List.reverse_append, takeWhile_append_of_head?, List.reverse_reverse]
    · exact fun c hc => h.all c (List.mem_of_mem_take (List.mem_reverse.mp hc))
    · rw [List.head?_reverse]
      exact h.left
  have hright : (word.drop i ++ after).takeWhile isWordPart = word.drop i :=
    takeWhile_append_of_head? (fun c hc => h.all c (List.mem_of_mem_drop hc)) h.right
  rw [wordAround, hsplit, ← hlen, List.take_left, List.drop_left, hleft, hright, List.take_append_drop]

/-- What is found around a place is a word there, or nothing. -/
theorem exists_word_wordAround (hn : n ≤ line.length) (hne : wordAround line n ≠ []) :
    ∃ before after, Word line before (wordAround line n) after ∧ before.length ≤ n ∧
      n ≤ before.length + (wordAround line n).length := by
  let front := (line.take n).rdropWhile isWordPart
  let left := (line.take n).rtakeWhile isWordPart
  let right := (line.drop n).takeWhile isWordPart
  let back := (line.drop n).dropWhile isWordPart
  have hw : wordAround line n = left ++ right := rfl
  have htake : front ++ left = line.take n := List.rdropWhile_append_rtakeWhile
  have hdrop : right ++ back = line.drop n := List.takeWhile_append_dropWhile
  have hlen : front.length + left.length = n := by
    rw [← List.length_append, htake, List.length_take_of_le hn]
  refine ⟨front, back, ⟨?_, hne, ?_, ?_, ?_⟩, ?_⟩
  · rw [hw, ← List.append_assoc, htake, List.append_assoc, hdrop, List.take_append_drop]
  · rw [hw, List.forall_mem_append]
    exact ⟨fun c hc => List.mem_rtakeWhile_imp hc, fun c hc => List.mem_takeWhile_imp hc⟩
  · intro c hc
    obtain ⟨hne, rfl⟩ := List.mem_getLast?_eq_getLast hc
    simpa using List.rdropWhile_last_not isWordPart _ hne
  · intro c hc
    have hback := List.head?_dropWhile_not isWordPart (line.drop n)
    rwa [hc] at hback
  · rw [hw, List.length_append]
    omega

/-! ## At a character -/

theorem wordInLine_of_lt (h0 : 0 ≤ character) (h : character < line.length) :
    wordInLine line character = wordAround line character.toNat := by
  have hout : (decide (character < 0) || decide ((line.length : Int) < character)) = false := by
    simp only [Bool.or_eq_false_iff, decide_eq_false_iff_not]
    omega
  rw [wordInLine, hout, if_neg (by decide), if_pos (by omega)]

theorem wordInLine_length (h : 0 < line.length) :
    wordInLine line line.length = wordAround line (line.length - 1) := by
  have hout : (decide ((line.length : Int) < 0) || decide ((line.length : Int) < line.length)) = false := by
    simp only [Bool.or_eq_false_iff, decide_eq_false_iff_not]
    omega
  rw [wordInLine, hout, if_neg (by decide), Int.toNat_natCast, if_neg (by omega), if_pos h]

/-- Outside the line there is nothing, and nothing in an empty one. -/
theorem wordInLine_eq_nil (h : character < 0 ∨ line.length < character ∨ line.length = 0) :
    wordInLine line character = [] := by
  unfold wordInLine
  split
  · rfl
  next hout =>
    simp only [Bool.or_eq_true, decide_eq_true_eq] at hout
    rw [if_neg (by omega), if_neg (by omega)]

/-- The word at a character touches it, or the character is the end of the line
and the word ends in front of the last one. -/
theorem wordInLine_eq_iff (hne : word ≠ []) : wordInLine line character = word ↔
    ∃ before after, Word line before word after ∧
      ((before.length ≤ character ∧ character ≤ before.length + word.length) ∨
        (character = line.length ∧ before.length + word.length + 1 = character)) := by
  have hpos := List.length_pos_iff.mpr hne
  by_cases hout : character < 0 ∨ line.length < character ∨ line.length = 0
  · rw [wordInLine_eq_nil hout]
    refine iff_of_false hne.symm ?_
    rintro ⟨before, after, h, hplace⟩
    have := h.length_eq
    omega
  -- At the end of the line the place is that of the last character.
  by_cases hend : character = line.length
  · subst hend
    rw [wordInLine_length (by omega)]
    constructor
    · rintro rfl
      obtain ⟨before, after, h, hs, he⟩ := exists_word_wordAround (Nat.sub_le _ _) hne
      exact ⟨before, after, h, by omega⟩
    · rintro ⟨before, after, h, hplace⟩
      have := h.length_eq
      exact h.wordAround_eq (by omega) (by omega)
  · rw [wordInLine_of_lt (by omega) (by omega)]
    constructor
    · rintro rfl
      obtain ⟨before, after, h, hs, he⟩ := exists_word_wordAround (by omega) hne
      exact ⟨before, after, h, by omega⟩
    · rintro ⟨before, after, h, hplace⟩
      exact h.wordAround_eq (by omega) (by omega)

/-! ## At a position -/

theorem wordAt_of_getElem? {text : List Char} (h : (Text.lines source.toList)[n]? = some text)
    (character : Int) : wordAt source n character = String.ofList (wordInLine text character) := by
  rw [wordAt, if_neg (by omega), Int.toNat_natCast, h]

/-- **The word at a position touches it, or ends one character short of the end
of the line, where the position is.** A word is found just if the line is there
and has it at such a place; then no other word is found. -/
theorem wordAt_eq_iff (source : String) (line character : Int) (w : String) :
    (wordAt source line character = w ∧ w ≠ "") ↔
      0 ≤ line ∧ ∃ text before after, (Text.lines source.toList)[line.toNat]? = some text ∧
        Word text before w.toList after ∧
        ((before.length ≤ character ∧ character ≤ before.length + w.toList.length) ∨
          (character = text.length ∧ before.length + w.toList.length + 1 = character)) := by
  by_cases hw : w = ""
  · refine iff_of_false (fun h => h.2 hw) ?_
    rintro ⟨-, text, before, after, -, h, -⟩
    exact h.ne_nil (by rw [hw]; rfl)
  have hne : w.toList ≠ [] := mt String.toList_eq_nil_iff.mp hw
  rw [and_iff_left hw, wordAt]
  split
  · next hline => exact iff_of_false (Ne.symm hw) (fun h => by omega)
  next hline =>
  rw [and_iff_right (Int.not_lt.mp hline)]
  cases ht : (Text.lines source.toList)[line.toNat]? with
  | none => exact iff_of_false (Ne.symm hw) (by simp)
  | some text =>
    have hword : String.ofList (wordInLine text character) = w ↔ wordInLine text character = w.toList := by
      rw [← String.toList_inj, String.toList_ofList]
    simp only [Option.some.injEq, exists_and_left, exists_eq_left', hword]
    exact wordInLine_eq_iff hne

/-- Behind the parenthesis that ends a line the cursor touches no word, but the
one in front of the parenthesis is found. -/
theorem wordAt_parenthesis :
    Text.lines "ab(".toList = [['a', 'b', '(']] ∧ wordAt "ab(" 0 3 = "ab" ∧
    ∀ before word after, Word ['a', 'b', '('] before word after →
      ¬ (before.length ≤ 3 ∧ 3 ≤ before.length + word.length) := by
  refine ⟨by decide, by decide, ?_⟩
  rintro before word after h ⟨-, he⟩
  have hlen := h.length_eq
  simp only [List.length_cons, List.length_nil] at hlen
  have hafter : after = [] := List.length_eq_zero_iff.mp (by omega)
  have hlast : ['a', 'b', '('].getLast? = word.getLast? := by
    rw [h.eq, hafter, List.append_nil, List.getLast?_append, List.getLast?_eq_some_getLast h.ne_nil, Option.some_or]
  exact absurd (h.all '(' (List.mem_of_getLast? hlast.symm)) (by decide)

end ExprLang.Editor
