/-
The lines of a text, for those who end them at `\n` only and for those who
end them at every line break.

Those who end them at every line break find at least one line in a line of the
others (`Text.broken`). They find one and no more if that line is `Solid`, with
no line break but a carriage return at its end. So both count lines alike as
long as these are solid, and no further (`Text.getElem?_lines`,
`Text.exists_getElem?_lines`).
-/
import Mathlib.Data.List.TakeWhile
import ExprLang.Text.Lines

namespace ExprLang.Text

variable {line rest cs : List Char} {ls : List (List Char)} {c : Char} {k : Nat}

/-- A line without the carriage return at its end. -/
def chomp : List Char → List Char
  | [] => []
  | c :: line => if c = '\r' ∧ line = [] then [] else c :: chomp line

/-- But for a carriage return at its end, no character of the line breaks lines. -/
def Solid (line : List Char) : Prop := ∀ c ∈ chomp line, isLineBreak c = false

instance : DecidablePred Solid := fun line => List.decidableBAll _ (chomp line)

/-- The lines that a line falls into at every line break. -/
def broken (line : List Char) : List (List Char) := lines (line ++ ['\n'])

/-- The beginning of a line, up to its first line break. -/
def unbroken (line : List Char) : List Char := line.takeWhile fun c => !isLineBreak c

/-! ## Carriage returns -/

theorem chomp_append (cs : List Char) (h : line ≠ []) : chomp (cs ++ line) = cs ++ chomp line := by
  induction cs with
  | nil => rfl
  | cons c cs ih => simp [chomp, ih, h]

/-- A line is left as it is, or it loses the carriage return at its end. -/
theorem eq_chomp_or (line : List Char) : line = chomp line ∨ line = chomp line ++ ['\r'] := by
  induction line with
  | nil => exact .inl rfl
  | cons c line ih =>
    by_cases hc : c = '\r' ∧ line = []
    · exact .inr (by simp [chomp, hc])
    · simp only [chomp, if_neg hc, List.cons_append, List.cons.injEq, true_and]
      exact ih

theorem chomp_eq_self (h : '\r' ∉ line) : chomp line = line := by
  rcases eq_chomp_or line with he | he
  · exact he.symm
  · rw [he] at h
    simp at h

theorem mem_of_mem_chomp {c : Char} (h : c ∈ chomp line) : c ∈ line := by
  rcases eq_chomp_or line with he | he
  · rwa [he]
  · rw [he]
    exact List.mem_append_left _ h

theorem isLineBreak_of_mem_unbroken {c : Char} (h : c ∈ unbroken line) : isLineBreak c = false := by
  simpa using List.mem_takeWhile_imp h

/-- A line goes on to its end, but for its carriage return, just if it is solid. -/
theorem unbroken_eq_chomp_iff : unbroken line = chomp line ↔ Solid line := by
  constructor
  · intro h c hc
    rw [← h] at hc
    exact isLineBreak_of_mem_unbroken hc
  · intro h
    have hall : ∀ c ∈ chomp line, (!isLineBreak c) = true := fun c hc => by simp [h c hc]
    rcases eq_chomp_or line with he | he
    · rw [unbroken, List.takeWhile_eq_self_iff.mpr (by rwa [he]), ← he]
    · rw [unbroken, he, List.takeWhile_append_of_pos hall, ← he]
      simp [isLineBreak]

/-! ## Line breaks -/

theorem lines_crlf (cs : List Char) : lines ('\r' :: '\n' :: cs) = [] :: lines cs := rfl

theorem lines_cons_break (h : isLineBreak c = true) (hn : c = '\r' → cs.head? ≠ some '\n') :
    lines (c :: cs) = [] :: lines cs := by
  rw [lines.eq_def]
  split <;> simp_all

theorem lines_cons (h : isLineBreak c = false) :
    lines (c :: cs) = match lines cs with
      | [] => [[c]]
      | line :: more => (c :: line) :: more := by
  rw [lines.eq_def]
  split
  · simp_all
  · simp_all [isLineBreak]
  next heq =>
    obtain ⟨rfl, rfl⟩ := List.cons.inj heq
    exact if_neg (by simp [h])

/-- The first line goes on up to the first line break. -/
theorem head?_lines (h : cs ≠ []) : (lines cs).head? = some (unbroken cs) := by
  induction cs with
  | nil => exact absurd rfl h
  | cons c cs ih =>
    cases hc : isLineBreak c with
    | true =>
      have hu : unbroken (c :: cs) = [] := by simp [unbroken, hc]
      rw [hu]
      unfold lines
      split <;> simp_all
    | false =>
      have hu : unbroken (c :: cs) = c :: unbroken cs := by simp [unbroken, hc]
      rw [lines_cons hc, hu]
      cases cs with
      | nil => rfl
      | cons d cs =>
        have hd := ih (List.cons_ne_nil _ _)
        cases hl : lines (d :: cs) with
        | nil => simp [hl] at hd
        | cons line more =>
          rw [hl] at hd
          simpa using hd

theorem unbroken_append_newline (line rest : List Char) :
    unbroken (line ++ '\n' :: rest) = unbroken line := by
  induction line with
  | nil => simp [unbroken, isLineBreak]
  | cons c line ih =>
    simp only [unbroken, List.cons_append, List.takeWhile_cons] at ih ⊢
    rw [ih]

theorem head?_broken (line : List Char) : (broken line).head? = some (unbroken line) := by
  rw [broken, head?_lines (by simp), unbroken_append_newline]

/-- A text falls apart at `\n`. -/
theorem lines_append (line rest : List Char) : lines (line ++ '\n' :: rest) = broken line ++ lines rest := by
  induction line using lines.induct with
  | case1 => rfl
  | case2 line ih =>
    simp only [broken, List.cons_append, lines_crlf] at ih ⊢
    rw [ih]
  | case3 c line hn hb ih =>
    by_cases hc : c = '\r' ∧ line = []
    · obtain ⟨rfl, rfl⟩ := hc
      rfl
    · have hhead (more : List Char) : c = '\r' → (line ++ '\n' :: more).head? ≠ some '\n' := by
        intro hr hm
        cases line with
        | nil => exact hc ⟨hr, rfl⟩
        | cons d line =>
          obtain rfl : d = '\n' := by simpa using hm
          exact hn line hr rfl
      rw [broken, List.cons_append, List.cons_append, lines_cons_break hb (hhead _), lines_cons_break hb (hhead _), ih]
      rfl
  | case4 c line _ hb _ ih | case5 c line _ hb _ _ _ ih =>
    rw [Bool.not_eq_true] at hb
    have hne := head?_broken line
    rw [broken, List.cons_append, List.cons_append, lines_cons hb, lines_cons hb, ih, ← broken]
    cases hl : broken line with
    | nil => simp [hl] at hne
    | cons first more => rfl

/-! ## Lines that end at `\n` -/

/-- A text is one line without `\n`, or such a line and a text behind it. -/
theorem splitOn_induction {P : List Char → List (List Char) → Prop}
    (last : ∀ {line}, '\n' ∉ line → P line [line])
    (more : ∀ {line rest}, '\n' ∉ line → P rest (rest.splitOn '\n') →
      P (line ++ '\n' :: rest) (line :: rest.splitOn '\n'))
    (cs : List Char) : P cs (cs.splitOn '\n') := by
  induction hn : cs.length using Nat.strongRecOn generalizing cs with
  | ind n ih =>
  by_cases hbreak : '\n' ∈ cs
  · obtain ⟨line, rest, rfl, hline⟩ := List.eq_append_cons_of_mem hbreak
    rw [List.length_append, List.length_cons] at hn
    rw [List.splitOn_append_cons_self_of_not_mem hline]
    exact more hline (ih rest.length (by omega) rest rfl)
  · rw [List.splitOn_eq_singleton hbreak]
    exact last hbreak

theorem length_splitOn (cs : List Char) : (cs.splitOn '\n').length = cs.count '\n' + 1 := by
  induction cs using splitOn_induction with
  | last hline => rw [List.count_eq_zero.mpr hline, List.length_singleton]
  | more hline ih =>
    rw [List.length_cons, ih, List.count_append, List.count_eq_zero.mpr hline, List.count_cons_self, Nat.zero_add]

theorem sublist_of_mem_splitOn : ∀ line ∈ cs.splitOn '\n', line.Sublist cs := by
  induction cs using splitOn_induction with
  | last => exact List.forall_mem_singleton.mpr (List.Sublist.refl _)
  | @more line rest _ ih =>
    refine List.forall_mem_cons.mpr ⟨List.sublist_append_left _ _, fun l hl => ?_⟩
    exact (ih l hl).trans ((List.sublist_cons_self _ _).trans (List.sublist_append_right _ _))

/-! ## Line by line -/

theorem broken_ne_nil (line : List Char) : broken line ≠ [] := by
  intro h
  have hh := head?_broken line
  rw [h] at hh
  cases hh

theorem length_broken_cons (h : isLineBreak c = false) :
    (broken (c :: line)).length = (broken line).length := by
  have hne := broken_ne_nil line
  rw [broken, List.cons_append, lines_cons h, ← broken]
  cases hl : broken line with
  | nil => exact absurd hl hne
  | cons first more => rfl

/-- At a line break another line begins, unless the carriage return is the end. -/
theorem one_lt_length_broken (hb : isLineBreak c = true) (hc : ¬ (c = '\r' ∧ line = [])) :
    1 < (broken (c :: line)).length := by
  have hpos (l : List Char) : 0 < (broken l).length := List.length_pos_iff.mpr (broken_ne_nil l)
  by_cases hn : c = '\r' → (line ++ ['\n']).head? ≠ some '\n'
  · have := hpos line
    rw [broken, List.cons_append, lines_cons_break hb hn, ← broken, List.length_cons]
    omega
  · obtain ⟨rfl, hhead⟩ : c = '\r' ∧ (line ++ ['\n']).head? = some '\n' := by simpa using hn
    cases line with
    | nil => exact absurd ⟨rfl, rfl⟩ hc
    | cons d line =>
      obtain rfl : d = '\n' := by simpa using hhead
      have := hpos line
      rw [broken, List.cons_append, List.cons_append, lines_crlf, ← broken, List.length_cons]
      omega

/-- Just the solid lines are one line for those who end lines at every break. -/
theorem length_broken_eq_one_iff : (broken line).length = 1 ↔ Solid line := by
  induction line with
  | nil => decide
  | cons c line ih =>
    by_cases hc : c = '\r' ∧ line = []
    · obtain ⟨rfl, rfl⟩ := hc
      decide
    · rw [Solid, chomp, if_neg hc, List.forall_mem_cons]
      cases hb : isLineBreak c with
      | false => rw [length_broken_cons hb, ih, and_iff_right rfl, Solid]
      | true =>
        have := one_lt_length_broken hb hc
        refine iff_of_false (by omega) ?_
        rintro ⟨hf, -⟩
        cases hf

/-- So many lines, or more, and just as many if they are solid. -/
theorem length_flatMap_broken (ls : List (List Char)) : ls.length ≤ (ls.flatMap broken).length ∧
    ((ls.flatMap broken).length = ls.length ↔ ∀ l ∈ ls, Solid l) := by
  induction ls with
  | nil => simp
  | cons l ls ih =>
    have hpos : 0 < (broken l).length := List.length_pos_iff.mpr (broken_ne_nil l)
    rw [List.flatMap_cons, List.length_append, List.length_cons, List.forall_mem_cons, ← ih.2,
      ← length_broken_eq_one_iff]
    omega

/-- A line that is not empty begins behind the lines that the lines above fall into. -/
theorem exists_lines_eq (hk : (cs.splitOn '\n')[k]? = some line) (hne : line ≠ []) :
    ∃ more, lines cs = ((cs.splitOn '\n').take k).flatMap broken ++ unbroken line :: more := by
  induction cs using splitOn_induction generalizing k with
  | last hline =>
    cases k with
    | zero =>
      obtain rfl := Option.some.inj hk
      exact List.head?_eq_some_iff.mp (head?_lines hne)
    | succ k => simp at hk
  | @more first rest _ ih =>
    rw [lines_append]
    cases k with
    | zero =>
      obtain rfl := Option.some.inj hk
      refine List.head?_eq_some_iff.mp ?_
      rw [List.head?_append, head?_broken, Option.some_or]
    | succ k =>
      obtain ⟨more, hm⟩ := ih hk
      exact ⟨more, by rw [hm, List.take_succ_cons, List.flatMap_cons, List.append_assoc]⟩

/-- **Both count lines alike behind solid lines, and behind no others.** Those
who end lines at every break have at that number, if the lines above are solid,
the beginning of the same line, up to its first line break. If they are not,
they have there what one of the lines above falls into. A line that is empty at
the end of a text they do not have. -/
theorem exists_getElem?_lines (hk : (cs.splitOn '\n')[k]? = some line) (hne : line ≠ []) :
    ∃ found, (lines cs)[k]? = some found ∧
      ((∀ l ∈ (cs.splitOn '\n').take k, Solid l) → found = unbroken line) ∧
      ((∃ l ∈ (cs.splitOn '\n').take k, ¬ Solid l) →
        ∃ l ∈ (cs.splitOn '\n').take k, found ∈ broken l) := by
  obtain ⟨more, hlines⟩ := exists_lines_eq hk hne
  have hlt : k < (cs.splitOn '\n').length := (List.getElem?_eq_some_iff.mp hk).1
  have hlen : ((cs.splitOn '\n').take k).length = k := List.length_take_of_le (Nat.le_of_lt hlt)
  obtain ⟨hle, hiff⟩ := length_flatMap_broken ((cs.splitOn '\n').take k)
  rw [hlen] at hle hiff
  rw [hlines]
  by_cases h : ∀ l ∈ (cs.splitOn '\n').take k, Solid l
  · refine ⟨unbroken line, ?_, fun _ => rfl, ?_⟩
    · rw [List.getElem?_append_right (hiff.mpr h).le, hiff.mpr h, Nat.sub_self, List.getElem?_cons_zero]
    · rintro ⟨l, hl, hn⟩
      exact absurd (h l hl) hn
  · have hlt : k < (((cs.splitOn '\n').take k).flatMap broken).length :=
      lt_of_le_of_ne hle fun he => h (hiff.mp he.symm)
    refine ⟨_, (List.getElem?_append_left hlt).trans (List.getElem?_eq_getElem hlt), fun hs => absurd hs h, ?_⟩
    intro _
    exact List.mem_flatMap.mp (List.getElem_mem hlt)

/-- Behind solid lines both count alike. -/
theorem getElem?_lines (hk : (cs.splitOn '\n')[k]? = some line) (hne : line ≠ [])
    (h : ∀ l ∈ (cs.splitOn '\n').take k, Solid l) : (lines cs)[k]? = some (unbroken line) := by
  obtain ⟨found, hfound, hsame, -⟩ := exists_getElem?_lines hk hne
  rw [hfound, hsame h]

end ExprLang.Text
