/-
Forms of control sequences, and what is left of a text without them.

Sequences are taken out from left to right, so that what begins like one can
run on into whatever stands behind it. Two pieces of a text can be stripped
apart if no sequence that begins in the first one runs on into the second
(`SequenceForm.strip_append`). That is so if the second begins with a character
that stops every sequence, or the first ends with one that none goes on behind.

`standard` is the form that streams strip (`standard_strip`), and `simple` the
one without signs: digits, `;` and `?`, then a letter.
-/
import Mathlib.Data.List.TakeWhile
import ExprLang.Text.Ansi

namespace ExprLang.Text

/-- A form of sequences: an escape character, an opening bracket, parameters,
then intermediate characters, and a final one. -/
structure SequenceForm where
  isParameter : Char → Bool
  isIntermediate : Char → Bool
  isFinal : Char → Bool

namespace SequenceForm

/-- The whole grammar of control sequences. -/
def standard : SequenceForm := ⟨isAnsiParameter, isAnsiIntermediate, isAnsiFinal⟩

/-- The sequences `\x1b\[[;?0-9]*[a-zA-Z]`. -/
def simple : SequenceForm := ⟨fun c => c = ';' || c = '?' || c.isDigit, fun _ => false, Char.isAlpha⟩

variable (f : SequenceForm)

/-- The length of a sequence whose escape character and bracket stand in front
of the text, or zero where it does not end. -/
def lengthFrom (rest : List Char) : Nat :=
  match (rest.dropWhile f.isParameter).dropWhile f.isIntermediate with
  | final :: _ =>
    if f.isFinal final then
      (rest.takeWhile f.isParameter).length +
        ((rest.dropWhile f.isParameter).takeWhile f.isIntermediate).length + 3
    else 0
  | [] => 0

/-- The length of the sequence at the head of a text, or zero where there is none. -/
def length : List Char → Nat
  | '\x1b' :: '[' :: rest => f.lengthFrom rest
  | _ => 0

/-- A text without sequences, after `skip` of its characters are left out. -/
def stripFrom : Nat → List Char → List Char
  | _, [] => []
  | skip + 1, _ :: rest => stripFrom skip rest
  | 0, c :: rest =>
    match f.length (c :: rest) with
    | 0 => c :: stripFrom 0 rest
    | skip + 1 => stripFrom skip rest

/-- A text without its sequences. -/
def strip (cs : List Char) : List Char := f.stripFrom 0 cs

@[simp] theorem strip_nil : f.strip [] = [] := rfl

theorem standard_length : standard.length = ansiLength := rfl

theorem standard_strip (text : String) : stripAnsi text = .ofList (standard.strip text.toList) := by
  have hfrom (skip : Nat) (cs : List Char) : standard.stripFrom skip cs = stripAnsiFrom skip cs := by
    induction cs generalizing skip with
    | nil => rw [stripFrom, stripAnsiFrom]
    | cons c cs ih =>
      cases skip with
      | zero =>
        rw [stripFrom, stripAnsiFrom, standard_length]
        cases ansiLength (c :: cs) <;> simp only [ih]
      | succ skip => exact ih skip
  rw [stripAnsi, strip, hfrom]

/-! ## Pieces that are stripped apart -/

variable {f : SequenceForm} {u v xs rest : List Char} {c : Char}

/-- No sequence that begins in the first piece runs on into the second. -/
def Splits (f : SequenceForm) (u v : List Char) : Prop :=
  ∀ w ≠ [], w <:+ u → f.length (w ++ v) = f.length w

theorem length_of_ne (h : c ≠ '\x1b') (cs : List Char) : f.length (c :: cs) = 0 := by
  unfold length
  split
  next he => exact absurd (List.cons.inj he).1 h
  next => rfl

theorem length_escape_of_ne (h : c ≠ '[') (cs : List Char) : f.length ('\x1b' :: c :: cs) = 0 := by
  unfold length
  split
  next he => exact absurd (List.cons.inj (List.cons.inj he).2).1 h
  next => rfl

theorem lengthFrom_le (rest : List Char) : f.lengthFrom rest ≤ rest.length + 2 := by
  have hp := congrArg List.length (List.takeWhile_append_dropWhile (p := f.isParameter) (l := rest))
  have hi := congrArg List.length
    (List.takeWhile_append_dropWhile (p := f.isIntermediate) (l := rest.dropWhile f.isParameter))
  rw [List.length_append] at hp hi
  unfold lengthFrom
  split
  next final after he =>
    rw [he, List.length_cons] at hi
    split <;> omega
  next => exact Nat.zero_le _

/-- A sequence stands in the text that it is at the head of. -/
theorem length_le (cs : List Char) : f.length cs ≤ cs.length := by
  unfold length
  split
  · exact lengthFrom_le _
  · exact Nat.zero_le _

theorem stripFrom_append (h : f.Splits u v) {skip : Nat} (hskip : skip ≤ u.length) :
    f.stripFrom skip (u ++ v) = f.stripFrom skip u ++ f.strip v := by
  induction u generalizing skip with
  | nil =>
    obtain rfl : skip = 0 := by simpa using hskip
    rw [stripFrom]
    rfl
  | cons c u ih =>
    have hu : f.Splits u v := fun w hne hw => h w hne (hw.trans (List.suffix_cons c u))
    have hlength : f.length (c :: (u ++ v)) = f.length (c :: u) := h (c :: u) (by simp) List.suffix_rfl
    have hle := f.length_le (c :: u)
    rw [List.length_cons] at hskip hle
    cases skip with
    | succ skip =>
      rw [List.cons_append, stripFrom, stripFrom, ih hu (by omega)]
    | zero =>
      rw [List.cons_append, stripFrom, stripFrom, hlength]
      cases hl : f.length (c :: u) with
      | zero => exact congrArg (c :: ·) (ih hu (Nat.zero_le _))
      | succ skip => exact ih hu (by omega)

theorem strip_append (h : f.Splits u v) : f.strip (u ++ v) = f.strip u ++ f.strip v :=
  stripFrom_append h (Nat.zero_le _)

/-- The two beginnings of a sequence that the end of the first piece can be. -/
theorem Splits.intro (hescape : u.getLast? = some '\x1b' → v.head? ≠ some '[')
    (hbracket : ∀ rest, '\x1b' :: '[' :: rest <:+ u → f.lengthFrom (rest ++ v) = f.lengthFrom rest) :
    f.Splits u v := by
  intro w hne hw
  match w with
  | x :: w =>
    by_cases hx : x = '\x1b'
    · subst hx
      match w with
      | [] =>
        obtain ⟨front, rfl⟩ := hw
        have hv := hescape (by simp)
        cases v with
        | nil => rfl
        | cons d v => exact length_escape_of_ne (fun hd => hv (hd ▸ rfl)) v
      | y :: rest =>
        by_cases hy : y = '['
        · subst hy
          exact hbracket rest hw
        · exact (length_escape_of_ne hy _).trans (length_escape_of_ne hy _).symm
    · exact (length_of_ne hx _).trans (length_of_ne hx _).symm

/-- Where a run of characters cannot go on into the second piece, it ends as it does without it. -/
theorem span_append {p : Char → Bool} (h : (∃ c ∈ xs, p c = false) ∨ ∀ c ∈ v.head?, p c = false) :
    (xs ++ v).takeWhile p = xs.takeWhile p ∧ (xs ++ v).dropWhile p = xs.dropWhile p ++ v := by
  induction xs with
  | nil =>
    cases v with
    | nil => exact ⟨rfl, rfl⟩
    | cons d v =>
      have hd : p d = false := by simpa using h
      simp [hd]
  | cons x xs ih =>
    cases hx : p x with
    | false => simp [hx]
    | true =>
      obtain ⟨ht, hd⟩ := ih (by simpa [hx] using h)
      simp [hx, ht, hd]

/-- Neither a parameter nor an intermediate character. -/
structure Ends (f : SequenceForm) (c : Char) : Prop where
  parameter : f.isParameter c = false
  intermediate : f.isIntermediate c = false

/-- No sequence takes the character in behind its escape character. -/
structure Stops (f : SequenceForm) (c : Char) : Prop extends f.Ends c where
  final : f.isFinal c = false
  bracket : c ≠ '['

/-- No sequence goes on behind the character. -/
structure Closes (f : SequenceForm) (c : Char) : Prop extends f.Ends c where
  bracket : c ≠ '['
  escape : c ≠ '\x1b'

theorem Splits.of_head? (h : ∀ c ∈ v.head?, f.Stops c) : f.Splits u v := by
  refine .intro (fun _ hv => (h _ hv).bracket rfl) fun rest _ => ?_
  obtain ⟨ht, hd⟩ := @span_append v rest f.isParameter (.inr fun c hc => (h c hc).parameter)
  obtain ⟨ht', hd'⟩ := @span_append v (rest.dropWhile f.isParameter) f.isIntermediate
    (.inr fun c hc => (h c hc).intermediate)
  unfold lengthFrom
  rw [ht, hd, ht', hd']
  cases (rest.dropWhile f.isParameter).dropWhile f.isIntermediate with
  | cons final after => rfl
  | nil =>
    cases v with
    | nil => rfl
    | cons d v => simp [(h d rfl).final]

theorem mem_dropWhile {p : Char → Bool} (hc : c ∈ xs) (hp : p c = false) : c ∈ xs.dropWhile p := by
  rw [← List.takeWhile_append_dropWhile (p := p) (l := xs), List.mem_append] at hc
  refine hc.resolve_left fun ht => ?_
  rw [List.mem_takeWhile_imp ht] at hp
  cases hp

theorem lengthFrom_append (hc : c ∈ rest) (h : f.Ends c) : f.lengthFrom (rest ++ v) = f.lengthFrom rest := by
  have hmem := mem_dropWhile hc h.parameter
  obtain ⟨ht, hd⟩ := @span_append v rest f.isParameter (.inl ⟨c, hc, h.parameter⟩)
  obtain ⟨ht', hd'⟩ := @span_append v (rest.dropWhile f.isParameter) f.isIntermediate
    (.inl ⟨c, hmem, h.intermediate⟩)
  unfold lengthFrom
  rw [ht, hd, ht', hd']
  have hmem := mem_dropWhile hmem h.intermediate
  cases hr : (rest.dropWhile f.isParameter).dropWhile f.isIntermediate with
  | cons final after => rfl
  | nil => simp [hr] at hmem

theorem Splits.of_getLast? (hc : u.getLast? = some c) (h : f.Closes c) : f.Splits u v := by
  refine .intro (fun he => ?_) fun rest hrest => lengthFrom_append (c := c) ?_ h.toEnds
  · rw [hc] at he
    exact absurd (Option.some.inj he) h.escape
  · obtain ⟨front, rfl⟩ := hrest
    have hlast : c ∈ ('[' :: rest).getLast? := by simpa using hc
    exact (List.mem_cons.mp (List.mem_of_getLast? hlast)).resolve_left h.bracket

theorem Splits.of_notMem (h : '\x1b' ∉ u) : f.Splits u v := by
  intro w hne hw
  cases w with
  | nil => exact absurd rfl hne
  | cons x w =>
    have hx : x ≠ '\x1b' := fun hx => h (hw.subset (hx ▸ List.mem_cons_self))
    rw [List.cons_append, length_of_ne hx, length_of_ne hx]

theorem strip_of_notMem (h : '\x1b' ∉ u) : f.strip u = u := by
  induction u with
  | nil => rfl
  | cons c u ih =>
    rw [List.mem_cons, not_or] at h
    rw [strip, stripFrom, length_of_ne (Ne.symm h.1)]
    exact congrArg (c :: ·) (ih h.2)

/-! ## Whole sequences -/

/-- The characters are one sequence, whatever stands behind them. -/
def IsSequence (f : SequenceForm) (xs : List Char) : Prop :=
  xs ≠ [] ∧ ∀ v, f.length (xs ++ v) = xs.length

theorem IsSequence.strip_append (h : f.IsSequence xs) (v : List Char) : f.strip (xs ++ v) = f.strip v := by
  obtain ⟨hne, hlength⟩ := h
  have hskip (ys : List Char) : f.stripFrom ys.length (ys ++ v) = f.strip v := by
    induction ys with
    | nil => rfl
    | cons y ys ih => exact ih
  cases xs with
  | nil => exact absurd rfl hne
  | cons x xs =>
    have hl := hlength v
    rw [List.cons_append, List.length_cons] at hl
    rw [List.cons_append, strip, stripFrom, hl]
    exact hskip xs

end SequenceForm

end ExprLang.Text
