/-
What pieces come to on the two streams, and the log, which is no part of
standard output and of standard error only if it is asked for.
-/
import ExprLang.Log

namespace ExprLang

/-- Without escape characters there are no control sequences. -/
theorem Text.stripAnsi_of_notMem {text : String} (h : '\x1b' ∉ text.toList) : stripAnsi text = text := by
  have hlength {c : Char} {cs : List Char} (hc : c ≠ '\x1b') : ansiLength (c :: cs) = 0 := by
    unfold ansiLength
    split
    next he => exact absurd (List.cons.inj he).1 hc
    next => rfl
  have hfrom (cs : List Char) (hcs : '\x1b' ∉ cs) : stripAnsiFrom 0 cs = cs := by
    induction cs with
    | nil => rfl
    | cons c cs ih =>
      rw [List.mem_cons, not_or] at hcs
      rw [stripAnsiFrom, hlength (Ne.symm hcs.1)]
      exact congrArg (c :: ·) (ih hcs.2)
  rw [stripAnsi, hfrom _ h, String.ofList_toList]

theorem Piece.shown_of_notMem (terminal : Bool) {text : String} (h : '\x1b' ∉ text.toList) :
    shown terminal text = text := by
  cases terminal
  · exact Text.stripAnsi_of_notMem h
  · rfl

theorem join_flatMap {α : Type} (f : α → List String) (xs : List α) :
    String.join (xs.flatMap f) = String.join (xs.map fun x => String.join (f x)) := by
  induction xs with
  | nil => rfl
  | cons x xs ih => simp [String.join_append, ih]

namespace Transcript

variable {terminal verbose : Bool} {ps : List Piece}

@[simp] theorem stdout_nil : stdout terminal [] = "" := rfl

@[simp] theorem stderr_nil : stderr terminal verbose [] = "" := rfl

@[simp] theorem stdout_append (ps qs : List Piece) :
    stdout terminal (ps ++ qs) = stdout terminal ps ++ stdout terminal qs := by
  simp [stdout, String.join_append]

@[simp] theorem stderr_append (ps qs : List Piece) :
    stderr terminal verbose (ps ++ qs) = stderr terminal verbose ps ++ stderr terminal verbose qs := by
  simp [stderr, String.join_append]

@[simp] theorem stdout_cons (p : Piece) (ps : List Piece) :
    stdout terminal (p :: ps) = p.onOut terminal ++ stdout terminal ps := by
  simp [stdout]

@[simp] theorem stderr_cons (p : Piece) (ps : List Piece) :
    stderr terminal verbose (p :: ps) = p.onErr terminal verbose ++ stderr terminal verbose ps := by
  simp [stderr]

theorem stdout_flatMap {α : Type} (f : α → List Piece) (xs : List α) :
    stdout terminal (xs.flatMap f) = String.join (xs.map fun x => stdout terminal (f x)) := by
  rw [stdout, List.map_flatMap, join_flatMap]
  rfl

theorem stderr_flatMap {α : Type} (f : α → List Piece) (xs : List α) :
    stderr terminal verbose (xs.flatMap f) = String.join (xs.map fun x => stderr terminal verbose (f x)) := by
  rw [stderr, List.map_flatMap, join_flatMap]
  rfl

theorem stdout_logs (h : ∀ p ∈ ps, ∃ part message, p = .log part message) : stdout terminal ps = "" := by
  induction ps with
  | nil => rfl
  | cons p ps ih =>
    obtain ⟨⟨part, message, rfl⟩, hps⟩ := List.forall_mem_cons.mp h
    simp [ih hps, Piece.onOut]

theorem stderr_logs (h : ∀ p ∈ ps, ∃ part message, p = .log part message) :
    stderr terminal false ps = "" := by
  induction ps with
  | nil => rfl
  | cons p ps ih =>
    obtain ⟨⟨part, message, rfl⟩, hps⟩ := List.forall_mem_cons.mp h
    simp [ih hps, Piece.onErr]

end Transcript

namespace Log

variable {p : Piece}

theorem log_of_mem_ofToken {t : Token} (h : p ∈ ofToken t) : ∃ part message, p = .log part message := by
  unfold ofToken at h
  split at h
  · exact ⟨_, _, List.mem_singleton.mp h⟩
  · cases h

theorem log_of_mem_ofErrors {es : List ParseError} {ts : List Token} {known : Nat}
    (h : p ∈ ofErrors ts known es) : ∃ part message, p = .log part message := by
  induction es generalizing known with
  | nil =>
    obtain ⟨t, -, ht⟩ := List.mem_flatMap.mp h
    exact log_of_mem_ofToken ht
  | cons e es ih =>
    rw [ofErrors, List.mem_append, List.mem_cons] at h
    obtain h | rfl | h := h
    · obtain ⟨t, -, ht⟩ := List.mem_flatMap.mp h
      exact log_of_mem_ofToken ht
    · exact ⟨_, _, rfl⟩
    · exact ih h

theorem log_of_mem_ofReading {file source : String} {r : Reading} (h : p ∈ ofReading file source r) :
    ∃ part message, p = .log part message := by
  obtain h | h := List.mem_append.mp h
  · exact log_of_mem_ofErrors h
  · exact ⟨_, _, List.mem_singleton.mp h⟩

end Log

end ExprLang
