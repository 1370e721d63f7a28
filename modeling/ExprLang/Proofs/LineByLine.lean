/-
Texts are read line by line.

A line break ends whatever token stands before it, and behind it everything
begins afresh but the count of lines. So the tokens of joined texts are those
of the one and those of the other further down (`tokenize_joined`), and the
tokens on a line are those of the line as a text of its own
(`properTokens_onLine`). Main statement: `tokenize_lineByLine`.
-/
import ExprLang.Proofs.Sites

namespace ExprLang

variable {file source : String} {t : Token}

/-- The tokens of a text but for the end token. -/
def properTokens (file source : String) : List Token := (tokenize file source).filter (·.kind ≠ .eof)

theorem properTokens_eq (file source : String) :
    properTokens file source = (TokenStream.ofSource file source).pending := by
  have hs := TokenStream.ended_ofSource file source
  rw [properTokens, TokenStream.tokenize_eq, List.filter_append, List.filter_singleton, hs.final]
  exact (List.append_nil _).trans (List.filter_eq_self.mpr fun t ht => decide_eq_true (hs.pending t ht))

/-- The tokens of two texts joined by a line break are the tokens of both. -/
theorem tokenize_joined (file a b : String) : tokenize file (a ++ "\n" ++ b) =
    properTokens file a ++
      (tokenize file b).map (Token.relocate (.below (1 + a.toList.count '\n'))) := by
  rw [TokenStream.tokenize_eq, TokenStream.tokenize_eq, properTokens_eq, TokenStream.ofSource_joined,
    List.map_append, ← List.append_assoc]
  rfl

theorem properTokens_joined (file a b : String) : properTokens file (a ++ "\n" ++ b) =
    properTokens file a ++
      (properTokens file b).map (Token.relocate (.below (1 + a.toList.count '\n'))) := by
  rw [properTokens, tokenize_joined, List.filter_append, List.filter_map, properTokens, List.filter_filter]
  simp only [Bool.and_self]
  rfl

/-! ## The tokens on a line -/

/-- Lines are counted from one. -/
theorem startLine_of_mem_properTokens (ht : t ∈ properTokens file source) : 1 ≤ t.span.startLine := by
  obtain ⟨ht, hk⟩ := List.mem_filter.mp ht
  obtain ⟨k, before, after, h⟩ := exists_sited ht (of_decide_eq_true hk)
  rw [h.startLine]
  omega

theorem startLine_of_notMem (hn : '\n' ∉ source.toList) (ht : t ∈ properTokens file source) :
    t.span.startLine = 1 := by
  obtain ⟨ht, hk⟩ := List.mem_filter.mp ht
  obtain ⟨k, before, after, h⟩ := exists_sited ht (of_decide_eq_true hk)
  have hlt := (List.getElem?_eq_some_iff.mp h.line).1
  rw [Text.length_splitOn, List.count_eq_zero.mpr hn] at hlt
  rw [h.startLine]
  omega

/-- The tokens of a text that start on a line, counted from zero. -/
def onLine (k : Nat) (ts : List Token) : List Token := ts.filter (·.span.startLine = k + 1)

@[simp] theorem startLine_below (t : Token) (k : Nat) :
    (t.relocate (.below k)).span.startLine = t.span.startLine + k := rfl

theorem onLine_append (k : Nat) (ts us : List Token) : onLine k (ts ++ us) = onLine k ts ++ onLine k us :=
  List.filter_append ..

theorem onLine_zero {ts : List Token} (h : ∀ t ∈ ts, t.span.startLine = 1) : onLine 0 ts = ts :=
  List.filter_eq_self.mpr fun t ht => decide_eq_true (h t ht)

theorem onLine_succ {ts : List Token} (h : ∀ t ∈ ts, t.span.startLine = 1) (k : Nat) :
    onLine (k + 1) ts = [] := by
  refine List.filter_eq_nil_iff.mpr fun t ht => ?_
  rw [decide_eq_true_eq, h t ht]
  omega

theorem onLine_zero_below {ts : List Token} (h : ∀ t ∈ ts, 1 ≤ t.span.startLine) :
    onLine 0 (ts.map (Token.relocate (.below 1))) = [] := by
  refine List.filter_eq_nil_iff.mpr fun u hu => ?_
  obtain ⟨t, ht, rfl⟩ := List.mem_map.mp hu
  have := h t ht
  rw [decide_eq_true_eq, startLine_below]
  omega

theorem onLine_succ_below (ts : List Token) (k : Nat) :
    onLine (k + 1) (ts.map (Token.relocate (.below 1))) = (onLine k ts).map (Token.relocate (.below 1)) := by
  have hline (t : Token) : ((t.relocate (.below 1)).span.startLine = (k + 1 : Nat) + 1) =
      (t.span.startLine = k + 1) := by
    rw [startLine_below]
    exact propext (by omega)
  rw [onLine, List.filter_map, onLine]
  simp only [Function.comp_def, hline]

theorem map_below_zero (ts : List Token) : ts.map (Token.relocate (.below 0)) = ts := by
  have hid : Token.relocate (.below 0) = id := by
    funext t
    simp [Token.relocate, Span.below]
  rw [hid, List.map_id]

theorem map_below_below (ts : List Token) (k : Nat) :
    (ts.map (Token.relocate (.below k))).map (Token.relocate (.below 1)) =
      ts.map (Token.relocate (.below (k + 1))) := by
  rw [List.map_map]
  refine List.map_congr_left fun t _ => ?_
  simp [Token.relocate, Span.below, Int.add_assoc]

/-- The tokens on a line of a text are those of the line. -/
theorem properTokens_onLine (file source : String) (k : Nat) : onLine k (properTokens file source) =
    (properTokens file (.ofList ((source.toList.splitOn '\n')[k]?.getD []))).map
      (Token.relocate (.below k)) := by
  obtain ⟨cs, rfl⟩ : ∃ cs, source = .ofList cs := ⟨source.toList, String.ofList_toList.symm⟩
  rw [String.toList_ofList]
  induction cs using Text.splitOn_induction generalizing k with
  | @last line hn =>
    have hone := fun t => @startLine_of_notMem file (.ofList line) t (by rwa [String.toList_ofList])
    cases k with
    | zero => rw [onLine_zero hone, List.getElem?_cons_zero, Option.getD_some, map_below_zero]
    | succ k => rw [onLine_succ hone, List.getElem?_cons_succ, List.getElem?_nil, Option.getD_none]; rfl
  | @more line rest hn ih =>
    have hone := fun t => @startLine_of_notMem file (.ofList line) t (by rwa [String.toList_ofList])
    have hjoined : String.ofList (line ++ '\n' :: rest) = .ofList line ++ "\n" ++ .ofList rest := by
      simp [← String.toList_inj]
    rw [hjoined, properTokens_joined, String.toList_ofList, List.count_eq_zero.mpr hn, Nat.add_zero, onLine_append]
    cases k with
    | zero =>
      rw [onLine_zero hone, onLine_zero_below fun _ => startLine_of_mem_properTokens, List.append_nil,
        List.getElem?_cons_zero, Option.getD_some, map_below_zero]
    | succ k =>
      rw [onLine_succ hone, List.nil_append, onLine_succ_below, ih, map_below_below, List.getElem?_cons_succ]

/-- **Reading does not see across a line break.** The tokens of two texts joined
by a line break are those of the first, without its end token, and those of the
second, as many lines further down as the first has; columns are the same. So
the tokens on a line are those of the line alone, whatever stands above and
below it. -/
theorem tokenize_lineByLine (file : String) :
    (∀ a b, tokenize file (a ++ "\n" ++ b) = properTokens file a ++
      (tokenize file b).map (Token.relocate (.below (1 + a.toList.count '\n')))) ∧
    (∀ source k, onLine k (properTokens file source) =
      (properTokens file (.ofList ((source.toList.splitOn '\n')[k]?.getD []))).map
        (Token.relocate (.below k))) :=
  ⟨tokenize_joined file, properTokens_onLine file⟩

/-- Two signs on two lines make no operator. -/
example : (tokenize "demo" "a =\n= 1").map (·.kind) = [.ident, .assign, .assign, .int, .eof] := by decide

end ExprLang
