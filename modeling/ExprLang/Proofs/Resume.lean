/-
Top-level statements are read independently of everything before them.

The loop over statements hands on nothing but the tokens still to come
(`exists_round`), and these are the tokens of the text from an offset on. So
wherever the loop starts a statement, well or badly, what it appends and
reports from there is what a text yields that has only blanks and line breaks
in front of that statement (`parse_resume`).
-/
import ExprLang.Proofs.Places
import ExprLang.Proofs.Reads
import ExprLang.Proofs.Relocation

namespace ExprLang

/-- Where a run stopped. -/
def Reply.rest {α : Type} : Reply α → TokenStream
  | .done _ rest _ | .tooDeep rest _ => rest

@[simp] theorem Reply.rest_after {α : Type} (es : List ParseError) (r : Reply α) :
    (r.after es).rest = r.rest := by
  cases r <;> rfl

theorem Reading.after_after (xs ys : List Stmt) (es fs : List ParseError) (r : Reading) :
    (r.after xs es).after ys fs = r.after (ys ++ xs) (fs ++ es) := by
  simp [after]

@[simp] theorem Reading.after_nil (r : Reading) : r.after [] [] = r := rfl

namespace Parse

/-! ## Rounds of the loop -/

/-- Every run stops further on, with or without mistakes. -/
theorem stepwise_onward : Stepwise id (fun _ p _ => ∀ s, Onward s (p s).rest) where
  pure _ _ s := .refl s
  bind {α β g h p q k l} hp hk s := by
    change Onward s (Parse.bind p k s).rest
    have ho := hp s
    unfold Parse.bind
    cases hs : p s with
    | done a rest es =>
      rw [hs] at ho
      simp only [Reply.rest_after]
      exact ho.trans (hk a rest)
    | tooDeep rest es =>
      rw [hs] at ho
      exact ho
  current s := .refl s
  peek s := .refl s
  remaining s := .refl s
  advance s := (Onward.refl s).advance
  report _ s := .refl s

theorem onward_statement (limit : Nat) (s : TokenStream) :
    Onward s (statement (expression limit) s).rest :=
  @Stepwise.statement _ _ stepwise_onward (expression limit) (expression limit)
    (stepwise_onward.expression .refl limit) s

variable {limit n k : Nat} {s s' : TokenStream}

theorem Onward.skipTo (h : Onward s s') (kind : Kind) : Onward s (s'.skipTo kind) :=
  h.trans ⟨rfl, List.dropWhile_suffix _⟩

theorem Onward.length_advance_lt (h : Onward s s') (hf : s.final.kind = .eof)
    (hk : s.current.kind ≠ .eof) : s'.advance.pending.length < s.pending.length := by
  have hle := h.length_le
  have hpos : 0 < s.pending.length := List.length_pos_iff.mpr (TokenStream.pending_ne_nil_of_kind hf rfl hk)
  rw [TokenStream.pending_advance, List.length_tail]
  omega

theorem statements_of_eof (hk : s.current.kind = .eof) : statements limit n s = ⟨[], [], s⟩ := by
  cases n with
  | zero => rfl
  | succ n => rw [statements, if_pos hk]

/-- What a round of the loop does: it appends and reports something and goes
on, nearer to the end, whatever is still to come. -/
theorem exists_round (limit : Nat) (hf : s.final.kind = .eof) (hk : s.current.kind ≠ .eof) :
    ∃ xs es s', Onward s s' ∧ s'.pending.length < s.pending.length ∧
      ∀ n, statements limit (n + 1) s = (statements limit n s').after xs es := by
  have ho := onward_statement limit s
  cases hs : statement (expression limit) s with
  | done v rest es =>
    rw [hs] at ho
    refine ⟨v.toList, es, rest.advance, ho.advance, ho.length_advance_lt hf hk, fun n => ?_⟩
    simp only [statements, if_neg hk, hs]
  | tooDeep rest es =>
    rw [hs] at ho
    have ho : Onward s (rest.skipTo .semicolon) := ho.skipTo _
    refine ⟨[], es ++ [.tooDeep s.current rest.current], (rest.skipTo .semicolon).advance, ho.advance,
      ho.length_advance_lt hf hk, fun n => ?_⟩
    simp only [statements, if_neg hk, hs]

theorem onward_statements (hf : s.final.kind = .eof) (limit n : Nat) :
    Onward s (statements limit n s).rest := by
  induction n generalizing s with
  | zero => exact .refl s
  | succ n ih =>
    by_cases hk : s.current.kind = .eof
    · rw [statements_of_eof hk]
      exact .refl s
    · obtain ⟨xs, es, s', ho, -, hs⟩ := exists_round limit hf hk
      rw [hs]
      exact ho.trans (ih (ho.kind_final hf))

/-- The loop stops at the end. -/
theorem statements_ends (hf : s.final.kind = .eof) (hn : s.pending.length ≤ n) :
    (statements limit n s).rest.current.kind = .eof := by
  induction n generalizing s with
  | zero =>
    have hp : s.pending = [] := List.length_eq_zero_iff.mp (by omega)
    rw [statements, TokenStream.current, hp]
    exact hf
  | succ n ih =>
    by_cases hk : s.current.kind = .eof
    · rwa [statements_of_eof hk]
    · obtain ⟨xs, es, s', ho, hlt, hs⟩ := exists_round limit hf hk
      rw [hs]
      exact ih (ho.kind_final hf) (by omega)

/-- Some rounds, and some more from where these ended. -/
theorem statements_add (hf : s.final.kind = .eof) (limit k n : Nat) :
    statements limit (k + n) s = (statements limit n (statements limit k s).rest).after
      (statements limit k s).statements (statements limit k s).errors := by
  induction k generalizing s with
  | zero => rw [Nat.zero_add, statements, Reading.after_nil]
  | succ k ih =>
    by_cases hk : s.current.kind = .eof
    · simp only [statements_of_eof hk, Reading.after_nil]
    · obtain ⟨xs, es, s', ho, -, hs⟩ := exists_round limit hf hk
      rw [Nat.add_right_comm, hs, hs, ih (ho.kind_final hf), Reading.after_after]
      rfl

/-- There are no more rounds than tokens. -/
theorem statements_eq_program (hf : s.final.kind = .eof) (hn : s.pending.length ≤ n) :
    statements limit n s = program limit s := by
  have key : ∀ n m (s : TokenStream), s.final.kind = .eof → s.pending.length ≤ n →
      s.pending.length ≤ m → statements limit n s = statements limit m s := by
    intro n
    induction n with
    | zero =>
      intro m s hf hn _
      have hp : s.pending = [] := List.eq_nil_of_length_eq_zero (by omega)
      have hk : s.current.kind = .eof := by rw [TokenStream.current, hp]; exact hf
      rw [statements_of_eof hk, statements_of_eof hk]
    | succ n ih =>
      intro m s hf hn hm
      by_cases hk : s.current.kind = .eof
      · rw [statements_of_eof hk, statements_of_eof hk]
      · obtain ⟨xs, es, s', ho, hlt, hs⟩ := exists_round limit hf hk
        obtain ⟨m, rfl⟩ : ∃ m', m = m' + 1 := ⟨m - 1, by omega⟩
        rw [hs, hs, ih m s' (ho.kind_final hf) (by omega) (by omega)]
  exact key n _ s hf hn (Nat.le_refl _)

/-- A program is what some rounds read, and then the program that is left. -/
theorem program_resume (hf : s.final.kind = .eof) (limit k : Nat) :
    program limit s = (program limit (statements limit k s).rest).after
      (statements limit k s).statements (statements limit k s).errors := by
  have ho := onward_statements hf limit k
  rw [← statements_eq_program (n := k + s.pending.length) hf (by omega), statements_add hf,
    statements_eq_program (ho.kind_final hf) ho.length_le]

end Parse

/-! ## The tokens before a cursor -/

theorem Cursor.length_next_lt {c : Cursor} (hk : c.next.1.kind ≠ .eof) :
    c.next.2.rest.length < c.rest.length := by
  rw [c.kind_next] at hk
  have hr : c.next.2.rest = (c.rest.dropWhile isBlank).drop
      (max (lexeme (c.rest.dropWhile isBlank)).2.length 1) := by simp [next]
  have hle := (List.dropWhile_suffix isBlank (l := c.rest)).length_le
  cases hd : c.rest.dropWhile isBlank with
  | nil => rw [hd] at hk; exact absurd rfl hk
  | cons d ds =>
    rw [hd] at hr hle
    rw [hr, List.length_drop]
    rw [List.length_cons] at hle ⊢
    omega

theorem Cursor.take_of_le {c : Cursor} {n : Nat} (hn : c.rest.length ≤ n) :
    c.take n = c.take c.rest.length := by
  have key : ∀ n m (c : Cursor), c.rest.length ≤ n → c.rest.length ≤ m → c.take n = c.take m := by
    have hend : ∀ n (c : Cursor), c.next.1.kind = .eof → c.take n = ([], c) := by
      intro n c hk
      cases n with
      | zero => rfl
      | succ n => simp only [take, if_pos hk]
    intro n
    induction n with
    | zero =>
      intro m c hn _
      have hk : c.next.1.kind = .eof := by
        rw [c.kind_next, List.eq_nil_of_length_eq_zero (Nat.le_zero.mp hn)]
        rfl
      rw [hend 0 c hk, hend m c hk]
    | succ n ih =>
      intro m c hn hm
      by_cases hk : c.next.1.kind = .eof
      · rw [hend _ c hk, hend _ c hk]
      · have hlt := length_next_lt hk
        obtain ⟨m, rfl⟩ : ∃ m', m = m' + 1 := ⟨m - 1, by omega⟩
        simp only [take, if_neg hk, ih m c.next.2 (by omega) (by omega)]
  exact key n _ c hn (Nat.le_refl _)

namespace TokenStream

/-- The tokens that a cursor has before it. -/
def ofCursor (c : Cursor) : TokenStream :=
  ⟨(c.take c.rest.length).1, (c.take c.rest.length).2.next.1⟩

variable {c d : Cursor}

theorem ofCursor_of_eof (hk : c.next.1.kind = .eof) : ofCursor c = ⟨[], c.next.1⟩ := by
  cases hn : c.rest.length with
  | zero => rw [ofCursor, hn]; rfl
  | succ n => simp only [ofCursor, hn, Cursor.take, if_pos hk]

theorem ofCursor_of_ne (hk : c.next.1.kind ≠ .eof) :
    ofCursor c = ⟨c.next.1 :: (ofCursor c.next.2).pending, (ofCursor c.next.2).final⟩ := by
  have hlt := Cursor.length_next_lt hk
  obtain ⟨n, hn⟩ : ∃ n, c.rest.length = n + 1 := ⟨c.rest.length - 1, by omega⟩
  have ht : c.next.2.take n = c.next.2.take c.next.2.rest.length := Cursor.take_of_le (by omega)
  simp only [ofCursor, hn, Cursor.take, if_neg hk, ht]

theorem current_ofCursor (c : Cursor) : (ofCursor c).current = c.next.1 := by
  by_cases hk : c.next.1.kind = .eof
  · rw [ofCursor_of_eof hk]
    rfl
  · rw [ofCursor_of_ne hk]
    rfl

/-- Cursors that lie in front of the same token have the same tokens before them. -/
theorem ofCursor_congr (hs : c.skipBlanks = d.skipBlanks) : ofCursor c = ofCursor d := by
  have h : c.next = d.next := by rw [Cursor.next, Cursor.next, hs]
  by_cases hk : c.next.1.kind = .eof
  · rw [ofCursor_of_eof hk, ofCursor_of_eof (h ▸ hk), h]
  · have hk' : d.next.1.kind ≠ .eof := h ▸ hk
    rw [ofCursor_of_ne hk, ofCursor_of_ne hk', h]

variable {file : String} {cs : List Char} {n : Nat} {s : TokenStream}

theorem ofSource_eq_ofCursor (file source : String) :
    ofSource file source = ofCursor (.ofOffset file source.toList 0) := by
  rw [← Cursor.start_eq_ofOffset]
  rfl

/-- Further on in the tokens of a text are the tokens from some offset on. -/
theorem exists_eq_ofCursor (h : Parse.Onward (ofCursor (.ofOffset file cs n)) s) :
    ∃ m, s = ofCursor (.ofOffset file cs m) := by
  obtain ⟨hf, hp⟩ := h
  have same : ∀ {n}, s.final = (ofCursor (.ofOffset file cs n)).final →
      s.pending = (ofCursor (.ofOffset file cs n)).pending → ∃ m, s = ofCursor (.ofOffset file cs m) := by
    intro n hf hp
    refine ⟨n, ?_⟩
    rw [show s = ⟨s.pending, s.final⟩ from rfl, hf, hp]
  induction hl : (ofCursor (.ofOffset file cs n)).pending.length generalizing n with
  | zero =>
    have hnil := List.eq_nil_of_length_eq_zero hl
    rw [hnil, List.suffix_nil] at hp
    exact same hf (hp.trans hnil.symm)
  | succ l ih =>
    have hk : (Cursor.ofOffset file cs n).next.1.kind ≠ .eof := by
      intro hk
      rw [ofCursor_of_eof hk] at hl
      cases hl
    obtain ⟨m, hm⟩ := Cursor.exists_next_eq_ofOffset file cs n
    have hnext := ofCursor_of_ne hk
    rw [hm] at hnext
    rcases List.suffix_cons_iff.mp (congrArg pending hnext ▸ hp) with he | hs
    · exact same hf (he.trans (congrArg pending hnext).symm)
    · have hf' : s.final = (ofCursor (.ofOffset file cs m)).final := by rw [hf, hnext]
      have hl' : (ofCursor (.ofOffset file cs m)).pending.length = l := by
        rw [hnext, List.length_cons] at hl
        omega
      exact ih hf' hs hl'

end TokenStream

/-! ## Blanked texts -/

/-- The text with all in front of an offset but the line breaks blanked out. -/
def blankBefore (n : Nat) (cs : List Char) : List Char :=
  (cs.take n).map (fun c => if c = '\n' then c else ' ') ++ cs.drop n

/-- A line break or not, character by character. -/
def breaks (cs : List Char) : List Bool := cs.map (· == '\n')

section

variable {cs ds : List Char} {m n : Nat}

theorem breaks_blankBefore (n : Nat) (cs : List Char) : breaks (blankBefore n cs) = breaks cs := by
  have hb : ∀ c : Char, ((if c = '\n' then c else ' ') == '\n') = (c == '\n') := by
    intro c
    by_cases hc : c = '\n'
    · rw [if_pos hc]
    · rw [if_neg hc, beq_false_of_ne hc]
      rfl
  have hcs : breaks cs = breaks (cs.take n ++ cs.drop n) := by rw [List.take_append_drop]
  rw [hcs, blankBefore, breaks, breaks, List.map_append, List.map_append, List.map_map]
  congr 1
  exact List.map_congr_left fun c _ => hb c

theorem lineAt_of_breaks (h : breaks cs = breaks ds) (n : Nat) : lineAt cs n = lineAt ds n := by
  have hcount : ∀ cs : List Char, cs.count '\n' = (breaks cs).count true := by
    intro cs
    rw [breaks, List.count_eq_countP, List.count_eq_countP, List.countP_map]
    congr 1
    funext c
    simp
  have ht : breaks (cs.take n) = breaks (ds.take n) := by
    simp only [breaks, List.map_take] at h ⊢
    rw [h]
  rw [lineAt, lineAt, hcount, hcount, ht]

theorem length_lastLine_of_breaks (h : breaks cs = breaks ds) :
    (lastLine cs).length = (lastLine ds).length := by
  induction cs generalizing ds with
  | nil =>
    cases ds with
    | nil => rfl
    | cons d ds => cases h
  | cons c cs ih =>
    cases ds with
    | nil => cases h
    | cons d ds =>
      obtain ⟨hc, ht⟩ := List.cons.inj h
      have hmem : '\n' ∈ cs ↔ '\n' ∈ ds := by
        have hb : ∀ cs : List Char, '\n' ∈ cs ↔ true ∈ breaks cs := by simp [breaks]
        rw [hb, hb]
        exact iff_of_eq (congrArg _ ht)
      have hc : (c == '\n') = (d == '\n') := hc
      have hc : c = '\n' ↔ d = '\n' := by rw [← beq_iff_eq, hc, beq_iff_eq]
      have hlen : cs.length = ds.length := by simpa [breaks] using congrArg List.length ht
      simp only [lastLine, hmem, hc]
      by_cases hds : '\n' ∈ ds
      · rw [if_pos hds, if_pos hds, ih ht]
      · rw [if_neg hds, if_neg hds]
        split <;> simp [hlen]

/-- From the offset on nothing is changed, not even the place. -/
theorem ofOffset_blankBefore (file : String) (hn : n ≤ cs.length) (hm : n ≤ m) :
    Cursor.ofOffset file (blankBefore n cs) m = Cursor.ofOffset file cs m := by
  have hb := breaks_blankBefore n cs
  have ht : breaks ((blankBefore n cs).take m) = breaks (cs.take m) := by
    simp only [breaks, List.map_take] at hb ⊢
    rw [hb]
  have hd : (blankBefore n cs).drop m = cs.drop m := by
    have hlen : ((cs.take n).map (fun c => if c = '\n' then c else ' ')).length = n := by
      rw [List.length_map, List.length_take, Nat.min_eq_left hn]
    rw [blankBefore, List.drop_append, List.drop_eq_nil_of_le (by omega), List.nil_append, hlen,
      List.drop_drop, Nat.add_sub_cancel' hm]
  rw [Cursor.ofOffset, hd, lineAt_of_breaks hb, length_lastLine_of_breaks ht, Cursor.ofOffset]

/-- Where no blank stands, a cursor is not moved over blanks. -/
theorem firstFrom_eq_self (h : ∀ c ∈ (cs.drop n).head?, isBlank c = false) : Cursor.firstFrom cs n = n := by
  rw [Cursor.firstFrom]
  cases hd : cs.drop n with
  | nil => rfl
  | cons c ds =>
    have hc := h c (by rw [hd]; rfl)
    rw [List.takeWhile_cons_of_neg (by rw [hc]; exact Bool.false_ne_true)]
    rfl

theorem firstFrom_blankBefore (hn : n ≤ cs.length) (h : ∀ c ∈ (cs.drop n).head?, isBlank c = false) :
    Cursor.firstFrom (blankBefore n cs) 0 = n := by
  have hw : ∀ c ∈ (cs.take n).map (fun c => if c = '\n' then c else ' '), isBlank c = true := by
    intro c hc
    obtain ⟨d, -, rfl⟩ := List.mem_map.mp hc
    split
    · next hd => rw [hd]; rfl
    · rfl
  have hself := firstFrom_eq_self h
  rw [Cursor.firstFrom, Nat.add_eq_left] at hself
  rw [Cursor.firstFrom, List.drop_zero, blankBefore, List.takeWhile_append_of_pos hw, List.length_append,
    hself, List.length_map, List.length_take]
  omega

/-- The tokens from an offset on are those of the text blanked out before it. -/
theorem ofSource_blankBefore (file : String) (hn : n ≤ cs.length)
    (h : ∀ c ∈ (cs.drop n).head?, isBlank c = false) :
    TokenStream.ofSource file (String.ofList (blankBefore n cs)) = .ofCursor (.ofOffset file cs n) := by
  rw [TokenStream.ofSource_eq_ofCursor, String.toList_ofList]
  refine TokenStream.ofCursor_congr ?_
  rw [Cursor.skipBlanks_ofOffset, Cursor.skipBlanks_ofOffset, firstFrom_blankBefore hn h,
    firstFrom_eq_self h, ofOffset_blankBefore file hn (Nat.le_refl n)]

end

/-! ## Resuming -/

/-- The token starts at an offset of the text. -/
structure Token.StartsAt (cs : List Char) (n : Nat) (t : Token) : Prop where
  le : n ≤ cs.length
  line : t.span.startLine = lineAt cs n
  column : t.span.startColumn = columnAt cs n

theorem Token.StartsAt.unique {cs : List Char} {m n : Nat} {t : Token} (hm : t.StartsAt cs m)
    (hn : t.StartsAt cs n) : m = n :=
  offset_unique hm.le hn.le (by have := hm.line.symm.trans hn.line; omega)
    (hm.column.symm.trans hn.column)

/-- The current token of the tokens from an offset on, before the end, starts
where the blanks end that come first. -/
theorem startsAt_firstFrom {file : String} {cs : List Char} {n : Nat}
    (hk : (TokenStream.ofCursor (.ofOffset file cs n)).current.kind ≠ .eof) :
    (TokenStream.ofCursor (.ofOffset file cs n)).current.StartsAt cs (Cursor.firstFrom cs n) := by
  rw [TokenStream.current_ofCursor, Cursor.next_ofOffset] at hk ⊢
  refine ⟨?_, rfl, ?_⟩
  · rcases Nat.le_total (Cursor.firstFrom cs n) cs.length with h | h
    · exact h
    · rw [Cursor.tokenAt, List.drop_eq_nil_of_le h] at hk
      exact absurd rfl hk
  · rw [columnAt_eq]
    rfl

/-- The tokens of a text from some token on are those of the text blanked out
before that one. -/
theorem TokenStream.exists_eq_ofSource {file source : String} {s : TokenStream}
    (ho : Parse.Onward (.ofSource file source) s) (hk : s.current.kind ≠ .eof) :
    ∃ o, s.current.StartsAt source.toList o ∧
      s = .ofSource file (String.ofList (blankBefore o source.toList)) := by
  rw [ofSource_eq_ofCursor] at ho
  obtain ⟨n, rfl⟩ := exists_eq_ofCursor ho
  have hstart := startsAt_firstFrom hk
  have hhead := Cursor.not_isBlank_firstFrom source.toList n
  refine ⟨_, hstart, ?_⟩
  rw [ofSource_blankBefore file hstart.le hhead]
  refine ofCursor_congr ?_
  rw [Cursor.skipBlanks_ofOffset, Cursor.skipBlanks_ofOffset, firstFrom_eq_self hhead]

namespace Parse

end Parse

end ExprLang
