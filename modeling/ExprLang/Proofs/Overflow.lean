/-
What becomes of a statement that is nested too deeply, and of the text around it.

The statement is given up where the limit is hit, with the errors it has had
and one more, and reading goes on behind the next semicolon. What is behind it
is read as if nothing stood before it, and what is in front of it as if the
text ended there: as parsers look one token ahead only, that token may as well
be the end token (`statements_cut`). Main statement: `parse_overflow`.
-/
import ExprLang.Proofs.Carried
import ExprLang.Proofs.Lookahead

namespace ExprLang

/-! ## The text in front of a token -/

/-- A token that ends within the first characters of a text is the same at the
head of these. -/
theorem lexeme_take {c : Char} {cs : List Char} {n : Nat} (h : (lexeme (c :: cs)).2.length ≤ n + 1) :
    lexeme (c :: cs.take n) = lexeme (c :: cs) := by
  have hrun {p : Char → Bool} (hl : (cs.takeWhile p).length ≤ n) :
      (cs.take n).takeWhile p = cs.takeWhile p := by
    rw [← List.take_takeWhile, List.take_of_length_le hl]
  unfold lexeme at h ⊢
  by_cases hw : isWordChar c = true
  · simp only [hw, if_true] at h ⊢
    rw [hrun (Nat.le_of_succ_le_succ h)]
  by_cases hd : c.isDigit = true
  · simp only [hw, hd, if_true, if_false, Bool.false_eq_true] at h ⊢
    rw [hrun (Nat.le_of_succ_le_succ h)]
  -- Of any other token the second character counts only if the token has it.
  simp only [hw, hd, Bool.false_eq_true, if_false, List.head?_take] at h ⊢
  by_cases hn : n = 0
  · by_cases hhead : cs.head? = some '='
    · by_cases he : c = '='
      · simp [he, hhead, hn] at h
      · by_cases hb : c = '!'
        · simp [hb, hhead, hn] at h
        · simp [he, hb]
    · simp [hhead]
  · simp [hn]

namespace Cursor

variable {file : String} {cs : List Char} {m n o : Nat}

theorem ofOffset_take (file : String) (cs : List Char) (h : n ≤ o) :
    ofOffset file (cs.take o) n = { ofOffset file cs n with rest := (cs.drop n).take (o - n) } := by
  have ht : (cs.take o).take n = cs.take n := by rw [List.take_take, Nat.min_eq_left h]
  simp only [ofOffset, lineAt, ht, List.drop_take]

theorem firstFrom_take (h : firstFrom cs n ≤ o) : firstFrom (cs.take o) n = firstFrom cs n := by
  have hle : ((cs.drop n).takeWhile isBlank).length ≤ o - n := by
    rw [firstFrom] at h
    omega
  rw [firstFrom, List.drop_take, ← List.take_takeWhile, List.take_of_length_le hle, firstFrom]

/-- A token that ends before the cut is there in the text that is cut off, too. -/
theorem next_take (ho : o ≤ cs.length) (hlt : firstFrom cs n < o)
    (hle : firstFrom cs n + (lexeme (cs.drop (firstFrom cs n))).2.length ≤ o) :
    ∃ m, (ofOffset file cs n).next = (tokenAt file cs (firstFrom cs n), ofOffset file cs m) ∧
      (ofOffset file (cs.take o) n).next = (tokenAt file cs (firstFrom cs n), ofOffset file (cs.take o) m) := by
  obtain ⟨c, ds, hds⟩ := List.exists_cons_of_ne_nil (List.drop_eq_nil_iff.not.mpr (by omega : ¬ cs.length ≤ firstFrom cs n))
  obtain ⟨k, hk⟩ : ∃ k, o - firstFrom cs n = k + 1 := ⟨o - firstFrom cs n - 1, by omega⟩
  have hlexeme : lexeme ((cs.take o).drop (firstFrom cs n)) = lexeme (cs.drop (firstFrom cs n)) := by
    rw [hds] at hle
    rw [List.drop_take, hds, hk, List.take_succ_cons]
    exact lexeme_take (by omega)
  have htoken : tokenAt file (cs.take o) (firstFrom cs n) = tokenAt file cs (firstFrom cs n) := by
    rw [tokenAt, hlexeme, ofOffset_take file cs (Nat.le_of_lt hlt)]
    rfl
  refine ⟨_, next_ofOffset file cs n, ?_⟩
  rw [next_ofOffset, firstFrom_take (Nat.le_of_lt hlt), hlexeme, htoken]

end Cursor

/-- The first of the tokens from an offset on, and those behind it. -/
theorem TokenStream.exists_next_of_pending {file : String} {cs : List Char} {n : Nat} {t : Token}
    {ts : List Token} (hn : n ≤ cs.length) (hp : (ofCursor (.ofOffset file cs n)).pending = t :: ts) :
    ∃ m, Cursor.firstFrom cs n < m ∧ m ≤ cs.length ∧ t = Cursor.tokenAt file cs (Cursor.firstFrom cs n) ∧
      t.kind ≠ .eof ∧ (Cursor.ofOffset file cs n).next = (t, .ofOffset file cs m) ∧
      (ofCursor (.ofOffset file cs m)).pending = ts := by
  have hk : (Cursor.ofOffset file cs n).next.1.kind ≠ .eof := by
    intro hk
    rw [ofCursor_of_eof hk] at hp
    cases hp
  obtain ⟨m, hlt, hm, hnext⟩ := exists_next_of_ne_eof hn hk
  rw [ofCursor_of_ne hk] at hp
  obtain ⟨ht, hts⟩ := List.cons.inj hp
  rw [hnext] at ht hts
  rw [hnext] at hk
  exact ⟨m, hlt, hm, ht.symm, ht ▸ hk, by rw [hnext, ← ht], hts⟩

/-- The tokens in front of a token are those of the text cut off in front of it. -/
theorem TokenStream.pending_ofCursor_take {file : String} {cs : List Char} {n o : Nat} {xs ys : List Token}
    {u : Token} (hn : n ≤ cs.length) (hp : (ofCursor (.ofOffset file cs n)).pending = xs ++ u :: ys)
    (hu : u.StartsAt cs o) : (ofCursor (.ofOffset file (cs.take o) n)).pending = xs := by
  induction xs generalizing n with
  | nil =>
    obtain ⟨-, -, -, rfl, -⟩ := exists_next_of_pending hn hp
    obtain rfl := hu.unique (startsAt_tokenAt file (firstFrom_le hn))
    have hend : (Cursor.ofOffset file (cs.take (Cursor.firstFrom cs n)) n).next.1.kind = .eof := by
      rw [Cursor.next_ofOffset, Cursor.firstFrom_take (Nat.le_refl _), Cursor.tokenAt,
        List.drop_eq_nil_of_le (List.length_take_le _ _)]
      rfl
    rw [ofCursor_of_eof hend]
  | cons x xs ih =>
    obtain ⟨m, hlt, hm, rfl, hk, hnext, hrest⟩ := exists_next_of_pending hn hp
    -- The token that is cut off starts behind this one.
    obtain ⟨i, hi, hstart⟩ := (ordered_ofCursor file hm rfl).1 u (by simp [hrest])
    obtain rfl := hu.unique hstart
    have hm' : m = Cursor.firstFrom cs n + max (lexeme (cs.drop (Cursor.firstFrom cs n))).2.length 1 := by
      rw [Cursor.next_ofOffset] at hnext
      exact (congrArg Cursor.position (Prod.mk.inj hnext).2).symm
    obtain ⟨m', hnext', hcut⟩ := @Cursor.next_take file cs n o hu.le (by omega) (by omega)
    rw [hnext] at hnext'
    obtain rfl : m = m' := congrArg Cursor.position (Prod.mk.inj hnext').2
    rw [ofCursor_of_ne (by rw [hcut]; exact hk), hcut, ih hm hrest]

/-- Where a token that is still to come starts, the text splits: the tokens
in front of it are those of the text cut off there, and the others those of
the text blanked out up to there. -/
theorem TokenStream.exists_split {file source : String} {s : TokenStream}
    (ho : Parse.Onward (.ofSource file source) s) (hk : s.current.kind ≠ .eof) :
    ∃ o, s.current.StartsAt source.toList o ∧ s = .ofSource file (String.ofList (blankBefore o source.toList)) ∧
      (ofSource file source).pending =
        (ofSource file (String.ofList (source.toList.take o))).pending ++ s.pending := by
  obtain ⟨o, hstart, hblank⟩ := exists_eq_ofSource ho hk
  refine ⟨o, hstart, hblank, ?_⟩
  have hf := ho.kind_final (ended_ofSource file source).final
  obtain ⟨xs, hxs⟩ := ho.suffix
  obtain ⟨u, ys, hp⟩ := List.exists_cons_of_ne_nil (pending_ne_nil_of_kind hf rfl hk)
  rw [current, hp, List.headD_cons] at hstart
  rw [hp, ofSource_eq_ofCursor] at hxs
  rw [ofSource_eq_ofCursor, ofSource_eq_ofCursor, String.toList_ofList,
    pending_ofCursor_take (Nat.zero_le _) hxs.symm hstart, hp, hxs]

namespace Parse

variable {limit n k : Nat} {s r : TokenStream} {es : List ParseError} {xs ys : List Token} {final : Token}

/-! ## Rounds of the loop -/

theorem statements_of_done {v : Option Stmt} (hk : s.current.kind ≠ .eof)
    (hs : statement (expression limit) s = .done v r es) :
    statements limit (n + 1) s = (statements limit n r.advance).after v.toList es := by
  simp only [statements, if_neg hk, hs]

theorem statements_of_tooDeep (hk : s.current.kind ≠ .eof)
    (hs : statement (expression limit) s = .tooDeep r es) :
    statements limit (n + 1) s = (statements limit n (r.skipTo .semicolon).advance).after []
      (es ++ [.tooDeep s.current r.current]) := by
  simp only [statements, if_neg hk, hs]

/-- One round, and then the program that is left. -/
theorem program_of_round {xs : List Stmt} {q : TokenStream} (hf : s.final.kind = .eof)
    (h : statements limit 1 s = Reading.after xs es ⟨[], [], q⟩) :
    program limit s = (program limit q).after xs es := by
  rw [program_resume hf limit 1, h]
  simp [Reading.after]

/-- The second stream goes on behind the first token of a kind, or at the end,
if there is none. -/
inductive Behind (kind : Kind) (s : TokenStream) : TokenStream → Prop
  | found {ps qs : List Token} {c : Token} : s.pending = ps ++ c :: qs → (∀ p ∈ ps, p.kind ≠ kind) →
    c.kind = kind → Behind kind s ⟨qs, s.final⟩
  | none : (∀ p ∈ s.pending, p.kind ≠ kind) → Behind kind s ⟨[], s.final⟩

theorem behind_iff {kind : Kind} {q : TokenStream} : Behind kind s q ↔ (s.skipTo kind).advance = q := by
  constructor
  · have hpass {ps qs : List Token} (hps : ∀ p ∈ ps, p.kind ≠ kind) :
        (ps ++ qs).dropWhile (·.kind ≠ kind) = qs.dropWhile (·.kind ≠ kind) :=
      List.dropWhile_append_of_pos fun p hp => by simpa using hps p hp
    intro h
    cases h with
    | found hp hps hc =>
      rw [TokenStream.skipTo, hp, hpass hps, List.dropWhile_cons_of_neg (by simp [hc])]
      rfl
    | none hps =>
      rw [TokenStream.skipTo, ← List.append_nil s.pending, hpass hps]
      rfl
  · rintro rfl
    have hleft : ∀ p ∈ s.pending.takeWhile (·.kind ≠ kind), p.kind ≠ kind := fun p hp => by
      simpa using List.mem_takeWhile_imp hp
    have happend := List.takeWhile_append_dropWhile (p := fun t : Token => decide (t.kind ≠ kind)) (l := s.pending)
    have hhead := List.head?_dropWhile_not (fun t : Token => decide (t.kind ≠ kind)) s.pending
    rw [TokenStream.skipTo]
    generalize s.pending.dropWhile (·.kind ≠ kind) = qs at happend hhead
    cases qs with
    | nil => exact .none (by rwa [← happend, List.append_nil])
    | cons c qs => exact .found happend.symm hleft (by simpa using hhead)

/-! ## The statements in front of a token -/

/-- The token is there, or the text is cut off in front of it. -/
def CutOff (u u' : Token) : Prop := u' = u ∨ u'.kind = .eof

theorem stands_cutOff : Stands CutOff := ⟨fun _ => .inl rfl, id⟩

/-- A statement that ends in front of the cut is read there in the same way. -/
theorem answers_cut (hf : s.final.kind = .eof) (hf' : final.kind = .eof) (hs : s.pending = xs ++ ys)
    (hxs : ∀ t ∈ xs, t.kind ≠ .eof) {vs : List Token} (hvs : vs ≠ [])
    (hr : (statement (expression limit) s).rest.pending = vs ++ ys) :
    ∃ ts, xs = ts ++ vs ∧ s.current = (TokenStream.mk xs final).current ∧
      (statement (expression limit) s).rest.current = (TokenStream.mk vs final).current ∧
      Answers CutOff ⟨vs, final⟩ (statement (expression limit) s) (statement (expression limit) ⟨xs, final⟩) := by
  obtain ⟨ho, hsame⟩ := local_statement stands_cutOff limit s
  obtain ⟨ts, hts⟩ := onward_iff_exists_after.mp ho
  generalize hrest : (statement (expression limit) s).rest = r at *
  have hxs' : xs = ts ++ vs := by
    have hp := congrArg TokenStream.pending hts
    rw [hs, TokenStream.after, hr, ← List.append_assoc] at hp
    exact List.append_cancel_right hp
  have halike : Alike CutOff r ⟨vs, final⟩ := by
    obtain ⟨v, vs, rfl⟩ := List.exists_cons_of_ne_nil hvs
    refine ⟨by simp [TokenStream.current, hr], ?_⟩
    cases vs with
    | nil => exact .inr hf'
    | cons v' vs => exact .inl (by simp [TokenStream.peek, hr])
  have hcut : (TokenStream.mk vs final).after ts = ⟨xs, final⟩ := by rw [TokenStream.after, hxs']
  have hcurrent := (halike.after stands_cutOff ts).current
  rw [← hts, hcut] at hcurrent
  have h := hsame hf hts (by rw [hcut]; exact ⟨hf', hxs⟩) halike
  rw [hcut] at h
  exact ⟨ts, hxs', hcurrent.symm, halike.current.symm, h⟩

/-- Where the tokens that are left are those of a shorter stream and some more,
the token gone over is one of the shorter stream. -/
theorem pending_of_advance {zs : List Token} (h : s.advance.pending = zs ++ ys) (hys : ys ≠ []) :
    ∃ c, s.pending = c :: zs ++ ys := by
  rw [TokenStream.pending_advance] at h
  cases hp : s.pending with
  | nil =>
    rw [hp] at h
    exact absurd (List.append_eq_nil_iff.mp h.symm).2 hys
  | cons c cs =>
    rw [hp] at h
    exact ⟨c, congrArg (c :: ·) h⟩

theorem pending_of_behind {q : TokenStream} {zs : List Token} {kind : Kind} (h : Behind kind s q)
    (hq : q.pending = zs ++ ys) (hys : ys ≠ []) (final : Token) :
    ∃ vs, vs ≠ [] ∧ s.pending = vs ++ ys ∧ ((TokenStream.mk vs final).skipTo kind).advance = ⟨zs, final⟩ := by
  cases h with
  | none => exact absurd (List.append_eq_nil_iff.mp hq.symm).2 hys
  | @found ps qs c hp hps hc =>
    obtain rfl : qs = zs ++ ys := hq
    refine ⟨ps ++ c :: zs, by simp, by simp [hp], ?_⟩
    exact behind_iff.mp (.found rfl hps hc)

/-- What some rounds of the loop read in front of a token, and where they come
to stand, is the program of the tokens in front of it. -/
theorem statements_cut (hf : s.final.kind = .eof) (hf' : final.kind = .eof) (hs : s.pending = xs ++ ys)
    (hxs : ∀ t ∈ xs, t.kind ≠ .eof) (hys : ys ≠ []) (hr : (statements limit k s).rest.pending = ys) :
    ∃ es, program limit ⟨xs, final⟩ = ⟨(statements limit k s).statements, es, ⟨[], final⟩⟩ ∧
      List.Forall₂ (Match CutOff) (statements limit k s).errors es := by
  have hnone {s : TokenStream} {xs : List Token} (hs : s.pending = xs ++ ys) (hr : s.pending = ys) :
      program limit ⟨xs, final⟩ = ⟨[], [], ⟨[], final⟩⟩ := by
    obtain rfl : xs = [] := by simpa [hr] using hs
    rfl
  induction k generalizing s xs with
  | zero => exact ⟨[], hnone hs hr, .nil⟩
  | succ k ih =>
    by_cases hk : s.current.kind = .eof
    · rw [statements_of_eof hk] at hr ⊢
      exact ⟨[], hnone hs hr, .nil⟩
    have ho := onward_statement limit s
    have hcut {vs : List Token} (hvs : vs ≠ []) := @answers_cut limit _ _ _ _ hf hf' hs hxs _ hvs
    have hkind {t : TokenStream} (ht : s.current = t.current) : t.current.kind ≠ .eof := ht ▸ hk
    -- What is left behind the round, in front of the cut and behind it.
    have hleft {q : TokenStream} (hq : q.final.kind = .eof) (hr : (statements limit k q).rest.pending = ys) :
        ∃ zs, q.pending = zs ++ ys := by
      obtain ⟨zs, hzs⟩ := (onward_statements hq limit k).suffix
      exact ⟨zs, by rw [← hzs, hr]⟩
    cases hst : statement (expression limit) s with
    | done v r es₁ =>
      rw [hst] at ho hcut
      rw [statements_of_done hk hst] at hr ⊢
      have hfr : r.advance.final.kind = .eof := ho.kind_final hf
      obtain ⟨zs, hzs⟩ := hleft hfr hr
      obtain ⟨c, hc⟩ := pending_of_advance hzs hys
      obtain ⟨ts, rfl, hcurrent, -, h⟩ := hcut (List.cons_ne_nil c zs) hc
      obtain ⟨es₂, hprogram, hes₂⟩ := ih hfr hzs (fun t ht => hxs t (by simp [ht])) hr
      generalize ht : statement (expression limit) ⟨ts ++ c :: zs, final⟩ = y at h
      cases h with
      | @done _ _ _ es' hes =>
        refine ⟨es' ++ es₂, ?_, List.rel_append hes hes₂⟩
        rw [program_of_round hf' (statements_of_done (hkind hcurrent) ht)]
        exact congrArg (Reading.after v.toList es') hprogram
    | tooDeep r es₁ =>
      rw [hst] at ho hcut
      rw [statements_of_tooDeep hk hst] at hr ⊢
      have hfr : (r.skipTo .semicolon).advance.final.kind = .eof := ho.kind_final hf
      obtain ⟨zs, hzs⟩ := hleft hfr hr
      obtain ⟨vs, hvs, hrs, hskip⟩ := pending_of_behind (behind_iff.mpr rfl) hzs hys final
      obtain ⟨ts, rfl, hcurrent, hreached, h⟩ := hcut hvs hrs
      have hreached : r.current = _ := hreached
      have honward : Onward ⟨vs, final⟩ ⟨zs, final⟩ := hskip ▸ ((Onward.refl _).skipTo _).advance
      have hzs' : ∀ t ∈ zs, t.kind ≠ .eof := fun t ht =>
        hxs t (List.mem_append_right _ (honward.suffix.mem ht))
      obtain ⟨es₂, hprogram, hes₂⟩ := ih hfr hzs hzs' hr
      generalize ht : statement (expression limit) ⟨ts ++ vs, final⟩ = y at h
      cases h with
      | @tooDeep _ _ es' hes =>
        have hround := program_of_round hf' (statements_of_tooDeep (n := 0) (hkind hcurrent) ht)
        rw [hskip, ← hcurrent] at hround
        refine ⟨_, hround.trans (congrArg (Reading.after [] _) hprogram), List.rel_append ?_ hes₂⟩
        refine List.rel_append hes (.cons ?_ .nil)
        rw [hreached]
        exact .same _

/-- What was read before a statement is started is what the text in front of
it is read as. -/
theorem parse_take {file source : String} (limit k : Nat)
    (hk : (statements limit k (.ofSource file source)).rest.current.kind ≠ .eof) :
    ∃ o, (statements limit k (.ofSource file source)).rest.current.StartsAt source.toList o ∧
      (parse file (String.ofList (source.toList.take o)) limit).statements =
        (statements limit k (.ofSource file source)).statements ∧
      List.Forall₂ (Match CutOff) (statements limit k (.ofSource file source)).errors
        (parse file (String.ofList (source.toList.take o)) limit).errors := by
  have hf := (TokenStream.ended_ofSource file source).final
  have ho := onward_statements hf limit k
  obtain ⟨o, hstart, -, hsplit⟩ := TokenStream.exists_split ho hk
  obtain ⟨hcut, hnone⟩ := TokenStream.ended_ofSource file (String.ofList (source.toList.take o))
  have hne := TokenStream.pending_ne_nil_of_kind (ho.kind_final hf) rfl hk
  obtain ⟨es, hprogram, hes⟩ := statements_cut hf hcut hsplit hnone hne rfl
  have hparse : parse file (String.ofList (source.toList.take o)) limit = _ := hprogram
  refine ⟨o, hstart, ?_⟩
  rw [hparse]
  exact ⟨rfl, hes⟩

/-! ## The statement itself -/

/-- The errors that a statement reports itself are not about its nesting. -/
theorem code_of_statement (limit : Nat) (hf : s.final.kind = .eof) :
    Meets (statement (expression limit)) s [] (fun _ _ es => ∀ e ∈ es, e.code ≠ "E203")
      fun _ es => ∀ e ∈ es, e.code ≠ "E203" := by
  have h0 : Shallow s [] [] := by simp [Shallow]
  have hcode {s : TokenStream} {ps : List Leaf} {es : List ParseError} (h : Shallow s ps es) :
      ∀ e ∈ es, e.code ≠ "E203" := by
    intro e he hc
    cases e with
    | tooDeep start reached => exact h start reached he
    | _ => exact absurd hc (by simp [ParseError.code])
  refine Meets.mono (tally_shallow.keeps_statement limit hf h0) (fun _ _ _ h => hcode h) ?_
  rintro _ _ ⟨-, _, h⟩
  exact hcode h

/-- The first token of the statement that comes next, if it hits the limit. -/
def overflow? (limit : Nat) (s : TokenStream) : Option Token :=
  if s.current.kind = .eof then none
  else match statement (expression limit) s with
    | .done _ _ _ => none
    | .tooDeep _ _ => some s.current

/-- The first tokens of the statements that hit the limit, in at most so many
rounds of the loop. -/
def overflows (limit rounds : Nat) (s : TokenStream) : List Token :=
  (List.range rounds).filterMap fun k => overflow? limit (statements limit k s).rest

/-- A round of the loop reports a statement as nested too deeply if it is, and
once. -/
theorem exists_round_overflow (limit : Nat) (hf : s.final.kind = .eof) (hk : s.current.kind ≠ .eof) :
    ∃ xs es q, Onward s q ∧ (∀ n, statements limit (n + 1) s = (statements limit n q).after xs es) ∧
      (es.filter (·.code = "E203")).map (·.token) = (overflow? limit s).toList := by
  have ho := onward_statement limit s
  have hcode := code_of_statement limit hf
  unfold Meets at hcode
  cases hs : statement (expression limit) s with
  | done v r es =>
    rw [hs] at ho hcode
    have hes : es.filter (·.code = "E203") = [] := by simpa using hcode
    refine ⟨v.toList, es, r.advance, ho.advance, fun n => statements_of_done hk hs, ?_⟩
    simp only [overflow?, if_neg hk, hs, hes]
    rfl
  | tooDeep r es =>
    rw [hs] at ho hcode
    have hes : es.filter (·.code = "E203") = [] := by simpa using hcode
    refine ⟨[], es ++ [.tooDeep s.current r.current], (r.skipTo .semicolon).advance,
      (Onward.skipTo ho _).advance, fun n => statements_of_tooDeep hk hs, ?_⟩
    simp only [overflow?, if_neg hk, hs, List.filter_append, hes]
    rfl

/-- The errors about nesting are those of the statements that hit the limit,
one for each of them. -/
theorem errors_overflows (hf : s.final.kind = .eof) (limit n : Nat) :
    ((statements limit n s).errors.filter (·.code = "E203")).map (·.token) = overflows limit n s := by
  induction n generalizing s with
  | zero => rfl
  | succ n ih =>
    have hfirst : overflows limit (n + 1) s = (overflow? limit s).toList ++
        (List.range n).filterMap fun k => overflow? limit (statements limit (k + 1) s).rest := by
      rw [overflows, List.range_succ_eq_map, List.filterMap_cons, List.filterMap_map]
      cases h : overflow? limit s <;> simp [statements, h, Function.comp_def]
    rw [hfirst]
    by_cases hk : s.current.kind = .eof
    · simp [statements_of_eof hk, overflow?, hk]
    · obtain ⟨xs, es, q, ho, hround, hes⟩ := exists_round_overflow limit hf hk
      simp only [hround, Reading.after, List.filter_append, List.map_append, hes, ih (ho.kind_final hf)]
      rfl

/-- No token that is gone over between some rounds of the loop and the program
that is left is carried by a node. -/
theorem not_mem_tokens {file source : String} {next : TokenStream} {ts : List Token} (limit k : Nat)
    (hf : next.final.kind = .eof)
    (hts : (statements limit k (.ofSource file source)).rest.pending = ts ++ next.pending)
    (hprogram : (parse file source limit).statements =
      (statements limit k (.ofSource file source)).statements ++ (program limit next).statements) :
    ∀ t ∈ ts, t ∉ (parse file source limit).program.tokens := by
  have hs := (TokenStream.ended_ofSource file source).final
  have hstart {o : TokenStream} (ho : o.final.kind = .eof) : InOrder o o [] [] := ⟨ho, by simp⟩
  obtain ⟨-, hbefore⟩ := (tally_inOrder _).statements (fun h => h) limit k hs (hstart hs)
  obtain ⟨-, hafter⟩ := (tally_inOrder _).statements (fun h => h) limit next.pending.length hf (hstart hf)
  rw [List.nil_append] at hbefore hafter
  have htokens : (parse file source limit).program.tokens =
      (leavesOfItems (statements limit k (.ofSource file source)).statements).filterMap Leaf.token? ++
        (leavesOfItems (program limit next).statements).filterMap Leaf.token? := by
    rw [Program.tokens, Program.leaves, Reading.program, hprogram, leavesOfItems_append, List.filterMap_append]
  -- The tokens carried before, those gone over and those carried behind stand in this order.
  have hsub := (((List.sublist_append_left _ _).trans hafter).append_left ts).append_left
    ((leavesOfItems (statements limit k (.ofSource file source)).statements).filterMap Leaf.token?)
  rw [← hts] at hsub
  have htext : (TokenStream.ofSource file source).pending.Sublist (tokenize file source) := by
    rw [TokenStream.tokenize_eq]
    exact List.sublist_append_left _ _
  have hpairs := (pairwise_tokenize file source).sublist ((hsub.trans hbefore).trans htext)
  obtain ⟨-, hpairs, hleft⟩ := List.pairwise_append.mp hpairs
  obtain ⟨-, -, hright⟩ := List.pairwise_append.mp hpairs
  intro t ht hmem
  -- A token that is both would stand before itself.
  have hself : t.Before t := by
    rw [htokens] at hmem
    rcases List.mem_append.mp hmem with h | h
    · exact hleft t h t (List.mem_append_left _ ht)
    · exact hright t ht t h
  unfold Token.Before at hself
  omega

end Parse

/-- What is reported of a statement that is given up, which begins with a token. -/
def Diagnostic.tooDeep (start : Token) : Diagnostic :=
  ⟨.error, "E203", "expression nested too deeply", [⟨start.span, "statement starts here"⟩]⟩

@[simp] theorem ParseError.toDiagnostic_tooDeep (start reached : Token) :
    (ParseError.tooDeep start reached).toDiagnostic = .tooDeep start := rfl

theorem ParseError.toDiagnostic_eq_tooDeep {e : ParseError} (h : e.code = "E203") :
    e.toDiagnostic = .tooDeep e.token := by
  cases e with
  | tooDeep start reached => rfl
  | _ => exact absurd h (by simp [code])

namespace Parse

/-- What becomes of a statement that hits the limit in front of `reached`, with
the errors `es`, where `before` was read: reading goes on at `next`. -/
structure GivenUp (file source : String) (limit : Nat) (before : Reading) (reached : TokenStream)
    (es : List ParseError) (next : TokenStream) : Prop where
  /-- The limit is hit in the statement or behind it, and reading goes on behind the semicolon there. -/
  onward : Onward before.rest reached
  behind : Behind .semicolon reached next
  /-- The errors the statement had are kept, and one is added. -/
  once : ∀ e ∈ es, e.code ≠ "E203"
  diagnostics : (parse file source limit).diagnostics = before.diagnostics ++
    es.map (·.toDiagnostic) ++ Diagnostic.tooDeep before.rest.current :: (program limit next).diagnostics
  /-- Nothing of the statement is in the program. -/
  statements : (parse file source limit).statements = before.statements ++ (program limit next).statements
  absent : ∃ ts, before.rest.pending = ts ++ next.pending ∧ before.rest.current ∈ ts ∧
    ∀ t ∈ ts, t ∉ (parse file source limit).program.tokens
  /-- What was read before is what the text in front of the statement is read as. -/
  earlier : ∃ o, before.rest.current.StartsAt source.toList o ∧
    (parse file (String.ofList (source.toList.take o)) limit).statements = before.statements ∧
    List.Forall₂ (Match CutOff) before.errors (parse file (String.ofList (source.toList.take o)) limit).errors
  /-- The rest, if there is one, is read as if nothing stood in front of it. -/
  later : next.current.kind ≠ .eof → ∃ o, next.current.StartsAt source.toList o ∧
    program limit next = parse file (String.ofList (blankBefore o source.toList)) limit
  ended : next.current.kind = .eof → program limit next = ⟨[], [], next⟩

theorem givenUp {file source : String} {limit k : Nat} {reached : TokenStream} {es : List ParseError}
    (hk : (statements limit k (.ofSource file source)).rest.current.kind ≠ .eof)
    (h : statement (expression limit) (statements limit k (.ofSource file source)).rest = .tooDeep reached es) :
    GivenUp file source limit (statements limit k (.ofSource file source)) reached es
      (reached.skipTo .semicolon).advance := by
  have hs := (TokenStream.ended_ofSource file source).final
  have hbefore := onward_statements hs limit k
  have hf := hbefore.kind_final hs
  have ho := onward_statement limit (statements limit k (.ofSource file source)).rest
  have hcode := code_of_statement limit hf
  unfold Meets at hcode
  rw [h] at ho hcode
  have hnext : Onward (statements limit k (.ofSource file source)).rest (reached.skipTo .semicolon).advance :=
    (ho.skipTo .semicolon).advance
  have hreading : parse file source limit = ((program limit (reached.skipTo .semicolon).advance).after []
      (es ++ [.tooDeep (statements limit k (.ofSource file source)).rest.current reached.current])).after
      (statements limit k (.ofSource file source)).statements
      (statements limit k (.ofSource file source)).errors := by
    rw [parse, program_resume hs limit k, program_of_round hf (statements_of_tooDeep hk h)]
  have hstatements := congrArg Reading.statements hreading
  refine ⟨ho, behind_iff.mpr rfl, hcode, ?_, hstatements, ?_, parse_take limit k hk, ?_, statements_of_eof⟩
  · rw [hreading]
    simp [Reading.diagnostics, Reading.after]
  · obtain ⟨ts, hts⟩ := hnext.suffix
    refine ⟨ts, hts.symm, ?_, not_mem_tokens limit k (hnext.kind_final hf) hts.symm hstatements⟩
    have hlt := Onward.length_advance_lt (ho.skipTo .semicolon) hf hk
    rw [TokenStream.current, ← hts]
    cases ts with
    | nil => exact absurd (congrArg List.length hts) (Nat.ne_of_lt hlt)
    | cons t ts => exact List.mem_cons_self
  · intro hmore
    obtain ⟨o, hstart, hsplit, -⟩ := TokenStream.exists_split (hbefore.trans hnext) hmore
    exact ⟨o, hstart, congrArg (program limit) hsplit⟩

end Parse

end ExprLang
