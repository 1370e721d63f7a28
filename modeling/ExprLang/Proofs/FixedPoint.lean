/-
When a rendering is read back as the program that it renders.

Nothing stands between top-level statements, so an expression can run on into
the statement behind it: two words become one, or a parenthesis becomes the
arguments of a call. Where that happens the rendering is read as another
program, if as any, and nowhere else: if the statements of a reading are the
ones that were rendered, then they keep apart.

Main statement: of a program that was read without an error, the rendering is
read as the same program exactly when its statements keep apart, and has the
same rendering exactly when some program whose statements keep apart has it
(`Parse.parse_render_iff_separated`).
-/
import ExprLang.Proofs.RoundTrip
import ExprLang.Proofs.WellRead

namespace ExprLang

open Parse

/-! ## Texts that run on -/

/-- A run of characters that stops at the end of `cs` stops because of `ds`. -/
theorem run_ends {p : Char → Bool} {c : Char} {cs ds : List Char} (hc : p c = true)
    (h : (cs ++ ds).takeWhile p = cs) :
    (∀ l ∈ (c :: cs).getLast?, p l = true) ∧ ∀ d ∈ ds.head?, p d = false := by
  have hcs : ∀ d ∈ c :: cs, p d = true :=
    List.forall_mem_cons.mpr ⟨hc, fun d hd => List.mem_takeWhile_imp (h.symm ▸ hd)⟩
  refine ⟨fun l hl => hcs l (List.mem_of_getLast? hl), fun d hd => ?_⟩
  rw [List.takeWhile_append_of_pos fun d hd => hcs d (List.mem_cons_of_mem c hd)] at h
  obtain ⟨ds, rfl⟩ := List.head?_eq_some_iff.mp hd
  by_contra hd
  simp [Bool.not_eq_false _ ▸ hd] at h

/-- A word or a number that is the first token of a longer text is apart from the rest. -/
theorem apart_of_lexeme {c : Char} {cs ds : List Char} (hc : isWordChar c = true ∨ c.isDigit = true)
    (h : (lexeme (c :: (cs ++ ds))).2 = c :: cs) : Apart (c :: cs) ds := by
  rcases hc with hc | hc
  · obtain ⟨hl, hd⟩ := @run_ends _ _ _ ds hc (by simpa [lexeme, hc] using h)
    intro l hl' d hd'
    have hw := hl l hl'
    refine ⟨by simp [hd d hd'], fun hdig => by simp [isWordChar_of_isDigit hdig.1] at hw, ?_⟩
    rintro ⟨rfl | rfl, -⟩ <;> simp [isWordChar] at hw
  · obtain ⟨hl, hd⟩ := @run_ends _ _ _ ds hc (by simpa [lexeme, hc, isWordChar_of_isDigit hc] using h)
    intro l hl' d hd'
    have hdig := hl l hl'
    refine ⟨by simp [isWordChar_of_isDigit hdig], by simp [hd d hd'], ?_⟩
    rintro ⟨rfl | rfl, -⟩ <;> simp at hdig

/-- What goes on with a statement is spelled with other characters, but for one word. -/
theorem Continues.spelling {k : Kind} (h : Continues k) (hk : k ≠ .kwElse) :
    ∃ c cs, k.spelling = c :: cs ∧ isWordChar c = false ∧ c.isDigit = false := by
  cases k <;>
    first
    | exact ⟨_, _, rfl, by decide, by decide⟩
    | exact absurd h (by decide)
    | exact absurd rfl hk

theorem eq_kwElse_of_continues {c : Char} {cs : List Char}
    (hc : isWordChar c = true ∨ c.isDigit = true) (h : Continues (lexeme (c :: cs)).1) :
    (lexeme (c :: cs)).1 = .kwElse := by
  by_contra hk
  obtain ⟨d, ds, hd, hw, hdig⟩ := h.spelling hk
  obtain ⟨ts, ht⟩ := lexeme_leads c cs
  rw [(writes_lexeme c cs).eq_spelling (by simp [hd]), hd] at ht
  obtain ⟨rfl, -⟩ : d = c ∧ _ := by simpa using ht
  simp [hw, hdig] at hc

/-! ## The ends of an expression -/

/-- The token of an expression that is a single one. -/
def Expr.token? : Expr → Option Token
  | .name n => some n.token
  | .int t _ | .bool t _ => some t
  | _ => none

theorem Expr.token?_erase (e : Expr) : e.erase.token? = e.token?.map Token.erase := by
  cases e <;> simp [erase, token?, Name.erase]

theorem Block.getLast?_render (b : Block) : b.render.toList.getLast? = some '\x7d' := by
  obtain ⟨_, _ | ⟨x, xs⟩⟩ := b <;> simp [render, List.getLast?_cons]

/-- An expression ends with a bracket if it is not a single token. -/
theorem Expr.getLast?_render {e : Expr} (h : e.token? = none) :
    ∃ c, e.render.toList.getLast? = some c ∧ Lone c := by
  cases e with
  | name | int | bool => simp [token?] at h
  | unary | binary | call => exact ⟨')', by simp [render, List.getLast?_cons], by decide⟩
  | cond _ c b a =>
    refine ⟨'\x7d', ?_, by decide⟩
    cases a <;> simp [render, renderElse, Block.getLast?_render, List.getLast?_cons]
  | fn => exact ⟨'\x7d', by simp [render, Block.getLast?_render, List.getLast?_cons], by decide⟩

/-- A well-formed expression that is a single token is a word or a number. -/
theorem Expr.WellFormed.render_of_token? {e : Expr} (h : e.WellFormed) {t : Token}
    (ht : e.token? = some t) : e.render = t.literal ∧
      ∃ c cs, t.literal.toList = c :: cs ∧ (isWordChar c = true ∨ c.isDigit = true) := by
  cases e with
  | name n =>
    cases ht
    obtain ⟨⟨hne, hw, -⟩, -, hl⟩ := h
    obtain ⟨c, cs, hc⟩ := List.exists_cons_of_ne_nil hne
    rw [hl]
    exact ⟨rfl, c, cs, hc, .inl (hw c (by simp [hc]))⟩
  | int t v =>
    cases ht
    obtain ⟨-, ⟨hne, hd, -⟩, -⟩ := h
    obtain ⟨c, cs, hc⟩ := List.exists_cons_of_ne_nil hne
    exact ⟨rfl, c, cs, hc, .inr (hd c (by simp [hc]))⟩
  | bool t b =>
    cases ht
    rw [h.2]
    cases b <;> exact ⟨by simp [render, Kind.spelling], _, _, String.toList_ofList, by decide⟩
  | unary | binary | cond | fn | call => simp [token?] at ht

/-! ## Readings of an expression in front of more -/

/-- Operators make calls and operations of what they go on with. -/
theorem Parse.Reads.operators_cases {φ : Phrase} {s s' : TokenStream} (h : Reads φ s s') :
    ∀ {least a b}, φ = .operators least a b →
      b = a ∨ (∃ t f es, b = .call t f es) ∨ ∃ t l op r, b = .binary t l op r := by
  induction h with
  | stop => rintro _ _ _ ⟨⟩; exact .inl rfl
  | call _ _ _ _ _ ih =>
    rintro _ _ _ ⟨⟩
    rcases ih rfl with rfl | h
    · exact .inr (.inl ⟨_, _, _, rfl⟩)
    · exact .inr h
  | binary _ _ _ _ _ ih =>
    rintro _ _ _ ⟨⟩
    rcases ih rfl with rfl | h
    · exact .inr (.inr ⟨_, _, _, _, rfl⟩)
    · exact .inr h
  | _ => rintro _ _ _ ⟨⟩

/-- Operators do not shorten the text of what they go on with. -/
theorem Parse.Reads.length_render_le {φ : Phrase} {s s' : TokenStream} (h : Reads φ s s') :
    ∀ {least a b}, φ = .operators least a b → a.render.length ≤ b.render.length := by
  induction h with
  | stop => rintro _ _ _ ⟨⟩; exact Nat.le_refl _
  | call _ _ _ _ _ ih | binary _ _ _ _ _ ih =>
    rintro _ _ _ ⟨⟩
    refine Nat.le_trans ?_ (ih rfl)
    simp [Expr.render]
    omega
  | _ => rintro _ _ _ ⟨⟩

/-- An expression that is a single token is read from this token, if not from parentheses. -/
theorem Parse.Reads.current_of_token? {least : Precedence} {e : Expr} {s s' : TokenStream}
    (h : Reads (.expression least e) s s') {t : Token} (ht : e.token? = some t)
    (hk : s.current.kind ≠ .lparen) : s.current = t := by
  cases h with
  | expression ho hops =>
    rcases hops.operators_cases rfl with rfl | ⟨_, _, _, rfl⟩ | ⟨_, _, _, _, rfl⟩
    · cases ho with
      | name | int | yes | no => simpa [Expr.token?, nameAt] using ht
      | group hp => exact absurd hp hk
      | unary | cond | fn => simp [Expr.token?] at ht
    · simp [Expr.token?] at ht
    · simp [Expr.token?] at ht

section

variable {e e' : Expr} {s s' : TokenStream} (he : e.WellFormed) (hf : s.final.kind = .eof)
  (h : Reads (.expression .lowest e') s s') (heq : e'.erase = e.erase)

include he h heq

/-- An expression that is read as itself does not run on into what follows. -/
theorem apart_of_reads {ds : List Char} (hscan : Scans (e.render.toList ++ ds) s.lexemes) :
    Apart e.render.toList ds := by
  cases ht : e.token? with
  | none =>
    obtain ⟨c, hc, hl⟩ := Expr.getLast?_render ht
    exact hl.apart_left hc ds
  | some t =>
    obtain ⟨hr, c, cs, hc, hw⟩ := he.render_of_token? ht
    rw [hr, hc] at hscan ⊢
    have hx : s.current.lexeme = lexeme (c :: (cs ++ ds)) := by
      generalize hxs : s.lexemes = xs at hscan
      cases hscan with
      | blank hb _ => simp [isBlank_eq_false hw] at hb
      | token _ _ => exact (TokenStream.lexemes_eq_cons hxs).1
    have hk : s.current.kind ≠ .lparen := by
      intro hk
      have hk : (lexeme (c :: (cs ++ ds))).1 = .lparen := hx ▸ hk
      have hcont : Continues (lexeme (c :: (cs ++ ds))).1 := by
        rw [hk]
        decide
      cases (eq_kwElse_of_continues hw hcont).symm.trans hk
    have hte : s.current.erase = t.erase := by
      have := congrArg Expr.token? heq
      rw [Expr.token?_erase, Expr.token?_erase, ht] at this
      obtain ⟨t', ht', hte⟩ := Option.map_eq_some_iff.mp this
      exact h.current_of_token? ht' hk ▸ hte
    refine apart_of_lexeme hw ?_
    rw [← hx, ← hc]
    exact congrArg (·.literal.toList) hte

include hf

/-- An expression is not read as itself in front of an opening parenthesis. -/
theorem not_lparen_of_reads {ys rest : List (Kind × List Char)} (hscan : Scans e.render.toList ys)
    (hs : s.lexemes = ys ++ Kind.lparen.lexeme :: rest) : False := by
  obtain ⟨_, hscan', -, hread⟩ := he.restored
  obtain rfl := hscan.unique hscan'
  obtain ⟨a, s₁, ha, hb, hiff⟩ := hread s _ hf hs fun _ => next_lexeme (p := (· ≠ .kwElse)) (by decide)
  have hk : s₁.peek.kind = .lparen := congrArg Prod.fst hb.cons.1
  -- what is read is a call of the expression, which is longer than the expression
  cases (hiff .lowest _ _ (by decide)).mp h with
  | stop hn => exact hn (by rw [hk]; decide)
  | binary _ hn => exact hn hk
  | @call _ _ es _ _ _ _ _ _ _ ho =>
    have hle := ho.length_render_le rfl
    rw [← e'.render_erase, heq, ← ha, a.render_erase] at hle
    have hpos : 0 < "(".length := by decide
    simp only [Expr.render, String.length_append] at hle
    omega

/-- A conditional without a second branch is not read as itself in front of one. -/
theorem not_kwElse_of_reads (ho : e.Open) {ys rest : List (Kind × List Char)}
    {x : Kind × List Char} (hscan : Scans e.render.toList ys) (hs : s.lexemes = ys ++ x :: rest)
    (hx : x.1 = .kwElse) : False := by
  obtain ⟨t, c, b, rfl⟩ : ∃ t c b, e = .cond t c b none := by
    cases e with
    | cond t c b a =>
      cases a with
      | none => exact ⟨t, c, b, rfl⟩
      | some => exact ho.elim
    | _ => exact ho.elim
  obtain ⟨-, hc, hb, -⟩ := he
  obtain ⟨zs, hscan', hread⟩ := restored_branch hc.restored hb.restored
  have htext : (Expr.cond t c b none).render.toList =
      Kind.kwIf.spelling ++ ' ' :: (c.render.toList ++ ' ' :: b.render.toList) := by
    simp [Expr.render, renderElse, Kind.spelling]
  obtain rfl := hscan.unique (htext ▸ hscan')
  obtain ⟨hl, hs⟩ := TokenStream.lexemes_eq_cons hs
  have hk : s.current.kind = .kwIf := congrArg Prod.fst hl
  obtain ⟨c', s₁, b', s₂, -, -, hb₂, hrc, -, hrb⟩ := hread s (x :: rest) hf hs
  have hk₂ : s₂.peek.kind = .kwElse := (congrArg Prod.fst hb₂.cons.1).trans hx
  cases h with
  | expression ho hops =>
    cases ho with
    | cond _ hc _ hb ha =>
      obtain ⟨rfl, rfl⟩ := hc.expression_unique hrc hf
      obtain ⟨rfl, rfl⟩ := hb.block_unique hrb (hc.onward.kind_final hf)
      cases ha with
      | noAlternative hn => exact hn hk₂
      | alternative =>
        rcases hops.operators_cases rfl with rfl | ⟨_, _, _, rfl⟩ | ⟨_, _, _, _, rfl⟩ <;>
          simp [Expr.erase, eraseElse] at heq
    | name hn | int hn | yes hn | no hn | unary hn | group hn | fn hn => simp [hk] at hn

end

/-! ## Statements that are read as themselves -/

theorem Stmt.WellFormed.eq_expression {q : Stmt} (h : q.WellFormed) (hq : q.isExpression = true) :
    ∃ t e, q = .expression t (some e) ∧ e.WellFormed := by
  cases q with
  | expression t v =>
    cases v with
    | none => exact h.elim
    | some e => exact ⟨t, e, rfl, h⟩
  | binding | ret | block => simp [isExpression] at hq

theorem Stmt.eq_expression_of_erase {x : Stmt} {t : Token} {e : Expr}
    (h : x.erase = (Stmt.expression t (some e)).erase) :
    ∃ t' e', x = .expression t' (some e') ∧ e'.erase = e.erase := by
  cases x with
  | expression t' v =>
    cases v with
    | none => simp [erase, erasePart] at h
    | some e' => exact ⟨t', e', rfl, by simpa [erase, erasePart] using h⟩
  | binding | ret | block => simp [erase] at h

section

variable {q r x : Stmt} {s s' : TokenStream} {ds : List Char} (hq : q.WellFormed)
  (hscan : Scans (q.render.toList ++ ds) s.lexemes) (hf : s.final.kind = .eof)
  (h : Reads (.statement x) s s') (heq : x.erase = q.erase)

include hq hscan hf h heq

theorem keepsApart_of_reads (hd : ds.head? = r.render.toList.head?) : KeepsApart q r := by
  intro hexp
  obtain ⟨t, e, rfl, he⟩ := hq.eq_expression hexp
  obtain ⟨t', e', rfl, hee⟩ := Stmt.eq_expression_of_erase heq
  cases h with
  | plain _ _ h =>
    have hap : Apart e.render.toList ds := apart_of_reads he h hee hscan
    refine ⟨hap.congr hd.symm, fun hpar => ?_⟩
    obtain ⟨ds, rfl⟩ := List.head?_eq_some_iff.mp (hd.trans hpar)
    obtain ⟨ys, hys⟩ := Scans.exists e.render.toList
    obtain ⟨zs, hzs⟩ := Scans.exists ds
    exact not_lparen_of_reads he hf h hee hys
      (hscan.unique (hys.append_lone (by decide) (scans_cons (k := .lparen) rfl (by decide) hzs)))

/-- A statement that is read as itself ends where its text does. -/
theorem scans_of_reads (hr : r.WellFormed) (hd : ds.head? = r.render.toList.head?) :
    Scans ds s'.advance.lexemes := by
  have hk : KeepsApart q r := keepsApart_of_reads hq hscan hf h heq hd
  obtain ⟨zs, hzs⟩ := Scans.exists ds
  cases hexp : q.isExpression with
  | false =>
    obtain ⟨ys, hys, -, -, hclosed⟩ := hq.restored
    obtain ⟨x', s₁, -, hb, hx⟩ := hclosed s zs hf
      (by simpa [Stmt.separator, hexp] using hscan.unique (hys.append hzs (hq.apart hexp ds)))
      fun _ _ => trivial
    obtain ⟨-, rfl⟩ := h.statement_unique hx hf
    exact hb.lexemes ▸ hzs
  | true =>
    obtain ⟨hap, hpar⟩ := hk hexp
    obtain ⟨t, e, rfl, he⟩ := hq.eq_expression hexp
    obtain ⟨t', e', rfl, hee⟩ := Stmt.eq_expression_of_erase heq
    obtain ⟨ys, hys, -, hread⟩ := he.restored
    have hs : s.lexemes = ys ++ zs := hscan.unique (hys.append hzs (hap.congr hd))
    -- the next statement may itself run on into an `else`, which ends the expression as well
    have hnext : ∀ z ∈ zs.head?, Continues z.1 → z.1 = .kwElse := by
      obtain ⟨_, -, ⟨c, cs, _, _, hc, -, hw⟩, -⟩ := hr.restored
      rw [hc] at hd hpar
      have hw := (hw.resolve_left (by simpa using hpar)).1
      obtain ⟨ds, rfl⟩ := List.head?_eq_some_iff.mp hd
      cases hzs with
      | blank hb _ => simp [isBlank_eq_false hw] at hb
      | token _ _ =>
        rintro z ⟨⟩ hz
        exact eq_kwElse_of_continues hw hz
    cases h with
    | plain _ _ h =>
      obtain ⟨a, s₁, ha, hb, hiff⟩ := hread s zs hf hs fun ho z hz hk => by
        obtain ⟨zs, rfl⟩ := List.head?_eq_some_iff.mp hz
        exact not_kwElse_of_reads he hf h hee ho hys hs hk
      have hk := hb.peek (p := fun k => Continues k → k = .kwElse) hnext (by decide)
      have hend : endsChain s₁.peek.kind := by
        constructor
        · intro hi
          simp [hk (.inl hi), isInfix] at hi
        · intro hl
          have := hk (.inr (.inl hl))
          simp [hl] at this
      have hsemi : s₁.peek.kind ≠ .semicolon := by
        intro hl
        have := hk (.inr (.inr (.inr hl)))
        simp [hl] at this
      cases (hiff .lowest _ _ (by decide)).mp h with
      | stop => rwa [afterSemicolon, if_neg hsemi, hb.lexemes]
      | call hl | binary hl => exact absurd hl (hend.not_level_lt _)

end

/-- Statements that are read as themselves keep apart. -/
theorem isChain_of_reads {qs xs : List Stmt} {s s' : TokenStream} (hw : ∀ q ∈ qs, q.WellFormed)
    (hscan : Scans (qs.flatMap fun x => x.render.toList) s.lexemes) (hf : s.final.kind = .eof)
    (h : Reads (.statements xs) s s') (heq : eraseItems xs = eraseItems qs) :
    qs.IsChain KeepsApart := by
  induction qs generalizing xs s with
  | nil => exact .nil
  | cons q qs ih =>
    obtain ⟨hq, hqs⟩ := List.forall_mem_cons.mp hw
    cases h with
    | noStatements => simp [eraseItems] at heq
    | statements hx hxs =>
      obtain ⟨hxq, heq⟩ : _ ∧ _ := by simpa [eraseItems] using heq
      cases qs with
      | nil => exact .singleton q
      | cons r qs =>
        have hr := hqs r (by simp)
        have hd := hr.head?_flatMap qs
        have hscan' := scans_of_reads hq hscan hf hx hxq hr hd
        exact List.isChain_cons_cons.mpr ⟨keepsApart_of_reads hq hscan hf hx hxq hd,
          ih hqs hscan' (hx.onward.kind_final hf) hxs heq⟩

/-! ## Programs -/

theorem TokenStream.scans_ofSource (file source : String) :
    Scans source.toList (ofSource file source).lexemes := by
  obtain ⟨xs, hxs⟩ := Scans.exists source.toList
  rw [lexemes, (@lexemes_ofSource file _ _ hxs).1]
  exact hxs

section

variable {file : String} {limit : Nat}

/-- A rendering is read as the program it renders exactly if its statements keep apart. -/
theorem Program.WellFormed.parse_render_iff {p : Program} (hw : p.WellFormed)
    (hl : (parse file p.render limit).WithinLimit) :
    (parse file p.render limit).errors = [] ∧ (parse file p.render limit).program.erase = p.erase ↔
      p.Separated := by
  refine ⟨fun ⟨he, hp⟩ => ?_, fun hs => (p.parse_render_of_separated hw hs file).2 limit hl⟩
  have hf := (TokenStream.ended_ofSource file p.render).final
  have hscan := TokenStream.scans_ofSource file p.render
  rw [p.toList_render] at hscan
  exact isChain_of_reads hw hscan hf (reads_of_errors_eq_nil hf he).1 (congrArg Program.statements hp)

/-- A text is its own rendering exactly if it renders a program whose statements keep apart. -/
theorem Parse.render_parse_iff {text : String} (hl : (parse file text limit).WithinLimit) :
    (parse file text limit).errors = [] ∧ (parse file text limit).program.render = text ↔
      ∃ q : Program, q.WellFormed ∧ q.Separated ∧ q.render = text := by
  constructor
  · rintro ⟨he, hr⟩
    have hw := wellFormed_of_errors_eq_nil he
    refine ⟨_, hw, (@Program.WellFormed.parse_render_iff file limit _ hw ?_).mp ?_, hr⟩
    · rwa [hr]
    · rw [hr]
      exact ⟨he, rfl⟩
  · rintro ⟨q, hw, hs, rfl⟩
    obtain ⟨he, hq⟩ := (hw.parse_render_iff hl).mpr hs
    exact ⟨he, Program.render_eq_of_erase hq⟩

/-- **When a rendering is a fixed point.** A program that was read without an
error is read again as the same program exactly if its top-level statements
keep apart, and has the same text again exactly if it shares its text with
some program whose statements keep apart. -/
theorem Parse.parse_render_iff_separated {file' source : String} {limit' : Nat}
    (h : (parse file source limit).errors = [])
    (hl : (parse file' (parse file source limit).program.render limit').WithinLimit) :
    let p := (parse file source limit).program
    let r := parse file' p.render limit'
    (r.errors = [] ∧ r.program.erase = p.erase ↔ p.Separated) ∧
      (r.errors = [] ∧ r.program.render = p.render ↔
        ∃ q : Program, q.WellFormed ∧ q.Separated ∧ q.render = p.render) :=
  ⟨(wellFormed_of_errors_eq_nil h).parse_render_iff hl, render_parse_iff hl⟩

end

/-- Two numbers run on into one, which is another program with the same text. -/
theorem Parse.parse_render_iff_separated_numbers :
    let p := (parse "demo" "1; 2" 4).program
    p.render = "12" ∧ ¬ p.Separated ∧
      ∃ q : Program, q.WellFormed ∧ q.Separated ∧ q.render = p.render := by
  intro p
  have hr : p.render = "12" := by decide
  have hl : (parse "demo" p.render 4).WithinLimit := by
    rw [hr]
    exact withinLimit_of_errors_eq_nil (by decide)
  obtain ⟨hsame, htext⟩ := @parse_render_iff_separated "demo" _ _ _ _ (by decide) hl
  refine ⟨hr, fun hs => ?_, htext.mp ?_⟩
  · have := congrArg (·.statements.length) (hsame.mpr hs).2
    rw [hr] at this
    exact absurd this (by decide)
  · rw [hr]
    decide

/-- A name runs on into a negation, as a call of the name, and its rendering is another text. -/
theorem Parse.render_parse_render_ne :
    let p := (parse "demo" "a; -b" 4).program
    let r := parse "demo" p.render 4
    (parse "demo" "a; -b" 4).errors = [] ∧ p.render = "a(-b)" ∧
      r.errors = [] ∧ r.program.render = "a((-b))" := by
  decide

end ExprLang
