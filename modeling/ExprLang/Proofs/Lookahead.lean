/-
One token of lookahead is all that parsers look at.

What a run does is told by the tokens that it goes over, the one it stops at,
and the next one. `Local E p s` says so of the run of `p` from `s`: on another
stream with the same tokens up to there it ends in the same way and reports the
same, and of the next token it only has to be told what `E` keeps. That passes
through the steps of a parser and so holds of all of them
(`local_expression`, `local_statement`).
-/
import Mathlib.Data.List.Forall2
import ExprLang.Proofs.Joined
import ExprLang.Proofs.Nesting

namespace ExprLang.Parse

variable {α β : Type} {s r r' : TokenStream} {ts : List Token} {E : Token → Token → Prop}

/-! ## Streams with the same tokens up to a place -/

/-- The streams have the same current token, and the next ones are as `E` says. -/
structure Alike (E : Token → Token → Prop) (s t : TokenStream) : Prop where
  current : t.current = s.current
  peek : E s.peek t.peek

/-- As a token of lookahead a token is stood for by itself, and perhaps by an end token. -/
structure Stands (E : Token → Token → Prop) : Prop where
  refl : ∀ u, E u u
  eq_or_eof : ∀ {u u'}, E u u' → u' = u ∨ u'.kind = .eof

theorem Stands.not {u u' : Token} {C : Token → Prop} (hE : Stands E) (h : E u u')
    (hC : ∀ u, C u → u.kind ≠ .eof) (hu : ¬ C u) : ¬ C u' := by
  rcases hE.eq_or_eof h with rfl | he
  · exact hu
  · exact fun hu' => hC u' hu' he

theorem onward_iff_exists_after : Onward s r ↔ ∃ ts, s = r.after ts := by
  constructor
  · rintro ⟨hf, ts, hp⟩
    exact ⟨ts, by cases s; cases r; simp_all [TokenStream.after]⟩
  · rintro ⟨ts, rfl⟩
    exact ⟨rfl, List.suffix_append _ _⟩

theorem after_after (ps qs : List Token) (r : TokenStream) : (r.after qs).after ps = r.after (ps ++ qs) := by
  simp [TokenStream.after]

theorem after_inj {ps qs : List Token} (h : r.after ps = r.after qs) : ps = qs :=
  List.append_cancel_right (congrArg TokenStream.pending h)

theorem eq_nil_of_after (h : r = r.after ts) : ts = [] := by
  refine (after_inj (r := r) ?_).symm
  rwa [TokenStream.after_nil]

/-- Streams that are alike are alike with the same tokens in front. -/
theorem Alike.after (hE : Stands E) (h : Alike E r r') (ts : List Token) :
    Alike E (r.after ts) (r'.after ts) := by
  match ts with
  | [] => exact h
  | [x] =>
    have hpeek : (r'.after [x]).peek = (r.after [x]).peek := h.current
    exact ⟨rfl, by rw [hpeek]; exact hE.refl _⟩
  | x :: y :: ts => exact ⟨rfl, hE.refl y⟩

/-! ## Local runs -/

/-- The errors are the same, but for the token that is there instead of the one
that has to follow. -/
inductive Match (E : Token → Token → Prop) : ParseError → ParseError → Prop
  | same (e : ParseError) : Match E e e
  | unexpected : E u u' → Match E (.unexpected k u) (.unexpected k u')

/-- The second run ends as the first one does, but at `r'`. -/
inductive Answers (E : Token → Token → Prop) (r' : TokenStream) : Reply α → Reply α → Prop
  | done {v : α} {r : TokenStream} {es es' : List ParseError} :
    List.Forall₂ (Match E) es es' → Answers E r' (.done v r es) (.done v r' es')
  | tooDeep {r : TokenStream} {es es' : List ParseError} :
    List.Forall₂ (Match E) es es' → Answers E r' (.tooDeep r es) (.tooDeep r' es')

/-- The run of `p` from `s` depends on the tokens up to the one it stops at,
and on the next one as far as `E` keeps it. -/
structure Local (E : Token → Token → Prop) (p : Parse α) (s : TokenStream) : Prop where
  onward : Onward s (p s).rest
  same : s.final.kind = .eof → ∀ {ts r'}, s = (p s).rest.after ts → (r'.after ts).Ended →
    Alike E (p s).rest r' → Answers E r' (p s) (p (r'.after ts))

theorem Answers.after {es es' : List ParseError} {x y : Reply α} (h : Answers E r' x y)
    (he : List.Forall₂ (Match E) es es') : Answers E r' (x.after es) (y.after es') := by
  cases h with
  | done hs => exact .done (List.rel_append he hs)
  | tooDeep hs => exact .tooDeep (List.rel_append he hs)

theorem after_nil_reply (x : Reply α) : x.after [] = x := by
  cases x <;> rfl

theorem bind_of_done {p : Parse α} {f : α → Parse β} {a : α} {es : List ParseError}
    (h : p s = .done a r es) : (p >>= f) s = (f a r).after es := by
  change Parse.bind p f s = _
  simp only [Parse.bind, h]

theorem bind_of_tooDeep {p : Parse α} {f : α → Parse β} {es : List ParseError}
    (h : p s = .tooDeep r es) : (p >>= f) s = .tooDeep r es := by
  change Parse.bind p f s = _
  simp only [Parse.bind, h]

namespace Local

theorem pure (a : α) (s : TokenStream) : Local E (pure a) s := by
  refine ⟨.refl s, fun _ ts r' hs _ _ => ?_⟩
  obtain rfl := eq_nil_of_after hs
  exact .done .nil

theorem bind (hE : Stands E) {p : Parse α} {f : α → Parse β} (hp : Local E p s)
    (hf : ∀ a s₁ es, p s = .done a s₁ es → Local E (f a) s₁) : Local E (p >>= f) s := by
  obtain ⟨ho, hsame⟩ := hp
  cases hps : p s with
  | tooDeep s₁ es =>
    rw [hps] at ho hsame
    have hs : (p >>= f) s = .tooDeep s₁ es := bind_of_tooDeep hps
    refine ⟨by rw [hs]; exact ho, ?_⟩
    rw [hs]
    intro hend ts r' hts hr ha
    generalize hpt : p (r'.after ts) = y
    have h := hsame hend hts hr ha
    rw [hpt] at h
    cases h with
    | tooDeep he =>
      rw [bind_of_tooDeep hpt]
      exact .tooDeep he
  | done a s₁ es =>
    rw [hps] at ho hsame
    have hs : (p >>= f) s = (f a s₁).after es := bind_of_done hps
    obtain ⟨ho', hsame'⟩ := hf a s₁ es hps
    rw [← Reply.rest_after es (f a s₁), ← hs] at ho'
    refine ⟨ho.trans ho', ?_⟩
    intro hend ts r' hts hr ha
    -- The tokens gone over are those of the first step and then those of the second.
    obtain ⟨qs, hqs⟩ := onward_iff_exists_after.mp ho'
    obtain ⟨ps, hps'⟩ := onward_iff_exists_after.mp ho
    obtain rfl : ts = ps ++ qs := by
      refine after_inj (r := ((p >>= f) s).rest) ?_
      rw [← hts, ← after_after, ← hqs]
      exact hps'
    rw [← after_after] at hr ⊢
    have halike : Alike E s₁ (r'.after qs) := by
      rw [hqs]
      exact ha.after hE qs
    generalize hpt : p ((r'.after qs).after ps) = y
    have h := hsame hend hps' hr halike
    rw [hpt] at h
    rw [hs, Reply.rest_after] at hqs ha
    cases h with
    | done he =>
      have hr' : (r'.after qs).Ended := hr.onward (onward_iff_exists_after.mpr ⟨ps, rfl⟩)
      rw [hs, bind_of_done hpt]
      exact (hsame' (ho.kind_final hend) hqs hr' ha).after he

theorem current (s : TokenStream) : Local E current s := by
  refine ⟨.refl s, fun _ ts r' hs _ ha => ?_⟩
  obtain rfl := eq_nil_of_after hs
  change Answers E r' (.done s.current s []) (.done r'.current r' [])
  rw [ha.current]
  exact .done .nil

theorem report (e : ParseError) (s : TokenStream) : Local E (report e) s := by
  refine ⟨.refl s, fun _ ts r' hs _ ha => ?_⟩
  obtain rfl := eq_nil_of_after hs
  exact .done (.cons (.same e) .nil)

/-- Where a run goes over the current token, it does so on the other stream,
and the next token is the same there. -/
theorem advanced (hE : Stands E) (ho : Onward s.advance r) (hf : s.final.kind = .eof)
    (hs : s = r.after ts) (hr : (r'.after ts).Ended) (ha : Alike E r r') :
    ∃ us, s.advance = r.after us ∧ (r'.after ts).advance = r'.after us ∧ (r'.after ts).peek = s.peek := by
  cases ts with
  | cons x us =>
    have hcurrent := (ha.after hE us).current
    subst hs
    exact ⟨us, rfl, rfl, hcurrent⟩
  | nil =>
    -- The run has not moved, as there is no token left to go over.
    subst hs
    obtain ⟨ps, f⟩ := r
    obtain rfl : ps = [] := by
      cases ps with
      | nil => rfl
      | cons p ps => exact absurd ho.length_le (by simp [TokenStream.advance, TokenStream.after])
    have hnil : r'.pending = [] :=
      List.map_eq_nil_iff.mp (hr.kinds_of_eof (by rw [TokenStream.after_nil, ha.current]; exact hf))
    obtain rfl : r' = ⟨[], f⟩ := by
      have hcurrent := ha.current
      rw [TokenStream.current, hnil] at hcurrent
      cases r'
      simp_all [TokenStream.current]
    exact ⟨[], rfl, rfl, rfl⟩

theorem advance (hE : Stands E) (s : TokenStream) : Local E advance s := by
  refine ⟨(Onward.refl s).advance, fun hf ts r' hs hr ha => ?_⟩
  obtain ⟨us, hus, hadvance, -⟩ := advanced hE (.refl _) hf hs hr ha
  obtain rfl := eq_nil_of_after hus
  change Answers E r' (.done () s.advance []) (.done () (r'.after ts).advance [])
  rw [hadvance]
  exact .done .nil

/-- A step that the next token decides. Where it is taken onto that token, this
is the same one on the other stream. -/
theorem peek (hE : Stands E) {C : Token → Prop} [DecidablePred C] {p : Token → Parse β} {q : Parse β}
    (hC : ∀ u u', E u u' → ¬ C u → ¬ C u') (hp : C s.peek → Local E (p s.peek) s.advance)
    (hq : ¬ C s.peek → Local E q s) :
    Local E (Parse.peek >>= fun u => if C u then Parse.advance >>= fun _ => p u else q) s := by
  have hpos {t : TokenStream} (h : C t.peek) :
      (Parse.peek >>= fun u => if C u then Parse.advance >>= fun _ => p u else q) t = p t.peek t.advance := by
    rw [bind_of_done (p := Parse.peek) rfl, after_nil_reply, if_pos h, bind_of_done (p := Parse.advance) rfl,
      after_nil_reply]
  have hneg {t : TokenStream} (h : ¬ C t.peek) :
      (Parse.peek >>= fun u => if C u then Parse.advance >>= fun _ => p u else q) t = q t := by
    rw [bind_of_done (p := Parse.peek) rfl, after_nil_reply, if_neg h]
  by_cases h : C s.peek
  · obtain ⟨ho, hsame⟩ := hp h
    refine ⟨by rw [hpos h]; exact ho.of_advance, ?_⟩
    rw [hpos h]
    intro hf ts r' hs hr ha
    obtain ⟨us, hus, hadvance, hpeek⟩ := advanced hE ho hf hs hr ha
    rw [hpos (by rwa [hpeek]), hpeek, hadvance]
    refine hsame hf hus ?_ ha
    rw [← hadvance]
    exact hr.advance
  · obtain ⟨ho, hsame⟩ := hq h
    refine ⟨by rw [hneg h]; exact ho, ?_⟩
    rw [hneg h]
    intro hf ts r' hs hr ha
    have hpeek := (ha.after hE ts).peek
    rw [← hs] at hpeek
    rw [hneg (hC _ _ hpeek h)]
    exact hsame hf hs hr ha

/-- The token that has to follow is reported as missing whatever stands in its place. -/
theorem expect (hE : Stands E) {kind : Kind} (hk : ∀ u u', E u u' → u.kind ≠ kind → u'.kind ≠ kind)
    (s : TokenStream) : Local E (expect kind) s := by
  by_cases h : s.peek.kind = kind
  · refine ⟨by rw [expect_eq_true h]; exact (Onward.refl s).advance, ?_⟩
    rw [expect_eq_true h]
    intro hf ts r' hs hr ha
    obtain ⟨us, hus, hadvance, hpeek⟩ := advanced hE (.refl _) hf hs hr ha
    obtain rfl := eq_nil_of_after hus
    rw [expect_eq_true (by rw [hpeek]; exact h), hadvance]
    exact .done .nil
  · refine ⟨by rw [expect_eq_false h]; exact .refl s, ?_⟩
    rw [expect_eq_false h]
    intro hf ts r' hs hr ha
    obtain rfl := eq_nil_of_after hs
    rw [TokenStream.after_nil, expect_eq_false (hk _ _ ha.peek h)]
    exact .done (.cons (.unexpected ha.peek) .nil)

/-- Steps in a number of rounds that does not matter, if there are enough. -/
theorem remaining {f : Nat → Parse β} (h : ∀ n, Local E (f n) s)
    (hrounds : ∀ (t : TokenStream) n, t.final.kind = .eof → t.pending.length ≤ n →
      f n t = f t.pending.length t) : Local E (Parse.remaining >>= f) s := by
  have hstep (t : TokenStream) : (Parse.remaining >>= f) t = f t.pending.length t := by
    rw [bind_of_done (p := Parse.remaining) rfl, after_nil_reply]
  refine ⟨by rw [hstep]; exact (h _).onward, ?_⟩
  intro hf ts r' hs hr ha
  rw [hstep] at hs ha ⊢
  rw [hstep]
  have hmax (t : TokenStream) (ht : t.final.kind = .eof) (hle : t.pending.length ≤
      max s.pending.length (r'.after ts).pending.length) := hrounds t _ ht hle
  have hs' := hmax s hf (Nat.le_max_left _ _)
  rw [← hs'] at hs ha ⊢
  rw [← hmax _ hr.final (Nat.le_max_right _ _)]
  exact (h _).same hf hs hr ha

theorem ite {c : Prop} [Decidable c] {p q : Parse α} (hp : c → Local E p s) (hq : ¬ c → Local E q s) :
    Local E (if c then p else q) s := by
  by_cases h : c
  · rw [if_pos h]
    exact hp h
  · rw [if_neg h]
    exact hq h

end Local

/-! ## All parsers are local -/

section

variable (hE : Stands E)

include hE

theorem Stands.kind {k : Kind} (hk : k ≠ .eof) (u u' : Token) (h : E u u') (hu : u.kind ≠ k) : u'.kind ≠ k :=
  hE.not (C := fun u => u.kind = k) h (fun _ hu => hu ▸ hk) hu

theorem local_skipSemicolon (s : TokenStream) : Local E skipSemicolon s := by
  have h := Local.peek hE (s := s) (C := fun u => u.kind = .semicolon) (p := fun _ => pure ()) (q := pure ())
    (hE.kind (by decide)) (fun _ => .pure _ _) fun _ => .pure _ _
  exact h

theorem local_integer (s : TokenStream) : Local E integer s := by
  refine .bind hE (.current s) ?_
  rintro _ _ _ ⟨⟩
  refine .ite (fun _ => .pure _ _) fun _ => ?_
  exact .bind hE (.report _ _) fun _ _ _ _ => .pure _ _

theorem local_moreParameters (n : Nat) (s : TokenStream) : Local E (moreParameters n) s := by
  induction n generalizing s with
  | zero => exact .pure _ _
  | succ n ih =>
    refine .peek hE (hE.kind (by decide)) (fun _ => ?_) fun _ => .pure _ _
    refine .bind hE (.expect hE (hE.kind (by decide)) _) fun ok _ _ _ => .ite (fun _ => ?_) fun _ => .pure _ _
    refine .bind hE (.current _) fun _ _ _ _ => .bind hE (ih _) fun _ _ _ _ => .pure _ _

theorem local_parameters (s : TokenStream) : Local E parameters s := by
  refine .peek hE (hE.kind (by decide)) (fun _ => .pure _ _) fun _ => ?_
  refine .bind hE (.expect hE (hE.kind (by decide)) _) fun ok _ _ _ => .ite (fun _ => ?_) fun _ => .pure _ _
  refine .bind hE (.current _) fun t s₁ _ _ => .remaining (fun n => ?_) fun t n hf hn =>
    bind_congr_left (moreParameters_rounds hf hn)
  refine .bind hE (local_moreParameters hE n _) fun v _ _ _ => ?_
  cases v with
  | none => exact .pure _ _
  | some ps =>
    exact .bind hE (.expect hE (hE.kind (by decide)) _) fun ok _ _ _ =>
      .ite (fun _ => .pure _ _) fun _ => .pure _ _

variable {expr : Precedence → Parse (Option Expr)} (h : ∀ least s, Local E (expr least) s)

include h

theorem local_binding (s : TokenStream) : Local E (binding expr) s := by
  refine .bind hE (.current s) fun t _ _ _ => ?_
  refine .bind hE (.expect hE (hE.kind (by decide)) _) fun ok _ _ _ => .ite (fun _ => ?_) fun _ => .pure _ _
  refine .bind hE (.current _) fun n _ _ _ => ?_
  refine .bind hE (.expect hE (hE.kind (by decide)) _) fun ok _ _ _ => .ite (fun _ => ?_) fun _ => .pure _ _
  refine .bind hE (.advance hE _) fun _ _ _ _ => .bind hE (h _ _) fun v _ _ _ => ?_
  exact .bind hE (local_skipSemicolon hE _) fun _ _ _ _ => .pure _ _

theorem local_returnStatement (s : TokenStream) : Local E (returnStatement expr) s := by
  refine .bind hE (.current s) fun t _ _ _ => .bind hE (.advance hE _) fun _ _ _ _ => ?_
  refine .bind hE (h _ _) fun v _ _ _ => ?_
  exact .bind hE (local_skipSemicolon hE _) fun _ _ _ _ => .pure _ _

theorem local_expressionStatement (s : TokenStream) : Local E (expressionStatement expr) s := by
  refine .bind hE (.current s) fun t _ _ _ => .bind hE (h _ _) fun v _ _ _ => ?_
  exact .bind hE (local_skipSemicolon hE _) fun _ _ _ _ => .pure _ _

theorem local_statement_of (s : TokenStream) : Local E (statement expr) s := by
  refine .bind hE (.current s) fun t _ _ _ => ?_
  split
  · exact local_binding hE h _
  · exact local_returnStatement hE h _
  · exact local_expressionStatement hE h _

theorem local_blockStatements (n : Nat) (s : TokenStream) : Local E (blockStatements expr n) s := by
  induction n generalizing s with
  | zero => exact .pure _ _
  | succ n ih =>
    refine .bind hE (.current s) fun t _ _ _ => .ite (fun _ => .pure _ _) fun _ => ?_
    refine .bind hE (local_statement_of hE h _) fun v _ _ _ => .bind hE (.advance hE _) fun _ _ _ _ => ?_
    exact .bind hE (ih _) fun _ _ _ _ => .pure _ _

theorem local_block (s : TokenStream) : Local E (block expr) s := by
  refine .bind hE (.current s) fun t _ _ _ => .bind hE (.advance hE _) fun _ _ _ _ => ?_
  refine .remaining (fun n => ?_) fun t n hf hn =>
    bind_congr_left (blockStatements_rounds (fun least s => (h least s).onward) hf hn)
  exact .bind hE (local_blockStatements hE h n _) fun _ _ _ _ => .pure _ _

theorem local_unary (s : TokenStream) : Local E (unary expr) s := by
  refine .bind hE (.current s) fun t _ _ _ => .bind hE (.advance hE _) fun _ _ _ _ => ?_
  exact .bind hE (h _ _) fun _ _ _ _ => .pure _ _

theorem local_group (s : TokenStream) : Local E (group expr) s := by
  refine .bind hE (.advance hE _) fun _ _ _ _ => .bind hE (h _ _) fun v _ _ _ => ?_
  exact .bind hE (.expect hE (hE.kind (by decide)) _) fun ok _ _ _ => .ite (fun _ => .pure _ _) fun _ => .pure _ _

theorem local_alternative (s : TokenStream) : Local E (alternative expr) s := by
  refine .peek hE (hE.kind (by decide)) (fun _ => ?_) fun _ => .pure _ _
  refine .bind hE (.expect hE (hE.kind (by decide)) _) fun ok _ _ _ => .ite (fun _ => ?_) fun _ => .pure _ _
  exact .bind hE (local_block hE h _) fun _ _ _ _ => .pure _ _

theorem local_conditional (s : TokenStream) : Local E (conditional expr) s := by
  refine .bind hE (.current s) fun t _ _ _ => .bind hE (.advance hE _) fun _ _ _ _ => ?_
  refine .bind hE (h _ _) fun v _ _ _ => ?_
  cases v with
  | none => exact .pure _ _
  | some c =>
    refine .bind hE (.expect hE (hE.kind (by decide)) _) fun ok _ _ _ => .ite (fun _ => ?_) fun _ => .pure _ _
    refine .bind hE (local_block hE h _) fun b _ _ _ => ?_
    exact .bind hE (local_alternative hE h _) fun _ _ _ _ => .pure _ _

theorem local_function (s : TokenStream) : Local E (function expr) s := by
  refine .bind hE (.current s) fun t _ _ _ => ?_
  refine .bind hE (.expect hE (hE.kind (by decide)) _) fun ok _ _ _ => .ite (fun _ => ?_) fun _ => .pure _ _
  refine .bind hE (local_parameters hE _) fun v _ _ _ => ?_
  cases v with
  | none => exact .pure _ _
  | some ps =>
    refine .bind hE (.expect hE (hE.kind (by decide)) _) fun ok _ _ _ => .ite (fun _ => ?_) fun _ => .pure _ _
    exact .bind hE (local_block hE h _) fun _ _ _ _ => .pure _ _

theorem local_operand (s : TokenStream) : Local E (operand expr) s := by
  refine .bind hE (.current s) fun t _ _ _ => ?_
  split
  · exact .pure _ _
  · exact local_integer hE _
  · exact .pure _ _
  · exact .pure _ _
  · exact local_unary hE h _
  · exact local_unary hE h _
  · exact local_group hE h _
  · exact local_conditional hE h _
  · exact local_function hE h _
  · exact .bind hE (.report _ _) fun _ _ _ _ => .pure _ _

theorem local_moreExpressions (n : Nat) (s : TokenStream) : Local E (moreExpressions expr n) s := by
  induction n generalizing s with
  | zero => exact .pure _ _
  | succ n ih =>
    refine .peek hE (hE.kind (by decide)) (fun _ => ?_) fun _ => .pure _ _
    refine .bind hE (.advance hE _) fun _ _ _ _ => .bind hE (h _ _) fun v _ _ _ => ?_
    cases v with
    | none => exact .pure _ _
    | some e => exact .bind hE (ih _) fun _ _ _ _ => .pure _ _

theorem local_expressions {close : Kind}
    (hclose : ∀ u u', E u u' → u.kind ≠ close → u'.kind ≠ close) (s : TokenStream) :
    Local E (expressions expr close) s := by
  refine .peek hE hclose (fun _ => .pure _ _) fun _ => ?_
  refine .bind hE (.advance hE _) fun _ _ _ _ => .bind hE (h _ _) fun v _ _ _ => ?_
  cases v with
  | none => exact .pure _ _
  | some e =>
    refine .remaining (fun n => ?_) fun t n hf hn =>
      bind_congr_left (moreExpressions_rounds (fun least s => (h least s).onward) hf hn)
    refine .bind hE (local_moreExpressions hE h n _) fun v _ _ _ => ?_
    cases v with
    | none => exact .pure _ _
    | some more =>
      exact .bind hE (.expect hE hclose _) fun ok _ _ _ => .ite (fun _ => .pure _ _) fun _ => .pure _ _

theorem local_call (callee : Expr) (s : TokenStream) : Local E (call expr callee) s := by
  refine .bind hE (.current s) fun t _ _ _ => ?_
  exact .bind hE (local_expressions hE h (hE.kind (by decide)) _) fun _ _ _ _ => .pure _ _

theorem local_binary (left : Expr) (s : TokenStream) : Local E (binary expr left) s := by
  refine .bind hE (.current s) fun t _ _ _ => .bind hE (.advance hE _) fun _ _ _ _ => ?_
  exact .bind hE (h _ _) fun _ _ _ _ => .pure _ _

theorem local_operators (least : Precedence) (n : Nat) (left : Expr) (s : TokenStream) :
    Local E (operators expr least n left) s := by
  induction n generalizing s left with
  | zero => exact .pure _ _
  | succ n ih =>
    have hlevel (u u' : Token) (hu : E u u') : ¬ least.level < u.kind.precedence.level →
        ¬ least.level < u'.kind.precedence.level :=
      hE.not (C := fun u => least.level < u.kind.precedence.level) hu fun _ hl => kind_ne_eof_of_level_lt hl
    have hgo (v : Option Expr) (s : TokenStream) : Local E (nextRound expr least n v) s := by
      cases v with
      | none => exact .pure _ _
      | some e => exact ih e s
    refine .peek hE hlevel (fun _ => .ite (fun _ => ?_) fun _ => ?_) fun _ => .pure _ _
    · exact .bind hE (local_call hE h left _) fun v _ _ _ => hgo v _
    · exact .bind hE (local_binary hE h left _) fun v _ _ _ => hgo v _

theorem local_level (least : Precedence) (s : TokenStream) : Local E (level expr least) s := by
  refine .bind hE (local_operand hE h s) fun v _ _ _ => ?_
  cases v with
  | none => exact .pure _ _
  | some e =>
    exact .remaining (fun n => local_operators hE h least n e _) fun t n hf hn =>
      operators_rounds (fun least s => (h least s).onward) e hf hn

omit h

theorem local_expression (limit : Nat) (least : Precedence) (s : TokenStream) :
    Local E (expression limit least) s := by
  induction limit generalizing least s with
  | zero =>
    refine ⟨.refl s, fun _ ts r' hs _ _ => ?_⟩
    obtain rfl := eq_nil_of_after hs
    exact .tooDeep .nil
  | succ limit ih => exact local_level hE ih least s

theorem local_statement (limit : Nat) (s : TokenStream) : Local E (statement (expression limit)) s :=
  local_statement_of hE (local_expression hE limit) s

end

end ExprLang.Parse
