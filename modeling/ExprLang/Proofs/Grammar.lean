/-
The grammar of the language over kinds of token, and its greedy derivations.

`Derives f φ ks rest` derives from the nonterminal `φ` the kinds that `ks`
has in front of `rest`. Nothing in the grammar says how long a statement is:
the semicolon behind it is optional, and `-` and `(` both start an expression
and go on with one. In a greedy derivation a statement without a semicolon
is followed by no kind that could go on with it.

Main statement: what can be derived at all can be derived greedily
(`Derives.greedy`), so a parser that always goes on misses nothing.
-/
import ExprLang.Token.Basic

namespace ExprLang

/-! ## The grammar -/

/-- The operators between two operands. -/
def isInfix (k : Kind) : Prop :=
  k = .plus ∨ k = .minus ∨ k = .asterisk ∨ k = .slash ∨ k = .lt ∨ k = .gt ∨ k = .eq ∨ k = .notEq

instance : DecidablePred isInfix := fun _ => inferInstanceAs (Decidable (_ ∨ _))

/-- The nonterminals; the ones in the plural stand for repetitions. -/
inductive Nonterminal where
  | statements | statement
  /-- The semicolon behind a statement, or nothing. -/
  | ending
  | expression
  /-- Operators, each with the operand behind it. -/
  | links
  | operand | primary
  | calls
  /-- Arguments up to the closing parenthesis, which is one of their kinds. -/
  | arguments
  | moreArguments
  /-- Parameters up to the closing parenthesis, which is one of their kinds. -/
  | parameters
  | moreParameters
  | block | alternative

/-- What a derivation demands of the kinds behind a block that no brace
closes, and behind a statement that no semicolon closes. -/
structure Follow where
  block : List Kind → Prop
  statement : List Kind → Prop

/-- The language itself: a block without its closing brace ends with the
text, and the semicolon behind a statement is optional. -/
def Follow.free : Follow := ⟨(· = []), fun _ => True⟩

/-- The language without blocks that end with the text. -/
def Follow.closed : Follow := ⟨fun _ => False, fun _ => True⟩

/-- The kinds in front of `rest` in `ks` are derived from a nonterminal. -/
inductive Derives (f : Follow) : Nonterminal → List Kind → List Kind → Prop
  | noStatements : Derives f .statements rest rest
  | statements : Derives f .statement ks ks₁ → Derives f .statements ks₁ rest →
      Derives f .statements ks rest
  | binding : Derives f .expression ks ks₁ → Derives f .ending ks₁ rest →
      Derives f .statement (.kwLet :: .ident :: .assign :: ks) rest
  | ret : Derives f .expression ks ks₁ → Derives f .ending ks₁ rest →
      Derives f .statement (.kwReturn :: ks) rest
  | plain : Derives f .expression ks ks₁ → Derives f .ending ks₁ rest → Derives f .statement ks rest
  | semicolon : Derives f .ending (.semicolon :: rest) rest
  | noSemicolon : f.statement rest → Derives f .ending rest rest
  | expression : Derives f .operand ks ks₁ → Derives f .links ks₁ rest → Derives f .expression ks rest
  | noLinks : Derives f .links rest rest
  | links : isInfix k → Derives f .operand ks ks₁ → Derives f .links ks₁ rest →
      Derives f .links (k :: ks) rest
  | unary : k = .bang ∨ k = .minus → Derives f .operand ks rest → Derives f .operand (k :: ks) rest
  | operand : Derives f .primary ks ks₁ → Derives f .calls ks₁ rest → Derives f .operand ks rest
  | noCalls : Derives f .calls rest rest
  | calls : Derives f .arguments ks ks₁ → Derives f .calls ks₁ rest →
      Derives f .calls (.lparen :: ks) rest
  | atom : k = .ident ∨ k = .int ∨ k = .kwTrue ∨ k = .kwFalse → Derives f .primary (k :: rest) rest
  | group : Derives f .expression ks (.rparen :: rest) → Derives f .primary (.lparen :: ks) rest
  | cond : Derives f .expression ks ks₁ → Derives f .block ks₁ ks₂ → Derives f .alternative ks₂ rest →
      Derives f .primary (.kwIf :: ks) rest
  | fn : Derives f .parameters ks ks₁ → Derives f .block ks₁ rest →
      Derives f .primary (.kwFn :: .lparen :: ks) rest
  | noArguments : Derives f .arguments (.rparen :: rest) rest
  | arguments : Derives f .expression ks ks₁ → Derives f .moreArguments ks₁ rest →
      Derives f .arguments ks rest
  | lastArgument : Derives f .moreArguments (.rparen :: rest) rest
  | moreArguments : Derives f .expression ks ks₁ → Derives f .moreArguments ks₁ rest →
      Derives f .moreArguments (.comma :: ks) rest
  | noParameters : Derives f .parameters (.rparen :: rest) rest
  | parameters : Derives f .moreParameters ks rest → Derives f .parameters (.ident :: ks) rest
  | lastParameter : Derives f .moreParameters (.rparen :: rest) rest
  | moreParameters : Derives f .moreParameters ks rest →
      Derives f .moreParameters (.comma :: .ident :: ks) rest
  | block : Derives f .statements ks (.rbrace :: rest) → Derives f .block (.lbrace :: ks) rest
  | openBlock : Derives f .statements ks rest → f.block rest → Derives f .block (.lbrace :: ks) rest
  | noAlternative : Derives f .alternative rest rest
  | alternative : Derives f .block ks rest → Derives f .alternative (.kwElse :: ks) rest

namespace Derives

variable {f : Follow} {ks ks₁ ks₂ rest : List Kind}

/-! ## Going on with an expression -/

theorem calls_trans (h₁ : Derives f .calls ks ks₁) (h₂ : Derives f .calls ks₁ rest) :
    Derives f .calls ks rest := by
  generalize hφ : Nonterminal.calls = φ at h₁
  induction h₁ with
  | noCalls => exact h₂
  | calls ha _ _ ih => exact .calls ha (ih h₂ rfl)
  | _ => cases hφ

theorem links_trans (h₁ : Derives f .links ks ks₁) (h₂ : Derives f .links ks₁ rest) :
    Derives f .links ks rest := by
  generalize hφ : Nonterminal.links = φ at h₁
  induction h₁ with
  | noLinks => exact h₂
  | links hk ho _ _ ih => exact .links hk ho (ih h₂ rfl)
  | _ => cases hφ

theorem operand_calls (h₁ : Derives f .operand ks ks₁) (h₂ : Derives f .calls ks₁ rest) :
    Derives f .operand ks rest := by
  generalize hφ : Nonterminal.operand = φ at h₁
  induction h₁ with
  | unary hk _ ih => exact .unary hk (ih h₂ rfl)
  | operand hp hc => exact .operand hp (hc.calls_trans h₂)
  | _ => cases hφ

/-- Calls behind an expression belong to its last operand. -/
theorem expression_calls (h₁ : Derives f .expression ks ks₁) (h₂ : Derives f .calls ks₁ rest) :
    Derives f .expression ks rest := by
  cases h₁ with
  | expression ho hl =>
  generalize hφ : Nonterminal.links = φ at hl
  induction hl generalizing ks with
  | noLinks => exact .expression (ho.operand_calls h₂) .noLinks
  | links hk ho' _ _ ih =>
    cases ih h₂ ho' hφ with
    | expression ho'' hl => exact .expression ho (.links hk ho'' hl)
  | _ => cases hφ

theorem expression_links (h₁ : Derives f .expression ks ks₁) (h₂ : Derives f .links ks₁ rest) :
    Derives f .expression ks rest := by
  cases h₁ with
  | expression ho hl => exact .expression ho (hl.links_trans h₂)

end Derives

/-! ## Greedy derivations -/

/-- The kinds that go on with the statement before them. -/
def Continues (k : Kind) : Prop := isInfix k ∨ k = .lparen ∨ k = .kwElse ∨ k = .semicolon

instance : DecidablePred Continues := fun _ => inferInstanceAs (Decidable (_ ∨ _))

/-- No kind here goes on with a statement. -/
def Settled (ks : List Kind) : Prop := ∀ k ∈ ks.head?, ¬ Continues k

theorem settled_nil : Settled [] := by simp [Settled]

theorem settled_cons {k : Kind} {ks : List Kind} : Settled (k :: ks) ↔ ¬ Continues k := by
  simp [Settled]

/-- Each statement goes on as far as it can. -/
def Follow.greedy (f : Follow) : Follow := ⟨f.block, Settled⟩

namespace Derives

variable {f : Follow} {ks ks₁ ks₂ rest : List Kind}

/-- Two expressions are one if the second starts with what could go on with
the first: a `-` is an operator then, and a group the arguments of a call. -/
theorem expression_merge (h₁ : Derives f .expression ks ks₁) (h₂ : Derives f .expression ks₁ rest)
    (h : ¬ Settled ks₁) : Derives f .expression ks rest := by
  cases h₂ with
  | expression ho hl =>
  cases ho with
  | unary hk ho =>
    rcases hk with rfl | rfl
    · exact absurd (settled_cons.mpr (by decide)) h
    · exact h₁.expression_links (.links (by simp [isInfix]) ho hl)
  | operand hp hc =>
    cases hp with
    | group he => exact (h₁.expression_calls (.calls (.arguments he .lastArgument) hc)).expression_links hl
    | atom hk =>
      refine absurd (settled_cons.mpr ?_) h
      rcases hk with rfl | rfl | rfl | rfl <;> decide
    | cond | fn => exact absurd (settled_cons.mpr (by decide)) h

/-- An expression in front of greedy statements takes in as much of the first
of them as goes on with it. -/
theorem expression_statements (he : Derives f.greedy .expression ks ks₁)
    (hk : ks₁ = .semicolon :: ks₂ ∨ ks₁ = ks₂) (hx : Derives f.greedy .statements ks₂ rest)
    (hs : Settled rest) : ∃ ks₃ ks₄, Derives f.greedy .expression ks ks₃ ∧
      Derives f.greedy .ending ks₃ ks₄ ∧ Derives f.greedy .statements ks₄ rest := by
  rcases hk with rfl | rfl
  · exact ⟨_, _, he, .semicolon, hx⟩
  · by_cases h : Settled ks₁
    · exact ⟨_, _, he, .noSemicolon h, hx⟩
    · cases hx with
      | noStatements => exact absurd hs h
      | statements hx hxs =>
        cases hx with
        | plain he' hk' => exact ⟨_, _, he.expression_merge he' h, hk', hxs⟩
        | binding | ret => exact absurd (settled_cons.mpr (by decide)) h

/-- What each nonterminal's derivations turn into. A statement has to be
followed by statements to know where it ends. -/
def Greedily (f : Follow) : Nonterminal → List Kind → List Kind → Prop
  | .statements, ks, rest => Settled rest → Derives f.greedy .statements ks rest
  | .statement, ks, ks₁ => ∀ rest, Settled rest → Derives f.greedy .statements ks₁ rest →
      Derives f.greedy .statements ks rest
  | .ending, ks, rest => ks = .semicolon :: rest ∨ ks = rest
  | φ, ks, rest => Derives f.greedy φ ks rest

theorem greedily (hf : ∀ ks, f.block ks → ks = []) {φ : Nonterminal} (h : Derives f φ ks rest) :
    Greedily f φ ks rest := by
  induction h with
  | noStatements => exact fun _ => .noStatements
  | statements _ _ ihx ih => exact fun hs => ihx _ hs (ih hs)
  | binding _ _ ihe ihk =>
    intro rest hs hx
    obtain ⟨_, _, he, hk, hx⟩ := ihe.expression_statements ihk hx hs
    exact .statements (.binding he hk) hx
  | ret _ _ ihe ihk =>
    intro rest hs hx
    obtain ⟨_, _, he, hk, hx⟩ := ihe.expression_statements ihk hx hs
    exact .statements (.ret he hk) hx
  | plain _ _ ihe ihk =>
    intro rest hs hx
    obtain ⟨_, _, he, hk, hx⟩ := ihe.expression_statements ihk hx hs
    exact .statements (.plain he hk) hx
  | semicolon => exact .inl rfl
  | noSemicolon => exact .inr rfl
  | expression _ _ iho ihl => exact .expression iho ihl
  | noLinks => exact .noLinks
  | links hk _ _ iho ihl => exact .links hk iho ihl
  | unary hk _ ih => exact .unary hk ih
  | operand _ _ ihp ihc => exact .operand ihp ihc
  | noCalls => exact .noCalls
  | calls _ _ iha ihc => exact .calls iha ihc
  | atom hk => exact .atom hk
  | group _ ih => exact .group ih
  | cond _ _ _ ihe ihb iha => exact .cond ihe ihb iha
  | fn _ _ ihp ihb => exact .fn ihp ihb
  | noArguments => exact .noArguments
  | arguments _ _ ihe iha => exact .arguments ihe iha
  | lastArgument => exact .lastArgument
  | moreArguments _ _ ihe iha => exact .moreArguments ihe iha
  | noParameters => exact .noParameters
  | parameters _ ih => exact .parameters ih
  | lastParameter => exact .lastParameter
  | moreParameters _ ih => exact .moreParameters ih
  | block _ ih => exact .block (ih (settled_cons.mpr (by decide)))
  | openBlock _ hb ih => exact .openBlock (ih (hf _ hb ▸ settled_nil)) hb
  | noAlternative => exact .noAlternative
  | alternative _ ih => exact .alternative ih

/-- **Greed misses nothing.** Statements that can be derived up to where no
statement goes on can be derived so that each goes on as far as it can. -/
theorem greedy (hf : ∀ ks, f.block ks → ks = []) (h : Derives f .statements ks rest)
    (hs : Settled rest) : Derives f.greedy .statements ks rest := h.greedily hf hs

end Derives

end ExprLang
