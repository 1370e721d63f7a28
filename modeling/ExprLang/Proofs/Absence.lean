/-
Nothing goes missing without an error.

A parser that meets a mistake leaves a field absent, or drops what it has
read and lets its caller do the same. Either way it has put an error on the
list, and no error stands for two absent fields: each one is `Paid` for. Main
statement: `parse_paid`, on the program of any text, and on each run of the
parsers of expressions and of statements that comes to nothing.
-/
import ExprLang.Proofs.Tally
import ExprLang.Proofs.WellRead

namespace ExprLang.Parse

/-- Every absent field has an error of its own, and no expression is missing as a statement. -/
def Paid (_ : TokenStream) (ps : List Leaf) (es : List ParseError) : Prop :=
  ps.count .absent ≤ es.length ∧ .bare ∉ ps

theorem tally_paid : Tally Paid where
  skip h := h
  take h _ := by simpa [Paid] using h
  report h _ := by simpa [Paid] using h
  drop h hs := ⟨(hs.count_le _).trans h.1, fun hb => h.2 (hs.subset hb)⟩

theorem Paid.append {s : TokenStream} {ps : List Leaf} {es es' : List ParseError} (h : Paid s ps es) :
    Paid s ps (es ++ es') := by
  refine ⟨?_, h.2⟩
  have := h.1
  rw [List.length_append]
  omega

/-- A statement that comes to nothing was reported. -/
theorem present_statement (limit : Nat) : Present (statement (expression limit)) := by
  refine ⟨fun h => ?_⟩
  rcases yields_statement.mp h with ⟨-, h⟩ | ⟨-, h⟩ | ⟨-, -, h⟩
  · obtain ⟨-, -, v, s₁, -, rfl, -⟩ := yields_binding.mp h
    simp
  · obtain ⟨v, s₁, -, rfl, -⟩ := yields_returnStatement.mp h
    simp
  · obtain ⟨v, s₁, hv, rfl, -⟩ := yields_expressionStatement.mp h
    obtain ⟨e, rfl⟩ := (present_expression limit _).eq_some hv
    simp

theorem Present.ne_nil {α : Type} {p : Parse (Option α)} (hp : Present p) {s s' : TokenStream}
    {es : List ParseError} (h : p s = .done none s' es) : es ≠ [] := by
  rintro rfl
  obtain ⟨a, ha⟩ := hp.eq_some h
  cases ha

/-- **Nothing goes missing without an error.** A program has at most as many
absent fields as errors, and none of them is the expression of a statement;
each single run that comes to nothing, wherever it starts, has an error of its
own. Without errors all tokens of the text are read as statements that are in
the tree, in blocks too, and the tree is well-formed: no field is absent, and
integers have the value of their digits. -/
theorem parse_paid (file source : String) (limit : Nat) :
    (parse file source limit).program.leaves.count .absent ≤ (parse file source limit).errors.length ∧
    .bare ∉ (parse file source limit).program.leaves ∧
    (∀ l s s' es, statement (expression l) s = .done none s' es → es ≠ []) ∧
    (∀ l least s s' es, expression l least s = .done none s' es → es ≠ []) ∧
    ((parse file source limit).errors = [] →
      Reads (.statements (parse file source limit).statements) (.ofSource file source)
        (parse file source limit).rest ∧
      (parse file source limit).rest.current.kind = .eof ∧
      .absent ∉ (parse file source limit).program.leaves ∧
      (parse file source limit).program.WellFormed) := by
  have h0 : Paid (.ofSource file source) [] [] := by simp [Paid]
  obtain ⟨hcount, hbare⟩ := tally_paid.parse Paid.append file source limit h0
  refine ⟨hcount, hbare, ?_, ?_, ?_⟩
  · exact fun l s s' es h => (present_statement l).ne_nil h
  · exact fun l least s s' es h => (present_expression l least).ne_nil h
  · intro he
    have hf := (TokenStream.ended_ofSource file source).final
    have hr : (program limit (.ofSource file source)).errors = [] := he
    obtain ⟨hreads, heof⟩ := reads_of_errors_eq_nil hf hr
    refine ⟨hreads, heof, ?_, wellFormed_of_errors_eq_nil he⟩
    rw [he] at hcount
    exact List.count_eq_zero.mp (Nat.le_zero.mp hcount)

/-- Two fields are absent for two errors; a statement and an expression that
come to nothing are reported; and a text without errors is read as a whole. -/
theorem parse_paid_missingValues :
    (parse "demo" "let x = ; 1 +" 5).program.leaves.count .absent = 2 ∧
    (parse "demo" "let x = ; 1 +" 5).errors.length = 2 ∧
    (∃ es, statement (expression 5) (.ofSource "demo" "let 5") =
      .done none (.ofSource "demo" "let 5") es ∧ es ≠ []) ∧
    (∃ es, expression 5 .lowest (.ofSource "demo" ";") = .done none (.ofSource "demo" ";") es ∧ es ≠ []) ∧
    (parse "demo" "let y = fn() \x7b z 5 \x7d" 5).errors = [] ∧
    .absent ∉ (parse "demo" "let y = fn() \x7b z 5 \x7d" 5).program.leaves ∧
    (parse "demo" "let y = fn() \x7b z 5 \x7d" 5).program.WellFormed := by
  obtain ⟨-, -, hstatement, hexpression, -⟩ := parse_paid "demo" "let x = ; 1 +" 5
  have hs : statement (expression 5) (.ofSource "demo" "let 5") = .done none (.ofSource "demo" "let 5")
      [.unexpected .ident ⟨.int, "5", ⟨"demo", 1, 5, 1, 5⟩⟩] := by rfl
  have hx : expression 5 .lowest (.ofSource "demo" ";") = .done none (.ofSource "demo" ";")
      [.noOperand ⟨.semicolon, ";", ⟨"demo", 1, 1, 1, 1⟩⟩] := by rfl
  have he : (parse "demo" "let y = fn() \x7b z 5 \x7d" 5).errors = [] := by decide
  obtain ⟨-, -, habsent, hw⟩ := (parse_paid "demo" "let y = fn() \x7b z 5 \x7d" 5).2.2.2.2 he
  exact ⟨by decide, by decide, ⟨_, hs, hstatement _ _ _ _ hs⟩, ⟨_, hx, hexpression _ _ _ _ _ hx⟩, he,
    habsent, hw⟩

end ExprLang.Parse
