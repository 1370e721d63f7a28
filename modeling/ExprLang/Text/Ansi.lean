/-
Terminal control sequences: an escape character and an opening bracket, then
parameters, then intermediate characters, and a final character. The three
kinds of characters are three ranges of ASCII. `stripAnsi` removes the
sequences, from left to right, each where it starts; what only begins like
one stays.
-/
namespace ExprLang.Text

/-- The parameters of a control sequence: digits and `:;<=>?`. -/
def isAnsiParameter (c : Char) : Bool := '0' ≤ c && c ≤ '?'

/-- What may stand between the parameters and the final character: the blank
and the punctuation from `!` to `/`. -/
def isAnsiIntermediate (c : Char) : Bool := ' ' ≤ c && c ≤ '/'

/-- What ends a control sequence: a letter, or one of the signs beside the letters. -/
def isAnsiFinal (c : Char) : Bool := '@' ≤ c && c ≤ '~'

/-- The length of the control sequence at the head of a text, or zero where there is none. -/
def ansiLength : List Char → Nat
  | '\x1b' :: '[' :: rest =>
    let parameters := rest.takeWhile isAnsiParameter
    let rest := rest.dropWhile isAnsiParameter
    let intermediates := rest.takeWhile isAnsiIntermediate
    match rest.dropWhile isAnsiIntermediate with
    | final :: _ =>
      if isAnsiFinal final then parameters.length + intermediates.length + 3 else 0
    | [] => 0
  | _ => 0

/-- A text without control sequences, after `skip` of its characters are left out. -/
def stripAnsiFrom : Nat → List Char → List Char
  | _, [] => []
  | skip + 1, _ :: rest => stripAnsiFrom skip rest
  | 0, c :: rest =>
    match ansiLength (c :: rest) with
    | 0 => c :: stripAnsiFrom 0 rest
    | skip + 1 => stripAnsiFrom skip rest

/-- A text without its control sequences. -/
def stripAnsi (text : String) : String := String.ofList (stripAnsiFrom 0 text.toList)

end ExprLang.Text
