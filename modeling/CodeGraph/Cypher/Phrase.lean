import CodeGraph.Cypher.Pair
import CodeGraph.Property

/-!
Phrases of the query language, and the smallest of them.

A phrase reader takes the phrase at the start of a list of tokens. It answers `none` where no such
phrase stands, which rejects the whole text: wherever a phrase may be left out, its first token
tells whether it is there. What a phrase means is known apart from its form, since a number of the
right form may still be out of range; such a fault is reported only for a text that is accepted as a
whole, and the first one in the order of the text wins.

* `Fault`, `ParseError`: what can be wrong with a text.
* `Read`, `Phrase`: meanings and readers.
* `mark`, `keyword`, `name`, `word`: single tokens.
* `commaList`: phrases between commas.
* `readInteger`, `readCount`, `readBound`: the numbers of a text.
-/

namespace CodeGraph.Cypher

/-! ### Errors -/

/-- What can be wrong with a text that the grammar accepts, as far as its tree alone tells. Only the
first four ever are: the others need a tree that the grammar does not make. -/
inductive Fault
  | integerOutOfRange (text : String)
  | negativeCount (clause : String) (value : Int)
  | invalidLength (text : String)
  | unknownOperator (text : String)
  | missingCount (clause : String)
  | invalidSetItem
  | emptyPath
  | invalidFloat (text : String)
  | invalidFilter
  | missingReturned
  | missingOrdered
  | unexpectedPrefixOperator (rule : Rule)
  | unexpectedPostfixOperator (rule : Rule)
  | unexpectedOperator (rule : Rule)
  | invalidTerm
  | invalidAccess
  | misplacedOperand
deriving DecidableEq, Repr

/-- The text of a fault. The last one is not reported: operators and operands that do not alternate
are not read to their end. -/
def Fault.message : Fault → String
  | integerOutOfRange text => "Integer out of range: " ++ text
  | negativeCount clause value =>
    clause ++ " must be a non-negative integer, got " ++ toString value
  | invalidLength text => "Invalid path length: " ++ text
  | unknownOperator text => "Unknown operator: " ++ text
  | missingCount clause => "Missing " ++ clause ++ " count"
  | invalidSetItem => "Invalid SET item"
  | emptyPath => "Path must have at least one node"
  | invalidFloat text => "Invalid float: " ++ text
  | invalidFilter => "Invalid WHERE clause"
  | missingReturned => "Missing expression in RETURN"
  | missingOrdered => "Missing expression in ORDER BY"
  | unexpectedPrefixOperator rule => "Unexpected prefix operator: " ++ rule.name
  | unexpectedPostfixOperator rule => "Unexpected postfix operator: " ++ rule.name
  | unexpectedOperator rule => "Unexpected operator: " ++ rule.name
  | invalidTerm => "Invalid term"
  | invalidAccess => "Invalid property access"
  | misplacedOperand => "Expected operands and operators in turn"

/-- Why a text is no query: the grammar rejects it, or a number in it is at fault. -/
inductive ParseError
  | rejected
  | fault (f : Fault)
deriving DecidableEq, Repr

def ParseError.message : ParseError → String
  | rejected => "Parse error: the text is not a query"
  | fault f => "Semantic error: " ++ f.message

/-! ### Readers -/

/-- What a phrase means, or the first fault in it. -/
abbrev Read (α : Type) := Except Fault α

/-- A reader of the phrase at the start of a list of tokens. -/
abbrev Phrase (α : Type) := List Token → Option (Read α × List Token)

/-! ### Single tokens -/

/-- The tokens after a sign. -/
def mark (m : Mark) : List Token → Option (List Token)
  | ⟨_, .mark n⟩ :: rest => if n = m then some rest else none
  | _ => none

/-- The tokens after a keyword. -/
def keyword (k : Keyword) : List Token → Option (List Token)
  | t :: rest => if t.lexeme.keyword? = some k then some rest else none
  | [] => none

/-- Whether the tokens start with a sign. -/
def startsWithMark (m : Mark) (ts : List Token) : Bool := (mark m ts).isSome

/-- Whether the tokens start with a keyword. -/
def startsWithKeyword (k : Keyword) (ts : List Token) : Bool := (keyword k ts).isSome

/-- A sign that may be left out, and whether it is there. -/
def optionalMark (m : Mark) (ts : List Token) : Bool × List Token :=
  match mark m ts with
  | some rest => (true, rest)
  | none => (false, ts)

/-- A keyword that may be left out, and whether it is there. -/
def optionalKeyword (k : Keyword) (ts : List Token) : Bool × List Token :=
  match keyword k ts with
  | some rest => (true, rest)
  | none => (false, ts)

/-- A variable. -/
def name : List Token → Option (String × List Token)
  | t :: rest => t.lexeme.name?.map (·, rest)
  | [] => none

/-- A variable that may be left out. -/
def optionalName (ts : List Token) : Option String × List Token :=
  match name ts with
  | some (n, rest) => (some n, rest)
  | none => (none, ts)

/-- A label, group or key, which may be spelled like a keyword. -/
def word : List Token → Option (String × List Token)
  | ⟨_, .word text⟩ :: rest => some (text, rest)
  | _ => none

/-! ### Lists -/

/-- One or more phrases between commas; `fuel` bounds their number. -/
def commaList {α : Type} (item : Phrase α) : (fuel : Nat) → Phrase (List α)
  | 0, _ => none
  | fuel + 1, ts => do
    let (x, ts) ← item ts
    match mark .comma ts with
    | some ts =>
      let (xs, ts) ← commaList item fuel ts
      some ((do pure ((← x) :: (← xs))), ts)
    | none => some (x.map ([·]), ts)

/-! ### Numbers -/

/-- The written form of an integer. -/
def integerText (negative : Bool) (digits : List Char) : String :=
  String.ofList (if negative then '-' :: digits else digits)

/-- An integer of 64 bits. -/
def readInteger (negative : Bool) (digits : List Char) : Read Int64 :=
  let value : Int := if negative then -(natOfDigits digits : Int) else natOfDigits digits
  if Int64.minValue.toInt ≤ value ∧ value ≤ Int64.maxValue.toInt then .ok (.ofInt value)
  else .error (.integerOutOfRange (integerText negative digits))

/-- The number of a clause that counts rows. -/
def readCount (clause : String) (negative : Bool) (digits : List Char) : Read Nat := do
  let value ← readInteger negative digits
  if value.toInt < 0 then .error (.negativeCount clause value.toInt) else .ok value.toInt.toNat

/-- An exact path length, which is an integer that is not negative. -/
def readLength (negative : Bool) (digits : List Char) : Read Nat := do
  let value ← readInteger negative digits
  if value.toInt < 0 then .error (.invalidLength (integerText negative digits))
  else .ok value.toInt.toNat

/-- A bound of a range of path lengths, absent without digits. -/
def readBound (digits : List Char) : Read (Option Nat) :=
  if digits.isEmpty then .ok none
  else if natOfDigits digits < Nat.pow 2 64 then .ok (some (natOfDigits digits))
  else .error (.invalidLength (String.ofList digits))

/-! ### Literals -/

/-- The literal that a lexeme is. -/
def Lexeme.literal? : Lexeme → Option (Read Property)
  | integer negative digits => some ((readInteger negative digits).map .integer)
  | decimal number => some (.ok (.float number.toDouble))
  | quoted text => some (.ok (.string text))
  | word text =>
    match Keyword.ofWord? text with
    | some .true => some (.ok (.boolean true))
    | some .false => some (.ok (.boolean false))
    | some .null => some (.ok .null)
    | _ => none
  | _ => none

/-- A literal is one token. -/
def literal : Phrase Property
  | t :: rest => t.lexeme.literal?.map (·, rest)
  | [] => none

end CodeGraph.Cypher
