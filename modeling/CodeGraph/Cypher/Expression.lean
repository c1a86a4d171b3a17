import CodeGraph.Cypher.Phrase
import CodeGraph.Expr

/-!
Reading expressions.

Operators bind by their levels: disjunction, exclusive disjunction, conjunction, negation,
comparisons and text tests, tests for null. Binary operators of one level associate to the left. A
negation may stand wherever an operand may, and then takes in everything that binds tighter than a
conjunction.

* `binaryOp?`, `nullTest?`: the operator at the start of some tokens.
* `dotted`: the words that hang on a word by dots.
* `expressionAt`, `extendAt`: an expression whose operators bind tighter than a level, and its
  continuation after a left operand.
* `expression`: a whole expression.
-/

namespace CodeGraph.Cypher

/-! ### Operators -/

/-- The operator of a sign. -/
def Mark.comparison? : Mark → Option Comparison
  | equal => some .eq
  | unequal => some .ne
  | less => some .lt
  | lessEqual => some .le
  | greater => some .gt
  | greaterEqual => some .ge
  | _ => none

/-- A binary operator as it is written; one of two words is at fault with a comment between them. -/
structure WrittenOp where
  op : BinaryOp
  fault : Option Fault := none
deriving DecidableEq, Repr

/-- A text test of two words, of which the first was read. -/
def textTest? (op : TextTest) (first : String) : List Token → Option (WrittenOp × List Token)
  | ⟨gap, .word second⟩ :: rest =>
    if Keyword.ofWord? second = some .withWord then
      let written := first ++ String.ofList gap ++ second
      some (⟨.text op, if gap.all isBlank then none else some (.unknownOperator written)⟩, rest)
    else none
  | _ => none

/-- The binary operator at the start of some tokens. -/
def binaryOp? : List Token → Option (WrittenOp × List Token)
  | ⟨_, .mark m⟩ :: rest => m.comparison?.map (fun c => (⟨.comparison c, none⟩, rest))
  | ⟨_, .word text⟩ :: rest =>
    match Keyword.ofWord? text with
    | some .and => some (⟨.connective .and, none⟩, rest)
    | some .or => some (⟨.connective .or, none⟩, rest)
    | some .xor => some (⟨.connective .xor, none⟩, rest)
    | some .contains => some (⟨.text .contains, none⟩, rest)
    | some .starts => textTest? .startsWith text rest
    | some .ends => textTest? .endsWith text rest
    | _ => none
  | _ => none

/-- The test for null at the start of some tokens. -/
def nullTest? (ts : List Token) : Option (UnaryOp × List Token) := do
  let ts ← keyword .is ts
  let (negated, ts) := optionalKeyword .not ts
  let ts ← keyword .null ts
  some (if negated then .isNotNull else .isNull, ts)

/-- The meaning of two operands joined by an operator: a fault on the left comes first, one of the
operator itself last. -/
def joinRead (op : WrittenOp) (left right : Read Expr) : Read Expr := do
  let l ← left
  let r ← right
  match op.fault with
  | some f => .error f
  | none => .ok (.binary op.op l r)

/-! ### Operands -/

/-- The words that follow a word, each after a dot, with no gap anywhere. -/
def dotted : List Token → List String × List Token
  | ⟨gapDot, .mark .dot⟩ :: ⟨gapWord, .word text⟩ :: rest =>
    if gapDot.isEmpty && gapWord.isEmpty then
      let (more, rest) := dotted rest
      (text :: more, rest)
    else ([], ⟨gapDot, .mark .dot⟩ :: ⟨gapWord, .word text⟩ :: rest)
  | ts => ([], ts)

/-- An operand without parentheses: a variable, a property of one, or a literal. -/
def atom (ts : List Token) : Option (Read Expr × List Token) :=
  match name ts with
  | some (owner, rest) =>
    match dotted rest with
    | ([], rest) => some (.ok (.var owner), rest)
    | ([key], rest) => some (.ok (.property owner key), rest)
    | _ => none
  | none => (literal ts).map (fun p => (p.1.map .literal, p.2))

/-- The name of the function that some tokens call, and the tokens after its parenthesis. Any words
between dots may be a function. -/
def callee? : List Token → Option (String × List Token)
  | ⟨_, .word text⟩ :: rest =>
    let (more, rest) := dotted rest
    (mark .openParen rest).map (fun rest => (".".intercalate (text :: more), rest))
  | _ => none

/-! ### Expressions -/

mutual

/-- An expression whose operators bind tighter than `floor`. Every step of the recursion has taken a
token before, so the number of tokens is fuel enough. -/
def expressionAt : (fuel : Nat) → (floor : Nat) → Phrase Expr
  | 0, _, _ => none
  | fuel + 1, floor, ts =>
    match keyword .not ts with
    | some ts => do
      let (e, ts) ← expressionAt fuel (BinaryOp.connective .and).level ts
      extendAt fuel floor (e.map (.unary .not)) ts
    | none =>
      match mark .openParen ts, callee? ts with
      | some ts, _ => do
        let (e, ts) ← expressionAt fuel 0 ts
        let ts ← mark .closeParen ts
        extendAt fuel floor e ts
      | none, some (function, ts) => do
        let (arguments, ts) ← argumentsAt fuel ts
        extendAt fuel floor (arguments.map (.call function)) ts
      | none, none => do
        let (e, ts) ← atom ts
        extendAt fuel floor e ts

/-- The longest expression that continues a left operand with operators that bind tighter than
`floor`. -/
def extendAt : (fuel : Nat) → (floor : Nat) → (left : Read Expr) → Phrase Expr
  | 0, _, _, _ => none
  | fuel + 1, floor, left, ts =>
    match nullTest? ts with
    | some (op, ts) => extendAt fuel floor (left.map (.unary op)) ts
    | none =>
      match binaryOp? ts with
      | some (op, rest) =>
        if floor < op.op.level then do
          let (right, rest) ← expressionAt fuel op.op.level rest
          extendAt fuel floor (joinRead op left right) rest
        else some (left, ts)
      | none => some (left, ts)

/-- The arguments of a call, after its opening parenthesis. -/
def argumentsAt : (fuel : Nat) → Phrase (List Expr)
  | 0, _ => none
  | fuel + 1, ts =>
    match mark .closeParen ts with
    | some ts => some (.ok [], ts)
    | none => do
      let (e, ts) ← expressionAt fuel 0 ts
      let (more, ts) ← moreArgumentsAt fuel ts
      some ((do pure ((← e) :: (← more))), ts)

/-- The arguments after the first one. -/
def moreArgumentsAt : (fuel : Nat) → Phrase (List Expr)
  | 0, _ => none
  | fuel + 1, ts =>
    match mark .closeParen ts with
    | some ts => some (.ok [], ts)
    | none => do
      let ts ← mark .comma ts
      let (e, ts) ← expressionAt fuel 0 ts
      let (more, ts) ← moreArgumentsAt fuel ts
      some ((do pure ((← e) :: (← more))), ts)

end

/-- An expression. -/
def expression : Phrase Expr := fun ts => expressionAt (ts.length + 1) 0 ts

end CodeGraph.Cypher
