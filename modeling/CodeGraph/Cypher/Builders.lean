import CodeGraph.Cypher.Grammar
import CodeGraph.Cypher.Phrase
import CodeGraph.Query
import CodeGraph.Text.WhiteSpace

/-!
From trees to queries.

What a text means is built from its tree, pair by pair, and from the texts of the pairs. A builder
takes any tree: it looks for the pairs that it needs and passes over the others, and has a fault of
its own where one is missing. Which operands an operator takes is settled here as well, since an
expression is a row of operands and operators in the tree.

* `parseInt64?`, `parseNatural?`, `parseDouble?`: the numbers that texts spell.
* `Item`, `operandAt`, `extendItems`: operators and what they bind.
* `buildExpression`, `buildPath`, `buildStatement`, …: one builder for each rule.
* `Query.ofTree`: the query of a tree.
-/

namespace CodeGraph.Cypher

/-! ### Numbers -/

/-- The digits of a number behind its sign. -/
def signedDigits? (text : List Char) : Option (Bool × List Char) :=
  let (negative, digits) := splitSign text
  if digits.isEmpty || !digits.all Char.isDigit then none else some (negative, digits)

/-- The integer of 64 bits that a text spells. -/
def parseInt64? (text : List Char) : Option Int64 := do
  let (negative, digits) ← signedDigits? text
  let value : Int := if negative then -(natOfDigits digits : Int) else natOfDigits digits
  if Int64.minValue.toInt ≤ value ∧ value ≤ Int64.maxValue.toInt then some (.ofInt value) else none

/-- The number of 64 bits without a sign that a text spells; a plus may stand in front of it. -/
def parseNatural? (text : List Char) : Option Nat := do
  let (_, digits) ← if text.head? = some '-' then none else signedDigits? text
  if natOfDigits digits < Nat.pow 2 64 then some (natOfDigits digits) else none

/-- The digits behind a dot, and what follows them. -/
def splitFraction : List Char → List Char × List Char
  | '.' :: rest => rest.span Char.isDigit
  | rest => ([], rest)

/-- The exponent that a text spells, letter, sign and digits. -/
def parseExponent? : List Char → Option Int
  | [] => some 0
  | c :: rest => do
    let (negative, digits) ← if c = 'e' ∨ c = 'E' then signedDigits? rest else none
    some (if negative then -(natOfDigits digits : Int) else natOfDigits digits)

/-- The magnitude of a double that is no number. -/
def nanMagnitude : Nat := Double.infinityMagnitude + Nat.pow 2 51

/-- The double that a text spells. -/
def parseDouble? (text : List Char) : Option Double :=
  let (negative, rest) := splitSign text
  let word := String.ofList (rest.map Char.toLower)
  if word = "inf" ∨ word = "infinity" then some (.ofParts negative Double.infinityMagnitude)
  else if word = "nan" then some (.ofParts negative nanMagnitude)
  else
    let (whole, rest) := rest.span Char.isDigit
    let (fraction, rest) := splitFraction rest
    if whole.isEmpty && fraction.isEmpty then none
    else (parseExponent? rest).map fun exponent =>
      Decimal.toDouble ⟨negative, natOfDigits (whole ++ fraction), exponent - fraction.length⟩

/-- An integer, whose text may be out of range. -/
def buildInteger (text : List Char) : Read Int64 :=
  match parseInt64? text with
  | some value => .ok value
  | none => .error (.integerOutOfRange (String.ofList text))

/-! ### Literals and maps -/

/-- The literal of the first pair that is one. -/
def buildLiteral : List Pair → Read Property
  | [] => .ok .null
  | p :: rest =>
    match p.rule with
    | .null => .ok .null
    | .boolean => .ok (.boolean (p.string.map Char.toLower = "true"))
    | .integer => (buildInteger p.text).map .integer
    | .float =>
      match parseDouble? p.text with
      | some value => .ok (.float value)
      | none => .error (.invalidFloat p.string)
    | .string =>
      let body := (p.inner.head?.map Pair.text).getD []
      .ok (.string (String.ofList (unescaped ['\\'] body)))
    | _ => buildLiteral rest

def buildValue (p : Pair) : Read Property := buildLiteral p.inner

def addToSetting (setting : String × Property) (q : Pair) : Read (String × Property) :=
  match q.rule with
  | .propertyKey => .ok (q.string, setting.2)
  | .value => (buildValue q).map fun value => (setting.1, value)
  | _ => .ok setting

/-- A key and its value. -/
def buildSetting (p : Pair) : Read (String × Property) := p.inner.foldlM addToSetting ("", .null)

def addSetting (map : PropertyMap) (q : Pair) : Read PropertyMap :=
  (buildSetting q).map fun setting => map.insert setting.1 setting.2

def buildProperties (p : Pair) : Read PropertyMap :=
  p.inner.foldlM (fun map q =>
    if q.rule = .propertyList then (q.each .property).foldlM addSetting map else .ok map) {}

/-! ### Operators -/

/-- The words of a text, between any white space. -/
def wordsOf (text : List Char) : List (List Char) :=
  (text.splitOnP Text.isWhiteSpace).filter fun word => !word.isEmpty

/-- An operator as it is written, whatever white space is between its words. -/
def buildOperator (text : List Char) : Read BinaryOp :=
  let written := List.intercalate [' '] (wordsOf text)
  if written = ['='] then .ok (.comparison .eq)
  else if written = ['!', '='] ∨ written = ['<', '>'] then .ok (.comparison .ne)
  else if written = ['<'] then .ok (.comparison .lt)
  else if written = ['<', '='] then .ok (.comparison .le)
  else if written = ['>'] then .ok (.comparison .gt)
  else if written = ['>', '='] then .ok (.comparison .ge)
  else
    let lower := String.ofList (written.map Char.toLower)
    if lower = "starts with" then .ok (.text .startsWith)
    else if lower = "ends with" then .ok (.text .endsWith)
    else if lower = "contains" then .ok (.text .contains)
    else .error (.unknownOperator (String.ofList text))

/-- Where an operator stands: in front of its operand, behind it, or between two. -/
inductive Affix
  | before
  | behind
  | between
deriving DecidableEq, Repr

/-- Where the operator of a rule stands and how tightly it binds. Other rules make operands. -/
def Rule.affix? : Rule → Option (Affix × Nat)
  | orOp => some (.between, 10)
  | xorOp => some (.between, 20)
  | andOp => some (.between, 30)
  | notOp => some (.before, 40)
  | comparisonOp => some (.between, 50)
  | stringOp => some (.between, 50)
  | isNotNullOp => some (.behind, 60)
  | isNullOp => some (.behind, 60)
  | _ => none

/-- What stands in an expression: an operand, built already, or an operator. -/
inductive Item
  | operand (value : Read Expr)
  | operator (rule : Rule) (text : List Char)

def applyBefore (rule : Rule) (operand : Read Expr) : Read Expr :=
  match rule with
  | .notOp => operand.map (.unary .not)
  | _ => .error (.unexpectedPrefixOperator rule)

def applyBehind (rule : Rule) (operand : Read Expr) : Read Expr :=
  match rule with
  | .isNullOp => operand.map (.unary .isNull)
  | .isNotNullOp => operand.map (.unary .isNotNull)
  | _ => .error (.unexpectedPostfixOperator rule)

/-- Two operands around an operator. A fault on the left comes first, one of the operator last. -/
def applyBetween (rule : Rule) (text : List Char) (left right : Read Expr) : Read Expr := do
  let l ← left
  let r ← right
  let op ← match rule with
    | .orOp => .ok (.connective .or)
    | .xorOp => .ok (.connective .xor)
    | .andOp => .ok (.connective .and)
    | .comparisonOp | .stringOp => buildOperator text
    | _ => .error (.unexpectedOperator rule)
  pure (.binary op l r)

mutual

/-- The longest expression at the start of some items whose operators bind tighter than `floor`, and
the items behind it. There is none unless an operand stands there. Every step takes an item, so the
number of items is fuel enough. -/
def operandAt : (fuel : Nat) → (floor : Nat) → List Item → Option (Read Expr × List Item)
  | 0, _, _ => none
  | _, _, [] => none
  | fuel + 1, floor, .operand value :: rest => extendItems fuel floor value rest
  | fuel + 1, floor, .operator rule _ :: rest =>
    match rule.affix? with
    | some (.before, level) => do
      let (operand, rest) ← operandAt fuel (level - 1) rest
      extendItems fuel floor (applyBefore rule operand) rest
    | _ => none

/-- The longest expression that continues a left operand with operators that bind tighter than
`floor`. -/
def extendItems : (fuel : Nat) → (floor : Nat) → (left : Read Expr) → List Item →
    Option (Read Expr × List Item)
  | 0, _, _, _ => none
  | _, _, left, [] => some (left, [])
  | _, _, _, .operand _ :: _ => none
  | fuel + 1, floor, left, .operator rule text :: rest =>
    match rule.affix? with
    | none => none
    | some (affix, level) =>
      if floor < level then
        match affix with
        | .before => none
        | .behind => extendItems fuel floor (applyBehind rule left) rest
        | .between => do
          let (right, rest) ← operandAt fuel level rest
          extendItems fuel floor (applyBetween rule text left right) rest
      else some (left, .operator rule text :: rest)

end

/-- The expression that some items make up. -/
def buildItems (items : List Item) : Read Expr :=
  match operandAt (items.length + 1) 0 items with
  | some (e, _) => e
  | none => .error .misplacedOperand

/-! ### Expressions -/

def buildAccess (p : Pair) : Read Expr :=
  match p.last? .variableName, p.last? .propertyKey with
  | some name, some key => .ok (.property name.string key.string)
  | _, _ => .error .invalidAccess

mutual

def buildExpression : Pair → Read Expr
  | ⟨_, _, inner⟩ => buildItems (itemsOf inner)

/-- The items of an expression: its operators, and its operands built. -/
def itemsOf : List Pair → List Item
  | [] => []
  | p :: rest =>
    (if p.rule.affix?.isSome then .operator p.rule p.text else .operand (buildTerm p))
      :: itemsOf rest

def buildTerm : Pair → Read Expr
  | ⟨_, _, inner⟩ => buildTermOf inner

/-- The term of the first pair that makes one. -/
def buildTermOf : List Pair → Read Expr
  | [] => .error .invalidTerm
  | p :: rest =>
    match p.rule with
    | .propertyAccess => buildAccess p
    | .functionCall => buildCall p
    | .variableName => .ok (.var p.string)
    | .value => (buildValue p).map .literal
    | .expression => buildExpression p
    | _ => buildTermOf rest

def buildCall (p : Pair) : Read Expr :=
  match p with
  | ⟨_, _, inner⟩ =>
    (argumentsOf inner).map (.call ((p.last? .functionName).elim "" Pair.string))

/-- The arguments among some pairs. -/
def argumentsOf : List Pair → Read (List Expr)
  | [] => .ok []
  | p :: rest =>
    if p.rule = .expression then do pure ((← buildExpression p) :: (← argumentsOf rest))
    else argumentsOf rest

end

/-! ### Patterns -/

def addToNode (node : NodePattern) (q : Pair) : Read NodePattern :=
  match q.rule with
  | .variableName => .ok { node with name := some q.string }
  | .labels => .ok { node with labels := node.labels ++ (q.each .label).map fun l => ⟨l.string⟩ }
  | .properties => (buildProperties q).map fun map => { node with properties := some map }
  | _ => .ok node

def buildNode (p : Pair) : Read NodePattern := p.inner.foldlM addToNode {}

/-- The texts in front of the first two dots and behind them. -/
def splitDots : List Char → Option (List Char × List Char)
  | '.' :: '.' :: rest => some ([], rest)
  | c :: rest => (splitDots rest).map fun p => (c :: p.1, p.2)
  | [] => none

/-- A bound of a range of lengths. -/
def buildBound (text : List Char) : Read (Option Nat) :=
  if text.isEmpty then .ok none
  else
    match parseNatural? text with
    | some bound => .ok (some bound)
    | none => .error (.invalidLength (String.ofList text))

/-- The length of the first pair that tells one. A star alone stands for one edge or more. -/
def buildLengthOf : List Pair → Read PathLength
  | [] => .ok ⟨some 1, none⟩
  | p :: rest =>
    match p.rule with
    | .rangePattern => do
      let (low, high) := (splitDots p.text).getD ([], [])
      let min ← buildBound low
      let max ← buildBound high
      pure ⟨min.or (some 1), max⟩
    | .integer => do
      let value ← buildInteger p.text
      if value.toInt < 0 then .error (.invalidLength p.string)
      else pure ⟨some value.toInt.toNat, some value.toInt.toNat⟩
    | _ => buildLengthOf rest

def addToDetail (edge : EdgePattern) (q : Pair) : Read EdgePattern :=
  match q.rule with
  | .variableName => .ok { edge with name := some q.string }
  | .edgeGroups =>
    .ok { edge with groups := edge.groups ++ (q.each .edgeGroup).map fun g => ⟨g.string⟩ }
  | .lengthPattern => (buildLengthOf q.inner).map fun length => { edge with length := some length }
  | .properties => (buildProperties q).map fun map => { edge with properties := some map }
  | _ => .ok edge

/-- What stands in the brackets of an edge. -/
def buildDetail (edge : EdgePattern) (p : Pair) : Read EdgePattern :=
  p.inner.foldlM addToDetail edge

/-- An edge. The first and the last character of its text are its arrow heads, if any are. -/
def buildEdge (p : Pair) : Read EdgePattern :=
  let direction : PatternDirection :=
    match p.text.head? == some '<', p.text.getLast? == some '>' with
    | true, false => .incoming
    | false, true => .outgoing
    | _, _ => .both
  (p.each .edgeDetail).foldlM buildDetail { direction }

def addToPath (gathered : List NodePattern × List EdgePattern) (q : Pair) :
    Read (List NodePattern × List EdgePattern) :=
  match q.rule with
  | .node => (buildNode q).map fun node => (gathered.1 ++ [node], gathered.2)
  | .edgePattern => (buildEdge q).map fun edge => (gathered.1, gathered.2 ++ [edge])
  | _ => .ok gathered

/-- The nodes and the edges of a path are gathered apart and then put in turn. -/
def buildPath (p : Pair) : Read PathPattern := do
  let (nodes, edges) ← p.inner.foldlM addToPath ([], [])
  match nodes with
  | [] => .error .emptyPath
  | start :: rest => pure { start, segments := (edges.zip rest).map fun s => ⟨s.1, s.2⟩ }

def buildPattern (p : Pair) : Read (List PathPattern) := (p.each .path).mapM buildPath

/-! ### Clauses -/

/-- The number of a clause that counts rows. -/
def buildCount (clause : String) (p : Pair) : Read Nat :=
  match p.first? .integer with
  | some q => do
    let value ← buildInteger q.text
    if value.toInt < 0 then .error (.negativeCount clause value.toInt) else pure value.toInt.toNat
  | none => .error (.missingCount clause)

def buildDeletion (p : Pair) : WriteClause :=
  .delete ((p.each .variableName).map Pair.string) (!(p.each (.keyword .detach)).isEmpty)

def addToSetItem (found : Option Expr × Option Expr) (q : Pair) :
    Read (Option Expr × Option Expr) :=
  match q.rule with
  | .propertyAccess => (buildAccess q).map fun target => (some target, found.2)
  | .expression => (buildExpression q).map fun value => (found.1, some value)
  | _ => .ok found

def buildSetItem (p : Pair) : Read SetItem := do
  let (target, value) ← p.inner.foldlM addToSetItem (none, none)
  match target, value with
  | some (.property name key), some value => pure { name, key, value }
  | _, _ => .error .invalidSetItem

def buildFilter (p : Pair) : Read Expr :=
  match p.first? .expression with
  | some q => buildExpression q
  | none => .error .invalidFilter

def addToReturnItem (found : Option Expr × Option String) (q : Pair) :
    Read (Option Expr × Option String) :=
  match q.rule with
  | .expression => (buildExpression q).map fun value => (some value, found.2)
  | .variableName => .ok (found.1, some q.string)
  | _ => .ok found

def buildReturnItem (p : Pair) : Read ReturnItem := do
  let (value, heading) ← p.inner.foldlM addToReturnItem (none, none)
  match value with
  | some value => pure { value, heading }
  | none => .error .missingReturned

def addToReturn (clause : ReturnClause) (q : Pair) : Read ReturnClause :=
  match q.rule with
  | .keyword .distinct => .ok { clause with distinct := true }
  | .returnItems => do
    let items ← (q.each .returnItem).mapM buildReturnItem
    pure { clause with items := clause.items ++ items }
  | _ => .ok clause

def buildReturn (p : Pair) : Read ReturnClause := p.inner.foldlM addToReturn { items := [] }

def addToOrderItem (found : Option Expr × Bool) (q : Pair) : Read (Option Expr × Bool) :=
  match q.rule with
  | .expression => (buildExpression q).map fun value => (some value, found.2)
  | .orderDirection =>
    let word := q.string.map Char.toLower
    .ok (found.1, word = "asc" || word = "ascending")
  | _ => .ok found

def buildOrderItem (p : Pair) : Read OrderItem := do
  let (value, ascending) ← p.inner.foldlM addToOrderItem (none, true)
  match value with
  | some value => pure { value, ascending }
  | none => .error .missingOrdered

def addToOrder (items : List OrderItem) (q : Pair) : Read (List OrderItem) :=
  if q.rule = .orderItems then do
    let more ← (q.each .orderItem).mapM buildOrderItem
    pure (items ++ more)
  else .ok items

def buildOrder (p : Pair) : Read (List OrderItem) := p.inner.foldlM addToOrder []

/-- The patterns of a clause. -/
def buildPatterns (p : Pair) : Read (List (List PathPattern)) :=
  (p.each .pattern).mapM buildPattern

/-- Several filters are joined into one. -/
def joinFilter (filter : Option Expr) (predicate : Expr) : Expr :=
  match filter with
  | some existing => .and existing predicate
  | none => predicate

/-- A clause, put into the query that the clauses before it make up. -/
def buildClause (query : Query) (p : Pair) : Read Query :=
  match p.rule with
  | .matchClause | .optionalMatchClause => do
    let patterns ← buildPatterns p
    let optional : Bool := p.rule = .optionalMatchClause
    pure { query with matched := query.matched ++ patterns.map fun paths => { paths, optional } }
  | .whereClause => do
    let predicate ← buildFilter p
    pure { query with filter := some (joinFilter query.filter predicate) }
  | .createClause => do
    let patterns ← buildPatterns p
    pure { query with writes := query.writes ++ patterns.map .create }
  | .mergeClause => do
    let patterns ← buildPatterns p
    pure { query with writes := query.writes ++ patterns.map .merge }
  | .deleteClause => pure { query with writes := query.writes ++ [buildDeletion p] }
  | .setClause => do
    let items ← (p.each .setItem).mapM buildSetItem
    pure { query with writes := query.writes ++ [.set items] }
  | .returnClause => do
    let clause ← buildReturn p
    pure { query with returned := some clause }
  | .orderByClause => do
    let items ← buildOrder p
    pure { query with order := some items }
  | .skipClause => do
    let count ← buildCount "SKIP" p
    pure { query with skip := some count }
  | .limitClause => do
    let count ← buildCount "LIMIT" p
    pure { query with limit := some count }
  | _ => pure query

def buildStatement (query : Query) (p : Pair) : Read Query := p.inner.foldlM buildClause query

/-- The statements of a query, up to the end of the text. -/
def buildStatements (query : Query) (p : Pair) : Read Query :=
  (p.inner.takeWhile (·.rule ≠ .endOfInput)).foldlM (fun query q =>
    if q.rule = .statement then buildStatement query q else .ok query) query

end Cypher

/-- The query of a tree, or what is wrong with it. -/
def Query.ofTree (pairs : List Cypher.Pair) : Cypher.Read Query :=
  (pairs.filter (·.rule = .query)).foldlM Cypher.buildStatements {}

end CodeGraph
