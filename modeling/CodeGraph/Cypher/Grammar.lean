import CodeGraph.Cypher.Pair

/-!
The grammar of queries.

A part of the grammar makes pairs of the pieces at the start of some others. Of several choices the
first that can be made is made, and never taken back; what may be left out is taken if it is there,
and what may be repeated is taken as often as it is there. So a part that is only begun is passed
over where it may be left out, and the text is rejected by what has to follow.

* `Part`: a part of the grammar. `Part.seq`, `Part.choice`, `Part.optional`, `Part.many`,
  `Part.rule`: how parts are put together.
* `Grammar.expression`, `Grammar.pattern`, `Grammar.statement`, …: the rules.
* `treeOf?`: the tree of a text.
-/

namespace CodeGraph.Cypher

/-! ### Parts -/

/-- A part of the grammar: the pairs that it makes of the first of some pieces, and the pieces that
are left. -/
structure Part where
  run : List Piece → Option (List Pair × List Piece)
  suffix : ∀ {ts rest : List Piece} {xs : List Pair}, run ts = some (xs, rest) → rest <:+ ts

namespace Part

instance : CoeFun Part fun _ => List Piece → Option (List Pair × List Piece) := ⟨Part.run⟩

/-- A part that nothing makes up. -/
def never : Part where
  run _ := none
  suffix h := nomatch h

/-- A part that nothing is needed for. -/
def nothing : Part where
  run ts := some ([], ts)
  suffix h := by
    cases h
    exact List.suffix_rfl

/-- One part after the other. -/
def andThen (p q : Part) : Part where
  run ts := do
    let (xs, ts) ← p ts
    let (ys, ts) ← q ts
    some (xs ++ ys, ts)
  suffix h := by
    obtain ⟨⟨xs, us⟩, hp, h⟩ := Option.bind_eq_some_iff.1 h
    obtain ⟨⟨ys, vs⟩, hq, h⟩ := Option.bind_eq_some_iff.1 h
    cases h
    exact (q.suffix hq).trans (p.suffix hp)

/-- Parts in a row. -/
def seq : List Part → Part
  | [] => nothing
  | p :: rest => andThen p (seq rest)

/-- The second part where the first one cannot be made up. -/
def orElse (p q : Part) : Part where
  run ts := (p ts).or (q ts)
  suffix h := (Option.or_eq_some_iff.1 h).elim (fun h => p.suffix h) fun h => q.suffix h.2

/-- The first of several parts that can be made up. -/
def choice : List Part → Part
  | [] => never
  | p :: rest => orElse p (choice rest)

/-- A part that may be left out. -/
def optional (p : Part) : Part := orElse p nothing

/-- A part as often as it can be made up, at most `bound` times. -/
def upTo (p : Part) : (bound : Nat) → Part
  | 0 => nothing
  | bound + 1 => optional (andThen p (upTo p bound))

/-- A part as often as it can be made up. Each time it takes a piece at least. -/
def many (p : Part) : Part where
  run ts := upTo p ts.length ts
  suffix h := (upTo p _).suffix h

/-- The pairs of a part, within one of its own. -/
def rule (r : Rule) (p : Part) : Part where
  run ts := (p ts).map fun (xs, rest) => ([⟨r, Piece.covered ts rest, xs⟩], rest)
  suffix h := by
    obtain ⟨⟨xs, us⟩, hp, h⟩ := Option.map_eq_some_iff.1 h
    cases h
    exact p.suffix hp

/-- A pair of its own, with none inside. -/
def atomic (r : Rule) (p : Part) : Part where
  run ts := (p ts).map fun (_, rest) => ([⟨r, Piece.covered ts rest, []⟩], rest)
  suffix h := by
    obtain ⟨⟨xs, us⟩, hp, h⟩ := Option.map_eq_some_iff.1 h
    cases h
    exact p.suffix hp

/-- A part with no gap in front of it. -/
def adjacent (p : Part) : Part where
  run ts := if ts.head?.any fun t => t.toToken.isAdjacent then p ts else none
  suffix h := by
    split at h
    · exact p.suffix h
    · cases h

/-- A piece whose lexeme makes pairs. -/
def piece (pairs? : Piece → Option (List Pair)) : Part where
  run
    | t :: rest => (pairs? t).map (·, rest)
    | [] => none
  suffix {ts rest xs} h := by
    cases ts with
    | nil => cases h
    | cons t ts =>
        obtain ⟨ys, -, h⟩ := Option.map_eq_some_iff.1 h
        cases h
        exact List.suffix_cons t _

end Part

namespace Grammar

open Cypher.Part

/-! ### Pieces -/

/-- A sign, which makes no pair. -/
def sign (m : Mark) : Part := piece fun t => if t.lexeme = .mark m then some [] else none

/-- A pair for a piece whose lexeme passes a test. -/
def leaf (r : Rule) (test : Lexeme → Bool) : Part :=
  piece fun t => if test t.lexeme then some [⟨r, t.text, []⟩] else none

def keyword (k : Keyword) : Part := leaf (.keyword k) (·.keyword? = some k)

/-- A word that is no keyword. -/
def variableName : Part := leaf .variableName (·.name?.isSome)

/-- A word of any spelling. -/
def word (r : Rule) : Part := leaf r Lexeme.isWord

def integer : Part := leaf .integer fun
  | .integer _ _ => true
  | _ => false

def float : Part := leaf .float fun
  | .decimal _ => true
  | _ => false

def rangePattern : Part := leaf .rangePattern fun
  | .range _ _ => true
  | _ => false

/-- A text between quotes, and a pair for what is between them. -/
def string : Part := piece fun t => match t.lexeme, t.text with
  | .quoted _, quote :: body =>
    let kind : Rule := if quote = '\'' then .singleQuoted else .doubleQuoted
    some [⟨.string, t.text, [⟨kind, body.dropLast, []⟩]⟩]
  | _, _ => none

/-- A part once or more often, with commas between. -/
def commaSeparated (p : Part) : Part := seq [p, many (seq [sign .comma, p])]

/-! ### Literals and maps -/

def boolean : Part := rule .boolean (choice [keyword .true, keyword .false])

def null : Part := rule .null (keyword .null)

def value : Part := rule .value (choice [float, integer, string, boolean, null])

def property : Part := rule .property (seq [word .propertyKey, sign .colon, value])

def propertyList : Part := rule .propertyList (commaSeparated property)

def properties : Part :=
  rule .properties (seq [sign .openBrace, optional propertyList, sign .closeBrace])

/-! ### Expressions -/

def orOp : Part := rule .orOp (keyword .or)

def xorOp : Part := rule .xorOp (keyword .xor)

def andOp : Part := rule .andOp (keyword .and)

def notOp : Part := rule .notOp (keyword .not)

def comparisonOp : Part :=
  rule .comparisonOp (choice
    [sign .unequal, sign .lessEqual, sign .greaterEqual, sign .equal, sign .less, sign .greater])

def stringOp : Part :=
  rule .stringOp (choice [seq [keyword .starts, keyword .withWord],
    seq [keyword .ends, keyword .withWord], keyword .contains])

def isNotNullOp : Part := rule .isNotNullOp (seq [keyword .is, keyword .not, keyword .null])

def isNullOp : Part := rule .isNullOp (seq [keyword .is, keyword .null])

def infixOp : Part := choice [orOp, xorOp, andOp, stringOp, comparisonOp]

def postfixOp : Part := choice [isNotNullOp, isNullOp]

/-- A variable and a key, with nothing but a dot between. -/
def propertyAccess : Part :=
  rule .propertyAccess
    (seq [variableName, adjacent (sign .dot), adjacent (word .propertyKey)])

/-- Words with nothing but dots between. -/
def functionName : Part :=
  atomic .functionName (seq [word .label,
    many (seq [adjacent (sign .dot), adjacent (word .label)])])

def functionCall (expression : Part) : Part :=
  rule .functionCall
    (seq [functionName, sign .openParen, optional (commaSeparated expression), sign .closeParen])

def term (expression : Part) : Part :=
  rule .term (choice [functionCall expression, propertyAccess, value, variableName,
    seq [sign .openParen, expression, sign .closeParen]])

/-- An operand with the operators in front of it and behind it. -/
def operand (expression : Part) : Part :=
  seq [many notOp, term expression, many postfixOp]

/-- Operands with operators between them. -/
def operands (expression : Part) : Part :=
  seq [operand expression, many (seq [infixOp, operand expression])]

/-- An expression with parentheses up to a depth. -/
def expressionTo : (depth : Nat) → Part
  | 0 => never
  | depth + 1 => rule .expression (operands (expressionTo depth))

/-- An expression. Each pair of parentheses takes pieces, so their number bounds the depth. -/
def expression : Part where
  run ts := expressionTo (ts.length + 1) ts
  suffix h := (expressionTo _).suffix h

/-! ### Patterns -/

def labels : Part := rule .labels (seq [seq [sign .colon, word .label],
  many (seq [sign .colon, word .label])])

def node : Part :=
  rule .node (seq [sign .openParen, optional variableName, optional labels, optional properties,
    sign .closeParen])

def edgeGroups : Part :=
  rule .edgeGroups (seq [sign .colon, word .edgeGroup,
    many (seq [sign .bar, optional (sign .colon), word .edgeGroup])])

def lengthPattern : Part :=
  rule .lengthPattern (seq [sign .star, optional (choice [rangePattern, integer])])

def edgeDetail : Part :=
  rule .edgeDetail (seq [sign .openBracket, optional variableName, optional edgeGroups,
    optional lengthPattern, optional properties, sign .closeBracket])

/-- An edge up to its second stroke. -/
def strokes : Part :=
  seq [optional (sign .less), sign .minus, optional edgeDetail, sign .minus]

/-- An edge. Its text goes on to what follows, if no arrow head ends it. -/
def edgePattern : Part where
  run ts := do
    let (xs, us) ← strokes ts
    match sign .greater us with
    | some (_, rest) => some ([⟨.edgePattern, Piece.covered ts rest, xs⟩], rest)
    | none => some ([⟨.edgePattern, Piece.covered ts us ++ Piece.gapBefore us, xs⟩], us)
  suffix {ts rest xs} h := by
    obtain ⟨⟨ys, us⟩, hstrokes, h⟩ := Option.bind_eq_some_iff.1 h
    have hus := strokes.suffix hstrokes
    dsimp only at h
    split at h
    · rename_i zs vs hsign
      cases h
      exact ((sign .greater).suffix hsign).trans hus
    · cases h
      exact hus

def path : Part := rule .path (seq [node, many (seq [edgePattern, node])])

def pattern : Part := rule .pattern (commaSeparated path)

/-! ### Clauses -/

def matchClause : Part := rule .matchClause (seq [keyword .matchWord, pattern])

def optionalMatchClause : Part :=
  rule .optionalMatchClause (seq [keyword .optional, keyword .matchWord, pattern])

def whereClause : Part := rule .whereClause (seq [keyword .whereWord, expression])

def matchPart : Part := seq [choice [optionalMatchClause, matchClause], optional whereClause]

def createClause : Part := rule .createClause (seq [keyword .create, pattern])

def mergeClause : Part := rule .mergeClause (seq [keyword .merge, pattern])

def deleteClause : Part :=
  rule .deleteClause
    (seq [optional (keyword .detach), keyword .delete, commaSeparated variableName])

def setItem : Part := rule .setItem (seq [propertyAccess, sign .equal, expression])

def setClause : Part := rule .setClause (seq [keyword .set, commaSeparated setItem])

def writeClause : Part := choice [createClause, mergeClause, deleteClause, setClause]

def returnItem : Part :=
  rule .returnItem (seq [expression, optional (seq [keyword .asWord, variableName])])

def returnItems : Part := rule .returnItems (commaSeparated returnItem)

def returnClause : Part :=
  rule .returnClause (seq [keyword .returnWord, optional (keyword .distinct), returnItems])

def orderDirection : Part :=
  rule .orderDirection
    (choice [keyword .ascending, keyword .asc, keyword .descending, keyword .desc])

def orderItem : Part := rule .orderItem (seq [expression, optional orderDirection])

def orderItems : Part := rule .orderItems (commaSeparated orderItem)

def orderByClause : Part :=
  rule .orderByClause (seq [keyword .order, keyword .byWord, orderItems])

def skipClause : Part := rule .skipClause (seq [keyword .skip, integer])

def limitClause : Part := rule .limitClause (seq [keyword .limit, integer])

/-! ### Queries -/

def statement : Part :=
  rule .statement (seq [
    optional (choice [
      seq [seq [matchPart, many matchPart], many writeClause],
      seq [writeClause, many writeClause]]),
    optional returnClause,
    optional orderByClause,
    optional skipClause,
    optional limitClause])

/-- The end of the text. -/
def endOfInput : Part where
  run ts := if ts.isEmpty then some ([⟨.endOfInput, [], []⟩], ts) else none
  suffix h := by
    split at h
    · cases h
      exact List.suffix_rfl
    · cases h

def query : Part := rule .query (seq [statement, optional (sign .semicolon), endOfInput])

end Grammar

/-- The tree of a text that the grammar accepts. -/
def treeOf? (text : String) : Option (List Pair) :=
  ((Piece.ofText? text.toList).bind Grammar.query).map Prod.fst

end CodeGraph.Cypher
