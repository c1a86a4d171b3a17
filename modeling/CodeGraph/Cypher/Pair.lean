import CodeGraph.Cypher.Lexer

/-!
The tree of a query text.

The grammar takes a text apart into nested pairs. A pair knows the rule that made it, the text that
it covers and the pairs inside; signs make no pairs, keywords do. What a text means is built from
its tree alone.

* `Rule`, `Rule.name`: the rules that make pairs.
* `Pair`: a tree of pairs.
* `Piece`: a token with its text. `Piece.ofText?`: the pieces of a text.
-/

namespace CodeGraph.Cypher

/-! ### Pairs -/

/-- The rules of the grammar that make pairs. -/
inductive Rule
  | query
  | endOfInput
  | statement
  | matchClause
  | optionalMatchClause
  | whereClause
  | createClause
  | mergeClause
  | deleteClause
  | setClause
  | setItem
  | returnClause
  | returnItems
  | returnItem
  | orderByClause
  | orderItems
  | orderItem
  | orderDirection
  | skipClause
  | limitClause
  | pattern
  | path
  | node
  | labels
  | edgePattern
  | edgeDetail
  | edgeGroups
  | lengthPattern
  | rangePattern
  | properties
  | propertyList
  | property
  | value
  | float
  | integer
  | boolean
  | null
  | string
  | singleQuoted
  | doubleQuoted
  | expression
  | orOp
  | xorOp
  | andOp
  | notOp
  | comparisonOp
  | stringOp
  | isNotNullOp
  | isNullOp
  | term
  | propertyAccess
  | functionCall
  | functionName
  | variableName
  | label
  | edgeGroup
  | propertyKey
  | keyword (k : Keyword)
deriving DecidableEq, Repr

namespace Rule

/-- The name of a rule, as errors give it. -/
def name : Rule → String
  | query => "query"
  | endOfInput => "EOI"
  | statement => "statement"
  | matchClause => "match_clause"
  | optionalMatchClause => "optional_match_clause"
  | whereClause => "where_clause"
  | createClause => "create_clause"
  | mergeClause => "merge_clause"
  | deleteClause => "delete_clause"
  | setClause => "set_clause"
  | setItem => "set_item"
  | returnClause => "return_clause"
  | returnItems => "return_items"
  | returnItem => "return_item"
  | orderByClause => "order_by_clause"
  | orderItems => "order_items"
  | orderItem => "order_item"
  | orderDirection => "order_direction"
  | skipClause => "skip_clause"
  | limitClause => "limit_clause"
  | pattern => "pattern"
  | path => "path"
  | node => "node"
  | labels => "labels"
  | edgePattern => "edge_pattern"
  | edgeDetail => "edge_detail"
  | edgeGroups => "edge_groups"
  | lengthPattern => "length_pattern"
  | rangePattern => "range_pattern"
  | properties => "properties"
  | propertyList => "property_list"
  | property => "property"
  | value => "value"
  | float => "float"
  | integer => "integer"
  | boolean => "boolean"
  | null => "null"
  | string => "string"
  | singleQuoted => "single_quoted"
  | doubleQuoted => "double_quoted"
  | expression => "expression"
  | orOp => "or_op"
  | xorOp => "xor_op"
  | andOp => "and_op"
  | notOp => "not_op"
  | comparisonOp => "comparison_op"
  | stringOp => "string_op"
  | isNotNullOp => "is_not_null_op"
  | isNullOp => "is_null_op"
  | term => "term"
  | propertyAccess => "property_access"
  | functionCall => "function_call"
  | functionName => "function_name"
  | variableName => "variable"
  | label => "label"
  | edgeGroup => "edge_group"
  | propertyKey => "property_key"
  | keyword k => k.spelling.toUpper

end Rule

/-- A pair of the tree: the rule that made it, the text that it covers, and the pairs inside. -/
structure Pair where
  rule : Rule
  text : List Char := []
  inner : List Pair := []
deriving Repr

namespace Pair

/-- The text of a pair. -/
def string (p : Pair) : String := String.ofList p.text

/-- The pairs of a rule inside. -/
def each (r : Rule) (p : Pair) : List Pair := p.inner.filter (·.rule = r)

/-- The first pair of a rule inside. -/
def first? (r : Rule) (p : Pair) : Option Pair := p.inner.find? (·.rule = r)

/-- The last pair of a rule inside. -/
def last? (r : Rule) (p : Pair) : Option Pair := (p.each r).getLast?

end Pair

/-! ### Pieces -/

def Lexeme.isWord : Lexeme → Bool
  | word _ => true
  | _ => false

/-- A token with its text. -/
structure Piece extends Token where
  text : List Char
deriving DecidableEq, Repr

/-- The pieces of a text, at most `fuel` of them. -/
def pieces? : (fuel : Nat) → List Char → Option (List Piece)
  | 0, _ => none
  | fuel + 1, cs => do
    let (gap, cs) ← splitGap .blank cs
    if cs.isEmpty then some []
    else
      let (lexeme, after) ← lexeme? cs
      let rest ← pieces? fuel after
      some ({ gap, lexeme, text := cs.take (cs.length - after.length) } :: rest)

namespace Piece

/-- The pieces of a text. -/
def ofText? (text : List Char) : Option (List Piece) := pieces? (text.length + 1) text

/-- The text from the first to the last of some pieces, with the gaps between them. -/
def span : List Piece → List Char
  | [] => []
  | p :: rest => p.text ++ rest.flatMap fun q => q.gap ++ q.text

/-- The text of the pieces up to those that are left. -/
def covered (ts rest : List Piece) : List Char := span (ts.take (ts.length - rest.length))

/-- The gap in front of the first of some pieces. -/
def gapBefore (ts : List Piece) : List Char := (ts.head?.map (·.gap)).getD []

end Piece

end CodeGraph.Cypher
