import CodeGraph.Cypher.Phrase
import CodeGraph.Query

/-!
Reading patterns.

A path alternates between nodes in parentheses and edges drawn with minus signs; an arrow head on
exactly one side of an edge gives it a direction.

* `properties`: a property map in braces.
* `node`, `edge`: the two shapes.
* `path`, `pattern`: a path, and paths between commas.
-/

namespace CodeGraph.Cypher

/-! ### Property maps -/

/-- The settings after the opening brace, up to the closing one, of which there is at least one. -/
def settings : List Token → Option (Read (List (String × Property)) × List Token)
  | ⟨_, .word key⟩ :: ⟨_, .mark .colon⟩ :: value :: ⟨_, .mark .closeBrace⟩ :: rest => do
    let v ← value.lexeme.literal?
    some (v.map (fun v => [(key, v)]), rest)
  | ⟨_, .word key⟩ :: ⟨_, .mark .colon⟩ :: value :: ⟨_, .mark .comma⟩ :: rest => do
    let v ← value.lexeme.literal?
    let (more, rest) ← settings rest
    some ((do pure ((key, ← v) :: (← more))), rest)
  | _ => none

/-- A property map in braces; of two settings of a key the later one wins. -/
def properties (ts : List Token) : Option (Read PropertyMap × List Token) := do
  let ts ← mark .openBrace ts
  match mark .closeBrace ts with
  | some ts => some (.ok {}, ts)
  | none =>
    let (entries, ts) ← settings ts
    some (entries.map .ofList, ts)

/-- A property map that may be left out. -/
def optionalProperties (ts : List Token) : Option (Read (Option PropertyMap) × List Token) :=
  if startsWithMark .openBrace ts then (properties ts).map (fun p => (p.1.map some, p.2))
  else some (.ok none, ts)

/-! ### Nodes -/

/-- Labels, each after a colon. -/
def labels : List Token → Option (List Label × List Token)
  | ⟨_, .mark .colon⟩ :: ⟨_, .word text⟩ :: rest =>
    (labels rest).map (fun p => (⟨text⟩ :: p.1, p.2))
  | ⟨_, .mark .colon⟩ :: _ => none
  | ts => some ([], ts)

/-- A node in parentheses. -/
def node : Phrase NodePattern := fun ts => do
  let ts ← mark .openParen ts
  let (name, ts) := optionalName ts
  let (labels, ts) ← labels ts
  let (properties, ts) ← optionalProperties ts
  let ts ← mark .closeParen ts
  some (properties.map (fun properties => { name, labels, properties }), ts)

/-! ### Edges -/

/-- The groups after the first one, each after a bar and perhaps a colon. -/
def moreGroups : List Token → Option (List Group × List Token)
  | ⟨_, .mark .bar⟩ :: ⟨_, .mark .colon⟩ :: ⟨_, .word text⟩ :: rest =>
    (moreGroups rest).map (fun p => (⟨text⟩ :: p.1, p.2))
  | ⟨_, .mark .bar⟩ :: ⟨_, .word text⟩ :: rest =>
    (moreGroups rest).map (fun p => (⟨text⟩ :: p.1, p.2))
  | ⟨_, .mark .bar⟩ :: _ => none
  | ts => some ([], ts)

/-- Alternative groups after a colon, which may be left out. -/
def groups : List Token → Option (List Group × List Token)
  | ⟨_, .mark .colon⟩ :: ⟨_, .word text⟩ :: rest =>
    (moreGroups rest).map (fun p => (⟨text⟩ :: p.1, p.2))
  | ⟨_, .mark .colon⟩ :: _ => none
  | ts => some ([], ts)

/-- A length after a star, which may be left out. A star alone stands for one edge or more, and so
does a range without its lower bound. -/
def optionalLength : List Token → Read (Option PathLength) × List Token
  | ⟨_, .mark .star⟩ :: ⟨_, .range low high⟩ :: rest =>
    ((do
      let min ← readBound low
      let max ← readBound high
      pure (some ⟨some (min.getD 1), max⟩)), rest)
  | ⟨_, .mark .star⟩ :: ⟨_, .integer negative digits⟩ :: rest =>
    ((readLength negative digits).map (fun n => some ⟨some n, some n⟩), rest)
  | ⟨_, .mark .star⟩ :: rest => (.ok (some ⟨some 1, none⟩), rest)
  | ts => (.ok none, ts)

/-- What stands in the brackets of an edge, its direction being known. -/
def edgeDetail (direction : PatternDirection) : Phrase EdgePattern := fun ts => do
  let ts ← mark .openBracket ts
  let (name, ts) := optionalName ts
  let (groups, ts) ← groups ts
  let (length, ts) := optionalLength ts
  let (properties, ts) ← optionalProperties ts
  let ts ← mark .closeBracket ts
  some ((do pure { name, groups, direction, length := ← length, properties := ← properties }), ts)

/-- An edge may have no brackets. -/
def optionalDetail (direction : PatternDirection) (ts : List Token) :
    Option (Read EdgePattern × List Token) :=
  if startsWithMark .openBracket ts then edgeDetail direction ts else some (.ok { direction }, ts)

/-- The direction of an edge from its arrow heads. -/
def drawnDirection : (left right : Bool) → PatternDirection
  | true, false => .incoming
  | false, true => .outgoing
  | _, _ => .both

/-- An edge between two nodes. -/
def edge : Phrase EdgePattern := fun ts => do
  let (left, ts) := optionalMark .less ts
  let ts ← mark .minus ts
  let (detail, ts) ← optionalDetail .both ts
  let ts ← mark .minus ts
  let (right, ts) := optionalMark .greater ts
  some (detail.map (fun e => { e with direction := drawnDirection left right }), ts)

/-! ### Paths -/

/-- Whether an edge starts here. -/
def startsEdge (ts : List Token) : Bool := startsWithMark .less ts || startsWithMark .minus ts

/-- Edges that each lead to a node; `fuel` bounds their number. -/
def segments : (fuel : Nat) → Phrase (List Segment)
  | 0, _ => none
  | fuel + 1, ts =>
    if startsEdge ts then do
      let (e, ts) ← edge ts
      let (n, ts) ← node ts
      let (more, ts) ← segments fuel ts
      some ((do
        let edge ← e
        let node ← n
        pure ({ edge, node } :: (← more))), ts)
    else some (.ok [], ts)

/-- A path. -/
def path : Phrase PathPattern := fun ts => do
  let (n, ts) ← node ts
  let (more, ts) ← segments (ts.length + 1) ts
  some ((do
    let start ← n
    pure { start, segments := ← more }), ts)

/-- Paths between commas. -/
def pattern : Phrase (List PathPattern) := fun ts => commaList path (ts.length + 1) ts

end CodeGraph.Cypher
