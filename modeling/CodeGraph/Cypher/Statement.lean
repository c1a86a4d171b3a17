import CodeGraph.Cypher.Expression
import CodeGraph.Cypher.Pattern

/-!
Reading whole queries.

A query consists of matches with their filters, then writing clauses, then what is returned,
ordered, skipped and limited. Each part may be left out, even all of them; a semicolon may close the
text.

* `matchPart`, `writeClause`, `returnClause`, …: the clauses.
* `statement`: all clauses of a query in their order.
* `Query.ofText`: the query of a text, or why it is none.
-/

namespace CodeGraph.Cypher

/-! ### Matching -/

/-- A filter that may be left out. -/
def optionalFilter (ts : List Token) : Option (Read (Option Expr) × List Token) :=
  match keyword .whereWord ts with
  | some ts => (expression ts).map (fun p => (p.1.map some, p.2))
  | none => some (.ok none, ts)

/-- A match with its filter. -/
def matchPart : Phrase (MatchClause × Option Expr) := fun ts => do
  let (optional, ts) := optionalKeyword .optional ts
  let ts ← keyword .matchWord ts
  let (paths, ts) ← pattern ts
  let (filter, ts) ← optionalFilter ts
  some ((do
    let paths ← paths
    pure ({ paths, optional }, ← filter)), ts)

/-- Matches as long as there are any; `fuel` bounds their number. -/
def matchParts : (fuel : Nat) → Phrase (List (MatchClause × Option Expr))
  | 0, _ => none
  | fuel + 1, ts =>
    if startsWithKeyword .matchWord ts || startsWithKeyword .optional ts then do
      let (part, ts) ← matchPart ts
      let (more, ts) ← matchParts fuel ts
      some ((do pure ((← part) :: (← more))), ts)
    else some (.ok [], ts)

/-- Several filters are joined into one, from left to right. -/
def joinFilters (filters : List (Option Expr)) : Option Expr :=
  filters.foldl (fun joined filter =>
    match joined, filter with
    | some l, some r => some (.and l r)
    | some l, none => some l
    | none, r => r) none

/-! ### Writing -/

def setItem : Phrase SetItem := fun ts => do
  let (name, ts) ← name ts
  match dotted ts with
  | ([key], ts) => do
    let ts ← mark .equal ts
    let (value, ts) ← expression ts
    some (value.map (fun value => { name, key, value }), ts)
  | _ => none

/-- A variable to delete. -/
def deletedName : Phrase String := fun ts => (name ts).map (fun p => (.ok p.1, p.2))

/-- The variables of a deletion, after its first words. -/
def deletion (detach : Bool) (ts : List Token) : Option (Read WriteClause × List Token) := do
  let ts ← keyword .delete ts
  let (names, ts) ← commaList deletedName (ts.length + 1) ts
  some (names.map (fun names => .delete names detach), ts)

/-- A writing clause, absent if none starts here. -/
def writeClause? (ts : List Token) : Option (Option (Read WriteClause × List Token)) :=
  match ts with
  | [] => none
  | t :: rest =>
    match t.lexeme.keyword? with
    | some .create => some ((pattern rest).map (fun p => (p.1.map .create, p.2)))
    | some .merge => some ((pattern rest).map (fun p => (p.1.map .merge, p.2)))
    | some .detach => some (deletion true rest)
    | some .delete => some (deletion false ts)
    | some .set =>
      some ((commaList setItem (rest.length + 1) rest).map (fun p => (p.1.map .set, p.2)))
    | _ => none

/-- Writing clauses as long as there are any; `fuel` bounds their number. -/
def writeClauses : (fuel : Nat) → Phrase (List WriteClause)
  | 0, _ => none
  | fuel + 1, ts =>
    match writeClause? ts with
    | some clause => do
      let (clause, ts) ← clause
      let (more, ts) ← writeClauses fuel ts
      some ((do pure ((← clause) :: (← more))), ts)
    | none => some (.ok [], ts)

/-! ### Returning -/

/-- A heading that may be left out. -/
def optionalHeading (ts : List Token) : Option (Option String × List Token) :=
  match keyword .asWord ts with
  | some ts => (name ts).map (fun p => (some p.1, p.2))
  | none => some (none, ts)

def returnItem : Phrase ReturnItem := fun ts => do
  let (value, ts) ← expression ts
  let (heading, ts) ← optionalHeading ts
  some (value.map (fun value => { value, heading }), ts)

def returnClause (ts : List Token) : Option (Read (Option ReturnClause) × List Token) :=
  match keyword .returnWord ts with
  | some ts => do
    let (distinct, ts) := optionalKeyword .distinct ts
    let (items, ts) ← commaList returnItem (ts.length + 1) ts
    some (items.map (fun items => some { items, distinct }), ts)
  | none => some (.ok none, ts)

/-- Whether an order ascends, as it does unless it is said to descend. -/
def orderDirection (ts : List Token) : Bool × List Token :=
  match ts with
  | [] => (true, [])
  | t :: rest =>
    match t.lexeme.keyword? with
    | some .asc | some .ascending => (true, rest)
    | some .desc | some .descending => (false, rest)
    | _ => (true, ts)

def orderItem : Phrase OrderItem := fun ts => do
  let (value, ts) ← expression ts
  let (ascending, ts) := orderDirection ts
  some (value.map (fun value => { value, ascending }), ts)

def orderClause (ts : List Token) : Option (Read (Option (List OrderItem)) × List Token) :=
  match keyword .order ts with
  | some ts => do
    let ts ← keyword .byWord ts
    let (items, ts) ← commaList orderItem (ts.length + 1) ts
    some (items.map some, ts)
  | none => some (.ok none, ts)

/-- A clause of a keyword and a count. -/
def countClause (k : Keyword) (clause : String) (ts : List Token) :
    Option (Read (Option Nat) × List Token) :=
  match keyword k ts with
  | some (⟨_, .integer negative digits⟩ :: rest) =>
    some ((readCount clause negative digits).map some, rest)
  | some _ => none
  | none => some (.ok none, ts)

/-! ### Queries -/

/-- All clauses of a query. -/
def statement : Phrase Query := fun ts => do
  let (parts, ts) ← matchParts (ts.length + 1) ts
  let (writes, ts) ← writeClauses (ts.length + 1) ts
  let (returned, ts) ← returnClause ts
  let (order, ts) ← orderClause ts
  let (skip, ts) ← countClause .skip "SKIP" ts
  let (limit, ts) ← countClause .limit "LIMIT" ts
  some ((do
    let parts ← parts
    let writes ← writes
    let returned ← returned
    let order ← order
    let skip ← skip
    let limit ← limit
    pure
      { matched := parts.map Prod.fst
        filter := joinFilters (parts.map Prod.snd)
        writes, returned, order, skip, limit }), ts)

/-- The query that tokens spell, with nothing left over but a semicolon. -/
def queryOfTokens? (ts : List Token) : Option (Read Query) := do
  let (query, ts) ← statement ts
  let (_, ts) := optionalMark .semicolon ts
  if ts.isEmpty then some query else none

end Cypher

/-- The query of a text, or why it is none. -/
def Query.ofText (text : String) : Except Cypher.ParseError Query :=
  match (Cypher.Token.ofText? text.toList).bind Cypher.queryOfTokens? with
  | none => .error .rejected
  | some (.error f) => .error (.fault f)
  | some (.ok query) => .ok query

end CodeGraph
