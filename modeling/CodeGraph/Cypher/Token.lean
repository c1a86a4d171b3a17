import CodeGraph.Number.Decimal

/-!
The tokens of a query text.

A token is a lexeme together with the gap in front of it: the blanks and comments that part it from
the lexeme before. Words of any spelling are one kind of lexeme; whether a word acts as a keyword is
decided where it stands, since labels, groups and keys may be spelled like one.

* `Mark`, `Lexeme`, `Token`: the lexemes.
* `Keyword`: the words with a meaning of their own, in any case of their letters.
* `Token.isAdjacent`: a token with nothing in front of it.
-/

namespace CodeGraph.Cypher

/-! ### Lexemes -/

/-- The signs of the language. -/
inductive Mark
  | openParen
  | closeParen
  | openBracket
  | closeBracket
  | openBrace
  | closeBrace
  | comma
  | colon
  | semicolon
  | dot
  | bar
  | star
  | minus
  | less
  | greater
  | lessEqual
  | greaterEqual
  | equal
  | unequal
deriving DecidableEq, Repr

/-- The smallest parts of a text. An integer keeps its digits, a range the digits on both sides of
its dots. A quoted text is kept as what it stands for. -/
inductive Lexeme
  | word (text : String)
  | integer (negative : Bool) (digits : List Char)
  | decimal (number : Decimal)
  | range (low high : List Char)
  | quoted (text : String)
  | mark (m : Mark)
deriving DecidableEq, Repr

/-- A lexeme and the gap in front of it. -/
structure Token where
  gap : List Char := []
  lexeme : Lexeme
deriving DecidableEq, Repr

/-- Whether a token follows its predecessor without a gap. -/
def Token.isAdjacent (t : Token) : Bool := t.gap.isEmpty

/-! ### Keywords -/

/-- The words with a meaning of their own. -/
inductive Keyword
  | matchWord
  | optional
  | whereWord
  | returnWord
  | distinct
  | asWord
  | order
  | byWord
  | ascending
  | asc
  | descending
  | desc
  | skip
  | limit
  | create
  | merge
  | detach
  | delete
  | set
  | and
  | or
  | xor
  | not
  | is
  | null
  | true
  | false
  | starts
  | ends
  | withWord
  | contains
deriving DecidableEq, Repr

namespace Keyword

def all : List Keyword :=
  [matchWord, optional, whereWord, returnWord, distinct, asWord, order, byWord, ascending, asc,
    descending, desc, skip, limit, create, merge, detach, delete, set, and, or, xor, not, is, null,
    true, false, starts, ends, withWord, contains]

/-- The letters of a keyword, in lower case. -/
def spelling : Keyword → String
  | matchWord => "match"
  | optional => "optional"
  | whereWord => "where"
  | returnWord => "return"
  | distinct => "distinct"
  | asWord => "as"
  | order => "order"
  | byWord => "by"
  | ascending => "ascending"
  | asc => "asc"
  | descending => "descending"
  | desc => "desc"
  | skip => "skip"
  | limit => "limit"
  | create => "create"
  | merge => "merge"
  | detach => "detach"
  | delete => "delete"
  | set => "set"
  | and => "and"
  | or => "or"
  | xor => "xor"
  | not => "not"
  | is => "is"
  | null => "null"
  | true => "true"
  | false => "false"
  | starts => "starts"
  | ends => "ends"
  | withWord => "with"
  | contains => "contains"

/-- The keyword that a word spells, whatever the case of its letters. -/
def ofWord? (word : String) : Option Keyword :=
  let lower := word.map Char.toLower
  all.find? (fun k => k.spelling == lower)

theorem mem_all (k : Keyword) : k ∈ all := by cases k <;> decide

theorem ofWord?_spelling (k : Keyword) :
    ofWord? k.spelling = some k := by cases k <;> decide +kernel

/-- Only the letters of a word decide which keyword it spells, not their case. -/
theorem ofWord?_congr {v w : String} (h : v.map Char.toLower = w.map Char.toLower) :
    ofWord? v = ofWord? w := by simp [ofWord?, h]

end Keyword

/-- The keyword that a lexeme is. -/
def Lexeme.keyword? : Lexeme → Option Keyword
  | word text => Keyword.ofWord? text
  | _ => none

/-- The variable that a lexeme can name: a word that is no keyword. -/
def Lexeme.name? : Lexeme → Option String
  | word text => if (Keyword.ofWord? text).isNone then some text else none
  | _ => none

end CodeGraph.Cypher
