/-!
JSON documents and their text.

Strings and numbers are kept as they are written. So a number is as exact as its digits, and a
string may hold escapes that spell no text; what a string spells is asked for only where it matters.

* `Json`: documents.
* `Json.escaped`, `Json.text`: a text, written as a string.
* `Json.compact`, `Json.pretty`: a document on one line, and over several.
-/

namespace CodeGraph

/-- A document. A string and a key hold the characters between their quotes, as they are written. -/
inductive Json
  | null
  | bool (value : Bool)
  | number (written : String)
  | string (written : List Char)
  | array (items : List Json)
  | object (entries : List (List Char × Json))
deriving Repr, Inhabited

namespace Json

/-! ### Strings -/

/-- The digit of a value below sixteen, in lower case. -/
def hexDigit (n : Nat) : Char := Nat.digitChar n

/-- How a character of a text is written in a string: quotes, backslashes and control characters are
escaped, by a letter where there is one for them. -/
def escape : Char → List Char
  | '"' => ['\\', '"']
  | '\\' => ['\\', '\\']
  | '\n' => ['\\', 'n']
  | '\r' => ['\\', 'r']
  | '\t' => ['\\', 't']
  | c =>
    if c.toNat = 8 then ['\\', 'b']
    else if c.toNat = 12 then ['\\', 'f']
    else if c.toNat < 32 then ['\\', 'u', '0', '0', hexDigit (c.toNat / 16),
      hexDigit (c.toNat % 16)]
    else [c]

/-- The characters between the quotes of the string that spells a text. -/
def escaped (text : String) : List Char := text.toList.flatMap escape

/-- A text as a string. -/
def text (s : String) : Json := string (escaped s)

/-- An entry of an object under a key. -/
def entry (key : String) (value : Json) : List Char × Json := (escaped key, value)

def ofNat (n : Nat) : Json := number (toString n)

def ofInt (i : Int) : Json := number (toString i)

/-! ### Text -/

/-- Characters between quotes. -/
def quoted (written : List Char) : String := "\"" ++ String.ofList written ++ "\""

mutual

/-- A document on one line, without a blank outside its strings. -/
def compact : Json → String
  | null => "null"
  | bool true => "true"
  | bool false => "false"
  | number written => written
  | string written => quoted written
  | array items => "[" ++ ",".intercalate (compactItems items) ++ "]"
  | object entries => "\x7b" ++ ",".intercalate (compactEntries entries) ++ "\x7d"

def compactItems : List Json → List String
  | [] => []
  | item :: rest => compact item :: compactItems rest

def compactEntries : List (List Char × Json) → List String
  | [] => []
  | (key, value) :: rest => (quoted key ++ ":" ++ compact value) :: compactEntries rest

end

/-- Two blanks for each level. -/
def indent (level : Nat) : String := String.ofList (List.replicate (2 * level) ' ')

/-- Lines between brackets, one level deeper than the brackets; no line at all leaves them together.
-/
def block (level : Nat) (opening closing : String) (lines : List String) : String :=
  if lines.isEmpty then opening ++ closing
  else
    let start := "\n" ++ indent (level + 1)
    opening ++ start ++ ("," ++ start).intercalate lines ++ "\n" ++ indent level ++ closing

mutual

/-- A document over several lines, one for each item and entry, from a level of indentation on. -/
def prettyAt (level : Nat) : Json → String
  | null => "null"
  | bool true => "true"
  | bool false => "false"
  | number written => written
  | string written => quoted written
  | array items => block level "[" "]" (prettyItems (level + 1) items)
  | object entries => block level "\x7b" "\x7d" (prettyEntries (level + 1) entries)

def prettyItems (level : Nat) : List Json → List String
  | [] => []
  | item :: rest => prettyAt level item :: prettyItems level rest

def prettyEntries (level : Nat) : List (List Char × Json) → List String
  | [] => []
  | (key, value) :: rest => (quoted key ++ ": " ++ prettyAt level value) :: prettyEntries level rest

end

/-- A document over several lines. -/
def pretty (j : Json) : String := prettyAt 0 j

end Json
end CodeGraph
