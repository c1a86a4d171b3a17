import CodeGraph.Json

/-!
Reading JSON documents.

Every well-formed text is read, with strings and numbers as they are written. What a string spells
is found in a second step, because an escape for half of a surrogate pair is well-formed and yet
spells nothing.

* `Json.ofText?`: the document of a text.
* `Json.spelled?`: the text that the characters of a string spell.
-/

namespace CodeGraph.Json

/-! ### Characters -/

/-- The blanks between the parts of a document. -/
def isSpace (c : Char) : Bool := c == ' ' || c == '\n' || c == '\t' || c == '\r'

def skipSpace (cs : List Char) : List Char := cs.dropWhile isSpace

/-- The value of a hexadecimal digit. -/
def hexValue? (c : Char) : Option Nat :=
  if c.isDigit then some (c.toNat - 48)
  else if 'a' ≤ c ∧ c ≤ 'f' then some (c.toNat - 87)
  else if 'A' ≤ c ∧ c ≤ 'F' then some (c.toNat - 55)
  else none

def isHex (c : Char) : Bool := (hexValue? c).isSome

/-- The value of four hexadecimal digits. -/
def hexValue (digits : List Char) : Nat := digits.foldl (fun n d => 16 * n + (hexValue? d).getD 0) 0

/-- The letters that may follow a backslash, apart from the one for a number. -/
def isEscapeLetter (c : Char) : Bool := c ∈ ['"', '\\', '/', 'b', 'f', 'n', 'r', 't']

/-! ### Strings -/

/-- The characters of a string up to its closing quote, and what follows. -/
def stringAfter : List Char → Option (List Char × List Char)
  | [] => none
  | '"' :: rest => some ([], rest)
  | '\\' :: 'u' :: a :: b :: c :: d :: rest =>
    if [a, b, c, d].all isHex then
      (stringAfter rest).map (fun p => ('\\' :: 'u' :: a :: b :: c :: d :: p.1, p.2))
    else none
  | '\\' :: c :: rest =>
    if isEscapeLetter c then (stringAfter rest).map (fun p => ('\\' :: c :: p.1, p.2)) else none
  | c :: rest =>
    if c.toNat < 32 then none else (stringAfter rest).map (fun p => (c :: p.1, p.2))

/-- What a letter after a backslash stands for. -/
def escapedPoint : Char → Nat
  | 'b' => 8
  | 'f' => 12
  | 'n' => 10
  | 'r' => 13
  | 't' => 9
  | c => c.toNat

/-- The numbers of the characters that a string holds, each half of a surrogate pair by itself. -/
def points : List Char → List Nat
  | [] => []
  | '\\' :: 'u' :: a :: b :: c :: d :: rest => hexValue [a, b, c, d] :: points rest
  | '\\' :: c :: rest => escapedPoint c :: points rest
  | c :: rest => c.toNat :: points rest

def isHighHalf (n : Nat) : Bool := 0xD800 ≤ n && n < 0xDC00

def isLowHalf (n : Nat) : Bool := 0xDC00 ≤ n && n < 0xE000

/-- The characters of some numbers, surrogate pairs joined; a half without its partner has none. -/
def joinHalves : List Nat → Option (List Char)
  | [] => some []
  | high :: low :: rest =>
    if isHighHalf high then
      if isLowHalf low then
        (joinHalves rest).map (Char.ofNat (0x10000 + (high - 0xD800) * 0x400 + (low - 0xDC00)) :: ·)
      else none
    else if isLowHalf high then none
    else (joinHalves (low :: rest)).map (Char.ofNat high :: ·)
  | [n] => if isHighHalf n || isLowHalf n then none else some [Char.ofNat n]

/-- The text that the characters of a string spell, if they spell one. -/
def spelled? (written : List Char) : Option String :=
  (joinHalves (points written)).map String.ofList

/-! ### Numbers -/

/-- One digit or more, and what follows. -/
def digits? (cs : List Char) : Option (List Char × List Char) :=
  let (digits, rest) := cs.span Char.isDigit
  if digits.isEmpty then none else some (digits, rest)

/-- A whole part: a zero, or digits that do not start with one. -/
def whole? : List Char → Option (List Char × List Char)
  | '0' :: rest => some (['0'], rest)
  | cs => digits? cs

/-- A fraction, which may be left out. -/
def fraction? : List Char → Option (List Char × List Char)
  | '.' :: rest => (digits? rest).map (fun p => ('.' :: p.1, p.2))
  | cs => some ([], cs)

/-- An exponent, which may be left out. -/
def exponent? : List Char → Option (List Char × List Char)
  | c :: rest =>
    if c == 'e' || c == 'E' then
      match rest with
      | s :: after =>
        if s == '+' || s == '-' then (digits? after).map (fun p => (c :: s :: p.1, p.2))
        else (digits? rest).map (fun p => (c :: p.1, p.2))
      | [] => none
    else some ([], c :: rest)
  | [] => some ([], [])

/-- A number, as it is written. -/
def number? (cs : List Char) : Option (Json × List Char) := do
  let (sign, cs) := match cs with
    | '-' :: rest => (['-'], rest)
    | _ => ([], cs)
  let (whole, cs) ← whole? cs
  let (fraction, cs) ← fraction? cs
  let (exponent, cs) ← exponent? cs
  some (.number (String.ofList (sign ++ whole ++ fraction ++ exponent)), cs)

/-! ### Documents -/

mutual

/-- The document at the start of a text. Each level of nesting takes two steps of the recursion and
both an opening and a closing sign, so the length of the text is fuel enough. -/
def valueAt : (fuel : Nat) → List Char → Option (Json × List Char)
  | 0, _ => none
  | fuel + 1, cs =>
    match skipSpace cs with
    | '"' :: rest => (stringAfter rest).map (fun p => (.string p.1, p.2))
    | '[' :: rest =>
      match skipSpace rest with
      | ']' :: rest => some (.array [], rest)
      | _ => (itemsAt fuel rest).map (fun p => (.array p.1, p.2))
    | '{' :: rest =>
      match skipSpace rest with
      | '}' :: rest => some (.object [], rest)
      | _ => (entriesAt fuel rest).map (fun p => (.object p.1, p.2))
    | 'n' :: 'u' :: 'l' :: 'l' :: rest => some (.null, rest)
    | 't' :: 'r' :: 'u' :: 'e' :: rest => some (.bool true, rest)
    | 'f' :: 'a' :: 'l' :: 's' :: 'e' :: rest => some (.bool false, rest)
    | cs => number? cs

/-- The items of an array up to its closing bracket, of which there is at least one. -/
def itemsAt : (fuel : Nat) → List Char → Option (List Json × List Char)
  | 0, _ => none
  | fuel + 1, cs => do
    let (item, cs) ← valueAt fuel cs
    match skipSpace cs with
    | ',' :: rest =>
      let (more, rest) ← itemsAt fuel rest
      some (item :: more, rest)
    | ']' :: rest => some ([item], rest)
    | _ => none

/-- The entries of an object up to its closing brace, of which there is at least one. -/
def entriesAt : (fuel : Nat) → List Char → Option (List (List Char × Json) × List Char)
  | 0, _ => none
  | fuel + 1, cs =>
    match skipSpace cs with
    | '"' :: rest => do
      let (key, rest) ← stringAfter rest
      match skipSpace rest with
      | ':' :: rest =>
        let (value, rest) ← valueAt fuel rest
        match skipSpace rest with
        | ',' :: rest =>
          let (more, rest) ← entriesAt fuel rest
          some ((key, value) :: more, rest)
        | '}' :: rest => some ([(key, value)], rest)
        | _ => none
      | _ => none
    | _ => none

end

/-- The document of a text, with nothing after it but blanks. -/
def ofText? (text : String) : Option Json :=
  match valueAt (text.length + 2) text.toList with
  | some (j, rest) => if (skipSpace rest).isEmpty then some j else none
  | none => none

end CodeGraph.Json
