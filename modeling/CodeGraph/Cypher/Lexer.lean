import CodeGraph.Cypher.Token

/-!
Cutting a query text into tokens.

At each place the longest lexeme is taken, after the gap in front of it. A minus right in front of a
digit belongs to the number; two dots make a range, with or without digits on either side; a comment
or a quoted text that is never closed leaves the whole text without tokens.

* `splitGap`: the blanks and comments at the start of a text.
* `quotedText`: the rest of a quoted text, its escapes resolved.
* `lexeme?`: the first lexeme of a text.
* `Token.ofText?`: the tokens of a text.
-/

namespace CodeGraph.Cypher

/-! ### Gaps -/

def isBlank (c : Char) : Bool := c == ' ' || c == '\t' || c == '\r' || c == '\n'

/-- Where a gap is being read: between comments, in one that ends with its line, or in one that ends
with a star and a slash. -/
inductive GapPart
  | blank
  | line
  | block
deriving DecidableEq, Repr

/-- The gap at the start of a text, and what follows it. The end of a line ends a comment, the end
of the text does so only for a comment to the end of its line. -/
def splitGap : GapPart → List Char → Option (List Char × List Char)
  | .blank, '/' :: '/' :: rest => (splitGap .line rest).map (fun p => ('/' :: '/' :: p.1, p.2))
  | .blank, '/' :: '*' :: rest => (splitGap .block rest).map (fun p => ('/' :: '*' :: p.1, p.2))
  | .blank, c :: rest =>
    if isBlank c then (splitGap .blank rest).map (fun p => (c :: p.1, p.2))
      else some ([], c :: rest)
  | .blank, [] => some ([], [])
  | .line, c :: rest =>
    (splitGap (if c = '\n' then .blank else .line) rest).map (fun p => (c :: p.1, p.2))
  | .line, [] => some ([], [])
  | .block, '*' :: '/' :: rest => (splitGap .blank rest).map (fun p => ('*' :: '/' :: p.1, p.2))
  | .block, c :: rest => (splitGap .block rest).map (fun p => (c :: p.1, p.2))
  | .block, [] => none

/-! ### Words and numbers -/

def isWordStart (c : Char) : Bool := c.isAlpha || c == '_'

def isWordPart (c : Char) : Bool := c.isAlphanum || c == '_'

/-- The number that digits spell. -/
def natOfDigits (digits : List Char) : Nat := Nat.ofDigitChars 10 digits 0

/-- A sign in front of an exponent, and what follows it. -/
def splitSign : List Char → Bool × List Char
  | '+' :: rest => (false, rest)
  | '-' :: rest => (true, rest)
  | rest => (false, rest)

/-- The exponent at the start of a text. Without a digit there is none, and nothing is taken. -/
def splitExponent (cs : List Char) : Int × List Char :=
  match cs with
  | c :: rest =>
    let (negative, rest) := splitSign rest
    let (digits, rest) := rest.span Char.isDigit
    if (c == 'e' || c == 'E') && !digits.isEmpty then
      (if negative then -(natOfDigits digits : Int) else natOfDigits digits, rest)
    else (0, cs)
  | [] => (0, [])

/-- A number whose first digits were read: a fraction with its exponent if a dot and a digit follow.
-/
def numberAfter (negative : Bool) (whole : List Char) (cs : List Char) : Lexeme × List Char :=
  match cs with
  | '.' :: d :: rest =>
    if d.isDigit then
      let (fraction, rest) := (d :: rest).span Char.isDigit
      let (exponent, rest) := splitExponent rest
      (.decimal ⟨negative, natOfDigits (whole ++ fraction), exponent - fraction.length⟩, rest)
    else (.integer negative whole, cs)
  | _ => (.integer negative whole, cs)

/-- A number without a sign; two dots after its first digits make it a range. -/
def unsignedNumber (cs : List Char) : Lexeme × List Char :=
  match cs.span Char.isDigit with
  | (low, '.' :: '.' :: rest) =>
    let (high, rest) := rest.span Char.isDigit
    (.range low high, rest)
  | (whole, rest) => numberAfter false whole rest

/-- A number after its minus. -/
def negativeNumber (cs : List Char) : Lexeme × List Char :=
  let (whole, rest) := cs.span Char.isDigit
  numberAfter true whole rest

/-! ### Quoted texts -/

/-- What a character after a backslash stands for. -/
def unescape : Char → Char
  | 'n' => '\n'
  | 't' => '\t'
  | 'r' => '\r'
  | c => c

/-- The escapes of a text resolved, a backslash at its end as `dangling`. -/
def unescaped (dangling : List Char) : List Char → List Char
  | '\\' :: c :: rest => unescape c :: unescaped dangling rest
  | ['\\'] => dangling
  | c :: rest => c :: unescaped dangling rest
  | [] => []

/-- The rest of a quoted text up to its closing quote, and what follows. -/
def quotedText (quote : Char) : List Char → Option (List Char × List Char)
  | [] => none
  | '\\' :: c :: rest => (quotedText quote rest).map (fun p => (unescape c :: p.1, p.2))
  | c :: rest =>
    if c = quote then some ([], rest)
    else if c = '\\' then none
    else (quotedText quote rest).map (fun p => (c :: p.1, p.2))

/-! ### Lexemes -/

/-- The sign at the start of a text, the longer one of two. -/
def mark? : List Char → Option (Mark × List Char)
  | '<' :: '>' :: rest => some (.unequal, rest)
  | '<' :: '=' :: rest => some (.lessEqual, rest)
  | '>' :: '=' :: rest => some (.greaterEqual, rest)
  | '!' :: '=' :: rest => some (.unequal, rest)
  | '(' :: rest => some (.openParen, rest)
  | ')' :: rest => some (.closeParen, rest)
  | '[' :: rest => some (.openBracket, rest)
  | ']' :: rest => some (.closeBracket, rest)
  | '{' :: rest => some (.openBrace, rest)
  | '}' :: rest => some (.closeBrace, rest)
  | ',' :: rest => some (.comma, rest)
  | ':' :: rest => some (.colon, rest)
  | ';' :: rest => some (.semicolon, rest)
  | '.' :: rest => some (.dot, rest)
  | '|' :: rest => some (.bar, rest)
  | '*' :: rest => some (.star, rest)
  | '-' :: rest => some (.minus, rest)
  | '<' :: rest => some (.less, rest)
  | '>' :: rest => some (.greater, rest)
  | '=' :: rest => some (.equal, rest)
  | _ => none

/-- The first lexeme of a text that starts with one. -/
def lexeme? : List Char → Option (Lexeme × List Char)
  | [] => none
  | c :: rest =>
    if isWordStart c then
      let (part, rest) := rest.span isWordPart
      some (.word (String.ofList (c :: part)), rest)
    else if c.isDigit || (c == '.' && rest.head? == some '.') then some (unsignedNumber (c :: rest))
    else if c == '-' && rest.head?.any Char.isDigit then some (negativeNumber rest)
    else if c == '\'' || c == '"' then
      (quotedText c rest).map (fun p => (.quoted (String.ofList p.1), p.2))
    else (mark? (c :: rest)).map (fun p => (.mark p.1, p.2))

/-- The tokens of a text, at most `fuel` of them. The gap at the end belongs to no token. -/
def tokens? : (fuel : Nat) → List Char → Option (List Token)
  | 0, _ => none
  | fuel + 1, cs => do
    let (gap, cs) ← splitGap .blank cs
    if cs.isEmpty then some []
    else
      let (lexeme, cs) ← lexeme? cs
      let rest ← tokens? fuel cs
      some (⟨gap, lexeme⟩ :: rest)

/-- The tokens of a text. Each takes a character at least, so the length of the text bounds their
number. -/
def Token.ofText? (text : List Char) : Option (List Token) := tokens? (text.length + 1) text

/-! ### Small facts -/

/-- A gap and what follows it are the whole text. -/
theorem append_splitGap {part : GapPart} {cs gap rest : List Char}
    (h : splitGap part cs = some (gap, rest)) : gap ++ rest = cs := by
  induction part, cs using splitGap.induct generalizing gap with
  | case1 cs ih | case2 cs ih =>
    simp only [splitGap, Option.map_eq_some_iff] at h
    obtain ⟨⟨g, r⟩, hg, heq⟩ := h
    obtain ⟨rfl, rfl⟩ := Prod.mk.inj heq
    simp [← ih hg]
  | case3 c cs _ _ hb ih =>
    rw [splitGap, if_pos hb] at h
    · obtain ⟨⟨g, r⟩, hg, heq⟩ := Option.map_eq_some_iff.1 h
      obtain ⟨rfl, rfl⟩ := Prod.mk.inj heq
      simp [← ih hg]
    all_goals assumption
  | case4 c cs _ _ hb =>
    rw [splitGap, if_neg hb] at h
    · obtain ⟨rfl, rfl⟩ := Prod.mk.inj (Option.some.inj h)
      rfl
    all_goals assumption
  | case5 =>
    obtain ⟨rfl, rfl⟩ := Prod.mk.inj (Option.some.inj h)
    rfl
  | case6 c cs ih =>
    obtain ⟨⟨g, r⟩, hg, heq⟩ := Option.map_eq_some_iff.1 h
    obtain ⟨rfl, rfl⟩ := Prod.mk.inj heq
    simp [← ih hg]
  | case7 =>
    obtain ⟨rfl, rfl⟩ := Prod.mk.inj (Option.some.inj h)
    rfl
  | case8 cs ih =>
    simp only [splitGap, Option.map_eq_some_iff] at h
    obtain ⟨⟨g, r⟩, hg, heq⟩ := h
    obtain ⟨rfl, rfl⟩ := Prod.mk.inj heq
    simp [← ih hg]
  | case9 c cs _ ih =>
    rw [splitGap] at h
    · obtain ⟨⟨g, r⟩, hg, heq⟩ := Option.map_eq_some_iff.1 h
      obtain ⟨rfl, rfl⟩ := Prod.mk.inj heq
      simp [← ih hg]
    all_goals assumption
  | case10 => simp [splitGap] at h

end CodeGraph.Cypher
