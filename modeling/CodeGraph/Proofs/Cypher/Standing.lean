import CodeGraph.Proofs.Cypher.Readers

/-!
Where the words of a text stand.

A word that is spelled like a keyword acts as one only where a keyword may stand. Elsewhere it is a
name: a label or group behind a colon or a bar, a key behind a dot or in front of its value in
braces, or the function of a call where an operand is due. The tokens in front of a word, read from
left to right, tell what is due; only for a call one has to look at the parenthesis behind it.

* `Stand`: what is due at a place of a text. `Stand.next`: what is due behind a lexeme.
* `Stand.isName`: whether a word that stands there is a name.
* `Stand.IsOpen`: the places between the phrases of a query.
-/

namespace CodeGraph.Cypher

/-- What is due at a place of a text: a clause or an operator, an operand, the first result that is
returned, a name, or, in braces, a key or its value. -/
inductive Stand
  | clause
  | operand
  | result
  | name
  | key
  | value
deriving DecidableEq, Repr

/-- What is due behind a keyword. -/
def Keyword.next : Keyword → Stand
  -- the `NOT` of `IS NOT` as well, since no call can stand in the place of its `NULL`
  | whereWord | and | or | xor | not | withWord | contains | byWord | distinct => .operand
  | returnWord => .result
  | _ => .clause

/-- What is due behind a sign. -/
def Mark.next : Mark → Stand
  | openBrace => .key
  | colon | bar | dot => .name
  | openParen | comma | less | greater | lessEqual | greaterEqual | equal | unequal => .operand
  | _ => .clause

/-- What is due behind a lexeme, unless it is a name or stands in braces. -/
def Lexeme.next : Lexeme → Stand
  | word text => ((Keyword.ofWord? text).map Keyword.next).getD .clause
  | mark m => m.next
  | _ => .clause

/-- What is due behind a lexeme in braces, at a place of its own. -/
def Stand.nextInBraces (s : Stand) : Lexeme → Stand
  | .mark .colon => .value
  | .mark .comma => .key
  | .mark .closeBrace => .clause
  | _ => s

/-- What is due behind a lexeme. -/
def Stand.next (s : Stand) (l : Lexeme) : Stand :=
  match s, l with
  | .key, l | .value, l => s.nextInBraces l
  | .name, .word _ => .clause
  | _, l => l.next

/-- Whether a word in front of some tokens is a name. Where an operand is due that is the function
of a call. `NOT` is none there, and neither is `DISTINCT` right behind `RETURN`: they are taken for
what they say before a call is looked for, though a parenthesis may follow them. -/
def Stand.isName (s : Stand) (l : Lexeme) (later : List Token) : Bool :=
  match s with
  | .name | .key => true
  | .clause | .value => false
  | .operand => l.keyword? != some .not && (callee? (⟨[], l⟩ :: later)).isSome
  | .result =>
    l.keyword? != some .not && l.keyword? != some .distinct && (callee? (⟨[], l⟩ :: later)).isSome

/-! ### Between phrases -/

/-- A place between the phrases of a query, where a keyword may stand. -/
def Stand.IsOpen (s : Stand) : Prop := s = .clause ∨ s = .operand ∨ s = .result

variable {s : Stand} {l : Lexeme} {k : Keyword}

lemma Stand.isOpen_clause : Stand.clause.IsOpen := .inl rfl

lemma Stand.isOpen_operand : Stand.operand.IsOpen := .inr (.inl rfl)

lemma Stand.isOpen_result : Stand.result.IsOpen := .inr (.inr rfl)

lemma Stand.IsOpen.next_eq (hs : s.IsOpen) (l : Lexeme) : s.next l = l.next := by
  obtain rfl | rfl | rfl := hs <;> rfl

lemma Keyword.isOpen_next (k : Keyword) : k.next.IsOpen := by
  cases k <;> simp [Keyword.next, Stand.IsOpen]

/-- Behind a word at such a place there is another one. -/
lemma Lexeme.isOpen_next_word (text : String) : (Lexeme.word text).next.IsOpen := by
  rw [Lexeme.next]
  cases Keyword.ofWord? text with
  | none => exact .inl rfl
  | some k => exact k.isOpen_next

lemma Lexeme.next_word {w : String} (h : Keyword.ofWord? w = some k) :
    (Lexeme.word w).next = k.next := by
  rw [next, h]
  rfl

lemma Lexeme.next_of_keyword? (h : l.keyword? = some k) : l.next = k.next := by
  obtain ⟨w, rfl, hw⟩ := exists_word_of_keyword? h
  exact next_word hw

lemma Lexeme.next_of_name? {n : String} (h : l.name? = some n) : l.next = .clause := by
  have hnone := keyword?_of_name? h
  cases l with
  | word w =>
      rw [keyword?] at hnone
      rw [next, hnone]
      rfl
  | _ => cases h

/-- Behind a keyword that is a literal a clause or an operator is due. -/
lemma Lexeme.next_of_literal? (h : l.literal?.isSome) : l.next = .clause := by
  cases l with
  | word w =>
      rw [literal?] at h
      rw [next]
      split at h
      · rename_i hk
        rw [hk]
        rfl
      · rename_i hk
        rw [hk]
        rfl
      · rename_i hk
        rw [hk]
        rfl
      · cases h
  | mark m => cases h
  | _ => rfl

/-- In braces the place stays the same behind a literal. -/
lemma Stand.value_next_of_literal? (h : l.literal?.isSome) : Stand.value.next l = .value := by
  cases l with
  | mark m => cases h
  | _ => rfl

lemma Mark.next_of_comparison? {m : Mark} {c : Comparison} (h : m.comparison? = some c) :
    m.next = .operand := by
  cases m <;> first | rfl | cases h

/-- What is due behind a word depends on the keyword that it spells, not on its case. -/
lemma Stand.next_word_congr {v w : String} (h : Keyword.ofWord? v = Keyword.ofWord? w) (s : Stand) :
    s.next (.word v) = s.next (.word w) := by
  have hnext : (Lexeme.word v).next = (Lexeme.word w).next := by rw [Lexeme.next, Lexeme.next, h]
  cases s <;> first | rfl | exact hnext

end CodeGraph.Cypher
