import CodeGraph.Proofs.Cypher.Readers
import CodeGraph.Proofs.Cypher.RenderedTokens

/-!
Reading operands.

An operand is read up to what cannot continue it. What that is depends on the level of the operand:
an operator that does not bind tighter, and a test for null unless the operand is one itself. From
there on the reader goes on with what is behind, and with fuel enough for it.

* `EndsOperand`, `EndsExpression`, `Stops`: what cannot continue a word, an expression, or an
  operand of a level.
* `expressionAt_variable`, `expressionAt_property`, …: operands without parentheses.
* `BinaryOp.binaryOp?_tokens`, `nullTest?_isNull`: operators.
* `Continues`: an operand is read, and what is behind it may continue it.
* `Continues.binary`, `Continues.not`, `Continues.nullTest`, `Continues.parentheses`: how operands
  are put together.
-/

namespace CodeGraph
namespace Cypher

variable {g : List Char} {ts us : List Token} {w : String} {e : Expr} {fuel floor : Nat}

/-! ### Words -/

/-- A word is a keyword or none, whatever gap is in front of it. -/
lemma keyword_word {k : Keyword} (h : Keyword.ofWord? w = some k) (k' : Keyword) (g : List Char)
    (ts : List Token) :
    keyword k' (⟨g, .word w⟩ :: ts) = if k = k' then some ts else none := by
  simp [keyword, Lexeme.keyword?, h]

lemma mark_word (m : Mark) (g : List Char) (w : String) (ts : List Token) :
    mark m (⟨g, .word w⟩ :: ts) = none := rfl

/-- A variable is no keyword. -/
lemma keyword_variable (h : isVariable w) (k : Keyword) (g : List Char) (ts : List Token) :
    keyword k (⟨g, .word w⟩ :: ts) = none := by
  rw [isVariable, Bool.and_eq_true, Option.isNone_iff_eq_none] at h
  simp [keyword, Lexeme.keyword?, h.2]

lemma name_variable (h : isVariable w) (g : List Char) (ts : List Token) :
    name (⟨g, .word w⟩ :: ts) = some (w, ts) := by
  rw [isVariable, Bool.and_eq_true] at h
  simp [name, Lexeme.name?, h.2]

/-- Letters of any case spell a keyword. -/
lemma ofWord?_of_letters {k : Keyword}
    (h : w.toList.map Char.toLower = k.spelling.toList.map Char.toLower) :
    Keyword.ofWord? w = some k := by
  have hletters : w.map Char.toLower = k.spelling.map Char.toLower :=
    String.toList_inj.1 (by rw [String.toList_map, String.toList_map, h])
  rw [Keyword.ofWord?_congr hletters, Keyword.ofWord?_spelling]

/-- A keyword in letters of any case, whatever gap is in front of it. -/
lemma keyword_letters {k : Keyword}
    (h : w.toList.map Char.toLower = k.spelling.toList.map Char.toLower) (k' : Keyword)
    (g : List Char) (ts : List Token) :
    keyword k' (⟨g, .word w⟩ :: ts) = if k = k' then some ts else none :=
  keyword_word (ofWord?_of_letters h) k' g ts

/-! ### What follows an expression -/

/-- What cannot continue a variable or a key: neither a call nor a key of its own. -/
structure EndsOperand (us : List Token) : Prop where
  paren : mark .openParen us = none
  dotted : dotted us = ([], us)

/-- What cannot continue an expression. -/
structure EndsExpression (us : List Token) : Prop extends EndsOperand us where
  nullTest : nullTest? us = none
  binaryOp : binaryOp? us = none

lemma endsOperand_word (g : List Char) (w : String) (us : List Token) :
    EndsOperand (⟨g, .word w⟩ :: us) := ⟨rfl, rfl⟩

lemma endsExpression_close (g : List Char) (us : List Token) :
    EndsExpression (⟨g, .mark .closeParen⟩ :: us) :=
  ⟨⟨rfl, rfl⟩, rfl, rfl⟩

/-- Where an expression ends, no operand is joined to it. -/
lemma EndsExpression.extendAt (h : EndsExpression us) (fuel floor : Nat) (left : Read Expr) :
    extendAt (fuel + 1) floor left us = some (left, us) := by
  rw [Cypher.extendAt, h.nullTest, h.binaryOp]

/-! ### Operands -/

/-- An expression that starts with an operand without parentheses. -/
lemma expressionAt_of_atom (hnot : keyword .not ts = none) (hparen : mark .openParen ts = none)
    (hcallee : callee? ts = none) (hatom : atom ts = some (.ok e, us)) :
    expressionAt (fuel + 1) floor ts = extendAt fuel floor (.ok e) us := by
  rw [expressionAt, hnot, hparen, hcallee, hatom]
  rfl

lemma callee?_of_word (hus : EndsOperand us) (g : List Char) (w : String) :
    callee? (⟨g, .word w⟩ :: us) = none := by
  rw [callee?_eq, word_cons, Option.bind_some, hus.dotted, hus.paren, Option.map_none]

/-- A variable is an operand. -/
lemma expressionAt_variable (hw : isVariable w) (hus : EndsOperand us) :
    expressionAt (fuel + 1) floor (⟨g, .word w⟩ :: us) = extendAt fuel floor (.ok (.var w)) us := by
  refine expressionAt_of_atom (keyword_variable hw _ _ _) rfl (callee?_of_word hus _ _) ?_
  rw [atom, name_variable hw]
  dsimp only
  rw [hus.dotted]

/-- So is a property of a variable. -/
lemma expressionAt_property {key : String} (hw : isVariable w) (hus : EndsOperand us) :
    expressionAt (fuel + 1) floor (⟨g, .word w⟩ :: ⟨[], .mark .dot⟩ :: ⟨[], .word key⟩ :: us)
      = extendAt fuel floor (.ok (.property w key)) us := by
  have hdotted : dotted (⟨[], .mark .dot⟩ :: ⟨[], .word key⟩ :: us) = ([key], us) := by
    simp [dotted, hus.dotted]
  refine expressionAt_of_atom (keyword_variable hw _ _ _) rfl ?_ ?_
  · rw [callee?_eq, word_cons, Option.bind_some, hdotted, hus.paren, Option.map_none]
  · rw [atom, name_variable hw]
    dsimp only
    rw [hdotted]

/-- A number of 64 bits is read back from its decimal digits. -/
lemma readInteger_toDigits (value : Int64) :
    readInteger (value.toInt < 0) (Nat.toDigits 10 value.toInt.natAbs) = .ok value := by
  have hvalue :
      (if decide (value.toInt < 0) then -(natOfDigits (Nat.toDigits 10 value.toInt.natAbs) : Int)
      else natOfDigits (Nat.toDigits 10 value.toInt.natAbs)) = value.toInt := by
    rw [natOfDigits, Nat.ofDigitChars_ten_toDigits]
    by_cases hneg : value.toInt < 0
    · rw [if_pos (decide_eq_true hneg)]
      omega
    · rw [if_neg (by simpa using hneg)]
      omega
  simp only [readInteger, hvalue]
  rw [if_pos ⟨value.minValue_le_toInt, value.toInt_le⟩, Int64.ofInt_toInt]

/-- A number is an operand, with its sign. -/
lemma expressionAt_integer (value : Int64) (us : List Token) :
    expressionAt (fuel + 1) floor
        (⟨g, .integer (value.toInt < 0) (Nat.toDigits 10 value.toInt.natAbs)⟩ :: us)
      = extendAt fuel floor (.ok (.literal (.integer value))) us := by
  refine expressionAt_of_atom rfl rfl rfl ?_
  simp only [atom, name, Lexeme.name?, literal, Lexeme.literal?, readInteger_toDigits,
    Option.map_some, Option.map_none]
  rfl

/-- A literal that is written as a word. -/
lemma expressionAt_literal {v : Property} {k : Keyword} (hk : Keyword.ofWord? w = some k)
    (hnot : k ≠ .not) (hv : (Lexeme.word w).literal? = some (.ok v)) (hus : EndsOperand us) :
    expressionAt (fuel + 1) floor (⟨g, .word w⟩ :: us)
      = extendAt fuel floor (.ok (.literal v)) us := by
  refine expressionAt_of_atom ?_ rfl (callee?_of_word hus _ _) ?_
  · rw [keyword_word hk, if_neg hnot]
  · have hname : name (⟨g, .word w⟩ :: us) = none := by simp [name, Lexeme.name?, hk]
    rw [atom, hname]
    dsimp only
    rw [literal, hv]
    rfl

/-- An expression in parentheses of its own. -/
lemma expressionAt_parentheses
    (h : expressionAt fuel 0 ts = some (.ok e, ⟨[], .mark .closeParen⟩ :: us)) :
    expressionAt (fuel + 1) floor (⟨g, .mark .openParen⟩ :: ts)
      = extendAt fuel floor (.ok e) us := by
  have hnot : keyword .not (⟨g, .mark .openParen⟩ :: ts) = none := rfl
  rw [expressionAt, hnot, mark_cons]
  dsimp only
  rw [h]
  rfl

/-! ### Tests for null -/

lemma nullTest?_word (h : Keyword.ofWord? w ≠ some .is) (g : List Char) (us : List Token) :
    nullTest? (⟨g, .word w⟩ :: us) = none := by
  simp [nullTest?, keyword, Lexeme.keyword?, h]

lemma nullTest?_isNull (g g' : List Char) (us : List Token) :
    nullTest? (⟨g, .word "IS"⟩ :: ⟨g', .word "NULL"⟩ :: us) = some (.isNull, us) := by
  have his := keyword_letters (k := .is) (w := "IS") (by decide +kernel)
  have hnull := keyword_letters (k := .null) (w := "NULL") (by decide +kernel)
  simp [nullTest?, optionalKeyword, his, hnull]

/-- The longer of the tests for null is tried first. -/
lemma nullTest?_isNotNull (g g' g'' : List Char) (us : List Token) :
    nullTest? (⟨g, .word "IS"⟩ :: ⟨g', .word "NOT"⟩ :: ⟨g'', .word "NULL"⟩ :: us)
      = some (.isNotNull, us) := by
  have his := keyword_letters (k := .is) (w := "IS") (by decide +kernel)
  have hnot := keyword_letters (k := .not) (w := "NOT") (by decide +kernel)
  have hnull := keyword_letters (k := .null) (w := "NULL") (by decide +kernel)
  simp [nullTest?, optionalKeyword, his, hnot, hnull]

end Cypher

open Cypher

/-! ### Operators -/

namespace BinaryOp

lemma endsOperand_tokens (op : BinaryOp) (us : List Token) : EndsOperand (op.tokens ++ us) := by
  rcases op with (_ | _ | _ | _ | _ | _) | (_ | _ | _) | (_ | _ | _) <;> exact ⟨rfl, rfl⟩

/-- The tokens of an operator are read as the operator, with no fault. -/
lemma binaryOp?_tokens (op : BinaryOp) (us : List Token) :
    binaryOp? (op.tokens ++ us) = some (⟨op, none⟩, us) := by
  have hwith : Keyword.ofWord? "WITH" = some .withWord := by decide +kernel
  have hstarts : Keyword.ofWord? "STARTS" = some .starts := by decide +kernel
  have hends : Keyword.ofWord? "ENDS" = some .ends := by decide +kernel
  have hcontains : Keyword.ofWord? "CONTAINS" = some .contains := by decide +kernel
  have hand : Keyword.ofWord? "AND" = some .and := by decide +kernel
  have hor : Keyword.ofWord? "OR" = some .or := by decide +kernel
  have hxor : Keyword.ofWord? "XOR" = some .xor := by decide +kernel
  have hblank : isBlank ' ' := by decide
  rcases op with (_ | _ | _ | _ | _ | _) | (_ | _ | _) | (_ | _ | _) <;>
    simp [tokens, binaryOp?, Mark.comparison?, textTest?, hwith, hstarts, hends, hcontains, hand,
      hor, hxor, hblank]

/-- No operator of two operands is a test for null. -/
lemma nullTest?_tokens (op : BinaryOp) (us : List Token) : nullTest? (op.tokens ++ us) = none := by
  rcases op with (_ | _ | _ | _ | _ | _) | (_ | _ | _) | (_ | _ | _)
  case text.startsWith | text.endsWith | text.contains =>
    exact nullTest?_word (by decide +kernel) _ _
  case connective.and | connective.or | connective.xor =>
    exact nullTest?_word (by decide +kernel) _ _
  all_goals rfl

lemma level_pos (op : BinaryOp) : 0 < op.level := by
  rcases op with (_ | _ | _ | _ | _ | _) | (_ | _ | _) | (_ | _ | _) <;> decide

lemma length_tokens_pos (op : BinaryOp) : 0 < op.tokens.length := by
  rcases op with (_ | _ | _ | _ | _ | _) | (_ | _ | _) | (_ | _ | _) <;> decide

/-- Operators of two operands stand below the tests for null. -/
lemma level_lt_isNull (op : BinaryOp) : op.level < UnaryOp.isNull.level := by
  rcases op with (_ | _ | _ | _ | _ | _) | (_ | _ | _) | (_ | _ | _) <;> decide

/-- No operator of two operands has the level of negation. -/
lemma level_le_and {op : BinaryOp} (h : op.level ≤ UnaryOp.not.level) :
    op.level ≤ (BinaryOp.connective .and).level := by
  rcases op with (_ | _ | _ | _ | _ | _) | (_ | _ | _) | (_ | _ | _) <;> revert h <;> decide

end BinaryOp

namespace Cypher

variable {ts ls rs us : List Token} {e l r : Expr} {level floor : Nat}

/-! ### What continues an operand -/

/-- What cannot continue an operand of a level: neither a call nor a key, no test for null if the
level is below those, and no operator of a higher level. -/
structure Stops (level : Nat) (us : List Token) : Prop extends EndsOperand us where
  nullTest : level < UnaryOp.isNull.level → nullTest? us = none
  binaryOp : ∀ p, binaryOp? us = some p → p.1.op.level ≤ level

/-- What stops a climb stops it at any level above. -/
lemma Stops.mono (h : Stops level us) {level' : Nat} (hle : level ≤ level') : Stops level' us where
  toEndsOperand := h.toEndsOperand
  nullTest hlt := h.nullTest (hle.trans_lt hlt)
  binaryOp p hp := (h.binaryOp p hp).trans hle

lemma EndsExpression.stops (h : EndsExpression us) (level : Nat) : Stops level us where
  toEndsOperand := h.toEndsOperand
  nullTest _ := h.nullTest
  binaryOp p hp := by
    rw [h.binaryOp] at hp
    cases hp

/-- An operator stops an operand of its own level, or of a higher one. -/
lemma stops_tokens {op : BinaryOp} (h : op.level ≤ level) (us : List Token) :
    Stops level (op.tokens ++ us) where
  toEndsOperand := op.endsOperand_tokens us
  nullTest _ := op.nullTest?_tokens us
  binaryOp p hp := by
    rw [op.binaryOp?_tokens] at hp
    rwa [← Option.some.inj hp]

/-- A test for null stops no operand but those that are a test themselves, or bind tighter still. -/
lemma stops_is (h : UnaryOp.isNull.level ≤ level) (g : List Char) (us : List Token) :
    Stops level (⟨g, .word "IS"⟩ :: us) where
  toEndsOperand := endsOperand_word g "IS" us
  nullTest hlt := absurd h (Nat.not_le.2 hlt)
  binaryOp p hp := by
    have his : Keyword.ofWord? "IS" = some .is := ofWord?_of_letters (by decide +kernel)
    simp [binaryOp?, his] at hp

/-- What stops an operand ends the expression that is read at its level. -/
lemma Stops.extendAt (h : Stops level us) (hlevel : level < UnaryOp.isNull.level) (fuel : Nat)
    (left : Read Expr) :
    extendAt (fuel + 1) level left us = some (left, us) := by
  rw [Cypher.extendAt, h.nullTest hlevel]
  cases hop : binaryOp? us with
  | none => rfl
  | some p => simp [Nat.not_lt.2 (h.binaryOp p hop)]

/-- Some tokens are read as an operand, and what is behind them may continue it. Every step of the
recursion takes a token first, so there is fuel left for what is behind. -/
def Continues (floor : Nat) (ts us : List Token) (e : Expr) : Prop :=
  ∀ fuel, ts.length < fuel →
    ∃ k, fuel ≤ k + ts.length ∧ expressionAt fuel floor (ts ++ us) = extendAt k floor (.ok e) us

/-- An operand that is read in one step. -/
lemma Continues.of_step (hne : 0 < ts.length)
    (h : ∀ fuel, expressionAt (fuel + 1) floor (ts ++ us) = extendAt fuel floor (.ok e) us) :
    Continues floor ts us e := by
  intro fuel hfuel
  obtain ⟨k, rfl⟩ := Nat.exists_eq_add_of_lt hfuel
  exact ⟨ts.length + k, by omega, h _⟩

/-- In parentheses of its own an expression is read as a whole. -/
lemma Continues.parentheses (h : Continues 0 ts (⟨[], .mark .closeParen⟩ :: us) e) (g : List Char) :
    Continues floor (⟨g, .mark .openParen⟩ :: (ts ++ [⟨[], .mark .closeParen⟩])) us e := by
  intro fuel hfuel
  simp only [List.length_cons, List.length_append, List.length_nil] at hfuel
  obtain ⟨f, rfl⟩ : ∃ f, fuel = f + 1 := ⟨fuel - 1, by omega⟩
  obtain ⟨k, hk, hread⟩ := h f (by omega)
  obtain ⟨m, rfl⟩ : ∃ m, k = m + 1 := ⟨k - 1, by omega⟩
  refine ⟨f, by simp only [List.length_cons]; omega, ?_⟩
  rw [List.cons_append, List.append_assoc, List.singleton_append]
  apply expressionAt_parentheses
  rw [hread, (endsExpression_close [] us).extendAt]

/-- **An operator between two operands**: the one on the right is read at the level of the operator,
and ends in front of every operator that does not bind tighter. -/
lemma Continues.binary {op : BinaryOp} (hl : Continues floor ls (op.tokens ++ (rs ++ us)) l)
    (hr : Continues op.level rs us r) (hfloor : floor < op.level) (hus : Stops op.level us) :
    Continues floor (ls ++ (op.tokens ++ rs)) us (.binary op l r) := by
  intro fuel hfuel
  have hop := op.length_tokens_pos
  simp only [List.length_append] at hfuel ⊢
  -- what the left operand leaves of the fuel is enough for the operator and the right one
  obtain ⟨k, hk, hleft⟩ := hl fuel (by omega)
  obtain ⟨m, rfl⟩ : ∃ m, k = m + 1 := ⟨k - 1, by omega⟩
  obtain ⟨k', hk', hright⟩ := hr m (by omega)
  obtain ⟨m', rfl⟩ : ∃ m', k' = m' + 1 := ⟨k' - 1, by omega⟩
  have hsecond : expressionAt m op.level (rs ++ us) = some (.ok r, us) := by
    rw [hright, hus.extendAt op.level_lt_isNull]
  refine ⟨m, by omega, ?_⟩
  simp only [List.append_assoc]
  rw [hleft, extendAt, op.nullTest?_tokens, op.binaryOp?_tokens]
  simp only [hfloor, if_true, hsecond]
  rfl

/-- **A negation** takes in what binds tighter than a conjunction. -/
lemma Continues.not (h : Continues (BinaryOp.connective .and).level ts us e)
    (hus : Stops (BinaryOp.connective .and).level us) (g : List Char) :
    Continues floor (⟨g, .word "NOT"⟩ :: ts) us (.unary .not e) := by
  intro fuel hfuel
  simp only [List.length_cons] at hfuel ⊢
  obtain ⟨f, rfl⟩ : ∃ f, fuel = f + 1 := ⟨fuel - 1, by omega⟩
  obtain ⟨k, hk, hread⟩ := h f (by omega)
  obtain ⟨m, rfl⟩ : ∃ m, k = m + 1 := ⟨k - 1, by omega⟩
  have hoperand : expressionAt f (BinaryOp.connective .and).level (ts ++ us)
      = some (.ok e, us) := by
    rw [hread, hus.extendAt (BinaryOp.level_lt_isNull _)]
  refine ⟨f, by omega, ?_⟩
  rw [List.cons_append, expressionAt, keyword_letters (k := .not) (by decide +kernel),
    if_pos rfl]
  dsimp only
  rw [hoperand]
  rfl

/-- **A test for null** takes the operand in front of it alone. -/
lemma Continues.nullTest {op : UnaryOp} {ns : List Token} (h : Continues floor ts (ns ++ us) e)
    (hne : 0 < ns.length)
    (hnull : nullTest? (ns ++ us) = some (op, us)) :
    Continues floor (ts ++ ns) us (.unary op e) := by
  intro fuel hfuel
  simp only [List.length_append] at hfuel ⊢
  obtain ⟨k, hk, hread⟩ := h fuel (by omega)
  obtain ⟨m, rfl⟩ : ∃ m, k = m + 1 := ⟨k - 1, by omega⟩
  refine ⟨m, by omega, ?_⟩
  rw [List.append_assoc, hread, extendAt, hnull]
  rfl

lemma Continues.isNull (g g' : List Char)
    (h : Continues floor ts (⟨g, .word "IS"⟩ :: ⟨g', .word "NULL"⟩ :: us) e) :
    Continues floor (ts ++ [⟨g, .word "IS"⟩, ⟨g', .word "NULL"⟩]) us (.unary .isNull e) :=
  .nullTest h (Nat.succ_pos _) (nullTest?_isNull g g' us)

lemma Continues.isNotNull (g g' g'' : List Char)
    (h : Continues floor ts (⟨g, .word "IS"⟩ :: ⟨g', .word "NOT"⟩ :: ⟨g'', .word "NULL"⟩ :: us) e) :
    Continues floor (ts ++ [⟨g, .word "IS"⟩, ⟨g', .word "NOT"⟩, ⟨g'', .word "NULL"⟩]) us
      (.unary .isNotNull e) :=
  .nullTest h (Nat.succ_pos _) (nullTest?_isNotNull g g' g'' us)

/-- An operand that nothing continues is an expression. -/
lemma Continues.expression (h : Continues 0 ts us e) (hus : EndsExpression us) :
    expression (ts ++ us) = some (.ok e, us) := by
  obtain ⟨k, hk, hread⟩ := h ((ts ++ us).length + 1) (by rw [List.length_append]; omega)
  rw [List.length_append] at hk
  obtain ⟨m, rfl⟩ : ∃ m, k = m + 1 := ⟨k - 1, by omega⟩
  rw [Cypher.expression, hread, hus.extendAt]

end Cypher
end CodeGraph
