import CodeGraph.Proofs.Cypher.RoundTrip

/-!
Operators bind by their levels.

An expression can be written with parentheses only where the levels of its operators call for them.
It is read back all the same: what follows an operand cannot continue it, because the operator in
front of it binds tighter, or because no operator follows. So operators of two operands associate to
the left, a negation extends over comparisons but not over conjunctions, and tests for null bind
tightest.

* `Expr.level`, `Expr.sparseText`: levels, and the texts with the fewest parentheses.
* `Expr.reads_sparseText`: the tokens of such a text.
* `Expr.continues_sparseTokens`: every plain expression is read back.
* `Query.ofText_sparseText`: and so is the query that it filters.
-/

namespace CodeGraph

open Cypher

variable {g rest : List Char}

/-! ### The fewest parentheses -/

/-- A text in parentheses, if it needs them. -/
def enclose (needed : Bool) (text : String) : String := if needed then "(" ++ text ++ ")" else text

namespace Expr

/-- The level of the outermost operator. What has none binds tighter than all operators. -/
def level : Expr → Nat
  | binary op _ _ => op.level
  | unary op _ => op.level
  | property _ _ | literal _ | var _ | call _ _ => 7

/-- An expression with parentheses only around operands that would be read otherwise: on the left
those of a lower level than the operator has, on the right those of its own level as well. -/
def sparseText : Expr → String
  | property name key => name ++ "." ++ key
  | literal value => value.display
  | var name => name
  | binary op left right => enclose (left.level < op.level) left.sparseText ++ " " ++ op.name ++ " "
      ++ enclose (right.level ≤ op.level) right.sparseText
  | unary .not operand => "NOT " ++ enclose (operand.level < UnaryOp.not.level) operand.sparseText
  | unary op operand => enclose (operand.level < op.level) operand.sparseText ++ " " ++ op.name
  | call function arguments => text (call function arguments)

/-- The tokens of an operand, with a gap in front of the first of them. -/
def encloseTokens (needed : Bool) (tokens : List Char → List Token) (g : List Char) : List Token :=
  if needed then ⟨g, .mark .openParen⟩ :: (tokens [] ++ [⟨[], .mark .closeParen⟩]) else tokens g

/-- The tokens of an expression that is written so, with a gap in front of the first of them. -/
def sparseTokens : Expr → List Char → List Token
  | binary op left right, g => encloseTokens (left.level < op.level) left.sparseTokens g
      ++ (op.tokens ++ encloseTokens (right.level ≤ op.level) right.sparseTokens [' '])
  | unary .not operand, g =>
      ⟨g, .word "NOT"⟩
        :: encloseTokens (operand.level < UnaryOp.not.level) operand.sparseTokens [' ']
  | unary .isNull operand, g =>
      encloseTokens (operand.level < UnaryOp.isNull.level) operand.sparseTokens g
      ++ [⟨[' '], .word "IS"⟩, ⟨[' '], .word "NULL"⟩]
  | unary .isNotNull operand, g =>
      encloseTokens (operand.level < UnaryOp.isNotNull.level) operand.sparseTokens g
      ++ [⟨[' '], .word "IS"⟩, ⟨[' '], .word "NOT"⟩, ⟨[' '], .word "NULL"⟩]
  | e, g => e.tokens g

lemma reads_enclose {text : String} {tokens : List Char → List Token} (needed : Bool)
    (h : ∀ {g rest}, Gap g → EndsNumber rest → Reads (g ++ (text.toList ++ rest)) (tokens g) rest)
    (hg : Gap g)
    (hrest : EndsNumber rest) :
    Reads (g ++ ((enclose needed text).toList ++ rest)) (encloseTokens needed tokens g) rest := by
  cases needed with
  | false => exact h hg hrest
  | true =>
      have hclose : Reads (')' :: rest) [⟨[], .mark .closeParen⟩] rest :=
        .mark .nil (lexeme?_mark (m := .closeParen) rfl (by decide) rest) .done
      have hopen := Reads.mark hg (lexeme?_mark (m := .openParen) rfl (by decide) _)
        ((h .nil (endsNumber_close rest)).trans hclose)
      simpa [enclose, encloseTokens] using hopen

/-- **The tokens of a text with the fewest parentheses** are those of its parts. -/
lemma reads_sparseText {e : Expr} (he : e.isPlain) (hg : Gap g) (hrest : EndsNumber rest) :
    Reads (g ++ (e.sparseText.toList ++ rest)) (e.sparseTokens g) rest := by
  induction e, he using Expr.isPlain_induction generalizing g rest with
  | property name key hname hkey =>
      exact reads_text (e := .property name key) (Bool.and_eq_true_iff.2 ⟨hname, hkey⟩) hg hrest
  | integer value => exact reads_text (e := .literal (.integer value)) rfl hg hrest
  | boolean value => exact reads_text (e := .literal (.boolean value)) rfl hg hrest
  | null => exact reads_text (e := .literal .null) rfl hg hrest
  | var name hname => exact reads_text (e := .var name) hname hg hrest
  | binary op left right _ _ ihl ihr =>
      have hright := reads_enclose (right.level ≤ op.level) ihr gap_blank hrest
      have hall := (reads_enclose (left.level < op.level) ihl hg (endsNumber_blank _)).trans
        ((op.reads_name _).trans hright)
      simpa [sparseText, sparseTokens] using hall
  | unary op operand _ ih =>
      cases op with
      | not =>
          have hoperand := reads_enclose (operand.level < UnaryOp.not.level) ih gap_blank hrest
          have hnot := Reads.cons (w := ['N', 'O', 'T']) hg rfl hoperand
          simpa [sparseText, sparseTokens] using hnot
      | isNull =>
          have hall :=
            (reads_enclose (operand.level < UnaryOp.isNull.level) ih hg (endsNumber_blank _)).trans
            (reads_isNull hrest.endsWord)
          simpa [sparseText, sparseTokens, UnaryOp.name] using hall
      | isNotNull =>
          have hall := (reads_enclose (operand.level < UnaryOp.isNotNull.level) ih hg
            (endsNumber_blank _)).trans (reads_isNotNull hrest.endsWord)
          simpa [sparseText, sparseTokens, UnaryOp.name] using hall

end Expr

/-! ### Reading with the fewest parentheses -/

lemma Expr.level_pos (e : Expr) : 0 < e.level := by
  cases e with
  | binary op => exact op.level_pos
  | unary op => cases op <;> exact Nat.succ_pos _
  | _ => exact Nat.succ_pos _

namespace Expr

variable {us : List Token} {floor : Nat}

/-- An operand is read, whether in parentheses or because it binds tighter than what is around it.
-/
lemma continues_encloseTokens {e : Expr} {needed : Bool}
    (ih : ∀ {g us floor}, floor < e.level → Stops e.level us →
      Continues floor (e.sparseTokens g) us e)
    (h : needed = false → floor < e.level ∧ Stops e.level us) (g : List Char) :
    Continues floor (encloseTokens needed e.sparseTokens g) us e := by
  cases needed with
  | false => exact ih (h rfl).1 (h rfl).2
  | true =>
      have hinner := ih (g := []) e.level_pos ((endsExpression_close [] us).stops e.level)
      exact hinner.parentheses g

/-- **A plain expression with the fewest parentheses** is read back, in front of what does not bind
tighter. -/
lemma continues_sparseTokens {e : Expr} (he : e.isPlain) (hfloor : floor < e.level)
    (hus : Stops e.level us) :
    Continues floor (e.sparseTokens g) us e := by
  induction e, he using Expr.isPlain_induction generalizing g us floor with
  -- without an operator there is no operand to put in parentheses
  | property name key hname hkey =>
      exact continues_tokens (e := .property name key) (Bool.and_eq_true_iff.2 ⟨hname, hkey⟩)
        hus.toEndsOperand
  | integer value => exact continues_tokens (e := .literal (.integer value)) rfl hus.toEndsOperand
  | boolean value => exact continues_tokens (e := .literal (.boolean value)) rfl hus.toEndsOperand
  | null => exact continues_tokens (e := .literal .null) rfl hus.toEndsOperand
  | var name hname => exact continues_tokens (e := .var name) hname hus.toEndsOperand
  | binary op left right _ _ ihl ihr =>
      have hright :
          Continues op.level (encloseTokens (right.level ≤ op.level) right.sparseTokens [' '])
          us right := by
        refine continues_encloseTokens ihr (fun hbare => ?_) [' ']
        have hlt : op.level < right.level := Nat.lt_of_not_le (of_decide_eq_false hbare)
        exact ⟨hlt, hus.mono hlt.le⟩
      refine Continues.binary (continues_encloseTokens ihl (fun hbare => ?_) g) hright hfloor hus
      have hle : op.level ≤ left.level := Nat.le_of_not_lt (of_decide_eq_false hbare)
      exact ⟨hfloor.trans_le hle, stops_tokens hle _⟩
  | unary op operand _ ih =>
      have hbare : ∀ {level : Nat}, decide (operand.level < level) = false →
          level ≤ operand.level :=
        fun h => Nat.le_of_not_lt (of_decide_eq_false h)
      cases op with
      | not =>
          have hlevel : UnaryOp.not.level < UnaryOp.isNull.level := by decide
          have hand : Stops (BinaryOp.connective .and).level us :=
            ⟨hus.toEndsOperand, fun _ => hus.nullTest hlevel, fun p hp =>
              BinaryOp.level_le_and (hus.binaryOp p hp)⟩
          refine Continues.not (continues_encloseTokens ih (fun h => ?_) [' ']) hand g
          exact ⟨Nat.lt_of_lt_of_le (by decide) (hbare h), hus.mono (hbare h)⟩
      | isNull =>
          refine Continues.isNull _ _ (continues_encloseTokens ih (fun h => ?_) g)
          exact ⟨hfloor.trans_le (hbare h), stops_is (hbare h) _ _⟩
      | isNotNull =>
          refine Continues.isNotNull _ _ _ (continues_encloseTokens ih (fun h => ?_) g)
          exact ⟨hfloor.trans_le (hbare h), stops_is (hbare h) _ _⟩

lemma expression_sparseTokens {e : Expr} (he : e.isPlain) (hus : EndsExpression us) :
    expression (e.sparseTokens g ++ us) = some (.ok e, us) :=
  (continues_sparseTokens he e.level_pos (hus.stops e.level)).expression hus

end Expr

/-! ### Queries -/

/-- **Operators bind by their levels.** A plain expression that is written with parentheses only
where the levels of its operators call for them is read back as it was. Disjunctions bind weakest,
then come exclusive disjunctions, conjunctions and negations, then comparisons and text tests
alike, and tests for null bind tightest. -/
theorem Query.ofText_sparseText {e : Expr} (he : e.isPlain) :
    Query.ofText ("MATCH (n) WHERE " ++ e.sparseText ++ " RETURN n")
      = .ok (Query.matching { start := { name := some "n" } } (some e) "n")
    ∧ ∀ (c : Comparison) (t : TextTest),
      [(BinaryOp.connective .or).level, (BinaryOp.connective .xor).level,
        (BinaryOp.connective .and).level, UnaryOp.not.level, (BinaryOp.comparison c).level,
        UnaryOp.isNull.level].IsChain (· < ·)
      ∧ (BinaryOp.text t).level = (BinaryOp.comparison c).level
      ∧ UnaryOp.isNotNull.level = UnaryOp.isNull.level := by
  refine ⟨?_, fun c t => ⟨by simp [BinaryOp.level, UnaryOp.level], rfl, rfl⟩⟩
  have hfilter : ∀ rest, Reads ((" WHERE " ++ e.sparseText).toList ++ ' ' :: rest)
      (⟨[' '], .word "WHERE"⟩ :: e.sparseTokens [' ']) (' ' :: rest) := by
    intro rest
    have hwhere := Reads.blank (w := ['W', 'H', 'E', 'R', 'E']) rfl
      (e.reads_sparseText he gap_blank (endsNumber_blank rest))
    simpa using hwhere
  have hpath : PathPattern.isPlain { start := { name := some "n" } } := by decide +kernel
  have hname : isVariable "n" := by decide +kernel
  have htokens := ofText?_framedText (fun _ => ⟨false, false⟩) hpath hfilter hname none
  have htext : "MATCH (n) WHERE " ++ e.sparseText ++ " RETURN n"
      = "MATCH " ++ PathPattern.text (fun _ => ⟨false, false⟩) { start := { name := some "n" } }
        ++ (" WHERE " ++ e.sparseText) ++ " RETURN " ++ "n" ++ limitText none := by
    apply String.toList_inj.1
    simp [PathPattern.text, NodePattern.text, PathPattern.segmentsText, limitText]
  have hlimit : ∀ k ∈ (none : Option Nat), (k : Int) ≤ Int64.maxValue.toInt :=
    fun k hk => absurd hk (Option.not_mem_none k)
  have hread := queryOfTokens?_framedTokens (fun _ => ⟨false, false⟩) hpath
    (ReadsAsFilter.some fun us hus => e.expression_sparseTokens (g := [' ']) he hus) hname hlimit
  rw [Query.ofText, htext, htokens, Option.bind_some, hread]
  rfl

/-- Comparisons in a row, a negation of them, a text test that is compared, tests for null in a row,
and the two places where an operand needs its parentheses: a disjunction in a conjunction, and a
negation behind a comparison. -/
theorem Query.ofText_sparseText_of_mixture :
    let equal : Expr → Expr → Expr := .binary (.comparison .eq)
    let left : Expr := .unary .not (equal
      (.binary (.comparison .lt) (.property "n" "line") (.literal (.integer 5)))
      (.literal (.boolean true)))
    let starts : Expr := equal
      (.binary (.text .startsWith) (.property "n" "a") (.property "n" "b"))
      (.literal (.boolean true))
    let middle : Expr := .binary (.connective .and)
      (.unary .isNull (.unary .isNotNull (.property "n" "name")))
      (.binary (.connective .or) starts (.unary .not (.var "n")))
    let right : Expr := equal (.literal (.integer (-1))) (.unary .not (.property "n" "c"))
    let e : Expr := .binary (.connective .or) left (.binary (.connective .xor) middle right)
    e.isPlain
      ∧ Query.ofText ("MATCH (n) WHERE NOT n.line < 5 = true OR n.name IS NOT NULL IS NULL"
          ++ " AND (n.a STARTS WITH n.b = true OR NOT n) XOR -1 = (NOT n.c) RETURN n")
        = .ok (Query.matching { start := { name := some "n" } } (some e) "n") := by
  intro equal left starts middle right e
  have he : e.isPlain := by decide +kernel
  have htext : "MATCH (n) WHERE " ++ e.sparseText ++ " RETURN n"
      = "MATCH (n) WHERE NOT n.line < 5 = true OR n.name IS NOT NULL IS NULL"
        ++ " AND (n.a STARTS WITH n.b = true OR NOT n) XOR -1 = (NOT n.c) RETURN n" := by
    decide +kernel
  rw [← htext]
  exact ⟨he, (Query.ofText_sparseText he).1⟩

end CodeGraph
