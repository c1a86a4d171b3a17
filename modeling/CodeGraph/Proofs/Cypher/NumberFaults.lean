import CodeGraph.Proofs.Cypher.PairedClauses
import CodeGraph.Proofs.Cypher.TakenClauses

/-!
A number out of its range is the only fault of an accepted text.

An integer has 64 bits wherever it stands, and as a count of rows or as an exact length of a path it
is not negative. The bounds of a range of lengths have 64 bits without a sign. Nothing else can be
wrong with a text that the grammar accepts, unless there is a comment between the two words of a
text test; and of several numbers out of range the first is reported.

* `Lexeme.OutOfRange`, `HasNumberOutOfRange`: the numbers of a text that are out of their ranges.
* `Lexeme.fault?_ne_none_iff`, `firstFault?_ne_none_iff`: they are the ones at fault.
* `Query.ofText_fault_iff`: when an accepted text is at fault, and which fault it is.
-/

namespace CodeGraph
namespace Cypher

/-! ### Ranges -/

/-- The number that an integer spells. -/
def integerValue (negative : Bool) (digits : List Char) : Int :=
  if negative then -(natOfDigits digits : Int) else natOfDigits digits

/-- What stands in front of a number that must not be negative: a star, or the keyword of a clause
that counts rows. -/
def Lexeme.counts (l : Lexeme) : Bool :=
  l == .mark .star || l.keyword? == some .skip || l.keyword? == some .limit

/-- A number that is out of its range, behind another lexeme. -/
def Lexeme.OutOfRange (previous : Option Lexeme) : Lexeme → Prop
  | .integer negative digits =>
      integerValue negative digits < -2 ^ 63 ∨ 2 ^ 63 ≤ integerValue negative digits
      ∨ integerValue negative digits < 0 ∧ previous.any Lexeme.counts
  | .range low high => 2 ^ 64 ≤ natOfDigits low ∨ 2 ^ 64 ≤ natOfDigits high
  | _ => False

/-- Some number among the tokens is out of its range. -/
def HasNumberOutOfRange (ts : List Token) : Prop :=
  ∃ before t after, ts = before ++ t :: after
    ∧ t.lexeme.OutOfRange (before.getLast?.map Token.lexeme)

/-! ### Reading numbers -/

variable {β : Type} {negative : Bool} {digits : List Char} {ts : List Token}

lemma readInteger_eq (negative : Bool) (digits : List Char) : readInteger negative digits
    = if -2 ^ 63 ≤ integerValue negative digits ∧ integerValue negative digits ≤ 2 ^ 63 - 1
      then .ok (.ofInt (integerValue negative digits))
      else .error (.integerOutOfRange (integerText negative digits)) := rfl

/-- An integer is at fault if it does not have 64 bits. -/
lemma faultOf_readInteger (negative : Bool) (digits : List Char) :
    faultOf (readInteger negative digits) ≠ none ↔
    integerValue negative digits < -2 ^ 63 ∨ 2 ^ 63 ≤ integerValue negative digits := by
  rw [readInteger_eq]
  by_cases h : -2 ^ 63 ≤ integerValue negative digits ∧ integerValue negative digits ≤ 2 ^ 63 - 1
  · rw [if_pos h]
    exact iff_of_false (fun hnone => hnone rfl) (by omega)
  · rw [if_neg h]
    exact iff_of_true (Option.some_ne_none _) (by omega)

lemma toInt_of_readInteger {v : Int64} (h : readInteger negative digits = .ok v) :
    v.toInt = integerValue negative digits := by
  rw [readInteger_eq] at h
  by_cases hmem : -2 ^ 63 ≤ integerValue negative digits ∧ integerValue negative digits ≤ 2 ^ 63 - 1
  · rw [if_pos hmem] at h
    rw [← Except.ok.inj h]
    exact Int64.toInt_ofInt_of_le hmem.1 (Int.lt_of_le_sub_one hmem.2)
  · rw [if_neg hmem] at h
    cases h

/-- An integer that must not be negative is at fault if it is, or if it does not have 64 bits. -/
lemma faultOf_readInteger_bind (negative : Bool) (digits : List Char) (e : Int64 → Fault)
    (k : Int64 → β) :
    faultOf (readInteger negative digits >>= fun v => if v.toInt < 0 then .error (e v)
      else .ok (k v)) ≠ none ↔
      integerValue negative digits < -2 ^ 63 ∨ 2 ^ 63 ≤ integerValue negative digits
        ∨ integerValue negative digits < 0 := by
  have hinteger := faultOf_readInteger negative digits
  cases h : readInteger negative digits with
  | error f =>
      rw [h] at hinteger
      have hout := hinteger.1 (Option.some_ne_none f)
      exact iff_of_true (Option.some_ne_none f) (hout.imp_right .inl)
  | ok v =>
      rw [h] at hinteger
      have hvalue := toInt_of_readInteger h
      have hmem : ¬ (integerValue negative digits < -2 ^ 63
          ∨ 2 ^ 63 ≤ integerValue negative digits) :=
        fun hout => hinteger.2 hout rfl
      change faultOf (if v.toInt < 0 then _ else _) ≠ none ↔ _
      rw [hvalue]
      split_ifs with hneg
      · exact iff_of_true (Option.some_ne_none _) (.inr (.inr hneg))
      · exact iff_of_false (fun h => h rfl) (by tauto)

/-- A bound of a range of lengths is at fault if it does not have 64 bits. -/
lemma faultOf_readBound (digits : List Char) :
    faultOf (readBound digits) ≠ none ↔ 2 ^ 64 ≤ natOfDigits digits := by
  have hpow : Nat.pow 2 64 = 2 ^ 64 := rfl
  rw [readBound, hpow]
  split_ifs with hempty hlt
  · rw [List.isEmpty_iff.1 hempty]
    exact iff_of_false (fun h => h rfl) (by decide)
  · exact iff_of_false (fun h => h rfl) (Nat.not_le.2 hlt)
  · exact iff_of_true (Option.some_ne_none _) (Nat.le_of_not_lt hlt)

/-! ### The numbers at fault -/

lemma or_ne_none_iff {α : Type} {o o' : Option α} : o.or o' ≠ none ↔ o ≠ none ∨ o' ≠ none := by
  rw [ne_eq, Option.or_eq_none_iff, not_and_or]

namespace Lexeme

variable {previous : Option Lexeme}

/-- Behind a star, or behind the keyword of a clause that counts rows, an integer must not be
negative. -/
lemma exists_fault?_of_counts (h : previous.any counts) (negative : Bool) (digits : List Char) :
    ∃ e : Int64 → Fault, (integer negative digits).fault? previous
      = faultOf (readInteger negative digits >>= fun v =>
      if v.toInt < 0 then .error (e v) else .ok v.toInt.toNat) := by
  rw [fault?]
  split_ifs with hstar
  · exact ⟨_, rfl⟩
  · split
    · exact ⟨_, rfl⟩
    · exact ⟨_, rfl⟩
    · cases previous with
      | none => cases h
      | some l => simp_all [counts]

lemma fault?_of_counts_eq_false (h : previous.any counts = false) (negative : Bool)
    (digits : List Char) :
    (integer negative digits).fault? previous = faultOf (readInteger negative digits) := by
  cases previous with
  | none => rfl
  | some l =>
      simp only [Option.any_some, counts, Bool.or_eq_false_iff, beq_eq_false_iff_ne] at h
      exact Frees.fault?_eq ⟨h.1.1, h.1.2, h.2⟩ _

/-- **The numbers at fault** are those out of their ranges. -/
lemma fault?_ne_none_iff (l : Lexeme) (previous : Option Lexeme) :
    l.fault? previous ≠ none ↔ l.OutOfRange previous := by
  cases l with
  | integer negative digits =>
      rw [OutOfRange]
      cases hcounts : previous.any counts with
      | true =>
          obtain ⟨e, he⟩ := exists_fault?_of_counts hcounts negative digits
          rw [he, faultOf_readInteger_bind]
          simp
      | false =>
          rw [fault?_of_counts_eq_false hcounts, faultOf_readInteger]
          simp
  | range low high =>
      exact or_ne_none_iff.trans (or_congr (faultOf_readBound low) (faultOf_readBound high))
  | _ => exact iff_of_false (fun h => h rfl) id

end Lexeme

/-- The first fault is that of a number out of its range. -/
lemma firstFault?_ne_none_iff (previous : Option Lexeme) : firstFault? previous ts ≠ none ↔
    ∃ before t after, ts = before ++ t :: after
      ∧ t.lexeme.OutOfRange ((before.getLast?.map Token.lexeme).or previous) := by
  induction ts generalizing previous with
  | nil => simp [firstFault?]
  | cons u ts ih =>
      rw [firstFault?, or_ne_none_iff, u.lexeme.fault?_ne_none_iff, ih]
      constructor
      · rintro (hu | ⟨before, t, after, rfl, ht⟩)
        · exact ⟨[], u, ts, rfl, hu⟩
        · refine ⟨u :: before, t, after, rfl, ?_⟩
          rw [List.getLast?_cons]
          cases hlast : before.getLast? <;> simpa [hlast] using ht
      · rintro ⟨_ | ⟨b, before⟩, t, after, heq, ht⟩
        · obtain ⟨rfl, rfl⟩ := List.cons.inj heq
          exact .inl ht
        · obtain ⟨rfl, rfl⟩ := List.cons.inj heq
          refine .inr ⟨before, t, after, rfl, ?_⟩
          rw [List.getLast?_cons] at ht
          cases hlast : before.getLast? <;> simpa [hlast] using ht

/-- **A text has a number out of its range** exactly if it has a first fault. -/
lemma hasNumberOutOfRange_iff : HasNumberOutOfRange ts ↔ firstFault? none ts ≠ none := by
  rw [firstFault?_ne_none_iff]
  simp [HasNumberOutOfRange]

/-- Whether a number is out of its range can be computed. -/
instance : Decidable (HasNumberOutOfRange ts) := decidable_of_iff _ hasNumberOutOfRange_iff.symm

/-- The faults of numbers. -/
def Fault.isOfNumber : Fault → Bool
  | integerOutOfRange _ | negativeCount _ _ | invalidLength _ => true
  | _ => false

/-- Whatever fault two parts have, it is that of a number. -/
lemma isOfNumber_bind {α : Type} {r : Read α} {k : α → Read β} (h : ∀ f ∈ faultOf r, f.isOfNumber)
    (hk : ∀ a, ∀ f ∈ faultOf (k a), f.isOfNumber) : ∀ f ∈ faultOf (r >>= k), f.isOfNumber := by
  cases r with
  | error e => exact h
  | ok a => exact hk a

lemma isOfNumber_ite {α : Type} {c : Prop} [Decidable c] {r r' : Read α}
    (h : ∀ f ∈ faultOf r, f.isOfNumber) (h' : ∀ f ∈ faultOf r', f.isOfNumber) :
    ∀ f ∈ faultOf (if c then r else r'), f.isOfNumber := by
  split_ifs
  · exact h
  · exact h'

lemma isOfNumber_ok {α : Type} (a : α) : ∀ f ∈ faultOf (.ok a : Read α), f.isOfNumber := by
  simp [faultOf]

lemma isOfNumber_error {α : Type} {e : Fault} (h : e.isOfNumber) :
    ∀ f ∈ faultOf (.error e : Read α), f.isOfNumber := by
  rintro f ⟨⟩
  exact h

/-- The fault of a lexeme is that of a number. -/
lemma Lexeme.isOfNumber_of_fault? (l : Lexeme) (previous : Option Lexeme) :
    ∀ f ∈ l.fault? previous, f.isOfNumber := by
  cases l with
  | integer negative digits =>
      have hinteger : ∀ f ∈ faultOf (readInteger negative digits), f.isOfNumber := by
        rw [readInteger_eq]
        exact isOfNumber_ite (isOfNumber_ok _) (isOfNumber_error rfl)
      have hcount : ∀ clause, ∀ f ∈ faultOf (readCount clause negative digits), f.isOfNumber :=
        fun clause => isOfNumber_bind hinteger fun v =>
          isOfNumber_ite (isOfNumber_error rfl) (isOfNumber_ok _)
      rw [fault?]
      split_ifs
      · exact isOfNumber_bind hinteger fun v =>
          isOfNumber_ite (isOfNumber_error rfl) (isOfNumber_ok _)
      · split
        · exact hcount _
        · exact hcount _
        · exact hinteger
  | range low high =>
      have hbound : ∀ digits, ∀ f ∈ faultOf (readBound digits), f.isOfNumber := fun digits =>
        isOfNumber_ite (isOfNumber_ok _) (isOfNumber_ite (isOfNumber_ok _) (isOfNumber_error rfl))
      intro f hf
      rcases Option.or_eq_some_iff.1 hf with hf | ⟨-, hf⟩
      · exact hbound low f hf
      · exact hbound high f hf
  | _ => exact fun f hf => absurd hf (Option.some_ne_none f).symm

lemma isOfNumber_of_firstFault? (previous : Option Lexeme) (ts : List Token) :
    ∀ f ∈ firstFault? previous ts, f.isOfNumber := by
  induction ts generalizing previous with
  | nil => exact fun f hf => absurd hf (Option.some_ne_none f).symm
  | cons t ts ih =>
      intro f hf
      rcases Option.or_eq_some_iff.1 hf with hf | ⟨-, hf⟩
      · exact t.lexeme.isOfNumber_of_fault? previous f hf
      · exact ih _ f hf

/-- What the tokens of a text are read as is what is built of its tree. -/
lemma queryOfTokens?_of_tree {text : String} {tree : List Pair} (htree : treeOf? text = some tree)
    (htokens : Token.ofText? text.toList = some ts) :
    queryOfTokens? ts = some (Query.ofTree tree) := by
  obtain ⟨⟨tree', rest⟩, hquery, rfl⟩ := Option.map_eq_some_iff.1 htree
  obtain ⟨pieces, hpieces, hquery⟩ := Option.bind_eq_some_iff.1 hquery
  rw [← Piece.map_ofText?, hpieces, Option.map_some] at htokens
  obtain rfl := Option.some.inj htokens
  rcases query_pairs (isCut_of_ofText? hpieces) with ⟨tree, rest', hpart, hread⟩ | ⟨-, hpart⟩
  · rw [hquery] at hpart
    cases hpart
    exact hread
  · rw [hquery] at hpart
    cases hpart

end Cypher

open Cypher

/-- **A number out of its range is the only fault of an accepted text.** Take the tree that the
grammar makes of a text, with no comment between its tokens. If a number of the text is out of its
range, there is a fault in building the query of the tree, and otherwise there is none. It is the
fault of the first such number. No other fault that a builder may have is met: none of its pairs is
missing or unexpected, at any depth of the tree. -/
theorem Query.ofText_fault_iff {text : String} {tree : List Pair} {ts : List Token}
    (htree : treeOf? text = some tree) (htokens : Token.ofText? text.toList = some ts)
    (hblank : ∀ t ∈ ts, t.gap.all isBlank) :
    Query.ofText text = (Query.ofTree tree).mapError .fault
      ∧ ((∃ f, Query.ofTree tree = .error f) ↔ HasNumberOutOfRange ts)
      ∧ ((∃ q, Query.ofTree tree = .ok q) ↔ ¬ HasNumberOutOfRange ts)
      ∧ (∀ f, Query.ofTree tree = .error f ↔ firstFault? none ts = some f)
      ∧ ∀ f, Query.ofTree tree = .error f → (∃ number, f = .integerOutOfRange number)
        ∨ (∃ clause value, f = .negativeCount clause value)
        ∨ ∃ number, f = .invalidLength number := by
  have hfirst : firstFault? none ts = faultOf (Query.ofTree tree) :=
    (account_of_queryOfTokens? (queryOfTokens?_of_tree htree htokens)).first hblank
  have hnumber := isOfNumber_of_firstFault? none ts
  refine ⟨by rw [Query.ofText_eq_ofTree, htree], ?_⟩
  rw [hasNumberOutOfRange_iff, hfirst]
  rw [hfirst] at hnumber
  cases hquery : Query.ofTree tree with
  | error f =>
      rw [hquery] at hnumber
      refine ⟨by simp [faultOf], by simp [faultOf], by simp [faultOf], ?_⟩
      rintro f ⟨⟩
      have hf := hnumber f rfl
      cases f with
      | integerOutOfRange number => exact .inl ⟨number, rfl⟩
      | negativeCount clause value => exact .inr (.inl ⟨clause, value, rfl⟩)
      | invalidLength number => exact .inr (.inr ⟨number, rfl⟩)
      | _ => cases hf
  | ok q => simp [faultOf]

/-- The bound of a range of lengths is the first number out of range, before the negative limit; and
a query with the least integer of all, and with a zero that has a sign. -/
theorem Query.ofText_fault_iff_of_numbers :
    Query.ofText "MATCH (n)-[*1..18446744073709551616]->(m) RETURN n SKIP -0 LIMIT -1"
        = .error (.fault (.invalidLength "18446744073709551616"))
      ∧ ∃ q, Query.ofText ("MATCH (n)-[*..18446744073709551615]->(m)"
        ++ " WHERE n.line = -9223372036854775808 RETURN n SKIP -0 LIMIT 1") = .ok q := by
  have htree : ∀ text : String, (treeOf? text).isSome →
      treeOf? text = some ((treeOf? text).getD []) := by
    intro text h
    obtain ⟨tree, htree⟩ := Option.isSome_iff_exists.1 h
    rw [htree]
    rfl
  have htokens : ∀ text : String, (Token.ofText? text.toList).isSome →
      Token.ofText? text.toList = some ((Token.ofText? text.toList).getD []) := by
    intro text h
    obtain ⟨ts, hts⟩ := Option.isSome_iff_exists.1 h
    rw [hts]
    rfl
  constructor
  · obtain ⟨htext, -, -, hfirst, -⟩ := Query.ofText_fault_iff
      (htree "MATCH (n)-[*1..18446744073709551616]->(m) RETURN n SKIP -0 LIMIT -1"
        (by decide +kernel))
      (htokens _ (by decide +kernel)) (by decide +kernel)
    rw [htext, (hfirst (.invalidLength "18446744073709551616")).2 (by decide +kernel)]
    rfl
  · obtain ⟨htext, -, hquery, -, -⟩ := Query.ofText_fault_iff
      (htree ("MATCH (n)-[*..18446744073709551615]->(m)"
        ++ " WHERE n.line = -9223372036854775808 RETURN n SKIP -0 LIMIT 1") (by decide +kernel))
      (htokens _ (by decide +kernel)) (by decide +kernel)
    obtain ⟨q, hq⟩ := hquery.2 (by decide +kernel)
    exact ⟨q, by rw [htext, hq]; rfl⟩

end CodeGraph
