import CodeGraph.Proofs.Cypher.Leaves

/-!
Expressions: the row of the tree beside the climb of the reader.

In the tree an expression is a row of operands and operators, and which operands an operator takes
is settled when the row is built. The reader settles it while it reads: it climbs from level to
level, and starts a climb of its own for each right operand. Both agree, since behind the pairs of a
climb there stands either the end of the row or an operator that binds no tighter than the climb.

* `operandsTo`, `operandsAfter`: a row, and what may follow an operand in it.
* `propertyAccess_cases`, `callee?_cases`: names in front of dots and parentheses.
* `Climbs`, `ClimbsAlike`: what a climb takes off a row. `climbsAlike`: all climbs do.
* `expression_pairs`: expressions.
-/

namespace CodeGraph.Cypher

open Cypher.Part Grammar

variable {ts us rest : List Piece} {xs ys : List Pair} {d : Nat}

/-! ### Rows -/

/-- A row of operands and operators, with parentheses up to a depth. -/
def operandsTo (d : Nat) : Part := operands (expressionTo d)

/-- What may follow an operand in a row. -/
def operandsAfter (d : Nat) : Part :=
  seq [many postfixOp, many (seq [infixOp, operand (expressionTo d)])]

lemma consumes_keyword (k : Keyword) : Consumes (Grammar.keyword k) := consumes_piece _

lemma consumes_sign (m : Mark) : Consumes (sign m) := consumes_piece _

lemma consumes_notOp : Consumes notOp := (consumes_keyword .not).rule _

lemma consumes_postfixOp : Consumes postfixOp := by
  refine consumes_choice fun p hp => ?_
  simp only [List.mem_cons, List.not_mem_nil, or_false] at hp
  rcases hp with rfl | rfl <;> exact ((consumes_keyword .is).seq _).rule _

lemma consumes_infixOp : Consumes infixOp := by
  have hstring : Consumes stringOp := by
    refine Consumes.rule (consumes_choice fun p hp => ?_) _
    simp only [List.mem_cons, List.not_mem_nil, or_false] at hp
    rcases hp with rfl | rfl | rfl
    · exact (consumes_keyword .starts).seq _
    · exact (consumes_keyword .ends).seq _
    · exact consumes_keyword .contains
  have hcomparison : Consumes comparisonOp := by
    refine Consumes.rule (consumes_choice fun p hp => ?_) _
    simp only [List.mem_cons, List.not_mem_nil, or_false] at hp
    rcases hp with rfl | rfl | rfl | rfl | rfl | rfl <;> exact consumes_sign _
  refine consumes_choice fun p hp => ?_
  simp only [List.mem_cons, List.not_mem_nil, or_false] at hp
  rcases hp with rfl | rfl | rfl | rfl | rfl
  · exact (consumes_keyword .or).rule _
  · exact (consumes_keyword .xor).rule _
  · exact (consumes_keyword .and).rule _
  · exact hstring
  · exact hcomparison

/-- An expression that is nested less deep than a bound is its first operand and then what is joined
to it. -/
lemma operandsTo_eq (d : Nat) (ts : List Piece) :
    operandsTo d ts = (operand (expressionTo d) ts).bind fun a =>
      (many (seq [infixOp, operand (expressionTo d)]) a.2).map fun b => (a.1 ++ b.1, b.2) := by
  rw [operandsTo, operands, seq_cons]
  simp only [seq_singleton]

lemma operandsAfter_eq (d : Nat) (ts : List Piece) :
    operandsAfter d ts = (many postfixOp ts).bind fun a =>
      (many (seq [infixOp, operand (expressionTo d)]) a.2).map fun b => (a.1 ++ b.1, b.2) := by
  rw [operandsAfter, seq_cons]
  simp only [seq_singleton]

/-- A row may end behind every operand. -/
lemma exists_operandsAfter (d : Nat) (ts : List Piece) : ∃ a, operandsAfter d ts = some a := by
  obtain ⟨a, ha⟩ := exists_many postfixOp ts
  obtain ⟨b, hb⟩ := exists_many (seq [infixOp, operand (expressionTo d)]) a.2
  exact ⟨_, by rw [operandsAfter_eq, ha, Option.bind_some, hb, Option.map_some]⟩

/-- A negation in front of a row belongs to it. -/
lemma operandsTo_of_not (h : notOp ts = some (xs, us)) :
    operandsTo d ts = (operandsTo d us).map fun a => (xs ++ a.1, a.2) := by
  have hoperand : operand (expressionTo d) ts
      = (operand (expressionTo d) us).map fun a => (xs ++ a.1, a.2) :=
    seq_many_of_eq_some consumes_notOp h _
  rw [operandsTo_eq, operandsTo_eq, hoperand]
  cases operand (expressionTo d) us with
  | none => rfl
  | some a =>
      simp only [Option.map_some, Option.bind_some, Option.map_map, Function.comp_def,
        List.append_assoc]

/-- A row without a negation in front of it starts with a term. -/
lemma operandsTo_of_term (h : notOp ts = none) : operandsTo d ts =
    (term (expressionTo d) ts).bind fun a => (operandsAfter d a.2).map fun b =>
      (a.1 ++ b.1, b.2) := by
  have hoperand : operand (expressionTo d) ts
      = (term (expressionTo d) ts).bind fun a => (many postfixOp a.2).map fun b =>
        (a.1 ++ b.1, b.2) := by
    rw [operand, seq_many_of_eq_none consumes_notOp h, seq_cons]
    simp only [seq_singleton]
  rw [operandsTo_eq, hoperand]
  cases term (expressionTo d) ts with
  | none => rfl
  | some a =>
      rw [Option.bind_some, Option.bind_some, operandsAfter_eq]
      cases many postfixOp a.2 with
      | none => rfl
      | some b =>
          simp only [Option.map_some, Option.bind_some, Option.map_map, Function.comp_def,
            List.append_assoc]

/-- A test for null goes before what follows it. -/
lemma operandsAfter_of_postfixOp (h : postfixOp ts = some (xs, us)) :
    operandsAfter d ts = (operandsAfter d us).map fun a => (xs ++ a.1, a.2) :=
  seq_many_of_eq_some consumes_postfixOp h _

/-- An operator between operands is taken back if there is no row behind it. -/
lemma operandsAfter_of_infixOp (hbehind : postfixOp ts = none) (h : infixOp ts = some (xs, us)) :
    operandsAfter d ts = (match operandsTo d us with
      | none => some ([], ts)
      | some a => some (xs ++ a.1, a.2)) := by
  have hconsumes : Consumes (seq [infixOp, operand (expressionTo d)]) := consumes_infixOp.seq _
  have hpart : seq [infixOp, operand (expressionTo d)] ts
      = (operand (expressionTo d) us).map fun a => (xs ++ a.1, a.2) := by
    rw [seq_of_eq_some h, seq_singleton]
  rw [operandsAfter_eq, many_of_eq_none consumes_postfixOp hbehind, Option.bind_some,
    many_eq hconsumes, hpart, operandsTo_eq]
  cases operand (expressionTo d) us with
  | none => rfl
  | some a =>
      obtain ⟨b, hb⟩ := exists_many (seq [infixOp, operand (expressionTo d)]) a.2
      simp only [Option.map_some, Option.bind_some, hb, List.nil_append, List.append_assoc]

/-- Without an operator the row ends. -/
lemma operandsAfter_of_none (hbehind : postfixOp ts = none) (h : infixOp ts = none) :
    operandsAfter d ts = some ([], ts) := by
  have hconsumes : Consumes (seq [infixOp, operand (expressionTo d)]) := consumes_infixOp.seq _
  rw [operandsAfter_eq, many_of_eq_none consumes_postfixOp hbehind, Option.bind_some,
    many_of_eq_none hconsumes (seq_of_eq_none h _)]
  rfl

lemma blocks_postfixOp : Blocks 1 postfixOp := by
  refine blocks_choice fun p hp => ?_
  simp only [List.mem_cons, List.not_mem_nil, or_false] at hp
  rcases hp with rfl | rfl <;> exact ((blocks_keyword rfl).seq _).rule _

lemma blocks_infixOp : Blocks 1 infixOp := by
  have hstring : Blocks 1 stringOp := by
    refine Blocks.rule (blocks_choice fun p hp => ?_) _
    simp only [List.mem_cons, List.not_mem_nil, or_false] at hp
    rcases hp with rfl | rfl | rfl
    · exact (blocks_keyword rfl).seq _
    · exact (blocks_keyword rfl).seq _
    · exact blocks_keyword rfl
  have hcomparison : Blocks 1 comparisonOp := by
    refine Blocks.rule (blocks_choice fun p hp => ?_) _
    simp only [List.mem_cons, List.not_mem_nil, or_false] at hp
    rcases hp with rfl | rfl | rfl | rfl | rfl | rfl <;> exact blocks_sign rfl
  refine blocks_choice fun p hp => ?_
  simp only [List.mem_cons, List.not_mem_nil, or_false] at hp
  rcases hp with rfl | rfl | rfl | rfl | rfl
  · exact (blocks_keyword rfl).rule _
  · exact (blocks_keyword rfl).rule _
  · exact (blocks_keyword rfl).rule _
  · exact hstring
  · exact hcomparison

/-- Behind a term that was only begun no row goes on. -/
lemma bars_operandsAfter (d : Nat) : Bars 1 (operandsAfter d) :=
  blocks_postfixOp.bars.many.seq ((blocks_infixOp.seq _).bars.many.seq bars_nothing)

/-! ### Names in front of dots and parentheses -/

/-- What a property of a variable consists of. -/
lemma propertyAccess_of_eq_some {n key : String} {vs : List Piece}
    (hname : variableName ts = some ([⟨.variableName, n.toList, []⟩], us))
    (hkey : dotWord .propertyKey us = some ([⟨.propertyKey, key.toList, []⟩], vs)) :
    ∃ x, propertyAccess ts = some ([x], vs) ∧ x.rule = .propertyAccess
      ∧ buildAccess x = .ok (.property n key) := by
  have hseq : seq [variableName, adjacent (sign .dot), adjacent (Grammar.word .propertyKey)] ts
      = some ([⟨.variableName, n.toList, []⟩, ⟨.propertyKey, key.toList, []⟩], vs) := by
    rw [seq_of_eq_some hname]
    exact congrArg (Option.map _) hkey
  refine ⟨_, rule_of_eq_some hseq, rfl, ?_⟩
  change Except.ok (Expr.property (String.ofList n.toList) (String.ofList key.toList)) = _
  rw [String.ofList_toList, String.ofList_toList]

lemma propertyAccess_of_name (h : variableName ts = none) : propertyAccess ts = none :=
  rule_eq_none_iff.2 (seq_of_eq_none h _)

/-- A variable without a key is no access to a property. -/
lemma propertyAccess_of_dotWord (hname : variableName ts = some (xs, us))
    (h : dotWord .propertyKey us = none) : propertyAccess ts = none := by
  refine rule_eq_none_iff.2 ?_
  rw [seq_of_eq_some hname]
  exact congrArg (Option.map _) h

/-- The terms that do not call a function, `p` being those in parentheses. -/
def plainTerm (p : Part) : Part := choice [propertyAccess, value, variableName, p]

/-- A variable is no literal. -/
lemma value_of_name {t : Piece} {n : String} (h : t.lexeme.name? = some n) (us : List Piece) :
    value (t :: us) = none := by
  have hliteral : t.literal? = none := by
    have hkeyword := Lexeme.keyword?_of_name? h
    cases hl : t.lexeme with
    | word w =>
        rw [hl] at hkeyword
        have hw : Keyword.ofWord? w = none := hkeyword
        simp [Piece.literal?, hl, hw]
    | _ =>
        rw [hl] at h
        cases h
  rw [value_cons, hliteral]
  rfl

/-- **A term that calls no function** is read as it is built. -/
lemma plainTerm_cases {p : Part} (h : IsCut ts) (hp : p ts = none) :
    (∃ x us, plainTerm p ts = some ([x], us) ∧ us.length < ts.length
        ∧ atom (tokensOf ts) = some (buildTermOf [x], tokensOf us))
      ∨ atom (tokensOf ts) = none ∧ Halts 1 (plainTerm p) ts := by
  rcases variableName_cases h with ⟨t, us, n, rfl, hl, -, hvariable, hname⟩ | ⟨-, hvariable, hname⟩
  · obtain ⟨u, heq, hn⟩ := name_eq_some_iff.1 hname
    obtain rfl : t.toToken = u := (List.cons.inj heq).1
    have hvalue := value_of_name hn us
    rw [atom, hname]
    rcases dotWord_cases h.tail .propertyKey with
      ⟨dot, u, vs, key, rfl, -, -, -, hkey, hdotted⟩ | ⟨hkey, hdotted⟩
    · obtain ⟨x, hx, hrule, hbuild⟩ := propertyAccess_of_eq_some hvariable hkey
      have hterm : plainTerm p (t :: dot :: u :: vs) = some ([x], vs) := choice_of_eq_some hx _
      dsimp only
      rw [hdotted]
      rcases dotWord_cases h.tail.tail.tail .propertyKey with
        ⟨dot', u', ws, key', rfl, hdot', -, -, -, hdotted'⟩ | ⟨-, hdotted'⟩
      · refine .inr ⟨by rw [hdotted'], fun ys rest heq => ?_⟩
        rw [hterm] at heq
        cases heq
        exact .of_mark hdot' rfl
      · refine .inl ⟨x, vs, hterm, by simp only [List.length_cons]; omega, ?_⟩
        rw [hdotted', buildTermOf, hrule]
        exact congrArg (fun r => some (r, tokensOf vs)) hbuild.symm
    · have hterm : plainTerm p (t :: us) = some ([⟨.variableName, n.toList, []⟩], us) := by
        rw [plainTerm, choice_of_eq_none (propertyAccess_of_dotWord hvariable hkey),
          choice_of_eq_none hvalue, choice_of_eq_some hvariable]
      refine .inl ⟨_, us, hterm, Nat.lt_succ_self _, ?_⟩
      dsimp only
      rw [hdotted, buildTermOf]
      change _ = some (Except.ok (Expr.var (String.ofList n.toList)), _)
      rw [String.ofList_toList]
  · rw [atom, hname]
    have hnone := propertyAccess_of_name hvariable
    rcases value_cases h with ⟨t, us, x, rfl, hvalue, hrule, hliteral⟩ | ⟨hvalue, hliteral⟩
    · refine .inl ⟨x, us, ?_, Nat.lt_succ_self _, ?_⟩
      · rw [plainTerm, choice_of_eq_none hnone, choice_of_eq_some hvalue]
      · rw [hliteral, buildTermOf, hrule]
        rfl
    · refine .inr ⟨by rw [hliteral]; rfl, halts_of_eq_none ?_⟩
      rw [plainTerm, choice_of_eq_none hnone, choice_of_eq_none hvalue, choice_of_eq_none hvariable,
        choice_of_eq_none hp, choice_nil]

/-- Behind a name there stands a dot or a parenthesis if it is called. -/
lemma stalled_of_called (h : IsCut us) (hparen : mark .openParen (dotted (tokensOf us)).2 ≠ none) :
    Stalled 1 us := by
  rcases dotWord_cases h .propertyKey with ⟨t, u, vs, w, rfl, ht, -, -, -, -⟩ | ⟨-, hdotted⟩
  · exact .of_mark ht rfl
  · rw [hdotted] at hparen
    rcases sign_cases .openParen us with ⟨t, vs, rfl, ht, -, -⟩ | ⟨-, -, hnone⟩
    · exact .of_mark ht rfl
    · exact absurd hnone hparen

/-- **A name that is called** is no plain term up to its end. -/
lemma plainTerm_halts {p : Part} {t : Piece} (h : IsCut (t :: us))
    (hparen : mark .openParen (dotted (tokensOf us)).2 ≠ none) (hp : p (t :: us) = none) :
    Halts 1 (plainTerm p) (t :: us) := by
  have hus := stalled_of_called h.tail hparen
  refine halts_choice fun q hq ys rest heq => ?_
  simp only [List.mem_cons, List.not_mem_nil, or_false] at hq
  rcases hq with rfl | rfl | rfl | rfl
  · rcases variableName_cases h with ⟨t, us, n, hcons, -, -, hvariable, -⟩ | ⟨-, hvariable, -⟩
    · cases hcons
      rcases dotWord_cases h.tail .propertyKey with
        ⟨dot, u, vs, key, rfl, -, -, -, hkey, hdotted⟩ | ⟨hkey, -⟩
      · obtain ⟨x, hx, -, -⟩ := propertyAccess_of_eq_some hvariable hkey
        rw [hx] at heq
        cases heq
        rw [hdotted] at hparen
        exact stalled_of_called h.tail.tail.tail hparen
      · rw [propertyAccess_of_dotWord hvariable hkey] at heq
        cases heq
    · rw [propertyAccess_of_name hvariable] at heq
      cases heq
  · rw [value_cons] at heq
    obtain ⟨x, -, heq⟩ := Option.map_eq_some_iff.1 heq
    cases heq
    exact hus
  · rw [variableName, leaf_cons] at heq
    split_ifs at heq
    cases heq
    exact hus
  · rw [hp] at heq
    cases heq

/-- **A function that is called** is its words, with a parenthesis behind. -/
lemma callee?_cases (h : IsCut ts) :
    (∃ t us f vs rest, ts = t :: us ∧ mark .openParen (dotted (tokensOf us)).2 = some (tokensOf vs)
        ∧ functionName ts = some ([⟨.functionName, f.toList, []⟩], rest)
        ∧ sign .openParen rest = some ([], vs) ∧ rest <:+ us
        ∧ callee? (tokensOf ts) = some (f, tokensOf vs))
      ∨ callee? (tokensOf ts) = none ∧ ∀ e, functionCall e ts = none := by
  rw [callee?_eq]
  rcases word_cases h .label with ⟨t, us, w, rfl, hl, -, -, hword⟩ | ⟨-, hpart, hword⟩
  · obtain ⟨rest, hname, hsuffix, hrest⟩ := functionName_cons h hl
    rw [hword, Option.bind_some]
    dsimp only
    rcases sign_cases .openParen rest with ⟨u, vs, rfl, -, hparen, hmark⟩ | ⟨-, hparen, hmark⟩
    · rw [hrest] at hmark
      exact .inl ⟨t, us, _, vs, _, rfl, hmark, hname, hparen, hsuffix,
        by rw [hmark]; rfl⟩
    · refine .inr ⟨by rw [← hrest, hmark]; rfl, fun e => rule_eq_none_iff.2 ?_⟩
      rw [seq_of_eq_some hname, seq_of_eq_none hparen]
      rfl
  · refine .inr ⟨by rw [hword]; rfl, fun e => rule_eq_none_iff.2 (seq_of_eq_none ?_ _)⟩
    rw [functionName, atomic_eq, seq_of_eq_none hpart]
    rfl

/-! ### Climbs -/

lemma length_itemsOf (xs : List Pair) : (itemsOf xs).length = xs.length := by
  induction xs with
  | nil => rfl
  | cons x xs ih => rw [itemsOf, List.length_cons, List.length_cons, ih]

/-- A pair that is an operator is told apart from an operand by its rule. -/
lemma itemsOf_operator {x : Pair} {a : Affix × Nat} (h : x.rule.affix? = some a) (xs : List Pair) :
    itemsOf (x :: xs) = .operator x.rule x.text :: itemsOf xs := by
  rw [itemsOf, h]
  rfl

lemma itemsOf_operand {x : Pair} (h : x.rule.affix? = none) (xs : List Pair) :
    itemsOf (x :: xs) = .operand (buildTerm x) :: itemsOf xs := by
  rw [itemsOf, h]
  rfl

/-- Reader and builder bind alike: an operator that binds tighter than the floor of the one binds
tighter than the level of the other. -/
structure LevelsFit (floor level : Nat) : Prop where
  lt : level < 60
  iff : ∀ op : BinaryOp, floor < op.level ↔ level < 10 * op.level

lemma levelsFit_zero : LevelsFit 0 0 where
  lt := by decide
  iff op := by omega

/-- Every level lies between that of an expression in parentheses and that of the tests for null. -/
lemma level_bounds (op : BinaryOp) : 0 < op.level ∧ op.level < 6 := by
  cases op with
  | connective c => cases c <;> decide
  | _ => exact ⟨by simp [BinaryOp.level], by simp [BinaryOp.level]⟩

/-- The levels of the reader fit the binding powers of the builder, which are ten times as large. -/
lemma levelsFit_level (op : BinaryOp) : LevelsFit op.level (10 * op.level) where
  lt := by
    have hlt := (level_bounds op).2
    omega
  iff op' := by omega

/-- The operand of a negation takes in what binds tighter than a conjunction. -/
lemma levelsFit_not : LevelsFit (BinaryOp.connective .and).level 39 where
  lt := by decide
  iff op := by
    cases op with
    | connective c => cases c <;> decide
    | _ => simp [BinaryOp.level]

/-- What a climb makes of some pieces, `answer` being what the reader makes of their tokens: it
takes some pairs off the front of the row, whatever fuel it has, and the rest of the row is left. -/
def Climbs (d floor : Nat) (p : Part) (climb : Nat → List Item → Option (Read Expr × List Item))
    (ts : List Piece) : Option (Read Expr × List Token) → Prop
  | none => Halts 2 p ts
  | some (r, us) => ∃ xs rest, us = tokensOf rest ∧ rest <:+ ts
      ∧ p ts = (operandsAfter d rest).map (fun a => (xs ++ a.1, a.2))
      ∧ (floor = 0 → operandsAfter d rest = some ([], rest))
      ∧ ∀ ys ws m, operandsAfter d rest = some (ys, ws) → (xs ++ ys).length < m →
          climb m (itemsOf (xs ++ ys)) = some (r, itemsOf ys)

/-- The arguments of a call, up to its closing parenthesis. -/
def argumentsTo (d : Nat) : Part :=
  seq [optional (commaSeparated (expressionTo d)), sign .closeParen]

/-- The arguments behind the first one. -/
def moreArgumentsTo (d : Nat) : Part :=
  seq [many (seq [sign .comma, expressionTo d]), sign .closeParen]

/-- Arguments are built of the pairs of expressions that a part makes. -/
def Gathers (p : Part) (ts : List Piece) (answer : Option (Read (List Expr) × List Token)) : Prop :=
  (∃ xs rest, p ts = some (xs, rest) ∧ (∀ x ∈ xs, x.rule = .expression)
      ∧ answer = some (argumentsOf xs, tokensOf rest))
    ∨ answer = none ∧ p ts = none

/-- Readers and builders agree about all expressions of fewer than `n` pieces. -/
structure ClimbsAlike (n : Nat) : Prop where
  row : ∀ {ts d floor level}, IsCut ts → ts.length < n → ts.length ≤ d → LevelsFit floor level →
    Climbs d floor (operandsTo d) (operandAt · level) ts (expressionAt n floor (tokensOf ts))
  after : ∀ {ts d floor level} left, IsCut ts → ts.length < n → ts.length ≤ d →
    LevelsFit floor level →
    Climbs d floor (operandsAfter d) (extendItems · level left) ts
      (extendAt n floor left (tokensOf ts))
  arguments : ∀ {ts d}, IsCut ts → ts.length + 1 < n → ts.length < d →
    Gathers (argumentsTo d) ts (argumentsAt n (tokensOf ts))
  more : ∀ {ts d}, IsCut ts → ts.length < n → ts.length < d →
    Gathers (moreArgumentsTo d) ts (moreArgumentsAt n (tokensOf ts))

variable {n floor level : Nat}

/-- An expression from its lowest level on, whose row is used up by the climb. -/
lemma ClimbsAlike.expression (hn : ClimbsAlike n) (h : IsCut ts) (hlt : ts.length < n)
    (hd : ts.length < d) :
    (∃ x rest, expressionTo d ts = some ([x], rest) ∧ x.rule = .expression
        ∧ expressionAt n 0 (tokensOf ts) = some (buildExpression x, tokensOf rest))
      ∨ expressionAt n 0 (tokensOf ts) = none ∧ Halts 2 (expressionTo d) ts := by
  obtain ⟨d, rfl⟩ : ∃ d', d = d' + 1 := ⟨d - 1, by omega⟩
  have hrow := hn.row h hlt (Nat.lt_succ_iff.1 hd) levelsFit_zero
  cases hanswer : expressionAt n 0 (tokensOf ts) with
  | none =>
      rw [hanswer] at hrow
      exact .inr ⟨rfl, Halts.rule hrow _⟩
  | some a =>
      obtain ⟨r, us⟩ := a
      rw [hanswer] at hrow
      obtain ⟨xs, rest, rfl, -, hpart, hend, hclimb⟩ := hrow
      rw [hend rfl, Option.map_some, List.append_nil] at hpart
      refine .inl ⟨_, rest, rule_of_eq_some hpart, rfl, ?_⟩
      have hitems : operandAt (xs.length + 1) 0 (itemsOf (xs ++ [])) = some (r, itemsOf []) :=
        hclimb [] rest (xs.length + 1) (hend rfl) (by simp)
      rw [List.append_nil] at hitems
      rw [buildExpression, buildItems, length_itemsOf, hitems]

/-- A term that is no call is a plain one, or a row in parentheses. -/
lemma term_of_call (e : Part) (h : functionCall e ts = none) :
    Grammar.term e ts = rule .term (plainTerm (seq [sign .openParen, e, sign .closeParen])) ts := by
  rw [Grammar.term, rule_eq, rule_eq, choice_of_eq_none h]
  rfl

/-- No word stands where a sign does. -/
lemma term_of_mark {t : Piece} {m : Mark} (ht : t.lexeme = .mark m) (e : Part) (us : List Piece) :
    Grammar.term e (t :: us)
      = rule .term (seq [sign .openParen, e, sign .closeParen]) (t :: us) := by
  have hword : ∀ r, Grammar.word r (t :: us) = none := fun r => by
    rw [Grammar.word, leaf_cons, ht]
    rfl
  have hvariable : variableName (t :: us) = none := by
    rw [variableName, leaf_cons, ht]
    rfl
  have hvalue : value (t :: us) = none := by
    rw [value_cons]
    simp [Piece.literal?, ht]
  have hcall : functionCall e (t :: us) = none := by
    refine rule_eq_none_iff.2 (seq_of_eq_none ?_ _)
    rw [functionName, atomic_eq, seq_of_eq_none (hword _)]
    rfl
  rw [term_of_call e hcall, rule_eq, rule_eq, plainTerm,
    choice_of_eq_none (propertyAccess_of_name hvariable), choice_of_eq_none hvalue,
    choice_of_eq_none hvariable, choice_cons, choice_nil, Option.or_none]

/-- An expression starts with no sign but a parenthesis. -/
lemma expressionTo_of_mark {t : Piece} {m : Mark} (ht : t.lexeme = .mark m) (hm : m ≠ .openParen)
    (d : Nat) (us : List Piece) : expressionTo d (t :: us) = none := by
  cases d with
  | zero => rfl
  | succ d =>
      have hnot : notOp (t :: us) = none := by
        rw [notOp, rule_eq_none_iff, Grammar.keyword, leaf_cons, ht]
        rfl
      have hsign : sign .openParen (t :: us) = none := by
        rw [sign, piece_cons, ht, if_neg (by simpa using hm)]
        rfl
      have hrow : operandsTo d (t :: us) = none := by
        rw [operandsTo_of_term hnot, term_of_mark ht, rule_eq, seq_of_eq_none hsign]
        rfl
      exact rule_eq_none_iff.2 hrow

/-- A call is built of its name and its arguments. -/
lemma buildCall_eq (f : String) (text : List Char) (hxs : ∀ x ∈ xs, x.rule = .expression) :
    buildCall ⟨.functionCall, text, ⟨.functionName, f.toList, []⟩ :: xs⟩
      = (argumentsOf xs).map (.call f) := by
  have hnone : xs.filter (·.rule = .functionName) = [] := by
    refine List.filter_eq_nil_iff.2 fun x hx => ?_
    rw [hxs x hx]
    decide
  have hlast : Pair.last? .functionName ⟨.functionCall, text, ⟨.functionName, f.toList, []⟩ :: xs⟩
      = some ⟨.functionName, f.toList, []⟩ := by
    rw [Pair.last?, Pair.each, List.filter_cons_of_pos (by simp), hnone]
    rfl
  have hne : Rule.functionName ≠ .expression := by decide
  rw [buildCall, argumentsOf, if_neg hne, hlast]
  change (argumentsOf xs).map (Expr.call (String.ofList f.toList)) = _
  rw [String.ofList_toList]

/-- A term of some pieces is read as it is built, and then the reader goes on. -/
def TermClimbs (n d : Nat) (ts : List Piece) : Prop :=
  (∃ x us, Grammar.term (expressionTo d) ts = some ([x], us) ∧ x.rule = .term
      ∧ us.length < ts.length ∧ ∀ floor, expressionAt (n + 1) floor (tokensOf ts)
        = extendAt n floor (buildTerm x) (tokensOf us))
    ∨ (∀ floor, expressionAt (n + 1) floor (tokensOf ts) = none)
      ∧ Halts 1 (Grammar.term (expressionTo d)) ts

/-- A row in parentheses is an expression of its own. -/
lemma ClimbsAlike.term_of_paren {t : Piece} (hn : ClimbsAlike n) (h : IsCut (t :: us))
    (hlt : us.length < n) (hd : us.length < d) (ht : t.lexeme = .mark .openParen)
    (hparen : sign .openParen (t :: us) = some ([], us))
    (hread : ∀ floor, expressionAt (n + 1) floor (tokensOf (t :: us))
      = (expressionAt n 0 (tokensOf us)).bind fun a => (mark .closeParen a.2).bind fun vs =>
        extendAt n floor a.1 vs) : TermClimbs n d (t :: us) := by
  rcases hn.expression h.tail hlt hd with ⟨x, vs, hpart, hrule, hanswer⟩ | ⟨hanswer, hpart⟩
  · have hle := ((expressionTo d).suffix hpart).length_le
    rcases sign_cases .closeParen vs with ⟨u, ws, rfl, -, hclose, hmark⟩ | ⟨-, hclose, hmark⟩
    · have hseq : seq [sign .openParen, expressionTo d, sign .closeParen] (t :: us)
          = some ([x], ws) := by
        rw [seq_of_eq_some hparen, seq_of_eq_some hpart, seq_singleton, hclose]
        rfl
      refine .inl ⟨_, ws, (term_of_mark ht _ us).trans (rule_of_eq_some hseq), rfl, ?_,
        fun floor => ?_⟩
      · simp only [List.length_cons] at hle ⊢
        omega
      · rw [hread, hanswer, Option.bind_some, hmark, Option.bind_some, buildTerm,
          buildTermOf, hrule]
    · refine .inr ⟨fun floor => by rw [hread, hanswer, Option.bind_some, hmark, Option.bind_none],
        halts_of_eq_none ?_⟩
      rw [term_of_mark ht, rule_eq, seq_of_eq_some hparen, seq_of_eq_some hpart,
        seq_singleton, hclose]
      rfl
  · have hclose : Blocks 2 (seq [sign .closeParen]) := Blocks.seq (blocks_sign rfl) _
    refine .inr ⟨fun floor => by rw [hread, hanswer, Option.bind_none], halts_of_eq_none ?_⟩
    rw [term_of_mark ht, rule_eq, seq_of_eq_some hparen, hpart.seq_eq_none hclose]
    rfl

/-- A call whose arguments cannot be read is taken for a plain term, and halts at its parenthesis.
-/
lemma ClimbsAlike.term_of_callee {t : Piece} {f : String} {vs : List Piece} (hn : ClimbsAlike n)
    (h : IsCut (t :: us)) (hlt : us.length < n) (hd : us.length < d)
    (hdotted : mark .openParen (dotted (tokensOf us)).2 = some (tokensOf vs))
    (hsuffix : rest <:+ us)
    (hname : functionName (t :: us) = some ([⟨.functionName, f.toList, []⟩], rest))
    (hsign : sign .openParen rest = some ([], vs)) (hparen : sign .openParen (t :: us) = none)
    (hread : ∀ floor, expressionAt (n + 1) floor (tokensOf (t :: us))
      = (argumentsAt n (tokensOf vs)).bind fun a => extendAt n floor (a.1.map (.call f)) a.2) :
    TermClimbs n d (t :: us) := by
  have hvs := (sign .openParen).suffix hsign
  have hle := hsuffix.length_le
  have hlt' := consumes_sign _ _ _ _ hsign
  have hcall : functionCall (expressionTo d) (t :: us) = (argumentsTo d vs).map fun a =>
      ([⟨.functionCall, Piece.covered (t :: us) a.2, ⟨.functionName, f.toList, []⟩ :: a.1⟩],
        a.2) := by
    rw [functionCall, rule_eq, seq_of_eq_some hname, seq_of_eq_some hsign]
    simp only [Option.map_map]
    rfl
  rcases hn.arguments (h.tail.of_suffix (hvs.trans hsuffix))
    (by omega) (by omega : vs.length < d) with
    ⟨xs, ws, hpart, hrules, hanswer⟩ | ⟨hanswer, hpart⟩
  · have hws := ((argumentsTo d).suffix hpart).length_le
    rw [hpart, Option.map_some] at hcall
    refine .inl ⟨_, ws, rule_of_eq_some (choice_of_eq_some hcall _), rfl,
      Nat.lt_succ_of_le (by omega), fun floor => ?_⟩
    rw [hread, hanswer, Option.bind_some, buildTerm, buildTermOf]
    dsimp only
    rw [buildCall_eq f _ hrules]
  · rw [hpart, Option.map_none] at hcall
    refine .inr ⟨fun floor => by rw [hread, hanswer, Option.bind_none], fun xs ws heq => ?_⟩
    rw [term_of_call _ hcall] at heq
    have hplain := plainTerm_halts h (by rw [hdotted]; exact Option.some_ne_none _)
      (seq_of_eq_none hparen [expressionTo d, sign .closeParen])
    exact hplain.rule _ _ _ heq

/-- **A term** is read as it is built, and then the reader goes on. -/
lemma ClimbsAlike.term (hn : ClimbsAlike n) (h : IsCut ts) (hlt : ts.length < n + 1)
    (hd : ts.length ≤ d)
    (hnot : keyword .not (tokensOf ts) = none) : TermClimbs n d ts := by
  rcases sign_cases .openParen ts with ⟨t, us, rfl, ht, hparen, hmark⟩ | ⟨-, hparen, hmark⟩
  · refine hn.term_of_paren h (Nat.lt_of_succ_lt_succ hlt) (Nat.lt_of_succ_le hd) ht hparen
      fun floor => ?_
    rw [expressionAt, hnot, hmark]
    rfl
  · rcases callee?_cases h with
      ⟨t, us, f, vs, rest, rfl, hdotted, hname, hsign, hsuffix, hcallee⟩ | ⟨hcallee, hcall⟩
    · refine hn.term_of_callee h (Nat.lt_of_succ_lt_succ hlt) (Nat.lt_of_succ_le hd) hdotted hsuffix
        hname hsign hparen fun floor => ?_
      rw [expressionAt, hnot, hmark, hcallee]
      rfl
    · have hread : ∀ floor, expressionAt (n + 1) floor (tokensOf ts)
          = (atom (tokensOf ts)).bind fun a => extendAt n floor a.1 a.2 := fun floor => by
        rw [expressionAt, hnot, hmark, hcallee]
        rfl
      rcases plainTerm_cases h (seq_of_eq_none hparen [expressionTo d, sign .closeParen]) with
        ⟨x, us, hterm, hus, hatom⟩ | ⟨hatom, hterm⟩
      · refine .inl ⟨_, us, (term_of_call _ (hcall _)).trans (rule_of_eq_some hterm), rfl, hus,
          fun floor => ?_⟩
        rw [hread, hatom, Option.bind_some, buildTerm]
      · refine .inr ⟨fun floor => by rw [hread, hatom, Option.bind_none], fun xs rest heq => ?_⟩
        rw [term_of_call _ (hcall _)] at heq
        exact hterm.rule _ _ _ heq

/-- A row goes on behind its first pairs. -/
lemma Climbs.trans {p : Part} {climb climb' : Nat → List Item → Option (Read Expr × List Item)}
    (zs : List Pair) {answer : Option (Read Expr × List Token)}
    (h : Climbs d floor (operandsAfter d) climb' us answer)
    (hus : us <:+ ts) (hpart : p ts = (operandsAfter d us).map fun a => (zs ++ a.1, a.2))
    (hclimb : ∀ ys ws m, operandsAfter d us = some (ys, ws) → (zs ++ ys).length < m →
      ∃ m', ys.length < m' ∧ climb m (itemsOf (zs ++ ys)) = climb' m' (itemsOf ys)) :
    Climbs d floor p climb ts answer := by
  cases answer with
  | none =>
      intro xs rest heq
      rw [hpart] at heq
      obtain ⟨a, ha, heq⟩ := Option.map_eq_some_iff.1 heq
      cases heq
      exact h _ _ ha
  | some a =>
      obtain ⟨r, vs⟩ := a
      obtain ⟨xs, rest, rfl, hsuffix, hafter, hend, hclimb'⟩ := h
      refine ⟨zs ++ xs, rest, rfl, hsuffix.trans hus, ?_, hend, fun ys ws m hys hm => ?_⟩
      · rw [hpart, hafter, Option.map_map]
        simp only [Function.comp_def, List.append_assoc]
      · rw [List.append_assoc] at hm ⊢
        have hmore : operandsAfter d us = some (xs ++ ys, ws) := by
          rw [hafter, hys, Option.map_some]
        obtain ⟨m', hm', heq⟩ := hclimb _ ws m hmore hm
        rw [heq]
        exact hclimb' ys ws m' hys hm'

/-- A negation takes in a climb of its own. -/
lemma ClimbsAlike.not_succ {t : Piece} {x : Pair} (hn : ClimbsAlike n) (h : IsCut (t :: us))
    (hlt : us.length < n) (hd : us.length ≤ d) (hfits : LevelsFit floor level)
    (hnot : notOp (t :: us) = some ([x], us)) (hrule : x.rule = .notOp)
    (hkeyword : keyword .not (tokensOf (t :: us)) = some (tokensOf us)) :
    Climbs d floor (operandsTo d) (operandAt · level) (t :: us)
      (expressionAt (n + 1) floor (tokensOf (t :: us))) := by
  have hread : expressionAt (n + 1) floor (tokensOf (t :: us))
      = (expressionAt n (BinaryOp.connective .and).level (tokensOf us)).bind fun a =>
        extendAt n floor (a.1.map (.unary .not)) a.2 := by
    rw [expressionAt, hkeyword]
    rfl
  have hrow := hn.row h.tail hlt hd levelsFit_not
  rw [hread]
  cases hanswer : expressionAt n (BinaryOp.connective .and).level (tokensOf us) with
  | none =>
      rw [hanswer] at hrow
      intro xs rest heq
      rw [operandsTo_of_not hnot] at heq
      obtain ⟨a, ha, heq⟩ := Option.map_eq_some_iff.1 heq
      cases heq
      exact hrow _ _ ha
  | some a =>
      obtain ⟨r, vs⟩ := a
      rw [hanswer] at hrow
      obtain ⟨xs, rest, rfl, hsuffix, hpart, -, hclimb⟩ := hrow
      have hle := hsuffix.length_le
      -- the operand of the negation is read: the climb goes on with the negation
      have hafter := hn.after (r.map (.unary .not)) (h.tail.of_suffix hsuffix)
        (by omega) (by omega : rest.length ≤ d) hfits
      refine hafter.trans (x :: xs) (hsuffix.trans (List.suffix_cons t us)) ?_ ?_
      · rw [operandsTo_of_not hnot, hpart, Option.map_map]
        rfl
      · intro ys ws m hys hm
        obtain ⟨m, rfl⟩ : ∃ m', m = m' + 1 := ⟨m - 1, by omega⟩
        simp only [List.cons_append, List.length_cons] at hm
        refine ⟨m, by simp only [List.length_append] at hm; omega, ?_⟩
        have hoperand : operandAt m 39 (itemsOf (xs ++ ys)) = some (r, itemsOf ys) :=
          hclimb ys ws m hys (by omega)
        have haffix : x.rule.affix? = some (.before, 40) := by rw [hrule]; rfl
        rw [List.cons_append, itemsOf_operator haffix, operandAt, haffix]
        change (operandAt m 39 (itemsOf (xs ++ ys))).bind _ = _
        rw [hoperand, hrule]
        rfl

/-- A row that starts with a negation, or with a term. -/
lemma ClimbsAlike.row_succ (hn : ClimbsAlike n) (h : IsCut ts) (hlt : ts.length < n + 1)
    (hd : ts.length ≤ d) (hfits : LevelsFit floor level) :
    Climbs d floor (operandsTo d) (operandAt · level) ts
      (expressionAt (n + 1) floor (tokensOf ts)) := by
  rcases rule_keyword_cases .notOp .not ts with
    ⟨t, us, x, rfl, -, hnot, hrule, hkeyword⟩ | ⟨hnot, hkeyword⟩
  · exact hn.not_succ h (Nat.lt_of_succ_lt_succ hlt) (Nat.le_of_succ_le hd) hfits hnot
      hrule hkeyword
  · rcases hn.term h hlt hd hkeyword with ⟨x, us, hterm, hrule, hus, hread⟩ | ⟨hread, hterm⟩
    · have hsuffix : us <:+ ts := (Grammar.term _).suffix hterm
      have hafter := hn.after (buildTerm x) (h.of_suffix hsuffix) (by omega)
        (by omega : us.length ≤ d) hfits
      rw [hread floor]
      refine hafter.trans [x] hsuffix ?_ ?_
      · rw [operandsTo_of_term hnot, hterm, Option.bind_some]
      · rintro ys ws m - hm
        obtain ⟨m, rfl⟩ : ∃ m', m = m' + 1 := ⟨m - 1, by omega⟩
        refine ⟨m, by simpa using hm, ?_⟩
        rw [List.singleton_append, itemsOf_operand (by rw [hrule]; rfl), operandAt]
    · rw [hread floor]
      intro xs rest heq
      rw [operandsTo_of_term hnot] at heq
      obtain ⟨a, ha, heq⟩ := Option.bind_eq_some_iff.1 heq
      obtain ⟨b, hb, heq⟩ := Option.map_eq_some_iff.1 heq
      cases heq
      exact (bars_operandsAfter d _ (hterm _ _ ha) _ _ hb).mono (by omega)

/-- Where a climb ends, the row is left as it is. -/
lemma climbs_end {climb : Nat → List Item → Option (Read Expr × List Item)} {r : Read Expr}
    (hzero : floor = 0 → operandsAfter d ts = some ([], ts))
    (hclimb : ∀ ys ws m, operandsAfter d ts = some (ys, ws) → ys.length < m →
      climb m (itemsOf ys) = some (r, itemsOf ys)) :
    Climbs d floor (operandsAfter d) climb ts (some (r, tokensOf ts)) :=
  ⟨[], ts, rfl, List.suffix_rfl, Option.map_id'.symm, hzero, hclimb⟩

/-- An operator that binds tighter takes in a climb of its own. -/
lemma ClimbsAlike.infixOp_succ {left : Read Expr} {x : Pair} {op : WrittenOp} (hn : ClimbsAlike n)
    (h : IsCut us) (hlt : us.length < n) (hd : us.length ≤ d) (hfits : LevelsFit floor level)
    (hus : us <:+ ts) (hstalled : Stalled 2 ts)
    (hafter : operandsAfter d ts = (match operandsTo d us with
      | none => some ([], ts)
      | some a => some ([x] ++ a.1, a.2)))
    (haffix : x.rule.affix? = some (.between, 10 * op.op.level)) (hlevel : floor < op.op.level)
    (happly : ∀ left right, applyBetween x.rule x.text left right = joinRead op left right) :
    Climbs d floor (operandsAfter d) (extendItems · level left) ts
      ((expressionAt n op.op.level (tokensOf us)).bind fun a =>
        extendAt n floor (joinRead op left a.1) a.2) := by
  have hrow := hn.row h hlt hd (levelsFit_level op.op)
  cases hanswer : expressionAt n op.op.level (tokensOf us) with
  | none =>
      rw [hanswer] at hrow
      intro xs rest heq
      rw [hafter] at heq
      cases hto : operandsTo d us with
      | none =>
          rw [hto] at heq
          cases heq
          exact hstalled
      | some a =>
          rw [hto] at heq
          cases heq
          exact hrow _ _ hto
  | some a =>
      obtain ⟨r, vs⟩ := a
      rw [hanswer] at hrow
      obtain ⟨xs, rest, rfl, hsuffix, hpart, -, hclimb⟩ := hrow
      have hle := hsuffix.length_le
      -- the right operand is read: the climb goes on with both operands joined
      have hmore := hn.after (joinRead op left r) (h.of_suffix hsuffix)
        (by omega) (by omega : rest.length ≤ d) hfits
      refine hmore.trans (x :: xs) (hsuffix.trans hus) ?_ ?_
      · obtain ⟨a, ha⟩ := exists_operandsAfter d rest
        rw [hafter, hpart, ha]
        rfl
      · intro ys ws m hys hm
        obtain ⟨m, rfl⟩ : ∃ m', m = m' + 1 := ⟨m - 1, by omega⟩
        simp only [List.cons_append, List.length_cons] at hm
        refine ⟨m, by simp only [List.length_append] at hm; omega, ?_⟩
        have hoperand : operandAt m (10 * op.op.level) (itemsOf (xs ++ ys))
            = some (r, itemsOf ys) :=
          hclimb ys ws m hys (by omega)
        rw [List.cons_append, itemsOf_operator haffix, extendItems, haffix]
        dsimp only
        rw [if_pos ((hfits.iff _).1 hlevel), hoperand, ← happly]
        rfl

/-- What follows an operand: a test for null, an operator that binds tight enough, one that does
not, or nothing. -/
lemma ClimbsAlike.after_succ (left : Read Expr) (hn : ClimbsAlike n) (h : IsCut ts)
    (hlt : ts.length < n + 1) (hd : ts.length ≤ d) (hfits : LevelsFit floor level) :
    Climbs d floor (operandsAfter d) (extendItems · level left) ts
      (extendAt (n + 1) floor left (tokensOf ts)) := by
  rw [extendAt]
  rcases postfixOp_cases ts with ⟨x, us, op, hbehind, hus, haffix, happly, hread⟩ | ⟨hbehind, hread⟩
  · have hsuffix : us <:+ ts := postfixOp.suffix hbehind
    -- a test for null binds tighter than any floor
    have hafter := hn.after (left.map (.unary op)) (h.of_suffix hsuffix) (by omega)
      (by omega : us.length ≤ d) hfits
    rw [hread]
    refine hafter.trans [x] hsuffix (operandsAfter_of_postfixOp hbehind) ?_
    rintro ys ws m - hm
    obtain ⟨m, rfl⟩ : ∃ m', m = m' + 1 := ⟨m - 1, by omega⟩
    refine ⟨m, by simpa using hm, ?_⟩
    rw [List.singleton_append, itemsOf_operator haffix, extendItems, haffix]
    dsimp only
    rw [if_pos hfits.lt, happly]
  · rw [hread]
    rcases infixOp_cases h with ⟨x, us, op, hbetween, hus, haffix, happly, hop, hstalled⟩
      | ⟨hbetween, hop⟩
    · have hsuffix : us <:+ ts := infixOp.suffix hbetween
      have hafter := operandsAfter_of_infixOp (d := d) hbehind hbetween
      rw [hop]
      dsimp only
      by_cases hlevel : floor < op.op.level
      · rw [if_pos hlevel]
        exact hn.infixOp_succ (h.of_suffix hsuffix) (by omega) (by omega) hfits hsuffix hstalled
          hafter haffix hlevel happly
      · rw [if_neg hlevel]
        -- the operator is left to a climb further out, in the reader and in the builder
        refine climbs_end (fun hzero => ?_) fun ys ws m hys hm => ?_
        · rw [hzero] at hlevel
          exact absurd (level_bounds op.op).1 hlevel
        · obtain ⟨m, rfl⟩ : ∃ m', m = m' + 1 := ⟨m - 1, by omega⟩
          rw [hafter] at hys
          cases hto : operandsTo d us with
          | none =>
              rw [hto] at hys
              cases hys
              rfl
          | some a =>
              rw [hto] at hys
              cases hys
              rw [List.singleton_append, itemsOf_operator haffix, extendItems, haffix]
              dsimp only
              rw [if_neg fun hlt => hlevel ((hfits.iff _).2 hlt)]
    · have hafter := operandsAfter_of_none (d := d) hbehind hbetween
      rw [hop]
      refine climbs_end (fun _ => hafter) fun ys ws m hys hm => ?_
      obtain ⟨m, rfl⟩ : ∃ m', m = m' + 1 := ⟨m - 1, by omega⟩
      rw [hafter] at hys
      cases hys
      rfl

/-! ### Arguments -/

lemma consumes_comma (p : Part) : Consumes (seq [sign .comma, p]) := (consumes_sign .comma).seq _

/-- An argument goes before those behind it. -/
lemma argumentsOf_cons {x : Pair} (h : x.rule = .expression) (xs : List Pair) :
    argumentsOf (x :: xs) = (do pure ((← buildExpression x) :: (← argumentsOf xs))) := by
  rw [argumentsOf, if_pos h]

/-- Arguments behind the first one, with their commas, up to the closing parenthesis. -/
lemma ClimbsAlike.more_succ (hn : ClimbsAlike n) (h : IsCut ts) (hlt : ts.length < n + 1)
    (hd : ts.length < d) :
    Gathers (moreArgumentsTo d) ts (moreArgumentsAt (n + 1) (tokensOf ts)) := by
  have hconsumes := consumes_comma (expressionTo d)
  rw [moreArgumentsAt]
  rcases sign_cases .closeParen ts with ⟨t, us, rfl, ht, hclose, hmark⟩ | ⟨-, hclose, hmark⟩
  · have hcomma : sign .comma (t :: us) = none := by
      rw [sign, piece_cons, ht]
      rfl
    refine .inl ⟨[], us, ?_, List.forall_mem_nil _, ?_⟩
    · rw [moreArgumentsTo, seq_many_of_eq_none hconsumes (seq_of_eq_none hcomma _),
        seq_singleton, hclose]
    · rw [hmark, argumentsOf]
  · rw [hmark]
    rcases sign_cases .comma ts with ⟨t, us, rfl, ht, hcomma, hmark'⟩ | ⟨-, hcomma, hmark'⟩
    · have hlength : (t :: us).length = us.length + 1 := rfl
      rw [hmark']
      rcases hn.expression h.tail (by omega) (by omega : us.length < d) with
        ⟨x, vs, hpart, hrule, hanswer⟩ | ⟨hanswer, hpart⟩
      · have hsuffix := (expressionTo d).suffix hpart
        have hle := hsuffix.length_le
        have hitem : seq [sign .comma, expressionTo d] (t :: us) = some ([x], vs) := by
          rw [seq_of_eq_some hcomma, seq_singleton, hpart]
          rfl
        have hmany := seq_many_of_eq_some hconsumes hitem [sign .closeParen]
        rcases hn.more (h.tail.of_suffix hsuffix) (by omega) (by omega : vs.length < d) with
          ⟨xs, ws, hmore, hrules, hanswer'⟩ | ⟨hanswer', hmore⟩
        · refine .inl ⟨x :: xs, ws, ?_, List.forall_mem_cons.2 ⟨hrule, hrules⟩, ?_⟩
          · exact hmany.trans (congrArg (Option.map _) hmore)
          · simp only [hanswer, hanswer', Option.bind_eq_bind, Option.bind_some,
              argumentsOf_cons hrule]
        · refine .inr ⟨?_, hmany.trans (congrArg (Option.map _) hmore)⟩
          simp only [hanswer, hanswer', Option.bind_eq_bind, Option.bind_some, Option.bind_none]
      · refine .inr ⟨by simp only [hanswer, Option.bind_eq_bind, Option.bind_some,
          Option.bind_none], ?_⟩
        have hitem : Halts 2 (seq [sign .comma, expressionTo d]) (t :: us) :=
          halts_seq_of_eq_some hcomma (hpart.seq bars_nothing)
        have hbars : Bars 2 (seq [sign .comma, expressionTo d]) :=
          (Blocks.seq (blocks_sign rfl) _).bars
        have hstalled : Stalled 4 (t :: us) := .of_mark ht rfl
        exact (hitem.many hstalled hbars (by decide) hconsumes).seq_eq_none
          (Blocks.seq (blocks_sign rfl) _)
    · refine .inr ⟨by rw [hmark']; rfl, ?_⟩
      rw [moreArgumentsTo, seq_many_of_eq_none hconsumes (seq_of_eq_none hcomma _),
        seq_singleton, hclose]

/-- The arguments of a call. A call without arguments is closed at once. -/
lemma ClimbsAlike.arguments_succ (hn : ClimbsAlike n) (h : IsCut ts) (hlt : ts.length + 1 < n + 1)
    (hd : ts.length < d) : Gathers (argumentsTo d) ts (argumentsAt (n + 1) (tokensOf ts)) := by
  rw [argumentsAt]
  rcases sign_cases .closeParen ts with ⟨t, us, rfl, ht, hclose, hmark⟩ | ⟨-, hclose, hmark⟩
  · have hnone : commaSeparated (expressionTo d) (t :: us) = none :=
      seq_of_eq_none (expressionTo_of_mark ht (by decide) d us) _
    refine .inl ⟨[], us, ?_, List.forall_mem_nil _, ?_⟩
    · rw [argumentsTo, seq_of_eq_some (optional_of_eq_none hnone), seq_singleton, hclose]
      rfl
    · rw [hmark, argumentsOf]
  · rw [hmark]
    rcases hn.expression h (by omega) hd with ⟨x, us, hpart, hrule, hanswer⟩ | ⟨hanswer, hpart⟩
    · have hsuffix := (expressionTo d).suffix hpart
      have hle := hsuffix.length_le
      have hmany : argumentsTo d ts = (moreArgumentsTo d us).map fun a => ([x] ++ a.1, a.2) := by
        obtain ⟨b, hb⟩ := exists_many (seq [sign .comma, expressionTo d]) us
        have hlist : commaSeparated (expressionTo d) ts = some ([x] ++ b.1, b.2) := by
          rw [commaSeparated, seq_of_eq_some hpart, seq_singleton, hb, Option.map_some]
        rw [argumentsTo, moreArgumentsTo, seq_of_eq_some (optional_of_eq_some hlist),
          seq_of_eq_some hb, Option.map_map]
        simp only [Function.comp_def, List.append_assoc]
      rcases hn.more (h.of_suffix hsuffix) (by omega) (by omega : us.length < d) with
        ⟨xs, ws, hmore, hrules, hanswer'⟩ | ⟨hanswer', hmore⟩
      · refine .inl ⟨x :: xs, ws, ?_, List.forall_mem_cons.2 ⟨hrule, hrules⟩, ?_⟩
        · rw [hmany, hmore]
          rfl
        · simp only [hanswer, hanswer', Option.bind_eq_bind, Option.bind_some,
            argumentsOf_cons hrule]
      · refine .inr ⟨?_, by rw [hmany, hmore]; rfl⟩
        simp only [hanswer, hanswer', Option.bind_eq_bind, Option.bind_some, Option.bind_none]
    · refine .inr ⟨by simp only [hanswer, Option.bind_eq_bind, Option.bind_none], ?_⟩
      have hbars : Bars 2 (seq [many (seq [sign .comma, expressionTo d])]) :=
        (Blocks.seq (blocks_sign rfl) _).bars.many.seq bars_nothing
      have hlist : Halts 2 (commaSeparated (expressionTo d)) ts := hpart.seq hbars
      exact hlist.seq_optional_eq_none (Blocks.seq (blocks_sign rfl) _)
        (by rw [seq_singleton, hclose])

/-- **Readers and builders agree** about all expressions. -/
theorem climbsAlike (n : Nat) : ClimbsAlike n := by
  -- on the number of pieces, since every step takes one of them at least
  induction n with
  | zero =>
      exact ⟨fun _ h => absurd h (Nat.not_lt_zero _), fun _ _ h => absurd h (Nat.not_lt_zero _),
      fun _ h => absurd h (Nat.not_lt_zero _), fun _ h => absurd h (Nat.not_lt_zero _)⟩
  | succ n ih => exact ⟨ih.row_succ, ih.after_succ, ih.arguments_succ, ih.more_succ⟩

/-- The expressions of the grammar, with the bound that these pieces put on their depth. -/
lemma expression_run (ts : List Piece) :
    Grammar.expression ts = expressionTo (ts.length + 1) ts := by
  unfold Grammar.expression
  rfl

/-- **An expression** is read as it is built. Where it cannot be read, it halts in front of an
operator, of a dot or of a parenthesis. -/
theorem expression_pairs :
    PairsOne 2 Cypher.expression Grammar.expression .expression buildExpression := by
  intro ts h
  have hlength : (tokensOf ts).length = ts.length := length_tokensOf ts
  have hrun := expression_run ts
  rw [Cypher.expression, hlength]
  rcases (climbsAlike (ts.length + 1)).expression h (Nat.lt_succ_self _) (Nat.lt_succ_self _) with
    ⟨x, rest, hpart, hrule, hread⟩ | ⟨hread, hpart⟩
  · exact .inl ⟨x, rest, hrun.trans hpart, hrule, hread⟩
  · exact .inr ⟨hread, fun xs rest heq => hpart xs rest (hrun.symm.trans heq)⟩

end CodeGraph.Cypher
