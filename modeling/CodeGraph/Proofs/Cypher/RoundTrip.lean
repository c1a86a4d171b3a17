import CodeGraph.Proofs.Cypher.Operands

/-!
What was written down is read back.

* `Expr.continues_tokens`: a plain expression in front of what cannot continue its last word.
* `NodePattern.node_tokens`, `EdgePattern.edge_tokens`, `PathPattern.path_tokens`: patterns.
* `ReadsAsPath`, `ReadsAsFilter`, `queryOfTokens?_queryTokens`: a query whose path and filter are
  written in any way.
* `Query.ofText_matchingText`: the text of a query is read as the query.
-/

namespace CodeGraph
namespace Cypher

variable {us : List Token}

/-! ### Signs, names and labels -/

lemma optionalMark_tokens {m : Mark} (hus : mark m us = none) (b : Bool) :
    optionalMark m ((if b then [⟨[], .mark m⟩] else []) ++ us) = (b, us) := by
  cases b <;> simp [optionalMark, hus]

/-- A variable that may be left out is read back. -/
lemma optionalName_tokens {v : Option String} (hv : v.all isVariable) (hus : name us = none) :
    optionalName (v.toList.map (fun v => ⟨[], .word v⟩) ++ us) = (v, us) := by
  cases v with
  | none => simp [optionalName, hus]
  | some v => simp [optionalName, name_variable (show isVariable v from hv)]

/-- Labels are read back in front of what is no colon. -/
lemma labels_tokens (hus : mark .colon us = none) (ls : List Label) :
    labels (ls.flatMap (fun l => [⟨[], .mark .colon⟩, ⟨[], .word l.text⟩]) ++ us)
      = some (ls, us) := by
  induction ls with
  | nil => rw [labels_eq, List.flatMap_nil, List.nil_append, hus]
  | cons l ls ih => simp [labels_eq (_ :: _), ih]

/-- Further groups are read back in front of what is no bar. -/
lemma moreGroups_tokens (hus : mark .bar us = none) (gs : List Group) :
    moreGroups (gs.flatMap (fun h => [⟨[], .mark .bar⟩, ⟨[], .word h.name⟩]) ++ us)
      = some (gs, us) := by
  induction gs with
  | nil => rw [moreGroups_eq, List.flatMap_nil, List.nil_append, hus]
  | cons h gs ih => simp [moreGroups_eq (_ :: _), optionalMark, mark_word, ih]

/-- A colon is no variable. -/
lemma name_labels (hus : name us = none) (ls : List Label) :
    name (ls.flatMap (fun l => [⟨[], .mark .colon⟩, ⟨[], .word l.text⟩]) ++ us) = none := by
  cases ls with
  | nil => exact hus
  | cons l ls => rfl

end Cypher

open Cypher

variable {g : List Char} {us : List Token}

/-! ### Expressions -/

namespace Expr

/-- **A plain expression** is read back, and may be continued. -/
lemma continues_tokens {e : Expr} (he : e.isPlain) {floor : Nat} (hus : EndsOperand us) :
    Continues floor (e.tokens g) us e := by
  induction e, he using Expr.isPlain_induction generalizing g us floor with
  | property name key hname =>
      exact .of_step (Nat.succ_pos _) fun _ => expressionAt_property hname hus
  | integer value => exact .of_step (Nat.succ_pos _) fun _ => expressionAt_integer value us
  | boolean value =>
      refine .of_step (Nat.succ_pos _) fun _ => ?_
      cases value with
      | true =>
          exact expressionAt_literal (k := .true)
            (by decide +kernel) (by decide) (by decide +kernel) hus
      | false =>
          exact expressionAt_literal (k := .false)
            (by decide +kernel) (by decide) (by decide +kernel) hus
  | null =>
      refine .of_step (Nat.succ_pos _) fun _ => ?_
      exact expressionAt_literal (k := .null)
        (by decide +kernel) (by decide) (by decide +kernel) hus
  | var name hname => exact .of_step (Nat.succ_pos _) fun _ => expressionAt_variable hname hus
  | binary op left right _ _ ihl ihr =>
      have hclose := endsExpression_close [] us
      have hboth :=
        Continues.binary (ihl (g := []) (op.endsOperand_tokens _))
        (ihr (g := [' ']) hclose.toEndsOperand)
        op.level_pos (hclose.stops op.level)
      have hall : Continues floor _ us _ := hboth.parentheses g
      simpa [tokens] using hall
  | unary op operand _ ih =>
      have hclose := endsExpression_close [] us
      cases op with
      | not => exact (Continues.not (ih hclose.toEndsOperand) (hclose.stops _) []).parentheses g
      | isNull =>
          have htest : Continues 0 _ (⟨[], .mark .closeParen⟩ :: us) _ :=
            Continues.isNull [' '] [' '] (ih (g := []) (endsOperand_word _ _ _))
          have hall : Continues floor _ us _ := htest.parentheses g
          simpa [tokens] using hall
      | isNotNull =>
          have htest : Continues 0 _ (⟨[], .mark .closeParen⟩ :: us) _ :=
            Continues.isNotNull [' '] [' '] [' '] (ih (g := []) (endsOperand_word _ _ _))
          have hall : Continues floor _ us _ := htest.parentheses g
          simpa [tokens] using hall

/-- A plain expression is read back in front of what ends one. -/
lemma expression_tokens {e : Expr} (he : e.isPlain) (hus : EndsExpression us) :
    expression (e.tokens g ++ us) = some (.ok e, us) :=
  (continues_tokens he hus.toEndsOperand).expression hus

end Expr

/-! ### Nodes -/

namespace NodePattern

/-- A plain node but for its properties, which are read from what follows its labels. -/
lemma node_of_properties {n : NodePattern} {m : Mark} {g' : List Char} {ts : List Token}
    {properties : Option PropertyMap} (hn : n.isPlain) (hm : m ≠ .colon) (g g'' : List Char)
    (h : optionalProperties (⟨g', .mark m⟩ :: ts)
      = some (.ok properties, ⟨g'', .mark .closeParen⟩ :: us)) :
    node (⟨g, .mark .openParen⟩ :: (n.name.toList.map (fun v => ⟨[], .word v⟩)
        ++ (n.labels.flatMap (fun l => [⟨[], .mark .colon⟩, ⟨[], .word l.text⟩])
          ++ ⟨g', .mark m⟩ :: ts)))
      = some (.ok { n with properties }, us) := by
  obtain ⟨v, ls, old⟩ := n
  simp only [isPlain, Bool.and_eq_true] at hn
  have hmark : Cypher.name (⟨g', .mark m⟩ :: ts) = none := rfl
  have hname := optionalName_tokens hn.1.1 (name_labels hmark ls)
  have hlabels := labels_tokens (mark_cons_of_ne hm g' ts) ls
  simp only [node, mark_cons, Option.bind_eq_bind, Option.bind_some]
  rw [hname]
  simp only [hlabels, h, mark_cons, Option.bind_some]
  rfl

/-- **A plain node** is read back. -/
lemma node_tokens {n : NodePattern} (hn : n.isPlain) (g : List Char) (us : List Token) :
    node (n.tokens g ++ us) = some (.ok n, us) := by
  have hclose : optionalProperties (⟨[], .mark .closeParen⟩ :: us)
      = some (.ok none, ⟨[], .mark .closeParen⟩ :: us) := rfl
  have hread := node_of_properties hn (by decide) g [] hclose
  have hproperties : n.properties = none := by
    simp only [isPlain, Bool.and_eq_true, Option.isNone_iff_eq_none] at hn
    exact hn.2
  rw [← hproperties] at hread
  simpa [tokens] using hread

end NodePattern

/-! ### Edges -/

namespace EdgePattern

variable {m : Mark} {g' : List Char} {ts : List Token}

/-- Groups are read back in front of another sign. -/
lemma groups_tokens (gs : List Group) (hcolon : m ≠ .colon) (hbar : m ≠ .bar) :
    Cypher.groups (groupTokens gs ++ ⟨g', .mark m⟩ :: ts) = some (gs, ⟨g', .mark m⟩ :: ts) := by
  cases gs with
  | nil => rw [groupTokens, List.nil_append, groups_eq, mark_cons_of_ne hcolon]
  | cons h gs =>
      have hmore := moreGroups_tokens (mark_cons_of_ne hbar g' ts) gs
      simp [groups_eq, groupTokens, hmore]

/-- A colon or the sign behind the groups is no variable. -/
lemma name_groups (gs : List Group) :
    Cypher.name (groupTokens gs ++ ⟨g', .mark m⟩ :: ts) = none := by
  cases gs <;> rfl

/-- What stands in brackets but for the properties, which are read from what follows the groups. -/
lemma edgeDetail_of_properties (direction : PatternDirection) (gs : List Group) (g'' : List Char)
    {properties : Option PropertyMap} (hcolon : m ≠ .colon) (hbar : m ≠ .bar) (hstar : m ≠ .star)
    (h : optionalProperties (⟨g', .mark m⟩ :: ts)
      = some (.ok properties, ⟨g'', .mark .closeBracket⟩ :: us)) :
    edgeDetail direction (⟨[], .mark .openBracket⟩ :: (groupTokens gs ++ ⟨g', .mark m⟩ :: ts))
      = some (.ok { groups := gs, direction, properties }, us) := by
  have hname : optionalName (groupTokens gs ++ ⟨g', .mark m⟩ :: ts)
      = (none, groupTokens gs ++ ⟨g', .mark m⟩ :: ts) := by
    rw [optionalName, name_groups]
  have hlength : optionalLength (⟨g', .mark m⟩ :: ts) = (.ok none, ⟨g', .mark m⟩ :: ts) :=
    optionalLength_of_ne (by simpa using hstar) g' ts
  rw [edgeDetail, mark_cons, Option.bind_eq_bind, Option.bind_some, hname]
  simp only [groups_tokens gs hcolon hbar, hlength, h, mark_cons, Option.bind_eq_bind,
    Option.bind_some]
  rfl

/-- What stands between brackets is read back, and so is that there are none. -/
lemma optionalDetail_tokens (drawing : Drawing) (e : EdgePattern) (us : List Token) :
    optionalDetail .both (e.detailTokens drawing ++ ⟨[], .mark .minus⟩ :: us)
      = some (.ok { groups := e.groups, direction := .both }, ⟨[], .mark .minus⟩ :: us) := by
  rw [detailTokens]
  split
  · rename_i hnone
    simp only [Bool.and_eq_true, List.isEmpty_iff] at hnone
    rw [hnone.1]
    rfl
  · have hclose : optionalProperties (⟨[], .mark .closeBracket⟩ :: ⟨[], .mark .minus⟩ :: us)
        = some (.ok none, ⟨[], .mark .closeBracket⟩ :: ⟨[], .mark .minus⟩ :: us) := rfl
    have hdetail :=
      edgeDetail_of_properties .both e.groups [] (by decide) (by decide) (by decide) hclose
    simpa [optionalDetail, startsWithMark] using hdetail

/-- The heads of an edge tell its direction. -/
lemma drawnDirection_heads (drawing : Drawing) (d : PatternDirection) :
    drawnDirection (heads drawing d).1 (heads drawing d).2 = d := by
  obtain ⟨b, h⟩ := drawing
  cases d <;> cases h <;> rfl

/-- Whatever stands between the two strokes of an edge. -/
lemma edge_strokeTokens (drawing : Drawing) (d : PatternDirection) {detail : EdgePattern}
    (h : ∀ us, optionalDetail .both (ts ++ ⟨[], .mark .minus⟩ :: us)
      = some (.ok detail, ⟨[], .mark .minus⟩ :: us))
    (hus : mark .greater us = none) :
    edge (strokeTokens drawing d ts ++ us) = some (.ok { detail with direction := d }, us) := by
  have hright := optionalMark_tokens hus (heads drawing d).2
  simp only [strokeTokens, List.cons_append, List.append_assoc, edge]
  rw [optionalMark_tokens rfl]
  simp only [mark_cons, h, hright, drawnDirection_heads, Option.bind_eq_bind, Option.bind_some]
  rfl

lemma startsEdge_strokeTokens (drawing : Drawing) (d : PatternDirection) (ts us : List Token) :
    startsEdge (strokeTokens drawing d ts ++ us) := by
  rw [strokeTokens]
  split <;> rfl

/-- **A plain edge** is read back, however it was drawn. -/
lemma edge_tokens (drawing : Drawing) {e : EdgePattern} (he : e.isPlain)
    (hus : mark .greater us = none) :
    edge (e.tokens drawing ++ us) = some (.ok e, us) := by
  obtain ⟨v, gs, direction, length, properties⟩ := e
  simp only [isPlain, Bool.and_eq_true, Option.isNone_iff_eq_none] at he
  obtain ⟨⟨⟨rfl, -⟩, rfl⟩, rfl⟩ := he
  exact edge_strokeTokens drawing direction
    (optionalDetail_tokens drawing { groups := gs, direction }) hus

lemma startsEdge_tokens (drawing : Drawing) (e : EdgePattern) (us : List Token) :
    startsEdge (e.tokens drawing ++ us) :=
  startsEdge_strokeTokens drawing e.direction _ us

end EdgePattern

/-! ### Paths -/

namespace PathPattern

lemma length_le_segmentTokens (draw : Nat → Drawing) (ss : List Segment) :
    ss.length ≤ (segmentTokens draw ss).length := by
  induction ss generalizing draw with
  | nil => exact Nat.zero_le _
  | cons s ss ih =>
      have hrest := ih fun i => draw (i + 1)
      simp only [segmentTokens, NodePattern.tokens, List.length_append, List.length_cons]
      omega

/-- Segments are read back with more fuel than there are segments. -/
lemma segments_tokens (draw : Nat → Drawing) {ss : List Segment}
    (h : ∀ s ∈ ss, s.edge.isPlain && s.node.isPlain) {k : Nat} (hk : ss.length < k)
    (hus : startsEdge us = false) :
    Cypher.segments k (segmentTokens draw ss ++ us) = some (.ok ss, us) := by
  induction ss generalizing draw k with
  | nil =>
      obtain ⟨k, rfl⟩ := Nat.exists_eq_add_of_lt hk
      simp [Cypher.segments, segmentTokens, hus]
  | cons s ss ih =>
      obtain ⟨k, rfl⟩ := Nat.exists_eq_add_of_lt hk
      obtain ⟨hedge, hnode⟩ := Bool.and_eq_true_iff.1 (h s List.mem_cons_self)
      have hrest := ih (fun i => draw (i + 1)) (fun s' hs' => h s' (List.mem_cons_of_mem _ hs'))
        (k := (s :: ss).length + k) (by rw [List.length_cons]; omega)
      have hnext :
          mark .greater (s.node.tokens [] ++ (segmentTokens (fun i => draw (i + 1)) ss ++ us))
          = none := rfl
      have hedge' := s.edge.edge_tokens (draw 0) hedge hnext
      simp only [segmentTokens, List.append_assoc, Cypher.segments, EdgePattern.startsEdge_tokens,
        if_true, hedge',
        NodePattern.node_tokens hnode, hrest, Option.bind_eq_bind, Option.bind_some]
      rfl

/-- **A plain path** is read back. -/
lemma path_tokens (draw : Nat → Drawing) {p : PathPattern} (hp : p.isPlain)
    (hus : startsEdge us = false) :
    path (p.tokens draw g ++ us) = some (.ok p, us) := by
  simp only [isPlain, Bool.and_eq_true, List.all_eq_true] at hp
  have hlength := length_le_segmentTokens draw p.segments
  have hsegments := segments_tokens draw (fun s hs => Bool.and_eq_true_iff.2 (hp.2 s hs))
    (k := (segmentTokens draw p.segments ++ us).length + 1) (by grind) hus
  simp only [tokens, List.append_assoc, path, NodePattern.node_tokens hp.1, hsegments,
    Option.bind_eq_bind, Option.bind_some]
  rfl

end PathPattern

/-! ### Clauses -/

namespace Cypher

variable {α : Type} {path : PathPattern} {filter : Option Expr} {name : String} {ps : List Token}

/-- A list of one item ends in front of what is no comma. -/
lemma commaList_of_one {item : Phrase α} {x : α} (h : item ts = some (.ok x, us))
    (hcomma : mark .comma us = none)
    (fuel : Nat) : commaList item (fuel + 1) ts = some (.ok [x], us) := by
  simp only [commaList, h, hcomma, Option.bind_eq_bind, Option.bind_some]
  rfl

lemma keyword_match (k : Keyword) (g : List Char) (ts : List Token) :
    keyword k (⟨g, .word "MATCH"⟩ :: ts) = if .matchWord = k then some ts else none :=
  keyword_letters (by decide +kernel) k g ts

lemma keyword_return (k : Keyword) (g : List Char) (ts : List Token) :
    keyword k (⟨g, .word "RETURN"⟩ :: ts) = if .returnWord = k then some ts else none :=
  keyword_letters (by decide +kernel) k g ts

/-- Tokens that are read as a path in front of everything that cannot continue it. -/
def ReadsAsPath (ps : List Token) (p : PathPattern) : Prop :=
  ∀ us, startsEdge us = false → Cypher.path (ps ++ us) = some (.ok p, us)

/-- Tokens that are read as a filter in front of everything that cannot continue it. -/
inductive ReadsAsFilter : List Token → Option Expr → Prop
  | none : ReadsAsFilter [] none
  | some {ts : List Token} {e : Expr} (h : ∀ us,
      EndsExpression us → expression (ts ++ us) = some (.ok e, us)) :
      ReadsAsFilter (⟨[' '], .word "WHERE"⟩ :: ts) (some e)

lemma readsAsFilter_filterTokens (hfilter : ∀ e ∈ filter, e.isPlain) :
    ReadsAsFilter (filterTokens filter) filter := by
  cases filter with
  | none => exact .none
  | some e => exact .some fun us hus => Expr.expression_tokens (hfilter e rfl) hus

lemma endsExpression_return (g : List Char) (us : List Token) :
    EndsExpression (⟨g, .word "RETURN"⟩ :: us) :=
  have hreturn : Keyword.ofWord? "RETURN" = some .returnWord :=
    ofWord?_of_letters (by decide +kernel)
  ⟨endsOperand_word _ _ _, nullTest?_word (by simp [hreturn]) _ _, by simp [binaryOp?, hreturn]⟩

/-- A filter is read back in front of what is returned. -/
lemma optionalFilter_tokens (hfilter : ReadsAsFilter ts filter) (g : List Char) (us : List Token) :
    optionalFilter (ts ++ ⟨g, .word "RETURN"⟩ :: us)
      = some (.ok filter, ⟨g, .word "RETURN"⟩ :: us) := by
  cases hfilter with
  | none => simp [optionalFilter, keyword_return]
  | some h =>
      have he := h _ (endsExpression_return g us)
      have hwhere := keyword_letters (k := .whereWord) (w := "WHERE") (by decide +kernel)
      simp [optionalFilter, hwhere, he, Except.map]

/-- A clause to match is read back. -/
lemma matchPart_tokens (hpath : ReadsAsPath ps path) (hfilter : ReadsAsFilter ts filter)
    (g : List Char) (us : List Token) :
    matchPart (⟨[], .word "MATCH"⟩ :: (ps ++ (ts ++ ⟨g, .word "RETURN"⟩ :: us)))
      = some (.ok ({ paths := [path] }, filter), ⟨g, .word "RETURN"⟩ :: us) := by
  have hpattern : ∀ us, startsEdge us = false → mark .comma us = none →
      pattern (ps ++ us) = some (.ok [path], us) := fun us hedge hcomma =>
    commaList_of_one (hpath us hedge) hcomma _
  have hnext :=
    hpattern (ts ++ ⟨g, .word "RETURN"⟩ :: us) (by cases hfilter <;> rfl) (by cases hfilter <;> rfl)
  have hoptional :
      keyword .optional (⟨[], .word "MATCH"⟩ :: (ps ++ (ts ++ ⟨g, .word "RETURN"⟩ :: us)))
      = none := by
    rw [keyword_match]; rfl
  simp only [matchPart, optionalKeyword, hoptional, keyword_match, if_true, hnext,
    optionalFilter_tokens hfilter, Option.bind_eq_bind, Option.bind_some]
  rfl

/-- There is one match. -/
lemma matchParts_tokens (hpath : ReadsAsPath ps path) (hfilter : ReadsAsFilter ts filter)
    (g : List Char) (us : List Token) (fuel : Nat) :
    matchParts (fuel + 2) (⟨[], .word "MATCH"⟩ :: (ps ++ (ts ++ ⟨g, .word "RETURN"⟩ :: us)))
      = some (.ok [({ paths := [path] }, filter)], ⟨g, .word "RETURN"⟩ :: us) := by
  have hrest : matchParts (fuel + 1) (⟨g, .word "RETURN"⟩ :: us)
      = some (.ok [], ⟨g, .word "RETURN"⟩ :: us) := by
    simp [matchParts, startsWithKeyword, keyword_return]
  rw [matchParts]
  simp only [startsWithKeyword, keyword_match, if_true, Option.isSome_some, Bool.true_or,
    matchPart_tokens hpath hfilter, hrest, Option.bind_eq_bind, Option.bind_some]
  rfl

/-- Nothing is written. -/
lemma writeClauses_return (g : List Char) (us : List Token) (fuel : Nat) :
    writeClauses (fuel + 1) (⟨g, .word "RETURN"⟩ :: us)
      = some (.ok [], ⟨g, .word "RETURN"⟩ :: us) := by
  have hreturn : Keyword.ofWord? "RETURN" = some .returnWord :=
    ofWord?_of_letters (by decide +kernel)
  simp [writeClauses, writeClause?, Lexeme.keyword?, hreturn]

lemma keyword_limit (k : Keyword) (g : List Char) (ts : List Token) :
    keyword k (⟨g, .word "LIMIT"⟩ :: ts) = if .limit = k then some ts else none :=
  keyword_letters (by decide +kernel) k g ts

lemma keyword_limitTokens {k : Keyword} (hk : k ≠ .limit) (limit : Option Nat) :
    keyword k (limitTokens limit) = none := by
  cases limit with
  | none => rfl
  | some n => rw [limitTokens, keyword_limit, if_neg hk.symm]

lemma endsExpression_limitTokens (limit : Option Nat) : EndsExpression (limitTokens limit) := by
  cases limit with
  | none => exact ⟨⟨rfl, rfl⟩, rfl, rfl⟩
  | some k =>
      have hlimit : Keyword.ofWord? "LIMIT" = some .limit := ofWord?_of_letters (by decide +kernel)
      exact ⟨endsOperand_word _ _ _, nullTest?_word (by simp [hlimit]) _ _,
        by simp [limitTokens, binaryOp?, hlimit]⟩

/-- What is returned is read back in front of a limit. -/
lemma returnClause_tokens (hname : isVariable name) (g g' : List Char) (limit : Option Nat) :
    returnClause (⟨g, .word "RETURN"⟩ :: ⟨g', .word name⟩ :: limitTokens limit)
      = some (.ok (some { items := [{ value := .var name }] }), limitTokens limit) := by
  have hvalue : expression (⟨g', .word name⟩ :: limitTokens limit)
      = some (.ok (.var name), limitTokens limit) :=
    Expr.expression_tokens (e := .var name) (g := g') hname (endsExpression_limitTokens limit)
  have hitem : returnItem (⟨g', .word name⟩ :: limitTokens limit)
      = some (.ok { value := .var name }, limitTokens limit) := by
    simp only [returnItem, hvalue, optionalHeading, keyword_limitTokens (k := .asWord) (by decide),
      Option.bind_eq_bind,
      Option.bind_some]
    rfl
  have hitems := commaList_of_one hitem (by cases limit <;> rfl)
  simp only [returnClause, keyword_return, if_true, optionalKeyword, keyword_variable hname, hitems,
    Option.bind_eq_bind, Option.bind_some]
  rfl

/-- A count that an integer of 64 bits can be. -/
lemma readCount_toDigits (clause : String) {k : Nat} (hk : (k : Int) ≤ Int64.maxValue.toInt) :
    readCount clause false (Nat.toDigits 10 k) = .ok k := by
  have hmin : Int64.minValue.toInt ≤ (k : Int) := Int.le_trans (by decide) (Int.natCast_nonneg k)
  have hvalue : (Int64.ofInt k).toInt = k := by
    rw [Int64.toInt_maxValue] at hk
    exact Int64.toInt_ofInt_of_le (by omega) (by omega)
  have hread : readInteger false (Nat.toDigits 10 k) = .ok (.ofInt k) := by
    simp only [readInteger, natOfDigits, Nat.ofDigitChars_ten_toDigits]
    exact if_pos ⟨hmin, hk⟩
  have hcount : readCount clause false (Nat.toDigits 10 k)
      = if (Int64.ofInt k).toInt < 0 then .error (.negativeCount clause (Int64.ofInt k).toInt)
        else .ok (Int64.ofInt k).toInt.toNat := by
    rw [readCount, hread]
    rfl
  rw [hcount, hvalue, if_neg (by omega), Int.toNat_natCast]

/-- A limit is read back if it is in range. -/
lemma countClause_limitTokens {limit : Option Nat}
    (hlimit : ∀ k ∈ limit, (k : Int) ≤ Int64.maxValue.toInt)
    (clause : String) : countClause .limit clause (limitTokens limit) = some (.ok limit, []) := by
  cases limit with
  | none => rfl
  | some k =>
      simp [countClause, limitTokens, keyword_limit,
        readCount_toDigits clause (hlimit k rfl), Except.map]

/-- **The tokens of a query** are read as the query, however its path and its filter are written. -/
lemma queryOfTokens?_queryTokens (hpath : ReadsAsPath ps path) (hfilter : ReadsAsFilter ts filter)
    (hname : isVariable name) {limit : Option Nat}
    (hlimit : ∀ k ∈ limit, (k : Int) ≤ Int64.maxValue.toInt) :
    queryOfTokens? (queryTokens ps ts name limit)
      = some (.ok { Query.matching path filter name with limit }) := by
  obtain ⟨n, hn⟩ : ∃ n, (queryTokens ps ts name limit).length = n + 1 := ⟨_, rfl⟩
  have hstatement : statement (queryTokens ps ts name limit)
      = some (.ok { Query.matching path filter name with limit }, []) := by
    rw [statement, hn, queryTokens, matchParts_tokens hpath hfilter]
    simp only [writeClauses_return, returnClause_tokens hname, orderClause, countClause,
      keyword_limitTokens (k := .order)
        (by decide), keyword_limitTokens (k := .skip) (by decide), Option.bind_eq_bind,
      Option.bind_some]
    have hcount := countClause_limitTokens hlimit "LIMIT"
    rw [countClause] at hcount
    rw [hcount]
    rfl
  rw [queryOfTokens?, hstatement]
  rfl

/-- A query is read back from its tokens, whatever the filter looks like. -/
lemma queryOfTokens?_framedTokens (draw : Nat → Drawing) (hpath : path.isPlain)
    (hfilter : ReadsAsFilter ts filter) (hname : isVariable name) {limit : Option Nat}
    (hlimit : ∀ k ∈ limit, (k : Int) ≤ Int64.maxValue.toInt) :
    queryOfTokens? (framedTokens draw path ts name limit)
      = some (.ok { Query.matching path filter name with limit }) :=
  queryOfTokens?_queryTokens (fun _ hedge => path.path_tokens draw hpath hedge) hfilter hname hlimit

/-- A query is read back from the tokens of its text. -/
lemma queryOfTokens?_matchingTokens (draw : Nat → Drawing) (hpath : path.isPlain)
    (hfilter : ∀ e ∈ filter, e.isPlain) (hname : isVariable name) {limit : Option Nat}
    (hlimit : ∀ k ∈ limit, (k : Int) ≤ Int64.maxValue.toInt) :
    queryOfTokens? (matchingTokens draw path filter name limit)
      = some (.ok { Query.matching path filter name with limit }) :=
  queryOfTokens?_framedTokens draw hpath (readsAsFilter_filterTokens hfilter) hname hlimit

end Cypher

/-- **What was written down is read back.** A plain path is matched and plainly filtered, and a
variable is returned, with no limit or with one that an integer of 64 bits can be. The text of this
query is read as the query, however its edges were drawn. -/
theorem Query.ofText_matchingText (draw : Nat → Drawing) {path : PathPattern} {filter : Option Expr}
    {name : String} {limit : Option Nat} (hpath : path.isPlain) (hfilter : ∀ e ∈ filter, e.isPlain)
    (hname : isVariable name) (hlimit : ∀ k ∈ limit, (k : Int) ≤ Int64.maxValue.toInt) :
    Query.ofText (matchingText draw path filter name limit)
      = .ok (limit.elim (Query.matching path filter name)
        (Query.matching path filter name).withLimit) := by
  rw [Query.ofText, ofText?_matchingText draw hpath hfilter hname, Option.bind_some,
    queryOfTokens?_matchingTokens draw hpath hfilter hname hlimit]
  cases limit <;> rfl

/-- What some methods call or contain, if it is not known to start at a line above: a variable may
start with a keyword, a group may be one, and a number may have its sign right after a comparison.
-/
theorem Query.ofText_matchingText_of_calls :
    let path : PathPattern :=
      { start := { name := some "notes", labels := [⟨"METHOD"⟩] }
        segments := [
          ⟨{ groups := [⟨"CALL"⟩, ⟨"CONTAINS"⟩], direction := .outgoing }, { name := some "c" }⟩,
          ⟨{ direction := .both }, {}⟩, ⟨{ direction := .incoming }, { labels := [⟨"FILE"⟩] }⟩] }
    let filter : Expr := .binary (.connective .and)
      (.unary .not (.binary (.comparison .lt) (.property "c" "line") (.literal (.integer (-5)))))
      (.unary .isNotNull (.var "notes"))
    Query.ofText ("MATCH (notes:METHOD)-[:CALL|CONTAINS]->(c)<-->()<-[]-(:FILE)"
        ++ " WHERE ((NOT (c.line < -5)) AND (notes IS NOT NULL)) RETURN c LIMIT 10")
      = .ok ((Query.matching path (some filter) "c").withLimit 10) := by
  intro path filter
  have htext : matchingText (fun i => ⟨i == 2, true⟩) path (some filter) "c" (some 10)
      = "MATCH (notes:METHOD)-[:CALL|CONTAINS]->(c)<-->()<-[]-(:FILE)"
        ++ " WHERE ((NOT (c.line < -5)) AND (notes IS NOT NULL)) RETURN c LIMIT 10" := by
          decide +kernel
  have hfilter : ∀ e ∈ some filter, e.isPlain := by
    rintro e ⟨⟩
    decide +kernel
  have hlimit : ∀ k ∈ some (10 : Nat), (k : Int) ≤ Int64.maxValue.toInt := by
    rintro k ⟨⟩
    decide
  rw [← htext]
  exact Query.ofText_matchingText _ (by decide +kernel) hfilter (by decide +kernel) hlimit

end CodeGraph
