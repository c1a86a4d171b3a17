import CodeGraph.Proofs.Cypher.Precedence
import CodeGraph.Proofs.Cypher.Quoting

/-!
Queries with quoted texts.

A text may stand wherever a literal may: as any operand of a filter, and as a setting in the map of
a node or of an edge. Whoever writes the query has a choice at each of these places, between the
quotes and between the ways to write the ends of lines, and with more or fewer parentheses around
operands. Each choice is read back as the same query.

* `Expr.Spelled`, `PropertyMap.Spelled`, `PathPattern.Spelled`, …: the ways to write a query down.
* `Expr.Spelled.exists_tokens`, `PropertyMap.Spelled.exists_tokens`,
  `PathPattern.Spelled.exists_tokens`, …: they are read back.
* `Query.ofText_quoted`: texts between quotes lose nothing.
-/

namespace CodeGraph

open Cypher

/-! ### Spellings -/

/-- The ways to write a literal. -/
inductive Property.Spelled : Property → String → Prop
  | plain {p : Property} (hp : p.isPlain) : Spelled p p.display
  | quoted (w : Quotation) (s : String) : Spelled (.string s) (w.text s)

/-- The ways to write an expression whose outermost operator has a level. What has no operator, or
stands in parentheses, binds tighter than all of them. -/
inductive Expr.Spelled : Expr → (level : Nat) → String → Prop
  | plain {e : Expr} (he : e.isPlain) : Spelled e 7 e.text
  | quoted (w : Quotation) (s : String) : Spelled (.literal (.string s)) 7 (w.text s)
  | parentheses {e : Expr} {k : Nat} {t : String} (h : Spelled e k t) :
      Spelled e 7 ("(" ++ t ++ ")")
  | binary {op : BinaryOp} {l r : Expr} {i j : Nat} {tl tr : String} (hl : Spelled l i tl)
      (hr : Spelled r j tr)
      (hi : op.level ≤ i) (hj : op.level < j) :
        Spelled (.binary op l r) op.level (tl ++ " " ++ op.name ++ " " ++ tr)
  | not {e : Expr} {k : Nat} {t : String} (h : Spelled e k t) (hk : UnaryOp.not.level ≤ k) :
      Spelled (.unary .not e) UnaryOp.not.level ("NOT " ++ t)
  | isNull {e : Expr} {k : Nat} {t : String} (h : Spelled e k t) (hk : UnaryOp.isNull.level ≤ k) :
      Spelled (.unary .isNull e) UnaryOp.isNull.level (t ++ " IS NULL")
  | isNotNull {e : Expr} {k : Nat} {t : String} (h : Spelled e k t)
      (hk : UnaryOp.isNotNull.level ≤ k) :
      Spelled (.unary .isNotNull e) UnaryOp.isNotNull.level (t ++ " IS NOT NULL")

/-- The ways to write a filter that may be left out. -/
inductive FilterSpelled : Option Expr → String → Prop
  | none : FilterSpelled none ""
  | some {e : Expr} {k : Nat} {t : String} (h : e.Spelled k t) :
      FilterSpelled (some e) (" WHERE " ++ t)

/-- The ways to write the settings of a map up to its closing brace. -/
inductive SettingsSpelled : List (String × Property) → String → Prop
  | last {key t : String} {p : Property} (hkey : isIdentifier key) (hp : p.Spelled t) :
      SettingsSpelled [(key, p)] (key ++ ": " ++ t ++ "\x7d")
  | more {key t t' : String} {p : Property} {rest : List (String × Property)}
      (hkey : isIdentifier key)
      (hp : p.Spelled t) (h : SettingsSpelled rest t') :
      SettingsSpelled ((key, p) :: rest) (key ++ ": " ++ t ++ ", " ++ t')

/-- The ways to write a map in braces. -/
inductive PropertyMap.Spelled : PropertyMap → String → Prop
  | empty : Spelled {} "\x7b\x7d"
  | settings {entries : List (String × Property)} {t : String} (h : SettingsSpelled entries t) :
      Spelled (.ofList entries) ("\x7b" ++ t)

/-- The ways to write a node, perhaps with a map. -/
inductive NodePattern.Spelled : NodePattern → String → Prop
  | plain {n : NodePattern} (hn : n.isPlain) : Spelled n n.text
  | mapped {n : NodePattern} {m : PropertyMap} {t : String} (hn : n.isPlain) (hm : m.Spelled t) :
      Spelled { n with properties := some m }
        ("(" ++ n.name.getD "" ++ String.join (n.labels.map fun l => ":" ++ l.text) ++ " "
          ++ t ++ ")")

/-- The ways to write an edge, perhaps with a map. -/
inductive EdgePattern.Spelled : EdgePattern → String → Prop
  | plain {e : EdgePattern} (drawing : Drawing) (he : e.isPlain) : Spelled e (e.text drawing)
  | mapped {e : EdgePattern} {m : PropertyMap} {t : String} (drawing : Drawing) (he : e.isPlain)
      (hm : m.Spelled t) :
      Spelled { e with properties := some m }
        ((if (heads drawing e.direction).1 then "<" else "") ++ "-[" ++ groupsText e.groups ++ " "
          ++ t ++ "]-"
          ++ (if (heads drawing e.direction).2 then ">" else ""))

/-- The ways to write edges and the nodes that they lead to. -/
inductive SegmentsSpelled : List Segment → String → Prop
  | nil : SegmentsSpelled [] ""
  | cons {e : EdgePattern} {n : NodePattern} {rest : List Segment} {te tn t : String}
      (he : e.Spelled te)
      (hn : n.Spelled tn) (h : SegmentsSpelled rest t) :
        SegmentsSpelled (⟨e, n⟩ :: rest) (te ++ tn ++ t)

/-- The ways to write a path. -/
inductive PathPattern.Spelled : PathPattern → String → Prop
  | mk {n : NodePattern} {ss : List Segment} {tn t : String} (hn : n.Spelled tn)
      (h : SegmentsSpelled ss t) :
      Spelled ⟨n, ss⟩ (tn ++ t)

/-! ### Literals -/

variable {g rest : List Char} {us : List Token} {t : String}

namespace Property

/-- A literal that was written down is one token, which is read back. -/
lemma Spelled.exists_lexeme {p : Property} (h : p.Spelled t) :
    ∃ l : Lexeme, l.literal? = some (.ok p)
      ∧ ∀ g rest, Gap g → EndsNumber rest → Reads (g ++ (t.toList ++ rest)) [⟨g, l⟩] rest := by
  cases h with
  | quoted w s => exact ⟨.quoted s, rfl, fun g rest hg _ => .cons hg (w.lexeme?_text s rest) .done⟩
  | plain hp =>
      have hreads : ∀ g rest, Gap g → EndsNumber rest →
          Reads (g ++ (p.display.toList ++ rest)) (p.tokens g) rest :=
        fun g rest => Expr.reads_text (e := .literal p) hp
      cases p with
      | integer value =>
          refine ⟨_, ?_, hreads⟩
          rw [Lexeme.literal?, readInteger_toDigits]
          rfl
      | boolean value =>
          exact ⟨.word (if value then "true" else "false"), by cases value <;> decide +kernel,
            hreads⟩
      | null => exact ⟨.word "null", by decide +kernel, hreads⟩
      | string s => cases hp
      | float x => cases hp

end Property

/-! ### Expressions -/

namespace Expr

variable {e : Expr} {k floor : Nat}

lemma Spelled.level_pos (h : e.Spelled k t) : 0 < k := by
  cases h with
  | binary => exact BinaryOp.level_pos _
  | _ => exact Nat.succ_pos _

lemma expressionAt_quoted (s : String) (fuel : Nat) :
    expressionAt (fuel + 1) floor (⟨g, .quoted s⟩ :: us)
      = extendAt fuel floor (.ok (.literal (.string s))) us :=
  expressionAt_of_atom rfl rfl rfl rfl

/-- **An expression that was written down** has tokens of its own, which are read back in front of
what does not bind tighter. -/
lemma Spelled.exists_tokens (h : e.Spelled k t) : ∃ tokens : List Char → List Token,
    (∀ {g rest}, Gap g → EndsNumber rest → Reads (g ++ (t.toList ++ rest)) (tokens g) rest)
      ∧ ∀ {g us floor}, floor < k → Stops k us → Continues floor (tokens g) us e := by
  induction h with
  | @plain e he =>
      exact ⟨e.tokens, reads_text he, fun _ hus => continues_tokens he hus.toEndsOperand⟩
  | quoted w s =>
      refine ⟨fun g => [⟨g, .quoted s⟩], fun hg _ => .cons hg (w.lexeme?_text s _) .done,
        fun _ _ => ?_⟩
      exact .of_step (Nat.succ_pos _) (expressionAt_quoted s)
  | @parentheses e k t h ih =>
      obtain ⟨tokens, hreads, hcontinues⟩ := ih
      refine ⟨encloseTokens true tokens, reads_enclose true hreads, fun {g us floor} _ _ => ?_⟩
      have hinner := hcontinues (g := []) h.level_pos ((endsExpression_close [] us).stops k)
      exact hinner.parentheses g
  | @binary op l r i j tl tr hl hr hi hj ihl ihr =>
      obtain ⟨ls, hreadsl, hcontinuesl⟩ := ihl
      obtain ⟨rs, hreadsr, hcontinuesr⟩ := ihr
      refine ⟨fun g => ls g ++ (op.tokens ++ rs [' ']), fun hg hrest => ?_, fun hfloor hus => ?_⟩
      · have hall :=
          (hreadsl hg (endsNumber_blank _)).trans
          ((op.reads_name _).trans (hreadsr gap_blank hrest))
        simpa using hall
      · exact Continues.binary (hcontinuesl (hfloor.trans_le hi) (stops_tokens hi _))
          (hcontinuesr hj (hus.mono hj.le)) hfloor hus
  | @not e k t h hk ih =>
      obtain ⟨tokens, hreads, hcontinues⟩ := ih
      refine ⟨fun g => ⟨g, .word "NOT"⟩ :: tokens [' '], fun hg hrest => ?_, fun hfloor hus => ?_⟩
      · have hnot := Reads.cons (w := ['N', 'O', 'T']) hg rfl (hreads gap_blank hrest)
        simpa using hnot
      · have hand : Stops (BinaryOp.connective .and).level _ :=
          ⟨hus.toEndsOperand, fun _ => hus.nullTest (by decide),
            fun p hp => BinaryOp.level_le_and (hus.binaryOp p hp)⟩
        exact Continues.not (hcontinues (Nat.lt_of_lt_of_le (by decide) hk) (hus.mono hk)) hand _
  | @isNull e k t h hk ih =>
      obtain ⟨tokens, hreads, hcontinues⟩ := ih
      refine ⟨fun g => tokens g ++ [⟨[' '], .word "IS"⟩, ⟨[' '], .word "NULL"⟩], fun hg hrest => ?_,
        fun hfloor hus => ?_⟩
      · have hall := (hreads hg (endsNumber_blank _)).trans (reads_isNull hrest.endsWord)
        simpa using hall
      · exact Continues.isNull _ _ (hcontinues (hfloor.trans_le hk) (stops_is hk _ _))
  | @isNotNull e k t h hk ih =>
      obtain ⟨tokens, hreads, hcontinues⟩ := ih
      refine ⟨fun g => tokens g
          ++ [⟨[' '], .word "IS"⟩, ⟨[' '], .word "NOT"⟩, ⟨[' '], .word "NULL"⟩],
        fun hg hrest => ?_, fun hfloor hus => ?_⟩
      · have hall := (hreads hg (endsNumber_blank _)).trans (reads_isNotNull hrest.endsWord)
        simpa using hall
      · exact Continues.isNotNull _ _ _ (hcontinues (hfloor.trans_le hk) (stops_is hk _ _))

end Expr

/-- A filter that was written down is read back. -/
lemma FilterSpelled.exists_tokens {filter : Option Expr} (h : FilterSpelled filter t) : ∃ ts,
    (∀ rest, Reads (t.toList ++ ' ' :: rest) ts (' ' :: rest)) ∧ ReadsAsFilter ts filter := by
  cases h with
  | none => exact ⟨[], fun _ => .done, .none⟩
  | @some e k t h =>
      obtain ⟨tokens, hreads, hcontinues⟩ := h.exists_tokens
      refine ⟨⟨[' '], .word "WHERE"⟩ :: tokens [' '], fun rest => ?_, .some fun us hus => ?_⟩
      · have hwhere :=
          Reads.blank (w := ['W', 'H', 'E', 'R', 'E']) rfl
          (hreads gap_blank (endsNumber_blank rest))
        simpa using hwhere
      · exact (hcontinues h.level_pos (hus.stops k)).expression hus

/-! ### Maps -/

/-- A key, a colon and a value. -/
lemma reads_setting {key : String} {l : Lexeme} (hkey : isIdentifier key)
    (hvalue : ∀ g rest, Gap g → EndsNumber rest → Reads (g ++ (t.toList ++ rest)) [⟨g, l⟩] rest)
    (hg : Gap g)
    (hrest : EndsNumber rest) :
    Reads (g ++ ((key ++ ": " ++ t).toList ++ rest)) [⟨g, .word key⟩, ⟨[], .mark .colon⟩,
      ⟨[' '], l⟩] rest := by
  have hcolon :=
    Reads.mark .nil
    (lexeme?_mark (m := .colon) rfl (by decide) _) (hvalue [' '] rest gap_blank hrest)
  have hall := Reads.cons hg (lexeme?_word hkey (endsWord_cons (by decide) _)) hcolon
  simpa using hall

/-- The settings of a map are read back. -/
lemma SettingsSpelled.exists_tokens {entries : List (String × Property)}
    (h : SettingsSpelled entries t) :
    ∃ tokens : List Char →
      List Token, (∀ {g} rest, Gap g → Reads (g ++ (t.toList ++ rest)) (tokens g) rest)
      ∧ ∀ g us, settings (tokens g ++ us) = some (.ok entries, us) := by
  induction h with
  | @last key t p hkey hp =>
      obtain ⟨l, hl, hvalue⟩ := hp.exists_lexeme
      refine ⟨fun g => [⟨g, .word key⟩, ⟨[], .mark .colon⟩, ⟨[' '], l⟩, ⟨[], .mark .closeBrace⟩],
        fun {g} rest hg => ?_,
        fun g us => ?_⟩
      · have hclose : Reads ('}' :: rest) [⟨[], .mark .closeBrace⟩] rest := .mark .nil rfl .done
        have hall :=
          (reads_setting hkey hvalue hg (endsNumber_cons (by decide) (by decide) _)).trans hclose
        simpa using hall
      · simp [settings, hl, Except.map]
  | @more key t t' p entries hkey hp _ ih =>
      obtain ⟨l, hl, hvalue⟩ := hp.exists_lexeme
      obtain ⟨tokens, hreads, hsettings⟩ := ih
      refine ⟨fun g => ⟨g, .word key⟩ :: ⟨[], .mark .colon⟩ :: ⟨[' '], l⟩
          :: ⟨[], .mark .comma⟩ :: tokens [' '],
        fun {g} rest hg => ?_, fun g us => ?_⟩
      · have hcomma := Reads.mark (c := ',') (m := .comma) .nil rfl (hreads rest gap_blank)
        have hall :=
          (reads_setting hkey hvalue hg (endsNumber_cons (by decide) (by decide) _)).trans hcomma
        simpa using hall
      · simp only [List.cons_append, settings, hl, hsettings]
        rfl

/-- Settings do not start with a sign. -/
lemma Cypher.mark_of_settings {ts : List Token} {p : Read (List (String × Property)) × List Token}
    (h : settings ts = some p) (m : Mark) : mark m ts = none := by
  rw [settings_eq] at h
  obtain ⟨w, hw, -⟩ := Option.bind_eq_some_iff.1 h
  obtain ⟨g, rfl⟩ := word_eq_some_iff.1 hw
  rfl

/-- **A map that was written down** is read back, wherever it stands. -/
lemma PropertyMap.Spelled.exists_tokens {m : PropertyMap} (h : m.Spelled t) :
    ∃ ts, (∀ g rest, Gap g → Reads (g ++ (t.toList ++ rest)) (⟨g, .mark .openBrace⟩ :: ts) rest)
      ∧ ∀ g us, properties (⟨g, .mark .openBrace⟩ :: (ts ++ us)) = some (.ok m, us) := by
  cases h with
  | empty =>
      refine ⟨[⟨[], .mark .closeBrace⟩], fun g rest hg => ?_, fun g us => rfl⟩
      exact .mark (c := '{') hg rfl (.mark (c := '}') .nil rfl .done)
  | @settings entries t h =>
      obtain ⟨tokens, hreads, hsettings⟩ := h.exists_tokens
      refine ⟨tokens [], fun g rest hg => ?_, fun g us => ?_⟩
      · have hopen := Reads.mark (c := '{') (m := .openBrace) hg rfl (hreads rest .nil)
        simpa using hopen
      · rw [properties, mark_cons, Option.bind_eq_bind, Option.bind_some]
        simp only [mark_of_settings (hsettings [] us), hsettings]
        rfl

/-- In a node or in an edge a map may be left out; this one is there. -/
lemma Cypher.optionalProperties_of_properties {ts : List Token} {m : PropertyMap} (g : List Char)
    (h : properties (⟨g, .mark .openBrace⟩ :: ts) = some (.ok m, us)) :
    optionalProperties (⟨g, .mark .openBrace⟩ :: ts) = some (.ok (some m), us) := by
  rw [optionalProperties, startsWithMark, mark_cons, Option.isSome_some, if_pos rfl, h]
  rfl

/-! ### Paths -/

/-- **A node that was written down** is read back. -/
lemma NodePattern.Spelled.exists_tokens {n : NodePattern} (h : n.Spelled t) :
    ∃ tokens : List Char → List Token,
    (∀ {g} rest, Gap g → Reads (g ++ (t.toList ++ rest)) (tokens g) rest)
      ∧ (∀ g us, node (tokens g ++ us) = some (.ok n, us))
      ∧ (∃ cs, t.toList = '(' :: cs) ∧ ∀ g us, mark .greater (tokens g ++ us) = none := by
  cases h with
  | plain hn =>
      exact ⟨n.tokens, fun rest hg => n.reads_text hn hg rest, fun g us => node_tokens hn g us,
        n.exists_toList_text,
        fun _ _ => rfl⟩
  | @mapped n m t hn hm =>
      obtain ⟨ts, hreads, hproperties⟩ := hm.exists_tokens
      refine ⟨fun g => ⟨g, .mark .openParen⟩ :: (n.name.toList.map (fun v => ⟨[], .word v⟩)
        ++ (n.labels.flatMap (fun l => [⟨[], .mark .colon⟩, ⟨[], .word l.text⟩])
          ++ (⟨[' '], .mark .openBrace⟩ :: (ts ++ [⟨[], .mark .closeParen⟩])))), fun {g} rest hg =>
            ?_, fun g us => ?_,
        by simp, fun _ _ => rfl⟩
      · have hclose : Reads (')' :: rest) [⟨[], .mark .closeParen⟩] rest :=
          .mark .nil (lexeme?_mark (m := .closeParen) rfl (by decide) rest) .done
        have hall :=
          reads_head hn hg (endsWord_cons (by decide) _) ((hreads [' '] _ gap_blank).trans hclose)
        simpa [List.flatMap_map] using hall
      · have hread := node_of_properties hn (by decide) g []
          (optionalProperties_of_properties [' ']
            (hproperties [' '] (⟨[], .mark .closeParen⟩ :: us)))
        simpa using hread

/-- **An edge that was written down** is read back. -/
lemma EdgePattern.Spelled.exists_tokens {e : EdgePattern} (h : e.Spelled t) : ∃ ts,
    (∀ rest, Reads (t.toList ++ '(' :: rest) ts ('(' :: rest))
      ∧ (∀ us, mark .greater us = none → edge (ts ++ us) = some (.ok e, us))
      ∧ ∀ us, startsEdge (ts ++ us) := by
  cases h with
  | plain drawing he =>
      exact ⟨e.tokens drawing, e.reads_text drawing he, fun us hus => e.edge_tokens drawing he hus,
        e.startsEdge_tokens drawing⟩
  | @mapped e m t drawing he hm =>
      obtain ⟨v, gs, direction, length, properties⟩ := e
      simp only [isPlain, Bool.and_eq_true, List.all_eq_true, Option.isNone_iff_eq_none] at he
      obtain ⟨⟨⟨rfl, hgroups⟩, rfl⟩, rfl⟩ := he
      obtain ⟨ts, hreads, hproperties⟩ := hm.exists_tokens
      refine ⟨strokeTokens drawing direction (⟨[], .mark .openBracket⟩ :: (groupTokens gs
          ++ (⟨[' '], .mark .openBrace⟩ :: (ts ++ [⟨[], .mark .closeBracket⟩])))),
        fun rest => ?_, fun us hus => ?_, startsEdge_strokeTokens drawing direction _⟩
      · have hclose : ∀ rest,
            Reads (']' :: '-' :: rest) [⟨[], .mark .closeBracket⟩] ('-' :: rest) :=
          fun rest => .mark .nil (lexeme?_mark (m := .closeBracket) rfl (by decide) _) .done
        have hdetail : ∀ rest,
            Reads (("[" ++ groupsText gs ++ " " ++ t ++ "]").toList ++ '-' :: rest)
              (⟨[], .mark .openBracket⟩ :: (groupTokens gs
                ++ (⟨[' '], .mark .openBrace⟩ :: (ts ++ [⟨[], .mark .closeBracket⟩]))))
              ('-' :: rest) := by
          intro rest
          have hmap := (hreads [' '] _ gap_blank).trans (hclose rest)
          have hopen := Reads.mark .nil (lexeme?_mark (m := .openBracket) rfl (by decide) _)
            ((reads_groupsText hgroups (endsWord_cons (by decide) _)).trans hmap)
          simpa using hopen
        have hall := reads_strokes drawing direction (by simp) hdetail rest
        simpa [apply_ite String.toList] using hall
      · have hdetail : ∀ us, optionalDetail .both ((⟨[], .mark .openBracket⟩ :: (groupTokens gs
              ++ (⟨[' '], .mark .openBrace⟩ :: (ts ++ [⟨[], .mark .closeBracket⟩]))))
                ++ ⟨[], .mark .minus⟩ :: us)
            = some (.ok { groups := gs, direction := .both, properties := some m },
              ⟨[], .mark .minus⟩ :: us) := by
          intro us
          have hmap := optionalProperties_of_properties [' ']
            (hproperties [' '] (⟨[], .mark .closeBracket⟩ :: ⟨[], .mark .minus⟩ :: us))
          have hread :=
            edgeDetail_of_properties .both gs [] (by decide) (by decide) (by decide) hmap
          simpa [optionalDetail, startsWithMark] using hread
        exact edge_strokeTokens drawing direction hdetail hus

/-- Edges that were written down are read back with the nodes that they lead to. -/
lemma SegmentsSpelled.exists_tokens {ss : List Segment} (h : SegmentsSpelled ss t) : ∃ ts,
    (∀ rest, Reads (t.toList ++ rest) ts rest) ∧ ss.length ≤ ts.length
      ∧ ∀ us k, startsEdge us = false → ss.length < k →
        segments k (ts ++ us) = some (.ok ss, us) := by
  induction h with
  | nil =>
      refine ⟨[], fun _ => .done, Nat.le_refl _, fun us k hus hk => ?_⟩
      obtain ⟨k, rfl⟩ := Nat.exists_eq_add_of_lt hk
      simp [segments, hus]
  | @cons e n ss te tn t he hn _ ih =>
      obtain ⟨es, hreadse, hedge, hstarts⟩ := he.exists_tokens
      obtain ⟨ns, hreadsn, hnode, ⟨cs, hcs⟩, hgreater⟩ := hn.exists_tokens
      obtain ⟨ts, hreads, hlength, hsegments⟩ := ih
      refine ⟨es ++ (ns [] ++ ts), fun rest => ?_, ?_, fun us k hus hk => ?_⟩
      · have htail := (hreadsn _ .nil).trans (hreads rest)
        rw [hcs] at htail
        have hall := (hreadse _).trans htail
        simpa [hcs] using hall
      · have hone : 0 < (ns []).length := by
          refine List.length_pos_iff.2 fun hnil => ?_
          simpa [hnil, node, mark] using hnode [] []
        simp only [List.length_append, List.length_cons]
        omega
      · obtain ⟨k, rfl⟩ := Nat.exists_eq_add_of_lt hk
        have hrest := hsegments us ((⟨e, n⟩ :: ss).length + k) hus (by rw [List.length_cons]; omega)
        simp only [List.append_assoc, segments, hstarts, if_true, hedge _ (hgreater [] _), hnode,
          hrest, Option.bind_eq_bind, Option.bind_some]
        rfl

/-- **A path that was written down** is read back. -/
lemma PathPattern.Spelled.exists_tokens {p : PathPattern} (h : p.Spelled t) : ∃ ts,
    (∀ rest, Reads (' ' :: (t.toList ++ rest)) ts rest) ∧ ReadsAsPath ts p := by
  obtain ⟨hn, hss⟩ := h
  obtain ⟨ns, hreadsn, hnode, -, -⟩ := hn.exists_tokens
  obtain ⟨ts, hreads, hlength, hsegments⟩ := hss.exists_tokens
  refine ⟨ns [' '] ++ ts, fun rest => ?_, fun us hus => ?_⟩
  · have hall := (hreadsn _ gap_blank).trans (hreads rest)
    simpa using hall
  · have hrest := hsegments us ((ts ++ us).length + 1) hus (by rw [List.length_append]; omega)
    simp only [List.append_assoc, path, hnode, hrest, Option.bind_eq_bind, Option.bind_some]
    rfl

/-! ### Queries -/

/-- **Quoted texts lose nothing.** However the literals of a query are quoted, as operands of its
filter and in the maps of its path, it is read back with the texts that were meant. Alone, a quoted
text is one lexeme whatever follows, and the literal that it was made of. The end of a quoted text
and its escapes are found in two passes that agree: what is in front of the closing quote consists
of whole escapes and other characters, so what a backslash at its end would stand for makes no
difference. -/
theorem Query.ofText_quoted {path : PathPattern} {filter : Option Expr}
    {pathText filterText name : String} {limit : Option Nat} (hpath : path.Spelled pathText)
    (hfilter : FilterSpelled filter filterText) (hname : isVariable name)
    (hlimit : ∀ k ∈ limit, (k : Int) ≤ Int64.maxValue.toInt) :
    Query.ofText ("MATCH " ++ pathText ++ filterText ++ " RETURN " ++ name ++ limitText limit)
        = .ok { Query.matching path filter name with limit }
      ∧ (∀ (w : Quotation) (s : String) (g rest : List Char) (us : List Token),
          lexeme? ((w.text s).toList ++ rest) = some (.quoted s, rest)
            ∧ atom (⟨g, .quoted s⟩ :: us) = some (.ok (.literal (.string s)), us)
            ∧ literal (⟨g, .quoted s⟩ :: us) = some (.ok (.string s), us))
      ∧ ∀ (q : Quote) (dangling cs : List Char),
          lexeme? (q.char :: cs)
              = (quotedBody q.char cs).map (fun p =>
                (.quoted (String.ofList (unescaped dangling p.1)), p.2))
            ∧ ∀ body rest, quotedBody q.char cs = some (body, rest)
              ↔ IsBody q body ∧ cs = body ++ q.char :: rest := by
  refine ⟨?_, fun w s g rest us => ⟨w.lexeme?_text s rest, rfl, rfl⟩,
    fun q dangling cs => ⟨lexeme?_quote_eq q dangling cs, fun body rest => quotedBody_eq_some_iff⟩⟩
  obtain ⟨ps, hreadsp, hpath'⟩ := hpath.exists_tokens
  obtain ⟨ts, hreads, hfilter'⟩ := hfilter.exists_tokens
  rw [Query.ofText, ofText?_queryText hreadsp hreads hname, Option.bind_some,
    queryOfTokens?_queryTokens hpath' hfilter' hname hlimit]

/-- Quotes of both kinds, comments, braces and backslashes between quotes, and the end of a line
written as it is and as a letter. -/
theorem Query.ofText_quoted_of_calls :
    let called : PropertyMap := .ofList [("file", .string "a\\b//"), ("line", .integer 3)]
    let call : PropertyMap := .ofList [("kind", .string "\x7b\"x\"\x7d")]
    let path : PathPattern :=
      { start := { name := some "n", properties := some called }
        segments := [⟨{ direction := .outgoing, properties := some call }, {}⟩] }
    let filter : Expr := .binary (.connective .or)
      (.binary (.comparison .eq) (.property "n" "name") (.literal (.string "it's")))
      (.binary (.text .contains) (.literal (.string "/*\n")) (.literal (.string "\n")))
    Query.ofText
        ("MATCH (n \x7bfile: 'a\\\\b//', line: 3\x7d)-[ \x7bkind: \"\x7b\\\"x\\\"\x7d\"\x7d]->()"
          ++ " WHERE n.name = 'it\\'s' OR (\"/*\n\" CONTAINS '\\n') RETURN n")
      = .ok (Query.matching path (some filter) "n")
    ∧ called.get? "file" = some (.string "a\\b//")
    ∧ call.get? "kind" = some (.string "\x7b\"x\"\x7d") := by
  intro called call path filter
  have hcalled : called.Spelled _ :=
    .settings (.more
      (by decide +kernel) (.quoted ⟨.single, false⟩ _) (.last (by decide +kernel) (.plain rfl)))
  have hcall : call.Spelled _ := .settings (.last (by decide +kernel) (.quoted ⟨.double, false⟩ _))
  have hstart := NodePattern.Spelled.mapped (n := { name := some "n" }) (by decide +kernel) hcalled
  have hedge := EdgePattern.Spelled.mapped (e := { direction := .outgoing }) ⟨true, true⟩ rfl hcall
  have hend := NodePattern.Spelled.plain (n := {}) rfl
  have hpath : path.Spelled _ := .mk hstart (.cons hedge hend .nil)
  have hname : (Expr.property "n" "name").Spelled 7 _ := .plain (by decide +kernel)
  have hequal : (Expr.binary (.comparison .eq) (.property "n" "name")
      (.literal (.string "it's"))).Spelled _ _ :=
    .binary hname (.quoted ⟨.single, false⟩ _) (by decide) (by decide)
  have hcontains : (Expr.binary (.text .contains) (.literal (.string "/*\n"))
      (.literal (.string "\n"))).Spelled _ _ :=
    .binary (.quoted ⟨.double, false⟩ _) (.quoted ⟨.single, true⟩ _) (by decide) (by decide)
  have hfilter : FilterSpelled (some filter) _ :=
    .some (.binary hequal hcontains.parentheses (by decide) (by decide))
  have hlimit : ∀ k ∈ (none : Option Nat), (k : Int) ≤ Int64.maxValue.toInt :=
    fun k hk => absurd hk (Option.not_mem_none k)
  have hread := (Query.ofText_quoted hpath hfilter (show isVariable "n" by decide +kernel) hlimit).1
  refine ⟨(congrArg Query.ofText ?_).trans hread, ?_, ?_⟩
  · decide +kernel
  · rw [PropertyMap.get?_ofList]
    rfl
  · rw [PropertyMap.get?_ofList]
    rfl

end CodeGraph
