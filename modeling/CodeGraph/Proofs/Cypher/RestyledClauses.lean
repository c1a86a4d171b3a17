import CodeGraph.Proofs.Cypher.Restyling

/-!
Patterns, clauses and queries in another style.

* `Restyled.node_rel`, `Restyled.edge_rel`, `Restyled.pattern_rel`: patterns.
* `Restyled.matchPart_rel`, `Restyled.writeClause?_rel`, `Restyled.returnClause_rel`, …: clauses.
* `Restyled.queryOfTokens?_rel`: whole queries.
-/

namespace CodeGraph.Cypher

variable {B : Prop} {ts ts' : List Token}

/-! ### Nodes and edges -/

/-- Settings are read alike: the words in front of colons are keys, whatever they spell. -/
lemma Restyled.settings_rel (h : Restyled B .key ts ts') :
    Agree B (Follows B) .clause (settings ts) (settings ts') := by
  -- both readers take the same numbers of tokens, so one induction serves for both
  induction hn : ts.length using Nat.strong_induction_on generalizing ts ts' with
  | _ n ih =>
      rw [settings_eq, settings_eq]
      rcases rel_cases h.key_rel with ⟨⟨key, r⟩, ⟨_, r'⟩, e, e', rfl, hr⟩ | ⟨e, e'⟩ <;> rw [e, e']
      · have hword := word_length_lt e
        rcases rel_cases (hr.mark_rel .colon) with ⟨r, r', e, e', hr⟩ | ⟨e, e'⟩
        · have hcolon := mark_length_lt e
          simp only [Option.bind_some, e, e']
          have hliteral := hr.literal_rel (t := .value) fun l hl => Stand.value_next_of_literal? hl
          rcases rel_cases hliteral with ⟨⟨v, r⟩, ⟨v', r'⟩, e, e', hv, hr⟩ | ⟨e, e'⟩
          · have hvalue := literal_length_lt e
            simp only [Option.bind_some, e, e']
            rcases rel_cases (hr.mark_rel .closeBrace) with ⟨r, r', e, e', hr⟩
              | ⟨e, e'⟩ <;> rw [e, e']
            · exact .some ⟨hv.map _, hr⟩
            · rcases rel_cases (hr.mark_rel .comma) with ⟨r, r', e, e', hr⟩ | ⟨e, e'⟩ <;> rw [e, e']
              · have hcomma := mark_length_lt e
                exact rel_map (ih _ (by simp only at *; omega) hr rfl) fun more more' hmore =>
                  ⟨hv.bind fun _ => hmore.1.bind fun _ => .refl _, hmore.2⟩
              · exact .none
          · simp only [e, e']
            exact .none
        · simp only [Option.bind_some, e, e']
          exact .none
      · exact .none

/-- Maps are read alike. -/
lemma Restyled.properties_rel (h : Restyled B .clause ts ts') :
    Agree B (Follows B) .clause (properties ts) (properties ts') := by
  refine rel_bind (h.mark_rel .openBrace) fun ts ts' h => ?_
  rcases rel_cases (h.mark_rel .closeBrace) with ⟨r, r', e, e', hr⟩ | ⟨e, e'⟩ <;> rw [e, e']
  · exact .some ⟨.refl _, hr⟩
  · refine rel_bind h.settings_rel ?_
    rintro ⟨x, ts⟩ ⟨x', ts'⟩ ⟨hx, h⟩
    exact .some ⟨hx.map _, h⟩

lemma Restyled.optionalProperties_rel (h : Restyled B .clause ts ts') :
    Agree B (Follows B) .clause (optionalProperties ts) (optionalProperties ts') := by
  rw [optionalProperties, optionalProperties, h.startsWithMark_eq]
  split_ifs
  · exact rel_map h.properties_rel fun p p' hp => ⟨hp.1.map _, hp.2⟩
  · exact .some ⟨.refl _, h⟩

/-- Labels are read alike: words behind colons are names, and stay as they are. -/
lemma Restyled.labels_rel (h : Restyled B .clause ts ts') :
    Agree B Eq .clause (labels ts) (labels ts') := by
  induction hn : ts.length using Nat.strong_induction_on generalizing ts ts' with
  | _ n ih =>
      rw [labels_eq, labels_eq]
      rcases rel_cases (h.mark_rel .colon) with ⟨r, r', e, e', hr⟩ | ⟨e, e'⟩ <;> rw [e, e']
      · have hlt := mark_length_lt e
        dsimp only
        rcases rel_cases hr.label_rel with ⟨⟨text, q⟩, ⟨_, q'⟩, e, e', rfl, hq⟩
          | ⟨e, e'⟩ <;> rw [e, e']
        · have hlt' := word_length_lt e
          exact rel_map (ih _ (by omega) hq rfl) fun p p' hp => ⟨by rw [hp.1], hp.2⟩
        · exact .none
      · exact .some ⟨rfl, h⟩

/-- Nodes are read alike. -/
lemma Restyled.node_rel (h : Restyled B .clause ts ts') :
    Agree B (Follows B) .clause (node ts) (node ts') := by
  refine rel_bind (h.mark_rel .openParen) fun ts ts' h => ?_
  obtain ⟨n, ts, ts', e, e', h⟩ := (h.clause Stand.isOpen_operand).exists_optionalName
  rw [e, e']
  refine rel_bind h.labels_rel ?_
  rintro ⟨ls, ts⟩ ⟨_, ts'⟩ ⟨rfl, h⟩
  refine rel_bind h.optionalProperties_rel ?_
  rintro ⟨p, ts⟩ ⟨p', ts'⟩ ⟨hp, h⟩
  exact rel_bind (h.mark_rel .closeParen) fun ts ts' h => .some ⟨hp.map _, h⟩

/-- Further groups are read alike. -/
lemma Restyled.moreGroups_rel (h : Restyled B .clause ts ts') :
    Agree B Eq .clause (moreGroups ts) (moreGroups ts') := by
  induction hn : ts.length using Nat.strong_induction_on generalizing ts ts' with
  | _ n ih =>
      rw [moreGroups_eq, moreGroups_eq]
      rcases rel_cases (h.mark_rel .bar) with ⟨r, r', e, e', hr⟩ | ⟨e, e'⟩ <;> rw [e, e']
      · have hlt := mark_length_lt e
        obtain ⟨_, q, q', e, e', hq⟩ := hr.exists_optionalMark (m := .colon) id
        have hle := optionalMark_length_le e
        dsimp only
        rw [e, e']
        rcases rel_cases hq.label_rel with ⟨⟨text, q⟩, ⟨_, q'⟩, e, e', rfl, hq⟩
          | ⟨e, e'⟩ <;> rw [e, e']
        · have hlt' := word_length_lt e
          exact rel_map (ih _ (by omega) hq rfl) fun p p' hp => ⟨by rw [hp.1], hp.2⟩
        · exact .none
      · exact .some ⟨rfl, h⟩

lemma Restyled.groups_rel (h : Restyled B .clause ts ts') :
    Agree B Eq .clause (groups ts) (groups ts') := by
  rw [groups_eq, groups_eq]
  rcases rel_cases (h.mark_rel .colon) with ⟨r, r', e, e', hr⟩ | ⟨e, e'⟩ <;> rw [e, e']
  · refine rel_bind hr.label_rel ?_
    rintro ⟨text, ts⟩ ⟨_, ts'⟩ ⟨rfl, h⟩
    exact rel_map h.moreGroups_rel fun p p' hp => ⟨by rw [hp.1], hp.2⟩
  · exact .some ⟨rfl, h⟩

/-- Lengths are read alike. A bound is no word, so it is not restyled; what else may stand behind
the star is left to be read as it is. -/
lemma Restyled.exists_optionalLength (h : Restyled B .clause ts ts') :
    ∃ l r r', optionalLength ts = (l, r) ∧ optionalLength ts' = (l, r')
      ∧ Restyled B .clause r r' := by
  cases h with
  | nil => exact ⟨_, _, _, rfl, rfl, .nil⟩
  | @cons _ l l' _ _ _ _ hempty hblank hl h =>
      have hall := Restyled.cons hempty hblank hl h
      obtain ⟨v, w, rfl, rfl, -⟩ | ⟨rfl, -⟩ := lexeme_cases hl
      · exact ⟨_, _, _, optionalLength_of_ne Lexeme.noConfusion _ _,
          optionalLength_of_ne Lexeme.noConfusion _ _, hall⟩
      -- only a star starts a length, and signs are not restyled
      · by_cases hstar : l = .mark .star
        · subst hstar
          cases h with
          | nil => exact ⟨_, _, _, rfl, rfl, .nil⟩
          | @cons _ l l' _ _ _ _ hempty' hblank' hl' h' =>
              have hrest : Restyled B .clause _ _ := .cons hempty' hblank' hl' h'
              obtain ⟨v, w, rfl, rfl, -⟩ | ⟨rfl, -⟩ := lexeme_cases hl'
              · exact ⟨_, _, _, rfl, rfl, hrest⟩
              · cases l with
                | range low high => exact ⟨_, _, _, rfl, rfl, h'⟩
                | integer negative digits => exact ⟨_, _, _, rfl, rfl, h'⟩
                | _ => exact ⟨_, _, _, rfl, rfl, hrest⟩
        · exact ⟨_, _, _, optionalLength_of_ne hstar _ _, optionalLength_of_ne hstar _ _, hall⟩

/-- What stands between brackets is read alike. -/
lemma Restyled.edgeDetail_rel (h : Restyled B .clause ts ts') (direction : PatternDirection) :
    Agree B (Follows B) .clause (edgeDetail direction ts) (edgeDetail direction ts') := by
  refine rel_bind (h.mark_rel .openBracket) fun ts ts' h => ?_
  obtain ⟨n, ts, ts', e, e', h⟩ := h.exists_optionalName
  rw [e, e']
  refine rel_bind h.groups_rel ?_
  rintro ⟨gs, ts⟩ ⟨_, ts'⟩ ⟨rfl, h⟩
  obtain ⟨l, ts, ts', e, e', h⟩ := h.exists_optionalLength
  dsimp only
  rw [e, e']
  refine rel_bind h.optionalProperties_rel ?_
  rintro ⟨p, ts⟩ ⟨p', ts'⟩ ⟨hp, h⟩
  refine rel_bind (h.mark_rel .closeBracket) fun ts ts' h => ?_
  exact .some ⟨(Follows.refl l).bind fun _ => hp.bind fun _ => .refl _, h⟩

lemma Restyled.optionalDetail_rel (h : Restyled B .clause ts ts') (direction : PatternDirection) :
    Agree B (Follows B) .clause (optionalDetail direction ts) (optionalDetail direction ts') := by
  rw [optionalDetail, optionalDetail, h.startsWithMark_eq]
  split_ifs
  · exact h.edgeDetail_rel direction
  · exact .some ⟨.refl _, h⟩

/-- Edges are read alike, with the same heads. -/
lemma Restyled.edge_rel (h : Restyled B .clause ts ts') :
    Agree B (Follows B) .clause (edge ts) (edge ts') := by
  rw [edge, edge]
  obtain ⟨left, ts, ts', e, e', h⟩ := h.exists_optionalMark (m := .less) fun h =>
    h.clause Stand.isOpen_operand
  rw [e, e']
  refine rel_bind (h.mark_rel .minus) fun ts ts' h => ?_
  refine rel_bind (h.optionalDetail_rel .both) ?_
  rintro ⟨d, ts⟩ ⟨d', ts'⟩ ⟨hd, h⟩
  refine rel_bind (h.mark_rel .minus) fun ts ts' h => ?_
  obtain ⟨right, ts, ts', e, e', h⟩ := h.exists_optionalMark (m := .greater) fun h =>
    h.clause Stand.isOpen_operand
  rw [e, e']
  exact .some ⟨hd.map _, h⟩

/-! ### Paths -/

/-- Segments are read alike, as long as there is fuel. Both texts have as many tokens, so they have
as much. -/
lemma segments_ignoresStyle (fuel : Nat) : Phrase.IgnoresStyle B .clause (segments fuel) := by
  induction fuel with
  | zero => exact fun _ _ _ => .none
  | succ fuel ih =>
      intro ts ts' h
      rw [segments, segments, startsEdge, startsEdge, h.startsWithMark_eq, h.startsWithMark_eq]
      split_ifs
      · refine rel_bind h.edge_rel ?_
        rintro ⟨e, ts⟩ ⟨e', ts'⟩ ⟨he, h⟩
        refine rel_bind h.node_rel ?_
        rintro ⟨n, ts⟩ ⟨n', ts'⟩ ⟨hn, h⟩
        refine rel_bind (ih h) ?_
        rintro ⟨more, ts⟩ ⟨more', ts'⟩ ⟨hmore, h⟩
        exact .some ⟨he.bind fun _ => hn.bind fun _ => hmore.bind fun _ => .refl _, h⟩
      · exact .some ⟨.refl _, h⟩

lemma Restyled.segments_rel (h : Restyled B .clause ts ts') :
    Agree B (Follows B) .clause (segments (ts.length + 1) ts) (segments (ts'.length + 1) ts') := by
  rw [h.length_eq]
  exact segments_ignoresStyle _ h

/-- Paths are read alike. -/
lemma path_ignoresStyle : Phrase.IgnoresStyle B .clause path := by
  intro ts ts' h
  refine rel_bind h.node_rel ?_
  rintro ⟨n, ts⟩ ⟨n', ts'⟩ ⟨hn, h⟩
  refine rel_bind h.segments_rel ?_
  rintro ⟨more, ts⟩ ⟨more', ts'⟩ ⟨hmore, h⟩
  exact .some ⟨hn.bind fun _ => hmore.bind fun _ => .refl _, h⟩

lemma Restyled.pattern_rel (h : Restyled B .clause ts ts') :
    Agree B (Follows B) .clause (pattern ts) (pattern ts') :=
  h.commaList_rel path_ignoresStyle Stand.isOpen_clause

/-! ### Clauses -/

/-- Filters are read alike. -/
lemma Restyled.optionalFilter_rel (h : Restyled B .clause ts ts') :
    Agree B (Follows B) .clause (optionalFilter ts) (optionalFilter ts') := by
  rw [optionalFilter, optionalFilter]
  rcases rel_cases (h.keyword_rel Stand.isOpen_clause .whereWord) with ⟨r, r', e, e', hr⟩
    | ⟨e, e'⟩ <;> rw [e, e']
  · exact rel_map hr.expression_rel fun p p' hp => ⟨hp.1.map _, hp.2⟩
  · exact .some ⟨.refl _, h⟩

/-- Clauses to match are read alike. -/
lemma Restyled.matchPart_rel (h : Restyled B .clause ts ts') :
    Agree B (Follows B) .clause (matchPart ts) (matchPart ts') := by
  rw [matchPart, matchPart]
  obtain ⟨optional, ts, ts', e, e', h⟩ := h.exists_optionalKeyword .optional
  rw [e, e']
  refine rel_bind (h.keyword_rel Stand.isOpen_clause .matchWord) fun ts ts' h => ?_
  refine rel_bind h.pattern_rel ?_
  rintro ⟨p, ts⟩ ⟨p', ts'⟩ ⟨hp, h⟩
  refine rel_bind h.optionalFilter_rel ?_
  rintro ⟨f, ts⟩ ⟨f', ts'⟩ ⟨hf, h⟩
  exact .some ⟨hp.bind fun _ => hf.bind fun _ => .refl _, h⟩

lemma matchParts_ignoresStyle (fuel : Nat) : Phrase.IgnoresStyle B .clause (matchParts fuel) := by
  induction fuel with
  | zero => exact fun _ _ _ => .none
  | succ fuel ih =>
      intro ts ts' h
      have hstarts := h.startsWithKeyword_eq Stand.isOpen_clause
      rw [matchParts, matchParts, hstarts, hstarts]
      split_ifs
      · refine rel_bind h.matchPart_rel ?_
        rintro ⟨p, ts⟩ ⟨p', ts'⟩ ⟨hp, h⟩
        refine rel_bind (ih h) ?_
        rintro ⟨more, ts⟩ ⟨more', ts'⟩ ⟨hmore, h⟩
        exact .some ⟨hp.cons hmore, h⟩
      · exact .some ⟨.refl _, h⟩

lemma Restyled.matchParts_rel (h : Restyled B .clause ts ts') :
    Agree B (Follows B) .clause (matchParts (ts.length + 1) ts)
      (matchParts (ts'.length + 1) ts') := by
  rw [h.length_eq]
  exact matchParts_ignoresStyle _ h

/-- Settings of a clause are read alike: what stands behind a dot is a name. -/
lemma setItem_ignoresStyle : Phrase.IgnoresStyle B .clause setItem := by
  intro ts ts' h
  refine rel_bind (h.name_rel Stand.isOpen_clause) ?_
  rintro ⟨n, ts⟩ ⟨_, ts'⟩ ⟨rfl, h⟩
  obtain ⟨ws, ts, ts', e, e', h⟩ := h.exists_dotted
  dsimp only
  rw [e, e']
  rcases ws with _ | ⟨key, _ | ⟨more, ws⟩⟩
  · exact .none
  · refine rel_bind (h.mark_rel .equal) fun ts ts' h => ?_
    refine rel_bind h.expression_rel ?_
    rintro ⟨x, ts⟩ ⟨x', ts'⟩ ⟨hx, h⟩
    exact .some ⟨hx.map _, h⟩
  · exact .none

lemma deletedName_ignoresStyle : Phrase.IgnoresStyle B .clause deletedName :=
  fun _ _ h => rel_map (h.name_rel Stand.isOpen_clause) fun _ _ hp => ⟨hp.1 ▸ .refl _, hp.2⟩

/-- Deletions are read alike. -/
lemma Restyled.deletion_rel (h : Restyled B .clause ts ts') (detach : Bool) :
    Agree B (Follows B) .clause (deletion detach ts) (deletion detach ts') := by
  refine rel_bind (h.keyword_rel Stand.isOpen_clause .delete) fun ts ts' h => ?_
  refine rel_bind (h.commaList_rel deletedName_ignoresStyle Stand.isOpen_clause) ?_
  rintro ⟨x, ts⟩ ⟨x', ts'⟩ ⟨hx, h⟩
  exact .some ⟨hx.map _, h⟩

/-- Clauses that write are read alike: a restyled keyword starts the same clause. -/
lemma Restyled.writeClause?_rel (h : Restyled B .clause ts ts') :
    Option.Rel (Agree B (Follows B) .clause) (writeClause? ts) (writeClause? ts') := by
  cases h with
  | nil => exact .none
  | @cons _ l l' _ _ rest rest' hempty hblank hl h =>
      have hall := Restyled.cons hempty hblank hl h
      have hnext : ∀ k, l.keyword? = some k → Restyled B k.next rest rest' :=
        fun _ hk => Lexeme.next_of_keyword? hk ▸ h
      rw [writeClause?, writeClause?]
      dsimp only
      -- the same keyword, so both readers go the same way
      rw [← keyword?_eq_of_restyled hl]
      split
      · exact .some (rel_map (hnext .create ‹_›).pattern_rel fun p p' hp => ⟨hp.1.map _, hp.2⟩)
      · exact .some (rel_map (hnext .merge ‹_›).pattern_rel fun p p' hp => ⟨hp.1.map _, hp.2⟩)
      · exact .some ((hnext .detach ‹_›).deletion_rel true)
      · exact .some (hall.deletion_rel false)
      · have hitems := (hnext .set ‹_›).commaList_rel setItem_ignoresStyle Stand.isOpen_clause
        exact .some (rel_map hitems fun p p' hp => ⟨hp.1.map _, hp.2⟩)
      · exact .none

/-- Clauses that write are read alike, as long as there is fuel. -/
lemma writeClauses_ignoresStyle (fuel : Nat) :
    Phrase.IgnoresStyle B .clause (writeClauses fuel) := by
  induction fuel with
  | zero => exact fun _ _ _ => .none
  | succ fuel ih =>
      intro ts ts' h
      rw [writeClauses, writeClauses]
      rcases rel_cases h.writeClause?_rel with ⟨c, c', e, e', hc⟩ | ⟨e, e'⟩ <;> rw [e, e']
      · refine rel_bind hc ?_
        rintro ⟨x, ts⟩ ⟨x', ts'⟩ ⟨hx, h⟩
        refine rel_bind (ih h) ?_
        rintro ⟨more, ts⟩ ⟨more', ts'⟩ ⟨hmore, h⟩
        exact .some ⟨hx.cons hmore, h⟩
      · exact .some ⟨.refl _, h⟩

lemma Restyled.writeClauses_rel (h : Restyled B .clause ts ts') :
    Agree B (Follows B) .clause (writeClauses (ts.length + 1) ts)
      (writeClauses (ts'.length + 1) ts') := by
  rw [h.length_eq]
  exact writeClauses_ignoresStyle _ h

lemma Restyled.optionalHeading_rel (h : Restyled B .clause ts ts') :
    Agree B Eq .clause (optionalHeading ts) (optionalHeading ts') := by
  rw [optionalHeading, optionalHeading]
  rcases rel_cases (h.keyword_rel Stand.isOpen_clause .asWord) with ⟨r, r', e, e', hr⟩
    | ⟨e, e'⟩ <;> rw [e, e']
  · exact rel_map (hr.name_rel Stand.isOpen_clause) fun p p' hp => ⟨congrArg some hp.1, hp.2⟩
  · exact .some ⟨rfl, h⟩

/-- Returned items are read alike. -/
lemma returnItem_ignoresStyle : Phrase.IgnoresStyle B .operand returnItem := by
  intro ts ts' h
  refine rel_bind h.expression_rel ?_
  rintro ⟨x, ts⟩ ⟨x', ts'⟩ ⟨hx, h⟩
  refine rel_bind h.optionalHeading_rel ?_
  rintro ⟨heading, ts⟩ ⟨_, ts'⟩ ⟨rfl, h⟩
  exact .some ⟨hx.map _, h⟩

/-- Right behind `RETURN` a word `DISTINCT` is no function. -/
lemma Restyled.exists_optionalDistinct (h : Restyled B .result ts ts') :
    ∃ b r r', optionalKeyword .distinct ts = (b, r) ∧ optionalKeyword .distinct ts' = (b, r') ∧
      Restyled B .operand r r' := by
  rw [optionalKeyword, optionalKeyword]
  rcases rel_cases (h.keyword_rel Stand.isOpen_result .distinct) with ⟨r, r', e, e', hr⟩ | ⟨e, e'⟩
  · rw [e, e']
    exact ⟨_, _, _, rfl, rfl, hr⟩
  · rw [e, e']
    exact ⟨_, _, _, rfl, rfl, h.operand_of_result e⟩

/-- What is returned is read alike. -/
lemma Restyled.returnClause_rel (h : Restyled B .clause ts ts') :
    Agree B (Follows B) .clause (returnClause ts) (returnClause ts') := by
  rw [returnClause, returnClause]
  rcases rel_cases (h.keyword_rel Stand.isOpen_clause .returnWord) with ⟨r, r', e, e', hr⟩
    | ⟨e, e'⟩ <;> rw [e, e']
  · obtain ⟨distinct, ts, ts', e, e', h⟩ := hr.exists_optionalDistinct
    dsimp only
    rw [e, e']
    refine rel_bind (h.commaList_rel returnItem_ignoresStyle Stand.isOpen_operand) ?_
    rintro ⟨x, ts⟩ ⟨x', ts'⟩ ⟨hx, h⟩
    exact .some ⟨hx.map _, h⟩
  · exact .some ⟨.refl _, h⟩

/-- Directions are read alike: there are two spellings of each, in any case. -/
lemma Restyled.exists_orderDirection (h : Restyled B .clause ts ts') :
    ∃ a r r', orderDirection ts = (a, r) ∧ orderDirection ts' = (a, r')
      ∧ Restyled B .clause r r' := by
  cases h with
  | nil => exact ⟨_, _, _, rfl, rfl, .nil⟩
  | @cons _ l l' _ _ rest rest' hempty hblank hl h =>
      have hall := Restyled.cons hempty hblank hl h
      have hnext : ∀ k, l.keyword? = some k → Restyled B k.next rest rest' :=
        fun _ hk => Lexeme.next_of_keyword? hk ▸ h
      rw [orderDirection, orderDirection]
      dsimp only
      rw [← keyword?_eq_of_restyled hl]
      split
      · exact ⟨_, _, _, rfl, rfl, hnext .asc ‹_›⟩
      · exact ⟨_, _, _, rfl, rfl, hnext .ascending ‹_›⟩
      · exact ⟨_, _, _, rfl, rfl, hnext .desc ‹_›⟩
      · exact ⟨_, _, _, rfl, rfl, hnext .descending ‹_›⟩
      · exact ⟨_, _, _, rfl, rfl, hall⟩

/-- Items of an order are read alike. -/
lemma orderItem_ignoresStyle : Phrase.IgnoresStyle B .operand orderItem := by
  intro ts ts' h
  refine rel_bind h.expression_rel ?_
  rintro ⟨x, ts⟩ ⟨x', ts'⟩ ⟨hx, h⟩
  obtain ⟨ascending, ts, ts', e, e', h⟩ := h.exists_orderDirection
  dsimp only
  rw [e, e']
  exact .some ⟨hx.map _, h⟩

lemma Restyled.orderClause_rel (h : Restyled B .clause ts ts') :
    Agree B (Follows B) .clause (orderClause ts) (orderClause ts') := by
  rw [orderClause, orderClause]
  rcases rel_cases (h.keyword_rel Stand.isOpen_clause .order) with ⟨r, r', e, e', hr⟩
    | ⟨e, e'⟩ <;> rw [e, e']
  · refine rel_bind (hr.keyword_rel Stand.isOpen_clause .byWord) fun ts ts' h => ?_
    refine rel_bind (h.commaList_rel orderItem_ignoresStyle Stand.isOpen_operand) ?_
    rintro ⟨x, ts⟩ ⟨x', ts'⟩ ⟨hx, h⟩
    exact .some ⟨hx.map _, h⟩
  · exact .some ⟨.refl _, h⟩

/-- Counts are read alike: a number is no word. -/
lemma Restyled.countClause_rel (h : Restyled B .clause ts ts') (k : Keyword) (clause : String) :
    Agree B (Follows B) .clause (countClause k clause ts) (countClause k clause ts') := by
  rw [countClause, countClause]
  rcases rel_cases (h.keyword_rel Stand.isOpen_clause k) with ⟨r, r', e, e', hr⟩
    | ⟨e, e'⟩ <;> rw [e, e']
  · cases hr with
    | nil => exact .none
    | @cons _ l l' _ _ _ _ _ _ hl h =>
        rw [k.isOpen_next.next_eq] at h
        obtain ⟨v, w, rfl, rfl, -⟩ | ⟨rfl, -⟩ := lexeme_cases hl
        · exact .none
        · cases l with
          | integer negative digits => exact .some ⟨.refl _, h⟩
          | _ => exact .none
  · exact .some ⟨.refl _, h⟩

/-! ### Queries -/

lemma Restyled.statement_rel (h : Restyled B .clause ts ts') :
    Agree B (Follows B) .clause (statement ts) (statement ts') := by
  refine rel_bind h.matchParts_rel ?_
  rintro ⟨parts, ts⟩ ⟨parts', ts'⟩ ⟨hparts, h⟩
  refine rel_bind h.writeClauses_rel ?_
  rintro ⟨writes, ts⟩ ⟨writes', ts'⟩ ⟨hwrites, h⟩
  refine rel_bind h.returnClause_rel ?_
  rintro ⟨returned, ts⟩ ⟨returned', ts'⟩ ⟨hreturned, h⟩
  refine rel_bind h.orderClause_rel ?_
  rintro ⟨order, ts⟩ ⟨order', ts'⟩ ⟨horder, h⟩
  refine rel_bind (h.countClause_rel .skip "SKIP") ?_
  rintro ⟨skip, ts⟩ ⟨skip', ts'⟩ ⟨hskip, h⟩
  refine rel_bind (h.countClause_rel .limit "LIMIT") ?_
  rintro ⟨limit, ts⟩ ⟨limit', ts'⟩ ⟨hlimit, h⟩
  exact .some ⟨hparts.bind fun _ => hwrites.bind fun _ => hreturned.bind fun _ =>
    horder.bind fun _ =>
    hskip.bind fun _ => hlimit.bind fun _ => .refl _, h⟩

/-- **Whole queries** are read alike in every style. -/
lemma Restyled.queryOfTokens?_rel (h : Restyled B .clause ts ts') :
    Option.Rel (Follows B) (queryOfTokens? ts) (queryOfTokens? ts') := by
  refine rel_bind h.statement_rel ?_
  rintro ⟨q, ts⟩ ⟨q', ts'⟩ ⟨hq, h⟩
  obtain ⟨_, ts, ts', e, e', h⟩ := h.exists_optionalMark (m := .semicolon) id
  dsimp only
  rw [e, e']
  cases h with
  | nil => exact .some hq
  | cons => exact .none

/-- Whole queries are read alike whatever the gaps. -/
lemma Regapped.queryOfTokens?_rel (h : Regapped B ts ts') :
    Option.Rel (Follows B) (queryOfTokens? ts) (queryOfTokens? ts') :=
  h.restyled.queryOfTokens?_rel

end CodeGraph.Cypher
