import CodeGraph.Proofs.Cypher.Takings

/-!
What patterns, clauses and queries take.

* `node_takes`, `edge_takes`, `pattern_fits`: patterns.
* `matchPart_takes`, `writeClause?_takes`, `returnClause_takes`, …: clauses.
* `account_of_queryOfTokens?`: the tokens of every accepted text tell its fault.
* `isChain_of_queryOfTokens?`: no comment stands in a text test of a query.
-/

namespace CodeGraph.Cypher

variable {ts us : List Token}

/-! ### Patterns -/

/-- Settings tell the first fault among their literals, from the left. -/
lemma settings_takes {p : Read (List (String × Property)) × List Token} (h : settings ts = some p) :
    Takes ts p.2 (faultOf p.1) := by
  -- a reader of settings takes several tokens at a time, so the induction is on their number
  induction hn : ts.length using Nat.strong_induction_on generalizing ts p with
  | _ n ih =>
      rw [settings_eq] at h
      obtain ⟨q, hword, h⟩ := Option.bind_eq_some_iff.1 h
      obtain ⟨us, hcolon, h⟩ := Option.bind_eq_some_iff.1 h
      obtain ⟨v, hvalue, h⟩ := Option.bind_eq_some_iff.1 h
      have hvalue' := (word_takes hword).trans (.of_mark hcolon (literal_takes hvalue) (by decide))
      split at h
      · rename_i rest hclose
        obtain rfl := Option.some.inj h
        rw [faultOf_map]
        exact hvalue'.trail (mark_takes hclose (by decide))
      · obtain ⟨vs, hcomma, h⟩ := Option.bind_eq_some_iff.1 h
        obtain ⟨more, hmore, rfl⟩ := Option.map_eq_some_iff.1 h
        have hlt : vs.length < ts.length := calc
          vs.length < v.2.length := mark_length_lt hcomma
          _ < us.length := literal_length_lt hvalue
          _ < q.2.length := mark_length_lt hcolon
          _ < ts.length := word_length_lt hword
        have hrest := ih _ (hn ▸ hlt) hmore rfl
        rw [faultOf_join]
        exact hvalue'.trans (.of_mark hcomma hrest (by decide))

/-- A map tells the fault of its settings. -/
lemma properties_takes {p : Read PropertyMap × List Token} (h : properties ts = some p) :
    TakesOpenly ts p.2 (faultOf p.1) := by
  obtain ⟨us, hopen, h⟩ := Option.bind_eq_some_iff.1 h
  split at h
  · rename_i rest hclose
    obtain rfl := Option.some.inj h
    exact (mark_takes hopen (by decide)).trans (mark_takes hclose (by decide))
  · obtain ⟨q, hq, h⟩ := Option.bind_eq_some_iff.1 h
    obtain rfl := Option.some.inj h
    rw [faultOf_map]
    exact .of_mark hopen (settings_takes hq) (by decide)

lemma optionalProperties_takes {p : Read (Option PropertyMap) × List Token}
    (h : optionalProperties ts = some p) :
    TakesOpenly ts p.2 (faultOf p.1) := by
  rw [optionalProperties] at h
  split_ifs at h
  · obtain ⟨q, hq, rfl⟩ := Option.map_eq_some_iff.1 h
    rw [faultOf_map]
    exact properties_takes hq
  · obtain rfl := Option.some.inj h
    exact .refl _

/-- Labels have no numbers in them. -/
lemma labels_takes {p : List Label × List Token} (h : labels ts = some p) :
    TakesOpenly ts p.2 none := by
  induction hn : ts.length using Nat.strong_induction_on generalizing ts p with
  | _ n ih =>
      rw [labels_eq] at h
      split at h
      · obtain rfl := Option.some.inj h
        exact .refl _
      · rename_i us hcolon
        obtain ⟨q, hword, h⟩ := Option.bind_eq_some_iff.1 h
        obtain ⟨more, hmore, rfl⟩ := Option.map_eq_some_iff.1 h
        have hlt : q.2.length < ts.length := (word_length_lt hword).trans (mark_length_lt hcolon)
        have hrest := (word_takes hword).trans (ih _ (hn ▸ hlt) hmore rfl)
        exact .of_mark hcolon hrest (by decide)

/-- A node tells the fault of its map. -/
lemma node_takes {p : Read NodePattern × List Token} (h : node ts = some p) :
    TakesOpenly ts p.2 (faultOf p.1) := by
  obtain ⟨us, hopen, h⟩ := Option.bind_eq_some_iff.1 h
  have hname := optionalName_takes us
  obtain ⟨⟨ls, vs⟩, hlabels, h⟩ := Option.bind_eq_some_iff.1 h
  obtain ⟨⟨ps, ws⟩, hproperties, h⟩ := Option.bind_eq_some_iff.1 h
  obtain ⟨xs, hclose, h⟩ := Option.bind_eq_some_iff.1 h
  obtain rfl := Option.some.inj h
  have hhead := ((mark_takes hopen (by decide)).trans hname).trans (labels_takes hlabels)
  rw [faultOf_map]
  exact (hhead.trans (optionalProperties_takes hproperties)).trail (mark_takes hclose (by decide))

/-- Further groups have no numbers in them. -/
lemma moreGroups_takes {p : List Group × List Token} (h : moreGroups ts = some p) :
    TakesOpenly ts p.2 none := by
  induction hn : ts.length using Nat.strong_induction_on generalizing ts p with
  | _ n ih =>
      rw [moreGroups_eq] at h
      split at h
      · obtain rfl := Option.some.inj h
        exact .refl _
      · rename_i us hbar
        obtain ⟨q, hword, h⟩ := Option.bind_eq_some_iff.1 h
        obtain ⟨more, hmore, rfl⟩ := Option.map_eq_some_iff.1 h
        have hlt : q.2.length < ts.length := calc
          q.2.length < (optionalMark .colon us).2.length := word_length_lt hword
          _ ≤ us.length := optionalMark_length_le rfl
          _ < ts.length := mark_length_lt hbar
        have hrest := (word_takes hword).trans (ih _ (hn ▸ hlt) hmore rfl)
        exact .of_mark hbar (Takes.of_optionalMark hrest (by decide)) (by decide)

lemma groups_takes {p : List Group × List Token} (h : groups ts = some p) :
    TakesOpenly ts p.2 none := by
  rw [groups_eq] at h
  split at h
  · obtain rfl := Option.some.inj h
    exact .refl _
  · rename_i us hcolon
    obtain ⟨q, hword, h⟩ := Option.bind_eq_some_iff.1 h
    obtain ⟨more, hmore, rfl⟩ := Option.map_eq_some_iff.1 h
    have hrest := (word_takes hword).trans (moreGroups_takes hmore)
    exact .of_mark hcolon hrest (by decide)

/-- Two tokens of which the first is a star or the keyword of a clause that counts rows. -/
lemma takesOpenly_pair {t u : Token} (ht : t.lexeme.Opens) (hstart : ¬ t.lexeme.StartsTest)
    (hfault : t.lexeme.fault? none = none) (ts : List Token) :
    TakesOpenly (t :: u :: ts) ts (u.lexeme.fault? (some t.lexeme)) := by
  -- the second token is judged by the first one, and what follows by the second
  refine ⟨[t, u], rfl, ⟨fun _ => ?_, fun _ => ?_⟩, ?_⟩
  · exact .cons_cons (fun h => absurd h hstart) (.singleton u)
  · rw [firstFault?, firstFault?, firstFault?, hfault, Option.none_or, Option.or_none]
  · rintro v hv
    rwa [← Option.some.inj hv]

/-- A length tells the faults of its bounds, which are judged by the star in front of them. So the
star and the bound are taken together. -/
lemma optionalLength_takes (ts : List Token) :
    TakesOpenly ts (optionalLength ts).2 (faultOf (optionalLength ts).1) := by
  have hopens : Lexeme.Opens (.mark .star) :=
    ⟨by simp [Lexeme.keyword?], fun _ _ => Lexeme.noConfusion⟩
  have hstart : ¬ (Lexeme.mark .star).StartsTest := by simp [Lexeme.StartsTest, Lexeme.keyword?]
  rw [optionalLength.eq_def]
  split
  · rename_i g g' low high rest
    rw [faultOf_join]
    -- a range tells the fault of its lower bound first, as its lexeme does
    exact takesOpenly_pair hopens hstart rfl rest
  · rename_i g g' negative digits rest
    rw [faultOf_map]
    exact takesOpenly_pair hopens hstart rfl rest
  · rename_i g rest _ _
    refine ⟨[⟨g, .mark .star⟩], rfl, ⟨fun _ => .singleton _, fun _ => rfl⟩, ?_⟩
    rintro u hu
    rw [← Option.some.inj hu]
    exact hopens
  · exact .refl _

/-- What stands between brackets tells the fault of the length, then that of the map. -/
lemma edgeDetail_takes {direction : PatternDirection} {p : Read EdgePattern × List Token}
    (h : edgeDetail direction ts = some p) : TakesOpenly ts p.2 (faultOf p.1) := by
  obtain ⟨us, hopen, h⟩ := Option.bind_eq_some_iff.1 h
  have hname := optionalName_takes us
  obtain ⟨⟨gs, vs⟩, hgroups, h⟩ := Option.bind_eq_some_iff.1 h
  have hlength := optionalLength_takes vs
  obtain ⟨⟨ps, ws⟩, hproperties, h⟩ := Option.bind_eq_some_iff.1 h
  obtain ⟨xs, hclose, h⟩ := Option.bind_eq_some_iff.1 h
  obtain rfl := Option.some.inj h
  have hhead := ((mark_takes hopen (by decide)).trans hname).trans (groups_takes hgroups)
  rw [faultOf_join]
  exact ((hhead.trans hlength).trans (optionalProperties_takes hproperties)).trail
    (mark_takes hclose (by decide))

/-- An edge tells the fault of what stands between its brackets. -/
lemma edge_takes {p : Read EdgePattern × List Token} (h : edge ts = some p) :
    TakesOpenly ts p.2 (faultOf p.1) := by
  have hleft := optionalMark_takes (m := .less) (by decide) ts
  obtain ⟨us, hminus, h⟩ := Option.bind_eq_some_iff.1 h
  obtain ⟨⟨d, vs⟩, hdetail, h⟩ := Option.bind_eq_some_iff.1 h
  obtain ⟨ws, hminus', h⟩ := Option.bind_eq_some_iff.1 h
  obtain rfl := Option.some.inj h
  have hdetail' : TakesOpenly us vs (faultOf d) := by
    rw [optionalDetail] at hdetail
    split_ifs at hdetail
    · exact edgeDetail_takes hdetail
    · obtain ⟨rfl, rfl⟩ := Prod.mk.inj (Option.some.inj hdetail)
      exact .refl _
  -- the pieces in their order: head, stroke, brackets, stroke, head
  have hstrokes :=
    ((hleft.trans (mark_takes hminus (by decide))).trans hdetail').trail
    (mark_takes hminus' (by decide))
  rw [faultOf_map]
  exact hstrokes.trail (optionalMark_takes (by decide) ws)

/-- Segments tell the first fault among their edges and nodes. -/
lemma segments_takes {fuel : Nat} {p : Read (List Segment) × List Token}
    (h : segments fuel ts = some p) :
    TakesOpenly ts p.2 (faultOf p.1) := by
  induction fuel generalizing ts p with
  | zero => cases h
  | succ fuel ih =>
      rw [segments] at h
      split_ifs at h
      · obtain ⟨⟨e, us⟩, hedge, h⟩ := Option.bind_eq_some_iff.1 h
        obtain ⟨⟨n, vs⟩, hnode, h⟩ := Option.bind_eq_some_iff.1 h
        obtain ⟨⟨more, ws⟩, hmore, h⟩ := Option.bind_eq_some_iff.1 h
        obtain rfl := Option.some.inj h
        rw [faultOf_bind fun _ => faultOf_join n more _]
        exact (edge_takes hedge).trans ((node_takes hnode).trans (ih hmore))
      · obtain rfl := Option.some.inj h
        exact .refl _

/-- A path tells the first fault along it. -/
lemma path_takes {p : Read PathPattern × List Token} (h : path ts = some p) :
    TakesOpenly ts p.2 (faultOf p.1) := by
  obtain ⟨⟨n, us⟩, hnode, h⟩ := Option.bind_eq_some_iff.1 h
  obtain ⟨⟨more, vs⟩, hmore, h⟩ := Option.bind_eq_some_iff.1 h
  obtain rfl := Option.some.inj h
  rw [faultOf_join]
  exact (node_takes hnode).trans (segments_takes hmore)

/-- Paths between commas tell the first fault among them. -/
lemma pattern_fits : Phrase.Fits pattern :=
  fun _ _ _ h => Phrase.Fits.commaList (fun _ _ _ hpath => (path_takes hpath).takes) _ h

/-! ### Clauses -/

/-- A filter tells the fault of its expression. -/
lemma optionalFilter_takes {p : Read (Option Expr) × List Token} (h : optionalFilter ts = some p) :
    TakesOpenly ts p.2 (faultOf p.1) := by
  rw [optionalFilter] at h
  split at h
  · rename_i rest hwhere
    exact .of_keyword hwhere (expression_fits.takes_map h) (by decide)
  · obtain rfl := Option.some.inj h
    exact .refl _

/-- A clause to match tells the first fault of its paths, then that of its filter. -/
lemma matchPart_takes {p : Read (MatchClause × Option Expr) × List Token}
    (h : matchPart ts = some p) :
    TakesOpenly ts p.2 (faultOf p.1) := by
  have hoptional := optionalKeyword_takes (k := .optional) (by decide) ts
  obtain ⟨vs, hmatch, h⟩ := Option.bind_eq_some_iff.1 h
  obtain ⟨⟨ps, ws⟩, hpattern, h⟩ := Option.bind_eq_some_iff.1 h
  obtain ⟨⟨f, xs⟩, hfilter, h⟩ := Option.bind_eq_some_iff.1 h
  obtain rfl := Option.some.inj h
  have hpaths := TakesOpenly.of_keyword hmatch (pattern_fits hpattern) (by decide)
  rw [faultOf_join]
  exact (hoptional.trans hpaths).trans (optionalFilter_takes hfilter)

/-- Clauses to match tell the first fault among them. -/
lemma matchParts_takes {fuel : Nat} {p : Read (List (MatchClause × Option Expr)) × List Token}
    (h : matchParts fuel ts = some p) : TakesOpenly ts p.2 (faultOf p.1) := by
  induction fuel generalizing ts p with
  | zero => cases h
  | succ fuel ih =>
      rw [matchParts] at h
      split_ifs at h
      · obtain ⟨⟨part, vs⟩, hpart, h⟩ := Option.bind_eq_some_iff.1 h
        obtain ⟨⟨more, ws⟩, hmore, h⟩ := Option.bind_eq_some_iff.1 h
        obtain rfl := Option.some.inj h
        rw [faultOf_join]
        exact (matchPart_takes hpart).trans (ih hmore)
      · obtain rfl := Option.some.inj h
        exact .refl _

/-- A setting tells the fault of its expression; its target has no numbers in it. -/
lemma setItem_fits : Phrase.Fits setItem := by
  intro ts us r h
  obtain ⟨⟨n, vs⟩, hname, h⟩ := Option.bind_eq_some_iff.1 h
  have hdotted := dotted_takes vs
  dsimp only at h
  split at h
  · rename_i key rest e
    obtain ⟨ws, hequal, h⟩ := Option.bind_eq_some_iff.1 h
    obtain ⟨⟨x, xs⟩, hx, h⟩ := Option.bind_eq_some_iff.1 h
    obtain ⟨rfl, rfl⟩ := Prod.mk.inj (Option.some.inj h)
    rw [e] at hdotted
    rw [faultOf_map]
    exact ((name_takes hname).trans hdotted |>.trans
      (.of_mark hequal (expression_fits hx) (by decide))).takes
  · cases h

lemma deletedName_fits : Phrase.Fits deletedName := by
  intro ts us r h
  obtain ⟨p, hp, heq⟩ := Option.map_eq_some_iff.1 h
  obtain ⟨rfl, rfl⟩ := Prod.mk.inj heq
  exact (name_takes hp).takes

/-- A deletion has no numbers in it. -/
lemma deletion_takes {detach : Bool} {p : Read WriteClause × List Token}
    (h : deletion detach ts = some p) :
    TakesOpenly ts p.2 (faultOf p.1) := by
  obtain ⟨vs, hdelete, h⟩ := Option.bind_eq_some_iff.1 h
  obtain ⟨⟨ns, ws⟩, hnames, h⟩ := Option.bind_eq_some_iff.1 h
  obtain rfl := Option.some.inj h
  rw [faultOf_map]
  exact .of_keyword hdelete (deletedName_fits.commaList _ hnames) (by decide)

/-- A clause that writes. Its first word is judged by the clause that it starts: `DETACH` is taken
here, but `DELETE` is left for the deletion itself. -/
lemma writeClause?_takes {clause : Option (Read WriteClause × List Token)} {r : Read WriteClause}
    (h : writeClause? ts = some clause) (hclause : clause = some (r, us)) :
    TakesOpenly ts us (faultOf r) := by
  subst hclause
  rw [writeClause?.eq_def] at h
  split at h
  · cases h
  · rename_i t rest
    -- the five words that start such a clause; none of them bears on a number
    have hword : ∀ {k : Keyword}, t.lexeme.keyword? = some k → k ∉ Keyword.bearing →
        Takes rest us (faultOf r) →
        TakesOpenly (t :: rest) us (faultOf r) := fun hk hbearing h =>
      .of_keyword (keyword_eq_some_iff.2 ⟨t, rfl, hk⟩) h hbearing
    split at h
    · exact hword ‹_› (by decide) (pattern_fits.takes_map (Option.some.inj h))
    · exact hword ‹_› (by decide) (pattern_fits.takes_map (Option.some.inj h))
    · exact hword ‹_› (by decide) (deletion_takes (Option.some.inj h)).takes
    · exact deletion_takes (Option.some.inj h)
    · exact hword ‹_› (by decide) ((setItem_fits.commaList _).takes_map (Option.some.inj h))
    · cases h

/-- Clauses that write tell the first fault among them. -/
lemma writeClauses_takes {fuel : Nat} {p : Read (List WriteClause) × List Token}
    (h : writeClauses fuel ts = some p) :
    TakesOpenly ts p.2 (faultOf p.1) := by
  induction fuel generalizing ts p with
  | zero => cases h
  | succ fuel ih =>
      rw [writeClauses] at h
      split at h
      · rename_i clause hclause
        obtain ⟨⟨c, vs⟩, hc, h⟩ := Option.bind_eq_some_iff.1 h
        obtain ⟨⟨more, ws⟩, hmore, h⟩ := Option.bind_eq_some_iff.1 h
        obtain rfl := Option.some.inj h
        rw [faultOf_join]
        exact (writeClause?_takes hclause hc).trans (ih hmore)
      · obtain rfl := Option.some.inj h
        exact .refl _

/-- A heading has no numbers in it. -/
lemma optionalHeading_takes {p : Option String × List Token} (h : optionalHeading ts = some p) :
    TakesOpenly ts p.2 none := by
  rw [optionalHeading] at h
  split at h
  · rename_i rest has
    obtain ⟨q, hq, rfl⟩ := Option.map_eq_some_iff.1 h
    exact (keyword_takes has (by decide)).trans (name_takes hq)
  · obtain rfl := Option.some.inj h
    exact .refl _

lemma returnItem_fits : Phrase.Fits returnItem := by
  intro ts us r h
  obtain ⟨⟨x, vs⟩, hx, h⟩ := Option.bind_eq_some_iff.1 h
  obtain ⟨⟨heading, ws⟩, hheading, h⟩ := Option.bind_eq_some_iff.1 h
  obtain ⟨rfl, rfl⟩ := Prod.mk.inj (Option.some.inj h)
  rw [faultOf_map]
  exact (expression_fits hx).trail (optionalHeading_takes hheading)

/-- What is returned tells the first fault among its items. -/
lemma returnClause_takes {p : Read (Option ReturnClause) × List Token}
    (h : returnClause ts = some p) :
    TakesOpenly ts p.2 (faultOf p.1) := by
  rw [returnClause] at h
  split at h
  · rename_i rest hreturn
    obtain ⟨⟨x, vs⟩, hx, h⟩ := Option.bind_eq_some_iff.1 h
    obtain rfl := Option.some.inj h
    have hitems := returnItem_fits.commaList _ hx
    rw [faultOf_map]
    exact .of_keyword hreturn (.of_optionalKeyword hitems (by decide)) (by decide)
  · obtain rfl := Option.some.inj h
    exact .refl _

/-- A direction is one word, or none. -/
lemma orderDirection_takes (ts : List Token) : TakesOpenly ts (orderDirection ts).2 none := by
  rw [orderDirection.eq_def]
  split
  · exact .refl _
  · rename_i t rest
    have hword : ∀ {k : Keyword}, t.lexeme.keyword? = some k → k ∉ Keyword.bearing →
        TakesOpenly (t :: rest) rest none :=
      fun hk => keyword_takes (keyword_eq_some_iff.2 ⟨t, rfl, hk⟩)
    split
    · exact hword ‹_› (by decide)
    · exact hword ‹_› (by decide)
    · exact hword ‹_› (by decide)
    · exact hword ‹_› (by decide)
    · exact .refl _

lemma orderItem_fits : Phrase.Fits orderItem := by
  intro ts us r h
  obtain ⟨⟨x, vs⟩, hx, h⟩ := Option.bind_eq_some_iff.1 h
  obtain ⟨rfl, rfl⟩ := Prod.mk.inj (Option.some.inj h)
  rw [faultOf_map]
  exact (expression_fits hx).trail (orderDirection_takes vs)

/-- An order tells the first fault among its items. -/
lemma orderClause_takes {p : Read (Option (List OrderItem)) × List Token}
    (h : orderClause ts = some p) :
    TakesOpenly ts p.2 (faultOf p.1) := by
  rw [orderClause] at h
  split at h
  · rename_i rest horder
    obtain ⟨vs, hby, h⟩ := Option.bind_eq_some_iff.1 h
    obtain ⟨⟨x, ws⟩, hx, h⟩ := Option.bind_eq_some_iff.1 h
    obtain rfl := Option.some.inj h
    have hitems := TakesOpenly.of_keyword hby (orderItem_fits.commaList _ hx) (by decide)
    rw [faultOf_map]
    exact .of_keyword horder hitems.takes (by decide)
  · obtain rfl := Option.some.inj h
    exact .refl _

/-- A count is judged by the keyword in front of it, which may be `SKIP` or `LIMIT`. So the two are
taken together. -/
lemma countClause_takes {k : Keyword} {clause : String} {p : Read (Option Nat) × List Token}
    (h : countClause k clause ts = some p)
    (hk : (k, clause) ∈ [(Keyword.skip, "SKIP"), (.limit, "LIMIT")]) :
    TakesOpenly ts p.2 (faultOf p.1) := by
  rw [countClause] at h
  split at h
  · rename_i g negative digits rest hkeyword
    obtain rfl := Option.some.inj h
    obtain ⟨t, rfl, ht⟩ := keyword_eq_some_iff.1 hkeyword
    -- a number behind a count is judged by the keyword, and no keyword is a star
    have hcount : Lexeme.fault? (some t.lexeme) (.integer negative digits)
        = faultOf (readCount clause negative digits) := by
      have hstar : some t.lexeme ≠ some (.mark .star) := by
        intro hstar
        rw [Option.some.inj hstar] at ht
        cases ht
      rw [Lexeme.fault?, if_neg hstar, Option.bind_some, ht]
      simp only [List.mem_cons, List.not_mem_nil, or_false, Prod.mk.injEq] at hk
      obtain ⟨rfl, rfl⟩ | ⟨rfl, rfl⟩ := hk <;> rfl
    have hopens : t.lexeme.Opens ∧ ¬ t.lexeme.StartsTest := by
      simp only [List.mem_cons, List.not_mem_nil, or_false, Prod.mk.injEq] at hk
      obtain ⟨rfl, -⟩ | ⟨rfl, -⟩ := hk
      · exact ⟨Lexeme.opens_of_keyword? ht (by decide), by simp [Lexeme.StartsTest, ht]⟩
      · exact ⟨Lexeme.opens_of_keyword? ht (by decide), by simp [Lexeme.StartsTest, ht]⟩
    rw [faultOf_map, ← hcount]
    exact takesOpenly_pair hopens.1 hopens.2 (Lexeme.fault?_of_keyword? ht none) rest
  · cases h
  · obtain rfl := Option.some.inj h
    exact .refl _

/-! ### Queries -/

/-- A statement tells the first fault among its clauses, which are read in the order of the text. -/
lemma statement_takes {p : Read Query × List Token} (h : statement ts = some p) :
    TakesOpenly ts p.2 (faultOf p.1) := by
  obtain ⟨⟨parts, vs⟩, hparts, h⟩ := Option.bind_eq_some_iff.1 h
  obtain ⟨⟨writes, ws⟩, hwrites, h⟩ := Option.bind_eq_some_iff.1 h
  obtain ⟨⟨returned, xs⟩, hreturned, h⟩ := Option.bind_eq_some_iff.1 h
  obtain ⟨⟨order, ys⟩, horder, h⟩ := Option.bind_eq_some_iff.1 h
  obtain ⟨⟨skip, zs⟩, hskip, h⟩ := Option.bind_eq_some_iff.1 h
  obtain ⟨⟨limit, ts'⟩, hlimit, h⟩ := Option.bind_eq_some_iff.1 h
  obtain rfl := Option.some.inj h
  have hcounts := (countClause_takes hskip (by decide)).trans (countClause_takes hlimit (by decide))
  -- the clauses are joined in the order in which they stand, so the first fault is the first in the
  -- text
  rw [faultOf_bind fun _ => faultOf_bind fun _ => faultOf_bind fun _ => faultOf_bind fun _ =>
    faultOf_join skip limit _]
  exact (matchParts_takes hparts).trans
    ((writeClauses_takes hwrites).trans ((returnClause_takes hreturned).trans
    ((orderClause_takes horder).trans hcounts)))

/-- **The tokens of every accepted text tell its fault.** -/
lemma account_of_queryOfTokens? {r : Read Query} (h : queryOfTokens? ts = some r) :
    Account ts (faultOf r) := by
  obtain ⟨⟨r', us⟩, hstatement, h⟩ := Option.bind_eq_some_iff.1 h
  have hsemicolon := optionalMark_takes (m := .semicolon) (by decide) us
  obtain ⟨b, rest, e⟩ : ∃ b rest, optionalMark .semicolon us = (b, rest) := ⟨_, _, rfl⟩
  rw [e] at hsemicolon
  dsimp only at h
  rw [e] at h
  split_ifs at h with hempty
  obtain rfl := Option.some.inj h
  obtain ⟨c, rfl, haccount⟩ := ((statement_takes hstatement).trail hsemicolon).takes
  rwa [List.isEmpty_iff.1 hempty, List.append_nil]

/-- No comment stands between `STARTS` or `ENDS` and a `WITH` that follows in the text of a query.
-/
lemma isChain_of_queryOfTokens? {q : Query} (h : queryOfTokens? ts = some (.ok q)) :
    ts.IsChain Fits :=
  (account_of_queryOfTokens? h).fits rfl

end CodeGraph.Cypher
