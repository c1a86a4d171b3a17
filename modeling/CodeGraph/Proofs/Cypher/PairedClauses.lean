import CodeGraph.Proofs.Cypher.Pairing

/-!
Clauses: the tree beside the readers.

The readers gather the clauses of a query and put them together at the end; the builder puts each of
them into the query that the clauses before it make up. So every kind of clause is a part whose
pairs change a query as the reader says, and the whole query follows by putting them in a row.

* `Folds.andThen`: two such parts in a row.
* `matches_folds`, `writes_folds`, `return_folds`, `order_folds`, `count_folds`: the clauses.
* `statement_pairs`: all clauses of a query.
* `Query.ofText_eq_ofTree`: the query of a text is that of its tree.
-/

namespace CodeGraph
namespace Cypher

open Cypher.Part

variable {α β γ : Type} {ts us rest : List Piece} {xs ys : List Pair} {m n : Nat} {p : Part}

/-! ### Phrases in a row -/

/-- Two phrases, one after the other. -/
def both (F : Phrase α) (G : Phrase γ) : Phrase (α × γ) := fun ts =>
  (F ts).bind fun a => (G a.2).map fun b => ((do pure (← a.1, ← b.1)), b.2)

/-- **Two parts in a row** are read and added one after the other. -/
lemma Folds.andThen {F : Phrase α} {G : Phrase γ} {ps : List Part} {add : β → Pair → Read β}
    {put : β → α → β} {put' : β → γ → β} (hF : Folds n F p add put)
    (hG : Folds m G (seq ps) add put') (hps : Bars n (seq ps)) (hnm : n ≤ m) :
    Folds m (both F G) (seq (p :: ps)) add fun b a => put' (put b a.1) a.2 := by
  intro ts h
  rcases hF ts h with ⟨xs, us, r, hp, hread, hfold⟩ | ⟨hread, hp⟩
  · rcases hG us (h.of_suffix (p.suffix hp)) with ⟨ys, rest, r', hq, hread', hfold'⟩ | ⟨hread', hq⟩
    · refine .inl ⟨xs ++ ys, rest, (do pure (← r, ← r')), ?_, ?_, fun b => ?_⟩
      · rw [seq_of_eq_some hp, hq]
        rfl
      · rw [both, hread, Option.bind_some, hread']
        rfl
      · rw [List.foldlM_append, hfold]
        cases r with
        | error f => rfl
        | ok a =>
            change ys.foldlM add (put b a) = _
            rw [hfold']
            cases r' <;> rfl
    · refine .inr ⟨?_, halts_seq_of_eq_some hp hq⟩
      rw [both, hread, Option.bind_some, hread']
      rfl
  · refine .inr ⟨?_, (hp.seq hps).mono hnm⟩
    rw [both, hread]
    rfl

lemma Folds.singleton {F : Phrase α} {add : β → Pair → Read β} {put : β → α → β}
    (h : Folds n F p add put) : Folds n F (seq [p]) add put := by
  intro ts hts
  rcases h ts hts with ⟨xs, rest, r, hp, hread, hfold⟩ | ⟨hread, hp⟩
  · exact .inl ⟨xs, rest, r, by rw [seq_singleton, hp], hread, hfold⟩
  · exact .inr ⟨hread, hp.seq bars_nothing⟩

/-- A keyword that may be left out. -/
lemma optionalKeyword_cases (k : Keyword) (ts : List Piece) :
    (∃ t us, ts = t :: us ∧ t.lexeme.keyword? = some k
        ∧ Grammar.keyword k ts = some ([⟨.keyword k, t.text, []⟩], us)
        ∧ optionalKeyword k (tokensOf ts) = (true, tokensOf us))
      ∨ Grammar.keyword k ts = none ∧ optionalKeyword k (tokensOf ts) = (false, tokensOf ts) := by
  rw [optionalKeyword]
  rcases keyword_cases k ts with ⟨t, us, rfl, hk, hpart, hread⟩ | ⟨-, hpart, hread⟩
  · exact .inl ⟨t, us, rfl, hk, hpart, by rw [hread]⟩
  · exact .inr ⟨hpart, by rw [hread]⟩

/-- The pairs of a rule behind some others. -/
lemma each_append {r : Rule} (hxs : ∀ x ∈ xs, x.rule ≠ r) (hys : ∀ y ∈ ys, y.rule = r) (r' : Rule)
    (text : List Char) : Pair.each r ⟨r', text, xs ++ ys⟩ = ys := by
  have hnone : xs.filter (·.rule = r) = [] :=
    List.filter_eq_nil_iff.2 fun x hx => by simpa using hxs x hx
  have hall : ys.filter (·.rule = r) = ys :=
    List.filter_eq_self.2 fun y hy => decide_eq_true (hys y hy)
  rw [Pair.each, List.filter_append, hnone, hall, List.nil_append]

/-! ### Matches -/

/-- The patterns of a clause, behind its keywords, are one. -/
lemma buildPatterns_eq (hxs : ∀ x ∈ xs, x.rule ≠ .pattern) {y : Pair} (hy : y.rule = .pattern)
    (r : Rule) (text : List Char) :
    buildPatterns ⟨r, text, xs ++ [y]⟩ = (buildPattern y).map ([·]) := by
  rw [buildPatterns, each_append hxs (by simpa using hy), List.mapM_cons]
  cases buildPattern y <;> rfl

/-- A keyword with a pattern behind. -/
lemma patternBehind_cases (h : IsCut ts) (k : Keyword) :
    (∃ text x rest, seq [Grammar.keyword k, Grammar.pattern] ts
          = some ([⟨.keyword k, text, []⟩] ++ [x], rest) ∧ x.rule = .pattern
        ∧ (keyword k (tokensOf ts)).bind pattern = some (buildPattern x, tokensOf rest))
      ∨ (keyword k (tokensOf ts)).bind pattern = none
        ∧ Halts 4 (seq [Grammar.keyword k, Grammar.pattern]) ts := by
  rcases keyword_cases k ts with ⟨t, us, rfl, -, hkeyword, hread⟩ | ⟨-, hkeyword, hread⟩
  · rw [hread, Option.bind_some]
    rcases pattern_pairs h.tail with ⟨x, rest, hpart, hrule, hpattern⟩ | ⟨hpattern, hpart⟩
    · refine .inl ⟨t.text, x, rest, ?_, hrule, hpattern⟩
      rw [seq_of_eq_some hkeyword, seq_singleton, hpart]
      rfl
    · exact .inr ⟨hpattern, halts_seq_of_eq_some hkeyword (hpart.seq bars_nothing)⟩
  · rw [hread]
    exact .inr ⟨rfl, halts_of_eq_none (seq_of_eq_none hkeyword _)⟩

/-- A match without its filter. -/
def matchHead : Phrase MatchClause := fun ts =>
  let found := optionalKeyword .optional ts
  ((keyword .matchWord found.2).bind pattern).map fun a =>
    (a.1.map fun paths => { paths, optional := found.1 }, a.2)

/-- A match is put behind the matches before it. -/
def addMatch (query : Query) (clause : MatchClause) : Query :=
  { query with matched := query.matched ++ [clause] }

/-- The heading of a match, optional or not, with its pattern. -/
lemma matchHead_folds : Folds 4 matchHead
    (choice [Grammar.optionalMatchClause, Grammar.matchClause]) buildClause addMatch := by
  intro ts h
  rw [matchHead]
  rcases optionalKeyword_cases .optional ts with ⟨t, us, rfl, hk, hoptional, hread⟩
    | ⟨hoptional, hread⟩
  · have hmatch : Grammar.matchClause (t :: us) = none :=
      rule_eq_none_iff.2 (seq_of_eq_none (keyword_eq_none_of_ne hk (by decide) us) _)
    rw [hread]
    dsimp only
    rcases patternBehind_cases h.tail .matchWord with
      ⟨text, x, rest, hpart, hrule, hpattern⟩ | ⟨hpattern, hpart⟩
    · have hseq : seq [Grammar.keyword .optional, Grammar.keyword .matchWord,
          Grammar.pattern] (t :: us)
          = some ([⟨.keyword .optional, t.text, []⟩, ⟨.keyword .matchWord, text, []⟩] ++ [x],
            rest) := by
        rw [seq_of_eq_some hoptional, hpart]
        rfl
      refine .inl ⟨_, rest, _, choice_of_eq_some (rule_of_eq_some hseq) _, by rw [hpattern]; rfl,
        fun query => ?_⟩
      rw [foldlM_singleton, buildClause]
      dsimp only
      rw [buildPatterns_eq (by simp) hrule]
      cases buildPattern x <;> rfl
    · refine .inr ⟨by rw [hpattern]; rfl, halts_choice (List.forall_mem_cons.2 ⟨?_, ?_⟩)⟩
      · exact (halts_seq_of_eq_some hoptional hpart).rule _
      · exact List.forall_mem_singleton.2 (halts_of_eq_none hmatch)
  · have hnone : Grammar.optionalMatchClause ts = none :=
      rule_eq_none_iff.2 (seq_of_eq_none hoptional _)
    rw [hread]
    dsimp only
    rcases patternBehind_cases h .matchWord with
      ⟨text, x, rest, hpart, hrule, hpattern⟩ | ⟨hpattern, hpart⟩
    · have hmatch : choice [Grammar.optionalMatchClause, Grammar.matchClause] ts
          = some ([⟨.matchClause, Piece.covered ts rest, [⟨.keyword .matchWord, text, []⟩] ++ [x]⟩],
            rest) := by
        rw [choice_of_eq_none hnone]
        exact choice_of_eq_some (rule_of_eq_some hpart) _
      refine .inl ⟨_, rest, _, hmatch, by rw [hpattern]; rfl, fun query => ?_⟩
      rw [foldlM_singleton, buildClause]
      dsimp only
      rw [buildPatterns_eq (by simp) hrule]
      cases buildPattern x <;> rfl
    · refine .inr ⟨by rw [hpattern]; rfl, halts_choice (List.forall_mem_cons.2 ⟨?_, ?_⟩)⟩
      · exact halts_of_eq_none hnone
      · exact List.forall_mem_singleton.2 (hpart.rule .matchClause)

/-- A filter is joined to the filters before it. -/
def addFilter (query : Query) (filter : Option Expr) : Query :=
  { query with filter := joinFilters [query.filter, filter] }

lemma addFilter_none (query : Query) : addFilter query none = query := by
  obtain ⟨matched, filter, returned, order, skip, limit, writes⟩ := query
  cases filter <;> rfl

/-- The filter behind a match, which is joined to what was filtered before. -/
lemma filter_folds :
    Folds 5 optionalFilter (optional Grammar.whereClause) buildClause addFilter := by
  intro ts h
  rw [optionalFilter]
  rcases keyword_cases .whereWord ts with ⟨t, us, rfl, hk, hkeyword, hread⟩ | ⟨-, hkeyword, hread⟩
  · rw [hread]
    dsimp only
    rcases expression_pairs h.tail with ⟨x, rest, hpart, hrule, hread'⟩ | ⟨hread', hpart⟩
    · have hseq : seq [Grammar.keyword .whereWord, Grammar.expression] (t :: us)
          = some ([⟨.keyword .whereWord, t.text, []⟩, x], rest) := by
        rw [seq_of_eq_some hkeyword, seq_singleton, hpart]
        rfl
      refine .inl ⟨_, rest, _, optional_of_eq_some (rule_of_eq_some hseq), by rw [hread']; rfl,
        fun query => ?_⟩
      have hfilter : ∀ text,
          buildFilter ⟨.whereClause, text, [⟨.keyword .whereWord, t.text, []⟩, x]⟩
          = buildExpression x := fun text => by
        simp [buildFilter, Pair.first?, hrule]
      rw [foldlM_singleton, buildClause]
      dsimp only
      rw [hfilter]
      cases buildExpression x with
      | error f => rfl
      | ok e =>
          have hjoin : some (joinFilter query.filter e) = joinFilters [query.filter, some e] := by
            cases query.filter <;> rfl
          exact congrArg (fun filter => Except.ok { query with filter }) hjoin
    · have hclause : Grammar.whereClause.Halts 2 (t :: us) :=
        (halts_seq_of_eq_some hkeyword (hpart.seq bars_nothing)).rule _
      exact .inr ⟨by rw [hread']; rfl, (hclause.mono (by omega)).optional (.of_keyword hk rfl)⟩
  · rw [hread]
    refine .inl ⟨[], ts, .ok none, optional_of_eq_none ?_, rfl, fun query => ?_⟩
    · exact rule_eq_none_iff.2 (seq_of_eq_none hkeyword _)
    · exact congrArg Except.ok (addFilter_none query).symm

/-- A match with its filter. -/
lemma matchPart_folds : Folds 5 matchPart Grammar.matchPart buildClause
    fun query part => addFilter (addMatch query part.1) part.2 := by
  have hwhere : Blocks 4 Grammar.whereClause := Blocks.rule (Blocks.seq (blocks_keyword rfl) _) _
  have hboth := matchHead_folds.andThen filter_folds.singleton
    (hwhere.bars.optional.seq bars_nothing) (by decide)
  have hread : matchPart = both matchHead optionalFilter := by
    funext ts
    rw [matchPart, both, matchHead]
    dsimp only
    cases keyword .matchWord (optionalKeyword .optional ts).2 with
    | none => rfl
    | some us =>
        simp only [Option.bind_eq_bind, Option.bind_some]
        cases pattern us with
        | none => rfl
        | some a =>
            simp only [Option.bind_some, Option.map_some]
            cases optionalFilter a.2 with
            | none => rfl
            | some b => cases a.1 <;> rfl
  rw [hread]
  exact hboth

/-- A match that was begun bars what may stand behind it. -/
lemma bars_matchPart : Bars 5 Grammar.matchPart := by
  have hoptional : Blocks 5 Grammar.optionalMatchClause :=
    Blocks.rule (Blocks.seq (blocks_keyword rfl) _) _
  have hmatch : Blocks 5 Grammar.matchClause := Blocks.rule (Blocks.seq (blocks_keyword rfl) _) _
  refine Blocks.bars (Blocks.seq (blocks_choice ?_) _)
  simpa using ⟨hoptional, hmatch⟩

lemma consumes_keyword_rule (k : Keyword) (ps : List Part) (r : Rule) :
    Consumes (rule r (seq (Grammar.keyword k :: ps))) :=
      (Consumes.seq (consumes_keyword k) _).rule _

lemma consumes_matchPart : Consumes Grammar.matchPart := by
  refine Consumes.seq (consumes_choice ?_) _
  simpa using ⟨consumes_keyword_rule _ _ _, consumes_keyword_rule _ _ _⟩

/-- The keyword that a match starts with tells whether one has to follow. -/
lemma startsMatch_cases (ts : List Piece) :
    (startsWithKeyword .matchWord (tokensOf ts) || startsWithKeyword .optional (tokensOf ts)) = true
        ∧ Stalled 6 ts
      ∨ (startsWithKeyword .matchWord (tokensOf ts) || startsWithKeyword .optional (tokensOf ts))
        = false
        ∧ Grammar.matchPart ts = none := by
  rw [startsWithKeyword, startsWithKeyword]
  rcases keyword_cases .matchWord ts with ⟨t, us, rfl, hk, -, hread⟩ | ⟨-, hmatch, hread⟩
  · exact .inl ⟨by rw [hread]; rfl, .of_keyword hk rfl⟩
  · rcases keyword_cases .optional ts with ⟨t, us, rfl, hk, -, hread'⟩ | ⟨-, hoptional, hread'⟩
    · exact .inl ⟨by rw [hread, hread']; rfl, .of_keyword hk rfl⟩
    · have hfirst : Grammar.optionalMatchClause ts = none :=
        rule_eq_none_iff.2 (seq_of_eq_none hoptional _)
      have hsecond : Grammar.matchClause ts = none := rule_eq_none_iff.2 (seq_of_eq_none hmatch _)
      refine .inr ⟨by rw [hread, hread']; rfl, seq_of_eq_none ?_ _⟩
      rw [choice_of_eq_none hfirst, choice_of_eq_none hsecond, choice_nil]

/-- **Matches** are put into the query one after the other. -/
lemma matches_folds : Folds 6 (fun ts => matchParts (ts.length + 1) ts) (many Grammar.matchPart)
    buildClause (List.foldl fun query part => addFilter (addMatch query part.1) part.2) := by
  refine many_folds consumes_matchPart fun {ts} h => ?_
  rcases startsMatch_cases ts with ⟨hstarts, hstalled⟩ | ⟨hstarts, hnone⟩
  · have hparts : ∀ fuel, matchParts (fuel + 1) (tokensOf ts)
        = (matchPart (tokensOf ts)).bind fun a =>
        (matchParts fuel a.2).map fun b => ((do pure ((← a.1) :: (← b.1))), b.2) := fun fuel => by
      rw [matchParts, if_pos hstarts]
      cases matchPart (tokensOf ts) with
      | none => rfl
      | some a =>
          simp only [Option.bind_eq_bind, Option.bind_some]
          cases matchParts fuel a.2 <;> rfl
    rcases matchPart_folds ts h with ⟨xs, us, r, hpart, hread, hfold⟩ | ⟨hread, hpart⟩
    · refine .inl ⟨xs, us, r, hpart, hfold, fun fuel => ?_⟩
      rw [hparts, hread, Option.bind_some]
    · refine .inr (.inr ⟨fun fuel => by rw [hparts, hread, Option.bind_none], ?_⟩)
      exact hpart.many hstalled bars_matchPart (by decide) consumes_matchPart
  · refine .inr (.inl ⟨hnone, fun fuel => ?_⟩)
    rw [matchParts, if_neg (by simp [hstarts])]

/-! ### Writing -/

/-- **A setting of a property** is built as it is read. -/
lemma setItem_pairs : PairsOne 2 setItem Grammar.setItem .setItem buildSetItem := by
  intro ts h
  have hfail : Grammar.propertyAccess ts = none → Grammar.setItem ts = none := fun hnone =>
    rule_eq_none_iff.2 (seq_of_eq_none hnone _)
  rw [setItem]
  rcases variableName_cases h with ⟨t, us, n, rfl, -, -, hvariable, hname⟩ | ⟨-, hvariable, hname⟩
  · rw [hname]
    simp only [Option.bind_eq_bind, Option.bind_some]
    rcases dotWord_cases h.tail .propertyKey with
      ⟨dot, u, vs, key, rfl, -, -, -, hkey, hdotted⟩ | ⟨hkey, hdotted⟩
    · obtain ⟨x, hx, hrule, hbuild⟩ := propertyAccess_of_eq_some hvariable hkey
      rw [hdotted]
      rcases dotWord_cases h.tail.tail.tail .propertyKey with
        ⟨dot', u', ws, key', rfl, hdot', -, -, -, hdotted'⟩ | ⟨-, hdotted'⟩
      · have hstalled : Stalled 1 (dot' :: u' :: ws) := .of_mark hdot' rfl
        have hequal : Blocks 1 (Grammar.sign .equal) := blocks_sign rfl
        refine .inr ⟨by rw [hdotted'], halts_of_eq_none (rule_eq_none_iff.2 ?_)⟩
        rw [seq_of_eq_some hx, seq_of_eq_none (hequal _ hstalled)]
        rfl
      · rw [hdotted']
        dsimp only
        rcases sign_cases .equal vs with ⟨e, ws, rfl, -, hequal, hmark⟩ | ⟨-, hequal, hmark⟩
        · rw [hmark, Option.bind_some]
          rcases expression_pairs h.tail.tail.tail.tail with
            ⟨y, rest, hpart, hy, hread⟩ | ⟨hread, hpart⟩
          · have hseq : seq [Grammar.propertyAccess, Grammar.sign .equal, Grammar.expression]
                (t :: dot :: u :: e :: ws) = some ([x, y], rest) := by
              rw [seq_of_eq_some hx, seq_of_eq_some hequal, seq_singleton, hpart]
              rfl
            refine .inl ⟨_, rest, rule_of_eq_some hseq, rfl, ?_⟩
            rw [hread, buildSetItem, List.foldlM_cons, addToSetItem, hrule]
            dsimp only
            rw [hbuild]
            change _
              = some (Except.bind ([y].foldlM addToSetItem (some (.property n key), none)) _, _)
            rw [foldlM_singleton, addToSetItem, hy]
            cases buildExpression y <;> rfl
          · refine .inr ⟨by rw [hread]; rfl, Halts.rule ?_ _⟩
            exact halts_seq_of_eq_some hx (halts_seq_of_eq_some hequal (hpart.seq bars_nothing))
        · refine .inr ⟨by rw [hmark]; rfl, halts_of_eq_none (rule_eq_none_iff.2 ?_)⟩
          rw [seq_of_eq_some hx, seq_of_eq_none hequal]
          rfl
    · rw [hdotted]
      exact .inr ⟨rfl, halts_of_eq_none (hfail (propertyAccess_of_dotWord hvariable hkey))⟩
  · rw [hname]
    exact .inr ⟨rfl, halts_of_eq_none (hfail (propertyAccess_of_name hvariable))⟩

/-- A name that is deleted is a variable. -/
lemma deletedName_pairs :
    PairsOne 0 deletedName Grammar.variableName .variableName fun x => .ok x.string := by
  intro ts h
  rw [deletedName]
  rcases variableName_cases h with ⟨t, us, n, rfl, -, -, hvariable, hname⟩ | ⟨-, hvariable, hname⟩
  · refine .inl ⟨_, us, hvariable, rfl, ?_⟩
    rw [hname, Option.map_some]
    exact congrArg (fun n => some (Except.ok n, tokensOf us)) String.ofList_toList.symm
  · exact .inr ⟨by rw [hname]; rfl, halts_of_eq_none hvariable⟩

/-- The writing clauses by the keyword that they start with. -/
lemma writeClause_cons (t : Piece) (us : List Piece) :
    Grammar.writeClause (t :: us) = match t.lexeme.keyword? with
      | some .create => Grammar.createClause (t :: us)
      | some .merge => Grammar.mergeClause (t :: us)
      | some .detach | some .delete => Grammar.deleteClause (t :: us)
      | some .set => Grammar.setClause (t :: us)
      | _ => none := by
  have hnone : ∀ {k}, t.lexeme.keyword? ≠ some k → Grammar.keyword k (t :: us) = none :=
    fun hne => by
    rw [Grammar.keyword, leaf_cons, if_neg (by simpa using hne)]
  have hcreate : t.lexeme.keyword? ≠ some .create → Grammar.createClause (t :: us) = none :=
    fun hne => rule_eq_none_iff.2 (seq_of_eq_none (hnone hne) _)
  have hmerge : t.lexeme.keyword? ≠ some .merge → Grammar.mergeClause (t :: us) = none :=
    fun hne => rule_eq_none_iff.2 (seq_of_eq_none (hnone hne) _)
  have hdelete : t.lexeme.keyword? ≠ some .detach → t.lexeme.keyword? ≠ some .delete →
      Grammar.deleteClause (t :: us) = none := fun hne hne' => rule_eq_none_iff.2 <| by
    rw [seq_of_eq_some (optional_of_eq_none (hnone hne)), seq_of_eq_none (hnone hne')]
    rfl
  have hset : t.lexeme.keyword? ≠ some .set → Grammar.setClause (t :: us) = none :=
    fun hne => rule_eq_none_iff.2 (seq_of_eq_none (hnone hne) _)
  rw [Grammar.writeClause, choice_cons, choice_cons, choice_cons, choice_cons, choice_nil]
  generalize t.lexeme.keyword? = o at *
  split
  · simp [hmerge, hdelete, hset]
  · simp [hcreate, hdelete, hset]
  · simp [hcreate, hmerge, hset]
  · simp [hcreate, hmerge, hset]
  · simp [hcreate, hmerge, hdelete]
  · rename_i h₁ h₂ h₃ h₄ h₅
    rw [hcreate h₁, hmerge h₂, hdelete h₃ h₄, hset h₅]
    rfl

/-- A writing clause is put behind those before it. -/
def addWrite (query : Query) (clause : WriteClause) : Query :=
  { query with writes := query.writes ++ [clause] }

/-- Patterns are created and merged alike. -/
lemma patternClause_folds (k : Keyword) (r : Rule) (make : List PathPattern → WriteClause)
    (hbuild : ∀ query text inner, buildClause query ⟨r, text, inner⟩ = do
      let patterns ← buildPatterns ⟨r, text, inner⟩
      pure { query with writes := query.writes ++ patterns.map make }) :
    Folds 4 (fun ts => ((keyword k ts).bind pattern).map fun a => (a.1.map make, a.2))
      (rule r (seq [Grammar.keyword k, Grammar.pattern])) buildClause addWrite := by
  intro ts h
  dsimp only
  rcases patternBehind_cases h k with ⟨text, x, rest, hpart, hrule, hread⟩ | ⟨hread, hpart⟩
  · refine .inl ⟨_, rest, _, rule_of_eq_some hpart, by rw [hread]; rfl, fun query => ?_⟩
    rw [foldlM_singleton, hbuild, buildPatterns_eq (by simp) hrule]
    cases buildPattern x <;> rfl
  · exact .inr ⟨by rw [hread]; rfl, hpart.rule _⟩

/-- A clause that sets properties. -/
lemma setClause_folds : Folds 4 (fun ts => (keyword .set ts).bind fun us =>
      (commaList setItem (us.length + 1) us).map fun a => (a.1.map .set, a.2))
    Grammar.setClause buildClause addWrite := by
  intro ts h
  dsimp only
  rcases keyword_cases .set ts with ⟨t, us, rfl, -, hkeyword, hread⟩ | ⟨-, hkeyword, hread⟩
  · rw [hread, Option.bind_some]
    rcases commaList_pairs setItem_pairs (by decide) h.tail with
      ⟨xs, rest, hlist, hrules, hitems⟩ | ⟨hitems, hlist⟩
    · have hseq : seq [Grammar.keyword .set, Grammar.commaSeparated Grammar.setItem] (t :: us)
          = some ([⟨.keyword .set, t.text, []⟩] ++ xs, rest) := by
        rw [seq_of_eq_some hkeyword, seq_singleton, hlist]
        rfl
      refine .inl ⟨_, rest, _, rule_of_eq_some hseq, by rw [hitems]; rfl, fun query => ?_⟩
      rw [foldlM_singleton, buildClause]
      dsimp only
      rw [each_append (by simp) hrules]
      cases xs.mapM buildSetItem <;> rfl
    · refine .inr ⟨by rw [hitems]; rfl, Halts.rule ?_ _⟩
      exact halts_seq_of_eq_some hkeyword (hlist.seq bars_nothing)
  · rw [hread]
    exact .inr ⟨rfl, halts_of_eq_none (rule_eq_none_iff.2 (seq_of_eq_none hkeyword _))⟩

lemma mapM_ok {δ : Type} (f : Pair → δ) (xs : List Pair) :
    xs.mapM (fun x => (.ok (f x) : Read δ)) = .ok (xs.map f) := by
  induction xs with
  | nil => rfl
  | cons x xs ih =>
      rw [List.mapM_cons, ih]
      rfl

/-- The names of a deletion, with or without a keyword in front. -/
lemma buildDeletion_eq {ys : List Pair} {detach : Bool}
    (hys : ys = [] ∧ detach = false
      ∨ ∃ text, ys = [⟨.keyword .detach, text, []⟩] ∧ detach = true)
    (hxs : ∀ x ∈ xs, x.rule = .variableName) (text word : List Char) :
    buildDeletion ⟨.deleteClause, text, (ys ++ [⟨.keyword .delete, word, []⟩]) ++ xs⟩
      = .delete (xs.map Pair.string) detach := by
  have hno : xs.filter (·.rule = .keyword .detach) = [] :=
    List.filter_eq_nil_iff.2 fun x hx => by simp [hxs x hx]
  rw [buildDeletion, each_append _ hxs]
  · rw [Pair.each, List.filter_append, List.filter_append, hno]
    rcases hys with ⟨rfl, rfl⟩ | ⟨text, rfl, rfl⟩ <;> rfl
  · rcases hys with ⟨rfl, rfl⟩ | ⟨text, rfl, rfl⟩ <;> simp

/-- A clause that deletes, with its first keyword or without. -/
lemma deleteClause_folds : Folds 4 (fun ts =>
      let found := optionalKeyword .detach ts
      deletion found.1 found.2)
    Grammar.deleteClause buildClause addWrite := by
  intro ts h
  dsimp only
  -- what stands in front of the names, with or without the first keyword
  have hnames : ∀ {ys us} (detach : Bool), optional (Grammar.keyword .detach) ts = some (ys, us) →
      us <:+ ts → (ys = [] ∧ detach = false ∨ ∃ text,
        ys = [⟨.keyword .detach, text, []⟩] ∧ detach = true) →
      (∃ xs rest r, Grammar.deleteClause ts = some (xs, rest)
          ∧ deletion detach (tokensOf us) = some (r, tokensOf rest)
          ∧ ∀ query, xs.foldlM buildClause query = r.map (addWrite query))
        ∨ deletion detach (tokensOf us) = none ∧ Grammar.deleteClause.Halts 4 ts := by
    intro ys us detach hfirst hsuffix hys
    rw [deletion]
    rcases keyword_cases .delete us with ⟨u, vs, rfl, -, hkeyword, hread⟩ | ⟨-, hkeyword, hread⟩
    · simp only [hread, Option.bind_eq_bind, Option.bind_some]
      rcases commaList_pairs deletedName_pairs (by decide) (h.of_suffix hsuffix).tail with
        ⟨xs, rest, hlist, hrules, hitems⟩ | ⟨hitems, hlist⟩
      · have hseq : seq [optional (Grammar.keyword .detach), Grammar.keyword .delete,
            Grammar.commaSeparated Grammar.variableName] ts
            = some ((ys ++ [⟨.keyword .delete, u.text, []⟩]) ++ xs, rest) := by
          rw [seq_of_eq_some hfirst, seq_of_eq_some hkeyword, seq_singleton, hlist]
          simp
        rw [mapM_ok] at hitems
        refine .inl ⟨_, rest, _, rule_of_eq_some hseq, by rw [hitems]; rfl, fun query => ?_⟩
        rw [foldlM_singleton, buildClause]
        dsimp only
        rw [buildDeletion_eq hys hrules]
        rfl
      · refine .inr ⟨by rw [hitems]; rfl, Halts.rule ?_ _⟩
        exact halts_seq_of_eq_some hfirst (halts_seq_of_eq_some hkeyword (hlist.seq bars_nothing))
    · refine .inr ⟨by rw [hread]; rfl, halts_of_eq_none (rule_eq_none_iff.2 ?_)⟩
      rw [seq_of_eq_some hfirst, seq_of_eq_none hkeyword]
      rfl
  rcases optionalKeyword_cases .detach ts with ⟨t, us, rfl, -, hdetach, hread⟩ | ⟨hdetach, hread⟩
  · rw [hread]
    exact hnames true (optional_of_eq_some hdetach) (List.suffix_cons t us) (.inr ⟨_, rfl, rfl⟩)
  · rw [hread]
    exact hnames false (optional_of_eq_none hdetach) List.suffix_rfl (.inl ⟨rfl, rfl⟩)

/-- What a writing clause is read as, if one starts here. -/
def WritesAt (ts : List Piece) : Prop :=
  ∃ o, writeClause? (tokensOf ts) = some o ∧ Stalled 7 ts
    ∧ ((∃ xs us r, Grammar.writeClause ts = some (xs, us) ∧ o = some (r, tokensOf us)
        ∧ ∀ query, xs.foldlM buildClause query = r.map (addWrite query))
      ∨ o = none ∧ Grammar.writeClause.Halts 4 ts)

/-- A clause that is added to the query is what a writing clause is read as, at its keyword. -/
lemma Folds.writesAt {F : Phrase WriteClause} (hF : Folds 4 F p buildClause addWrite) (h : IsCut ts)
    (hread : writeClause? (tokensOf ts) = some (F (tokensOf ts)))
    (hpart : Grammar.writeClause ts = p ts) (hts : Stalled 7 ts) : WritesAt ts := by
  refine ⟨_, hread, hts, ?_⟩
  rcases hF ts h with ⟨xs, us, r, hp, hF', hfold⟩ | ⟨hF', hp⟩
  · exact .inl ⟨xs, us, r, hpart.trans hp, hF', hfold⟩
  · exact .inr ⟨hF', fun xs rest heq => hp xs rest (hpart.symm.trans heq)⟩

/-- A writing clause is there if its keyword is. -/
lemma writeClause_cases (h : IsCut ts) :
    WritesAt ts ∨ writeClause? (tokensOf ts) = none ∧ Grammar.writeClause ts = none := by
  cases ts with
  | nil => exact .inr ⟨rfl, rfl⟩
  | cons t us =>
      have hpart := writeClause_cons t us
      have hread : writeClause? (tokensOf (t :: us)) = match t.lexeme.keyword? with
          | some .create => some ((pattern (tokensOf us)).map fun a => (a.1.map .create, a.2))
          | some .merge => some ((pattern (tokensOf us)).map fun a => (a.1.map .merge, a.2))
          | some .detach => some (deletion true (tokensOf us))
          | some .delete => some (deletion false (tokensOf (t :: us)))
          | some .set => some ((commaList setItem ((tokensOf us).length + 1) (tokensOf us)).map
              fun a => (a.1.map .set, a.2))
          | _ => none := rfl
      have hkeyword : ∀ {k}, t.lexeme.keyword? = some k →
          keyword k (tokensOf (t :: us)) = some (tokensOf us) := fun hk => if_pos hk
      cases hk : t.lexeme.keyword? with
      | none =>
          rw [hk] at hread hpart
          exact .inr ⟨hread, hpart⟩
      | some k =>
          rw [hk] at hread hpart
          cases k with
          | create =>
              have hfold := patternClause_folds .create .createClause .create fun _ _ _ => rfl
              exact .inl (hfold.writesAt h (by rw [hread, hkeyword hk]; rfl) hpart
                (.of_keyword hk rfl))
          | merge =>
              have hfold := patternClause_folds .merge .mergeClause .merge fun _ _ _ => rfl
              exact .inl (hfold.writesAt h (by rw [hread, hkeyword hk]; rfl) hpart
                (.of_keyword hk rfl))
          | detach =>
              refine .inl (deleteClause_folds.writesAt h ?_ hpart (.of_keyword hk rfl))
              rw [hread, optionalKeyword, hkeyword hk]
          | delete =>
              refine .inl (deleteClause_folds.writesAt h ?_ hpart (.of_keyword hk rfl))
              have hnone : keyword .detach (tokensOf (t :: us)) = none :=
                if_neg (by rw [hk]; decide)
              rw [hread, optionalKeyword, hnone]
          | set =>
              refine .inl (setClause_folds.writesAt h ?_ hpart (.of_keyword hk rfl))
              rw [hread, hkeyword hk]
              rfl
          | _ => exact .inr ⟨hread, hpart⟩

lemma blocks_writeClause : Blocks 6 Grammar.writeClause := by
  have hcreate : Blocks 6 Grammar.createClause := Blocks.rule (Blocks.seq (blocks_keyword rfl) _) _
  have hmerge : Blocks 6 Grammar.mergeClause := Blocks.rule (Blocks.seq (blocks_keyword rfl) _) _
  have hdelete : Blocks 6 Grammar.deleteClause :=
    Blocks.rule (Blocks.seq_optional (blocks_keyword rfl) (Blocks.seq (blocks_keyword rfl) _)) _
  have hset : Blocks 6 Grammar.setClause := Blocks.rule (Blocks.seq (blocks_keyword rfl) _) _
  refine blocks_choice ?_
  simpa using ⟨hcreate, hmerge, hdelete, hset⟩

lemma consumes_writeClause : Consumes Grammar.writeClause := by
  have hdelete : Consumes Grammar.deleteClause :=
    (consumes_seq_cons _ ((consumes_keyword .delete).seq _)).rule _
  refine consumes_choice ?_
  simpa using ⟨consumes_keyword_rule _ _ _, consumes_keyword_rule _ _ _, hdelete,
    consumes_keyword_rule _ _ _⟩

/-- **Writing clauses** are put into the query one after the other. -/
lemma writes_folds : Folds 7 (fun ts => writeClauses (ts.length + 1) ts) (many Grammar.writeClause)
    buildClause (List.foldl addWrite) := by
  refine many_folds consumes_writeClause fun {ts} h => ?_
  -- the keyword of a clause decides: with it the clause is there, or the text is rejected
  rcases writeClause_cases h with ⟨o, hwrite, hstalled, hclause⟩ | ⟨hwrite, hnone⟩
  · have hclauses : ∀ fuel, writeClauses (fuel + 1) (tokensOf ts) = o.bind fun a =>
        (writeClauses fuel a.2).map fun b => ((do pure ((← a.1) :: (← b.1))), b.2) := fun fuel => by
      rw [writeClauses, hwrite]
      cases o with
      | none => rfl
      | some a =>
          simp only [Option.bind_eq_bind, Option.bind_some]
          cases writeClauses fuel a.2 <;> rfl
    rcases hclause with ⟨xs, us, r, hpart, rfl, hfold⟩ | ⟨rfl, hpart⟩
    · exact .inl ⟨xs, us, r, hpart, hfold, fun fuel => hclauses fuel⟩
    · refine .inr (.inr ⟨fun fuel => hclauses fuel, ?_⟩)
      exact hpart.many hstalled (blocks_writeClause.mono (by omega)).bars (by decide)
        consumes_writeClause
  · refine .inr (.inl ⟨hnone, fun fuel => ?_⟩)
    rw [writeClauses, hwrite]

/-! ### Returning -/

/-- The heading behind a returned expression, if there is one. -/
lemma optionalHeading_cases (h : IsCut ts) :
    (∃ xs us v, optional (seq [Grammar.keyword .asWord, Grammar.variableName]) ts = some (xs, us)
        ∧ optionalHeading (tokensOf ts) = some (v, tokensOf us)
        ∧ ∀ value : Option Expr, xs.foldlM addToReturnItem (value, none) = .ok (value, v))
      ∨ optionalHeading (tokensOf ts) = none
        ∧ (optional (seq [Grammar.keyword .asWord, Grammar.variableName])).Halts 3 ts := by
  rw [optionalHeading]
  rcases keyword_cases .asWord ts with ⟨t, us, rfl, hk, hkeyword, hread⟩ | ⟨-, hkeyword, hread⟩
  · rw [hread]
    dsimp only
    rcases variableName_cases h.tail with
      ⟨u, vs, n, rfl, -, -, hvariable, hname⟩ | ⟨-, hvariable, hname⟩
    · have hseq : seq [Grammar.keyword .asWord, Grammar.variableName] (t :: u :: vs)
          = some ([⟨.keyword .asWord, t.text, []⟩, ⟨.variableName, n.toList, []⟩], vs) := by
        rw [seq_of_eq_some hkeyword, seq_singleton, hvariable]
        rfl
      refine .inl ⟨_, vs, some n, optional_of_eq_some hseq, by rw [hname]; rfl, fun value => ?_⟩
      exact congrArg (fun n => Except.ok (value, some n)) String.ofList_toList
    · have hseq : seq [Grammar.keyword .asWord, Grammar.variableName] (t :: us) = none := by
        rw [seq_of_eq_some hkeyword, seq_singleton, hvariable]
        rfl
      exact .inr ⟨by rw [hname]; rfl, (halts_of_eq_none hseq).optional (.of_keyword hk rfl)⟩
  · rw [hread]
    exact .inl ⟨[], ts, none, optional_of_eq_none (seq_of_eq_none hkeyword _), rfl, fun _ => rfl⟩

/-- A returned expression with its heading, if there is one. -/
lemma returnItem_pairs : PairsOne 3 returnItem Grammar.returnItem .returnItem buildReturnItem := by
  intro ts h
  have hbars : Bars 2 (seq [optional (seq [Grammar.keyword .asWord, Grammar.variableName])]) :=
    (Blocks.seq (blocks_keyword rfl) _).bars.optional.seq bars_nothing
  rw [returnItem]
  rcases expression_pairs h with ⟨x, us, hpart, hrule, hread⟩ | ⟨hread, hpart⟩
  · simp only [hread, Option.bind_eq_bind, Option.bind_some]
    rcases optionalHeading_cases (h.of_suffix (Grammar.expression.suffix hpart)) with
      ⟨ys, rest, v, hheading, hread', hys⟩ | ⟨hread', hheading⟩
    · have hseq : seq [Grammar.expression,
          optional (seq [Grammar.keyword .asWord, Grammar.variableName])] ts
          = some (x :: ys, rest) := by
        rw [seq_of_eq_some hpart, seq_singleton, hheading]
        rfl
      refine .inl ⟨_, rest, rule_of_eq_some hseq, rfl, ?_⟩
      rw [hread', Option.bind_some, buildReturnItem, List.foldlM_cons, addToReturnItem, hrule]
      cases buildExpression x with
      | error f => rfl
      | ok e =>
          change _ = some (Except.bind (ys.foldlM addToReturnItem (some e, none)) _, _)
          rw [hys]
          rfl
    · refine .inr ⟨by rw [hread']; rfl, Halts.rule (halts_seq_of_eq_some hpart ?_) _⟩
      exact hheading.seq bars_nothing
  · exact .inr ⟨by rw [hread]; rfl, ((hpart.seq hbars).rule _).mono (by omega)⟩

/-- Of several clauses that return something the last one counts. -/
def addReturn (query : Query) (clause : Option ReturnClause) : Query :=
  { query with returned := clause.or query.returned }

/-- The keyword that asks for distinct rows, if it is there. -/
lemma optionalDistinct_cases (ts : List Piece) :
    ∃ ys us distinct, optional (Grammar.keyword .distinct) ts = some (ys, us)
      ∧ optionalKeyword .distinct (tokensOf ts) = (distinct, tokensOf us) ∧ us <:+ ts
      ∧ ∀ clause, ys.foldlM addToReturn clause
        = .ok { clause with distinct := distinct || clause.distinct } := by
  rcases optionalKeyword_cases .distinct ts with ⟨t, us, rfl, -, hpart, hread⟩ | ⟨hpart, hread⟩
  · exact ⟨_, us, true, optional_of_eq_some hpart, hread, List.suffix_cons t us, fun _ => rfl⟩
  · exact ⟨[], ts, false, optional_of_eq_none hpart, hread, List.suffix_rfl, fun _ => rfl⟩

/-- A clause that returns something is built of its items. -/
lemma buildReturn_eq {ys : List Pair} {distinct : Bool}
    (hys : ∀ clause, ys.foldlM addToReturn clause
      = .ok { clause with distinct := distinct || clause.distinct })
    (hxs : ∀ x ∈ xs, x.rule = .returnItem) (text word covered : List Char) :
    buildReturn ⟨.returnClause, text, ⟨.keyword .returnWord, word, []⟩ ::
        (ys ++ [⟨.returnItems, covered, xs⟩])⟩
      = (xs.mapM buildReturnItem).map fun items => { items, distinct } := by
  rw [buildReturn, List.foldlM_cons]
  change (ys ++ [(⟨.returnItems, covered, xs⟩ : Pair)]).foldlM addToReturn { items := [] } = _
  rw [List.foldlM_append, hys]
  change [(⟨.returnItems, covered, xs⟩ : Pair)].foldlM addToReturn
    { items := [], distinct := distinct || false } = _
  rw [foldlM_singleton, addToReturn]
  dsimp only
  rw [each_eq_self hxs, Bool.or_false]
  cases xs.mapM buildReturnItem <;> rfl

/-- **What a query returns** is put into it. -/
lemma return_folds :
    Folds 8 returnClause (optional Grammar.returnClause) buildClause addReturn := by
  intro ts h
  rw [returnClause]
  rcases keyword_cases .returnWord ts with ⟨t, us, rfl, hk, hkeyword, hread⟩ | ⟨-, hkeyword, hread⟩
  · rw [hread]
    dsimp only
    obtain ⟨ys, vs, distinct, hdistinct, hread', hvs, hys⟩ := optionalDistinct_cases us
    rw [hread']
    dsimp only
    rcases commaList_pairs returnItem_pairs (by decide) (h.tail.of_suffix hvs) with
      ⟨xs, rest, hlist, hrules, hitems⟩ | ⟨hitems, hlist⟩
    · have hlist' : Grammar.returnItems vs
          = some ([⟨.returnItems, Piece.covered vs rest, xs⟩], rest) :=
        rule_of_eq_some hlist
      have hseq : seq [Grammar.keyword .returnWord, optional (Grammar.keyword .distinct),
          Grammar.returnItems] (t :: us) = some (⟨.keyword .returnWord, t.text, []⟩ ::
            (ys ++ [⟨.returnItems, Piece.covered vs rest, xs⟩]), rest) := by
        rw [seq_of_eq_some hkeyword, seq_of_eq_some hdistinct, seq_singleton, hlist']
        rfl
      refine .inl ⟨_, rest, _, optional_of_eq_some (rule_of_eq_some hseq), by rw [hitems]; rfl,
        fun query => ?_⟩
      rw [foldlM_singleton, buildClause]
      dsimp only
      rw [buildReturn_eq hys hrules]
      cases xs.mapM buildReturnItem <;> rfl
    · have hclause : Grammar.returnClause.Halts 4 (t :: us) :=
        Halts.rule (halts_seq_of_eq_some hkeyword (halts_seq_of_eq_some hdistinct
          ((hlist.rule .returnItems).seq bars_nothing))) _
      exact .inr ⟨by rw [hitems]; rfl, (hclause.mono (by omega)).optional (.of_keyword hk rfl)⟩
  · rw [hread]
    refine .inl ⟨[], ts, .ok none, optional_of_eq_none ?_, rfl, fun query => rfl⟩
    exact rule_eq_none_iff.2 (seq_of_eq_none hkeyword _)

/-! ### Ordering and counting -/

/-- A direction is known by its word, in letters of any case. -/
lemma addToOrderItem_of_keyword {t : Piece} {k : Keyword} (h : IsCut (t :: us))
    (hk : t.lexeme.keyword? = some k) (inner : List Pair) (found : Option Expr × Bool) :
    addToOrderItem found ⟨.orderDirection, t.text, inner⟩
      = .ok (found.1, k.spelling = "asc" || k.spelling = "ascending") := by
  obtain ⟨w, hw, hword⟩ := Lexeme.exists_word_of_keyword? hk
  have hletters : (String.ofList t.text).map Char.toLower = k.spelling := by
    rw [h.text_of_word hw, String.ofList_toList]
    exact Keyword.map_toLower_of_ofWord? hword
  rw [addToOrderItem]
  dsimp only [Pair.string]
  rw [hletters]

/-- The word behind an ordered expression, if there is one. -/
lemma orderDirection_cases (h : IsCut ts) :
    ∃ xs us ascending, optional Grammar.orderDirection ts = some (xs, us)
      ∧ orderDirection (tokensOf ts) = (ascending, tokensOf us)
      ∧ ∀ found : Option Expr, xs.foldlM addToOrderItem (found, true) = .ok (found, ascending) := by
  cases ts with
  | nil => exact ⟨[], [], true, rfl, rfl, fun _ => rfl⟩
  | cons t us =>
      -- both sides know four keywords, two for each direction
      have hread : orderDirection (tokensOf (t :: us)) =
          if t.lexeme.keyword? ∈ [some .asc, some .ascending] then (true, tokensOf us)
          else if t.lexeme.keyword? ∈ [some .desc, some .descending] then (false, tokensOf us)
          else (true, tokensOf (t :: us)) := by
        change orderDirection (⟨t.gap, t.lexeme⟩ :: tokensOf us) = _
        rw [orderDirection]
        cases hk : t.lexeme.keyword? with
        | none => rfl
        | some k => cases k <;> rfl
      have hchoice : optional Grammar.orderDirection (t :: us) = some
          (if t.lexeme.keyword? ∈ [some .asc, some .ascending, some .desc, some .descending] then
            ([⟨.orderDirection, t.text, [⟨.keyword (t.lexeme.keyword?.getD .asc), t.text, []⟩]⟩],
              us)
          else ([], t :: us)) := by
        rw [optional_eq, Grammar.orderDirection, rule_eq]
        simp only [choice_cons, choice_nil, Grammar.keyword, leaf_cons]
        cases hk : t.lexeme.keyword? with
        | none => simp
        | some k => cases k <;> simp [Piece.covered_cons]
      cases hk : t.lexeme.keyword? with
      | none =>
          rw [hk] at hread hchoice
          exact ⟨_, _, _, hchoice, hread, fun _ => rfl⟩
      | some k =>
          have hfold : ∀ inner (found : Option Expr),
              [(⟨.orderDirection, t.text, inner⟩ : Pair)].foldlM addToOrderItem (found, true)
                = .ok (found, k.spelling = "asc" || k.spelling = "ascending") :=
                  fun inner found => by
            rw [foldlM_singleton, addToOrderItem_of_keyword h hk]
          rw [hk] at hread hchoice
          cases k with
          | asc | ascending | desc | descending => exact ⟨_, us, _, hchoice, hread, hfold _⟩
          | _ => exact ⟨[], t :: us, true, hchoice, hread, fun _ => rfl⟩

/-- An expression that orders, with its direction. -/
lemma orderItem_pairs : PairsOne 2 orderItem Grammar.orderItem .orderItem buildOrderItem := by
  intro ts h
  have hdirection : Blocks 2 Grammar.orderDirection := by
    refine Blocks.rule (blocks_choice ?_) _
    simpa using ⟨blocks_keyword rfl, blocks_keyword rfl, blocks_keyword rfl, blocks_keyword rfl⟩
  rw [orderItem]
  rcases expression_pairs h with ⟨x, us, hpart, hrule, hread⟩ | ⟨hread, hpart⟩
  · obtain ⟨xs, vs, ascending, hdirection, hread', hfold⟩ :=
      orderDirection_cases (h.of_suffix (Grammar.expression.suffix hpart))
    have hseq : seq [Grammar.expression, optional Grammar.orderDirection] ts
        = some (x :: xs, vs) := by
      rw [seq_of_eq_some hpart, seq_singleton, hdirection]
      rfl
    refine .inl ⟨_, vs, rule_of_eq_some hseq, rfl, ?_⟩
    rw [hread, buildOrderItem, List.foldlM_cons, addToOrderItem, hrule]
    simp only [Option.bind_eq_bind, Option.bind_some, hread']
    cases buildExpression x with
    | error f => rfl
    | ok e =>
        change _ = some (Except.bind (xs.foldlM addToOrderItem (some e, true)) _, _)
        rw [hfold]
        rfl
  · refine .inr ⟨by rw [hread]; rfl, (hpart.seq ?_).rule _⟩
    exact hdirection.bars.optional.seq bars_nothing

/-- Of several orders the last one counts. -/
def addOrder (query : Query) (order : Option (List OrderItem)) : Query :=
  { query with order := order.or query.order }

/-- A clause that orders is built of its items. -/
lemma buildOrder_eq (hxs : ∀ x ∈ xs, x.rule = .orderItem) (text word word' covered : List Char) :
    buildOrder ⟨.orderByClause, text, [⟨.keyword .order, word, []⟩,
        ⟨.keyword .byWord, word', []⟩, ⟨.orderItems, covered, xs⟩]⟩
      = xs.mapM buildOrderItem := by
  change [(⟨.orderItems, covered, xs⟩ : Pair)].foldlM addToOrder [] = _
  rw [foldlM_singleton, addToOrder, if_pos rfl, each_eq_self hxs]
  cases xs.mapM buildOrderItem <;> rfl

/-- **What orders the rows** is put into the query. -/
lemma order_folds : Folds 9 orderClause (optional Grammar.orderByClause) buildClause addOrder := by
  intro ts h
  rw [orderClause]
  rcases keyword_cases .order ts with ⟨t, us, rfl, hk, hkeyword, hread⟩ | ⟨-, hkeyword, hread⟩
  · have hstalled : Stalled 9 (t :: us) := .of_keyword hk rfl
    rw [hread]
    simp only [Option.bind_eq_bind]
    rcases keyword_cases .byWord us with ⟨u, vs, rfl, -, hby, hread'⟩ | ⟨-, hby, hread'⟩
    · simp only [hread', Option.bind_some]
      rcases commaList_pairs orderItem_pairs (by decide) h.tail.tail with
        ⟨xs, rest, hlist, hrules, hitems⟩ | ⟨hitems, hlist⟩
      · have hlist' : Grammar.orderItems vs
            = some ([⟨.orderItems, Piece.covered vs rest, xs⟩], rest) :=
          rule_of_eq_some hlist
        have hseq : seq [Grammar.keyword .order, Grammar.keyword .byWord,
            Grammar.orderItems] (t :: u :: vs)
            = some ([⟨.keyword .order, t.text, []⟩, ⟨.keyword .byWord, u.text, []⟩,
              ⟨.orderItems, Piece.covered vs rest, xs⟩], rest) := by
          rw [seq_of_eq_some hkeyword, seq_of_eq_some hby, seq_singleton, hlist']
          rfl
        refine .inl ⟨_, rest, _, optional_of_eq_some (rule_of_eq_some hseq), by rw [hitems]; rfl,
          fun query => ?_⟩
        rw [foldlM_singleton, buildClause]
        dsimp only
        rw [buildOrder_eq hrules]
        cases xs.mapM buildOrderItem <;> rfl
      · have hclause : Grammar.orderByClause.Halts 4 (t :: u :: vs) :=
          Halts.rule (halts_seq_of_eq_some hkeyword (halts_seq_of_eq_some hby
            ((hlist.rule .orderItems).seq bars_nothing))) _
        exact .inr ⟨by rw [hitems]; rfl, (hclause.mono (by omega)).optional hstalled⟩
    · have hnone : Grammar.orderByClause (t :: us) = none := rule_eq_none_iff.2 <| by
        rw [seq_of_eq_some hkeyword, seq_of_eq_none hby]
        rfl
      exact .inr ⟨by rw [hread']; rfl, (halts_of_eq_none hnone).optional hstalled⟩
  · rw [hread]
    refine .inl ⟨[], ts, .ok none, optional_of_eq_none ?_, rfl, fun query => rfl⟩
    exact rule_eq_none_iff.2 (seq_of_eq_none hkeyword _)

/-- A count is built as it is read. -/
lemma buildCount_eq {negative : Bool} {digits text : List Char} {xs : List Pair}
    (hxs : ∀ x ∈ xs, x.rule ≠ .integer) (h : (Lexeme.integer negative digits).Spells text)
    (clause : String) (r : Rule) (t : List Char) :
    buildCount clause ⟨r, t, xs ++ [⟨.integer, text, []⟩]⟩ = readCount clause negative digits := by
  have hfirst : Pair.first? .integer ⟨r, t, xs ++ [⟨.integer, text, []⟩]⟩
      = some ⟨.integer, text, []⟩ := by
    have hnone : xs.find? (·.rule = .integer) = none :=
      List.find?_eq_none.2 fun x hx => by simpa using hxs x hx
    rw [Pair.first?, List.find?_append, hnone]
    rfl
  rw [buildCount, hfirst, readCount]
  dsimp only
  rw [buildInteger_of_spells h]
  rfl

/-- **Counts of rows** to skip and to return at most. -/
lemma count_folds {k : Keyword} {clause : String} {r : Rule} {put : Query → Option Nat → Query}
    (hrank : k.rank?.any (· < n)) (hnone : ∀ query, put query none = query)
    (hbuild : ∀ query text inner, buildClause query ⟨r, text, inner⟩
      = (buildCount clause ⟨r, text, inner⟩).map fun count => put query (some count)) :
    Folds n (countClause k clause) (optional (rule r (seq [Grammar.keyword k, Grammar.integer])))
      buildClause put := by
  intro ts h
  rcases keyword_cases k ts with ⟨t, us, rfl, hk, hkeyword, hread⟩ | ⟨-, hkeyword, hread⟩
  · rw [countClause, hread]
    have hstalled : Stalled n (t :: us) := .of_keyword hk hrank
    have hfail : Grammar.integer us = none →
        (optional (rule r (seq [Grammar.keyword k, Grammar.integer]))).Halts n (t :: us) :=
          fun hnone => by
      refine Halts.optional (halts_of_eq_none (rule_eq_none_iff.2 ?_)) hstalled
      rw [seq_of_eq_some hkeyword, seq_singleton, hnone]
      rfl
    cases us with
    | nil => exact .inr ⟨rfl, hfail rfl⟩
    | cons u us =>
        cases hu : u.lexeme with
        | integer negative digits =>
            have hspells := h.spells u (List.mem_cons_of_mem t List.mem_cons_self)
            rw [hu] at hspells
            have hseq : seq [Grammar.keyword k, Grammar.integer] (t :: u :: us)
                = some ([⟨.keyword k, t.text, []⟩] ++ [⟨.integer, u.text, []⟩], us) := by
              rw [seq_of_eq_some hkeyword, seq_singleton, Grammar.integer, leaf_cons, hu]
              rfl
            refine .inl ⟨_, us, _, optional_of_eq_some (rule_of_eq_some hseq),
              by rw [tokensOf_cons hu], fun query => ?_⟩
            rw [foldlM_singleton, hbuild, buildCount_eq (by simp) hspells, map_map_read]
        | _ =>
            refine .inr ⟨by rw [tokensOf_cons hu], hfail ?_⟩
            rw [Grammar.integer, leaf_cons, hu]
            rfl
  · rw [countClause, hread]
    refine .inl ⟨[], ts, .ok none, optional_of_eq_none ?_, rfl, fun query => ?_⟩
    · exact rule_eq_none_iff.2 (seq_of_eq_none hkeyword _)
    · exact congrArg Except.ok (hnone query).symm

/-! ### Queries -/

/-- Matches and writing clauses, of which either may be left out. -/
lemma optional_clauses {q : Part} (hp : Consumes p) (hq : Consumes q) (ts : List Piece) :
    optional (choice [seq [seq [p, many p], many q], seq [q, many q]]) ts = seq [many p,
      many q] ts := by
  cases hpts : p ts with
  | some a =>
      have hmany : seq [p, many p] ts = many p ts := by
        rw [many_of_eq_some hp hpts, seq_of_eq_some hpts, seq_singleton]
      obtain ⟨b, hb⟩ := exists_many p ts
      obtain ⟨c, hc⟩ := exists_many q b.2
      have hfirst : seq [many p, many q] ts = some (b.1 ++ c.1, c.2) := by
        rw [seq_of_eq_some hb, seq_singleton, hc]
        rfl
      have hsecond : seq [seq [p, many p], many q] ts = some (b.1 ++ c.1, c.2) := by
        rw [seq_of_eq_some (hmany.trans hb), seq_singleton, hc]
        rfl
      rw [hfirst]
      exact optional_of_eq_some (choice_of_eq_some hsecond _)
  | none =>
      have hfirst : seq [seq [p, many p], many q] ts = none :=
        seq_of_eq_none (seq_of_eq_none hpts _) _
      rw [seq_many_of_eq_none hp hpts, seq_singleton, optional_eq, choice_of_eq_none hfirst]
      cases hqts : q ts with
      | some a =>
          obtain ⟨b, hb⟩ := exists_many q a.2
          have hmany : many q ts = some (a.1 ++ b.1, b.2) := by
            rw [many_of_eq_some hq hqts, hb]
            rfl
          have hsecond : seq [q, many q] ts = some (a.1 ++ b.1, b.2) := by
            rw [seq_of_eq_some hqts, seq_singleton, hb]
            rfl
          rw [hmany, choice_of_eq_some hsecond, Option.getD_some]
      | none =>
          rw [many_of_eq_none hq hqts, choice_of_eq_none (seq_of_eq_none hqts _), choice_nil,
            Option.getD_none]

/-- Two parts at the front of a row. -/
lemma seq_of_seq {q q' : Part} (h : p ts = seq [q, q'] ts) (ps : List Part) :
    seq (p :: ps) ts = seq (q :: q' :: ps) ts := by
  rw [seq_cons, h, seq_cons q, seq_cons q]
  cases q ts with
  | none => rfl
  | some a =>
      simp only [Option.bind_some]
      rw [seq_singleton, seq_cons q']
      cases q' a.2 with
      | none => rfl
      | some b =>
          simp only [Option.bind_some, Option.map_some, Option.map_map, Function.comp_def,
            List.append_assoc]

/-- What the clauses of a query come to. -/
def clausesOf : Phrase (List (MatchClause × Option Expr) × List WriteClause × Option ReturnClause
    × Option (List OrderItem) × Option Nat × Option Nat) :=
  both (fun ts => matchParts (ts.length + 1) ts) (both (fun ts => writeClauses (ts.length + 1) ts)
    (both returnClause (both orderClause
      (both (countClause .skip "SKIP") (countClause .limit "LIMIT")))))

/-- The clauses put into a query. -/
def addClauses (query : Query) (a : List (MatchClause × Option Expr) × List WriteClause
    × Option ReturnClause × Option (List OrderItem) × Option Nat × Option Nat) : Query :=
  let matched := a.1.foldl (fun query part => addFilter (addMatch query part.1) part.2) query
  let written := a.2.1.foldl addWrite matched
  let ordered := addOrder (addReturn written a.2.2.1) a.2.2.2.1
  { ordered with
    skip := a.2.2.2.2.1.or ordered.skip
    limit := a.2.2.2.2.2.or ordered.limit }

/-- **All the clauses in a row** are put into the query one after the other. -/
lemma clauses_folds : Folds 11 clausesOf (seq [many Grammar.matchPart, many Grammar.writeClause,
    optional Grammar.returnClause, optional Grammar.orderByClause, optional Grammar.skipClause,
    optional Grammar.limitClause]) buildClause addClauses := by
  have hlimit : Blocks 10 Grammar.limitClause := Blocks.rule (Blocks.seq (blocks_keyword rfl) _) _
  have hskip : Blocks 9 Grammar.skipClause := Blocks.rule (Blocks.seq (blocks_keyword rfl) _) _
  have horder : Blocks 8 Grammar.orderByClause := Blocks.rule (Blocks.seq (blocks_keyword rfl) _) _
  have hreturn : Blocks 7 Grammar.returnClause := Blocks.rule (Blocks.seq (blocks_keyword rfl) _) _
  have hbars : ∀ {n} {q : Part} {ps : List Part}, Blocks n q → Bars n (seq ps) →
      Bars n (seq (optional q :: ps)) := fun hq hps => hq.bars.optional.seq hps
  have hlimit' : ∀ {n}, n ≤ 10 → Bars n (seq [optional Grammar.limitClause]) :=
    fun hn => hbars (hlimit.mono hn) bars_nothing
  have hskip' : ∀ {n}, n ≤ 9 →
      Bars n (seq [optional Grammar.skipClause, optional Grammar.limitClause]) :=
    fun hn => hbars (hskip.mono hn) (hlimit' (by omega))
  have horder' : ∀ {n}, n ≤ 8 → Bars n (seq [optional Grammar.orderByClause,
      optional Grammar.skipClause, optional Grammar.limitClause]) :=
    fun hn => hbars (horder.mono hn) (hskip' (by omega))
  have hreturn' : ∀ {n}, n ≤ 7 →
      Bars n (seq [optional Grammar.returnClause, optional Grammar.orderByClause,
      optional Grammar.skipClause, optional Grammar.limitClause]) :=
    fun hn => hbars (hreturn.mono hn) (horder' (by omega))
  have hwrite : Bars 6 (seq [many Grammar.writeClause, optional Grammar.returnClause,
      optional Grammar.orderByClause, optional Grammar.skipClause, optional Grammar.limitClause]) :=
    blocks_writeClause.bars.many.seq (hreturn' (by decide))
  have hskips : Folds 10 (countClause .skip "SKIP") (optional Grammar.skipClause) buildClause
      fun query count => { query with skip := count.or query.skip } :=
    count_folds rfl (fun _ => rfl) fun query text inner => by
      rw [buildClause]
      cases buildCount "SKIP" ⟨.skipClause, text, inner⟩ <;> rfl
  have hlimits : Folds 11 (countClause .limit "LIMIT") (optional Grammar.limitClause) buildClause
      fun query count => { query with limit := count.or query.limit } :=
    count_folds rfl (fun _ => rfl) fun query text inner => by
      rw [buildClause]
      cases buildCount "LIMIT" ⟨.limitClause, text, inner⟩ <;> rfl
  exact matches_folds.andThen (writes_folds.andThen (return_folds.andThen (order_folds.andThen
    (hskips.andThen hlimits.singleton (hlimit' (by decide)) (by decide))
    (hskip' (by decide)) (by decide)) (horder' (by decide)) (by decide)) (hreturn' (by decide))
    (by decide)) hwrite (by decide)

/-- Matches, put in one by one, stand in their order, and their filters are joined. -/
lemma foldl_matches (query : Query) (parts : List (MatchClause × Option Expr)) :
    parts.foldl (fun query part => addFilter (addMatch query part.1) part.2) query
      = { query with
        matched := query.matched ++ parts.map Prod.fst
        filter := joinFilters (query.filter :: parts.map Prod.snd) } := by
  induction parts generalizing query with
  | nil =>
      obtain ⟨matched, filter, returned, order, skip, limit, writes⟩ := query
      cases filter <;> simp [joinFilters]
  | cons part parts ih =>
      rw [List.foldl_cons, ih]
      obtain ⟨matched, filter, returned, order, skip, limit, writes⟩ := query
      simp [addFilter, addMatch, joinFilters]

lemma foldl_writes (query : Query) (writes : List WriteClause) :
    writes.foldl addWrite query = { query with writes := query.writes ++ writes } := by
  induction writes generalizing query with
  | nil => simp
  | cons w ws ih => simp [ih, addWrite]

/-- The clauses of a query, put into one that is empty. -/
lemma addClauses_empty (parts : List (MatchClause × Option Expr)) (writes : List WriteClause)
    (returned : Option ReturnClause) (order : Option (List OrderItem)) (skip limit : Option Nat) :
    addClauses {} (parts, writes, returned, order, skip, limit)
      = { matched := parts.map Prod.fst, filter := joinFilters (parts.map Prod.snd),
          writes, returned, order, skip, limit } := by
  simp only [addClauses, foldl_matches, foldl_writes, addOrder, addReturn, Option.or_none,
    List.nil_append]
  rfl

/-- A statement is what its clauses make of a query without anything. -/
lemma statement_eq (ts : List Token) :
    statement ts = (clausesOf ts).map fun a => (a.1.map (addClauses {}), a.2) := by
  simp only [statement, clausesOf, both, Option.bind_eq_bind, Option.map_bind, Function.comp_def,
    Option.map_map]
  refine Option.bind_congr fun parts _ => Option.bind_congr fun writes _ =>
    Option.bind_congr fun returned _ => Option.bind_congr fun order _ =>
    Option.bind_congr fun skip _ => ?_
  cases countClause .limit "LIMIT" skip.2 with
  | none => rfl
  | some limit =>
      refine congrArg (fun r => some (r, limit.2)) ?_
      obtain ⟨parts, -⟩ := parts
      obtain ⟨writes, -⟩ := writes
      obtain ⟨returned, -⟩ := returned
      obtain ⟨order, -⟩ := order
      obtain ⟨skip, -⟩ := skip
      obtain ⟨limit, -⟩ := limit
      cases parts with
      | error f => rfl
      | ok parts => cases writes with
        | error f => rfl
        | ok writes => cases returned with
          | error f => rfl
          | ok returned => cases order with
            | error f => rfl
            | ok order => cases skip with
              | error f => rfl
              | ok skip => cases limit with
                | error f => rfl
                | ok limit =>
                    exact congrArg Except.ok
                      (addClauses_empty parts writes returned order skip limit).symm

/-- **The clauses of a query** are built as they are read. -/
theorem statement_pairs :
    PairsOne 11 statement Grammar.statement .statement (buildStatement {}) := by
  intro ts h
  have hclauses := optional_clauses consumes_matchPart consumes_writeClause ts
  have hseq := seq_of_seq hclauses [optional Grammar.returnClause, optional Grammar.orderByClause,
    optional Grammar.skipClause, optional Grammar.limitClause]
  rw [statement_eq]
  rcases clauses_folds ts h with ⟨xs, rest, r, hpart, hread, hfold⟩ | ⟨hread, hpart⟩
  · refine .inl ⟨_, rest, rule_of_eq_some (hseq.trans hpart), rfl, ?_⟩
    rw [hread, buildStatement, hfold]
    rfl
  · refine .inr ⟨by rw [hread]; rfl, Halts.rule (fun xs rest heq => ?_) _⟩
    exact hpart xs rest (hseq.symm.trans heq)

/-- The query of a tree is that of its statement. -/
lemma buildStatements_eq {x : Pair} (hx : x.rule = .statement) (text : List Char) :
    Query.ofTree [⟨.query, text, [x, ⟨.endOfInput, [], []⟩]⟩] = buildStatement {} x := by
  have htake : ([x, ⟨.endOfInput, [], []⟩].takeWhile fun q => q.rule ≠ .endOfInput) = [x] := by
    simp [hx]
  change [(⟨.query, text, [x, ⟨.endOfInput, [], []⟩]⟩ : Pair)].foldlM buildStatements {} = _
  rw [foldlM_singleton, buildStatements, htake, foldlM_singleton, if_pos hx]

/-- A text that the grammar accepts is read to its end, and no other. -/
theorem query_pairs (h : IsCut ts) :
    (∃ tree rest, Grammar.query ts = some (tree, rest)
        ∧ queryOfTokens? (tokensOf ts) = some (Query.ofTree tree))
      ∨ queryOfTokens? (tokensOf ts) = none ∧ Grammar.query ts = none := by
  have hend : ∀ us : List Piece, Grammar.endOfInput us
      = if us.isEmpty then some ([⟨.endOfInput, [], []⟩], us) else none := fun us => rfl
  rw [queryOfTokens?]
  rcases statement_pairs h with ⟨x, us, hpart, hrule, hread⟩ | ⟨hread, hpart⟩
  · obtain ⟨vs, b, hsemicolon, hread'⟩ : ∃ vs b,
        optional (Grammar.sign .semicolon) us = some ([], vs)
        ∧ optionalMark .semicolon (tokensOf us) = (b, tokensOf vs) := by
      rcases optionalSign_cases .semicolon us with ⟨t, vs, -, -, hpart, hread⟩ | ⟨-, hpart, hread⟩
      · exact ⟨vs, true, hpart, hread⟩
      · exact ⟨us, false, hpart, hread⟩
    simp only [hread, Option.bind_eq_bind, Option.bind_some, hread']
    have hseq : seq [Grammar.statement, optional (Grammar.sign .semicolon), Grammar.endOfInput] ts
        = (Grammar.endOfInput vs).map fun a => (x :: a.1, a.2) := by
      rw [seq_of_eq_some hpart, seq_of_eq_some hsemicolon, seq_singleton, Option.map_map]
      rfl
    cases vs with
    | nil =>
        refine .inl ⟨_, [], rule_of_eq_some (hseq.trans rfl), ?_⟩
        rw [buildStatements_eq hrule]
        rfl
    | cons t vs =>
        refine .inr ⟨rfl, rule_eq_none_iff.2 ?_⟩
        rw [hseq, hend]
        rfl
  · have hsemicolon : Blocks 11 (Grammar.sign .semicolon) := blocks_sign rfl
    have hlast : Blocks 11 (seq [Grammar.endOfInput]) := by
      rintro us ⟨t, ht, -⟩
      cases us with
      | nil => cases ht
      | cons t us => rfl
    refine .inr ⟨by rw [hread]; rfl, rule_eq_none_iff.2 ?_⟩
    exact hpart.seq_eq_none (hsemicolon.seq_optional hlast)

end Cypher

open Cypher

/-- **The query of a text is that of its tree.** A text without a tree is rejected; every other text
is the query that is built of its tree, or has the fault that is found in building it. -/
theorem Query.ofText_eq_ofTree (text : String) :
    Query.ofText text = match treeOf? text with
      | none => .error .rejected
      | some tree => (Query.ofTree tree).mapError .fault := by
  rw [Query.ofText, treeOf?, ← Piece.map_ofText?]
  cases hpieces : Piece.ofText? text.toList with
  | none => rfl
  | some ts =>
      rw [Option.map_some, Option.bind_some, Option.bind_some]
      rcases query_pairs (isCut_of_ofText? hpieces) with ⟨tree, rest, hpart, hread⟩ | ⟨hread, hpart⟩
      · rw [hread, hpart]
        change _ = (Query.ofTree tree).mapError ParseError.fault
        cases Query.ofTree tree <;> rfl
      · rw [hread, hpart]
        rfl

end CodeGraph
