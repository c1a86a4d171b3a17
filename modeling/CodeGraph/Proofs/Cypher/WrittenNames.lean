import CodeGraph.Proofs.Acceptance
import CodeGraph.Proofs.Cypher.RenderedTokens
import CodeGraph.Proofs.Cypher.Respacing

/-!
The variables of queries that were read.

A variable of a query is a word of its text, and not one that is a keyword. So no variable that was
written has a space, as those have that are made up for nodes without one, and the positions of a
chain share a variable only where the same one was written. Lists between commas have an entry at
least, so nothing is refused for being empty.

* `Query.names`, `Query.IsFilled`: all variables of a query, and that none of its lists is empty.
* `Named`: tokens whose variables are identifiers, as those of a text are (`named_of_reads`).
* `Phrase.Yields`: what a reader makes of such tokens; `expression_yields`, `path_yields`, …: the
  readers.
* `Chain.FollowsNames`: the positions of a chain share variables as those of a path were written.
* `Query.ofText_names`: what holds of every query that was read.
-/

namespace CodeGraph

/-! ### The variables of a query -/

/-- All variables of a path. -/
def PathPattern.names (p : PathPattern) : List String := p.nodeVariables ++ p.edgeVariables

/-- The variables of a result, and its heading. -/
def ReturnItem.names (item : ReturnItem) : List String := item.value.vars ++ item.heading.toList

/-- The variable that is assigned to, and those of what is assigned. -/
def SetItem.names (item : SetItem) : List String := item.name :: item.value.vars

namespace WriteClause

def names : WriteClause → List String
  | create paths | merge paths => paths.flatMap PathPattern.names
  | delete names _ => names
  | set items => items.flatMap SetItem.names

/-- A writing clause writes something. -/
def IsFilled : WriteClause → Prop
  | create paths | merge paths => paths ≠ []
  | delete names _ => names ≠ []
  | set items => items ≠ []

end WriteClause

namespace Query

/-- All variables of a query: those of its matches, filters and writing clauses, of what it returns
and of what orders it. -/
def names (q : Query) : List String :=
  q.paths.flatMap PathPattern.names
    ++ (q.filter.toList.flatMap Expr.vars
      ++ (q.writes.flatMap WriteClause.names
        ++ (q.items.flatMap ReturnItem.names
          ++ q.order.toList.flatten.flatMap (fun item => item.value.vars))))

/-- Every clause of a query has an entry at least. -/
structure IsFilled (q : Query) : Prop where
  matched : ∀ clause ∈ q.matched, clause.paths ≠ []
  writes : ∀ clause ∈ q.writes, clause.IsFilled
  returned : ∀ clause ∈ q.returned, clause.items ≠ []
  order : ∀ items ∈ q.order, items ≠ []

end Query

namespace Cypher

variable {α β : Type} {ts us : List Token}

/-! ### Meanings without a fault -/

lemma map_eq_ok {ε : Type} {r : Except ε α} {f : α → β} {b : β} :
    r.map f = .ok b ↔ ∃ a, r = .ok a ∧ f a = b := by
  cases r <;> simp [Except.map]

/-- A list without a fault has none in its parts. -/
lemma cons_eq_ok {r : Read α} {rs : Read (List α)} {as : List α}
    (h : (do pure ((← r) :: (← rs))) = .ok as) :
    ∃ a as', r = .ok a ∧ rs = .ok as' ∧ as = a :: as' := by
  obtain ⟨a, hr, h⟩ := bind_eq_ok.1 h
  obtain ⟨as', hrs, h⟩ := bind_eq_ok.1 h
  exact ⟨a, as', hr, hrs, (Except.ok.inj h).symm⟩

/-- Operands that are joined have a meaning each, and the operator has no fault. -/
lemma joinRead_eq_ok {op : WrittenOp} {l r : Read Expr} {e : Expr} (h : joinRead op l r = .ok e) :
    ∃ a b, l = .ok a ∧ r = .ok b ∧ op.fault = none ∧ e = .binary op.op a b := by
  obtain ⟨a, hl, h⟩ := bind_eq_ok.1 h
  obtain ⟨b, hr, h⟩ := bind_eq_ok.1 h
  cases hf : op.fault with
  | none =>
      rw [hf] at h
      exact ⟨a, b, hl, hr, rfl, (Except.ok.inj h).symm⟩
  | some f =>
      rw [hf] at h
      cases h

/-! ### Tokens that hold variables -/

/-- What can be a variable among some tokens is an identifier. -/
def Named (ts : List Token) : Prop := ∀ t ∈ ts, ∀ name, t.lexeme.name? = some name → isVariable name

/-- What is left of named tokens is named. -/
lemma Takes.named {o : Option Fault} (h : Takes ts us o) (hts : Named ts) : Named us := by
  obtain ⟨c, rfl, -⟩ := h
  exact fun t ht => hts t (List.mem_append_right c ht)

lemma TakesOpenly.named {o : Option Fault} (h : TakesOpenly ts us o) (hts : Named ts) : Named us :=
  h.takes.named hts

/-- **The tokens of a text** hold variables only. -/
lemma named_of_reads {cs r : List Char} (h : Reads cs ts r) : Named ts := by
  induction h with
  | done => exact List.forall_mem_nil _
  | @step cs gap rest r out l ts hgap hlexeme _ ih =>
      refine List.forall_mem_cons.2 ⟨fun name hname => ?_, ih⟩
      cases l with
      | word text =>
          rw [Lexeme.name?] at hname
          split_ifs at hname with hnone
          obtain rfl := Option.some.inj hname
          exact Bool.and_eq_true_iff.2 ⟨isIdentifier_of_lexeme? hlexeme, hnone⟩
      | _ => cases hname

/-- A variable that is read is one that may be written. -/
lemma name_named {p : String × List Token} (h : name ts = some p) (hts : Named ts) :
    isVariable p.1 := by
  obtain ⟨t, rfl, ht⟩ := name_eq_some_iff.1 h
  exact hts t List.mem_cons_self _ ht

/-- The same where it may be left out. -/
lemma optionalName_named (hts : Named ts) : ∀ name ∈ (optionalName ts).1, isVariable name := by
  rw [optionalName]
  split
  · rename_i hname
    rintro _ ⟨⟩
    exact name_named hname hts
  · exact fun x hx => absurd hx (Option.not_mem_none x)

/-! ### What readers make of them -/

lemma read_inj {a b : α} (h : some ((.ok a : Read α), ts) = some (.ok b, us)) : a = b := by
  cases h
  rfl

/-- What a phrase means without a fault is good, if its tokens hold variables only. -/
def Phrase.Yields (item : Phrase α) (good : α → Prop) : Prop :=
  ∀ ⦃ts us a⦄, item ts = some (.ok a, us) → Named ts → good a

/-- What is made of what a reader yields. -/
lemma Phrase.Yields.map {item : Phrase α} {good : α → Prop} (hitem : item.Yields good)
    {f : α → β} {b : β}
    (h : (item ts).map (fun p => (p.1.map f, p.2)) = some (.ok b, us)) (hts : Named ts) :
    ∃ a, good a ∧ f a = b := by
  obtain ⟨⟨r, vs⟩, hr, heq⟩ := Option.map_eq_some_iff.1 h
  obtain ⟨hread, rfl⟩ := Prod.mk.inj heq
  obtain ⟨a, rfl, rfl⟩ := map_eq_ok.1 hread
  exact ⟨a, hitem hr hts, rfl⟩

/-- A list between commas has an entry. -/
lemma Phrase.Yields.commaList {item : Phrase α} {good : α → Prop} (hitem : item.Yields good)
    (hfits : item.Fits)
    (fuel : Nat) : Phrase.Yields (commaList item fuel) (fun as => as ≠ [] ∧ ∀ a ∈ as, good a) := by
  induction fuel with
  | zero => exact fun _ _ _ h => nomatch h
  | succ fuel ih =>
      intro ts us xs h hts
      obtain ⟨⟨x, rest⟩, hx, h⟩ := Option.bind_eq_some_iff.1 h
      dsimp only at h
      split at h
      · rename_i rest' hcomma
        obtain ⟨⟨xs', rest''⟩, hxs, h⟩ := Option.bind_eq_some_iff.1 h
        obtain ⟨hread, rfl⟩ := Prod.mk.inj (Option.some.inj h)
        obtain ⟨a, as, rfl, rfl, rfl⟩ := cons_eq_ok hread
        have hrest : Named rest' := (mark_takes hcomma (by decide)).named ((hfits hx).named hts)
        exact ⟨List.cons_ne_nil _ _, List.forall_mem_cons.2 ⟨hitem hx hts, (ih hxs hrest).2⟩⟩
      · obtain ⟨hread, rfl⟩ := Prod.mk.inj (Option.some.inj h)
        obtain ⟨a, rfl, rfl⟩ := map_eq_ok.1 hread
        exact ⟨List.cons_ne_nil _ _, List.forall_mem_singleton.2 (hitem hx hts)⟩

/-! ### Expressions -/

/-- The variables of an expression are identifiers. -/
def WellNamed (e : Expr) : Prop := ∀ name ∈ e.vars, isVariable name

/-- The names of an expression are those of its operand. -/
lemma wellNamed_unary {op : UnaryOp} {e : Expr} (h : WellNamed e) : WellNamed (.unary op e) := h

/-- The names of an expression are those of its operands. -/
lemma wellNamed_binary {op : BinaryOp} {l r : Expr} (hl : WellNamed l) (hr : WellNamed r) :
    WellNamed (.binary op l r) := fun name hname =>
      (Expr.mem_vars_binary.1 hname).elim (hl name) (hr name)

/-- The names of a call are those of its arguments. -/
lemma wellNamed_call {function : String} {es : List Expr} (h : ∀ e ∈ es, WellNamed e) :
    WellNamed (.call function es) := by
  intro name hname
  obtain ⟨e, he, hname⟩ := Expr.mem_vars_call.1 hname
  exact h e he name hname

/-- An operand of one token names a variable at most. -/
lemma atom_yields : Phrase.Yields atom WellNamed := by
  intro ts us e h hts
  rw [atom] at h
  split at h
  · rename_i owner rest hname
    have howner : ∀ x ∈ [owner], isVariable x := List.forall_mem_singleton.2 (name_named hname hts)
    split at h
    · obtain rfl := read_inj h
      exact howner
    · obtain rfl := read_inj h
      exact howner
    · cases h
  · obtain ⟨q, -, heq⟩ := Option.map_eq_some_iff.1 h
    obtain ⟨v, -, rfl⟩ := map_eq_ok.1 (Prod.mk.inj heq).1
    exact List.forall_mem_nil _

/-- What the readers of expressions make of tokens with some fuel. -/
structure ExpressionsNamed (fuel : Nat) : Prop where
  operand (floor : Nat) : Phrase.Yields (expressionAt fuel floor) WellNamed
  continuation {floor : Nat} {left : Read Expr} {ts us : List Token} {e : Expr}
    (h : extendAt fuel floor left ts = some (.ok e, us)) (hts : Named ts) :
    ∃ l, left = .ok l ∧ (WellNamed l → WellNamed e)
  arguments : Phrase.Yields (argumentsAt fuel) (fun es => ∀ e ∈ es, WellNamed e)
  moreArguments : Phrase.Yields (moreArgumentsAt fuel) (fun es => ∀ e ∈ es, WellNamed e)

lemma expressionsNamed_zero : ExpressionsNamed 0 where
  operand _ _ _ _ h := nomatch h
  continuation h := nomatch h
  arguments _ _ _ h := nomatch h
  moreArguments _ _ _ h := nomatch h

/-- One more round of fuel, reader by reader. -/
lemma ExpressionsNamed.succ {fuel : Nat} (ih : ExpressionsNamed fuel) :
    ExpressionsNamed (fuel + 1) where
  operand floor ts us e h hts := by
    rw [expressionAt] at h
    split at h
    · rename_i rest hnot
      obtain ⟨⟨x, r⟩, hx, h⟩ := Option.bind_eq_some_iff.1 h
      have hrest := (keyword_takes hnot (by decide)).named hts
      obtain ⟨l, hl, himp⟩ := ih.continuation h (((expressionsFit fuel).operand _ hx).named hrest)
      obtain ⟨a, rfl, rfl⟩ := map_eq_ok.1 hl
      exact himp (wellNamed_unary (ih.operand _ hx hrest))
    · split at h
      · rename_i rest _ hparen
        obtain ⟨⟨x, r⟩, hx, h⟩ := Option.bind_eq_some_iff.1 h
        obtain ⟨r', hclose, h⟩ := Option.bind_eq_some_iff.1 h
        have hrest := (mark_takes hparen (by decide)).named hts
        have hr :=
          (mark_takes hclose (by decide)).named (((expressionsFit fuel).operand _ hx).named hrest)
        obtain ⟨l, rfl, himp⟩ := ih.continuation h hr
        exact himp (ih.operand _ hx hrest)
      · rename_i function rest _ hcallee
        obtain ⟨⟨x, r⟩, hx, h⟩ := Option.bind_eq_some_iff.1 h
        have hrest := (callee?_takes hcallee (TakesOpenly.refl rest).takes).named hts
        obtain ⟨l, hl, himp⟩ := ih.continuation h (((expressionsFit fuel).arguments hx).named hrest)
        obtain ⟨a, rfl, rfl⟩ := map_eq_ok.1 hl
        exact himp (wellNamed_call (ih.arguments hx hrest))
      · obtain ⟨⟨x, r⟩, hx, h⟩ := Option.bind_eq_some_iff.1 h
        obtain ⟨l, rfl, himp⟩ := ih.continuation h ((atom_takes hx).named hts)
        exact himp (atom_yields hx hts)
  continuation {floor left ts us e} h hts := by
    rw [extendAt] at h
    split at h
    · rename_i op rest hnull
      obtain ⟨l, hl, himp⟩ := ih.continuation h ((nullTest?_takes hnull).named hts)
      obtain ⟨a, rfl, rfl⟩ := map_eq_ok.1 hl
      exact ⟨a, rfl, fun ha => himp (wellNamed_unary ha)⟩
    · split at h
      · rename_i op rest hop
        split_ifs at h
        · obtain ⟨⟨x, r⟩, hx, h⟩ := Option.bind_eq_some_iff.1 h
          have hrest := (binaryOp?_takes hop (TakesOpenly.refl rest).takes).named hts
          obtain ⟨l, hl, himp⟩ :=
            ih.continuation h (((expressionsFit fuel).operand _ hx).named hrest)
          obtain ⟨a, b, rfl, rfl, hfault, rfl⟩ := joinRead_eq_ok hl
          exact ⟨a, rfl, fun ha => himp (wellNamed_binary ha (ih.operand _ hx hrest))⟩
        · obtain ⟨rfl, rfl⟩ := Prod.mk.inj (Option.some.inj h)
          exact ⟨e, rfl, id⟩
      · obtain ⟨rfl, rfl⟩ := Prod.mk.inj (Option.some.inj h)
        exact ⟨e, rfl, id⟩
  arguments ts us es h hts := by
    rw [argumentsAt] at h
    split at h
    · obtain rfl := read_inj h
      exact List.forall_mem_nil _
    · obtain ⟨⟨x, r⟩, hx, h⟩ := Option.bind_eq_some_iff.1 h
      obtain ⟨⟨xs, r'⟩, hxs, h⟩ := Option.bind_eq_some_iff.1 h
      obtain ⟨hread, rfl⟩ := Prod.mk.inj (Option.some.inj h)
      obtain ⟨a, as, rfl, rfl, rfl⟩ := cons_eq_ok hread
      have hr := ((expressionsFit fuel).operand _ hx).named hts
      exact List.forall_mem_cons.2 ⟨ih.operand _ hx hts, ih.moreArguments hxs hr⟩
  moreArguments ts us es h hts := by
    rw [moreArgumentsAt] at h
    split at h
    · obtain rfl := read_inj h
      exact List.forall_mem_nil _
    · obtain ⟨rest, hcomma, h⟩ := Option.bind_eq_some_iff.1 h
      obtain ⟨⟨x, r⟩, hx, h⟩ := Option.bind_eq_some_iff.1 h
      obtain ⟨⟨xs, r'⟩, hxs, h⟩ := Option.bind_eq_some_iff.1 h
      obtain ⟨hread, rfl⟩ := Prod.mk.inj (Option.some.inj h)
      obtain ⟨a, as, rfl, rfl, rfl⟩ := cons_eq_ok hread
      have hrest := (mark_takes hcomma (by decide)).named hts
      have hr := ((expressionsFit fuel).operand _ hx).named hrest
      exact List.forall_mem_cons.2 ⟨ih.operand _ hx hrest, ih.moreArguments hxs hr⟩

/-- Expressions yield variables only. -/
lemma expressionsNamed (fuel : Nat) : ExpressionsNamed fuel := by
  induction fuel with
  | zero => exact expressionsNamed_zero
  | succ fuel ih => exact ih.succ

lemma expression_yields : Phrase.Yields expression WellNamed :=
  fun _ _ _ h => (expressionsNamed _).operand 0 h

/-! ### Patterns -/

lemma node_yields : Phrase.Yields node (fun n => ∀ name ∈ n.name, isVariable name) := by
  intro ts us n h hts
  obtain ⟨vs, hopen, h⟩ := Option.bind_eq_some_iff.1 h
  obtain ⟨⟨ls, ws⟩, -, h⟩ := Option.bind_eq_some_iff.1 h
  obtain ⟨⟨ps, xs⟩, -, h⟩ := Option.bind_eq_some_iff.1 h
  obtain ⟨ys, -, h⟩ := Option.bind_eq_some_iff.1 h
  obtain ⟨properties, -, rfl⟩ := map_eq_ok.1 (Prod.mk.inj (Option.some.inj h)).1
  exact optionalName_named ((mark_takes hopen (by decide)).named hts)

lemma edgeDetail_yields (direction : PatternDirection) :
    Phrase.Yields (edgeDetail direction) (fun e => ∀ name ∈ e.name, isVariable name) := by
  intro ts us e h hts
  obtain ⟨vs, hopen, h⟩ := Option.bind_eq_some_iff.1 h
  obtain ⟨⟨gs, ws⟩, -, h⟩ := Option.bind_eq_some_iff.1 h
  obtain ⟨⟨ps, xs⟩, -, h⟩ := Option.bind_eq_some_iff.1 h
  obtain ⟨ys, -, h⟩ := Option.bind_eq_some_iff.1 h
  obtain ⟨length, -, hread⟩ := bind_eq_ok.1 (Prod.mk.inj (Option.some.inj h)).1
  obtain ⟨properties, -, hread⟩ := bind_eq_ok.1 hread
  obtain rfl := Except.ok.inj hread
  exact optionalName_named ((mark_takes hopen (by decide)).named hts)

/-- Edges yield variables only. -/
lemma edge_yields : Phrase.Yields edge (fun e => ∀ name ∈ e.name, isVariable name) := by
  intro ts us e h hts
  have hleft := (optionalMark_takes (m := .less) (by decide) ts).named hts
  obtain ⟨vs, hminus, h⟩ := Option.bind_eq_some_iff.1 h
  obtain ⟨⟨d, ws⟩, hdetail, h⟩ := Option.bind_eq_some_iff.1 h
  obtain ⟨xs, -, h⟩ := Option.bind_eq_some_iff.1 h
  obtain ⟨detail, rfl, rfl⟩ := map_eq_ok.1 (Prod.mk.inj (Option.some.inj h)).1
  rw [optionalDetail] at hdetail
  split_ifs at hdetail
  · have hname := edgeDetail_yields .both hdetail ((mark_takes hminus (by decide)).named hleft)
    exact hname
  · obtain rfl := read_inj hdetail
    exact fun x hx => absurd hx (Option.not_mem_none x)

/-- Segments yield variables only. -/
lemma segments_yields (fuel : Nat) : Phrase.Yields (segments fuel) (fun ss =>
    ∀ s ∈ ss, (∀ name ∈ s.edge.name, isVariable name) ∧ ∀ name ∈ s.node.name, isVariable name) := by
  induction fuel with
  | zero => exact fun _ _ _ h => nomatch h
  | succ fuel ih =>
      intro ts us ss h hts
      rw [segments] at h
      split_ifs at h
      · obtain ⟨⟨e, vs⟩, hedge, h⟩ := Option.bind_eq_some_iff.1 h
        obtain ⟨⟨n, ws⟩, hnode, h⟩ := Option.bind_eq_some_iff.1 h
        obtain ⟨⟨more, xs⟩, hmore, h⟩ := Option.bind_eq_some_iff.1 h
        obtain ⟨edge, he, hread⟩ := bind_eq_ok.1 (Prod.mk.inj (Option.some.inj h)).1
        obtain ⟨node, hn, hread⟩ := bind_eq_ok.1 hread
        obtain ⟨rest, hr, hread⟩ := bind_eq_ok.1 hread
        obtain rfl := Except.ok.inj hread
        subst he hn hr
        have hvs := (edge_takes hedge).named hts
        have hws := (node_takes hnode).named hvs
        exact List.forall_mem_cons.2 ⟨⟨edge_yields hedge hts, node_yields hnode hvs⟩, ih hmore hws⟩
      · obtain rfl := read_inj h
        exact List.forall_mem_nil _

/-- Paths yield variables only. -/
lemma path_yields : Phrase.Yields path (fun p => ∀ name ∈ p.names, isVariable name) := by
  intro ts us p h hts
  obtain ⟨⟨n, vs⟩, hnode, h⟩ := Option.bind_eq_some_iff.1 h
  obtain ⟨⟨more, ws⟩, hmore, h⟩ := Option.bind_eq_some_iff.1 h
  obtain ⟨start, hs, hread⟩ := bind_eq_ok.1 (Prod.mk.inj (Option.some.inj h)).1
  obtain ⟨ss, hss, hread⟩ := bind_eq_ok.1 hread
  obtain rfl := Except.ok.inj hread
  subst hs hss
  have hstart := node_yields hnode hts
  have hss := segments_yields _ hmore ((node_takes hnode).named hts)
  refine List.forall_mem_append.2 ⟨fun name hname => ?_, fun name hname => ?_⟩
  · obtain ⟨m, hm, hmname⟩ := List.mem_filterMap.1 hname
    rcases List.mem_cons.1 hm with rfl | hm
    · exact hstart name hmname
    · obtain ⟨s, hs, rfl⟩ := List.mem_map.1 hm
      exact (hss s hs).2 name hmname
  · obtain ⟨s, hs, hsname⟩ := List.mem_filterMap.1 hname
    exact (hss s hs).1 name hsname

/-- Some paths, all of whose variables are identifiers. -/
def PathsNamed (paths : List PathPattern) : Prop :=
  paths ≠ [] ∧ ∀ p ∈ paths, ∀ name ∈ p.names, isVariable name

lemma pattern_yields : Phrase.Yields pattern PathsNamed :=
  fun _ _ _ h => path_yields.commaList (fun _ _ _ hpath => (path_takes hpath).takes) _ h

/-! ### Clauses -/

lemma optionalFilter_yields :
    Phrase.Yields optionalFilter (fun filter => ∀ e ∈ filter, WellNamed e) := by
  intro ts us filter h hts
  rw [optionalFilter] at h
  split at h
  · rename_i rest hwhere
    obtain ⟨e, he, rfl⟩ := expression_yields.map h ((keyword_takes hwhere (by decide)).named hts)
    rintro _ ⟨⟩
    exact he
  · obtain rfl := read_inj h
    exact fun x hx => absurd hx (Option.not_mem_none x)

/-- A match of some paths and its filter, all of whose variables are identifiers. -/
def PartNamed (part : MatchClause × Option Expr) : Prop :=
  PathsNamed part.1.paths ∧ ∀ e ∈ part.2, WellNamed e

/-- A clause to match yields variables only, in its paths and in its filter. -/
lemma matchPart_yields : Phrase.Yields matchPart PartNamed := by
  intro ts us part h hts
  have hoptional := (optionalKeyword_takes (k := .optional) (by decide) ts).named hts
  obtain ⟨vs, hmatch, h⟩ := Option.bind_eq_some_iff.1 h
  obtain ⟨⟨ps, ws⟩, hpattern, h⟩ := Option.bind_eq_some_iff.1 h
  obtain ⟨⟨f, xs⟩, hfilter, h⟩ := Option.bind_eq_some_iff.1 h
  obtain ⟨paths, hp, hread⟩ := bind_eq_ok.1 (Prod.mk.inj (Option.some.inj h)).1
  obtain ⟨filter, hf, hread⟩ := bind_eq_ok.1 hread
  obtain rfl := Except.ok.inj hread
  subst hp hf
  have hvs := (keyword_takes hmatch (by decide)).named hoptional
  exact ⟨pattern_yields hpattern hvs,
    optionalFilter_yields hfilter ((pattern_fits hpattern).named hvs)⟩

/-- Clauses to match yield variables only. -/
lemma matchParts_yields (fuel : Nat) :
    Phrase.Yields (matchParts fuel) (fun parts => ∀ part ∈ parts, PartNamed part) := by
  induction fuel with
  | zero => exact fun _ _ _ h => nomatch h
  | succ fuel ih =>
      intro ts us parts h hts
      rw [matchParts] at h
      split_ifs at h
      · obtain ⟨⟨p, vs⟩, hpart, h⟩ := Option.bind_eq_some_iff.1 h
        obtain ⟨⟨more, ws⟩, hmore, h⟩ := Option.bind_eq_some_iff.1 h
        obtain ⟨a, as, rfl, rfl, rfl⟩ := cons_eq_ok (Prod.mk.inj (Option.some.inj h)).1
        have hvs := (matchPart_takes hpart).named hts
        exact List.forall_mem_cons.2 ⟨matchPart_yields hpart hts, ih hmore hvs⟩
      · obtain rfl := read_inj h
        exact List.forall_mem_nil _

/-- Joined filters have the variables of their parts. -/
lemma wellNamed_joinFilters {filters : List (Option Expr)}
    (h : ∀ filter ∈ filters, ∀ e ∈ filter, WellNamed e) :
    ∀ e ∈ joinFilters filters, WellNamed e := by
  refine List.foldlRecOn (motive := fun joined => ∀ e ∈ joined, WellNamed e) filters _
    (fun e he => absurd he (Option.not_mem_none e)) ?_
  intro joined hjoined filter hfilter e he
  cases joined with
  | none => exact h filter hfilter e he
  | some l =>
      cases filter with
      | none => exact hjoined e he
      | some r =>
          obtain rfl := Option.some.inj he
          exact wellNamed_binary (hjoined l rfl) (h _ hfilter r rfl)

/-- A setting yields variables only. -/
lemma setItem_yields :
    Phrase.Yields setItem (fun item => ∀ name ∈ item.names, isVariable name) := by
  intro ts us item h hts
  obtain ⟨⟨n, vs⟩, hname, h⟩ := Option.bind_eq_some_iff.1 h
  have hdotted := (dotted_takes vs).named ((name_takes hname).named hts)
  dsimp only at h
  split at h
  · rename_i key rest heq
    obtain ⟨ws, hequal, h⟩ := Option.bind_eq_some_iff.1 h
    obtain ⟨⟨x, xs⟩, hx, h⟩ := Option.bind_eq_some_iff.1 h
    obtain ⟨e, rfl, rfl⟩ := map_eq_ok.1 (Prod.mk.inj (Option.some.inj h)).1
    rw [heq] at hdotted
    have hvalue := expression_yields hx ((mark_takes hequal (by decide)).named hdotted)
    exact List.forall_mem_cons.2 ⟨name_named hname hts, hvalue⟩
  · cases h

lemma deletedName_yields : Phrase.Yields deletedName (fun name => isVariable name) := by
  intro ts us name h hts
  obtain ⟨p, hp, heq⟩ := Option.map_eq_some_iff.1 h
  obtain rfl := Except.ok.inj (Prod.mk.inj heq).1
  exact name_named hp hts

/-- A writing clause that writes something, all of whose variables are identifiers. -/
def ClauseNamed (clause : WriteClause) : Prop :=
  clause.IsFilled ∧ ∀ name ∈ clause.names, isVariable name

/-- Paths that are created or merged name what they name. -/
lemma PathsNamed.clauseNamed {paths : List PathPattern} (h : PathsNamed paths) :
    ClauseNamed (.create paths) ∧ ClauseNamed (.merge paths) := by
  have hnames : ∀ name ∈ paths.flatMap PathPattern.names, isVariable name := by
    intro name hname
    obtain ⟨p, hp, hname⟩ := List.mem_flatMap.1 hname
    exact h.2 p hp name hname
  exact ⟨⟨h.1, hnames⟩, ⟨h.1, hnames⟩⟩

lemma deletion_yields (detach : Bool) : Phrase.Yields (deletion detach) ClauseNamed := by
  intro ts us clause h hts
  obtain ⟨vs, hdelete, h⟩ := Option.bind_eq_some_iff.1 h
  obtain ⟨⟨ns, ws⟩, hnames, h⟩ := Option.bind_eq_some_iff.1 h
  obtain ⟨names, rfl, rfl⟩ := map_eq_ok.1 (Prod.mk.inj (Option.some.inj h)).1
  exact deletedName_yields.commaList deletedName_fits _ hnames
    ((keyword_takes hdelete (by decide)).named hts)

/-- A clause that writes yields variables only. -/
lemma writeClause?_yields {c : WriteClause} (h : writeClause? ts = some (some (.ok c, us)))
    (hts : Named ts) :
    ClauseNamed c := by
  rw [writeClause?.eq_def] at h
  split at h
  · cases h
  · rename_i t rest
    have hrest : Named rest := fun u hu => hts u (List.mem_cons_of_mem t hu)
    split at h
    · obtain ⟨paths, hpaths, rfl⟩ := pattern_yields.map (Option.some.inj h) hrest
      exact hpaths.clauseNamed.1
    · obtain ⟨paths, hpaths, rfl⟩ := pattern_yields.map (Option.some.inj h) hrest
      exact hpaths.clauseNamed.2
    · exact deletion_yields true (Option.some.inj h) hrest
    · exact deletion_yields false (Option.some.inj h) hts
    · obtain ⟨items, ⟨hne, hitems⟩, rfl⟩ :=
        (setItem_yields.commaList setItem_fits _).map (Option.some.inj h) hrest
      refine ⟨hne, fun name hname => ?_⟩
      obtain ⟨item, hitem, hname⟩ := List.mem_flatMap.1 hname
      exact hitems item hitem name hname
    · cases h

/-- Clauses that write yield variables only. -/
lemma writeClauses_yields (fuel : Nat) :
    Phrase.Yields (writeClauses fuel) (fun clauses => ∀ clause ∈ clauses, ClauseNamed clause) := by
  induction fuel with
  | zero => exact fun _ _ _ h => nomatch h
  | succ fuel ih =>
      intro ts us clauses h hts
      rw [writeClauses] at h
      split at h
      · rename_i clause hclause
        obtain ⟨⟨c, vs⟩, hc, h⟩ := Option.bind_eq_some_iff.1 h
        obtain ⟨⟨more, ws⟩, hmore, h⟩ := Option.bind_eq_some_iff.1 h
        obtain ⟨a, as, rfl, rfl, rfl⟩ := cons_eq_ok (Prod.mk.inj (Option.some.inj h)).1
        have hvs := (writeClause?_takes hclause hc).named hts
        exact List.forall_mem_cons.2 ⟨writeClause?_yields (hc ▸ hclause) hts, ih hmore hvs⟩
      · obtain rfl := read_inj h
        exact List.forall_mem_nil _

lemma returnItem_yields :
    Phrase.Yields returnItem (fun item => ∀ name ∈ item.names, isVariable name) := by
  intro ts us item h hts
  obtain ⟨⟨x, vs⟩, hx, h⟩ := Option.bind_eq_some_iff.1 h
  obtain ⟨⟨heading, ws⟩, hheading, h⟩ := Option.bind_eq_some_iff.1 h
  obtain ⟨e, rfl, rfl⟩ := map_eq_ok.1 (Prod.mk.inj (Option.some.inj h)).1
  refine List.forall_mem_append.2 ⟨expression_yields hx hts, fun name hname => ?_⟩
  have hvs := (expression_fits hx).named hts
  dsimp only at hheading hname
  rw [optionalHeading] at hheading
  split at hheading
  · rename_i rest has
    obtain ⟨p, hp, heq⟩ := Option.map_eq_some_iff.1 hheading
    obtain ⟨rfl, -⟩ := Prod.mk.inj heq
    obtain rfl := Option.some.inj (Option.mem_toList.1 hname)
    exact name_named hp ((keyword_takes has (by decide)).named hvs)
  · obtain ⟨rfl, -⟩ := Prod.mk.inj (Option.some.inj hheading)
    cases hname

/-- What is returned has an item at least, and yields variables only. -/
lemma returnClause_yields : Phrase.Yields returnClause (fun returned => ∀ clause ∈ returned,
    clause.items ≠ [] ∧ ∀ item ∈ clause.items, ∀ name ∈ item.names, isVariable name) := by
  intro ts us returned h hts
  rw [returnClause] at h
  split at h
  · rename_i rest hreturn
    have hrest := (keyword_takes hreturn (by decide)).named hts
    have hdistinct := (optionalKeyword_takes (k := .distinct) (by decide) rest).named hrest
    obtain ⟨⟨x, vs⟩, hx, h⟩ := Option.bind_eq_some_iff.1 h
    obtain ⟨items, rfl, rfl⟩ := map_eq_ok.1 (Prod.mk.inj (Option.some.inj h)).1
    rintro _ ⟨⟩
    exact returnItem_yields.commaList returnItem_fits _ hx hdistinct
  · obtain rfl := read_inj h
    exact fun x hx => absurd hx (Option.not_mem_none x)

lemma orderItem_yields : Phrase.Yields orderItem (fun item => WellNamed item.value) := by
  intro ts us item h hts
  obtain ⟨⟨x, vs⟩, hx, h⟩ := Option.bind_eq_some_iff.1 h
  obtain ⟨e, rfl, rfl⟩ := map_eq_ok.1 (Prod.mk.inj (Option.some.inj h)).1
  exact expression_yields hx hts

/-- An order has an item at least, and yields variables only. -/
lemma orderClause_yields : Phrase.Yields orderClause (fun order => ∀ items ∈ order,
    items ≠ [] ∧ ∀ item ∈ items, WellNamed item.value) := by
  intro ts us order h hts
  rw [orderClause] at h
  split at h
  · rename_i rest horder
    have hrest := (keyword_takes horder (by decide)).named hts
    obtain ⟨vs, hby, h⟩ := Option.bind_eq_some_iff.1 h
    obtain ⟨⟨x, ws⟩, hx, h⟩ := Option.bind_eq_some_iff.1 h
    obtain ⟨items, rfl, rfl⟩ := map_eq_ok.1 (Prod.mk.inj (Option.some.inj h)).1
    rintro _ ⟨⟩
    exact orderItem_yields.commaList orderItem_fits _ hx
      ((keyword_takes hby (by decide)).named hrest)
  · obtain rfl := read_inj h
    exact fun x hx => absurd hx (Option.not_mem_none x)

/-! ### Queries -/

/-- **Every query that is read** has an entry in each of its lists, and identifiers for variables.
-/
lemma statement_yields :
    Phrase.Yields statement (fun q => q.IsFilled ∧ ∀ name ∈ q.names, isVariable name) := by
  intro ts us q h hts
  obtain ⟨⟨parts, vs⟩, hparts, h⟩ := Option.bind_eq_some_iff.1 h
  obtain ⟨⟨writes, ws⟩, hwrites, h⟩ := Option.bind_eq_some_iff.1 h
  obtain ⟨⟨returned, xs⟩, hreturned, h⟩ := Option.bind_eq_some_iff.1 h
  obtain ⟨⟨order, ys⟩, horder, h⟩ := Option.bind_eq_some_iff.1 h
  obtain ⟨⟨skip, zs⟩, -, h⟩ := Option.bind_eq_some_iff.1 h
  obtain ⟨⟨limit, ts'⟩, -, h⟩ := Option.bind_eq_some_iff.1 h
  obtain ⟨ps, hp, hread⟩ := bind_eq_ok.1 (Prod.mk.inj (Option.some.inj h)).1
  obtain ⟨clauses, hw, hread⟩ := bind_eq_ok.1 hread
  obtain ⟨rs, hr, hread⟩ := bind_eq_ok.1 hread
  obtain ⟨os, ho, hread⟩ := bind_eq_ok.1 hread
  obtain ⟨_, -, hread⟩ := bind_eq_ok.1 hread
  obtain ⟨_, -, hread⟩ := bind_eq_ok.1 hread
  obtain rfl := Except.ok.inj hread
  subst hp hw hr ho
  have hvs := (matchParts_takes hparts).named hts
  have hws := (writeClauses_takes hwrites).named hvs
  have hps := matchParts_yields _ hparts hts
  have hclauses := writeClauses_yields _ hwrites hvs
  have hrs := returnClause_yields hreturned hws
  have hos := orderClause_yields horder ((returnClause_takes hreturned).named hws)
  have hmatched : ∀ clause ∈ ps.map Prod.fst, PathsNamed clause.paths :=
    List.forall_mem_map.2 fun part hpart => (hps part hpart).1
  have hfilter : ∀ e ∈ joinFilters (ps.map Prod.snd), WellNamed e :=
    wellNamed_joinFilters (List.forall_mem_map.2 fun part hpart => (hps part hpart).2)
  refine ⟨⟨fun clause hmem => (hmatched clause hmem).1, fun clause hmem => (hclauses clause hmem).1,
    fun clause hmem => (hrs clause hmem).1, fun items hmem => (hos items hmem).1⟩, ?_⟩
  simp only [Query.names, Query.paths, Query.items, List.forall_mem_append, List.forall_mem_flatMap,
    List.mem_flatten, Option.mem_toList]
  refine ⟨fun clause hmem => (hmatched clause hmem).2, hfilter,
    fun clause hmem => (hclauses clause hmem).2,
    fun clause hmem => (hrs clause hmem).2, ?_⟩
  rintro item ⟨items, hmem, hitem⟩
  exact (hos items hmem).2 item hitem

end Cypher

open Cypher

/-- A query that is read is filled, and its names may be written. -/
lemma Query.yields_of_ofText {text : String} {q : Query} (h : Query.ofText text = .ok q) :
    q.IsFilled ∧ ∀ name ∈ q.names, isVariable name := by
  rw [← String.ofList_toList (s := text)] at h
  obtain ⟨ts, htokens, hquery⟩ := Query.exists_tokens_of_ofText h
  rw [← List.append_nil ts] at htokens
  obtain ⟨r, hreads, -⟩ := exists_reads htokens
  obtain ⟨⟨read, us⟩, hstatement, hquery⟩ := Option.bind_eq_some_iff.1 hquery
  dsimp only at hquery
  split_ifs at hquery
  obtain rfl := Option.some.inj hquery
  exact statement_yields hstatement (named_of_reads hreads)

/-! ### What becomes of the variables -/

lemma space_notMem_of_isVariable {name : String} (h : isVariable name) : ' ' ∉ name.toList := by
  have hidentifier := isIdentifier_of_isVariable h
  rw [isIdentifier] at hidentifier
  split at hidentifier
  · rename_i c rest hname
    obtain ⟨hc, hrest⟩ := Bool.and_eq_true_iff.1 hidentifier
    rw [hname, List.mem_cons, not_or]
    refine ⟨?_, fun hspace => absurd (List.all_eq_true.1 hrest ' ' hspace) (by decide)⟩
    rintro rfl
    exact absurd hc (by decide)
  · cases hidentifier

/-- The positions of a chain share variables as the nodes of a path were given them: two of them
share one exactly if it was written at both, and a position that was given none shares its own with
no other. -/
structure Chain.FollowsNames (c : Chain) (p : PathPattern) : Prop where
  length : c.nodes.length = p.nodes.length
  shares : ∀ (i j : Nat) (m n : NodePattern) (x y : ChainNode), i ≠ j → p.nodes[i]? = some m →
    p.nodes[j]? = some n →
    c.nodes[i]? = some x → c.nodes[j]? = some y →
      (x.name = y.name ↔ ∃ name, m.name = some name ∧ n.name = some name)
  apart : ∀ (i j : Nat) (x y : ChainNode), i ≠ j → c.nodes[i]? = some x → c.nodes[j]? = some y →
    x.anonymous → x.name ≠ y.name

/-- A chain follows the names of a path of which none has a space. -/
lemma PathPattern.followsNames {p : PathPattern} (h : ∀ name ∈ p.nodeVariables, ' ' ∉ name.toList) :
    p.chain.FollowsNames p := by
  have hspace : ∀ {i : Nat} {n : NodePattern}, p.nodes[i]? = some n →
      ∀ name ∈ n.name, ' ' ∉ name.toList :=
    fun hn name hname => h name (mem_nodeVariables.2 ⟨_, _, hn, hname⟩)
  have hshares : ∀ {i j : Nat} {m n : NodePattern}, i ≠ j → p.nodes[i]? = some m →
      p.nodes[j]? = some n →
      ((m.toChainNode i).name = (n.toChainNode j).name ↔ ∃ name,
        m.name = some name ∧ n.name = some name) := by
    intro i j m n hij hm hn
    constructor
    · intro heq
      exact (NodePattern.variableAt_eq (hspace hm) (hspace hn) heq).resolve_left hij
    · rintro ⟨name, hmname, hnname⟩
      rw [m.name_toChainNode hmname, n.name_toChainNode hnname]
  refine ⟨p.length_nodes_chain, fun i j m n x y hij hm hn hx hy => ?_,
    fun i j x y hij hx hy hanonymous heq => ?_⟩
  · obtain rfl := Option.some.inj ((getElem?_chain_of_eq_some hm).symm.trans hx)
    obtain rfl := Option.some.inj ((getElem?_chain_of_eq_some hn).symm.trans hy)
    exact hshares hij hm hn
  · rw [getElem?_chain] at hx hy
    obtain ⟨m, hm, rfl⟩ := Option.map_eq_some_iff.1 hx
    obtain ⟨n, hn, rfl⟩ := Option.map_eq_some_iff.1 hy
    obtain ⟨name, hmname, -⟩ := (hshares hij hm hn).1 heq
    rw [NodePattern.toChainNode, hmname] at hanonymous
    cases hanonymous

namespace Query

variable {q : Query}

/-- A filled query is not refused for an empty pattern. -/
lemma IsFilled.emptyPattern_notMem (h : q.IsFilled) : .planning .emptyPattern ∉ q.faults := by
  rw [planning_mem_faults]
  rintro (hmatch | hedge | hreturn)
  · have hfaults : ∀ clause ∈ q.matched, .planning .emptyPattern ∉ clause.faults := by
      intro clause hclause
      simp [MatchClause.faults, h.matched clause hclause]
    obtain ⟨clause, hclause, hfault⟩ : ∃ clause ∈ q.matched,
        .planning .emptyPattern ∈ clause.faults := by
      simpa [matchFaults] using hmatch
    exact hfaults clause hclause hfault
  · simp [edgeFaults, EdgePattern.faults] at hedge
  · simp [returnFaults] at hreturn

/-- A filled query is not refused for an empty return. -/
lemma IsFilled.emptyReturn_notMem (h : q.IsFilled) : .planning .emptyReturn ∉ q.faults := by
  rw [planning_mem_faults]
  rintro (hmatch | hedge | hreturn)
  · simp [matchFaults, MatchClause.faults] at hmatch
  · simp [edgeFaults, EdgePattern.faults] at hedge
  · cases hreturned : q.returned with
    | none => simp [returnFaults, hreturned, items] at hreturn
    | some clause => simp [returnFaults, hreturned, items, h.returned clause hreturned] at hreturn

/-- **What holds of every query that is read.** Its variables are identifiers and no keywords, and
each of its clauses has an entry. If the query is accepted, then two positions of its chain share a
variable exactly if the same one was written at both, and those that were given none share theirs
with no other. It is never refused for a match without a path or a result without an item. -/
theorem ofText_names {text : String} (h : Query.ofText text = .ok q) :
    (∀ name ∈ q.names, isVariable name) ∧ q.IsFilled
      ∧ (∀ c, q.compile = .ok c → ∃ p, q.path = .ok p ∧ c.chain.FollowsNames p)
      ∧ q.compile ≠ .error (.planning .emptyPattern)
      ∧ q.compile ≠ .error (.planning .emptyReturn) := by
  obtain ⟨hfilled, hnames⟩ := yields_of_ofText h
  have hpaths : ∀ p ∈ q.paths, ∀ name ∈ p.names, ' ' ∉ name.toList := fun p hp name hname =>
    space_notMem_of_isVariable (hnames name
      (List.mem_append_left _ (List.mem_flatMap.2 ⟨p, hp, hname⟩)))
  have hspace : ∀ name ∈ q.edgeVariables, ' ' ∉ name.toList := by
    intro name hname
    obtain ⟨p, hp, hname⟩ := List.mem_flatMap.1 hname
    exact hpaths p hp name (List.mem_append_right _ hname)
  have hrefused := compile_refusedFor hspace
  refine ⟨hnames, hfilled, fun c hc => ?_, fun he => ?_, fun he => ?_⟩
  · obtain ⟨p, item, hp, -, -, -, -, hchain, -⟩ := compile_eq_ok hc
    refine ⟨p, hp, hchain ▸ PathPattern.followsNames fun name hname => ?_⟩
    exact hpaths p
      (by rw [paths_of_path hp]; exact List.mem_cons_self) name (List.mem_append_left _ hname)
  · exact hfilled.emptyPattern_notMem (List.mem_of_mem_head? ((hrefused _).1 he))
  · exact hfilled.emptyReturn_notMem (List.mem_of_mem_head? ((hrefused _).1 he))

/-- Functions that call what they also contain: of three positions, the first and the last share a
variable. -/
theorem ofText_names_of_calls :
    ∃ q c p, Query.ofText
      "MATCH (f)-[e:calls]->()<-[:contains]-(f) WHERE f.name <> 'main' RETURN f AS caller" = .ok q
      ∧ q.names = ["f", "f", "e", "f", "f", "caller"] ∧ (∀ name ∈ q.names, isVariable name)
      ∧ q.compile = .ok c ∧ c.chain.nodes.map ChainNode.name = ["f", "anon 1", "f"]
      ∧ q.path = .ok p ∧ c.chain.FollowsNames p := by
  have htext : (Query.ofText
      "MATCH (f)-[e:calls]->()<-[:contains]-(f) WHERE f.name <> 'main' RETURN f AS caller").map
      (fun q => (q.names, (q.compile.map fun c => c.chain.nodes.map ChainNode.name).toOption))
        = .ok (["f", "f", "e", "f", "f", "caller"], some ["f", "anon 1", "f"]) := by decide +kernel
  obtain ⟨q, hq, heq⟩ := map_eq_ok.1 htext
  obtain ⟨hnames, hchain⟩ := Prod.mk.inj heq
  obtain ⟨hvariables, -, hfollows, -⟩ := ofText_names hq
  cases hc : q.compile with
  | error e =>
      rw [hc] at hchain
      cases hchain
  | ok c =>
      rw [hc] at hchain
      obtain ⟨p, hp, hfollows⟩ := hfollows c hc
      exact ⟨q, c, p, hq, hnames, hvariables, hc, Option.some.inj hchain, hp, hfollows⟩

end Query
end CodeGraph
