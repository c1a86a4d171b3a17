import CodeGraph.Proofs.Cypher.Climbing

/-!
Patterns: the tree beside the readers.

A builder goes over the pairs of a phrase and adds each of them to what it has gathered, and a
reader takes one phrase after the other. Both meet the same faults in the same order.

* `commaList_pairs`: phrases between commas.
* `properties_pairs`, `node_pairs`, `edge_pairs`: property maps, nodes and edges.
* `path_pairs`, `pattern_pairs`: paths, and paths between commas.
-/

namespace CodeGraph.Cypher

open Cypher.Part

variable {α β : Type} {ts us rest : List Piece} {xs ys : List Pair} {m n : Nat} {p : Part}

/-! ### Gathering -/

lemma map_map_read (r : Read α) (f : α → β) {γ : Type} (g : β → γ) :
    (r.map f).map g = r.map fun a => g (f a) := by
  cases r <;> rfl

lemma foldlM_singleton (add : β → Pair → Read β) (b : β) (x : Pair) :
    [x].foldlM add b = add b x := by
  rw [List.foldlM_cons]
  exact bind_pure _

/-- **A reader and a part whose pairs are added to what is gathered**: they change it as the meaning
of the phrase says. -/
def Folds (n : Nat) (F : Phrase α) (p : Part) (add : β → Pair → Read β) (put : β → α → β) : Prop :=
  ∀ ts : List Piece, IsCut ts →
    (∃ xs rest r, p ts = some (xs, rest) ∧ F (tokensOf ts) = some (r, tokensOf rest)
        ∧ ∀ b, xs.foldlM add b = r.map (put b))
      ∨ F (tokensOf ts) = none ∧ p.Halts n ts

/-- Phrases as long as there are any. A step either takes one phrase, or sees that there is none, or
rejects the text. -/
lemma many_folds {F : Nat → Phrase (List α)} {add : β → Pair → Read β} {put : β → α → β}
    (hp : Consumes p) (hstep : ∀ {ts : List Piece}, IsCut ts →
      (∃ xs us r, p ts = some (xs, us) ∧ (∀ b, xs.foldlM add b = r.map (put b))
          ∧ ∀ fuel, F (fuel + 1) (tokensOf ts) = (F fuel (tokensOf us)).map fun a =>
            ((do pure ((← r) :: (← a.1))), a.2))
        ∨ p ts = none ∧ (∀ fuel, F (fuel + 1) (tokensOf ts) = some (.ok [], tokensOf ts))
        ∨ (∀ fuel, F (fuel + 1) (tokensOf ts) = none) ∧ (many p).Halts n ts) :
    Folds n (fun ts => F (ts.length + 1) ts) (many p) add (List.foldl put) := by
  have hfuel : ∀ fuel {ts : List Piece}, IsCut ts → ts.length < fuel →
      (∃ xs rest r, many p ts = some (xs, rest) ∧ F fuel (tokensOf ts) = some (r, tokensOf rest)
          ∧ ∀ b, xs.foldlM add b = r.map (List.foldl put b))
        ∨ F fuel (tokensOf ts) = none ∧ (many p).Halts n ts := by
    intro fuel
    induction fuel with
    | zero => exact fun _ hlt => absurd hlt (Nat.not_lt_zero _)
    | succ fuel ih =>
        intro ts h hlt
        rcases hstep h with ⟨xs, us, r, hpart, hfold, hread⟩ | ⟨hpart, hread⟩ | ⟨hread, hpart⟩
        · have hus := hp _ _ _ hpart
          have hmany := many_of_eq_some hp hpart
          rw [hread]
          rcases ih (h.of_suffix (p.suffix hpart)) (by omega) with
            ⟨ys, rest, r', hmore, hread', hfold'⟩ | ⟨hread', hmore⟩
          · refine .inl ⟨xs ++ ys, rest, do pure ((← r) :: (← r')), by rw [hmany, hmore]; rfl,
              by rw [hread']; rfl, fun b => ?_⟩
            rw [List.foldlM_append, hfold]
            cases r with
            | error f => rfl
            | ok a =>
                change ys.foldlM add (put b a) = _
                rw [hfold']
                cases r' <;> rfl
          · refine .inr ⟨by rw [hread']; rfl, fun xs rest heq => ?_⟩
            rw [hmany] at heq
            obtain ⟨a, ha, heq⟩ := Option.map_eq_some_iff.1 heq
            cases heq
            exact hmore _ _ ha
        · exact .inl ⟨[], ts, .ok [], many_of_eq_none hp hpart, hread fuel, fun b => rfl⟩
        · exact .inr ⟨hread fuel, hpart⟩
  intro ts h
  exact hfuel _ h (by rw [length_tokensOf]; exact Nat.lt_succ_self _)

/-! ### Lists -/

variable {r : Rule} {item : Phrase α} {build : Pair → Read α}

/-- Behind a comma a list goes on, if it can. -/
lemma commaSeparated_of_comma {vs : List Piece} (hp : p ts = some (xs, us))
    (hcomma : Grammar.sign .comma us = some ([], vs)) :
    Grammar.commaSeparated p ts = (match Grammar.commaSeparated p vs with
      | none => some (xs, us)
      | some a => some (xs ++ a.1, a.2)) := by
  have hitem : seq [Grammar.sign .comma, p] us = p vs := by
    rw [seq_of_eq_some hcomma, seq_singleton]
    exact Option.map_id'
  rw [Grammar.commaSeparated, seq_of_eq_some hp, seq_singleton, many_eq (consumes_comma p), hitem,
    seq_cons]
  cases p vs with
  | none => simp
  | some a =>
      obtain ⟨b, hb⟩ := exists_many (seq [Grammar.sign .comma, p]) a.2
      simp [seq_singleton, hb]

/-- Where no comma follows, a list is its first item. -/
lemma commaSeparated_of_none (hp : p ts = some (xs, us)) (hcomma : Grammar.sign .comma us = none) :
    Grammar.commaSeparated p ts = some (xs, us) := by
  rw [Grammar.commaSeparated, seq_of_eq_some hp,
    seq_many_of_eq_none (consumes_comma p) (seq_of_eq_none hcomma _), seq_nil]
  simp

/-- Any fuel is enough that is more than there are pieces. -/
lemma commaList_pairs_of_lt (hitem : PairsOne m item p r build) (hm : m ≤ 3) (fuel : Nat)
    (h : IsCut ts) (hfuel : ts.length < fuel) :
    (∃ xs rest, Grammar.commaSeparated p ts = some (xs, rest) ∧ (∀ x ∈ xs, x.rule = r)
        ∧ commaList item fuel (tokensOf ts) = some (xs.mapM build, tokensOf rest))
      ∨ commaList item fuel (tokensOf ts) = none ∧ (Grammar.commaSeparated p).Halts 4 ts := by
  induction fuel generalizing ts with
  | zero => exact absurd hfuel (Nat.not_lt_zero _)
  | succ fuel ih =>
      rw [commaList]
      rcases hitem h with ⟨x, us, hp, hrule, hread⟩ | ⟨hread, hp⟩
      · have hsuffix := p.suffix hp
        rw [hread]
        simp only [Option.bind_eq_bind, Option.bind_some]
        rcases sign_cases .comma us with ⟨t, vs, rfl, ht, hcomma, hmark⟩ | ⟨-, hcomma, hmark⟩
        · have hlist := commaSeparated_of_comma hp hcomma
          have hlt := hsuffix.length_le
          simp only [List.length_cons] at hlt
          rw [hmark]
          -- behind a comma an item has to follow: else the reader fails, and the part halts there
          rcases ih (h.of_suffix hsuffix).tail (by omega) with
            ⟨xs, rest, hmore, hrules, hread'⟩ | ⟨hread', hmore⟩
          · refine .inl ⟨x :: xs, rest, by rw [hlist, hmore]; rfl,
              List.forall_mem_cons.2 ⟨hrule, hrules⟩, ?_⟩
            simp only [hread', Option.bind_some, List.mapM_cons]
          · refine .inr ⟨by simp only [hread', Option.bind_none], fun ys rest heq => ?_⟩
            rw [hlist] at heq
            cases hvs : Grammar.commaSeparated p vs with
            | none =>
                rw [hvs] at heq
                cases heq
                exact .of_mark ht rfl
            | some a =>
                rw [hvs] at heq
                cases heq
                exact hmore _ _ hvs
        · refine .inl ⟨[x], us, commaSeparated_of_none hp hcomma, by simpa using hrule, ?_⟩
          rw [hmark, List.mapM_cons]
          cases build x <;> rfl
      · have hcomma : Blocks m (Grammar.sign .comma) := (blocks_sign (n := 3) rfl).mono hm
        have hbars : Bars m (seq [many (seq [Grammar.sign .comma, p])]) :=
          (hcomma.seq _).bars.many.seq bars_nothing
        exact .inr ⟨by rw [hread]; rfl, (hp.seq hbars).mono (by omega)⟩

/-- **Phrases between commas** are built one by one. -/
lemma commaList_pairs (hitem : PairsOne m item p r build) (hm : m ≤ 3) (h : IsCut ts) :
    (∃ xs rest, Grammar.commaSeparated p ts = some (xs, rest) ∧ (∀ x ∈ xs, x.rule = r)
        ∧ commaList item ((tokensOf ts).length + 1) (tokensOf ts)
          = some (xs.mapM build, tokensOf rest))
      ∨ commaList item ((tokensOf ts).length + 1) (tokensOf ts) = none
        ∧ (Grammar.commaSeparated p).Halts 4 ts :=
  commaList_pairs_of_lt hitem hm _ h (by rw [length_tokensOf]; exact Nat.lt_succ_self _)

/-! ### Property maps -/

/-- A key, a colon and a literal. -/
def setting : Phrase (String × Property) := fun ts =>
  (word ts).bind fun k => (mark .colon k.2).bind fun ts => (literal ts).map fun v =>
    (v.1.map fun value => (k.1, value), v.2)

/-- A key and its value are built as they are read. -/
lemma setting_pairs : PairsOne 0 setting Grammar.property .property buildSetting := by
  intro ts h
  rw [setting]
  rcases word_cases h .propertyKey with ⟨t, us, key, rfl, -, -, hpart, hword⟩ | ⟨-, hpart, hword⟩
  · rw [hword, Option.bind_some]
    dsimp only
    rcases sign_cases .colon us with ⟨u, vs, rfl, -, hcolon, hmark⟩ | ⟨-, hcolon, hmark⟩
    · rw [hmark, Option.bind_some]
      rcases value_cases h.tail.tail with ⟨v, ws, x, rfl, hvalue, hrule, hliteral⟩
        | ⟨hvalue, hliteral⟩
      · have hseq : seq [Grammar.word .propertyKey, Grammar.sign .colon,
            Grammar.value] (t :: u :: v :: ws)
            = some ([⟨.propertyKey, key.toList, []⟩, x], ws) := by
          rw [seq_of_eq_some hpart, seq_of_eq_some hcolon, seq_singleton, hvalue]
          rfl
        refine .inl ⟨_, ws, rule_of_eq_some hseq, rfl, ?_⟩
        rw [hliteral, Option.map_some, buildSetting]
        have hfold : [⟨.propertyKey, key.toList, []⟩, x].foldlM addToSetting ("", .null)
            = (buildValue x).map fun value => (key, value) := by
          have hkey : addToSetting ("", .null) ⟨.propertyKey, key.toList, []⟩ = .ok (key, .null) :=
            congrArg (fun k => Except.ok (k, Property.null)) String.ofList_toList
          rw [List.foldlM_cons, hkey]
          change [x].foldlM addToSetting (key, .null) = _
          rw [foldlM_singleton, addToSetting, hrule]
        rw [hfold]
      · refine .inr ⟨by rw [hliteral]; rfl, halts_of_eq_none (rule_eq_none_iff.2 ?_)⟩
        rw [seq_of_eq_some hpart, seq_of_eq_some hcolon, seq_singleton, hvalue]
        rfl
    · refine .inr ⟨by rw [hmark]; rfl, halts_of_eq_none (rule_eq_none_iff.2 ?_)⟩
      rw [seq_of_eq_some hpart, seq_of_eq_none hcolon]
      rfl
  · exact .inr ⟨by rw [hword]; rfl, halts_of_eq_none (rule_eq_none_iff.2 (seq_of_eq_none hpart _))⟩

/-- The settings of a map are phrases between commas, with a brace behind. -/
lemma settings_eq_commaList {ts : List Token} {fuel : Nat} (hfuel : ts.length < fuel) :
    settings ts = (commaList setting fuel ts).bind fun a =>
      (mark .closeBrace a.2).map fun rest => (a.1, rest) := by
  induction fuel generalizing ts with
  | zero => exact absurd hfuel (Nat.not_lt_zero _)
  | succ fuel ih =>
      rw [settings_eq, commaList, setting]
      cases hword : word ts with
      | none => rfl
      | some k =>
          simp only [Option.bind_some, Option.bind_eq_bind]
          cases hcolon : mark .colon k.2 with
          | none => rfl
          | some us =>
              simp only [Option.bind_some]
              cases hliteral : literal us with
              | none => rfl
              | some v =>
                  simp only [Option.bind_some, Option.map_some]
                  have hlength : v.2.length < fuel := by
                    have hk := word_length_lt hword
                    have hu := mark_length_lt hcolon
                    have hv := literal_length_lt hliteral
                    omega
                  cases hbrace : mark .closeBrace v.2 with
                  | some rest =>
                      have hcomma : mark .comma v.2 = none := by
                        obtain ⟨g, hv⟩ := mark_eq_some_iff.1 hbrace
                        rw [hv, mark_cons_of_ne (by decide)]
                      simp only [hcomma, Option.bind_some, hbrace, Option.map_some]
                      cases v.1 <;> rfl
                  | none =>
                      cases hcomma : mark .comma v.2 with
                      | none => simp [hbrace]
                      | some vs =>
                          have hvs := mark_length_lt hcomma
                          simp only [Option.bind_some]
                          rw [ih (by omega)]
                          cases commaList setting fuel vs with
                          | none => rfl
                          | some a =>
                              simp only [Option.bind_some]
                              cases mark .closeBrace a.2 with
                              | none => rfl
                              | some rest =>
                                  simp only [Option.map_some]
                                  cases v.1 <;> cases a.1 <;> rfl

/-- Settings are put into a map one after the other. -/
lemma foldlM_addSetting (xs : List Pair) (map : PropertyMap) :
    xs.foldlM addSetting map = (xs.mapM buildSetting).map fun settings =>
      settings.foldl (fun m e => m.insert e.1 e.2) map := by
  induction xs generalizing map with
  | nil => rfl
  | cons x xs ih =>
      rw [List.foldlM_cons, List.mapM_cons, addSetting]
      cases hx : buildSetting x with
      | error f => rfl
      | ok e =>
          change xs.foldlM addSetting (map.insert e.1 e.2) = _
          rw [ih]
          cases xs.mapM buildSetting <;> rfl

/-- Pairs that are all of one rule are all found by it. -/
lemma each_eq_self {text : List Char} {r' : Rule} (h : ∀ x ∈ xs, x.rule = r) :
    Pair.each r ⟨r', text, xs⟩ = xs :=
  List.filter_eq_self.2 fun x hx => decide_eq_true (h x hx)

/-- **A property map** is built as it is read. -/
lemma properties_pairs : PairsOne 0 properties Grammar.properties .properties buildProperties := by
  intro ts h
  rw [properties]
  rcases sign_cases .openBrace ts with ⟨t, us, rfl, -, hopen, hmark⟩ | ⟨-, hopen, hmark⟩
  · simp only [hmark, Option.bind_eq_bind, Option.bind_some]
    rcases sign_cases .closeBrace us with ⟨u, vs, rfl, hu, hclose, hmark'⟩ | ⟨-, hclose, hmark'⟩
    · have hword : Grammar.word .propertyKey (u :: vs) = none := by
        rw [Grammar.word, leaf_cons, hu]
        rfl
      have hnone : Grammar.propertyList (u :: vs) = none :=
        rule_eq_none_iff.2 (seq_of_eq_none (rule_eq_none_iff.2 (seq_of_eq_none hword _)) _)
      have hseq : seq [Grammar.sign .openBrace, optional Grammar.propertyList,
          Grammar.sign .closeBrace]
          (t :: u :: vs) = some ([], vs) := by
        rw [seq_of_eq_some hopen, seq_of_eq_some (optional_of_eq_none hnone), seq_singleton, hclose]
        rfl
      exact .inl ⟨_, vs, rule_of_eq_some hseq, rfl, by rw [hmark']; rfl⟩
    · rw [hmark', settings_eq_commaList (Nat.lt_succ_self (tokensOf us).length)]
      rcases commaList_pairs setting_pairs (by decide) h.tail with
        ⟨xs, vs, hlist, hrules, hread⟩ | ⟨hread, hlist⟩
      · have hlist' : Grammar.propertyList us
            = some ([⟨.propertyList, Piece.covered us vs, xs⟩], vs) :=
          rule_of_eq_some hlist
        simp only [hread, Option.bind_some]
        rcases sign_cases .closeBrace vs with ⟨u, ws, rfl, -, hclose', hmark''⟩
          | ⟨-, hclose', hmark''⟩
        · have hseq : seq [Grammar.sign .openBrace, optional Grammar.propertyList,
              Grammar.sign .closeBrace] (t :: us)
              = some ([⟨.propertyList, Piece.covered us (u :: ws), xs⟩], ws) := by
            rw [seq_of_eq_some hopen, seq_of_eq_some (optional_of_eq_some hlist'),
              seq_singleton, hclose']
            rfl
          refine .inl ⟨_, ws, rule_of_eq_some hseq, rfl, ?_⟩
          rw [hmark'', buildProperties, foldlM_singleton, if_pos rfl, each_eq_self hrules,
            foldlM_addSetting]
          rfl
        · refine .inr ⟨by rw [hmark'']; rfl, halts_of_eq_none (rule_eq_none_iff.2 ?_)⟩
          rw [seq_of_eq_some hopen, seq_of_eq_some (optional_of_eq_some hlist'),
            seq_singleton, hclose']
          rfl
      · refine .inr ⟨by simp only [hread, Option.bind_none],
          halts_of_eq_none (rule_eq_none_iff.2 ?_)⟩
        have hlist' : Grammar.propertyList.Halts 4 us := hlist.rule _
        rw [seq_of_eq_some hopen, hlist'.seq_optional_eq_none (Blocks.seq (blocks_sign rfl) _)
          (by rw [seq_singleton, hclose])]
        rfl
  · exact .inr ⟨by rw [hmark]; rfl, halts_of_eq_none (rule_eq_none_iff.2 (seq_of_eq_none hopen _))⟩

/-- A property map that may be left out. Behind an opening brace it may not. -/
lemma optionalProperties_cases (h : IsCut ts) :
    (∃ xs us r, optional Grammar.properties ts = some (xs, us)
        ∧ optionalProperties (tokensOf ts) = some (r, tokensOf us)
        ∧ (xs = [] ∧ r = .ok none
          ∨ ∃ x, xs = [x] ∧ x.rule = .properties ∧ r = (buildProperties x).map some))
      ∨ optionalProperties (tokensOf ts) = none ∧ (optional Grammar.properties).Halts 2 ts := by
  rw [optionalProperties, startsWithMark]
  rcases sign_cases .openBrace ts with ⟨t, us, rfl, ht, -, hmark⟩ | ⟨-, hopen, hmark⟩
  · simp only [hmark, Option.isSome_some, if_true]
    rcases properties_pairs h with ⟨x, vs, hpart, hrule, hread⟩ | ⟨hread, hpart⟩
    · exact .inl ⟨[x], vs, _, optional_of_eq_some hpart, by rw [hread]; rfl,
        .inr ⟨x, rfl, hrule, rfl⟩⟩
    · refine .inr ⟨by rw [hread]; rfl, (hpart.mono (by omega)).optional ?_⟩
      exact .of_mark ht rfl
  · have hnone : Grammar.properties ts = none := rule_eq_none_iff.2 (seq_of_eq_none hopen _)
    rw [hmark, if_neg (by simp)]
    exact .inl ⟨[], ts, _, optional_of_eq_none hnone, rfl, .inl ⟨rfl, rfl⟩⟩

/-! ### Nodes -/

/-- A variable that may be left out: there is a pair of it, or none. -/
lemma optionalName_cases (h : IsCut ts) :
    ∃ xs us v, optional Grammar.variableName ts = some (xs, us)
      ∧ optionalName (tokensOf ts) = (v, tokensOf us)
      ∧ (xs = [] ∧ v = none ∨ ∃ n, xs = [⟨.variableName, n.toList, []⟩] ∧ v = some n) := by
  rw [optionalName]
  rcases variableName_cases h with ⟨t, us, n, rfl, -, -, hpart, hread⟩ | ⟨-, hpart, hread⟩
  · exact ⟨_, us, some n, optional_of_eq_some hpart, by rw [hread], .inr ⟨n, rfl, rfl⟩⟩
  · exact ⟨[], ts, none, optional_of_eq_none hpart, by rw [hread], .inl ⟨rfl, rfl⟩⟩

/-- What may be repeated, but is there once, makes up a pair of its own. -/
lemma optional_rule_many {q : Part} (hq : Consumes q) (r : Rule) (h : many q ts = some (xs, rest)) :
    xs = [] ∧ rest = ts ∧ optional (rule r (seq [q, many q])) ts = some ([], ts)
      ∨ optional (rule r (seq [q, many q])) ts = some ([⟨r, Piece.covered ts rest, xs⟩], rest) := by
  rw [many_eq hq] at h
  cases hts : q ts with
  | none =>
      rw [hts] at h
      cases h
      exact .inl ⟨rfl, rfl, optional_of_eq_none (rule_eq_none_iff.2 (seq_of_eq_none hts _))⟩
  | some a =>
      rw [hts] at h
      have hseq : seq [q, many q] ts = some (xs, rest) := by
        rw [seq_cons, hts, Option.bind_some, seq_singleton]
        exact h
      exact .inr (optional_of_eq_some (rule_of_eq_some hseq))

/-- Nor does the pair of its own change where the repetition halts. -/
lemma halts_optional_rule_many {q : Part} (hq : Consumes q) (r : Rule) (h : (many q).Halts n ts) :
    (optional (rule r (seq [q, many q]))).Halts n ts := by
  obtain ⟨⟨xs, rest⟩, hmany⟩ := exists_many q ts
  have hrest := h _ _ hmany
  intro ys vs heq
  rcases optional_rule_many hq r hmany with ⟨-, rfl, hpart⟩ | hpart
  · rw [hpart] at heq
    cases heq
    exact hrest
  · rw [hpart] at heq
    cases heq
    exact hrest

/-- Words that a part takes one by one, with a sign in front of each. -/
lemma many_words {γ : Type} {q : Part} {r : Rule} {F : List Token → Option (List γ × List Token)}
    {make : String → γ} (hq : Consumes q) (hstep : ∀ {ts}, IsCut ts →
      (∃ w us, q ts = some ([⟨r, w.toList, []⟩], us)
          ∧ F (tokensOf ts) = (F (tokensOf us)).map fun a => (make w :: a.1, a.2))
        ∨ q ts = none ∧ (F (tokensOf ts) = some ([], tokensOf ts)
          ∨ F (tokensOf ts) = none ∧ Stalled 1 ts))
    (k : Nat) (hk : ts.length ≤ k) (h : IsCut ts) :
    (∃ rest, ∃ ws : List String, many q ts = some (ws.map fun w => ⟨r, w.toList, []⟩, rest)
        ∧ F (tokensOf ts) = some (ws.map make, tokensOf rest))
      ∨ F (tokensOf ts) = none ∧ (many q).Halts 1 ts := by
  -- on a bound for the pieces, since a word takes one of them at least
  induction k generalizing ts with
  | zero =>
      obtain rfl : ts = [] := List.eq_nil_of_length_eq_zero (Nat.le_zero.1 hk)
      rcases hstep h with ⟨w, us, hpart, -⟩ | ⟨-, hread | ⟨-, hstalled⟩⟩
      · exact absurd (hq _ _ _ hpart) (Nat.not_lt_zero _)
      · exact .inl ⟨[], [], rfl, hread⟩
      · obtain ⟨t, ht, -⟩ := hstalled
        cases ht
  | succ k ih =>
      rcases hstep h with ⟨w, us, hpart, hread⟩ | ⟨hpart, hread | ⟨hread, hstalled⟩⟩
      · have hlt := hq _ _ _ hpart
        have hmany := many_of_eq_some hq hpart
        rw [hread]
        rcases ih (by omega) (h.of_suffix (q.suffix hpart)) with
          ⟨rest, ws, hmore, hread'⟩ | ⟨hread', hmore⟩
        · exact .inl ⟨rest, w :: ws, by rw [hmany, hmore]; rfl, by rw [hread']; rfl⟩
        · refine .inr ⟨by rw [hread']; rfl, fun xs rest heq => ?_⟩
          rw [hmany] at heq
          obtain ⟨a, ha, heq⟩ := Option.map_eq_some_iff.1 heq
          cases heq
          exact hmore _ _ ha
      · exact .inl ⟨ts, [], many_of_eq_none hq hpart, hread⟩
      · refine .inr ⟨hread, fun xs rest heq => ?_⟩
        rw [many_of_eq_none hq hpart] at heq
        cases heq
        exact hstalled

/-- Words that were taken one by one are found one by one. -/
lemma each_words {γ : Type} (r r' : Rule) (text : List Char) (ws : List String)
    (make : String → γ) :
    (Pair.each r ⟨r', text, ws.map fun w => ⟨r, w.toList, []⟩⟩).map (fun x => make x.string)
      = ws.map make := by
  rw [each_eq_self (by simp), List.map_map]
  exact List.map_congr_left fun w _ => congrArg make String.ofList_toList

/-- A colon and a label. -/
def oneLabel : Part := seq [Grammar.sign .colon, Grammar.word .label]

lemma consumes_oneLabel : Consumes oneLabel := (consumes_sign .colon).seq _

/-- One step of the labels of a node: a label is there, or no colon is, or only a colon. -/
lemma oneLabel_cases (h : IsCut ts) :
    (∃ w us, oneLabel ts = some ([⟨.label, w.toList, []⟩], us)
        ∧ labels (tokensOf ts) = (labels (tokensOf us)).map fun a => (⟨w⟩ :: a.1, a.2))
      ∨ oneLabel ts = none ∧ (labels (tokensOf ts) = some ([], tokensOf ts)
        ∨ labels (tokensOf ts) = none ∧ Stalled 1 ts) := by
  rw [labels_eq]
  rcases sign_cases .colon ts with ⟨t, us, rfl, ht, hcolon, hmark⟩ | ⟨-, hcolon, hmark⟩
  · rw [hmark, oneLabel, seq_of_eq_some hcolon, seq_singleton]
    dsimp only
    rcases word_cases h.tail .label with ⟨u, vs, w, rfl, -, -, hpart, hword⟩ | ⟨-, hpart, hword⟩
    · rw [hword, hpart]
      exact .inl ⟨w, vs, rfl, rfl⟩
    · rw [hword, hpart]
      exact .inr ⟨rfl, .inr ⟨rfl, .of_mark ht rfl⟩⟩
  · rw [hmark]
    exact .inr ⟨seq_of_eq_none hcolon _, .inl rfl⟩

/-- The labels of a node, which are added to it in their order. -/
lemma labels_cases (h : IsCut ts) :
    (∃ xs us ls, optional Grammar.labels ts = some (xs, us)
        ∧ labels (tokensOf ts) = some (ls, tokensOf us)
        ∧ ∀ node, xs.foldlM addToNode node = .ok { node with labels := node.labels ++ ls })
      ∨ labels (tokensOf ts) = none ∧ (optional Grammar.labels).Halts 1 ts := by
  rcases many_words consumes_oneLabel oneLabel_cases ts.length le_rfl h with
    ⟨rest, ws, hmany, hread⟩ | ⟨hread, hmany⟩
  · refine .inl ?_
    rcases optional_rule_many consumes_oneLabel .labels hmany with ⟨hnil, rfl, hpart⟩ | hpart
    · obtain rfl : ws = [] := List.map_eq_nil_iff.1 hnil
      exact ⟨[], rest, [], hpart, hread, fun node => by simp; rfl⟩
    · refine ⟨_, rest, _, hpart, hread, fun node => ?_⟩
      rw [foldlM_singleton]
      change Except.ok { node with labels := node.labels ++ (Pair.each .label _).map _ } = _
      rw [each_words]
  · exact .inr ⟨hread, halts_optional_rule_many consumes_oneLabel .labels hmany⟩

/-- The pairs of a node, added to a node without anything. -/
lemma foldlM_addToNode {xs ys zs : List Pair} {v : Option String} {ls : List Label}
    {r : Read (Option PropertyMap)}
    (hxs : xs = [] ∧ v = none ∨ ∃ n, xs = [⟨.variableName, n.toList, []⟩] ∧ v = some n)
    (hys : ∀ node, ys.foldlM addToNode node = .ok { node with labels := node.labels ++ ls })
    (hzs : zs = [] ∧ r = .ok none
      ∨ ∃ x, zs = [x] ∧ x.rule = .properties ∧ r = (buildProperties x).map some) :
    (xs ++ (ys ++ zs)).foldlM addToNode {}
      = r.map fun p => { name := v, labels := ls, properties := p } := by
  have hfirst : xs.foldlM addToNode {} = .ok { name := v } := by
    rcases hxs with ⟨rfl, rfl⟩ | ⟨n, rfl, rfl⟩
    · rfl
    · rw [foldlM_singleton]
      exact congrArg (fun n => Except.ok ({ name := some n } : NodePattern)) String.ofList_toList
  have hlast : zs.foldlM addToNode { name := v, labels := ls }
      = r.map fun p => { name := v, labels := ls, properties := p } := by
    rcases hzs with ⟨rfl, rfl⟩ | ⟨x, rfl, hrule, rfl⟩
    · rfl
    · rw [foldlM_singleton, addToNode, hrule, map_map_read]
  rw [List.foldlM_append, hfirst]
  change (ys ++ zs).foldlM addToNode { name := v } = _
  rw [List.foldlM_append, hys]
  exact hlast

/-- **A node** is built as it is read. -/
lemma node_pairs : PairsOne 0 node Grammar.node .node buildNode := by
  intro ts h
  have hclosing : ∀ {n}, Blocks n (seq [Grammar.sign .closeParen]) := Blocks.seq (blocks_sign rfl) _
  -- behind the opening parenthesis the node fails where any of its parts does
  have hfail : ∀ us, Grammar.sign .openParen ts = some ([], us) →
      seq [optional Grammar.variableName, optional Grammar.labels, optional Grammar.properties,
        Grammar.sign .closeParen] us = none → Grammar.node ts = none := fun us hopen hnone => by
    rw [Grammar.node, rule_eq, seq_of_eq_some hopen, hnone]
    rfl
  rw [node]
  rcases sign_cases .openParen ts with ⟨t, us, rfl, -, hopen, hmark⟩ | ⟨-, hopen, hmark⟩
  · obtain ⟨xs, vs, v, hname, hname', hxs⟩ := optionalName_cases h.tail
    have hvs := h.tail.of_suffix ((optional Grammar.variableName).suffix hname)
    simp only [hmark, Option.bind_eq_bind, Option.bind_some, hname']
    rcases labels_cases hvs with ⟨ys, ws, ls, hlabels, hlabels', hys⟩ | ⟨hlabels', hlabels⟩
    · have hws := hvs.of_suffix ((optional Grammar.labels).suffix hlabels)
      simp only [hlabels', Option.bind_some]
      rcases optionalProperties_cases hws with
        ⟨zs, rest, r, hproperties, hproperties', hzs⟩ | ⟨hproperties', hproperties⟩
      · simp only [hproperties', Option.bind_some]
        rcases sign_cases .closeParen rest with ⟨u, rest, rfl, -, hclose, hmark'⟩
          | ⟨-, hclose, hmark'⟩
        · have hseq : seq [Grammar.sign .openParen, optional Grammar.variableName,
              optional Grammar.labels, optional Grammar.properties,
                Grammar.sign .closeParen] (t :: us)
              = some (xs ++ (ys ++ zs), rest) := by
            rw [seq_of_eq_some hopen, seq_of_eq_some hname, seq_of_eq_some hlabels,
              seq_of_eq_some hproperties, seq_singleton, hclose]
            simp
          refine .inl ⟨_, rest, rule_of_eq_some hseq, rfl, ?_⟩
          rw [hmark', buildNode, foldlM_addToNode hxs hys hzs]
          rfl
        · refine .inr ⟨by rw [hmark']; rfl, halts_of_eq_none (hfail us hopen ?_)⟩
          rw [seq_of_eq_some hname, seq_of_eq_some hlabels, seq_of_eq_some hproperties,
            seq_singleton, hclose]
          rfl
      · refine .inr ⟨by rw [hproperties']; rfl, halts_of_eq_none (hfail us hopen ?_)⟩
        rw [seq_of_eq_some hname, seq_of_eq_some hlabels, hproperties.seq_eq_none hclosing]
        rfl
    · have hproperties : Blocks 1 Grammar.properties :=
        Blocks.rule (Blocks.seq (blocks_sign rfl) _) _
      refine .inr ⟨by rw [hlabels']; rfl, halts_of_eq_none (hfail us hopen ?_)⟩
      rw [seq_of_eq_some hname, hlabels.seq_eq_none (hproperties.seq_optional hclosing)]
      rfl
  · exact .inr ⟨by rw [hmark]; rfl, halts_of_eq_none (rule_eq_none_iff.2 (seq_of_eq_none hopen _))⟩

/-! ### Edges -/

/-- A sign that may be left out. -/
lemma optionalSign_cases (m : Mark) (ts : List Piece) :
    (∃ t us, ts = t :: us ∧ t.lexeme = .mark m ∧ optional (Grammar.sign m) ts = some ([], us)
        ∧ optionalMark m (tokensOf ts) = (true, tokensOf us))
      ∨ (∀ t ∈ ts.head?, t.lexeme ≠ .mark m) ∧ optional (Grammar.sign m) ts = some ([], ts)
        ∧ optionalMark m (tokensOf ts) = (false, tokensOf ts) := by
  rw [optionalMark]
  rcases sign_cases m ts with ⟨t, us, rfl, ht, hpart, hmark⟩ | ⟨hne, hpart, hmark⟩
  · exact .inl ⟨t, us, rfl, ht, optional_of_eq_some hpart, by rw [hmark]⟩
  · exact .inr ⟨hne, optional_of_eq_none hpart, by rw [hmark]⟩

/-- A bar, perhaps a colon, and a group. -/
def oneMoreGroup : Part :=
  seq [Grammar.sign .bar, optional (Grammar.sign .colon), Grammar.word .edgeGroup]

lemma consumes_oneMoreGroup : Consumes oneMoreGroup := (consumes_sign .bar).seq _

/-- One step of the groups of an edge, as with the labels of a node. -/
lemma oneMoreGroup_cases (h : IsCut ts) :
    (∃ w us, oneMoreGroup ts = some ([⟨.edgeGroup, w.toList, []⟩], us)
        ∧ moreGroups (tokensOf ts) = (moreGroups (tokensOf us)).map fun a => (⟨w⟩ :: a.1, a.2))
      ∨ oneMoreGroup ts = none ∧ (moreGroups (tokensOf ts) = some ([], tokensOf ts)
        ∨ moreGroups (tokensOf ts) = none ∧ Stalled 1 ts) := by
  rw [moreGroups_eq]
  rcases sign_cases .bar ts with ⟨t, us, rfl, ht, hbar, hmark⟩ | ⟨-, hbar, hmark⟩
  · obtain ⟨b, vs, hvs, hcolon, hcolon'⟩ : ∃ b vs, vs <:+ us
        ∧ optional (Grammar.sign .colon) us = some ([], vs)
        ∧ optionalMark .colon (tokensOf us) = (b, tokensOf vs) := by
      rcases optionalSign_cases .colon us with ⟨u, vs, rfl, -, hpart, hread⟩ | ⟨-, hpart, hread⟩
      · exact ⟨true, vs, List.suffix_cons u vs, hpart, hread⟩
      · exact ⟨false, us, List.suffix_rfl, hpart, hread⟩
    rw [hmark, oneMoreGroup, seq_of_eq_some hbar, seq_of_eq_some hcolon, seq_singleton]
    dsimp only
    rw [hcolon']
    rcases word_cases (h.tail.of_suffix hvs) .edgeGroup with
      ⟨u, ws, w, rfl, -, -, hpart, hword⟩ | ⟨-, hpart, hword⟩
    · rw [hword, hpart]
      exact .inl ⟨w, ws, rfl, rfl⟩
    · rw [hword, hpart]
      exact .inr ⟨rfl, .inr ⟨rfl, .of_mark ht rfl⟩⟩
  · rw [hmark]
    exact .inr ⟨seq_of_eq_none hbar _, .inl rfl⟩

/-- The groups of an edge, which are added to it in their order. -/
lemma groups_cases (h : IsCut ts) :
    (∃ xs us gs, optional Grammar.edgeGroups ts = some (xs, us)
        ∧ groups (tokensOf ts) = some (gs, tokensOf us)
        ∧ ∀ edge, xs.foldlM addToDetail edge = .ok { edge with groups := edge.groups ++ gs })
      ∨ groups (tokensOf ts) = none ∧ (optional Grammar.edgeGroups).Halts 1 ts := by
  rw [groups_eq]
  rcases sign_cases .colon ts with ⟨t, us, rfl, ht, hcolon, hmark⟩ | ⟨-, hcolon, hmark⟩
  · have hstalled : Stalled 1 (t :: us) := .of_mark ht rfl
    rw [hmark]
    dsimp only
    rcases word_cases h.tail .edgeGroup with ⟨u, vs, w, rfl, -, -, hpart, hword⟩ | ⟨-, hpart, hword⟩
    · rw [hword, Option.bind_some]
      rcases many_words consumes_oneMoreGroup oneMoreGroup_cases vs.length le_rfl h.tail.tail with
        ⟨rest, ws, hmany, hread⟩ | ⟨hread, hmany⟩
      · have hseq : seq [Grammar.sign .colon, Grammar.word .edgeGroup,
            many oneMoreGroup] (t :: u :: vs)
            = some ((w :: ws).map fun w => ⟨.edgeGroup, w.toList, []⟩, rest) := by
          rw [seq_of_eq_some hcolon, seq_of_eq_some hpart, seq_singleton, hmany]
          rfl
        refine .inl ⟨_, rest, (w :: ws).map fun w => ⟨w⟩,
          optional_of_eq_some (rule_of_eq_some hseq),
          by rw [hread]; rfl, fun edge => ?_⟩
        rw [foldlM_singleton]
        change Except.ok { edge with groups := edge.groups ++ (Pair.each .edgeGroup _).map _ } = _
        rw [each_words]
      · refine .inr ⟨by rw [hread]; rfl, Halts.optional (Halts.rule ?_ _) hstalled⟩
        exact halts_seq_of_eq_some hcolon (halts_seq_of_eq_some hpart (hmany.seq bars_nothing))
    · have hnone : Grammar.edgeGroups (t :: us) = none := rule_eq_none_iff.2 <| by
        rw [seq_of_eq_some hcolon, seq_of_eq_none hpart]
        rfl
      exact .inr ⟨by rw [hword]; rfl, (halts_of_eq_none hnone).optional hstalled⟩
  · have hnone : Grammar.edgeGroups ts = none := rule_eq_none_iff.2 (seq_of_eq_none hcolon _)
    rw [hmark]
    exact .inl ⟨[], ts, [], optional_of_eq_none hnone, rfl, fun edge => by simp; rfl⟩

/-- An exact length is built as it is read. -/
lemma buildLengthOf_integer {negative : Bool} {digits text : List Char}
    (h : (Lexeme.integer negative digits).Spells text) :
    buildLengthOf [⟨.integer, text, []⟩]
      = (readLength negative digits).map fun n => ⟨some n, some n⟩ := by
  have htext : String.ofList text = integerText negative digits := congrArg String.ofList h.1
  rw [buildLengthOf, readLength, ← buildInteger_of_spells h, ← htext]
  cases buildInteger text with
  | error f => rfl
  | ok v =>
      change (if v.toInt < 0 then _ else _) = Except.map _ (if v.toInt < 0 then _ else _)
      split_ifs <;> rfl

/-- A range of lengths is built as it is read. -/
lemma buildLengthOf_range {low high text : List Char} (h : (Lexeme.range low high).Spells text) :
    buildLengthOf [⟨.rangePattern, text, []⟩] = (do
      let min ← readBound low
      let max ← readBound high
      pure ⟨some (min.getD 1), max⟩) := by
  obtain ⟨rfl, hlow, hhigh⟩ := h
  rw [buildLengthOf]
  dsimp only
  rw [splitDots_append hlow, Option.getD_some, ← buildBound_of_digits hlow,
    ← buildBound_of_digits hhigh]
  refine bind_congr fun min => bind_congr fun max => ?_
  cases min <;> rfl

/-- The length of an edge. A star alone, or with a lexeme behind it that is no number, tells no
bound. -/
lemma length_cases (h : IsCut ts) :
    ∃ xs us r, optional Grammar.lengthPattern ts = some (xs, us)
      ∧ optionalLength (tokensOf ts) = (r, tokensOf us)
      ∧ (xs = [] ∧ r = .ok none
        ∨ ∃ x, xs = [x] ∧ x.rule = .lengthPattern ∧ r = (buildLengthOf x.inner).map some) := by
  rcases sign_cases .star ts with ⟨t, us, rfl, ht, hstar, -⟩ | ⟨hne, hstar, -⟩
  · have hpart : ∀ {xs vs}, optional (choice [Grammar.rangePattern, Grammar.integer]) us
        = some (xs, vs) →
        optional Grammar.lengthPattern (t :: us)
          = some ([⟨.lengthPattern, Piece.covered (t :: us) vs, xs⟩], vs) := fun heq => by
      refine optional_of_eq_some (rule_of_eq_some ?_)
      rw [seq_of_eq_some hstar, seq_singleton, heq]
      rfl
    rw [tokensOf_cons ht]
    cases us with
    | nil => exact ⟨_, [], _, hpart rfl, rfl, .inr ⟨_, rfl, rfl, rfl⟩⟩
    | cons u vs =>
        have hspells := h.spells u (List.mem_cons_of_mem t List.mem_cons_self)
        rw [tokensOf_cons rfl]
        cases hu : u.lexeme with
        | range low high =>
            rw [hu] at hspells
            have hone : optional (choice [Grammar.rangePattern, Grammar.integer]) (u :: vs)
                = some ([⟨.rangePattern, u.text, []⟩], vs) := by
              simp [optional_eq, choice_cons, Grammar.rangePattern, leaf_cons, hu]
            refine ⟨_, vs, _, hpart hone, rfl, .inr ⟨_, rfl, rfl, ?_⟩⟩
            rw [buildLengthOf_range hspells]
            cases readBound low with
            | error f => rfl
            | ok min => cases readBound high <;> rfl
        | integer negative digits =>
            rw [hu] at hspells
            have hone : optional (choice [Grammar.rangePattern, Grammar.integer]) (u :: vs)
                = some ([⟨.integer, u.text, []⟩], vs) := by
              simp [optional_eq, choice_cons, Grammar.rangePattern, Grammar.integer, leaf_cons, hu]
            refine ⟨_, vs, _, hpart hone, rfl, .inr ⟨_, rfl, rfl, ?_⟩⟩
            rw [buildLengthOf_integer hspells, map_map_read]
        | _ =>
            have hnone : optional (choice [Grammar.rangePattern, Grammar.integer]) (u :: vs)
                = some ([], u :: vs) := by
              simp [optional_eq, choice_cons, choice_nil, Grammar.rangePattern, Grammar.integer,
                leaf_cons, hu]
            refine ⟨_, u :: vs, _, hpart hnone, ?_, .inr ⟨_, rfl, rfl, rfl⟩⟩
            rw [tokensOf_cons hu]
            rfl
  · have hnone : Grammar.lengthPattern ts = none := rule_eq_none_iff.2 (seq_of_eq_none hstar _)
    refine ⟨[], ts, .ok none, optional_of_eq_none hnone, ?_, .inl ⟨rfl, rfl⟩⟩
    cases ts with
    | nil => rfl
    | cons t us => exact optionalLength_of_ne (hne t rfl) t.gap (tokensOf us)

/-- The pairs in the brackets of an edge, added to an edge without anything but a direction. -/
lemma foldlM_addToDetail (direction : PatternDirection) {xs ys ls zs : List Pair}
    {v : Option String} {gs : List Group} {len : Read (Option PathLength)}
    {r : Read (Option PropertyMap)}
    (hxs : xs = [] ∧ v = none ∨ ∃ n, xs = [⟨.variableName, n.toList, []⟩] ∧ v = some n)
    (hys : ∀ edge, ys.foldlM addToDetail edge = .ok { edge with groups := edge.groups ++ gs })
    (hls : ls = [] ∧ len = .ok none
      ∨ ∃ x, ls = [x] ∧ x.rule = .lengthPattern ∧ len = (buildLengthOf x.inner).map some)
    (hzs : zs = [] ∧ r = .ok none
      ∨ ∃ x, zs = [x] ∧ x.rule = .properties ∧ r = (buildProperties x).map some) :
    (xs ++ (ys ++ (ls ++ zs))).foldlM addToDetail { direction } = (do
      pure { name := v, groups := gs, direction, length := ← len, properties := ← r }) := by
  have hfirst : xs.foldlM addToDetail { direction } = .ok { name := v, direction } := by
    rcases hxs with ⟨rfl, rfl⟩ | ⟨n, rfl, rfl⟩
    · rfl
    · rw [foldlM_singleton]
      exact congrArg (fun n => Except.ok ({ name := some n, direction } : EdgePattern))
        String.ofList_toList
  have hthird : ls.foldlM addToDetail { name := v, groups := gs, direction }
      = len.map fun l => { name := v, groups := gs, direction, length := l } := by
    rcases hls with ⟨rfl, rfl⟩ | ⟨x, rfl, hrule, rfl⟩
    · rfl
    · rw [foldlM_singleton, addToDetail, hrule, map_map_read]
  have hlast : ∀ l, zs.foldlM addToDetail { name := v, groups := gs, direction, length := l }
      = r.map fun p => { name := v, groups := gs, direction, length := l, properties := p } := by
    intro l
    rcases hzs with ⟨rfl, rfl⟩ | ⟨x, rfl, hrule, rfl⟩
    · rfl
    · rw [foldlM_singleton, addToDetail, hrule, map_map_read]
  rw [List.foldlM_append, hfirst]
  change (ys ++ (ls ++ zs)).foldlM addToDetail { name := v, direction } = _
  rw [List.foldlM_append, hys]
  change (ls ++ zs).foldlM addToDetail { name := v, groups := gs, direction } = _
  rw [List.foldlM_append, hthird]
  cases len with
  | error f => rfl
  | ok l =>
      change zs.foldlM addToDetail { name := v, groups := gs, direction, length := l } = _
      rw [hlast]
      cases r <;> rfl

/-- **What stands in the brackets of an edge** is built as it is read. -/
lemma edgeDetail_pairs (direction : PatternDirection) :
    PairsOne 0 (edgeDetail direction) Grammar.edgeDetail .edgeDetail
      (buildDetail { direction }) := by
  intro ts h
  have hclosing : ∀ {n}, Blocks n (seq [Grammar.sign .closeBracket]) :=
    Blocks.seq (blocks_sign rfl) _
  -- behind the opening bracket all fails where any of the parts does
  have hfail : ∀ us, Grammar.sign .openBracket ts = some ([], us) →
      seq [optional Grammar.variableName, optional Grammar.edgeGroups,
        optional Grammar.lengthPattern, optional Grammar.properties, Grammar.sign .closeBracket] us
        = none →
      Grammar.edgeDetail ts = none := fun us hopen hnone => by
    rw [Grammar.edgeDetail, rule_eq, seq_of_eq_some hopen, hnone]
    rfl
  rw [edgeDetail]
  rcases sign_cases .openBracket ts with ⟨t, us, rfl, -, hopen, hmark⟩ | ⟨-, hopen, hmark⟩
  · obtain ⟨xs, vs, v, hname, hname', hxs⟩ := optionalName_cases h.tail
    have hvs := h.tail.of_suffix ((optional Grammar.variableName).suffix hname)
    simp only [hmark, Option.bind_eq_bind, Option.bind_some, hname']
    rcases groups_cases hvs with ⟨ys, ws, gs, hgroups, hgroups', hys⟩ | ⟨hgroups', hgroups⟩
    · have hws := hvs.of_suffix ((optional Grammar.edgeGroups).suffix hgroups)
      obtain ⟨ls, us', len, hlength, hlength', hls⟩ := length_cases hws
      have hus' := hws.of_suffix ((optional Grammar.lengthPattern).suffix hlength)
      simp only [hgroups', Option.bind_some, hlength']
      rcases optionalProperties_cases hus' with
        ⟨zs, rest, r, hproperties, hproperties', hzs⟩ | ⟨hproperties', hproperties⟩
      · simp only [hproperties', Option.bind_some]
        rcases sign_cases .closeBracket rest with ⟨u, rest, rfl, -, hclose, hmark'⟩
          | ⟨-, hclose, hmark'⟩
        · have hseq : seq [Grammar.sign .openBracket, optional Grammar.variableName,
              optional Grammar.edgeGroups, optional Grammar.lengthPattern,
                optional Grammar.properties,
              Grammar.sign .closeBracket] (t :: us) = some (xs ++ (ys ++ (ls ++ zs)), rest) := by
            rw [seq_of_eq_some hopen, seq_of_eq_some hname, seq_of_eq_some hgroups,
              seq_of_eq_some hlength, seq_of_eq_some hproperties, seq_singleton, hclose]
            simp
          refine .inl ⟨_, rest, rule_of_eq_some hseq, rfl, ?_⟩
          rw [hmark', buildDetail, foldlM_addToDetail direction hxs hys hls hzs]
          rfl
        · refine .inr ⟨by rw [hmark']; rfl, halts_of_eq_none (hfail us hopen ?_)⟩
          rw [seq_of_eq_some hname, seq_of_eq_some hgroups, seq_of_eq_some hlength,
            seq_of_eq_some hproperties, seq_singleton, hclose]
          rfl
      · refine .inr ⟨by rw [hproperties']; rfl, halts_of_eq_none (hfail us hopen ?_)⟩
        rw [seq_of_eq_some hname, seq_of_eq_some hgroups, seq_of_eq_some hlength,
          hproperties.seq_eq_none hclosing]
        rfl
    -- the groups halt at a lexeme that starts neither a length nor a property map
    · have hproperties : Blocks 1 Grammar.properties :=
        Blocks.rule (Blocks.seq (blocks_sign rfl) _) _
      have hlength : Blocks 1 Grammar.lengthPattern :=
        Blocks.rule (Blocks.seq (blocks_sign rfl) _) _
      refine .inr ⟨by rw [hgroups']; rfl, halts_of_eq_none (hfail us hopen ?_)⟩
      rw [seq_of_eq_some hname,
        hgroups.seq_eq_none (hlength.seq_optional (hproperties.seq_optional hclosing))]
      rfl
  · exact .inr ⟨by rw [hmark]; rfl, halts_of_eq_none (rule_eq_none_iff.2 (seq_of_eq_none hopen _))⟩

/-- The text that pieces cover ends as the last of them does. -/
lemma getLast?_covered {u : Piece} (h : u :: rest <:+ ts) (hu : u.text ≠ []) :
    (Piece.covered ts rest).getLast? = u.text.getLast? := by
  obtain ⟨front, rfl⟩ := h
  have hlength : (front ++ u :: rest).length - rest.length = (front ++ [u]).length := by
    simp only [List.length_append, List.length_cons, List.length_nil]
    omega
  have hfront : front ++ u :: rest = (front ++ [u]) ++ rest := by simp
  rw [Piece.covered, hlength, hfront, List.take_left]
  cases front with
  | nil => simp [Piece.span]
  | cons p front =>
      simp only [List.cons_append, Piece.span, List.flatMap_append, List.flatMap_singleton]
      rw [← List.append_assoc, ← List.append_assoc, List.getLast?_append_of_ne_nil _ hu]

/-- The text of a piece that is a mark is that of the mark. -/
lemma text_of_mark {t : Piece} {m : Mark} (h : IsCut ts) (ht : t ∈ ts) (hl : t.lexeme = .mark m) :
    mark? t.text = some (m, []) := by
  have hspells := h.spells t ht
  rw [hl] at hspells
  exact hspells

lemma edgePattern_of_none (h : Grammar.strokes ts = none) : Grammar.edgePattern ts = none := by
  change (Grammar.strokes ts).bind _ = _
  rw [h]
  rfl

/-- What stands in front of an edge's first stroke, and how the text of the edge starts then. -/
lemma arrowTail_cases (h : IsCut ts) : ∃ left us, us <:+ ts
    ∧ optional (Grammar.sign .less) ts = some ([], us)
    ∧ optionalMark .less (tokensOf ts) = (left, tokensOf us)
    ∧ ∀ t vs back, us = t :: vs → t.lexeme = .mark .minus → back <:+ vs →
      ∃ c cs, Piece.covered ts back = c :: cs ∧ (some c == some '<') = left := by
  rcases optionalSign_cases .less ts with ⟨t, us, rfl, ht, hpart, hread⟩ | ⟨-, hpart, hread⟩
  · refine ⟨true, us, List.suffix_cons t us, hpart, hread, fun u vs back hus _ hback => ?_⟩
    have htext := eq_of_mark? rfl (text_of_mark h List.mem_cons_self ht)
    have hback' : back <:+ us := hus ▸ hback.trans (List.suffix_cons u vs)
    exact ⟨'<', behind us back, by rw [covered_cons_of_suffix hback', htext]; rfl, rfl⟩
  · refine ⟨false, ts, List.suffix_rfl, hpart, hread, fun u vs back hts hu hback => ?_⟩
    have htext := eq_of_mark? rfl (text_of_mark h (hts ▸ List.mem_cons_self) hu)
    exact ⟨'-', behind vs back, by rw [hts, covered_cons_of_suffix hback, htext]; rfl, rfl⟩

/-- What stands behind an edge's second stroke, and how the text of the edge ends then. -/
lemma edgePattern_of_strokes {t : Piece} (h : IsCut ts)
    (hstrokes : Grammar.strokes ts = some (xs, us)) (hsuffix : t :: us <:+ ts)
    (ht : t.lexeme = .mark .minus) :
    ∃ back gap rest right, back <:+ us ∧ optionalMark .greater (tokensOf us)
      = (right, tokensOf rest)
      ∧ Grammar.edgePattern ts = some ([⟨.edgePattern, Piece.covered ts back ++ gap, xs⟩], rest)
      ∧ ((Piece.covered ts back ++ gap).getLast? == some '>') = right := by
  have hedge : Grammar.edgePattern ts = (Grammar.sign .greater us).elim
      (some ([⟨.edgePattern, Piece.covered ts us ++ Piece.gapBefore us, xs⟩], us))
      fun found => some ([⟨.edgePattern, Piece.covered ts found.2, xs⟩], found.2) := by
    change (Grammar.strokes ts).bind _ = _
    rw [hstrokes, Option.bind_some]
    dsimp only
    cases Grammar.sign .greater us <;> rfl
  rw [hedge, optionalMark]
  rcases sign_cases .greater us with ⟨u, rest, rfl, hu, hsign, hmark⟩ | ⟨-, hsign, hmark⟩
  · have hsuffix' : u :: rest <:+ ts := (List.suffix_cons t _).trans hsuffix
    have htext := eq_of_mark? rfl (text_of_mark h (hsuffix'.subset List.mem_cons_self) hu)
    refine ⟨rest, [], rest, true, List.suffix_cons u rest, by rw [hmark], ?_, ?_⟩
    · rw [hsign, List.append_nil]
      rfl
    · rw [List.append_nil, getLast?_covered hsuffix' (by simp [htext]), htext]
      rfl
  · have htext := eq_of_mark? rfl (text_of_mark h (hsuffix.subset List.mem_cons_self) ht)
    refine ⟨us, Piece.gapBefore us, us, false,
      List.suffix_rfl, by rw [hmark], by rw [hsign]; rfl, ?_⟩
    by_cases hgap : Piece.gapBefore us = []
    · rw [hgap, List.append_nil, getLast?_covered hsuffix (by simp [htext]), htext]
      rfl
    · rw [List.getLast?_append_of_ne_nil _ hgap]
      have hlast : (Piece.gapBefore us).getLast? ≠ some '>' := by
        cases us with
        | nil => exact absurd rfl hgap
        | cons u us =>
            exact (h.gap u (hsuffix.subset (by simp))).getLast?_ne
      exact beq_false_of_ne hlast

/-- What is in the brackets of an edge does not ask for its direction. -/
lemma addToDetail_direction (edge : EdgePattern) (direction : PatternDirection) (x : Pair) :
    addToDetail { edge with direction } x
      = (addToDetail edge x).map fun e => { e with direction } := by
  rw [addToDetail, addToDetail]
  split
  · rfl
  · rfl
  · cases buildLengthOf x.inner <;> rfl
  · cases buildProperties x <;> rfl
  · rfl

/-- The direction of an edge makes no difference to what stands in its brackets. -/
lemma buildDetail_direction (direction : PatternDirection) (x : Pair) :
    buildDetail { direction } x
      = (buildDetail { direction := .both } x).map fun e => { e with direction } := by
  have hfold : ∀ (xs : List Pair) (edge : EdgePattern),
      xs.foldlM addToDetail { edge with direction }
      = (xs.foldlM addToDetail edge).map fun e => { e with direction } := by
    intro xs
    induction xs with
    | nil => exact fun edge => rfl
    | cons x xs ih =>
        intro edge
        rw [List.foldlM_cons, List.foldlM_cons, addToDetail_direction]
        cases addToDetail edge x with
        | error f => rfl
        | ok e => exact ih e
  exact hfold x.inner { direction := .both }

/-- The brackets of an edge, which may be left out. They are read before the direction is known. -/
lemma optionalDetail_cases (h : IsCut ts) :
    (∃ xs us r, optional Grammar.edgeDetail ts = some (xs, us)
        ∧ optionalDetail .both (tokensOf ts) = some (r, tokensOf us)
        ∧ (∀ x ∈ xs, x.rule = .edgeDetail)
        ∧ ∀ direction, xs.foldlM buildDetail { direction } = r.map fun e => { e with direction })
      ∨ optionalDetail .both (tokensOf ts) = none ∧ (optional Grammar.edgeDetail).Halts 1 ts := by
  rw [optionalDetail, startsWithMark]
  rcases sign_cases .openBracket ts with ⟨t, us, rfl, ht, -, hmark⟩ | ⟨-, hopen, hmark⟩
  · simp only [hmark, Option.isSome_some, if_true]
    rcases edgeDetail_pairs .both h with ⟨x, vs, hpart, hrule, hread⟩ | ⟨hread, hpart⟩
    · refine .inl ⟨[x], vs, _, optional_of_eq_some hpart, hread, by simpa using hrule,
        fun direction => ?_⟩
      rw [foldlM_singleton, buildDetail_direction]
    · refine .inr ⟨hread, (hpart.mono (by omega)).optional ?_⟩
      exact .of_mark ht rfl
  · have hnone : Grammar.edgeDetail ts = none := rule_eq_none_iff.2 (seq_of_eq_none hopen _)
    rw [hmark, if_neg (by simp)]
    exact .inl ⟨[], ts, _, optional_of_eq_none hnone, rfl, by simp, fun direction => rfl⟩

/-- The arrow heads of an edge are the first and the last character of its text. -/
lemma buildEdge_eq {text : List Char} {left right : Bool} (hxs : ∀ x ∈ xs, x.rule = .edgeDetail)
    (hleft : (text.head? == some '<') = left) (hright : (text.getLast? == some '>') = right) :
    buildEdge ⟨.edgePattern, text, xs⟩
      = xs.foldlM buildDetail { direction := drawnDirection left right } := by
  rw [buildEdge, each_eq_self hxs]
  simp only [hleft, hright]
  cases left <;> cases right <;> rfl

/-- **An edge** is built as it is read. -/
lemma edge_pairs : PairsOne 0 edge Grammar.edgePattern .edgePattern buildEdge := by
  intro ts h
  obtain ⟨left, us, hsuffix, htail, htail', hhead⟩ := arrowTail_cases h
  have hus := h.of_suffix hsuffix
  simp only [edge, htail', Option.bind_eq_bind]
  rcases sign_cases .minus us with ⟨t, vs, rfl, ht, hminus, hmark⟩ | ⟨-, hminus, hmark⟩
  · simp only [hmark, Option.bind_some]
    rcases optionalDetail_cases hus.tail with ⟨xs, ws, r, hdetail, hread, hrules, hbuild⟩
      | ⟨hread, hdetail⟩
    · have hws := (optional Grammar.edgeDetail).suffix hdetail
      simp only [hread, Option.bind_some]
      rcases sign_cases .minus ws with ⟨u, ws, rfl, hu, hminus', hmark'⟩ | ⟨-, hminus', hmark'⟩
      · have hstrokes : Grammar.strokes ts = some (xs, ws) := by
          rw [Grammar.strokes, seq_of_eq_some htail, seq_of_eq_some hminus, seq_of_eq_some hdetail,
            seq_singleton, hminus']
          simp
        have hsuffix' : u :: ws <:+ ts := hws.trans ((List.suffix_cons t vs).trans hsuffix)
        obtain ⟨back, gap, rest, right, hback, hgreater, hpart, hlast⟩ :=
          edgePattern_of_strokes h hstrokes hsuffix' hu
        obtain ⟨c, cs, hcovered, hc⟩ :=
          hhead t vs back rfl ht (hback.trans ((List.suffix_cons u ws).trans hws))
        have hfirst : ((Piece.covered ts back ++ gap).head? == some '<') = left := by
          rw [hcovered]
          exact hc
        refine .inl ⟨_, rest, hpart, rfl, ?_⟩
        rw [buildEdge_eq hrules hfirst hlast, hbuild]
        simp only [hmark', Option.bind_some, hgreater]
      · refine .inr ⟨by rw [hmark']; rfl, halts_of_eq_none (edgePattern_of_none ?_)⟩
        rw [Grammar.strokes, seq_of_eq_some htail, seq_of_eq_some hminus, seq_of_eq_some hdetail,
          seq_singleton, hminus']
        rfl
    · refine .inr ⟨by rw [hread]; rfl, halts_of_eq_none (edgePattern_of_none ?_)⟩
      rw [Grammar.strokes, seq_of_eq_some htail, seq_of_eq_some hminus,
        hdetail.seq_eq_none (Blocks.seq (blocks_sign rfl) _)]
      rfl
  · refine .inr ⟨by rw [hmark]; rfl, halts_of_eq_none (edgePattern_of_none ?_)⟩
    rw [Grammar.strokes, seq_of_eq_some htail, seq_of_eq_none hminus]
    rfl

/-! ### Paths -/

/-- An edge and the node that it leads to. -/
def oneSegment : Part := seq [Grammar.edgePattern, Grammar.node]

lemma strokes_of_none (hless : Grammar.sign .less ts = none)
    (hminus : Grammar.sign .minus ts = none) :
    Grammar.strokes ts = none := by
  rw [Grammar.strokes, seq_of_eq_some (optional_of_eq_none hless), seq_of_eq_none hminus]
  rfl

lemma consumes_oneSegment : Consumes oneSegment :=
  consumes_seq_cons _ (Consumes.seq (((consumes_sign .openParen).seq _).rule _) _)

/-- What an edge starts with tells whether one has to follow. -/
lemma startsEdge_cases (ts : List Piece) :
    startsEdge (tokensOf ts) = true ∧ Stalled 2 ts
      ∨ startsEdge (tokensOf ts) = false ∧ Grammar.edgePattern ts = none := by
  rw [startsEdge, startsWithMark, startsWithMark]
  rcases sign_cases .less ts with ⟨t, us, rfl, ht, -, hmark⟩ | ⟨-, hless, hmark⟩
  · exact .inl ⟨by rw [hmark]; rfl, .of_mark ht rfl⟩
  · rcases sign_cases .minus ts with ⟨t, us, rfl, ht, -, hmark'⟩ | ⟨-, hminus, hmark'⟩
    · exact .inl ⟨by rw [hmark, hmark']; rfl, .of_mark ht rfl⟩
    · exact .inr ⟨by rw [hmark, hmark']; rfl, edgePattern_of_none (strokes_of_none hless hminus)⟩

/-- An edge and a node are added to a path as they are read, and then the path goes on. -/
lemma oneSegment_cases (h : IsCut ts) :
    (∃ xs us r, oneSegment ts = some (xs, us)
        ∧ (∀ path, xs.foldlM addToPath path
          = Except.map (fun s => (path.1 ++ [s.node], path.2 ++ [s.edge])) r)
        ∧ ∀ fuel, segments (fuel + 1) (tokensOf ts) = (segments fuel (tokensOf us)).map fun a =>
          ((do pure ((← r) :: (← a.1))), a.2))
      ∨ oneSegment ts = none
        ∧ (∀ fuel, segments (fuel + 1) (tokensOf ts) = some (.ok [], tokensOf ts))
      ∨ (∀ fuel, segments (fuel + 1) (tokensOf ts) = none) ∧ (many oneSegment).Halts 2 ts := by
  rcases startsEdge_cases ts with ⟨hstarts, hstalled⟩ | ⟨hstarts, hnone⟩
  · have hhalts : oneSegment ts = none → (many oneSegment).Halts 2 ts := fun hnone xs rest heq => by
      rw [many_of_eq_none consumes_oneSegment hnone] at heq
      cases heq
      exact hstalled
    have hsegments : ∀ fuel, segments (fuel + 1) (tokensOf ts) = (edge (tokensOf ts)).bind fun e =>
        (node e.2).bind fun n => (segments fuel n.2).bind fun more =>
          some ((do
            let edge ← e.1
            let node ← n.1
            pure ({ edge, node } :: (← more.1))), more.2) := fun fuel => by
      rw [segments, if_pos hstarts]
      rfl
    rcases edge_pairs h with ⟨x, us, hedge, hx, hread⟩ | ⟨hread, hedge⟩
    · have hus := h.of_suffix (Grammar.edgePattern.suffix hedge)
      rcases node_pairs hus with ⟨y, vs, hnode, hy, hread'⟩ | ⟨hread', hnode⟩
      · refine .inl ⟨[x, y], vs, (do pure { edge := ← buildEdge x, node := ← buildNode y }), ?_,
          fun path => ?_, fun fuel => ?_⟩
        · rw [oneSegment, seq_of_eq_some hedge, seq_singleton, hnode]
          rfl
        · rw [List.foldlM_cons, addToPath, hx]
          cases buildEdge x with
          | error f => rfl
          | ok edge =>
              change [y].foldlM addToPath (path.1, path.2 ++ [edge]) = _
              rw [foldlM_singleton, addToPath, hy]
              cases buildNode y <;> rfl
        · rw [hsegments]
          simp only [hread, hread', Option.bind_some]
          cases segments fuel (tokensOf vs) with
          | none => rfl
          | some a =>
              cases buildEdge x with
              | error f => rfl
              | ok edge => cases buildNode y <;> rfl
      · refine .inr (.inr ⟨fun fuel => ?_, hhalts ?_⟩)
        · simp only [hsegments, hread, hread', Option.bind_some, Option.bind_none]
        · rw [oneSegment, seq_of_eq_some hedge, seq_singleton, halts_zero_iff.1 hnode]
          rfl
    · refine .inr (.inr ⟨fun fuel => ?_, hhalts (seq_of_eq_none (halts_zero_iff.1 hedge) _)⟩)
      rw [hsegments, hread, Option.bind_none]
  · refine .inr (.inl ⟨seq_of_eq_none hnone _, fun fuel => ?_⟩)
    rw [segments, if_neg (by simp [hstarts])]

/-- Edges and nodes in turn are gathered as they are read. -/
lemma segments_folds : Folds 2 (fun ts => segments (ts.length + 1) ts) (many oneSegment) addToPath
    (List.foldl fun path s => (path.1 ++ [s.node], path.2 ++ [s.edge])) :=
  many_folds consumes_oneSegment oneSegment_cases

/-- Nodes and edges are gathered apart, each in its order. -/
lemma foldl_segments (nodes : List NodePattern) (edges : List EdgePattern) (ss : List Segment) :
    ss.foldl (fun path s => (path.1 ++ [s.node], path.2 ++ [s.edge])) (nodes, edges)
      = (nodes ++ ss.map Segment.node, edges ++ ss.map Segment.edge) := by
  induction ss generalizing nodes edges with
  | nil => simp
  | cons s ss ih => simp [ih]

/-- **A path** is built as it is read, its nodes and its edges put in turn. -/
lemma path_pairs : PairsOne 2 path Grammar.path .path buildPath := by
  intro ts h
  rw [path]
  rcases node_pairs h with ⟨x, us, hnode, hx, hread⟩ | ⟨hread, hnode⟩
  · have hus := h.of_suffix (Grammar.node.suffix hnode)
    simp only [hread, Option.bind_eq_bind, Option.bind_some]
    rcases segments_folds us hus with ⟨xs, rest, r, hmany, hread', hfold⟩ | ⟨hread', hmany⟩
    · have hseq : seq [Grammar.node, many oneSegment] ts = some (x :: xs, rest) := by
        rw [seq_of_eq_some hnode, seq_singleton, hmany]
        rfl
      refine .inl ⟨_, rest, rule_of_eq_some hseq, rfl, ?_⟩
      simp only [hread', Option.bind_some]
      rw [buildPath, List.foldlM_cons, addToPath, hx]
      cases buildNode x with
      | error f => rfl
      | ok start =>
          change _ = some (Except.bind (xs.foldlM addToPath ([start], [])) _, _)
          rw [hfold]
          cases r with
          | error f => rfl
          | ok ss =>
              have hzip : ((ss.map Segment.edge).zip (ss.map Segment.node)).map
                  (fun s => (⟨s.1, s.2⟩ : Segment)) = ss := by
                rw [List.zip_map', List.map_map]
                exact List.map_id ss
              rw [Except.map, foldl_segments]
              exact congrArg (fun ss =>
                some (Except.ok (PathPattern.mk start ss), tokensOf rest)) hzip.symm
    · refine .inr ⟨by simp only [hread', Option.bind_none], Halts.rule ?_ _⟩
      exact halts_seq_of_eq_some hnode (hmany.seq bars_nothing)
  · refine .inr ⟨by rw [hread]; rfl, halts_of_eq_none (rule_eq_none_iff.2 ?_)⟩
    exact seq_of_eq_none (halts_zero_iff.1 hnode) _

/-- **Paths between commas** are built as they are read. -/
lemma pattern_pairs : PairsOne 4 pattern Grammar.pattern .pattern buildPattern := by
  intro ts h
  rcases commaList_pairs path_pairs (by decide) h with
    ⟨xs, rest, hlist, hrules, hread⟩ | ⟨hread, hlist⟩
  · refine .inl ⟨_, rest, rule_of_eq_some hlist, rfl, ?_⟩
    rw [buildPattern, each_eq_self hrules]
    exact hread
  · exact .inr ⟨hread, hlist.rule _⟩

end CodeGraph.Cypher
