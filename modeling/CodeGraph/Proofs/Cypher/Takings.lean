import CodeGraph.Proofs.Cypher.Restyling

/-!
What readers take off the front of some tokens.

Two things can be told from the tokens that a reader took, without knowing what it made of them.
Between the two words of a text test there are only blanks, unless the meaning is at fault. And if
no comment stands among the tokens, the meaning is at fault exactly if a number among them is out of
its range, and the fault is that of the first such number.

What follows a token matters in few places only: behind the first word of a text test, behind a
star, and behind the keywords of the clauses that count rows. So it is enough to know what a phrase
may start with.

* `faultOf`: the fault of a meaning.
* `Lexeme.fault?`, `firstFault?`: the faults of numbers, and the first one among some tokens.
* `Fits`, `Account`: two tokens next to each other, and what can be told of tokens that were taken.
* `Takes`, `TakesOpenly`: what a reader takes, with the fault of its meaning.
* `TakesOpenly.trans`, `TakesOpenly.of_mark`, `TakesOpenly.of_keyword`: how takings are put
  together.
* `Phrase.Fits`, `expression_fits`: the readers up to expressions.
-/

namespace CodeGraph.Cypher

variable {α β γ : Type} {ts us vs : List Token} {o o' : Option Fault}

/-! ### Faults of meanings -/

/-- The fault of a meaning. -/
def faultOf : Read α → Option Fault
  | .error f => some f
  | .ok _ => none

/-- What is made of a meaning has the faults of the meaning. -/
lemma faultOf_map (r : Read α) (f : α → β) : faultOf (r.map f) = faultOf r := by
  cases r <;> rfl

/-- The first fault of two parts. -/
lemma faultOf_bind {r : Read α} {k : α → Read β} (h : ∀ a, faultOf (k a) = o) :
    faultOf (r >>= k) = (faultOf r).or o := by
  cases r with
  | error f => rfl
  | ok a => exact h a

lemma faultOf_bind_pure (r : Read α) (f : α → β) :
    faultOf (r >>= fun a => pure (f a)) = faultOf r := by
  cases r <;> rfl

/-- The first fault of two parts that make up a whole. -/
lemma faultOf_join (r : Read α) (r' : Read β) (f : α → β → γ) :
    faultOf (do pure (f (← r) (← r'))) = (faultOf r).or (faultOf r') :=
  faultOf_bind fun _ => faultOf_bind_pure r' _

/-! ### Faults of numbers -/

/-- The fault of the number that a lexeme is, behind another lexeme. -/
def Lexeme.fault? (previous : Option Lexeme) : Lexeme → Option Fault
  | .integer negative digits =>
    if previous = some (.mark .star) then faultOf (readLength negative digits)
    else
      match previous.bind Lexeme.keyword? with
      | some .skip => faultOf (readCount "SKIP" negative digits)
      | some .limit => faultOf (readCount "LIMIT" negative digits)
      | _ => faultOf (readInteger negative digits)
  | .range low high => (faultOf (readBound low)).or (faultOf (readBound high))
  | _ => none

/-- The fault of the first number that is at fault, behind another lexeme. -/
def firstFault? (previous : Option Lexeme) : List Token → Option Fault
  | [] => none
  | t :: rest => (t.lexeme.fault? previous).or (firstFault? (some t.lexeme) rest)

/-- The keywords that bear on what is around them. -/
def Keyword.bearing : List Keyword := [.starts, .ends, .withWord, .skip, .limit]

/-- A lexeme that may stand behind everything: it is neither the second word of a text test nor an
integer. -/
structure Lexeme.Opens (l : Lexeme) : Prop where
  withWord : l.keyword? ≠ some .withWord
  integer : ∀ negative digits, l ≠ .integer negative digits

/-- A lexeme behind which a number is what it is alone. -/
structure Lexeme.Frees (l : Lexeme) : Prop where
  star : l ≠ .mark .star
  skip : l.keyword? ≠ some .skip
  limit : l.keyword? ≠ some .limit

/-- A lexeme that does not bear on what is around it. -/
structure Lexeme.IsInert (l : Lexeme) : Prop extends Opens l, Frees l where
  startsTest : ¬ l.StartsTest
  range : ∀ low high, l ≠ .range low high

namespace Lexeme

variable {l : Lexeme}

/-- The fault of what opens a part is not judged by what is in front. -/
lemma Opens.fault?_eq (h : l.Opens) (previous : Option Lexeme) :
    l.fault? previous = l.fault? none := by
  cases l with
  | integer negative digits => exact absurd rfl (h.integer negative digits)
  | _ => rfl

/-- Behind what frees, a lexeme has the fault that it has alone. -/
lemma Frees.fault?_eq (h : l.Frees) (next : Lexeme) : next.fault? (some l) = next.fault? none := by
  cases next with
  | integer negative digits =>
      have hstar : some l ≠ some (.mark .star) := fun hl => h.star (Option.some.inj hl)
      rw [fault?, fault?, if_neg hstar, if_neg (Option.some_ne_none _).symm]
      split
      · exact absurd ‹_› h.skip
      · exact absurd ‹_› h.limit
      · rfl
  | _ => rfl

lemma Frees.firstFault?_eq (h : l.Frees) (c : List Token) :
    firstFault? (some l) c = firstFault? none c := by
  cases c with
  | nil => rfl
  | cons t c => rw [firstFault?, firstFault?, h.fault?_eq]

/-- What is inert has no fault of its own. -/
lemma IsInert.fault?_eq_none (h : l.IsInert) (previous : Option Lexeme) :
    l.fault? previous = none := by
  cases l with
  | integer negative digits => exact absurd rfl (h.integer negative digits)
  | range low high => exact absurd rfl (h.range low high)
  | _ => rfl

/-- All signs but the star are inert. -/
lemma isInert_mark {m : Mark} (h : m ≠ .star) : IsInert (.mark m) where
  withWord := by simp [keyword?]
  integer _ _ := Lexeme.noConfusion
  star hm := h (Lexeme.mark.inj hm)
  skip := by simp [keyword?]
  limit := by simp [keyword?]
  startsTest := by simp [StartsTest, keyword?]
  range _ _ := Lexeme.noConfusion

/-- A word is inert unless it spells a keyword that bears on what is around it. -/
lemma isInert_word {w : String} (h : ∀ k ∈ Keyword.bearing, Keyword.ofWord? w ≠ some k) :
    IsInert (.word w) where
  withWord := h .withWord (by decide)
  integer _ _ := Lexeme.noConfusion
  star := Lexeme.noConfusion
  skip := h .skip (by decide)
  limit := h .limit (by decide)
  startsTest hstart := hstart.elim (h .starts (by decide)) (h .ends (by decide))
  range _ _ := Lexeme.noConfusion

/-- A keyword that bears on nothing. -/
lemma isInert_of_keyword? {k : Keyword} (h : l.keyword? = some k) (hk : k ∉ Keyword.bearing) :
    l.IsInert := by
  obtain ⟨w, rfl, hw⟩ := exists_word_of_keyword? h
  refine isInert_word fun k' hk' hw' => hk ?_
  rwa [Option.some.inj (hw.symm.trans hw')]

/-- Variables are inert. -/
lemma isInert_of_name? {n : String} (h : l.name? = some n) : l.IsInert := by
  have hnone := keyword?_of_name? h
  cases l with
  | word w => exact isInert_word fun k' _ hw => Option.some_ne_none k' (hw.symm.trans hnone)
  | _ => cases h

/-- Keywords have no fault of their own. -/
lemma fault?_of_keyword? {k : Keyword} (h : l.keyword? = some k) (previous : Option Lexeme) :
    l.fault? previous = none := by
  obtain ⟨w, rfl, -⟩ := exists_word_of_keyword? h
  rfl

/-- Every keyword but `WITH` opens a part. -/
lemma opens_of_keyword? {k : Keyword} (h : l.keyword? = some k) (hk : k ≠ .withWord) : l.Opens where
  withWord hwith := hk (Option.some.inj (h.symm.trans hwith))
  integer negative digits hl := by rw [hl] at h; cases h

lemma frees_of_withWord (h : l.keyword? = some .withWord) : l.Frees where
  star hl := by rw [hl] at h; cases h
  skip := by rw [h]; decide
  limit := by rw [h]; decide

end Lexeme

/-! ### What can be told of tokens -/

/-- The second word of a text test has a blank gap in front of it. -/
def Fits (t u : Token) : Prop :=
  t.lexeme.StartsTest → u.lexeme.keyword? = some .withWord → u.gap.all isBlank

/-- Tokens that were taken, and the fault of what was made of them. -/
structure Account (c : List Token) (o : Option Fault) : Prop where
  fits : o = none → c.IsChain Fits
  first : (∀ t ∈ c, t.gap.all isBlank) → firstFault? none c = o

/-- The first fault of tokens, behind those that were taken before. -/
lemma firstFault?_append {c c' : List Token} (hopen : ∀ t ∈ c'.head?, t.lexeme.Opens)
    (previous : Option Lexeme) :
    firstFault? previous (c ++ c') = (firstFault? previous c).or (firstFault? none c') := by
  induction c generalizing previous with
  | nil =>
      cases c' with
      | nil => rfl
      | cons t c' =>
          rw [List.nil_append, firstFault?, firstFault?, (hopen t rfl).fault?_eq, firstFault?,
            Option.none_or]
  | cons t c ih => rw [List.cons_append, firstFault?, firstFault?, ih, Option.or_assoc]

/-- Accounts are put together where the second part opens one. -/
lemma Account.append {c c' : List Token} (h : Account c o) (h' : Account c' o')
    (hopen : ∀ t ∈ c'.head?, t.lexeme.Opens) : Account (c ++ c') (o.or o') where
  fits hnone := by
    obtain ⟨ho, ho'⟩ := Option.or_eq_none_iff.1 hnone
    exact (h.fits ho).append (h'.fits ho') fun t _ u hu _ hwith =>
      absurd hwith (hopen u hu).withWord
  first hblank := by
    rw [firstFault?_append hopen, h.first fun t ht => hblank t (List.mem_append_left _ ht),
      h'.first fun t ht => hblank t (List.mem_append_right _ ht)]

/-- What is taken off the front of some tokens, and the fault of what was made of it. -/
def Takes (ts us : List Token) (o : Option Fault) : Prop := ∃ c, ts = c ++ us ∧ Account c o

/-- What is taken may moreover stand behind everything. -/
def TakesOpenly (ts us : List Token) (o : Option Fault) : Prop :=
  ∃ c, ts = c ++ us ∧ Account c o ∧ ∀ t ∈ c.head?, t.lexeme.Opens

lemma TakesOpenly.takes (h : TakesOpenly ts us o) : Takes ts us o :=
  let ⟨c, hc, haccount, _⟩ := h
  ⟨c, hc, haccount⟩

lemma TakesOpenly.refl (ts : List Token) : TakesOpenly ts ts none :=
  ⟨[], rfl, ⟨fun _ => .nil, fun _ => rfl⟩, by simp⟩

/-- What is taken, and then more of it. -/
lemma Takes.trans (h : Takes ts us o) (h' : TakesOpenly us vs o') : Takes ts vs (o.or o') := by
  obtain ⟨c, rfl, hc⟩ := h
  obtain ⟨c', rfl, hc', hopen⟩ := h'
  exact ⟨c ++ c', by rw [List.append_assoc], hc.append hc' hopen⟩

lemma TakesOpenly.trans (h : TakesOpenly ts us o) (h' : TakesOpenly us vs o') :
    TakesOpenly ts vs (o.or o') := by
  obtain ⟨c, rfl, hc, hopen⟩ := h
  obtain ⟨c', rfl, hc', hopen'⟩ := h'
  refine ⟨c ++ c', by rw [List.append_assoc], hc.append hc' hopen', ?_⟩
  cases c with
  | nil => exact hopen'
  | cons t c => exact hopen

/-- Nothing is at fault in what follows. -/
lemma Takes.trail (h : Takes ts us o) (h' : TakesOpenly us vs none) : Takes ts vs o := by
  have hall := h.trans h'
  rwa [Option.or_none] at hall

/-- What has no fault may stand behind. -/
lemma TakesOpenly.trail (h : TakesOpenly ts us o) (h' : TakesOpenly us vs none) :
    TakesOpenly ts vs o := by
  have hall := h.trans h'
  rwa [Option.or_none] at hall

/-- A token that bears on nothing may stand in front of everything. -/
lemma TakesOpenly.cons {t : Token} (ht : t.lexeme.IsInert) (h : Takes ts us o) :
    TakesOpenly (t :: ts) us o := by
  obtain ⟨c, rfl, hc⟩ := h
  refine ⟨t :: c, rfl, ⟨fun hnone => ?_, fun hblank => ?_⟩, ?_⟩
  · exact List.isChain_cons.2 ⟨fun u _ hstart => absurd hstart ht.startsTest, hc.fits hnone⟩
  · rw [firstFault?, ht.fault?_eq_none, Option.none_or, ht.firstFault?_eq]
    exact hc.first fun u hu => hblank u (List.mem_cons_of_mem _ hu)
  · rintro u hu
    rw [← Option.some.inj hu]
    exact ht.toOpens

/-- A single token. -/
lemma takes_cons (t : Token) (ts : List Token) : Takes (t :: ts) ts (t.lexeme.fault? none) :=
  ⟨[t], rfl, ⟨fun _ => .singleton t, fun _ => Option.or_none⟩⟩

/-! ### Single tokens -/

lemma TakesOpenly.of_mark {m : Mark} (h : mark m ts = some us) (h' : Takes us vs o)
    (hm : m ≠ .star) :
    TakesOpenly ts vs o := by
  obtain ⟨g, rfl⟩ := mark_eq_some_iff.1 h
  exact .cons (Lexeme.isInert_mark hm) h'

/-- A keyword that bears on nothing. -/
lemma TakesOpenly.of_keyword {k : Keyword} (h : keyword k ts = some us) (h' : Takes us vs o)
    (hk : k ∉ Keyword.bearing) : TakesOpenly ts vs o := by
  obtain ⟨t, rfl, ht⟩ := keyword_eq_some_iff.1 h
  exact .cons (Lexeme.isInert_of_keyword? ht hk) h'

/-- A sign has no fault. -/
lemma mark_takes {m : Mark} (h : mark m ts = some us) (hm : m ≠ .star) : TakesOpenly ts us none :=
  .of_mark h (TakesOpenly.refl us).takes hm

/-- A keyword has no fault. -/
lemma keyword_takes {k : Keyword} (h : keyword k ts = some us) (hk : k ∉ Keyword.bearing) :
    TakesOpenly ts us none :=
  .of_keyword h (TakesOpenly.refl us).takes hk

/-- A sign that may be left out has no fault. -/
lemma optionalMark_takes {m : Mark} (hm : m ≠ .star) (ts : List Token) :
    TakesOpenly ts (optionalMark m ts).2 none := by
  rw [optionalMark]
  split
  · rename_i h
    exact mark_takes h hm
  · exact .refl ts

lemma Takes.of_optionalMark {m : Mark} (h : Takes (Cypher.optionalMark m ts).2 us o)
    (hm : m ≠ .star) :
    Takes ts us o := by
  rw [Cypher.optionalMark] at h
  split at h
  · rename_i hmark
    exact (TakesOpenly.of_mark hmark h hm).takes
  · exact h

lemma optionalKeyword_takes {k : Keyword} (hk : k ∉ Keyword.bearing) (ts : List Token) :
    TakesOpenly ts (optionalKeyword k ts).2 none := by
  rw [optionalKeyword]
  split
  · rename_i h
    exact keyword_takes h hk
  · exact .refl ts

lemma Takes.of_optionalKeyword {k : Keyword} (h : Takes (Cypher.optionalKeyword k ts).2 us o)
    (hk : k ∉ Keyword.bearing) : Takes ts us o := by
  rw [Cypher.optionalKeyword] at h
  split at h
  · rename_i hkeyword
    exact (TakesOpenly.of_keyword hkeyword h hk).takes
  · exact h

/-- A variable has no fault. -/
lemma name_takes {p : String × List Token} (h : name ts = some p) : TakesOpenly ts p.2 none := by
  obtain ⟨t, rfl, ht⟩ := name_eq_some_iff.1 h
  exact .cons (Lexeme.isInert_of_name? ht) (TakesOpenly.refl _).takes

lemma optionalName_takes (ts : List Token) : TakesOpenly ts (optionalName ts).2 none := by
  rw [optionalName]
  split
  · rename_i h
    exact name_takes h
  · exact .refl ts

/-- A word has no fault. It may be `WITH`, so it need not open a part. -/
lemma word_takes {p : String × List Token} (h : word ts = some p) : Takes ts p.2 none := by
  obtain ⟨g, rfl⟩ := word_eq_some_iff.1 h
  exact takes_cons _ _

/-- A literal tells its own fault. -/
lemma literal_takes {p : Read Property × List Token} (h : literal ts = some p) :
    Takes ts p.2 (faultOf p.1) := by
  cases ts with
  | nil => cases h
  | cons t ts =>
      obtain ⟨v, hv, rfl⟩ := Option.map_eq_some_iff.1 h
      have hfault : t.lexeme.fault? none = faultOf v := by
        cases hl : t.lexeme <;> rw [hl, Lexeme.literal?.eq_def] at hv
        case integer negative digits =>
          rw [← Option.some.inj hv, faultOf_map]
          rfl
        case word text =>
          dsimp only at hv
          split at hv <;> cases hv <;> rfl
        all_goals cases hv <;> rfl
      rw [← hfault]
      exact takes_cons t ts

/-! ### Lists -/

/-- A phrase takes tokens that tell the fault of its meaning. -/
def Phrase.Fits (item : Phrase α) : Prop :=
  ∀ ⦃ts us r⦄, item ts = some (r, us) → Takes ts us (faultOf r)

lemma Phrase.Fits.takes_map {item : Phrase α} (hitem : item.Fits) {f : α → β} {r : Read β}
    (h : (item ts).map (fun p => (p.1.map f, p.2)) = some (r, us)) : Takes ts us (faultOf r) := by
  obtain ⟨⟨s, vs⟩, hs, heq⟩ := Option.map_eq_some_iff.1 h
  obtain ⟨rfl, rfl⟩ := Prod.mk.inj heq
  rw [faultOf_map]
  exact hitem hs

/-- A list tells the first fault among its items. -/
lemma Phrase.Fits.commaList {item : Phrase α} (hitem : item.Fits) (fuel : Nat) :
    Phrase.Fits (commaList item fuel) := by
  induction fuel with
  | zero => exact fun _ _ _ h => nomatch h
  | succ fuel ih =>
      intro ts us r h
      obtain ⟨⟨x, rest⟩, hx, h⟩ := Option.bind_eq_some_iff.1 h
      dsimp only at h
      split at h
      · rename_i rest' hcomma
        obtain ⟨⟨xs, rest''⟩, hxs, h⟩ := Option.bind_eq_some_iff.1 h
        obtain ⟨rfl, rfl⟩ := Prod.mk.inj (Option.some.inj h)
        rw [faultOf_join]
        exact (hitem hx).trans (.of_mark hcomma (ih hxs) (by decide))
      · obtain ⟨rfl, rfl⟩ := Prod.mk.inj (Option.some.inj h)
        rw [faultOf_map]
        exact hitem hx

/-! ### Expressions -/

/-- The two words of a text test, which is at fault if the gap between them is not blank. -/
lemma exists_of_textTest? {test : TextTest} {first : String} {op : WrittenOp}
    (h : textTest? test first ts = some (op, us)) :
    ∃ u, ts = u :: us ∧ u.lexeme.keyword? = some .withWord
      ∧ (op.fault = none ↔ u.gap.all isBlank) := by
  rw [textTest?.eq_def] at h
  split at h
  · rename_i g second rest
    split_ifs at h with hwith hblank
    · obtain ⟨rfl, rfl⟩ := Prod.mk.inj (Option.some.inj h)
      exact ⟨_, rfl, hwith, by simp [hblank]⟩
    · obtain ⟨rfl, rfl⟩ := Prod.mk.inj (Option.some.inj h)
      exact ⟨_, rfl, hwith, by simp [hblank]⟩
  · cases h

/-- The two words of a text test, with anything behind them. -/
lemma textTest?_takes {t : Token} {test : TextTest} {first : String} {op : WrittenOp}
    (hstart : t.lexeme.StartsTest)
    (h : textTest? test first ts = some (op, us)) (h' : Takes us vs o) :
    TakesOpenly (t :: ts) vs (o.or op.fault) := by
  obtain ⟨u, rfl, hwith, hgap⟩ := exists_of_textTest? h
  obtain ⟨c, rfl, hc⟩ := h'
  have hu : ¬ u.lexeme.StartsTest := by
    rintro (h | h) <;> rw [hwith] at h <;> cases h
  refine ⟨t :: u :: c, rfl, ⟨fun hnone => ?_, fun hblank => ?_⟩, ?_⟩
  · obtain ⟨ho, hop⟩ := Option.or_eq_none_iff.1 hnone
    refine .cons_cons (fun _ _ => hgap.1 hop) ?_
    exact List.isChain_cons.2 ⟨fun w _ hw => absurd hw hu, hc.fits ho⟩
  · have hop : op.fault = none := hgap.2 (hblank u (by simp))
    have hrest := hc.first fun w hw => hblank w (by simp [hw])
    obtain ⟨k, hk⟩ : ∃ k, t.lexeme.keyword? = some k := hstart.elim (⟨_, ·⟩) (⟨_, ·⟩)
    rw [firstFault?, firstFault?, Lexeme.fault?_of_keyword? hk, Lexeme.fault?_of_keyword? hwith,
      (Lexeme.frees_of_withWord hwith).firstFault?_eq, hrest, hop, Option.none_or, Option.none_or,
        Option.or_none]
  · rintro w hw
    rw [← Option.some.inj hw]
    exact hstart.elim
      (Lexeme.opens_of_keyword? · (by decide)) (Lexeme.opens_of_keyword? · (by decide))

/-- An operator tells its own fault last: those of the operand behind it come first. -/
lemma binaryOp?_takes {op : WrittenOp} (h : binaryOp? ts = some (op, us)) (h' : Takes us vs o) :
    TakesOpenly ts vs (o.or op.fault) := by
  rw [binaryOp?.eq_def] at h
  split at h
  · rename_i g m rest
    obtain ⟨c, hc, heq⟩ := Option.map_eq_some_iff.1 h
    obtain ⟨rfl, rfl⟩ := Prod.mk.inj heq
    rw [Option.or_none]
    refine .of_mark (mark_cons m g rest) h' ?_
    rintro rfl
    cases hc
  · rename_i g text rest
    have hword : ∀ {k : Keyword} {b : BinaryOp}, Keyword.ofWord? text = some k →
        k ∉ Keyword.bearing →
        some ((⟨b, none⟩ : WrittenOp), rest) = some (op, us) →
        TakesOpenly (⟨g, .word text⟩ :: rest) vs (o.or op.fault) := by
      intro k b hk hbearing h
      obtain ⟨rfl, rfl⟩ := Prod.mk.inj (Option.some.inj h)
      rw [Option.or_none]
      exact .of_keyword (keyword_eq_some_iff.2 ⟨_, rfl, hk⟩) h' hbearing
    split at h
    · exact hword ‹_› (by decide) h
    · exact hword ‹_› (by decide) h
    · exact hword ‹_› (by decide) h
    · exact hword ‹_› (by decide) h
    · exact textTest?_takes (.inl ‹_›) h h'
    · exact textTest?_takes (.inr ‹_›) h h'
    · cases h
  · cases h

/-- The fault of the operator itself comes last. -/
lemma faultOf_joinRead (op : WrittenOp) (l r : Read Expr) :
    faultOf (joinRead op l r) = (faultOf l).or ((faultOf r).or op.fault) := by
  refine faultOf_bind fun a => faultOf_bind fun b => ?_
  cases op.fault <;> rfl

/-- A test for null has no fault. -/
lemma nullTest?_takes {p : UnaryOp × List Token} (h : nullTest? ts = some p) :
    TakesOpenly ts p.2 none := by
  obtain ⟨us, his, h⟩ := Option.bind_eq_some_iff.1 h
  obtain ⟨negated, vs, hnot⟩ : ∃ b r, optionalKeyword .not us = (b, r) := ⟨_, _, rfl⟩
  rw [hnot] at h
  obtain ⟨ws, hnull, h⟩ := Option.bind_eq_some_iff.1 h
  obtain rfl := Option.some.inj h
  have hopt := optionalKeyword_takes (k := .not) (by decide) us
  rw [hnot] at hopt
  exact ((keyword_takes his (by decide)).trans hopt).trans (keyword_takes hnull (by decide))

/-- Words behind dots have no fault. -/
lemma dotted_takes (ts : List Token) : TakesOpenly ts (dotted ts).2 none := by
  fun_induction dotted ts with
  | case1 gapDot gapWord text rest hempty more r hrest ih =>
      rw [hrest] at ih
      exact .of_mark (mark_cons .dot gapDot _) ((takes_cons _ _).trans ih) (by decide)
  | case2 => exact .refl _
  | case3 => exact .refl _

/-- An operand of one token tells the fault of its literal. -/
lemma atom_takes {p : Read Expr × List Token} (h : atom ts = some p) :
    Takes ts p.2 (faultOf p.1) := by
  rw [atom] at h
  split at h
  · rename_i owner rest hname
    have hdotted := dotted_takes rest
    split at h
    · rename_i r e
      obtain rfl := Option.some.inj h
      rw [e] at hdotted
      exact ((name_takes hname).trans hdotted).takes
    · rename_i key r e
      obtain rfl := Option.some.inj h
      rw [e] at hdotted
      exact ((name_takes hname).trans hdotted).takes
    · cases h
  · obtain ⟨q, hq, rfl⟩ := Option.map_eq_some_iff.1 h
    rw [faultOf_map]
    exact literal_takes hq

/-- A function may be called like a keyword. -/
lemma callee?_takes {p : String × List Token} (h : callee? ts = some p) (h' : Takes p.2 vs o) :
    Takes ts vs o := by
  rw [callee?_eq] at h
  obtain ⟨q, hword, h⟩ := Option.bind_eq_some_iff.1 h
  obtain ⟨rest, hparen, rfl⟩ := Option.map_eq_some_iff.1 h
  exact ((word_takes hword).trans (dotted_takes q.2)).trans (.of_mark hparen h' (by decide))

/-- What the readers of expressions do with some fuel. -/
structure ExpressionsFit (fuel : Nat) : Prop where
  operand (floor : Nat) : Phrase.Fits (expressionAt fuel floor)
  continuation {floor : Nat} {left : Read Expr} {ts us : List Token} {r : Read Expr}
    (h : extendAt fuel floor left ts = some (r, us)) : ∃ o, faultOf r = (faultOf left).or o
      ∧ TakesOpenly ts us o
  arguments : Phrase.Fits (argumentsAt fuel)
  moreArguments {ts us : List Token} {r : Read (List Expr)}
    (h : moreArgumentsAt fuel ts = some (r, us)) :
    TakesOpenly ts us (faultOf r)

lemma expressionsFit_zero : ExpressionsFit 0 where
  operand _ _ _ _ h := nomatch h
  continuation h := nomatch h
  arguments _ _ _ h := nomatch h
  moreArguments h := nomatch h

/-- One more round of fuel, reader by reader. -/
lemma ExpressionsFit.succ {fuel : Nat} (ih : ExpressionsFit fuel) : ExpressionsFit (fuel + 1) where
  operand floor ts us r h := by
    rw [expressionAt] at h
    split at h
    · rename_i rest hnot
      obtain ⟨⟨x, r'⟩, hx, h⟩ := Option.bind_eq_some_iff.1 h
      obtain ⟨o, ho, htakes⟩ := ih.continuation h
      rw [ho, faultOf_map]
      exact ((TakesOpenly.of_keyword hnot (ih.operand _ hx) (by decide)).trans htakes).takes
    · split at h
      · rename_i rest _ hparen
        obtain ⟨⟨x, r'⟩, hx, h⟩ := Option.bind_eq_some_iff.1 h
        obtain ⟨r'', hclose, h⟩ := Option.bind_eq_some_iff.1 h
        obtain ⟨o, ho, htakes⟩ := ih.continuation h
        rw [ho]
        exact (((TakesOpenly.of_mark hparen (ih.operand _ hx) (by decide)).trail
          (mark_takes hclose (by decide))).trans htakes).takes
      · rename_i function rest _ hcallee
        obtain ⟨⟨x, r'⟩, hx, h⟩ := Option.bind_eq_some_iff.1 h
        obtain ⟨o, ho, htakes⟩ := ih.continuation h
        rw [ho, faultOf_map]
        exact (callee?_takes hcallee (ih.arguments hx)).trans htakes
      · obtain ⟨⟨x, r'⟩, hx, h⟩ := Option.bind_eq_some_iff.1 h
        obtain ⟨o, ho, htakes⟩ := ih.continuation h
        rw [ho]
        exact (atom_takes hx).trans htakes
  continuation {floor left ts us r} h := by
    rw [extendAt] at h
    split at h
    · rename_i op rest hnull
      obtain ⟨o, ho, htakes⟩ := ih.continuation h
      exact ⟨o, by rw [ho, faultOf_map], (nullTest?_takes hnull).trans htakes⟩
    · split at h
      · rename_i op rest hop
        split_ifs at h
        · obtain ⟨⟨x, r'⟩, hx, h⟩ := Option.bind_eq_some_iff.1 h
          obtain ⟨o, ho, htakes⟩ := ih.continuation h
          refine ⟨_, ?_, (binaryOp?_takes hop (ih.operand _ hx)).trans htakes⟩
          rw [ho, faultOf_joinRead, Option.or_assoc]
        · obtain ⟨rfl, rfl⟩ := Prod.mk.inj (Option.some.inj h)
          exact ⟨none, Option.or_none.symm, .refl _⟩
      · obtain ⟨rfl, rfl⟩ := Prod.mk.inj (Option.some.inj h)
        exact ⟨none, Option.or_none.symm, .refl _⟩
  arguments ts us r h := by
    rw [argumentsAt] at h
    split at h
    · rename_i rest hclose
      obtain ⟨rfl, rfl⟩ := Prod.mk.inj (Option.some.inj h)
      exact (mark_takes hclose (by decide)).takes
    · obtain ⟨⟨x, r'⟩, hx, h⟩ := Option.bind_eq_some_iff.1 h
      obtain ⟨⟨xs, r''⟩, hxs, h⟩ := Option.bind_eq_some_iff.1 h
      obtain ⟨rfl, rfl⟩ := Prod.mk.inj (Option.some.inj h)
      rw [faultOf_join]
      exact (ih.operand _ hx).trans (ih.moreArguments hxs)
  moreArguments {ts us r} h := by
    rw [moreArgumentsAt] at h
    split at h
    · rename_i rest hclose
      obtain ⟨rfl, rfl⟩ := Prod.mk.inj (Option.some.inj h)
      exact mark_takes hclose (by decide)
    · obtain ⟨rest, hcomma, h⟩ := Option.bind_eq_some_iff.1 h
      obtain ⟨⟨x, r'⟩, hx, h⟩ := Option.bind_eq_some_iff.1 h
      obtain ⟨⟨xs, r''⟩, hxs, h⟩ := Option.bind_eq_some_iff.1 h
      obtain ⟨rfl, rfl⟩ := Prod.mk.inj (Option.some.inj h)
      rw [faultOf_join]
      exact (TakesOpenly.of_mark hcomma (ih.operand _ hx) (by decide)).trans (ih.moreArguments hxs)

/-- Expressions tell the first fault among their operands and operators. -/
lemma expressionsFit (fuel : Nat) : ExpressionsFit fuel := by
  induction fuel with
  | zero => exact expressionsFit_zero
  | succ fuel ih => exact ih.succ

lemma expression_fits : Phrase.Fits expression := fun _ _ _ h => (expressionsFit _).operand 0 h

end CodeGraph.Cypher
