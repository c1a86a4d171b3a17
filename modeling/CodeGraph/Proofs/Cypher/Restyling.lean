import CodeGraph.Proofs.Cypher.Standing

/-!
Readers look neither into gaps nor at the case of keywords.

Of the gap in front of a token a reader sees whether it is empty, and, in front of the second word
of a text test, whether it is blank. Of a word that stands where a keyword may stand it sees which
keyword it spells. So two lists of tokens that differ only inside of gaps and in the spelling of
such words are read alike, step by step.

* `Restyled B s ts ts'`: such tokens, at a place where `s` is due; a text test whose blank gap is
  blank no more needs `B`. `Regapped B ts ts'`: with the same lexemes.
* `Follows B r r'`: the meaning stays, or, if `B`, it is lost to the fault of such a text test.
* `Agree B V s o o'`: two outcomes of a reader, with values that are related by `V` and rests that
  are restyled.
* `Restyled.mark_rel`, …, `Restyled.expression_rel`: the readers up to expressions, one lemma each.
-/

namespace CodeGraph.Cypher

/-! ### Tokens in another style -/

/-- The first word of a text test of two words. -/
def Lexeme.StartsTest (l : Lexeme) : Prop := l.keyword? = some .starts ∨ l.keyword? = some .ends

/-- A blank gap in front of the second word of a text test stays blank, unless `B`. -/
def KeepsBlank (B : Prop) (ts ts' : List Token) : Prop :=
  ∀ t ∈ ts.head?, ∀ t' ∈ ts'.head?, t.lexeme.keyword? = some .withWord → t.gap.all isBlank →
    t'.gap.all isBlank ∨ B

/-- Two spellings of one keyword. -/
def Lexeme.Respelled (l l' : Lexeme) : Prop := ∃ k, l.keyword? = some k ∧ l'.keyword? = some k

/-- The same lexemes but for the spelling of keywords, and gaps that are empty in the same places
and blank, unless `B`, in the text tests where they were blank. -/
inductive Restyled (B : Prop) : Stand → List Token → List Token → Prop
  | nil {s : Stand} : Restyled B s [] []
  | cons {s : Stand} {l l' : Lexeme} {g g' : List Char} {ts ts' : List Token}
      (hempty : g.isEmpty = g'.isEmpty)
      (hblank : l.StartsTest → KeepsBlank B ts ts') (hl : l = l' ∨ l.Respelled l'
        ∧ s.isName l ts = false)
      (h : Restyled B (s.next l) ts ts') : Restyled B s (⟨g, l⟩ :: ts) (⟨g', l'⟩ :: ts')

/-- The same lexemes, with gaps that are empty in the same places and blank, unless `B`, in the text
tests where they were blank. -/
inductive Regapped (B : Prop) : List Token → List Token → Prop
  | nil : Regapped B [] []
  | cons {l : Lexeme} {g g' : List Char} {ts ts' : List Token} (hempty : g.isEmpty = g'.isEmpty)
      (hblank : l.StartsTest → KeepsBlank B ts ts') (h : Regapped B ts ts') :
      Regapped B (⟨g, l⟩ :: ts) (⟨g', l⟩ :: ts')

/-- The meaning of a phrase stays, or, if `B`, it is lost to the fault of a text test. -/
def Follows (B : Prop) {α : Type} (r r' : Read α) : Prop :=
  ∀ a, r = .ok a → r' = .ok a ∨ B ∧ ∃ written, r' = .error (.unknownOperator written)

/-- Two outcomes of a reader: the values are related by `V`, the rests are restyled. -/
def Agree (B : Prop) {α : Type} (V : α → α → Prop) (s : Stand) :
    (o o' : Option (α × List Token)) → Prop :=
  Option.Rel fun p p' => V p.1 p'.1 ∧ Restyled B s p.2 p'.2

section Outcomes

variable {α β γ : Type} {R : α → α → Prop} {S : β → β → Prop} {o o' : Option α}

/-- Options related step by step. -/
lemma rel_bind {k k' : α → Option β} (h : Option.Rel R o o')
    (hk : ∀ a a', R a a' → Option.Rel S (k a) (k' a')) :
    Option.Rel S (o >>= k) (o' >>= k') := by
  cases h with
  | none => exact .none
  | some hr => exact hk _ _ hr

lemma rel_map {f f' : α → β} (h : Option.Rel R o o') (hf : ∀ a a', R a a' → S (f a) (f' a')) :
    Option.Rel S (o.map f) (o'.map f') := by
  cases h with
  | none => exact .none
  | some hr => exact .some (hf _ _ hr)

/-- Related options are both there or both missing. -/
lemma rel_cases (h : Option.Rel R o o') :
    (∃ a a', o = some a ∧ o' = some a' ∧ R a a') ∨ (o = none ∧ o' = none) := by
  cases h with
  | none => exact .inr ⟨rfl, rfl⟩
  | some hr => exact .inl ⟨_, _, rfl, rfl, hr⟩

end Outcomes

section Follows

variable {B : Prop} {α β : Type} {r r' : Read α}

lemma Follows.refl (r : Read α) : Follows B r r := fun _ h => .inl h

/-- Meanings that follow each other, step by step. -/
lemma Follows.bind {k k' : α → Read β} (h : Follows B r r') (hk : ∀ a, Follows B (k a) (k' a)) :
    Follows B (r >>= k) (r' >>= k') := by
  intro b hb
  cases r with
  | error f => cases hb
  | ok a =>
      rcases h a rfl with rfl | ⟨hB, w, rfl⟩
      · exact hk a b hb
      · exact .inr ⟨hB, w, rfl⟩

lemma Follows.map (h : Follows B r r') (f : α → β) : Follows B (r.map f) (r'.map f) := by
  intro b hb
  cases r with
  | error e => cases hb
  | ok a =>
      rcases h a rfl with rfl | ⟨hB, w, rfl⟩
      · exact .inl hb
      · exact .inr ⟨hB, w, rfl⟩

/-- A list and what stands in front of it. -/
lemma Follows.cons {rs rs' : Read (List α)} (h : Follows B r r') (hs : Follows B rs rs') :
    Follows B (do pure ((← r) :: (← rs))) (do pure ((← r') :: (← rs'))) :=
  h.bind fun _ => hs.bind fun _ => .refl _

end Follows

variable {B : Prop} {α : Type} {s : Stand} {ts ts' : List Token}

/-! ### Restyled tokens -/

lemma KeepsBlank.refl (ts : List Token) : KeepsBlank B ts ts := by
  rintro t ht t' ht' - hblank
  rw [Option.mem_unique ht ht'] at hblank
  exact .inl hblank

lemma Regapped.refl (ts : List Token) : Regapped B ts ts := by
  induction ts with
  | nil => exact .nil
  | cons t ts ih => exact .cons rfl (fun _ => .refl ts) ih

/-- Other gaps are another style. -/
lemma Regapped.restyled (h : Regapped B ts ts') : Restyled B s ts ts' := by
  induction h generalizing s with
  | nil => exact .nil
  | cons hempty hblank _ ih => exact .cons hempty hblank (.inl rfl) ih

lemma Restyled.length_eq (h : Restyled B s ts ts') : ts.length = ts'.length := by
  induction h with
  | nil => rfl
  | cons _ _ _ _ ih => rw [List.length_cons, List.length_cons, ih]

/-- Where a clause is due every keyword may be spelled in another way. -/
lemma Restyled.clause (h : Restyled B s ts ts') (hs : s.IsOpen) : Restyled B .clause ts ts' := by
  cases h with
  | nil => exact .nil
  | cons hempty hblank hl h =>
      rw [hs.next_eq] at h
      exact .cons hempty hblank (hl.imp_right fun hl => ⟨hl.1, rfl⟩) h

/-- Where an operand is due most calls are told from keywords. -/
lemma Restyled.of_operand (h : Restyled B .operand ts ts') (hs : s.IsOpen) :
    Restyled B s ts ts' := by
  cases h with
  | nil => exact .nil
  | @cons _ l _ _ _ ts _ hempty hblank hl h =>
      refine .cons hempty hblank (hl.imp_right fun hl => ⟨hl.1, ?_⟩) (by rwa [hs.next_eq])
      have hname := hl.2
      obtain rfl | rfl | rfl := hs
      · rfl
      · exact hname
      · simp only [Stand.isName, Bool.and_eq_false_iff] at hname ⊢
        exact hname.imp_left .inl

/-- Without `DISTINCT`, the first result is an operand like any other. -/
lemma Restyled.operand_of_result (h : Restyled B .result ts ts')
    (hdistinct : keyword .distinct ts = none) :
    Restyled B .operand ts ts' := by
  cases h with
  | nil => exact .nil
  | @cons _ l _ _ _ ts _ hempty hblank hl h =>
      refine .cons hempty hblank (hl.imp_right fun hl => ⟨hl.1, ?_⟩) h
      have hname := hl.2
      have hl : (l.keyword? != some .distinct) = true := by
        rw [bne_iff_ne]
        intro hl
        rw [keyword, if_pos hl] at hdistinct
        cases hdistinct
      rwa [Stand.isName, hl, Bool.and_true] at hname

/-! ### Single tokens -/

section Lexemes

variable {l l' : Lexeme}

/-- Both lexemes are words that spell the same keyword, if any, or they are the same and no word. -/
lemma lexeme_cases (h : l = l' ∨ l.Respelled l' ∧ s.isName l ts = false) :
    (∃ v w, l = .word v ∧ l' = .word w ∧ Keyword.ofWord? v = Keyword.ofWord? w ∧
      (v = w ∨ (Keyword.ofWord? v).isSome ∧ s.isName (.word v) ts = false)) ∨ l = l'
        ∧ ∀ w, l ≠ .word w := by
  obtain rfl | ⟨⟨k, hk, hk'⟩, hname⟩ := h
  · cases l with
    | word w => exact .inl ⟨w, w, rfl, rfl, rfl, .inl rfl⟩
    | _ => exact .inr ⟨rfl, fun _ => Lexeme.noConfusion⟩
  · obtain ⟨v, rfl, hv⟩ := Lexeme.exists_word_of_keyword? hk
    obtain ⟨w, rfl, hw⟩ := Lexeme.exists_word_of_keyword? hk'
    exact .inl ⟨v, w, rfl, rfl, hv.trans hw.symm, .inr ⟨by rw [hv]; rfl, hname⟩⟩

/-- A restyled word acts as the same keyword. -/
lemma keyword?_eq_of_restyled (h : l = l' ∨ l.Respelled l' ∧ s.isName l ts = false) :
    l.keyword? = l'.keyword? := by
  obtain rfl | ⟨⟨k, hk, hk'⟩, -⟩ := h
  · rfl
  · rw [hk, hk']

end Lexemes

/-- Signs are taken alike. -/
lemma Restyled.mark_rel (h : Restyled B s ts ts') (m : Mark) :
    Option.Rel (Restyled B (s.next (.mark m))) (mark m ts) (mark m ts') := by
  cases h with
  | nil => exact .none
  | @cons _ l l' _ _ _ _ _ _ hl h =>
      obtain ⟨v, w, rfl, rfl, -⟩ | ⟨rfl, -⟩ := lexeme_cases hl
      · exact .none
      · cases l with
        | mark n =>
            by_cases hn : n = m
            · subst hn
              rw [mark_cons, mark_cons]
              exact .some h
            · rw [mark_cons_of_ne hn, mark_cons_of_ne hn]
              exact .none
        | _ => exact .none

/-- Keywords are taken alike where a keyword may stand. -/
lemma Restyled.keyword_rel (h : Restyled B s ts ts') (hs : s.IsOpen) (k : Keyword) :
    Option.Rel (Restyled B k.next) (keyword k ts) (keyword k ts') := by
  cases h with
  | nil => exact .none
  | @cons _ l _ _ _ _ _ _ _ hl h =>
      rw [keyword, keyword, ← keyword?_eq_of_restyled hl]
      split_ifs with hk
      · rw [hs.next_eq, Lexeme.next_of_keyword? hk] at h
        exact .some h
      · exact .none

/-- Both texts start with a sign, or none of them does. -/
lemma Restyled.startsWithMark_eq (h : Restyled B s ts ts') (m : Mark) :
    startsWithMark m ts = startsWithMark m ts' := by
  rw [startsWithMark, startsWithMark]
  rcases rel_cases (h.mark_rel m) with ⟨_, _, e, e', -⟩ | ⟨e, e'⟩
  · rw [e, e', Option.isSome_some, Option.isSome_some]
  · rw [e, e']

lemma Restyled.startsWithKeyword_eq (h : Restyled B s ts ts') (hs : s.IsOpen) (k : Keyword) :
    startsWithKeyword k ts = startsWithKeyword k ts' := by
  rw [startsWithKeyword, startsWithKeyword]
  rcases rel_cases (h.keyword_rel hs k) with ⟨_, _, e, e', -⟩ | ⟨e, e'⟩
  · rw [e, e', Option.isSome_some, Option.isSome_some]
  · rw [e, e']

/-- A sign behind which there is a place like the one in front of it. -/
lemma Restyled.exists_optionalMark (h : Restyled B s ts ts') {m : Mark}
    (hm : ∀ {r r'}, Restyled B (s.next (.mark m)) r r' → Restyled B s r r') :
    ∃ b r r', optionalMark m ts = (b, r) ∧ optionalMark m ts' = (b, r') ∧ Restyled B s r r' := by
  rw [optionalMark, optionalMark]
  rcases rel_cases (h.mark_rel m) with ⟨r, r', e, e', hr⟩ | ⟨e, e'⟩ <;> rw [e, e']
  · exact ⟨_, _, _, rfl, rfl, hm hr⟩
  · exact ⟨_, _, _, rfl, rfl, h⟩

/-- A keyword behind which a clause or an operator is due. -/
lemma Restyled.exists_optionalKeyword (h : Restyled B .clause ts ts') (k : Keyword) :
    ∃ b r r', optionalKeyword k ts = (b, r) ∧ optionalKeyword k ts' = (b, r')
      ∧ Restyled B .clause r r' := by
  rw [optionalKeyword, optionalKeyword]
  rcases rel_cases (h.keyword_rel Stand.isOpen_clause k) with ⟨r, r', e, e', hr⟩
    | ⟨e, e'⟩ <;> rw [e, e']
  · exact ⟨_, _, _, rfl, rfl, hr.clause k.isOpen_next⟩
  · exact ⟨_, _, _, rfl, rfl, h⟩

/-- Variables are taken alike: a word that is no keyword is not restyled. -/
lemma Restyled.name_rel (h : Restyled B s ts ts') (hs : s.IsOpen) :
    Agree B Eq .clause (name ts) (name ts') := by
  cases h with
  | nil => exact .none
  | @cons _ l l' _ _ _ _ _ _ hl h =>
      have hname : l.name? = l'.name? := by
        obtain rfl | ⟨hl, -⟩ := hl
        · rfl
        · obtain ⟨k, hk, hk'⟩ := hl
          obtain ⟨v, rfl, hv⟩ := Lexeme.exists_word_of_keyword? hk
          obtain ⟨w, rfl, hw⟩ := Lexeme.exists_word_of_keyword? hk'
          simp [Lexeme.name?, hv, hw]
      rw [name, name, ← hname]
      cases hn : l.name? with
      | none => exact .none
      | some n =>
          rw [hs.next_eq, Lexeme.next_of_name? hn] at h
          exact .some ⟨rfl, h⟩

lemma Restyled.exists_optionalName (h : Restyled B .clause ts ts') :
    ∃ n r r', optionalName ts = (n, r) ∧ optionalName ts' = (n, r') ∧ Restyled B .clause r r' := by
  rw [optionalName, optionalName]
  rcases rel_cases (h.name_rel Stand.isOpen_clause) with ⟨⟨n, r⟩, ⟨_, r'⟩, e, e', rfl, hr⟩
    | ⟨e, e'⟩ <;> rw [e, e']
  · exact ⟨_, _, _, rfl, rfl, hr⟩
  · exact ⟨_, _, _, rfl, rfl, h⟩

/-- Where a name is due words are not respelled. -/
lemma Restyled.word_rel {t : Stand} (h : Restyled B s ts ts') (hs : ∀ l later, s.isName l later)
    (ht : ∀ w, s.next (.word w) = t) : Agree B Eq t (word ts) (word ts') := by
  cases h with
  | nil => exact .none
  | @cons _ l l' _ _ _ _ _ _ hl h =>
      obtain rfl | ⟨-, hname⟩ := hl
      · cases l with
        | word w =>
            rw [ht] at h
            exact .some ⟨rfl, h⟩
        | _ => exact .none
      · rw [hs] at hname
        cases hname

/-- Words that are names stay as they are. -/
lemma Restyled.label_rel (h : Restyled B .name ts ts') : Agree B Eq .clause (word ts) (word ts') :=
  h.word_rel (fun _ _ => rfl) fun _ => rfl

/-- Keys stay as they are. -/
lemma Restyled.key_rel (h : Restyled B .key ts ts') : Agree B Eq .key (word ts) (word ts') :=
  h.word_rel (fun _ _ => rfl) fun _ => rfl

/-- Literals are taken alike: those that are words keep their meaning in any case. -/
lemma Restyled.literal_rel {t : Stand} (h : Restyled B s ts ts')
    (ht : ∀ l, l.literal?.isSome → s.next l = t) :
    Agree B (Follows B) t (literal ts) (literal ts') := by
  cases h with
  | nil => exact .none
  | @cons _ l l' _ _ _ _ _ _ hl h =>
      have hliteral : l.literal? = l'.literal? := by
        obtain ⟨v, w, rfl, rfl, hk, -⟩ | ⟨rfl, -⟩ := lexeme_cases hl
        · rw [Lexeme.literal?, Lexeme.literal?, hk]
        · rfl
      rw [literal, literal, ← hliteral]
      cases hv : l.literal? with
      | none => exact .none
      | some v =>
          rw [ht l (by rw [hv]; rfl)] at h
          exact .some ⟨.refl v, h⟩

/-! ### Lists -/

/-- A phrase is read alike from restyled tokens, and a clause or an operator is due behind it. -/
def Phrase.IgnoresStyle (B : Prop) (s : Stand) (item : Phrase α) : Prop :=
  ∀ ⦃ts ts' : List Token⦄, Restyled B s ts ts' → Agree B (Follows B) .clause (item ts) (item ts')

/-- Lists are read alike if their items are. -/
lemma Phrase.IgnoresStyle.commaList {item : Phrase α} (hitem : item.IgnoresStyle B s)
    (hs : s.IsOpen) (fuel : Nat) :
    Phrase.IgnoresStyle B s (commaList item fuel) := by
  induction fuel with
  | zero => exact fun _ _ _ => .none
  | succ fuel ih =>
      intro ts ts' h
      refine rel_bind (hitem h) ?_
      rintro ⟨x, ts⟩ ⟨x', ts'⟩ ⟨hx, h⟩
      dsimp only at hx h ⊢
      rcases rel_cases (h.mark_rel .comma) with ⟨r, r', e, e', hr⟩ | ⟨e, e'⟩ <;> rw [e, e']
      · refine rel_bind (ih (hr.of_operand hs)) ?_
        rintro ⟨xs, ts⟩ ⟨xs', ts'⟩ ⟨hxs, h⟩
        exact .some ⟨hx.cons hxs, h⟩
      · exact .some ⟨hx.map _, h⟩

/-- Phrases between commas, with the tokens as fuel. -/
lemma Restyled.commaList_rel (h : Restyled B s ts ts') {item : Phrase α}
    (hitem : item.IgnoresStyle B s) (hs : s.IsOpen) :
    Agree B (Follows B) .clause (commaList item (ts.length + 1) ts)
      (commaList item (ts'.length + 1) ts') := by
  rw [h.length_eq]
  exact hitem.commaList hs _ h

/-! ### Operators -/

/-- The operator stays, and it is at fault only if it was before, or if `B`. -/
def WrittenOp.Follows (B : Prop) (op op' : WrittenOp) : Prop :=
  op.op = op'.op ∧ (op.fault = none → op'.fault = none ∨ B ∧ ∃ written,
    op'.fault = some (.unknownOperator written))

lemma WrittenOp.Follows.refl (op : WrittenOp) : WrittenOp.Follows B op op := ⟨rfl, .inl⟩

/-- Text tests of two words are read alike, but for what stands between the words. -/
lemma Restyled.textTest?_rel (h : Restyled B .clause ts ts') (hblank : KeepsBlank B ts ts')
    (op : TextTest) (first first' : String) :
    Agree B (WrittenOp.Follows B) .operand (textTest? op first ts) (textTest? op first' ts') := by
  cases h with
  | nil => exact .none
  | @cons _ l l' g g' _ _ _ _ hl h =>
      obtain ⟨v, w, rfl, rfl, hk, -⟩ | ⟨rfl, hword⟩ := lexeme_cases hl
      · by_cases hwith : Keyword.ofWord? v = some .withWord
        · have hgaps := hblank _ rfl _ rfl hwith
          rw [textTest?, textTest?, if_pos hwith, if_pos (hk ▸ hwith)]
          have hnext : (Lexeme.word v).next = .operand := Lexeme.next_word hwith
          refine .some ⟨⟨rfl, fun hfault => ?_⟩, hnext ▸ h⟩
          dsimp only at hfault hgaps ⊢
          have hg : g.all isBlank := by
            by_contra hg
            rw [if_neg hg] at hfault
            cases hfault
          rcases hgaps hg with hg' | hB
          · exact .inl (if_pos hg')
          · by_cases hg' : g'.all isBlank
            · exact .inl (if_pos hg')
            · exact .inr ⟨hB, _, if_neg hg'⟩
        · rw [textTest?, textTest?, if_neg hwith, if_neg (hk ▸ hwith)]
          exact .none
      · cases l with
        | word w => exact absurd rfl (hword w)
        | _ => exact .none

/-- Operators between operands are read alike. -/
lemma Restyled.binaryOp?_rel (h : Restyled B .clause ts ts') :
    Agree B (WrittenOp.Follows B) .operand (binaryOp? ts) (binaryOp? ts') := by
  cases h with
  | nil => exact .none
  | @cons _ l l' _ _ rest rest' _ hblank hl h =>
      obtain ⟨v, w, rfl, rfl, hk, -⟩ | ⟨rfl, hword⟩ := lexeme_cases hl
      · have hnext : ∀ k, Keyword.ofWord? v = some k → Restyled B k.next rest rest' :=
          fun _ hv => Lexeme.next_word hv ▸ h
        rw [binaryOp?, binaryOp?, ← hk]
        split
        · exact .some ⟨.refl _, hnext .and ‹_›⟩
        · exact .some ⟨.refl _, hnext .or ‹_›⟩
        · exact .some ⟨.refl _, hnext .xor ‹_›⟩
        · exact .some ⟨.refl _, hnext .contains ‹_›⟩
        · rename_i hv
          exact (hnext _ hv).textTest?_rel (hblank (.inl hv)) _ _ _
        · rename_i hv
          exact (hnext _ hv).textTest?_rel (hblank (.inr hv)) _ _ _
        · exact .none
      · cases l with
        | word w => exact absurd rfl (hword w)
        | mark m =>
            rw [binaryOp?, binaryOp?]
            cases hc : m.comparison? with
            | none => exact .none
            | some c =>
                have hnext : m.next = .operand := Mark.next_of_comparison? hc
                exact .some ⟨.refl _, hnext ▸ h⟩
        | _ => exact .none

/-- Tests for null are read alike. -/
lemma Restyled.nullTest?_rel (h : Restyled B .clause ts ts') :
    Agree B Eq .clause (nullTest? ts) (nullTest? ts') := by
  refine rel_bind (h.keyword_rel Stand.isOpen_clause .is) fun ts ts' h => ?_
  obtain ⟨negated, ts, ts', e, e', h⟩ := h.exists_optionalKeyword .not
  rw [e, e']
  exact rel_bind (h.keyword_rel Stand.isOpen_clause .null) fun ts ts' h => .some ⟨rfl, h⟩

lemma Follows.joinRead {op op' : WrittenOp} {l l' r r' : Read Expr} (hop : op.Follows B op')
    (hl : Follows B l l')
    (hr : Follows B r r') : Follows B (joinRead op l r) (joinRead op' l' r') := by
  refine hl.bind fun el => hr.bind fun er => ?_
  obtain ⟨hop, hfault⟩ := hop
  intro e he
  cases hf : op.fault with
  | some f =>
      rw [hf] at he
      cases he
  | none =>
      rcases hfault hf with hf' | ⟨hB, w, hf'⟩
      · rw [hf] at he
        rw [hf', ← hop]
        exact .inl he
      · exact .inr ⟨hB, w, by rw [hf']⟩

/-! ### Operands -/

/-- A dot and the word behind it. -/
lemma Restyled.exists_dot_word {gapDot gapWord : List Char} {text : String} {rest : List Token}
    (h : Restyled B .clause (⟨gapDot, .mark .dot⟩ :: ⟨gapWord, .word text⟩ :: rest) ts') :
    ∃ gapDot' gapWord' rest', ts' = ⟨gapDot', .mark .dot⟩ :: ⟨gapWord', .word text⟩ :: rest' ∧
      (gapDot.isEmpty && gapWord.isEmpty) = (gapDot'.isEmpty && gapWord'.isEmpty)
        ∧ Restyled B .clause rest rest' := by
  cases h with
  | cons hdot _ hl h =>
      obtain ⟨_, _, hdotted, -⟩ | ⟨rfl, -⟩ := lexeme_cases hl
      · cases hdotted
      · cases h with
        | cons hword _ hl h =>
            obtain rfl | ⟨-, hname⟩ := hl
            · exact ⟨_, _, _, rfl, by rw [hdot, hword], h⟩
            · cases hname

/-- Words behind dots stay as they are. -/
lemma Restyled.exists_dotted (h : Restyled B .clause ts ts') :
    ∃ ws r r', dotted ts = (ws, r) ∧ dotted ts' = (ws, r') ∧ Restyled B .clause r r' := by
  fun_induction dotted ts generalizing ts' with
  | case1 gapDot gapWord text rest hempty more r hrest ih =>
      obtain ⟨gapDot', gapWord', rest', rfl, hgaps, hrest'⟩ := h.exists_dot_word
      obtain ⟨ws, r, r', e, e', hr⟩ := ih hrest'
      rw [hrest] at e
      obtain ⟨rfl, rfl⟩ := Prod.mk.inj e
      exact ⟨_, _, _, rfl, by rw [dotted, if_pos (hgaps ▸ hempty), e'], hr⟩
  | case2 gapDot gapWord text rest hempty =>
      obtain ⟨gapDot', gapWord', rest', rfl, hgaps, -⟩ := h.exists_dot_word
      exact ⟨_, _, _, rfl, by rw [dotted, if_neg (hgaps ▸ hempty)], h⟩
  | case3 ts hdotted =>
      refine ⟨_, _, _, rfl, ?_, h⟩
      rw [dotted.eq_def]
      split
      · -- a dot and a word in the one list come from a dot and a word in the other
        rename_i gapDot gapWord text rest
        have hmark := h.mark_rel .dot
        rw [mark_cons] at hmark
        obtain ⟨r, _, e, e', hr⟩ | ⟨-, e'⟩ := rel_cases hmark
        · obtain ⟨g, rfl⟩ := mark_eq_some_iff.1 e
          obtain rfl := Option.some.inj e'
          have hword := hr.label_rel
          rw [word_cons] at hword
          obtain ⟨p, _, e, -, -⟩ | ⟨-, e'⟩ := rel_cases hword
          · obtain ⟨g', rfl⟩ := word_eq_some_iff.1 e
            exact absurd rfl (hdotted g g' p.1 p.2)
          · cases e'
        · cases e'
      · rfl

/-- Operands of one token are read alike. -/
lemma Restyled.atom_rel (h : Restyled B .operand ts ts') :
    Agree B (Follows B) .clause (atom ts) (atom ts') := by
  rw [atom, atom]
  rcases rel_cases (h.name_rel Stand.isOpen_operand) with ⟨⟨n, r⟩, ⟨_, r'⟩, e, e', rfl, hr⟩
    | ⟨e, e'⟩ <;> rw [e, e']
  · obtain ⟨ws, r, r', e, e', h⟩ := hr.exists_dotted
    dsimp only
    rw [e, e']
    rcases ws with _ | ⟨key, _ | ⟨more, ws⟩⟩
    · exact .some ⟨.refl _, h⟩
    · exact .some ⟨.refl _, h⟩
    · exact .none
  · have hliteral := h.literal_rel (t := .clause) fun l hl => Lexeme.next_of_literal? hl
    exact rel_map hliteral fun p p' hp => ⟨hp.1.map _, hp.2⟩

/-- Where an operand is due, the function of a call is a name. -/
lemma Restyled.callee?_rel (h : Restyled B .operand ts ts') (hnot : keyword .not ts = none) :
    Agree B Eq .operand (callee? ts) (callee? ts') := by
  cases h with
  | nil => exact .none
  | @cons _ l l' g g' rest rest' _ _ hl h =>
      obtain ⟨v, w, rfl, rfl, -, hvw⟩ | ⟨rfl, hword⟩ := lexeme_cases hl
      · obtain ⟨ws, r, r', e, e', hr⟩ := (h.clause (Lexeme.isOpen_next_word v)).exists_dotted
        rw [callee?_eq, callee?_eq, word_cons, word_cons, Option.bind_some, Option.bind_some]
        dsimp only
        rw [e, e']
        rcases rel_cases (hr.mark_rel .openParen) with ⟨q, q', eq, eq', hq⟩ | ⟨eq, eq'⟩ <;>
          rw [eq, eq']
        · have hname : Stand.operand.isName (.word v) rest = true := by
            have hv : (Lexeme.word v).keyword? ≠ some .not := by
              intro hv
              rw [keyword, if_pos hv] at hnot
              cases hnot
            rw [Stand.isName, callee?_eq, word_cons, Option.bind_some]
            dsimp only
            rw [e, eq, Option.map_some, Option.isSome_some, Bool.and_true]
            exact bne_iff_ne.2 hv
          obtain rfl | ⟨-, hname'⟩ := hvw
          · exact .some ⟨rfl, hq⟩
          · rw [hname] at hname'
            cases hname'
        · exact .none
      · have hnone : ∀ (g : List Char) (rest : List Token), callee? (⟨g, l⟩ :: rest) = none := by
          intro g rest
          rw [callee?_eq, word_eq_none_iff.2, Option.bind_none]
          rintro _ text _ heq
          exact hword text (Token.mk.inj (List.cons.inj heq).1).2
        rw [hnone, hnone]
        exact .none

/-! ### Expressions -/

/-- What the readers of expressions do with some fuel. -/
structure ExpressionsIgnoreStyle (B : Prop) (fuel : Nat) : Prop where
  operand (floor : Nat) : Phrase.IgnoresStyle B .operand (expressionAt fuel floor)
  continuation (floor : Nat) {left left' : Read Expr} (hleft : Follows B left left')
    {ts ts' : List Token}
    (h : Restyled B .clause ts ts') :
    Agree B (Follows B) .clause (extendAt fuel floor left ts) (extendAt fuel floor left' ts')
  arguments : Phrase.IgnoresStyle B .operand (argumentsAt fuel)
  moreArguments : Phrase.IgnoresStyle B .clause (moreArgumentsAt fuel)

lemma expressionsIgnoreStyle_zero : ExpressionsIgnoreStyle B 0 where
  operand _ _ _ _ := .none
  continuation _ _ _ _ _ _ _ := .none
  arguments _ _ _ := .none
  moreArguments _ _ _ := .none

/-- One more round of fuel, reader by reader. -/
lemma ExpressionsIgnoreStyle.succ {fuel : Nat} (ih : ExpressionsIgnoreStyle B fuel) :
    ExpressionsIgnoreStyle B (fuel + 1) where
  operand floor ts ts' h := by
    rw [expressionAt, expressionAt]
    rcases rel_cases (h.keyword_rel Stand.isOpen_operand .not) with ⟨r, r', e, e', hr⟩ | ⟨hnot, e'⟩
    · rw [e, e']
      refine rel_bind (ih.operand _ hr) ?_
      rintro ⟨x, ts⟩ ⟨x', ts'⟩ ⟨hx, h⟩
      exact ih.continuation floor (hx.map _) h
    · rw [hnot, e']
      rcases rel_cases (h.mark_rel .openParen) with ⟨r, r', e, e', hr⟩ | ⟨e, e'⟩ <;> rw [e, e']
      · refine rel_bind (ih.operand 0 hr) ?_
        rintro ⟨x, ts⟩ ⟨x', ts'⟩ ⟨hx, h⟩
        exact rel_bind (h.mark_rel .closeParen) fun ts ts' h => ih.continuation floor hx h
      · rcases rel_cases (h.callee?_rel hnot) with ⟨⟨f, r⟩, ⟨_, r'⟩, e, e', rfl, hr⟩
          | ⟨e, e'⟩ <;> rw [e, e']
        · refine rel_bind (ih.arguments hr) ?_
          rintro ⟨x, ts⟩ ⟨x', ts'⟩ ⟨hx, h⟩
          exact ih.continuation floor (hx.map _) h
        · refine rel_bind h.atom_rel ?_
          rintro ⟨x, ts⟩ ⟨x', ts'⟩ ⟨hx, h⟩
          exact ih.continuation floor hx h
  continuation floor left left' hleft ts ts' h := by
    rw [extendAt, extendAt]
    rcases rel_cases h.nullTest?_rel with ⟨⟨op, r⟩, ⟨_, r'⟩, e, e', rfl, hr⟩
      | ⟨e, e'⟩ <;> rw [e, e']
    · exact ih.continuation floor (hleft.map _) hr
    · rcases rel_cases h.binaryOp?_rel with ⟨⟨op, r⟩, ⟨op', r'⟩, e, e', hop, hr⟩
        | ⟨e, e'⟩ <;> rw [e, e']
      · dsimp only at hop hr ⊢
        rw [← hop.1]
        split_ifs
        · refine rel_bind (ih.operand _ hr) ?_
          rintro ⟨x, ts⟩ ⟨x', ts'⟩ ⟨hx, h⟩
          exact ih.continuation floor (hleft.joinRead hop hx) h
        · exact .some ⟨hleft, h⟩
      · exact .some ⟨hleft, h⟩
  arguments ts ts' h := by
    rw [argumentsAt, argumentsAt]
    rcases rel_cases (h.mark_rel .closeParen) with ⟨r, r', e, e', hr⟩ | ⟨e, e'⟩ <;> rw [e, e']
    · exact .some ⟨.refl _, hr⟩
    · refine rel_bind (ih.operand 0 h) ?_
      rintro ⟨x, ts⟩ ⟨x', ts'⟩ ⟨hx, h⟩
      refine rel_bind (ih.moreArguments h) ?_
      rintro ⟨xs, ts⟩ ⟨xs', ts'⟩ ⟨hxs, h⟩
      exact .some ⟨hx.cons hxs, h⟩
  moreArguments ts ts' h := by
    rw [moreArgumentsAt, moreArgumentsAt]
    rcases rel_cases (h.mark_rel .closeParen) with ⟨r, r', e, e', hr⟩ | ⟨e, e'⟩ <;> rw [e, e']
    · exact .some ⟨.refl _, hr⟩
    · refine rel_bind (h.mark_rel .comma) fun ts ts' h => ?_
      refine rel_bind (ih.operand 0 h) ?_
      rintro ⟨x, ts⟩ ⟨x', ts'⟩ ⟨hx, h⟩
      refine rel_bind (ih.moreArguments h) ?_
      rintro ⟨xs, ts⟩ ⟨xs', ts'⟩ ⟨hxs, h⟩
      exact .some ⟨hx.cons hxs, h⟩

/-- Expressions are read alike, as long as there is fuel. -/
lemma expressionsIgnoreStyle (fuel : Nat) : ExpressionsIgnoreStyle B fuel := by
  induction fuel with
  | zero => exact expressionsIgnoreStyle_zero
  | succ fuel ih => exact ih.succ

/-- **Expressions** are read alike in every style. -/
lemma Restyled.expression_rel (h : Restyled B .operand ts ts') :
    Agree B (Follows B) .clause (expression ts) (expression ts') := by
  rw [expression, expression, h.length_eq]
  exact (expressionsIgnoreStyle _).operand 0 h

end CodeGraph.Cypher
