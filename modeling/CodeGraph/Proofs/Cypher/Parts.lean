import CodeGraph.Proofs.Cypher.Pieces
import CodeGraph.Proofs.Cypher.Readers

/-!
Parts of the grammar beside readers.

A reader looks at tokens and knows from the first of them what has to follow; a part of the grammar
looks at pieces, tries what it is made of in turn, and passes over what is only begun. Both go
together: what a reader answers is built of the pairs that the part makes of the same tokens. Where
the reader answers nothing, the part may still be made up, but then it stops in front of what it
passed over, and no part that may follow takes that up.

* `Part.seq_cons`, `Part.choice_cons`, `Part.optional_eq`, `Part.many_eq`: what parts are made of.
* `Part.Consumes`: a part that takes a piece at least.
* `tokensOf`, `sign_cases`, `keyword_cases`, `variableName_cases`, `word_cases`: single tokens.
* `Stalled`, `Part.Halts`: a part that stops in front of what was only begun. `Part.Bars`,
  `Part.Blocks`: parts that do not take it up.
* `PairsOne`: a reader and a part that go together.
-/

namespace CodeGraph.Cypher

variable {ts us rest : List Piece} {xs ys : List Pair}

/-! ### What parts are made of -/

namespace Part

variable {p q : Part} {ps : List Part} {r : Rule}

lemma seq_nil (ts : List Piece) : seq [] ts = some ([], ts) := rfl

/-- A row of parts: the first one, and the others on what it leaves. -/
lemma seq_cons (p : Part) (ps : List Part) (ts : List Piece) :
    seq (p :: ps) ts = (p ts).bind fun a => (seq ps a.2).map fun b => (a.1 ++ b.1, b.2) := by
  change (p ts).bind _ = _
  refine Option.bind_congr fun a _ => ?_
  cases h : seq ps a.2 with
  | none => exact congrArg (Option.bind · _) h
  | some b => exact congrArg (Option.bind · _) h

/-- Parts in a row are made up one after the other. -/
lemma seq_of_eq_some (h : p ts = some (xs, us)) (ps : List Part) :
    seq (p :: ps) ts = (seq ps us).map fun b => (xs ++ b.1, b.2) := by
  rw [seq_cons, h, Option.bind_some]

/-- A row is not made up without its first part. -/
lemma seq_of_eq_none (h : p ts = none) (ps : List Part) : seq (p :: ps) ts = none := by
  rw [seq_cons, h, Option.bind_none]

lemma seq_singleton (p : Part) (ts : List Piece) : seq [p] ts = p ts := by
  rw [seq_cons]
  cases p ts with
  | none => rfl
  | some a => simp [seq_nil]

/-- The first part that can be made up is taken. -/
lemma choice_cons (p : Part) (ps : List Part) (ts : List Piece) :
    choice (p :: ps) ts = (p ts).or (choice ps ts) := rfl

/-- A part that cannot be made up is passed over. -/
lemma choice_of_eq_none (h : p ts = none) (ps : List Part) :
    choice (p :: ps) ts = choice ps ts := by
  rw [choice_cons, h, Option.none_or]

lemma choice_of_eq_some {a : List Pair × List Piece} (h : p ts = some a) (ps : List Part) :
    choice (p :: ps) ts = some a := by
  rw [choice_cons, h, Option.some_or]

lemma choice_nil (ts : List Piece) : choice [] ts = none := rfl

/-- What may be left out can always be made up. -/
lemma optional_eq (p : Part) (ts : List Piece) : optional p ts = some ((p ts).getD ([], ts)) := by
  change (p ts).or (some ([], ts)) = _
  cases p ts <;> rfl

lemma optional_of_eq_none (h : p ts = none) : optional p ts = some ([], ts) := by
  rw [optional_eq, h, Option.getD_none]

lemma optional_of_eq_some {a : List Pair × List Piece} (h : p ts = some a) :
    optional p ts = some a := by
  rw [optional_eq, h, Option.getD_some]

/-- A rule is one pair over all that its part takes. -/
lemma rule_eq (r : Rule) (p : Part) (ts : List Piece) :
    rule r p ts = (p ts).map fun a => ([⟨r, Piece.covered ts a.2, a.1⟩], a.2) := rfl

lemma rule_of_eq_some (h : p ts = some (xs, rest)) :
    rule r p ts = some ([⟨r, Piece.covered ts rest, xs⟩], rest) := by
  rw [rule_eq, h, Option.map_some]

lemma rule_eq_none_iff : rule r p ts = none ↔ p ts = none := by
  rw [rule_eq, Option.map_eq_none_iff]

/-- An atomic rule is one pair with nothing in it. -/
lemma atomic_eq (r : Rule) (p : Part) (ts : List Piece) :
    atomic r p ts = (p ts).map fun a => ([⟨r, Piece.covered ts a.2, []⟩], a.2) := rfl

lemma atomic_of_eq_some (h : p ts = some (xs, rest)) :
    atomic r p ts = some ([⟨r, Piece.covered ts rest, []⟩], rest) := by
  rw [atomic_eq, h, Option.map_some]

/-! ### Parts that take a piece -/

/-- A part that takes a piece at least. -/
def Consumes (p : Part) : Prop := ∀ ts xs rest, p ts = some (xs, rest) → rest.length < ts.length

/-- A row takes a piece if its first part does. -/
lemma Consumes.seq (h : Consumes p) (ps : List Part) : Consumes (seq (p :: ps)) := by
  intro ts xs rest heq
  rw [seq_cons] at heq
  obtain ⟨⟨ys, us⟩, hp, heq⟩ := Option.bind_eq_some_iff.1 heq
  obtain ⟨⟨zs, vs⟩, hps, heq⟩ := Option.map_eq_some_iff.1 heq
  cases heq
  exact Nat.lt_of_le_of_lt (Part.suffix _ hps).length_le (h _ _ _ hp)

/-- A row takes a piece if a part behind the first one does. -/
lemma consumes_seq_cons (p : Part) (h : Consumes (Part.seq ps)) :
    Consumes (Part.seq (p :: ps)) := by
  intro ts xs rest heq
  rw [seq_cons] at heq
  obtain ⟨⟨ys, us⟩, hp, heq⟩ := Option.bind_eq_some_iff.1 heq
  obtain ⟨⟨zs, vs⟩, hps, heq⟩ := Option.map_eq_some_iff.1 heq
  cases heq
  exact Nat.lt_of_lt_of_le (h _ _ _ hps) (p.suffix hp).length_le

/-- A choice takes a piece if each of its parts does. -/
lemma consumes_choice (h : ∀ p ∈ ps, Consumes p) : Consumes (choice ps) := by
  induction ps with
  | nil => exact fun _ _ _ heq => absurd heq (Option.some_ne_none _).symm
  | cons p ps ih =>
      intro ts xs rest heq
      rw [choice_cons, Option.or_eq_some_iff] at heq
      rcases heq with heq | ⟨-, heq⟩
      · exact h p List.mem_cons_self _ _ _ heq
      · exact ih (fun q hq => h q (List.mem_cons_of_mem p hq)) _ _ _ heq

lemma Consumes.rule (h : Consumes p) (r : Rule) : Consumes (rule r p) := by
  intro ts xs rest heq
  obtain ⟨a, hp, heq⟩ := Option.map_eq_some_iff.1 heq
  cases heq
  exact h _ _ _ hp

lemma consumes_piece (pairs? : Piece → Option (List Pair)) : Consumes (piece pairs?) := by
  intro ts xs rest heq
  cases ts with
  | nil => cases heq
  | cons t ts =>
      obtain ⟨ys, -, heq⟩ := Option.map_eq_some_iff.1 heq
      cases heq
      exact Nat.lt_succ_self _

lemma Consumes.adjacent (h : Consumes p) : Consumes (adjacent p) := by
  intro ts xs rest heq
  rw [Part.adjacent] at heq
  dsimp only at heq
  split_ifs at heq
  exact h _ _ _ heq

/-- More repetitions than pieces are enough, and more of them change nothing. -/
lemma upTo_congr (h : Consumes p) {m n : Nat} (hm : ts.length ≤ m) (hn : ts.length ≤ n) :
    upTo p m ts = upTo p n ts := by
  induction m generalizing n ts with
  | zero =>
      obtain rfl : ts = [] := List.eq_nil_of_length_eq_zero (Nat.le_zero.1 hm)
      cases n with
      | zero => rfl
      | succ n =>
          have hnone : p [] = none := by
            cases hp : p [] with
            | none => rfl
            | some a => exact absurd (h _ _ _ hp) (Nat.not_lt_zero _)
          change some ([], []) = optional (andThen p (upTo p n)) []
          rw [optional_of_eq_none]
          exact congrArg (Option.bind · _) hnone
  | succ m ih =>
      cases n with
      | zero =>
          obtain rfl : ts = [] := List.eq_nil_of_length_eq_zero (Nat.le_zero.1 hn)
          have hnone : p [] = none := by
            cases hp : p [] with
            | none => rfl
            | some a => exact absurd (h _ _ _ hp) (Nat.not_lt_zero _)
          change optional (andThen p (upTo p m)) [] = some ([], [])
          rw [optional_of_eq_none]
          exact congrArg (Option.bind · _) hnone
      | succ n =>
          have hthen : andThen p (upTo p m) ts = andThen p (upTo p n) ts := by
            change (p ts).bind _ = (p ts).bind _
            refine Option.bind_congr fun a ha => ?_
            have hlt := h _ _ _ ha
            have hrest : upTo p m a.2 = upTo p n a.2 := ih (by omega) (by omega)
            exact congrArg (Option.bind · _) hrest
          change optional _ ts = optional _ ts
          rw [optional_eq, optional_eq, hthen]

/-- **What may be repeated** is taken once more, if it is there. -/
lemma many_eq (h : Consumes p) (ts : List Piece) : many p ts = (match p ts with
    | none => some ([], ts)
    | some a => (many p a.2).map fun b => (a.1 ++ b.1, b.2)) := by
  have hmore : many p ts = upTo p (ts.length + 1) ts := upTo_congr h le_rfl (Nat.le_succ _)
  rw [hmore]
  change optional (andThen p (upTo p ts.length)) ts = _
  cases hp : p ts with
  | none =>
      rw [optional_of_eq_none]
      exact congrArg (Option.bind · _) hp
  | some a =>
      have hrest : upTo p ts.length a.2 = many p a.2 := upTo_congr h (h _ _ _ hp).le le_rfl
      have hthen : andThen p (upTo p ts.length) ts = (many p a.2).map fun b =>
          (a.1 ++ b.1, b.2) := by
        change (p ts).bind _ = _
        rw [hp, Option.bind_some]
        change (upTo p ts.length a.2).bind _ = _
        rw [hrest]
        cases many p a.2 <;> rfl
      rw [optional_eq, hthen]
      obtain ⟨b, hb⟩ : ∃ b, many p a.2 = some b := by
        change ∃ b, upTo p a.2.length a.2 = some b
        cases a.2.length with
        | zero => exact ⟨_, rfl⟩
        | succ n => exact ⟨_, optional_eq _ _⟩
      simp [hb]

lemma many_of_eq_none (h : Consumes p) (hp : p ts = none) : many p ts = some ([], ts) := by
  rw [many_eq h, hp]

lemma many_of_eq_some (h : Consumes p) (hp : p ts = some (xs, us)) :
    many p ts = (many p us).map fun b => (xs ++ b.1, b.2) := by
  rw [many_eq h, hp]

/-- The same with other parts behind. -/
lemma seq_many_of_eq_some (h : Consumes p) (hp : p ts = some (xs, us)) (ps : List Part) :
    seq (many p :: ps) ts = (seq (many p :: ps) us).map fun b => (xs ++ b.1, b.2) := by
  rw [seq_cons, seq_cons, many_of_eq_some h hp]
  cases many p us with
  | none => rfl
  | some a =>
      simp only [Option.map_some, Option.bind_some, Option.map_map, Function.comp_def,
        List.append_assoc]

lemma seq_many_of_eq_none (h : Consumes p) (hp : p ts = none) (ps : List Part) :
    seq (many p :: ps) ts = seq ps ts := by
  rw [seq_of_eq_some (many_of_eq_none h hp)]
  exact Option.map_id'

/-- What may be repeated can always be made up. -/
lemma exists_many (p : Part) (ts : List Piece) : ∃ a, many p ts = some a := by
  change ∃ a, upTo p ts.length ts = some a
  cases ts.length with
  | zero => exact ⟨_, rfl⟩
  | succ n => exact ⟨_, optional_eq _ _⟩

end Part

/-! ### Single tokens -/

/-- The tokens of some pieces. -/
abbrev tokensOf (ts : List Piece) : List Token := ts.map Piece.toToken

lemma length_tokensOf (ts : List Piece) : (tokensOf ts).length = ts.length := List.length_map _

/-- The first token of some pieces, whose lexeme is known. -/
lemma tokensOf_cons {t : Piece} {l : Lexeme} (h : t.lexeme = l) (us : List Piece) :
    tokensOf (t :: us) = ⟨t.gap, l⟩ :: tokensOf us := by
  rw [← h]
  rfl

/-- A piece of a certain kind is there, or it is not. -/
lemma leaf_cases (r : Rule) (test : Lexeme → Bool) (ts : List Piece) :
    (∃ t us, ts = t :: us ∧ test t.lexeme ∧ Grammar.leaf r test ts = some ([⟨r, t.text, []⟩], us))
      ∨ (∀ t ∈ ts.head?, test t.lexeme = false) ∧ Grammar.leaf r test ts = none := by
  cases ts with
  | nil => exact .inr ⟨by simp, rfl⟩
  | cons t us =>
      by_cases h : test t.lexeme
      · refine .inl ⟨t, us, rfl, h, ?_⟩
        change (if test t.lexeme then some [_] else none).map _ = _
        rw [if_pos h, Option.map_some]
      · refine .inr ⟨by simpa using h, ?_⟩
        change (if test t.lexeme then some [_] else none).map _ = _
        rw [if_neg h, Option.map_none]

/-- A sign is there for the reader and for the grammar, or it is not for either. -/
lemma sign_cases (m : Mark) (ts : List Piece) :
    (∃ t us, ts = t :: us ∧ t.lexeme = .mark m ∧ Grammar.sign m ts = some ([], us)
        ∧ mark m (tokensOf ts) = some (tokensOf us))
      ∨ (∀ t ∈ ts.head?, t.lexeme ≠ .mark m) ∧ Grammar.sign m ts = none
        ∧ mark m (tokensOf ts) = none := by
  cases ts with
  | nil => exact .inr ⟨by simp, rfl, rfl⟩
  | cons t us =>
      have hsign : Grammar.sign m (t :: us)
          = (if t.lexeme = .mark m then some [] else none).map (·, us) := rfl
      by_cases h : t.lexeme = .mark m
      · refine .inl ⟨t, us, rfl, h, by rw [hsign, if_pos h, Option.map_some], ?_⟩
        exact mark_eq_some_iff.2 ⟨t.gap, by rw [← h]; rfl⟩
      · refine .inr ⟨by simpa using h, by rw [hsign, if_neg h, Option.map_none], ?_⟩
        refine mark_eq_none_iff.2 fun g rest heq => h ?_
        exact congrArg Token.lexeme (List.cons.inj heq).1

/-- A keyword is there for both, or for neither. The grammar makes a pair of it. -/
lemma keyword_cases (k : Keyword) (ts : List Piece) :
    (∃ t us, ts = t :: us ∧ t.lexeme.keyword? = some k
        ∧ Grammar.keyword k ts = some ([⟨.keyword k, t.text, []⟩], us)
        ∧ keyword k (tokensOf ts) = some (tokensOf us))
      ∨ (∀ t ∈ ts.head?, t.lexeme.keyword? ≠ some k) ∧ Grammar.keyword k ts = none
        ∧ keyword k (tokensOf ts) = none := by
  rcases leaf_cases (.keyword k) (·.keyword? = some k) ts with
    ⟨t, us, rfl, htest, hleaf⟩ | ⟨htest, hleaf⟩
  · have hk : t.lexeme.keyword? = some k := by simpa using htest
    exact .inl ⟨t, us, rfl, hk, hleaf, keyword_eq_some_iff.2 ⟨t.toToken, rfl, hk⟩⟩
  · refine .inr ⟨by simpa using htest, hleaf, ?_⟩
    cases ts with
    | nil => rfl
    | cons t us =>
        have hk : t.lexeme.keyword? ≠ some k := by simpa using htest
        exact if_neg hk

/-- The text of a word spells it. -/
lemma IsCut.text_of_word {t : Piece} (h : IsCut (t :: us)) {w : String} (hw : t.lexeme = .word w) :
    t.text = w.toList := by
  have hspells := h.spells t List.mem_cons_self
  rw [hw] at hspells
  exact hspells

/-- A variable is there for both, or for neither. -/
lemma variableName_cases (h : IsCut ts) :
    (∃ t us n, ts = t :: us ∧ t.lexeme = .word n ∧ t.text = n.toList
        ∧ Grammar.variableName ts = some ([⟨.variableName, n.toList, []⟩], us)
        ∧ name (tokensOf ts) = some (n, tokensOf us))
      ∨ (∀ t ∈ ts.head?, t.lexeme.name? = none) ∧ Grammar.variableName ts = none
        ∧ name (tokensOf ts) = none := by
  rcases leaf_cases .variableName (·.name?.isSome) ts with
    ⟨t, us, rfl, htest, hleaf⟩ | ⟨htest, hleaf⟩
  · obtain ⟨n, hn⟩ := Option.isSome_iff_exists.1 htest
    have hword : t.lexeme = .word n := by
      cases hl : t.lexeme with
      | word text =>
          rw [hl, Lexeme.name?] at hn
          split_ifs at hn
          rw [Option.some.inj hn]
      | _ => rw [hl] at hn; cases hn
    have htext := h.text_of_word hword
    refine .inl ⟨t, us, n, rfl, hword, htext, htext ▸ hleaf, ?_⟩
    exact name_eq_some_iff.2 ⟨t.toToken, rfl, hn⟩
  · have hnone : ∀ t ∈ ts.head?, t.lexeme.name? = none := fun t ht => by simpa using htest t ht
    refine .inr ⟨hnone, hleaf, ?_⟩
    cases ts with
    | nil => rfl
    | cons t us =>
        change t.lexeme.name?.map _ = none
        rw [hnone t rfl, Option.map_none]

/-- A word is there for both, or for neither, keyword or not. -/
lemma word_cases (h : IsCut ts) (r : Rule) :
    (∃ t us w, ts = t :: us ∧ t.lexeme = .word w ∧ t.text = w.toList
        ∧ Grammar.word r ts = some ([⟨r, w.toList, []⟩], us)
        ∧ word (tokensOf ts) = some (w, tokensOf us))
      ∨ (∀ t ∈ ts.head?, t.lexeme.isWord = false) ∧ Grammar.word r ts = none
        ∧ word (tokensOf ts) = none := by
  cases ts with
  | nil => exact .inr ⟨by simp, rfl, rfl⟩
  | cons t us =>
      cases hl : t.lexeme with
      | word w =>
          have htext := h.text_of_word hl
          refine .inl ⟨t, us, w, rfl, hl, htext, ?_, word_eq_some_iff.2 ⟨t.gap, by rw [← hl]; rfl⟩⟩
          rcases leaf_cases r Lexeme.isWord (t :: us) with ⟨t', us', heq, -, hleaf⟩ | ⟨htest, -⟩
          · cases heq
            exact htext ▸ hleaf
          · have hfalse := htest t rfl
            rw [hl] at hfalse
            cases hfalse
      | _ =>
          refine .inr ⟨by simp [hl, Lexeme.isWord], ?_, ?_⟩
          · rcases leaf_cases r Lexeme.isWord (t :: us) with ⟨t', us', heq, htest, -⟩ | ⟨-, hleaf⟩
            · cases heq
              rw [hl] at htest
              cases htest
            · exact hleaf
          · refine word_eq_none_iff.2 fun g text rest heq => ?_
            have hword := congrArg Token.lexeme (List.cons.inj heq).1
            rw [hl] at hword
            cases hword

/-! ### What was only begun -/

/-- The keywords that begin what may be left out or repeated. What they begin belongs to phrases
that are the larger, the higher the rank. -/
def Keyword.rank? : Keyword → Option Nat
  | or | xor | and | starts | ends | contains => some 1
  | asWord => some 2
  | whereWord => some 4
  | matchWord | optional => some 5
  | create | merge | detach | delete | set => some 6
  | returnWord => some 7
  | order => some 8
  | skip => some 9
  | limit => some 10
  | _ => none

/-- The same for all lexemes. A parenthesis or a dot behind a term begins its arguments, or goes on
with the name of a function. -/
def Lexeme.rank? : Lexeme → Option Nat
  | mark .openParen | mark .dot | mark .colon | mark .bar | mark .openBracket => some 0
  | mark .openBrace => some 1
  | mark .less | mark .lessEqual | mark .greater | mark .greaterEqual | mark .equal
  | mark .unequal | mark .minus => some 1
  | mark .comma => some 3
  | l => l.keyword?.bind Keyword.rank?

/-- The first of some pieces begins what has a rank below some number. -/
def Stalled (n : Nat) (ts : List Piece) : Prop := ∃ t ∈ ts.head?, ∃ k ∈ t.lexeme.rank?, k < n

namespace Stalled

variable {m n : Nat}

lemma mono (h : Stalled m ts) (hmn : m ≤ n) : Stalled n ts := by
  obtain ⟨t, ht, k, hk, hlt⟩ := h
  exact ⟨t, ht, k, hk, Nat.lt_of_lt_of_le hlt hmn⟩

/-- Nothing has a rank below zero. -/
lemma pos (h : Stalled n ts) : 0 < n := by
  obtain ⟨t, -, k, -, hlt⟩ := h
  exact Nat.zero_lt_of_lt hlt

end Stalled

/-- The rank of a word is that of the keyword that it acts as. -/
lemma Lexeme.rank?_of_keyword? {l : Lexeme} {k : Keyword} (h : l.keyword? = some k) :
    l.rank? = k.rank? := by
  cases l with
  | word w =>
      change (Keyword.ofWord? w).bind _ = _
      rw [show Keyword.ofWord? w = some k from h, Option.bind_some]
  | _ => cases h

/-- A sign begins what may be left out. -/
lemma Stalled.of_mark {n : Nat} {t : Piece} {m : Mark} (ht : t.lexeme = .mark m)
    (hrank : (Lexeme.mark m).rank?.any (· < n)) : Stalled n (t :: us) := by
  obtain ⟨k, hk, hlt⟩ := (Option.any_eq_true _ _).1 hrank
  exact ⟨t, rfl, k, ht ▸ hk, of_decide_eq_true hlt⟩

/-- A keyword begins what may be left out. -/
lemma Stalled.of_keyword {n : Nat} {t : Piece} {k : Keyword} (ht : t.lexeme.keyword? = some k)
    (hrank : k.rank?.any (· < n)) : Stalled n (t :: us) := by
  obtain ⟨r, hr, hlt⟩ := (Option.any_eq_true _ _).1 hrank
  exact ⟨t, rfl, r, (Lexeme.rank?_of_keyword? ht).trans hr, of_decide_eq_true hlt⟩

namespace Part

variable {p : Part} {ps : List Part} {r : Rule} {m n : Nat}

/-- A part that stops in front of what was only begun, if it can be made up at all. -/
def Halts (n : Nat) (p : Part) (ts : List Piece) : Prop :=
  ∀ xs rest, p ts = some (xs, rest) → Stalled n rest

/-- A part that does not get past what was only begun. -/
def Bars (n : Nat) (p : Part) : Prop := ∀ ts, Stalled n ts → Halts n p ts

/-- A part that cannot be made up of what was only begun. -/
def Blocks (n : Nat) (p : Part) : Prop := ∀ ts, Stalled n ts → p ts = none

/-! Parts that cannot be made up. -/

/-- A sign does not take up what begins something of a lower rank. -/
lemma blocks_sign {a : Mark} (ha : (Lexeme.mark a).rank?.all (n ≤ ·)) :
    Blocks n (Grammar.sign a) := by
  rintro ts ⟨t, ht, k, hk, hlt⟩
  rcases sign_cases a ts with ⟨u, us, rfl, hu, -, -⟩ | ⟨-, hsign, -⟩
  · cases ht
    rw [hu] at hk
    rw [hk] at ha
    exact absurd (of_decide_eq_true ha) (Nat.not_le.2 hlt)
  · exact hsign

/-- The same for keywords. -/
lemma blocks_keyword {a : Keyword} (ha : a.rank?.all (n ≤ ·)) : Blocks n (Grammar.keyword a) := by
  rintro ts ⟨t, ht, k, hk, hlt⟩
  rcases keyword_cases a ts with ⟨u, us, rfl, hu, -, -⟩ | ⟨-, hkeyword, -⟩
  · cases ht
    rw [Lexeme.rank?_of_keyword? hu] at hk
    rw [hk] at ha
    exact absurd (of_decide_eq_true ha) (Nat.not_le.2 hlt)
  · exact hkeyword

/-- A row blocks what its first part blocks. -/
lemma Blocks.seq (h : Blocks n p) (ps : List Part) : Blocks n (seq (p :: ps)) :=
  fun ts hts => seq_of_eq_none (h ts hts) ps

/-- A choice blocks what each of its parts blocks. -/
lemma blocks_choice (h : ∀ p ∈ ps, Blocks n p) : Blocks n (choice ps) := by
  intro ts hts
  induction ps with
  | nil => rfl
  | cons p ps ih =>
      rw [choice_of_eq_none (h p List.mem_cons_self ts hts)]
      exact ih fun q hq => h q (List.mem_cons_of_mem p hq)

lemma Blocks.rule (h : Blocks n p) (r : Rule) : Blocks n (rule r p) :=
  fun ts hts => rule_eq_none_iff.2 (h ts hts)

/-- With a part in front that may be left out, a row blocks what that part and the others block. -/
lemma Blocks.seq_optional (h : Blocks n p) (hps : Blocks n (Part.seq ps)) :
    Blocks n (Part.seq (Part.optional p :: ps)) := by
  intro ts hts
  rw [seq_of_eq_some (optional_of_eq_none (h ts hts)), hps ts hts, Option.map_none]

lemma Blocks.mono (h : Blocks n p) (hmn : m ≤ n) : Blocks m p := fun ts hts => h ts (hts.mono hmn)

/-! Parts that stop. -/

/-- A part that cannot be made up need not stop. -/
lemma halts_of_eq_none (h : p ts = none) : Halts n p ts := by
  intro xs rest heq
  rw [h] at heq
  cases heq

/-- A part that cannot stop in front of anything cannot be made up. -/
lemma halts_zero_iff : Halts 0 p ts ↔ p ts = none := by
  refine ⟨fun h => Option.eq_none_iff_forall_ne_some.2 fun a ha => ?_, halts_of_eq_none⟩
  exact absurd (h _ _ ha).pos (Nat.lt_irrefl 0)

lemma Halts.mono (h : Halts m p ts) (hmn : m ≤ n) : Halts n p ts :=
  fun xs rest heq => (h xs rest heq).mono hmn

lemma Halts.rule (h : Halts n p ts) (r : Rule) : Halts n (rule r p) ts := by
  intro xs rest heq
  obtain ⟨a, hp, heq⟩ := Option.map_eq_some_iff.1 heq
  cases heq
  exact h _ _ hp

lemma halts_choice (h : ∀ p ∈ ps, Halts n p ts) : Halts n (choice ps) ts := by
  induction ps with
  | nil => exact halts_of_eq_none rfl
  | cons p ps ih =>
      intro xs rest heq
      rw [choice_cons, Option.or_eq_some_iff] at heq
      rcases heq with heq | ⟨-, heq⟩
      · exact h p List.mem_cons_self xs rest heq
      · exact ih (fun q hq => h q (List.mem_cons_of_mem p hq)) xs rest heq

/-- What may be left out is left out, or stops where its part does. -/
lemma Halts.optional (h : Halts n p ts) (hts : Stalled n ts) : Halts n (optional p) ts := by
  intro xs rest heq
  rw [optional_eq] at heq
  cases hp : p ts with
  | none =>
      rw [hp] at heq
      cases heq
      exact hts
  | some a =>
      rw [hp] at heq
      cases heq
      exact h _ _ hp

/-- What halts in the middle of a row halts there at its end. -/
lemma Halts.seq (h : Halts n p ts) (hps : Bars n (seq ps)) : Halts n (seq (p :: ps)) ts := by
  intro xs rest heq
  rw [seq_cons] at heq
  obtain ⟨⟨ys, us⟩, hp, heq⟩ := Option.bind_eq_some_iff.1 heq
  obtain ⟨⟨zs, vs⟩, hrest, heq⟩ := Option.map_eq_some_iff.1 heq
  cases heq
  exact hps _ (h _ _ hp) _ _ hrest

/-- A row is not made up if the parts behind one that halts block what it halts in front of. -/
lemma Halts.seq_eq_none (h : Halts n p ts) (hps : Blocks n (Part.seq ps)) :
    Part.seq (p :: ps) ts = none := by
  rw [seq_cons]
  cases hp : p ts with
  | none => rfl
  | some a => rw [Option.bind_some, hps _ (h _ _ hp), Option.map_none]

/-- What may be left out does not help what has to follow. -/
lemma Halts.seq_optional_eq_none (h : Halts n p ts) (hps : Blocks n (Part.seq ps))
    (hts : Part.seq ps ts = none) : Part.seq (Part.optional p :: ps) ts = none := by
  rw [seq_cons, optional_eq]
  cases heq : p ts with
  | none => rw [Option.getD_none, Option.bind_some, hts, Option.map_none]
  | some a => rw [Option.getD_some, Option.bind_some, hps _ (h _ _ heq), Option.map_none]

/-- A row halts behind what it has taken. -/
lemma halts_seq_of_eq_some (hp : p ts = some (xs, us)) (h : Halts n (Part.seq ps) us) :
    Halts n (Part.seq (p :: ps)) ts := by
  intro ys rest heq
  rw [seq_of_eq_some hp] at heq
  obtain ⟨a, hps, heq⟩ := Option.map_eq_some_iff.1 heq
  cases heq
  exact h _ _ hps

/-! Parts that do not get past. -/

/-- What cannot be made up gets past nothing. -/
lemma Blocks.bars (h : Blocks n p) : Bars n p := fun ts hts => halts_of_eq_none (h ts hts)

lemma bars_nothing : Bars n (Part.seq []) := by
  intro ts hts xs rest heq
  cases heq
  exact hts

/-- A row bars what each of its parts bars. -/
lemma Bars.seq (h : Bars n p) (hps : Bars n (Part.seq ps)) : Bars n (Part.seq (p :: ps)) :=
  fun ts hts => (h ts hts).seq hps

/-- What may be left out bars what its part bars. -/
lemma Bars.optional (h : Bars n p) : Bars n (optional p) := fun ts hts => (h ts hts).optional hts

/-- What may be repeated bars what its part bars. -/
lemma Bars.many (h : Bars n p) : Bars n (many p) := by
  have hupTo : ∀ bound, Bars n (upTo p bound) := by
    intro bound
    induction bound with
    | zero =>
        intro ts hts xs rest heq
        cases heq
        exact hts
    | succ bound ih =>
        refine Bars.optional fun ts hts xs rest heq => ?_
        obtain ⟨⟨ys, us⟩, hp, heq⟩ := Option.bind_eq_some_iff.1 heq
        obtain ⟨⟨zs, vs⟩, hrest, heq⟩ := Option.bind_eq_some_iff.1 heq
        cases heq
        exact ih _ (h ts hts _ _ hp) _ _ hrest
  exact fun ts hts => hupTo ts.length ts hts

/-- What may be repeated halts where it was only begun. -/
lemma Halts.many (h : Halts m p ts) (hts : Stalled n ts) (hp : Bars m p) (hmn : m ≤ n)
    (hc : Consumes p) : Halts n (many p) ts := by
  intro xs rest heq
  rw [many_eq hc] at heq
  cases hpts : p ts with
  | none =>
      rw [hpts] at heq
      cases heq
      exact hts
  | some a =>
      rw [hpts] at heq
      obtain ⟨b, hmany, heq⟩ := Option.map_eq_some_iff.1 heq
      cases heq
      exact (hp.many _ (h _ _ hpts) _ _ hmany).mono hmn

end Part

/-! ### Readers beside parts -/

/-- **A reader and a part of the grammar go together**: the part makes one pair, of a rule of its
own, and the reader answers what is built of it. Where it answers nothing, the part halts. -/
def PairsOne {α : Type} (n : Nat) (F : List Token → Option (α × List Token)) (p : Part)
    (r : Rule) (build : Pair → α) : Prop :=
  ∀ {ts : List Piece}, IsCut ts →
    (∃ x rest, p ts = some ([x], rest) ∧ x.rule = r
        ∧ F (tokensOf ts) = some (build x, tokensOf rest))
      ∨ F (tokensOf ts) = none ∧ p.Halts n ts

end CodeGraph.Cypher
