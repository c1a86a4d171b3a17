import CodeGraph.Cypher.Statement
import Mathlib.Tactic

/-!
Readers in terms of the readers of single tokens.

A reader that looks at several tokens at once is an order of steps, each of which takes one sign or
one word or finds none. Said so, what holds of single tokens carries over to it step by step.

* `mark_eq_some_iff`, `word_eq_some_iff`: what a single step takes.
* `labels_eq`, `groups_eq`, `moreGroups_eq`, `settings_eq`, `callee?_eq`: the readers of several
  tokens.
-/

namespace CodeGraph.Cypher

variable {ts : List Token}

/-! ### Single tokens -/

lemma mark_eq_some_iff {m : Mark} {rest : List Token} :
    mark m ts = some rest ↔ ∃ g, ts = ⟨g, .mark m⟩ :: rest := by
  rw [mark.eq_def]
  split
  · rename_i g n rest'
    by_cases hn : n = m
    · simp [hn]
    · simp [hn]
  · rename_i hmark
    constructor
    · exact fun h => nomatch h
    · rintro ⟨g, rfl⟩
      exact absurd rfl (hmark g m rest)

/-- A sign is not found exactly if no such token comes next. -/
lemma mark_eq_none_iff {m : Mark} : mark m ts = none ↔ ∀ g rest, ts ≠ ⟨g, .mark m⟩ :: rest := by
  rw [Option.eq_none_iff_forall_ne_some]
  exact ⟨fun h g rest hts => h rest (mark_eq_some_iff.2 ⟨g, hts⟩), fun h rest hts => by
    obtain ⟨g, hts⟩ := mark_eq_some_iff.1 hts
    exact h g rest hts⟩

/-- A sign that is found leaves fewer tokens. -/
lemma mark_length_lt {m : Mark} {rest : List Token} (h : mark m ts = some rest) :
    rest.length < ts.length := by
  obtain ⟨g, rfl⟩ := mark_eq_some_iff.1 h
  exact Nat.lt_succ_self _

/-- A sign that may be left out leaves no more tokens than there were. -/
lemma optionalMark_length_le {m : Mark} {b : Bool} {rest : List Token}
    (h : optionalMark m ts = (b, rest)) :
    rest.length ≤ ts.length := by
  rw [optionalMark] at h
  split at h
  · rename_i hmark
    rw [← (Prod.mk.inj h).2]
    exact (mark_length_lt hmark).le
  · rw [(Prod.mk.inj h).2]

@[simp] lemma mark_cons (m : Mark) (g : List Char) (rest : List Token) :
    mark m (⟨g, .mark m⟩ :: rest) = some rest :=
  mark_eq_some_iff.2 ⟨g, rfl⟩

/-- Another sign is not taken for it. -/
lemma mark_cons_of_ne {m n : Mark} (h : n ≠ m) (g : List Char) (rest : List Token) :
    mark m (⟨g, .mark n⟩ :: rest) = none := by
  rw [mark, if_neg h]

/-- A keyword is found exactly if the next token is a word that spells it. -/
lemma keyword_eq_some_iff {k : Keyword} {rest : List Token} :
    keyword k ts = some rest ↔ ∃ t, ts = t :: rest ∧ t.lexeme.keyword? = some k := by
  cases ts with
  | nil => simp [keyword]
  | cons t ts =>
      rw [keyword]
      constructor
      · intro h
        split_ifs at h with ht
        exact ⟨t, by rw [Option.some.inj h], ht⟩
      · rintro ⟨u, hu, hk⟩
        obtain ⟨rfl, rfl⟩ := List.cons.inj hu
        exact if_pos hk

/-- A variable is found exactly if the next token is a word that is no keyword. -/
lemma name_eq_some_iff {p : String × List Token} :
    name ts = some p ↔ ∃ t, ts = t :: p.2 ∧ t.lexeme.name? = some p.1 := by
  cases ts with
  | nil => simp [name]
  | cons t ts =>
      rw [name, Option.map_eq_some_iff]
      constructor
      · rintro ⟨n, hn, rfl⟩
        exact ⟨t, rfl, hn⟩
      · rintro ⟨u, hu, hn⟩
        obtain ⟨rfl, rfl⟩ := List.cons.inj hu
        exact ⟨p.1, hn, rfl⟩

/-- What acts as a keyword is a word. -/
lemma Lexeme.exists_word_of_keyword? {l : Lexeme} {k : Keyword} (h : l.keyword? = some k) :
    ∃ w, l = .word w ∧ Keyword.ofWord? w = some k := by
  cases l with
  | word w => exact ⟨w, rfl, h⟩
  | _ => cases h

/-- A variable is no keyword. -/
lemma Lexeme.keyword?_of_name? {l : Lexeme} {n : String} (h : l.name? = some n) :
    l.keyword? = none := by
  cases l with
  | word text =>
      rw [Lexeme.name?] at h
      split_ifs at h with hk
      exact Option.isNone_iff_eq_none.1 hk
  | _ => rfl

/-- A word is found exactly if it is the next token, keyword or not. -/
lemma word_eq_some_iff {p : String × List Token} :
    word ts = some p ↔ ∃ g, ts = ⟨g, .word p.1⟩ :: p.2 := by
  rw [word.eq_def]
  split
  · rename_i g text rest
    simp [Prod.ext_iff]
  · rename_i hword
    constructor
    · exact fun h => nomatch h
    · rintro ⟨g, rfl⟩
      exact absurd rfl (hword g p.1 p.2)

lemma word_eq_none_iff : word ts = none ↔ ∀ g text rest, ts ≠ ⟨g, .word text⟩ :: rest := by
  rw [word.eq_def]
  split
  · simp
  · rename_i hword
    exact ⟨fun _ g text rest => hword g text rest, fun _ => rfl⟩

lemma word_length_lt {p : String × List Token} (h : word ts = some p) : p.2.length < ts.length := by
  obtain ⟨g, rfl⟩ := word_eq_some_iff.1 h
  exact Nat.lt_succ_self _

@[simp] lemma word_cons (g : List Char) (text : String) (rest : List Token) :
    word (⟨g, .word text⟩ :: rest) = some (text, rest) := rfl

/-- A literal is one token. -/
lemma literal_length_lt {p : Read Property × List Token} (h : literal ts = some p) :
    p.2.length < ts.length := by
  cases ts with
  | nil => cases h
  | cons t rest =>
      obtain ⟨v, -, rfl⟩ := Option.map_eq_some_iff.1 h
      exact Nat.lt_succ_self _

/-! ### Nodes and edges -/

lemma labels_eq (ts : List Token) :
    labels ts = (match mark .colon ts with
      | none => some ([], ts)
      | some rest => (word rest).bind fun p => (labels p.2).map fun q => (⟨p.1⟩ :: q.1, q.2)) := by
  fun_cases labels ts
  case case1 g g' text rest => rw [mark_cons]; rfl
  case case2 g rest hword =>
    simp only [mark_cons, word_eq_none_iff.2 fun g text rest' => hword g text rest',
      Option.bind_none]
  case case3 _ hcolon => rw [mark_eq_none_iff.2 fun g rest => hcolon g rest]

/-- Further groups: a bar, with or without a colon behind it, and a word. -/
lemma moreGroups_eq (ts : List Token) :
    moreGroups ts = (match mark .bar ts with
      | none => some ([], ts)
      | some rest => (word (optionalMark .colon rest).2).bind fun p =>
          (moreGroups p.2).map fun q => (⟨p.1⟩ :: q.1, q.2)) := by
  fun_cases moreGroups ts
  case case1 g g' g'' text rest => rw [mark_cons]; rfl
  case case2 g g' text rest => rw [mark_cons]; rfl
  case case3 g rest hcolon hword =>
    -- with a colon or without one, no word is left to be a group
    have hnone : word (optionalMark .colon rest).2 = none := by
      rw [optionalMark]
      cases hr : mark .colon rest with
      | none => exact word_eq_none_iff.2 fun g text rest' heq => hword g text rest' heq
      | some r =>
          obtain ⟨g', rfl⟩ := mark_eq_some_iff.1 hr
          exact word_eq_none_iff.2 fun g'' text rest' heq =>
            hcolon g' g'' text rest' (congrArg _ heq)
    simp only [mark_cons, hnone, Option.bind_none]
  case case4 _ hbar => rw [mark_eq_none_iff.2 fun g rest => hbar g rest]

/-- Groups: a colon and a word, then further groups. -/
lemma groups_eq (ts : List Token) :
    groups ts = (match mark .colon ts with
      | none => some ([], ts)
      | some rest =>
          (word rest).bind fun p => (moreGroups p.2).map fun q => (⟨p.1⟩ :: q.1, q.2)) := by
  fun_cases groups ts
  case case1 g g' text rest => rw [mark_cons]; rfl
  case case2 g rest hword =>
    simp only [mark_cons, word_eq_none_iff.2 fun g text rest' => hword g text rest',
      Option.bind_none]
  case case3 _ hcolon => rw [mark_eq_none_iff.2 fun g rest => hcolon g rest]

/-- Without a star there is no length. -/
lemma optionalLength_of_ne {l : Lexeme} (h : l ≠ .mark .star) (g : List Char) (ts : List Token) :
    optionalLength (⟨g, l⟩ :: ts) = (.ok none, ⟨g, l⟩ :: ts) := by
  rw [optionalLength.eq_def]
  split
  · rename_i heq
    cases heq
    exact absurd rfl h
  · rename_i heq
    cases heq
    exact absurd rfl h
  · rename_i heq
    cases heq
    exact absurd rfl h
  · rfl

/-- Settings of a map. Behind each literal the map is closed or a comma stands; a literal's own
fault is met before those of the settings behind it. -/
lemma settings_eq (ts : List Token) :
    settings ts = (word ts).bind fun p => (mark .colon p.2).bind fun ts =>
      (literal ts).bind fun v =>
      (match mark .closeBrace v.2 with
      | some ts => some (v.1.map fun value => [(p.1, value)], ts)
      | none => (mark .comma v.2).bind fun ts => (settings ts).map fun more =>
          ((do pure ((p.1, ← v.1) :: (← more.1))), more.2)) := by
  rw [settings.eq_def]
  split
  · rename_i g key g' value g'' rest
    cases h : value.lexeme.literal? <;> simp [literal, h]
  · rename_i g key g' value g'' rest
    have hbrace : mark .closeBrace (⟨g'', .mark .comma⟩ :: rest) = none :=
      mark_cons_of_ne (by decide) _ _
    cases h : value.lexeme.literal? with
    | none => simp [literal, h]
    | some v => cases hmore : settings rest <;> simp [literal, h, hmore, hbrace]
  · rename_i hbrace hcomma
    cases hword : word ts with
    | none => rfl
    | some p =>
        obtain ⟨g, rfl⟩ := word_eq_some_iff.1 hword
        cases hcolon : mark .colon p.2 with
        | none => simp [hcolon]
        | some r =>
            obtain ⟨g', hr⟩ := mark_eq_some_iff.1 hcolon
            cases r with
            | nil => simp [hcolon, literal]
            | cons value r =>
                -- behind the literal: a closing brace, a comma, or neither
                cases hclose : mark .closeBrace r with
                | some r' =>
                    obtain ⟨g'', rfl⟩ := mark_eq_some_iff.1 hclose
                    exact absurd (by rw [hr]) (hbrace g p.1 g' value g'' r')
                | none =>
                    cases hmark : mark .comma r with
                    | some r' =>
                        obtain ⟨g'', rfl⟩ := mark_eq_some_iff.1 hmark
                        exact absurd (by rw [hr]) (hcomma g p.1 g' value g'' r')
                    | none =>
                        cases hv : value.lexeme.literal? <;> simp [hcolon, literal,
                          hclose, hmark, hv]

/-! ### Calls -/

/-- Without a dot there are no further words. -/
lemma dotted_of_mark (h : mark .dot ts = none) : dotted ts = ([], ts) := by
  rw [dotted.eq_def]
  split
  · rename_i g g' text rest
    exact absurd rfl (mark_eq_none_iff.1 h g _)
  · rfl

/-- A dot with no word behind it belongs to no name. -/
lemma dotted_of_word {us : List Token} (h : mark .dot ts = some us) (hword : word us = none) :
    dotted ts = ([], ts) := by
  rw [dotted.eq_def]
  split
  · rename_i g g' text rest
    rw [mark_cons] at h
    cases h
    cases hword
  · rfl

/-- The name of a function: words with dots between them, right in front of a parenthesis. -/
lemma callee?_eq (ts : List Token) :
    callee? ts = (word ts).bind fun p => (mark .openParen (dotted p.2).2).map fun rest =>
      (".".intercalate (p.1 :: (dotted p.2).1), rest) := by
  rw [callee?.eq_def]
  split
  · rfl
  · rename_i hword
    rw [word_eq_none_iff.2 fun g text rest => hword g text rest]
    rfl

end CodeGraph.Cypher
