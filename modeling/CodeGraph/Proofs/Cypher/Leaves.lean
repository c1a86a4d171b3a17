import CodeGraph.Proofs.Cypher.Parts

/-!
The smallest phrases beside their builders.

Numbers, literals and operators are built from the text of their pairs. An operator of two words is
told by its words, whatever white space is between them; a comment between them makes words of its
own, and then there is no such operator.

* `buildInteger_of_spells`, `buildBound_of_digits`, `splitDots_append`: numbers.
* `value_cases`: literals.
* `wordsOf_of_words`, `slash_mem_of_gap`: the words of an operator.
* `notOp_cases`, `postfixOp_cases`, `infixOp_cases`: operators.
-/

namespace CodeGraph.Cypher

open Cypher.Part

variable {ts us rest : List Piece} {xs ys : List Pair}

/-! ### Numbers -/

section Numbers

variable {negative : Bool} {digits low high text : List Char}

lemma splitSign_of_digits (hdigits : digits.all Char.isDigit) :
    splitSign digits = (false, digits) := by
  rw [splitSign.eq_def]
  split
  · exact absurd (Bool.and_eq_true_iff.1 hdigits).1 (by decide)
  · exact absurd (Bool.and_eq_true_iff.1 hdigits).1 (by decide)
  · rfl

/-- **An integer** is built from its text as it is read from its digits. -/
lemma buildInteger_of_spells (h : (Lexeme.integer negative digits).Spells text) :
    buildInteger text = readInteger negative digits := by
  obtain ⟨rfl, hne, hdigits⟩ := h
  have hsign : splitSign (if negative then '-' :: digits else digits) = (negative, digits) := by
    cases negative with
    | true => rfl
    | false => exact splitSign_of_digits hdigits
  rw [buildInteger, parseInt64?, signedDigits?_eq hsign hne hdigits, readInteger, integerText]
  dsimp only [Option.bind_eq_bind, Option.bind_some]
  cases negative <;> split_ifs <;> rfl

/-- **A bound of a range** is built from its text, which are its digits. -/
lemma buildBound_of_digits (hdigits : digits.all Char.isDigit) :
    buildBound digits = readBound digits := by
  rw [buildBound, readBound]
  by_cases hne : digits = []
  · rw [hne]
    rfl
  · have hhead : digits.head? ≠ some '-' := by
      rintro hhead
      rw [List.eq_cons_of_mem_head? hhead] at hdigits
      exact absurd (Bool.and_eq_true_iff.1 hdigits).1 (by decide)
    have hsigned := signedDigits?_eq (splitSign_of_digits hdigits) hne hdigits
    rw [if_neg (by simpa using hne), if_neg (by simpa using hne), parseNatural?,
      if_neg hhead, hsigned]
    dsimp only [Option.bind_eq_bind, Option.bind_some]
    split_ifs <;> rfl

/-- The bounds of a range are the texts around its dots. -/
lemma splitDots_append (hlow : low.all Char.isDigit) (high : List Char) :
    splitDots (low ++ '.' :: '.' :: high) = some (low, high) := by
  induction low with
  | nil => rfl
  | cons c low ih =>
      obtain ⟨hc, hlow⟩ := Bool.and_eq_true_iff.1 hlow
      rw [List.cons_append, splitDots.eq_def]
      split
      · rename_i heq
        rw [(List.cons.inj heq).1] at hc
        exact absurd hc (by decide)
      · rename_i heq
        obtain ⟨rfl, rfl⟩ := List.cons.inj heq
        rw [ih hlow]
        rfl
      · rename_i heq
        cases heq

end Numbers

/-! ### Literals -/

/-- A single piece covers its own text, without the gap in front. -/
lemma Piece.covered_cons (t : Piece) (us : List Piece) : Piece.covered (t :: us) us = t.text := by
  rw [Piece.covered, List.length_cons, Nat.add_sub_cancel_left]
  exact List.append_nil _

lemma piece_cons (pairs? : Piece → Option (List Pair)) (t : Piece) (us : List Piece) :
    piece pairs? (t :: us) = (pairs? t).map (·, us) := rfl

lemma leaf_cons (r : Rule) (test : Lexeme → Bool) (t : Piece) (us : List Piece) :
    Grammar.leaf r test (t :: us) = if test t.lexeme then some ([⟨r, t.text, []⟩], us)
      else none := by
  change (if test t.lexeme then some [_] else none).map _ = _
  split_ifs <;> rfl

/-- A keyword is spelled by its word in small letters. -/
lemma Keyword.map_toLower_of_ofWord? {w : String} {k : Keyword} (h : Keyword.ofWord? w = some k) :
    w.map Char.toLower = k.spelling := by
  have hfound := List.find?_some h
  exact (beq_iff_eq.1 hfound).symm

/-- The pair that a literal makes. -/
def Piece.literal? (t : Piece) : Option Pair :=
  match t.lexeme with
  | .decimal _ => some ⟨.float, t.text, []⟩
  | .integer _ _ => some ⟨.integer, t.text, []⟩
  | .quoted _ => (Grammar.string [t]).bind fun a => a.1.head?
  | .word w =>
    match Keyword.ofWord? w with
    | some .true => some ⟨.boolean, t.text, [⟨.keyword .true, t.text, []⟩]⟩
    | some .false => some ⟨.boolean, t.text, [⟨.keyword .false, t.text, []⟩]⟩
    | some .null => some ⟨.null, t.text, [⟨.keyword .null, t.text, []⟩]⟩
    | _ => none
  | _ => none

/-- A value is a single piece. -/
lemma value_cons (t : Piece) (us : List Piece) :
    Grammar.value (t :: us) = t.literal?.map fun x => ([⟨.value, t.text, [x]⟩], us) := by
  simp only [Grammar.value, rule_eq, choice_cons, choice_nil, Grammar.float, Grammar.integer,
    Grammar.string, Grammar.boolean, Grammar.null, Grammar.keyword, leaf_cons, piece_cons]
  cases hl : t.lexeme with
  | quoted text =>
      cases ht : t.text <;> simp [Piece.literal?, hl, Grammar.string, ht, piece_cons, Piece.covered,
        Piece.span, Lexeme.keyword?]
  | word w =>
      cases hw : Keyword.ofWord? w with
      | none => simp [Piece.literal?, hl, hw, Lexeme.keyword?]
      | some k => cases k <;> simp [Piece.literal?, hl, hw, Lexeme.keyword?, Piece.covered_cons]
  | _ => simp [Piece.literal?, hl, Lexeme.keyword?, Piece.covered_cons]

/-- **A literal** is built from its text as it is read. -/
lemma literal?_eq {t : Piece} (h : t.lexeme.Spells t.text) :
    t.lexeme.literal? = t.literal?.map fun x => buildLiteral [x] := by
  cases hl : t.lexeme with
  | integer negative digits =>
      rw [hl] at h
      rw [Lexeme.literal?, ← buildInteger_of_spells h]
      simp only [Piece.literal?, hl]
      rfl
  | decimal number =>
      rw [hl] at h
      have hnumber : parseDouble? t.text = some number.toDouble := h
      simp [Piece.literal?, hl, Lexeme.literal?, buildLiteral, hnumber]
  | quoted s =>
      rw [hl] at h
      obtain ⟨q, body, htext, rfl⟩ := h
      simp [Piece.literal?, hl, Lexeme.literal?, buildLiteral, Grammar.string, piece_cons, htext]
  | word w =>
      rw [hl] at h
      have htext : t.text = w.toList := h
      cases hw : Keyword.ofWord? w with
      | none => simp [Piece.literal?, hl, hw, Lexeme.literal?]
      | some k =>
          have hlower := Keyword.map_toLower_of_ofWord? hw
          cases k <;> simp [Piece.literal?, hl, hw, Lexeme.literal?, buildLiteral, Pair.string,
            htext, hlower, Keyword.spelling]
  | _ => simp [Piece.literal?, hl, Lexeme.literal?]

/-- **Values** are built as they are read, from the text that they were read from. -/
lemma value_cases (h : IsCut ts) :
    (∃ t us x, ts = t :: us ∧ Grammar.value ts = some ([x], us) ∧ x.rule = .value
        ∧ literal (tokensOf ts) = some (buildValue x, tokensOf us))
      ∨ Grammar.value ts = none ∧ literal (tokensOf ts) = none := by
  cases ts with
  | nil => exact .inr ⟨rfl, rfl⟩
  | cons t us =>
      have hliteral : literal (tokensOf (t :: us)) = t.lexeme.literal?.map (·, tokensOf us) := rfl
      rw [value_cons, hliteral, literal?_eq (h.spells t List.mem_cons_self)]
      cases t.literal? with
      | none => exact .inr ⟨rfl, rfl⟩
      | some x => exact .inl ⟨t, us, _, rfl, rfl, rfl, rfl⟩

/-! ### Words of an operator -/

section Words

variable {c : Char} {v w g text : List Char}

lemma toLower_of_isWhiteSpace (h : Text.isWhiteSpace c) : c.toLower = c := by
  simp only [Text.isWhiteSpace, Bool.or_eq_true, Bool.and_eq_true, beq_iff_eq,
    decide_eq_true_eq] at h
  exact toLower_of_outside (by omega)

/-- What may stand between tokens is white space, where the text of an operator is cut into words.
-/
lemma isWhiteSpace_of_isBlank (h : isBlank c) : Text.isWhiteSpace c := by
  simp only [isBlank, Bool.or_eq_true, beq_iff_eq] at h
  rcases h with ((rfl | rfl) | rfl) | rfl <;> decide

/-- A keyword has letters, of which none is white space. -/
lemma letters_spelling (k : Keyword) :
    k.spelling.toList ≠ [] ∧ ∀ d ∈ k.spelling.toList, Text.isWhiteSpace d = false := by
  have hblank : k.spelling.toList.any Text.isWhiteSpace = false := by cases k <;> rfl
  have hempty : k.spelling ≠ "" := by cases k <;> simp [Keyword.spelling]
  exact ⟨fun hnil => hempty (String.toList_inj.1 hnil), by simpa using hblank⟩

/-- No letter of a keyword is white space. -/
lemma not_isWhiteSpace_of_keyword {s : String} {k : Keyword} (h : Keyword.ofWord? s = some k)
    (hc : c ∈ s.toList) : Text.isWhiteSpace c = false := by
  rw [← Bool.not_eq_true]
  intro hspace
  have hmem : c ∈ (s.map Char.toLower).toList := by
    rw [String.toList_map]
    exact List.mem_map.2 ⟨c, hc, toLower_of_isWhiteSpace hspace⟩
  rw [Keyword.map_toLower_of_ofWord? h] at hmem
  rw [(letters_spelling k).2 c hmem] at hspace
  cases hspace

lemma wordsOf_blank (hc : Text.isWhiteSpace c) (text : List Char) :
    wordsOf (c :: text) = wordsOf text := by
  rw [wordsOf, List.splitOnP_cons_eq_if_modifyHead, if_pos hc]
  rfl

lemma wordsOf_blanks (hg : ∀ c ∈ g, Text.isWhiteSpace c) (text : List Char) :
    wordsOf (g ++ text) = wordsOf text := by
  induction g with
  | nil => rfl
  | cons c g ih =>
      rw [List.cons_append, wordsOf_blank (hg c List.mem_cons_self),
        ih fun d hd => hg d (List.mem_cons_of_mem c hd)]

/-- A text without white space is one word. -/
lemma wordsOf_word (hne : w ≠ []) (hw : ∀ c ∈ w, Text.isWhiteSpace c = false) :
    wordsOf w = [w] := by
  rw [wordsOf, List.splitOnP_eq_singleton hw]
  simp [hne]

/-- Two words with nothing but white space between. -/
lemma wordsOf_words (hv : ∀ c ∈ v, Text.isWhiteSpace c = false)
    (hw : ∀ c ∈ w, Text.isWhiteSpace c = false) (hg : ∀ c ∈ g, Text.isWhiteSpace c)
    (hvne : v ≠ []) (hwne : w ≠ []) (hgne : g ≠ []) : wordsOf (v ++ (g ++ w)) = [v, w] := by
  obtain ⟨c, g, rfl⟩ := List.exists_cons_of_ne_nil hgne
  have hfirst := List.splitOnP_append_cons_of_forall_mem hv c (hg c List.mem_cons_self) (g ++ w)
  have hlater := wordsOf_blanks (fun d hd => hg d (List.mem_cons_of_mem c hd)) w
  rw [wordsOf_word hwne hw] at hlater
  rw [wordsOf, List.cons_append, hfirst, List.filter_cons_of_pos (by simpa using hvne)]
  exact congrArg _ hlater

lemma mem_intercalate {sep : List Char} {ws : List (List Char)} (hw : w ∈ ws) (hc : c ∈ w) :
    c ∈ List.intercalate sep ws := by
  induction ws with
  | nil => cases hw
  | cons v ws ih =>
      cases ws with
      | nil =>
          obtain rfl := List.mem_singleton.1 hw
          simpa [List.intercalate] using hc
      | cons v' ws =>
          rw [List.intercalate_cons_cons]
          rcases List.mem_cons.1 hw with rfl | hw
          · exact List.mem_append_left _ (List.mem_append_left _ hc)
          · exact List.mem_append_right _ (ih hw)

/-- What is not white space is in one of the words. -/
lemma mem_intercalate_wordsOf (hc : c ∈ text) (hspace : Text.isWhiteSpace c = false) :
    c ∈ List.intercalate [' '] (wordsOf text) := by
  have hsplit : ∃ w ∈ text.splitOnP Text.isWhiteSpace, c ∈ w := by
    induction text with
    | nil => cases hc
    | cons d text ih =>
        rw [List.splitOnP_cons_eq_if_modifyHead]
        split_ifs with hd
        · rcases List.mem_cons.1 hc with rfl | hc
          · rw [hd] at hspace
            cases hspace
          · obtain ⟨w, hw, hcw⟩ := ih hc
            exact ⟨w, List.mem_cons_of_mem _ hw, hcw⟩
        · obtain ⟨v, ws, hws⟩ := List.exists_cons_of_ne_nil
            (List.splitOnP_ne_nil Text.isWhiteSpace text)
          rw [hws] at ih ⊢
          rcases List.mem_cons.1 hc with rfl | hc
          · exact ⟨_, List.mem_cons_self, List.mem_cons_self⟩
          · obtain ⟨w, hw, hcw⟩ := ih hc
            rcases List.mem_cons.1 hw with rfl | hw
            · exact ⟨_, List.mem_cons_self, List.mem_cons_of_mem d hcw⟩
            · exact ⟨w, List.mem_cons_of_mem _ hw, hcw⟩
  obtain ⟨w, hw, hcw⟩ := hsplit
  exact mem_intercalate (List.mem_filter.2 ⟨hw, by simpa using List.ne_nil_of_mem hcw⟩) hcw

/-- A gap with a comment has a slash in it. -/
lemma slash_mem_of_gap (h : Gap g) (hg : g.all isBlank = false) : '/' ∈ g := by
  induction h with
  | nil => cases hg
  | blank hc _ ih => exact List.mem_cons_of_mem _ (ih (by simpa [hc] using hg))
  | line => exact List.mem_cons_self
  | block => exact List.mem_cons_self

/-- The operators of signs, as they are written. -/
def signOperators : List (List Char) :=
  [['='], ['!', '='], ['<', '>'], ['<'], ['<', '='], ['>'], ['>', '=']]

/-- The letters of a text test, in lower case. -/
def testLetters : TextTest → List Char
  | .startsWith => "starts with".toList
  | .endsWith => "ends with".toList
  | .contains => "contains".toList

/-- An operator that is not of signs is told by its letters in lower case. -/
lemma buildOperator_of_notMem (h : List.intercalate [' '] (wordsOf text) ∉ signOperators) :
    buildOperator text =
      let lower := String.ofList ((List.intercalate [' '] (wordsOf text)).map Char.toLower)
      if lower = "starts with" then .ok (.text .startsWith)
      else if lower = "ends with" then .ok (.text .endsWith)
      else if lower = "contains" then .ok (.text .contains)
      else .error (.unknownOperator (String.ofList text)) := by
  simp only [signOperators, List.mem_cons, List.not_mem_nil, or_false, not_or] at h
  obtain ⟨heq, hunequal, hunequal', hless, hlessEqual, hgreater, hgreaterEqual⟩ := h
  simp only [buildOperator, heq, hunequal, hunequal', hless, hlessEqual, hgreater, hgreaterEqual,
    or_self, if_false]

/-- The operator of a text test is known by its words with one blank between them, in small letters.
-/
lemma buildOperator_of_letters {test : TextTest}
    (h : (List.intercalate [' '] (wordsOf text)).map Char.toLower = testLetters test) :
    buildOperator text = .ok (.text test) := by
  have hsigns : ∀ sign ∈ signOperators, sign.map Char.toLower ≠ testLetters test := by
    cases test <;> decide +kernel
  rw [buildOperator_of_notMem fun hmem => hsigns _ hmem h, h]
  cases test <;> rfl

/-- There is no operator with a slash in it. -/
lemma buildOperator_of_slash (h : '/' ∈ List.intercalate [' '] (wordsOf text)) :
    buildOperator text = .error (.unknownOperator (String.ofList text)) := by
  have hsigns : ∀ sign ∈ signOperators, '/' ∉ sign := by decide
  have hletters : ∀ test, String.ofList ((List.intercalate [' '] (wordsOf text)).map Char.toLower)
      ≠ String.ofList (testLetters test) := by
    intro test heq
    have hslash : '/' ∈ (List.intercalate [' '] (wordsOf text)).map Char.toLower :=
      List.mem_map.2 ⟨'/', h, rfl⟩
    rw [String.ofList_injective heq] at hslash
    revert hslash
    cases test <;> decide +kernel
  rw [buildOperator_of_notMem fun hmem => hsigns _ hmem h]
  exact (if_neg (hletters .startsWith)).trans
    ((if_neg (hletters .endsWith)).trans (if_neg (hletters .contains)))

/-- **A text test of two words** is known by them, unless there is a comment between them. -/
lemma buildOperator_of_words {first second : Keyword} {test : TextTest} {s s' : String}
    (hs : Keyword.ofWord? s = some first) (hs' : Keyword.ofWord? s' = some second)
    (hletters : first.spelling.toList ++ ' ' :: second.spelling.toList = testLetters test)
    (hg : Gap g) (hne : g ≠ []) :
    buildOperator (s.toList ++ (g ++ s'.toList)) = if g.all isBlank then .ok (.text test)
      else .error (.unknownOperator (s ++ String.ofList g ++ s')) := by
  have hspell : ∀ {w : String} {k : Keyword}, Keyword.ofWord? w = some k →
      w.toList.map Char.toLower = k.spelling.toList := fun h => by
    rw [← Keyword.map_toLower_of_ofWord? h, String.toList_map]
  have hnil : ∀ {w : String} {k : Keyword}, Keyword.ofWord? w = some k → w.toList ≠ [] := by
    intro w k h hw
    have hk := hspell h
    rw [hw] at hk
    exact (letters_spelling k).1 hk.symm
  cases hblank : g.all isBlank with
  | true =>
      have hspace : ∀ c ∈ g, Text.isWhiteSpace c := fun c hc =>
        isWhiteSpace_of_isBlank (List.all_eq_true.1 hblank c hc)
      have hwords := wordsOf_words (fun c hc => not_isWhiteSpace_of_keyword hs hc)
        (fun c hc => not_isWhiteSpace_of_keyword hs' hc) hspace (hnil hs) (hnil hs') hne
      rw [if_pos rfl]
      refine buildOperator_of_letters ?_
      rw [hwords, ← hletters, ← hspell hs, ← hspell hs']
      simp [List.intercalate]
  | false =>
      rw [if_neg (by simp)]
      have hslash := slash_mem_of_gap hg hblank
      rw [buildOperator_of_slash (mem_intercalate_wordsOf (by simp [hslash]) (by decide))]
      rw [String.ofList_append, String.ofList_append, String.ofList_toList, String.ofList_toList,
        String.append_assoc]

/-- A text test of one word. -/
lemma buildOperator_of_word {k : Keyword} {test : TextTest} {s : String}
    (hs : Keyword.ofWord? s = some k) (hletters : k.spelling.toList = testLetters test) :
    buildOperator s.toList = .ok (.text test) := by
  have hspell : s.toList.map Char.toLower = testLetters test := by
    rw [← hletters, ← Keyword.map_toLower_of_ofWord? hs, String.toList_map]
  have hne : s.toList ≠ [] := by
    intro hnil
    rw [hnil] at hspell
    revert hspell
    cases test <;> decide +kernel
  refine buildOperator_of_letters ?_
  rw [wordsOf_word hne fun c hc => not_isWhiteSpace_of_keyword hs hc]
  simpa [List.intercalate] using hspell

/-- An operator of signs is known by them. -/
lemma buildOperator_of_mark {m : Mark} {c : Comparison} (h : mark? text = some (m, []))
    (hm : m.comparison? = some c) : buildOperator text = .ok (.comparison c) := by
  revert h
  fun_cases mark? text
  case case21 => exact fun h => absurd h (Option.some_ne_none _).symm
  all_goals
    intro h
    cases h
    cases hm
  all_goals decide +kernel

end Words

/-! ### Operators -/

/-- A pair that is made of one keyword. -/
lemma rule_keyword_cases (r : Rule) (k : Keyword) (ts : List Piece) :
    (∃ t us x, ts = t :: us ∧ t.lexeme.keyword? = some k
        ∧ rule r (Grammar.keyword k) ts = some ([x], us) ∧ x.rule = r
        ∧ keyword k (tokensOf ts) = some (tokensOf us))
      ∨ rule r (Grammar.keyword k) ts = none ∧ keyword k (tokensOf ts) = none := by
  rcases keyword_cases k ts with ⟨t, us, rfl, hk, hpart, hread⟩ | ⟨-, hpart, hread⟩
  · exact .inl ⟨t, us, _, rfl, hk, rule_of_eq_some hpart, rfl, hread⟩
  · exact .inr ⟨rule_eq_none_iff.2 hpart, hread⟩

/-- A token is one keyword only. -/
lemma keyword_eq_none_of_ne {k k' : Keyword} {t : Piece} (hk : t.lexeme.keyword? = some k)
    (hne : k ≠ k') (us : List Piece) : Grammar.keyword k' (t :: us) = none := by
  rcases keyword_cases k' (t :: us) with ⟨u, vs, heq, hu, -, -⟩ | ⟨-, hpart, -⟩
  · cases heq
    rw [hk] at hu
    exact absurd (Option.some.inj hu) hne
  · exact hpart

/-- **Tests for null** behind an operand. -/
lemma postfixOp_cases (ts : List Piece) :
    (∃ x us op, Grammar.postfixOp ts = some ([x], us) ∧ us.length < ts.length
        ∧ x.rule.affix? = some (.behind, 60)
        ∧ (∀ left : Read Expr, applyBehind x.rule left = left.map (.unary op))
        ∧ nullTest? (tokensOf ts) = some (op, tokensOf us))
      ∨ Grammar.postfixOp ts = none ∧ nullTest? (tokensOf ts) = none := by
  rw [nullTest?]
  rcases keyword_cases .is ts with ⟨t, us, rfl, -, his, his'⟩ | ⟨-, his, his'⟩
  · rw [his']
    rcases keyword_cases .not us with ⟨u, vs, rfl, hu, hnot, hnot'⟩ | ⟨-, hnot, hnot'⟩
    -- the shorter test is tried where the longer one fails, and fails at its second word
    · have hshort : Grammar.isNullOp (t :: u :: vs) = none := rule_eq_none_iff.2 <| by
        rw [seq_of_eq_some his, seq_of_eq_none (keyword_eq_none_of_ne hu (by decide) vs)]
        rfl
      simp only [optionalKeyword, hnot', Option.bind_eq_bind, Option.bind_some]
      rcases keyword_cases .null vs with ⟨v, ws, rfl, -, hnull, hnull'⟩ | ⟨-, hnull, hnull'⟩
      · have hlong : seq [Grammar.keyword .is, Grammar.keyword .not, Grammar.keyword .null]
            (t :: u :: v :: ws) = some ([⟨.keyword .is, t.text, []⟩, ⟨.keyword .not, u.text, []⟩,
              ⟨.keyword .null, v.text, []⟩], ws) := by
          rw [seq_of_eq_some his, seq_of_eq_some hnot, seq_singleton, hnull]
          rfl
        refine .inl ⟨_, ws, .isNotNull, choice_of_eq_some (rule_of_eq_some hlong) _, ?_, rfl,
          fun _ => rfl, by rw [hnull']; rfl⟩
        simp only [List.length_cons]
        omega
      · refine .inr ⟨?_, by rw [hnull']; rfl⟩
        have hlong : Grammar.isNotNullOp (t :: u :: vs) = none := rule_eq_none_iff.2 <| by
          rw [seq_of_eq_some his, seq_of_eq_some hnot, seq_singleton, hnull]
          rfl
        rw [Grammar.postfixOp, choice_of_eq_none hlong, choice_of_eq_none hshort, choice_nil]
    · have hlong : Grammar.isNotNullOp (t :: us) = none := rule_eq_none_iff.2 <| by
        rw [seq_of_eq_some his, seq_of_eq_none hnot]
        rfl
      simp only [optionalKeyword, hnot', Option.bind_eq_bind, Option.bind_some]
      rw [Grammar.postfixOp, choice_of_eq_none hlong]
      rcases keyword_cases .null us with ⟨v, ws, rfl, -, hnull, hnull'⟩ | ⟨-, hnull, hnull'⟩
      · have hshort : seq [Grammar.keyword .is, Grammar.keyword .null] (t :: v :: ws)
            = some ([⟨.keyword .is, t.text, []⟩, ⟨.keyword .null, v.text, []⟩], ws) := by
          rw [seq_of_eq_some his, seq_singleton, hnull]
          rfl
        refine .inl ⟨_, ws, .isNull, choice_of_eq_some (rule_of_eq_some hshort) _, ?_, rfl,
          fun _ => rfl, by rw [hnull']; rfl⟩
        simp only [List.length_cons]
        omega
      · have hshort : Grammar.isNullOp (t :: us) = none := rule_eq_none_iff.2 <| by
          rw [seq_of_eq_some his, seq_singleton, hnull]
          rfl
        refine .inr ⟨?_, by rw [hnull']; rfl⟩
        rw [choice_of_eq_none hshort, choice_nil]
  · refine .inr ⟨?_, by rw [his']; rfl⟩
    have hlong : Grammar.isNotNullOp ts = none := rule_eq_none_iff.2 (seq_of_eq_none his _)
    have hshort : Grammar.isNullOp ts = none := rule_eq_none_iff.2 (seq_of_eq_none his _)
    rw [Grammar.postfixOp, choice_of_eq_none hlong, choice_of_eq_none hshort, choice_nil]

/-- The rest of a text test of two words, behind the first of them. -/
def testAfter (k : Keyword) (t : Piece) (us : List Piece) : Option (List Pair × List Piece) :=
  (Grammar.keyword .withWord us).map fun a =>
    ([⟨.stringOp, Piece.covered (t :: us) a.2, ⟨.keyword k, t.text, []⟩ :: a.1⟩], a.2)

/-- The operators of one word or of signs. -/
lemma infixOp_cons (t : Piece) (us : List Piece) : Grammar.infixOp (t :: us) =
    (match t.lexeme.keyword? with
      | some .or => some ([⟨.orOp, t.text, [⟨.keyword .or, t.text, []⟩]⟩], us)
      | some .xor => some ([⟨.xorOp, t.text, [⟨.keyword .xor, t.text, []⟩]⟩], us)
      | some .and => some ([⟨.andOp, t.text, [⟨.keyword .and, t.text, []⟩]⟩], us)
      | some .contains => some ([⟨.stringOp, t.text, [⟨.keyword .contains, t.text, []⟩]⟩], us)
      | some .starts => testAfter .starts t us
      | some .ends => testAfter .ends t us
      | _ =>
        match t.lexeme with
        | .mark m => m.comparison?.map fun _ => ([⟨.comparisonOp, t.text, []⟩], us)
        | _ => none) := by
  simp only [Grammar.infixOp, choice_cons, choice_nil, Grammar.orOp, Grammar.xorOp, Grammar.andOp,
    Grammar.stringOp, Grammar.comparisonOp, rule_eq, seq_cons, seq_nil, Grammar.keyword,
    Grammar.sign, leaf_cons, piece_cons]
  cases hl : t.lexeme with
  | mark m => cases m <;> simp [Lexeme.keyword?, Mark.comparison?, Piece.covered_cons]
  | word w =>
      cases hk : Keyword.ofWord? w with
      | none => simp [Lexeme.keyword?, hk]
      | some k =>
          cases k <;> simp [Lexeme.keyword?, hk, Piece.covered_cons]
          case starts => rfl
          case ends => rfl
  | _ => simp [Lexeme.keyword?]

/-- Operands are joined by an operator as its text says. -/
lemma applyBetween_eq {r : Rule} {text : List Char} {op : WrittenOp}
    (hr : r = .comparisonOp ∨ r = .stringOp)
    (hop : buildOperator text = op.fault.elim (.ok op.op) .error) (left right : Read Expr) :
    applyBetween r text left right = joinRead op left right := by
  cases left with
  | error f => rfl
  | ok l =>
      cases right with
      | error f => rfl
      | ok e =>
          have happly : applyBetween r text (.ok l) (.ok e)
              = buildOperator text >>= fun op => pure (.binary op l e) := by
            rcases hr with rfl | rfl <;> rfl
          rw [happly, hop, joinRead]
          cases op.fault <;> rfl

/-- A text test of two words. -/
lemma textTest_cases {t : Piece} {w : String} {k : Keyword} (test : TextTest) (h : IsCut (t :: us))
    (hl : t.lexeme = .word w) (hk : Keyword.ofWord? w = some k)
    (hletters : k.spelling.toList ++ ' ' :: Keyword.withWord.spelling.toList = testLetters test) :
    (∃ x vs op, testAfter k t us = some ([x], vs)
        ∧ vs.length < (t :: us).length ∧ x.rule.affix? = some (.between, 10 * op.op.level)
        ∧ (∀ left right, applyBetween x.rule x.text left right = joinRead op left right)
        ∧ textTest? test w (tokensOf us) = some (op, tokensOf vs))
      ∨ testAfter k t us = none ∧ textTest? test w (tokensOf us) = none := by
  rw [testAfter]
  rcases keyword_cases .withWord us with ⟨u, vs, rfl, hu, hpart, -⟩ | ⟨hne, hpart, -⟩
  · obtain ⟨w', hl', hw'⟩ := Lexeme.exists_word_of_keyword? hu
    -- two words are always apart, so what stands between them is not empty
    have hgap : u.gap ≠ [] :=
      (List.isChain_cons_cons.1 h.apart).1 (by rw [hl]; rfl) (by rw [hl']; rfl)
    have hcovered : Piece.covered (t :: u :: vs) vs = w.toList ++ (u.gap ++ w'.toList) := by
      have hlength : (t :: u :: vs).length - vs.length = 2 := by simp only [List.length_cons]; omega
      rw [Piece.covered, hlength, ← h.text_of_word hl, ← h.tail.text_of_word hl']
      simp [Piece.span]
    have hbuild := buildOperator_of_words hk hw' hletters
      (h.gap u (List.mem_cons_of_mem t List.mem_cons_self)) hgap
    refine .inl ⟨_, vs, ⟨.text test, if u.gap.all isBlank then none
      else some (.unknownOperator (w ++ String.ofList u.gap ++ w'))⟩, by rw [hpart]; rfl,
      by simp only [List.length_cons]; omega, rfl, applyBetween_eq (.inr rfl) ?_, ?_⟩
    · rw [hcovered, hbuild]
      dsimp only
      split_ifs <;> rfl
    · rw [tokensOf_cons hl', textTest?, if_pos hw']
  · refine .inr ⟨by rw [hpart]; rfl, ?_⟩
    cases us with
    | nil => rfl
    | cons u vs =>
        have hu := hne u rfl
        cases hl' : u.lexeme with
        | word w' =>
            rw [hl'] at hu
            rw [tokensOf_cons hl']
            exact if_neg hu
        | _ =>
            rw [tokensOf_cons hl']
            rfl

/-- **Operators between operands.** -/
lemma infixOp_cases (h : IsCut ts) :
    (∃ x us op, Grammar.infixOp ts = some ([x], us) ∧ us.length < ts.length
        ∧ x.rule.affix? = some (.between, 10 * op.op.level)
        ∧ (∀ left right, applyBetween x.rule x.text left right = joinRead op left right)
        ∧ binaryOp? (tokensOf ts) = some (op, tokensOf us) ∧ Stalled 2 ts)
      ∨ Grammar.infixOp ts = none ∧ binaryOp? (tokensOf ts) = none := by
  cases ts with
  | nil => exact .inr ⟨rfl, rfl⟩
  | cons t us =>
      have hspells := h.spells t List.mem_cons_self
      rw [infixOp_cons, tokensOf_cons rfl]
      -- signs compare, and words do the rest
      cases hl : t.lexeme with
      | mark m =>
          rw [hl] at hspells
          cases hm : m.comparison? with
          | none => exact .inr ⟨by simp [Lexeme.keyword?, hm], by simp [binaryOp?, hm]⟩
          | some c =>
              have hstalled : Stalled 2 (t :: us) := by
                refine .of_mark hl ?_
                cases m <;> first | rfl | cases hm
              exact .inl ⟨⟨.comparisonOp, t.text, []⟩, us, ⟨.comparison c, none⟩,
                by simp [Lexeme.keyword?, hm], Nat.lt_succ_self _, rfl,
                applyBetween_eq (.inl rfl) (buildOperator_of_mark hspells hm),
                by simp [binaryOp?, hm], hstalled⟩
      | word w =>
          have hkeyword : (Lexeme.word w).keyword? = Keyword.ofWord? w := rfl
          rw [hkeyword, binaryOp?]
          cases hk : Keyword.ofWord? w with
          | none => exact .inr ⟨rfl, rfl⟩
          | some k =>
              have hstalled : k.rank? = some 1 → Stalled 2 (t :: us) := fun hrank =>
                .of_keyword (by rw [hl]; exact hk) (by rw [hrank]; rfl)
              cases k
              case or =>
                exact .inl ⟨_, us, ⟨.connective .or, none⟩, rfl, Nat.lt_succ_self _, rfl,
                  fun _ _ => rfl, rfl, hstalled rfl⟩
              case xor =>
                exact .inl ⟨_, us, ⟨.connective .xor, none⟩, rfl, Nat.lt_succ_self _, rfl,
                  fun _ _ => rfl, rfl, hstalled rfl⟩
              case and =>
                exact .inl ⟨_, us, ⟨.connective .and, none⟩, rfl, Nat.lt_succ_self _, rfl,
                  fun _ _ => rfl, rfl, hstalled rfl⟩
              case contains =>
                have hbuild : buildOperator t.text = .ok (.text .contains) := by
                  rw [h.text_of_word hl]
                  exact buildOperator_of_word hk rfl
                exact .inl ⟨_, us, ⟨.text .contains, none⟩, rfl, Nat.lt_succ_self _, rfl,
                  applyBetween_eq (.inr rfl) hbuild, rfl, hstalled rfl⟩
              case starts =>
                rcases textTest_cases .startsWith h hl hk (by decide +kernel) with
                  ⟨x, vs, op, hpart, hlt, haffix, hjoin, hread⟩ | hnone
                · exact .inl ⟨x, vs, op, hpart, hlt, haffix, hjoin, hread, hstalled rfl⟩
                · exact .inr hnone
              case ends =>
                rcases textTest_cases .endsWith h hl hk (by decide +kernel) with
                  ⟨x, vs, op, hpart, hlt, haffix, hjoin, hread⟩ | hnone
                · exact .inl ⟨x, vs, op, hpart, hlt, haffix, hjoin, hread, hstalled rfl⟩
                · exact .inr hnone
              all_goals exact .inr ⟨rfl, rfl⟩
      | _ => exact .inr ⟨by simp [Lexeme.keyword?], rfl⟩

/-! ### Dotted names -/

/-- A dot and a word behind it, with no gap in front of either. -/
def dotWord (r : Rule) : Part := seq [adjacent (Grammar.sign .dot), adjacent (Grammar.word r)]

lemma adjacent_cons (p : Part) (t : Piece) (us : List Piece) :
    adjacent p (t :: us) = if t.gap.isEmpty then p (t :: us) else none := rfl

lemma adjacent_of_eq_none {p : Part} (h : p ts = none) : adjacent p ts = none := by
  change (if _ then p ts else none) = none
  rw [h]
  exact ite_self none

lemma consumes_dotWord (r : Rule) : Consumes (dotWord r) :=
  Consumes.seq (Consumes.adjacent (consumes_piece _)) _

/-- A word that hangs on what is before it is one of the dotted words. -/
lemma dotWord_cases (h : IsCut ts) (r : Rule) :
    (∃ t u us w, ts = t :: u :: us ∧ t.lexeme = .mark .dot ∧ t.gap ++ t.text = ['.']
        ∧ u.gap ++ u.text = w.toList ∧ dotWord r ts = some ([⟨r, w.toList, []⟩], us)
        ∧ dotted (tokensOf ts) = (w :: (dotted (tokensOf us)).1, (dotted (tokensOf us)).2))
      ∨ dotWord r ts = none ∧ dotted (tokensOf ts) = ([], tokensOf ts) := by
  rcases sign_cases .dot ts with ⟨t, us, rfl, ht, hsign, hmark⟩ | ⟨-, hsign, hmark⟩
  · rcases word_cases h.tail r with ⟨u, us, w, rfl, hu, htext, hword, -⟩ | ⟨-, hword, hnone⟩
    · rw [dotWord, seq_cons, adjacent_cons, tokensOf_cons ht, tokensOf_cons hu, dotted]
      by_cases hgap : t.gap.isEmpty
      · rw [if_pos hgap, hsign, Option.bind_some, seq_singleton, adjacent_cons]
        by_cases hgap' : u.gap.isEmpty
        · have hdot : t.text = ['.'] := by
            have hspells := h.spells t List.mem_cons_self
            rw [ht] at hspells
            exact eq_of_mark? rfl hspells
          rw [if_pos hgap', hword, if_pos (by rw [hgap, hgap']; rfl)]
          refine .inl ⟨t, u, us, w, rfl, ht, ?_, ?_, rfl, rfl⟩
          · rw [List.isEmpty_iff.1 hgap, hdot]
            rfl
          · rw [List.isEmpty_iff.1 hgap', htext]
            rfl
        · rw [if_neg hgap', if_neg (by rw [Bool.and_eq_true]; exact fun h => hgap' h.2)]
          exact .inr ⟨rfl, rfl⟩
      · rw [if_neg hgap, if_neg (by rw [Bool.and_eq_true]; exact fun h => hgap h.1)]
        exact .inr ⟨rfl, rfl⟩
    · refine .inr ⟨?_, dotted_of_word hmark hnone⟩
      rw [dotWord, seq_cons, adjacent_cons]
      split_ifs
      · rw [hsign, Option.bind_some, seq_singleton, adjacent_of_eq_none hword]
        rfl
      · rfl
  · exact .inr ⟨seq_of_eq_none (adjacent_of_eq_none hsign) _, dotted_of_mark hmark⟩

/-- The text that some pieces cover behind the one before them. -/
def behind (ts rest : List Piece) : List Char :=
  (ts.take (ts.length - rest.length)).flatMap fun t => t.gap ++ t.text

/-- The gap in front of the first piece is not covered, those behind it are. -/
lemma covered_cons_of_suffix {t : Piece} (h : rest <:+ us) :
    Piece.covered (t :: us) rest = t.text ++ behind us rest := by
  have hlength : (t :: us).length - rest.length = (us.length - rest.length) + 1 := by
    have hle := h.length_le
    simp only [List.length_cons]
    omega
  rw [Piece.covered, hlength]
  rfl

lemma behind_cons {t : Piece} (h : rest <:+ us) :
    behind (t :: us) rest = t.gap ++ t.text ++ behind us rest := by
  have hlength : (t :: us).length - rest.length = (us.length - rest.length) + 1 := by
    have hle := h.length_le
    simp only [List.length_cons]
    omega
  rw [behind, hlength]
  rfl

/-- The dotted words are taken as long as there are any. -/
lemma many_dotWord (r : Rule) (n : Nat) (hn : us.length ≤ n) (h : IsCut us) :
    ∃ xs rest, many (dotWord r) us = some (xs, rest) ∧ rest <:+ us
      ∧ tokensOf rest = (dotted (tokensOf us)).2
      ∧ behind us rest = (dotted (tokensOf us)).1.flatMap fun w => '.' :: w.toList := by
  induction n generalizing us with
  | zero =>
      obtain rfl : us = [] := List.eq_nil_of_length_eq_zero (Nat.le_zero.1 hn)
      exact ⟨[], [], rfl, List.suffix_rfl, rfl, rfl⟩
  | succ n ih =>
      rcases dotWord_cases h r with ⟨t, u, vs, w, rfl, -, htext, htext', hpart, hread⟩
        | ⟨hpart, hread⟩
      · obtain ⟨xs, rest, hmany, hsuffix, hrest, hbehind⟩ :=
          ih (by simp only [List.length_cons] at hn; omega) h.tail.tail
        refine ⟨⟨r, w.toList, []⟩ :: xs, rest, ?_,
          hsuffix.trans ((List.suffix_cons u vs).trans (List.suffix_cons t _)), ?_, ?_⟩
        · rw [many_of_eq_some (consumes_dotWord r) hpart, hmany]
          rfl
        · rw [hread, hrest]
        · rw [behind_cons (hsuffix.trans (List.suffix_cons u vs)), behind_cons hsuffix, htext,
            htext', hbehind, hread]
          simp
      · refine ⟨[], us, many_of_eq_none (consumes_dotWord r) hpart,
          List.suffix_rfl, by rw [hread], ?_⟩
        rw [hread, behind, Nat.sub_self]
        rfl

/-- Words between dots. -/
lemma toList_intercalate_dot (w : String) (ws : List String) :
    (".".intercalate (w :: ws)).toList = w.toList ++ ws.flatMap fun w => '.' :: w.toList := by
  rw [String.toList_intercalate]
  induction ws generalizing w with
  | nil => simp [List.intercalate]
  | cons v ws ih =>
      rw [List.map_cons, List.map_cons, List.intercalate_cons_cons]
      have htail := ih v
      rw [List.map_cons] at htail
      rw [htail]
      simp

/-- **The name of a function** is its words with dots between them. -/
lemma functionName_cons {t : Piece} {w : String} (h : IsCut (t :: us)) (hl : t.lexeme = .word w) :
    ∃ rest, Grammar.functionName (t :: us) = some ([⟨.functionName,
        (".".intercalate (w :: (dotted (tokensOf us)).1)).toList, []⟩], rest)
      ∧ rest <:+ us ∧ tokensOf rest = (dotted (tokensOf us)).2 := by
  obtain ⟨xs, rest, hmany, hsuffix, hrest, hbehind⟩ := many_dotWord .label us.length le_rfl h.tail
  refine ⟨rest, ?_, hsuffix, hrest⟩
  rcases word_cases h .label with ⟨t', us', w', heq, hw', htext, hword, -⟩ | ⟨hne, -, -⟩
  · cases heq
    rw [hl] at hw'
    cases hw'
    have hseq : seq [Grammar.word .label, many (dotWord .label)] (t :: us)
        = some (⟨.label, w.toList, []⟩ :: xs, rest) := by
      rw [seq_of_eq_some hword, seq_singleton, hmany]
      rfl
    refine (atomic_of_eq_some hseq).trans ?_
    rw [covered_cons_of_suffix hsuffix, htext, hbehind, toList_intercalate_dot]
  · have hfalse := hne t rfl
    rw [hl] at hfalse
    cases hfalse

end CodeGraph.Cypher
