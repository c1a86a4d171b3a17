import CodeGraph.Proofs.Cypher.Rendering
import Mathlib.Data.List.TakeWhile

/-!
The tokens of texts that were written down.

* `Reads.trans`, `Reads.cons`: texts are read piece by piece.
* `lexeme?_word`, `lexeme?_integer`, `lexeme?_minus`, …: the pieces, in front of what cannot
  continue them.
* `Expr.reads_text`, `PathPattern.reads_text`, `ofText?_matchingText`: the texts of queries have the
  tokens that one expects, and no others.
-/

namespace CodeGraph
namespace Cypher

variable {g r rest out : List Char} {ts us : List Token} {l : Lexeme}

/-! ### Reading piece by piece -/

lemma Reads.trans (h : Reads g ts r) (h' : Reads r us out) : Reads g (ts ++ us) out := by
  induction h with
  | done => exact h'
  | step hgap hlexeme _ ih => exact .step hgap hlexeme (ih h')

/-- A lexeme behind a gap. -/
lemma Reads.cons {w : List Char} (hg : Gap g) (hl : lexeme? (w ++ rest) = some (l, rest))
    (h : Reads rest ts out) :
    Reads (g ++ (w ++ rest)) (⟨g, l⟩ :: ts) out := by
  refine .step ?_ hl h
  rw [hg.splitGap_append, splitGap_of_isSolid (isSolid_of_lexeme? hl), Option.map_some,
    List.append_nil]

/-- A sign behind a gap. -/
lemma Reads.mark {c : Char} {m : Mark} (hg : Gap g)
    (hl : lexeme? (c :: rest) = some (.mark m, rest))
    (h : Reads rest ts out) : Reads (g ++ c :: rest) (⟨g, .mark m⟩ :: ts) out :=
  .cons (w := [c]) hg hl h

/-- A single blank. -/
lemma gap_blank : Gap [' '] := .blank (by decide) .nil

/-- A lexeme behind a single blank. -/
lemma Reads.blank {w : List Char} (hl : lexeme? (w ++ rest) = some (l, rest))
    (h : Reads rest ts out) :
    Reads (' ' :: (w ++ rest)) (⟨[' '], l⟩ :: ts) out :=
  .cons gap_blank hl h

/-! ### Words -/

/-- What cannot continue a word. -/
def EndsWord (cs : List Char) : Prop := ∀ c ∈ cs.head?, isWordPart c = false

lemma endsWord_cons {c : Char} (h : isWordPart c = false) (cs : List Char) :
    EndsWord (c :: cs) := by
  intro d hd
  rwa [← Option.some.inj hd]

/-- Words that each have a sign in front end where the next one starts. -/
lemma endsWord_flatMap {α : Type} {f : α → List Char} {c : Char} (h : isWordPart c = false)
    (hrest : EndsWord rest) (xs : List α) : EndsWord (xs.flatMap (fun x => c :: f x) ++ rest) := by
  cases xs with
  | nil => exact hrest
  | cons x xs => exact endsWord_cons h _

lemma span_of_all {p : Char → Bool} {cs : List Char} (hcs : cs.all p)
    (hrest : ∀ c ∈ rest.head?, p c = false) :
    (cs ++ rest).span p = (cs, rest) := by
  rw [List.all_eq_true] at hcs
  rw [List.span_eq_takeWhile_dropWhile, List.takeWhile_append_of_pos hcs,
    List.dropWhile_append_of_pos hcs]
  cases rest with
  | nil => simp
  | cons c rest => simp [hrest c rfl]

/-- A word is read up to its end. -/
lemma lexeme?_word {w : String} (hw : isIdentifier w) (hrest : EndsWord rest) :
    lexeme? (w.toList ++ rest) = some (.word w, rest) := by
  rw [isIdentifier] at hw
  split at hw
  · rename_i c part hpart
    rw [Bool.and_eq_true] at hw
    rw [hpart, List.cons_append, lexeme?, if_pos hw.1, span_of_all hw.2 hrest]
    dsimp only
    rw [← hpart, String.ofList_toList]
  · cases hw

lemma numberAfter_ne_word (negative : Bool) (whole cs : List Char) (w : String) :
    (numberAfter negative whole cs).1 ≠ .word w := by
  rw [numberAfter.eq_def]
  split
  · split_ifs <;> exact Lexeme.noConfusion
  · exact Lexeme.noConfusion

lemma isWordStart_of_lexeme? {c : Char} {w : String} (h : lexeme? (c :: rest) = some (.word w, r)) :
    isWordStart c := by
  by_contra hstart
  rw [lexeme?, if_neg hstart] at h
  split at h
  · have hnumber := congrArg Prod.fst (Option.some.inj h)
    rw [unsignedNumber.eq_def] at hnumber
    split at hnumber
    · cases hnumber
    · exact absurd hnumber (numberAfter_ne_word _ _ _ _)
  · split at h
    · exact absurd (congrArg Prod.fst (Option.some.inj h)) (numberAfter_ne_word _ _ _ _)
    · split at h
      · obtain ⟨p, -, heq⟩ := Option.map_eq_some_iff.1 h
        cases heq
      · obtain ⟨p, -, heq⟩ := Option.map_eq_some_iff.1 h
        cases heq

/-- A word is an identifier, and as long as it can be. -/
lemma lexeme?_word_iff {cs : List Char} {w : String} :
    lexeme? (cs ++ rest) = some (.word w, rest)
      ↔ w = String.ofList cs ∧ isIdentifier w ∧ EndsWord rest := by
  constructor
  · intro h
    cases cs with
    | nil => exact absurd (lexeme?_length_lt h) (lt_irrefl _)
    | cons c cs =>
        have hstart : isWordStart c := isWordStart_of_lexeme? h
        rw [List.cons_append, lexeme?, if_pos hstart, List.span_eq_takeWhile_dropWhile] at h
        obtain ⟨hword, hrest⟩ := Prod.mk.inj (Option.some.inj h)
        have hcs : (cs ++ rest).takeWhile isWordPart = cs := by
          have happend := List.takeWhile_append_dropWhile (p := isWordPart) (l := cs ++ rest)
          rw [hrest] at happend
          exact List.append_cancel_right happend
        rw [hcs] at hword
        obtain rfl := Lexeme.word.inj hword
        refine ⟨rfl, ?_, fun d hd => ?_⟩
        · rw [isIdentifier, String.toList_ofList]
          refine Bool.and_eq_true_iff.2 ⟨hstart, List.all_eq_true.2 fun d hd => ?_⟩
          rw [← hcs] at hd
          exact List.mem_takeWhile_imp hd
        · rw [← hrest] at hd
          have := List.head?_dropWhile_not isWordPart (cs ++ rest)
          rw [hd] at this
          simpa using this
  · rintro ⟨rfl, hword, hrest⟩
    have hlexeme := lexeme?_word hword hrest
    rwa [String.toList_ofList] at hlexeme

/-- A lexeme that is a word is an identifier. -/
lemma isIdentifier_of_lexeme? {cs : List Char} {w : String} (h : lexeme? cs = some (.word w, r)) :
    isIdentifier w := by
  cases cs with
  | nil => cases h
  | cons c cs =>
      obtain ⟨v, hv⟩ := (lexeme?_suffix h).trans (List.suffix_cons c cs)
      rw [← hv] at h
      exact (lexeme?_word_iff.1 h).2.1

/-! ### Integers -/

/-- What can continue neither a word nor a number. -/
def EndsNumber (cs : List Char) : Prop := ∀ c ∈ cs.head?, isWordPart c = false ∧ c ≠ '.'

lemma endsNumber_cons {c : Char} (hpart : isWordPart c = false) (hdot : c ≠ '.') (cs : List Char) :
    EndsNumber (c :: cs) := by
  intro d hd
  rw [← Option.some.inj hd]
  exact ⟨hpart, hdot⟩

lemma endsNumber_blank (rest : List Char) : EndsNumber (' ' :: rest) :=
  endsNumber_cons (by decide) (by decide) rest

lemma endsNumber_close (rest : List Char) : EndsNumber (')' :: rest) :=
  endsNumber_cons (by decide) (by decide) rest

lemma EndsNumber.endsWord (h : EndsNumber rest) : EndsWord rest := fun c hc => (h c hc).1

lemma EndsNumber.ne_dot (h : EndsNumber rest) (cs : List Char) : rest ≠ '.' :: cs := by
  rintro rfl
  exact (h '.' rfl).2 rfl

lemma EndsNumber.isDigit_eq_false (h : EndsNumber rest) : ∀ c ∈ rest.head?, c.isDigit = false := by
  intro c hc
  have hpart := (h c hc).1
  simp only [isWordPart, Char.isAlphanum, Bool.or_eq_false_iff] at hpart
  exact hpart.1.2

/-- Digits stand in front of all letters. -/
lemma isWordStart_of_isDigit {c : Char} (h : c.isDigit) : isWordStart c = false := by
  have hdigit : c.val ≤ '9'.val := of_decide_eq_true (Bool.and_eq_true_iff.1 h).2
  have hlarge : ∀ d : Char, '9'.val < d.val → ¬ c.val ≥ d.val := fun d hd hc =>
    absurd (UInt32.lt_of_lt_of_le hd hc) (UInt32.not_lt.2 hdigit)
  have hupper : c.isUpper = false := decide_eq_false fun hc => hlarge 'A' (by decide) hc.1
  have hlower : c.isLower = false :=
    Bool.and_eq_false_imp.2 fun hc => absurd (of_decide_eq_true hc) (hlarge 'a' (by decide))
  have hunderscore : c ≠ '_' := by
    rintro rfl
    exact absurd h (by decide)
  change (c.isUpper || c.isLower || c == '_') = false
  simp [hupper, hlower, hunderscore]

lemma numberAfter_of_ne {negative : Bool} {whole : List Char} (hrest : ∀ cs, rest ≠ '.' :: cs) :
    numberAfter negative whole rest = (.integer negative whole, rest) := by
  rw [numberAfter.eq_def]
  split
  · exact absurd rfl (hrest _)
  · rfl

/-- A number is read up to its end, with its sign. -/
lemma lexeme?_integer (negative : Bool) {digits : List Char} (hne : digits ≠ [])
    (hdigits : digits.all Char.isDigit) (hrest : EndsNumber rest) :
    lexeme? ((if negative then '-' :: digits else digits) ++ rest)
      = some (.integer negative digits, rest) := by
  have hspan := span_of_all hdigits hrest.isDigit_eq_false
  obtain ⟨d, ds, rfl⟩ := List.exists_cons_of_ne_nil hne
  have hd : d.isDigit := List.all_eq_true.1 hdigits d List.mem_cons_self
  cases negative with
  | false =>
      have hnumber : unsignedNumber (d :: ds ++ rest) = (.integer false (d :: ds), rest) := by
        rw [unsignedNumber_of_ne hspan fun tail => hrest.ne_dot _, numberAfter_of_ne hrest.ne_dot]
      rw [if_neg Bool.false_ne_true, List.cons_append, lexeme?,
        if_neg (by simp [isWordStart_of_isDigit hd]),
        if_pos (by simp [hd]), ← List.cons_append, hnumber]
  | true =>
      have hnumber : negativeNumber (d :: ds ++ rest) = (.integer true (d :: ds), rest) := by
        rw [negativeNumber, hspan]
        exact numberAfter_of_ne hrest.ne_dot
      have hminus : lexeme? ('-' :: (d :: ds ++ rest))
          = some (negativeNumber (d :: ds ++ rest)) := by
        rw [lexeme?, if_neg (by decide), if_neg (by simp), if_pos (by simp [hd])]
      rw [if_pos rfl, List.cons_append, hminus, hnumber]

/-! ### Signs -/

/-- The character of a sign, if it is one alone. -/
def Mark.char? : Mark → Option Char
  | openParen => some '('
  | closeParen => some ')'
  | openBracket => some '['
  | closeBracket => some ']'
  | openBrace => some '{'
  | closeBrace => some '}'
  | comma => some ','
  | colon => some ':'
  | semicolon => some ';'
  | dot => some '.'
  | bar => some '|'
  | star => some '*'
  | minus => some '-'
  | less => some '<'
  | greater => some '>'
  | equal => some '='
  | lessEqual | greaterEqual | unequal => none

/-- A sign that no other sign and no number begins with is read whatever follows it. -/
lemma lexeme?_mark {m : Mark} {c : Char} (h : m.char? = some c)
    (hm : m ∉ [.dot, .minus, .less, .greater]) (rest : List Char) :
    lexeme? (c :: rest) = some (.mark m, rest) := by
  cases m with
  | dot | minus | less | greater => exact absurd (by decide) hm
  | lessEqual | greaterEqual | unequal => cases h
  | _ =>
      cases h
      rfl

/-- A text that a sign of one character takes up is that character. -/
lemma eq_of_mark? {m : Mark} {c : Char} {text : List Char} (h : m.char? = some c)
    (htext : mark? text = some (m, [])) : text = [c] := by
  revert htext
  fun_cases mark? text
  case case1 | case2 | case3 | case4 =>
    intro htext
    cases htext
    cases h
  case case21 => exact fun htext => absurd htext (Option.some_ne_none _).symm
  all_goals
    intro htext
    cases htext
    cases h
    rfl

/-- A dash is a sign of a number before a digit only. -/
lemma lexeme?_minus (hrest : rest.head?.any Char.isDigit = false) :
    lexeme? ('-' :: rest) = some (.mark .minus, rest) := by
  rw [lexeme?, if_neg (by decide), if_neg (by simp), if_neg (by simp [hrest]), if_neg (by decide)]
  rfl

/-- The dot in front of a key. -/
lemma lexeme?_dot {w : String} (hw : isIdentifier w) (rest : List Char) :
    lexeme? ('.' :: (w.toList ++ rest)) = some (.mark .dot, w.toList ++ rest) := by
  rw [isIdentifier] at hw
  split at hw
  · rename_i c part hpart
    have hdot : c ≠ '.' := by
      rintro rfl
      exact absurd hw (by simp [isWordStart])
    rw [hpart, List.cons_append, lexeme?, if_neg (by decide), if_neg (by simp [hdot]),
      if_neg (by simp),
      if_neg (by decide)]
    rfl
  · cases hw

lemma lexeme?_null (hrest : EndsWord rest) :
    lexeme? (['N', 'U', 'L', 'L'] ++ rest) = some (.word "NULL", rest) :=
  lexeme?_word (w := "NULL") (by decide +kernel) hrest

lemma reads_isNull (hrest : EndsWord rest) :
    Reads (' ' :: (['I', 'S'] ++ ' ' :: (['N', 'U', 'L', 'L'] ++ rest)))
      [⟨[' '], .word "IS"⟩, ⟨[' '], .word "NULL"⟩] rest :=
  .blank rfl (.blank (lexeme?_null hrest) .done)

lemma reads_isNotNull (hrest : EndsWord rest) :
    Reads (' ' :: (['I', 'S'] ++ ' ' :: (['N', 'O', 'T'] ++ ' ' :: (['N', 'U', 'L', 'L'] ++ rest))))
      [⟨[' '], .word "IS"⟩, ⟨[' '], .word "NOT"⟩, ⟨[' '], .word "NULL"⟩] rest :=
  .blank rfl (.blank rfl (.blank (lexeme?_null hrest) .done))

/-- Identifiers, each behind a sign. -/
lemma reads_words {α : Type} {f : α → String} {sep : Char} {m : Mark}
    (hsep : ∀ cs, lexeme? (sep :: cs) = some (.mark m, cs)) (hpart : isWordPart sep = false)
    {xs : List α}
    (hxs : ∀ x ∈ xs, isIdentifier (f x)) (hrest : EndsWord rest) :
    Reads (xs.flatMap (fun x => sep :: (f x).toList) ++ rest)
      (xs.flatMap fun x => [⟨[], .mark m⟩, ⟨[], .word (f x)⟩]) rest := by
  induction xs with
  | nil => exact .done
  | cons x xs ih =>
      have hnext := endsWord_flatMap (f := fun x => (f x).toList) hpart hrest xs
      have htail := ih fun y hy => hxs y (List.mem_cons_of_mem _ hy)
      have hword := lexeme?_word (hxs x List.mem_cons_self) hnext
      have hreads := Reads.mark .nil (hsep _) (Reads.cons .nil hword htail)
      simpa using hreads

end Cypher

open Cypher

variable {g rest : List Char}

/-! ### Expressions -/

namespace BinaryOp

/-- The tokens of an operator with a blank in front of each word. -/
def tokens : BinaryOp → List Token
  | comparison .eq => [⟨[' '], .mark .equal⟩]
  | comparison .ne => [⟨[' '], .mark .unequal⟩]
  | comparison .lt => [⟨[' '], .mark .less⟩]
  | comparison .le => [⟨[' '], .mark .lessEqual⟩]
  | comparison .gt => [⟨[' '], .mark .greater⟩]
  | comparison .ge => [⟨[' '], .mark .greaterEqual⟩]
  | text .startsWith => [⟨[' '], .word "STARTS"⟩, ⟨[' '], .word "WITH"⟩]
  | text .endsWith => [⟨[' '], .word "ENDS"⟩, ⟨[' '], .word "WITH"⟩]
  | text .contains => [⟨[' '], .word "CONTAINS"⟩]
  | connective .and => [⟨[' '], .word "AND"⟩]
  | connective .or => [⟨[' '], .word "OR"⟩]
  | connective .xor => [⟨[' '], .word "XOR"⟩]

/-- The name of an operator is read as its tokens. -/
lemma reads_name (op : BinaryOp) (rest : List Char) :
    Reads (' ' :: (op.name.toList ++ ' ' :: rest)) op.tokens (' ' :: rest) := by
  rcases op with (_ | _ | _ | _ | _ | _) | (_ | _ | _) | (_ | _ | _)
  case text.startsWith =>
    exact .blank (w := ['S', 'T', 'A', 'R', 'T', 'S']) rfl
      (.blank (w := ['W', 'I', 'T', 'H']) rfl .done)
  case text.endsWith =>
    exact .blank (w := ['E', 'N', 'D', 'S']) rfl (.blank (w := ['W', 'I', 'T', 'H']) rfl .done)
  all_goals exact .blank rfl .done

end BinaryOp

/-- The token of a plain literal, with a gap in front of it. -/
def Property.tokens : Property → List Char → List Token
  | integer value, g => [⟨g, .integer (value.toInt < 0) (Nat.toDigits 10 value.toInt.natAbs)⟩]
  | boolean value, g => [⟨g, .word (if value then "true" else "false")⟩]
  | null, g => [⟨g, .word "null"⟩]
  | string _, _ | float _, _ => []

namespace Expr

/-- The tokens of a plain expression, with a gap in front of the first of them. -/
def tokens : Expr → List Char → List Token
  | property name key, g => [⟨g, .word name⟩, ⟨[], .mark .dot⟩, ⟨[], .word key⟩]
  | literal value, g => value.tokens g
  | var name, g => [⟨g, .word name⟩]
  | binary op left right, g => ⟨g, .mark .openParen⟩ ::
      (left.tokens [] ++ (op.tokens ++ (right.tokens [' '] ++ [⟨[], .mark .closeParen⟩])))
  | unary .not operand, g => ⟨g, .mark .openParen⟩ :: ⟨[], .word "NOT"⟩ ::
      (operand.tokens [' '] ++ [⟨[], .mark .closeParen⟩])
  | unary .isNull operand, g => ⟨g, .mark .openParen⟩ ::
      (operand.tokens [] ++ [⟨[' '], .word "IS"⟩, ⟨[' '], .word "NULL"⟩, ⟨[], .mark .closeParen⟩])
  | unary .isNotNull operand, g => ⟨g, .mark .openParen⟩ ::
      (operand.tokens [] ++
        [⟨[' '], .word "IS"⟩, ⟨[' '], .word "NOT"⟩, ⟨[' '], .word "NULL"⟩, ⟨[], .mark .closeParen⟩])
  | call _ _, _ => []

lemma toList_toString_int (value : Int) : (toString value).toList
    = (if decide (value < 0) then '-' :: Nat.toDigits 10 value.natAbs
      else Nat.toDigits 10 value.natAbs) := by
  cases value with
  | ofNat n => simp [Int.repr]
  | negSucc n => simp [Int.repr]

/-- **The text of a plain expression** is read as its tokens. -/
lemma reads_text {e : Expr} (he : e.isPlain) (hg : Gap g) (hrest : EndsNumber rest) :
    Reads (g ++ (e.text.toList ++ rest)) (e.tokens g) rest := by
  induction e, he using Expr.isPlain_induction generalizing g rest with
  | property name key hname hkey =>
      have hlast := Reads.cons .nil (lexeme?_word hkey hrest.endsWord) .done
      have hdot := Reads.mark .nil (lexeme?_dot hkey rest) hlast
      have hends : EndsWord ('.' :: (key.toList ++ rest)) := endsWord_cons (by decide) _
      have hall := Reads.cons hg (lexeme?_word (isIdentifier_of_isVariable hname) hends) hdot
      simpa [text, tokens] using hall
  | integer value =>
      have hdigits : (Nat.toDigits 10 value.toInt.natAbs).all Char.isDigit :=
        List.all_eq_true.2 fun c hc => Nat.isDigit_of_mem_toDigits (by decide) (by decide) hc
      rw [text, Property.display, toList_toString_int]
      exact .cons hg (lexeme?_integer _ Nat.toDigits_ne_nil hdigits hrest) .done
  | boolean value =>
      have hword : isIdentifier (if value then "true" else "false") := by
        cases value <;> decide +kernel
      have hvalue := Reads.cons hg (lexeme?_word hword hrest.endsWord) .done
      rw [text, Property.display]
      exact hvalue
  | null =>
      have hnull :=
        Reads.cons hg (lexeme?_word (w := "null") (by decide +kernel) hrest.endsWord) .done
      rw [text, Property.display]
      exact hnull
  | var name hname =>
      have hread :=
        Reads.cons hg (lexeme?_word (isIdentifier_of_isVariable hname) hrest.endsWord) .done
      rw [text]
      exact hread
  | binary op left right _ _ ihl ihr =>
      have hclose : Reads (')' :: rest) [⟨[], .mark .closeParen⟩] rest :=
        .mark .nil (lexeme?_mark (m := .closeParen) rfl (by decide) rest) .done
      have hsecond := (ihr gap_blank (endsNumber_close rest)).trans hclose
      have hfirst := (ihl .nil (endsNumber_blank _)).trans ((op.reads_name _).trans hsecond)
      have hopen := Reads.mark hg (lexeme?_mark (m := .openParen) rfl (by decide) _) hfirst
      simpa [text, tokens] using hopen
  | unary op operand _ ih =>
      have hclose : Reads (')' :: rest) [⟨[], .mark .closeParen⟩] rest :=
        .mark .nil (lexeme?_mark (m := .closeParen) rfl (by decide) rest) .done
      cases op with
      | not =>
          have htail := (ih gap_blank (endsNumber_close rest)).trans hclose
          have hnot := Reads.cons (w := ['N', 'O', 'T']) .nil rfl htail
          have hopen := Reads.mark hg (lexeme?_mark (m := .openParen) rfl (by decide) _) hnot
          simpa [text, tokens] using hopen
      | isNull =>
          have hnull := (reads_isNull (endsNumber_close rest).endsWord).trans hclose
          have htail := (ih .nil (endsNumber_blank _)).trans hnull
          have hopen := Reads.mark hg (lexeme?_mark (m := .openParen) rfl (by decide) _) htail
          simpa [text, tokens, UnaryOp.name] using hopen
      | isNotNull =>
          have hnull := (reads_isNotNull (endsNumber_close rest).endsWord).trans hclose
          have htail := (ih .nil (endsNumber_blank _)).trans hnull
          have hopen := Reads.mark hg (lexeme?_mark (m := .openParen) rfl (by decide) _) htail
          simpa [text, tokens, UnaryOp.name] using hopen

end Expr

/-! ### Paths -/

namespace NodePattern

/-- The tokens of a node, with a gap in front of the first of them. -/
def tokens (n : NodePattern) (g : List Char) : List Token :=
  ⟨g, .mark .openParen⟩ :: (n.name.toList.map (fun v => ⟨[], .word v⟩)
    ++ (n.labels.flatMap (fun l => [⟨[], .mark .colon⟩, ⟨[], .word l.text⟩])
      ++ [⟨[], .mark .closeParen⟩]))

lemma exists_toList_text (n : NodePattern) : ∃ cs, n.text.toList = '(' :: cs := by
  simp [text]

/-- What a plain node has in front of its properties. -/
lemma reads_head {n : NodePattern} {ts : List Token} {out : List Char} (hn : n.isPlain) (hg : Gap g)
    (hends : EndsWord rest) (h : Reads rest ts out) :
    Reads (g ++ '('
      :: ((n.name.getD "").toList ++ (n.labels.flatMap (fun l => ':' :: l.text.toList) ++ rest)))
      (⟨g, .mark .openParen⟩ :: (n.name.toList.map (fun v => ⟨[], .word v⟩)
        ++ (n.labels.flatMap (fun l => [⟨[], .mark .colon⟩, ⟨[], .word l.text⟩]) ++ ts))) out := by
  simp only [isPlain, Bool.and_eq_true, List.all_eq_true] at hn
  obtain ⟨⟨hname, hlabels⟩, -⟩ := hn
  have hlabels' :=
    (reads_words (lexeme?_mark (m := .colon) rfl (by decide)) (by decide) hlabels hends).trans h
  cases hv : n.name with
  | none => exact Reads.mark hg (lexeme?_mark (m := .openParen) rfl (by decide) _) hlabels'
  | some v =>
      have hvariable : isIdentifier v := isIdentifier_of_isVariable (by simpa [hv] using hname)
      have hnext :=
        endsWord_flatMap (f := fun l => l.text.toList) (c := ':') (by decide) hends n.labels
      exact Reads.mark hg (lexeme?_mark (m := .openParen) rfl (by decide) _)
        (.cons .nil (lexeme?_word hvariable hnext) hlabels')

/-- The text of a node is read as its tokens. -/
lemma reads_text {n : NodePattern} (hn : n.isPlain) (hg : Gap g) (rest : List Char) :
    Reads (g ++ (n.text.toList ++ rest)) (n.tokens g) rest := by
  have hclose : Reads (')' :: rest) [⟨[], .mark .closeParen⟩] rest :=
    .mark .nil (lexeme?_mark (m := .closeParen) rfl (by decide) rest) .done
  have hall := reads_head hn hg (endsNumber_close rest).endsWord hclose
  simpa [text, tokens, List.flatMap_map] using hall

end NodePattern

namespace EdgePattern

/-- The tokens of groups behind an opening bracket. -/
def groupTokens : List Group → List Token
  | [] => []
  | h :: rest => ⟨[], .mark .colon⟩ :: ⟨[], .word h.name⟩ ::
      rest.flatMap (fun h => [⟨[], .mark .bar⟩, ⟨[], .word h.name⟩])

/-- The tokens between the two minus signs of an edge. -/
def detailTokens (drawing : Drawing) (e : EdgePattern) : List Token :=
  if e.groups.isEmpty && !drawing.brackets then []
  else ⟨[], .mark .openBracket⟩ :: (groupTokens e.groups ++ [⟨[], .mark .closeBracket⟩])

/-- The tokens of an edge. -/
def tokens (drawing : Drawing) (e : EdgePattern) : List Token :=
  (if (heads drawing e.direction).1 then [⟨[], .mark .less⟩] else []) ++
    (⟨[], .mark .minus⟩ :: (detailTokens drawing e ++
      (⟨[], .mark .minus⟩ :: if (heads drawing e.direction).2 then [⟨[], .mark .greater⟩] else [])))

/-- The groups of an edge, with a colon before the first and a bar before the others. -/
lemma reads_groupsText {gs : List Group} (hgs : ∀ h ∈ gs, isIdentifier h.name)
    (hends : EndsWord rest) :
    Reads ((groupsText gs).toList ++ rest) (groupTokens gs) rest := by
  cases gs with
  | nil => exact .done
  | cons h gs =>
      have hgroups := reads_words (lexeme?_mark (m := .bar) rfl (by decide)) (by decide)
        (fun k hk => hgs k (List.mem_cons_of_mem _ hk)) hends
      have hnext :=
        endsWord_flatMap (f := fun k : Group => k.name.toList) (c := '|') (by decide) hends gs
      have hfirst := Reads.mark .nil (lexeme?_mark (m := .colon) rfl (by decide) _)
        (.cons .nil (lexeme?_word (hgs h List.mem_cons_self) hnext) hgroups)
      simpa [groupsText, groupTokens, List.flatMap_map] using hfirst

/-- What stands between the strokes of an edge. Brackets may be drawn around nothing. -/
lemma reads_detailText (drawing : Drawing) {e : EdgePattern} (he : e.isPlain) (rest : List Char) :
    Reads ((e.detailText drawing).toList ++ '-' :: rest) (e.detailTokens drawing)
      ('-' :: rest) := by
  simp only [isPlain, Bool.and_eq_true, List.all_eq_true] at he
  obtain ⟨⟨⟨-, hgroups⟩, -⟩, -⟩ := he
  rw [detailText, detailTokens]
  split
  · exact .done
  · have hclose : Reads (']' :: '-' :: rest) [⟨[], .mark .closeBracket⟩] ('-' :: rest) :=
      .mark .nil (lexeme?_mark (m := .closeBracket) rfl (by decide) _) .done
    have hdetail := (reads_groupsText hgroups (endsWord_cons (by decide) _)).trans hclose
    have hopen := Reads.mark .nil (lexeme?_mark (m := .openBracket) rfl (by decide) _) hdetail
    simpa using hopen

/-- No digit follows the first stroke of an edge. -/
lemma head?_detailText (drawing : Drawing) (e : EdgePattern) (rest : List Char) :
    ((e.detailText drawing).toList ++ '-' :: rest).head?.any Char.isDigit = false := by
  rw [detailText]
  split
  · rfl
  · simp

/-- The tokens of an edge around those of its detail. -/
def strokeTokens (drawing : Drawing) (d : PatternDirection) (detail : List Token) : List Token :=
  (if (heads drawing d).1 then [⟨[], .mark .less⟩] else []) ++
    (⟨[], .mark .minus⟩ :: (detail ++
      (⟨[], .mark .minus⟩ :: if (heads drawing d).2 then [⟨[], .mark .greater⟩] else [])))

/-- Whatever stands between the two strokes of an edge. -/
lemma reads_strokes (drawing : Drawing) (d : PatternDirection) {detail : String} {ts : List Token}
    (hdigit : ∀ rest, (detail.toList ++ '-' :: rest).head?.any Char.isDigit = false)
    (hdetail : ∀ rest, Reads (detail.toList ++ '-' :: rest) ts ('-' :: rest)) (rest : List Char) :
    Reads (((if (heads drawing d).1 then "<" else "") ++ "-" ++ detail ++ "-"
        ++ (if (heads drawing d).2 then ">" else "")).toList ++ '(' :: rest)
      (strokeTokens drawing d ts) ('(' :: rest) := by
  have hright : Reads ('-' :: ((if (heads drawing d).2 then ['>'] else []) ++ '(' :: rest))
      (⟨[], .mark .minus⟩ :: if (heads drawing d).2 then [⟨[], .mark .greater⟩] else [])
        ('(' :: rest) := by
    cases (heads drawing d).2 with
    | false => exact .mark .nil (lexeme?_minus rfl) .done
    | true => exact .mark .nil (lexeme?_minus rfl) (.mark .nil rfl .done)
  have hstroke := Reads.mark .nil (lexeme?_minus (hdigit _)) ((hdetail _).trans hright)
  cases hleft : (heads drawing d).1 with
  | false => simpa [strokeTokens, hleft, apply_ite String.toList] using hstroke
  | true =>
      have hhead := Reads.mark (c := '<') (m := .less) .nil rfl hstroke
      simpa [strokeTokens, hleft, apply_ite String.toList] using hhead

/-- The text of an edge is read as its tokens, however it is drawn. -/
lemma reads_text (drawing : Drawing) {e : EdgePattern} (he : e.isPlain) (rest : List Char) :
    Reads ((e.text drawing).toList ++ '(' :: rest) (e.tokens drawing) ('(' :: rest) :=
  reads_strokes drawing e.direction (head?_detailText drawing e) (reads_detailText drawing he) rest

end EdgePattern

namespace PathPattern

def segmentTokens (draw : Nat → Drawing) : List Segment → List Token
  | [] => []
  | s :: rest =>
      s.edge.tokens (draw 0) ++ (s.node.tokens [] ++ segmentTokens (fun i => draw (i + 1)) rest)

/-- Edges and nodes in turn, each edge drawn in its own way. -/
lemma reads_segmentsText (draw : Nat → Drawing) {segments : List Segment}
    (h : ∀ s ∈ segments, s.edge.isPlain && s.node.isPlain) (rest : List Char) :
    Reads ((segmentsText draw segments).toList ++ rest) (segmentTokens draw segments) rest := by
  induction segments generalizing draw with
  | nil => exact .done
  | cons s segments ih =>
      obtain ⟨hedge, hnode⟩ := Bool.and_eq_true_iff.1 (h s List.mem_cons_self)
      have htail := ih (fun i => draw (i + 1)) fun s' hs' => h s' (List.mem_cons_of_mem _ hs')
      have hnode' := (s.node.reads_text hnode .nil _).trans htail
      obtain ⟨cs, hcs⟩ := s.node.exists_toList_text
      rw [hcs] at hnode'
      have hedge' := (s.edge.reads_text (draw 0) hedge _).trans hnode'
      simpa [segmentsText, segmentTokens, hcs] using hedge'

/-- The tokens of a path, with a gap in front of the first of them. -/
def tokens (draw : Nat → Drawing) (p : PathPattern) (g : List Char) : List Token :=
  p.start.tokens g ++ segmentTokens draw p.segments

/-- **The text of a path** is read as its tokens. -/
lemma reads_text (draw : Nat → Drawing) {p : PathPattern} (hp : p.isPlain) (hg : Gap g)
    (rest : List Char) :
    Reads (g ++ ((p.text draw).toList ++ rest)) (p.tokens draw g) rest := by
  simp only [isPlain, Bool.and_eq_true, List.all_eq_true] at hp
  have hsegments := reads_segmentsText draw (fun s hs => Bool.and_eq_true_iff.2 (hp.2 s hs)) rest
  have hstart := (p.start.reads_text hp.1 hg _).trans hsegments
  simpa [text, tokens] using hstart

end PathPattern

/-! ### Queries -/

def filterTokens : Option Expr → List Token
  | some e => ⟨[' '], .word "WHERE"⟩ :: e.tokens [' ']
  | none => []

def limitTokens : Option Nat → List Token
  | some k => [⟨[' '], .word "LIMIT"⟩, ⟨[' '], .integer false (Nat.toDigits 10 k)⟩]
  | none => []

/-- The tokens of a query around those of its path and of its filter. -/
def queryTokens (path filter : List Token) (name : String) (limit : Option Nat) : List Token :=
  ⟨[], .word "MATCH"⟩
    :: (path ++ (filter ++ (⟨[' '], .word "RETURN"⟩ :: ⟨[' '], .word name⟩ :: limitTokens limit)))

/-- The tokens of a query around those of its filter. -/
def framedTokens (draw : Nat → Drawing) (path : PathPattern) (filter : List Token) (name : String)
    (limit : Option Nat) : List Token :=
  ⟨[], .word "MATCH"⟩ :: (path.tokens draw [' '] ++ (filter
    ++ (⟨[' '], .word "RETURN"⟩ :: ⟨[' '], .word name⟩ :: limitTokens limit)))

/-- The tokens of the text of a query. -/
def matchingTokens (draw : Nat → Drawing) (path : PathPattern) (filter : Option Expr)
    (name : String)
    (limit : Option Nat) : List Token :=
  ⟨[], .word "MATCH"⟩ :: (path.tokens draw [' '] ++ (filterTokens filter
    ++ (⟨[' '], .word "RETURN"⟩ :: ⟨[' '], .word name⟩ :: limitTokens limit)))

lemma reads_filterText {filter : Option Expr} (h : ∀ e ∈ filter, e.isPlain) (rest : List Char) :
    Reads ((filterText filter).toList ++ ' ' :: rest) (filterTokens filter) (' ' :: rest) := by
  cases filter with
  | none => exact .done
  | some e =>
      have he := e.reads_text (h e rfl) gap_blank (endsNumber_blank rest)
      have hwhere := Reads.blank (w := ['W', 'H', 'E', 'R', 'E']) rfl he
      simpa [filterText, filterTokens] using hwhere

lemma endsWord_limitText (limit : Option Nat) : EndsWord (limitText limit).toList := by
  cases limit with
  | none => exact fun c hc => nomatch hc
  | some k => simp [limitText, EndsWord, isWordPart]

lemma reads_limitText (limit : Option Nat) :
    Reads (limitText limit).toList (limitTokens limit) [] := by
  cases limit with
  | none => exact .done
  | some k =>
      have hdigits : (Nat.toDigits 10 k).all Char.isDigit :=
        List.all_eq_true.2 fun c hc => Nat.isDigit_of_mem_toDigits (by decide) (by decide) hc
      have hnumber := lexeme?_integer false Nat.toDigits_ne_nil hdigits
        (show EndsNumber [] from fun c hc => nomatch hc)
      have hlimit := Reads.blank (w := ['L', 'I', 'M', 'I', 'T']) rfl (.blank hnumber .done)
      simpa [limitText, limitTokens] using hlimit

/-- The tokens of the text of a query are those of its parts, however its path and its filter are
written. -/
lemma ofText?_queryText {path filter : String} {ps ts : List Token} {name : String}
    (hpath : ∀ rest, Reads (' ' :: (path.toList ++ rest)) ps rest)
    (hfilter : ∀ rest, Reads (filter.toList ++ ' ' :: rest) ts (' ' :: rest))
    (hname : isVariable name)
    (limit : Option Nat) :
    Token.ofText? ("MATCH " ++ path ++ filter ++ " RETURN " ++ name ++ limitText limit).toList
      = some (queryTokens ps ts name limit) := by
  have hname' :=
    Reads.blank (lexeme?_word (isIdentifier_of_isVariable hname) (endsWord_limitText limit))
    (reads_limitText limit)
  have hreturn := Reads.blank (w := ['R', 'E', 'T', 'U', 'R', 'N']) rfl hname'
  have hpattern := (hpath _).trans ((hfilter _).trans hreturn)
  have hmatch := Reads.cons (w := ['M', 'A', 'T', 'C', 'H']) .nil rfl hpattern
  have hall : Reads ("MATCH " ++ path ++ filter ++ " RETURN " ++ name ++ limitText limit).toList
      (queryTokens ps ts name limit) [] := by
    simpa [queryTokens] using hmatch
  rw [hall.ofText?_eq, Token.ofText?_of_gap rfl, Option.map_some, List.append_nil]

/-- A plain path may have a filter that is written in any way. -/
lemma ofText?_framedText (draw : Nat → Drawing) {path : PathPattern} {filter : String}
    {ts : List Token} {name : String} (hpath : path.isPlain)
    (hfilter : ∀ rest, Reads (filter.toList ++ ' ' :: rest) ts (' ' :: rest))
    (hname : isVariable name) (limit : Option Nat) :
    Token.ofText? ("MATCH " ++ path.text draw ++ filter ++ " RETURN " ++ name
      ++ limitText limit).toList
      = some (framedTokens draw path ts name limit) :=
  ofText?_queryText (path.reads_text draw hpath gap_blank) hfilter hname limit

/-- **The tokens of the text of a query** are those of its parts. -/
theorem ofText?_matchingText (draw : Nat → Drawing) {path : PathPattern} {filter : Option Expr}
    {name : String} (hpath : path.isPlain) (hfilter : ∀ e ∈ filter, e.isPlain)
    (hname : isVariable name) (limit : Option Nat) :
    Token.ofText? (matchingText draw path filter name limit).toList
      = some (matchingTokens draw path filter name limit) :=
  ofText?_framedText draw hpath (reads_filterText hfilter) hname limit

end CodeGraph
