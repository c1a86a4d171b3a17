import Mathlib
import CodeGraph.Proofs.Cypher.RenderedTokens

/-!
The case of letters.

No number, sign or quote depends on the case of a letter, and a word ends at the same place in every
case. So a text is cut at the same places when its letters change their case.

* `SameLetters`: texts that differ in the case of letters only.
* `Likewise`: two readings that take the same and leave such texts. `Likewise.unsignedNumber`, …:
  the numbers.
* `lexeme?_of_sameLetters`: a lexeme is read the same in front of such texts.
* `SameLetters.isIdentifier`, `SameLetters.ofWord?_eq`: words.
-/

namespace CodeGraph.Cypher

variable {c d : Char} {cs ds r r' w : List Char} {l : Lexeme}

/-! ### The case of letters -/

/-- Two texts that differ in the case of letters only. -/
def SameLetters (cs ds : List Char) : Prop := cs.map Char.toLower = ds.map Char.toLower

instance (cs ds : List Char) : Decidable (SameLetters cs ds) :=
  inferInstanceAs (Decidable (cs.map Char.toLower = ds.map Char.toLower))

/-- Characters that differ in their case are letters. -/
lemma eq_or_isAlpha_of_toLower (h : c.toLower = d.toLower) : c = d ∨ c.isAlpha ∧ d.isAlpha := by
  have halpha : c.isAlpha = d.isAlpha := by
    rw [← Char.isAlpha_toLower_eq_isAlpha, h, Char.isAlpha_toLower_eq_isAlpha]
  by_cases hc : c.isAlpha
  · exact .inr ⟨hc, halpha ▸ hc⟩
  · have hupper : ∀ {e : Char}, ¬ e.isAlpha → e.toLower = e := fun he =>
      Char.toLower_eq_of_not_isUpper fun hu => he (by rw [Char.isAlpha, hu, Bool.true_or])
    rw [hupper hc, hupper (halpha ▸ hc)] at h
    exact .inl h

/-- No letter is a digit. -/
lemma isDigit_of_isAlpha (h : c.isAlpha) : c.isDigit = false := by
  by_contra hdigit
  have hstart := isWordStart_of_isDigit (Bool.not_eq_false _ ▸ hdigit)
  rw [isWordStart, h, Bool.true_or] at hstart
  cases hstart

/-- Whether a word may start with a character does not depend on its case. -/
lemma isWordStart_congr (h : c.toLower = d.toLower) : isWordStart c = isWordStart d := by
  obtain rfl | ⟨hc, hd⟩ := eq_or_isAlpha_of_toLower h
  · rfl
  · simp [isWordStart, hc, hd]

/-- Whether a word may go on with a character does not depend on its case. -/
lemma isWordPart_congr (h : c.toLower = d.toLower) : isWordPart c = isWordPart d := by
  obtain rfl | ⟨hc, hd⟩ := eq_or_isAlpha_of_toLower h
  · rfl
  · simp [isWordPart, Char.isAlphanum, hc, hd]

/-- Whether a character is a digit does not depend on its case. -/
lemma isDigit_congr (h : c.toLower = d.toLower) : c.isDigit = d.isDigit := by
  obtain rfl | ⟨hc, hd⟩ := eq_or_isAlpha_of_toLower h
  · rfl
  · rw [isDigit_of_isAlpha hc, isDigit_of_isAlpha hd]

/-- A character that is no letter has one case. -/
lemma eq_of_toLower (h : c.toLower = d.toLower) (hd : d.isAlpha = false) : c = d :=
  (eq_or_isAlpha_of_toLower h).resolve_right fun hletters => by simp [hd] at hletters

/-- The letter of an exponent. -/
lemma eq_e_iff : c = 'e' ∨ c = 'E' ↔ c.toLower = 'e' := by
  constructor
  · rintro (rfl | rfl) <;> rfl
  · intro h
    by_cases hc : c.isLower
    · exact .inl (Char.toLower_eq_of_not_isUpper (Char.not_isUpper_of_isLower hc) ▸ h)
    · right
      rw [← Char.toUpper_eq_of_not_isLower hc, ← Char.toUpper_toLower_eq_toUpper, h]
      rfl

namespace SameLetters

lemma refl (cs : List Char) : SameLetters cs cs := rfl

lemma symm (h : SameLetters cs ds) : SameLetters ds cs := Eq.symm h

lemma length_eq (h : SameLetters cs ds) : cs.length = ds.length := by
  simpa using congrArg List.length h

lemma append (h : SameLetters cs ds) (hr : SameLetters r r') :
    SameLetters (cs ++ r) (ds ++ r') := by
  rw [SameLetters, List.map_append, List.map_append, h, hr]

/-- Texts that differ in the case of letters only do so character by character. -/
lemma exists_of_cons (h : SameLetters (c :: cs) ds) :
    ∃ d ds', ds = d :: ds' ∧ c.toLower = d.toLower ∧ SameLetters cs ds' := by
  cases ds with
  | nil => cases h
  | cons d ds =>
      obtain ⟨hc, hcs⟩ := List.cons.inj h
      exact ⟨d, ds, rfl, hc, hcs⟩

lemma eq_nil (h : SameLetters [] ds) : ds = [] := List.map_eq_nil_iff.1 h.symm

/-- A character that is no letter stays. -/
lemma exists_cons (h : SameLetters (c :: cs) ds) (hc : c.isAlpha = false) :
    ∃ ds', ds = c :: ds' ∧ SameLetters cs ds' := by
  obtain ⟨d, ds, rfl, hd, hds⟩ := h.exists_of_cons
  exact ⟨ds, by rw [eq_of_toLower hd.symm hc], hds⟩

/-- If one text does not start with a character that is no letter, the other does not either. -/
lemma ne_cons (h : SameLetters cs ds) (hc : c.isAlpha = false) (hne : ∀ r, cs ≠ c :: r)
    (r : List Char) :
    ds ≠ c :: r := by
  rintro rfl
  obtain ⟨cs, rfl, -⟩ := h.symm.exists_cons hc
  exact hne cs rfl

/-- A text of word characters is one in any case. -/
lemma all_isWordPart_eq (h : SameLetters cs ds) : cs.all isWordPart = ds.all isWordPart := by
  have hlower : ∀ t : List Char, t.all isWordPart = (t.map Char.toLower).all isWordPart := by
    intro t
    rw [List.all_map]
    exact congrArg _ (funext fun c => isWordPart_congr (Char.toLower_toLower_eq_toLower c).symm)
  rw [hlower cs, hlower ds, h]

/-- Either both texts start with a character that is no letter, or none of them does. -/
lemma cons_or_ne (h : SameLetters cs ds) (hc : c.isAlpha = false) :
    (∃ cs' ds', cs = c :: cs' ∧ ds = c :: ds' ∧ SameLetters cs' ds') ∨ (∀ r, cs ≠ c :: r)
      ∧ ∀ r, ds ≠ c :: r := by
  by_cases hcons : ∃ cs', cs = c :: cs'
  · obtain ⟨cs', rfl⟩ := hcons
    obtain ⟨ds', rfl, h'⟩ := h.exists_cons hc
    exact .inl ⟨cs', ds', rfl, rfl, h'⟩
  · have hne := not_exists.1 hcons
    exact .inr ⟨hne, h.ne_cons hc hne⟩

end SameLetters

/-! ### Numbers -/

/-- Two readings that take the same, and leave texts that differ in the case of letters only. -/
def Likewise {α : Type} (p p' : α × List Char) : Prop := p.1 = p'.1 ∧ SameLetters p.2 p'.2

/-- The other of two readings, given the one. -/
lemma Likewise.exists_eq {α : Type} {a : α} {p p' : α × List Char} (h : Likewise p p')
    (hp : p = (a, r)) :
    ∃ r', p' = (a, r') ∧ SameLetters r r' := by
  subst hp
  exact ⟨p'.2, Prod.ext h.1.symm rfl, h.2⟩

/-- Digits are taken likewise. -/
lemma Likewise.span_isDigit (h : SameLetters cs ds) :
    Likewise (cs.span Char.isDigit) (ds.span Char.isDigit) := by
  simp only [List.span_eq_takeWhile_dropWhile]
  induction cs generalizing ds with
  | nil => rw [h.eq_nil]; exact ⟨rfl, rfl⟩
  | cons c cs ih =>
      obtain ⟨d, ds, rfl, hd, hds⟩ := h.exists_of_cons
      by_cases hc : c.isDigit
      · have hcd : c = d := (eq_or_isAlpha_of_toLower hd).resolve_right fun hletters => by
          simp [isDigit_of_isAlpha hletters.1] at hc
        subst hcd
        obtain ⟨hdigits, hrest⟩ := ih hds
        simp only [List.takeWhile_cons_of_pos hc, List.dropWhile_cons_of_pos hc]
        exact ⟨congrArg (List.cons c) hdigits, hrest⟩
      · have hc' : ¬ d.isDigit := isDigit_congr hd ▸ hc
        simp only [List.takeWhile_cons_of_neg hc, List.dropWhile_cons_of_neg hc,
          List.takeWhile_cons_of_neg hc', List.dropWhile_cons_of_neg hc']
        exact ⟨rfl, h⟩

/-- A sign is taken likewise. -/
lemma Likewise.splitSign (h : SameLetters cs ds) : Likewise (splitSign cs) (splitSign ds) := by
  obtain ⟨cs', ds', rfl, rfl, h'⟩ | ⟨hplus, hplus'⟩ := h.cons_or_ne (c := '+') (by decide)
  · exact ⟨rfl, h'⟩
  · obtain ⟨cs', ds', rfl, rfl, h'⟩ | ⟨hminus, hminus'⟩ := h.cons_or_ne (c := '-') (by decide)
    · exact ⟨rfl, h'⟩
    · have hsplit : ∀ {t : List Char}, (∀ r, t ≠ '+' :: r) → (∀ r, t ≠ '-' :: r) →
          Cypher.splitSign t = (false, t) := by
        intro t hplus hminus
        rw [Cypher.splitSign.eq_def]
        split
        · exact absurd rfl (hplus _)
        · exact absurd rfl (hminus _)
        · rfl
      rw [hsplit hplus hminus, hsplit hplus' hminus']
      exact ⟨rfl, h⟩

/-- An exponent is taken likewise, whether it starts with a small or a capital letter. -/
lemma Likewise.splitExponent (h : SameLetters cs ds) :
    Likewise (splitExponent cs) (splitExponent ds) := by
  cases cs with
  | nil => rw [h.eq_nil]; exact ⟨rfl, rfl⟩
  | cons c cs =>
      obtain ⟨d, ds, rfl, hd, hds⟩ := h.exists_of_cons
      have he : (c == 'e' || c == 'E') = (d == 'e' || d == 'E') := by
        rw [Bool.eq_iff_iff]
        simp only [Bool.or_eq_true, beq_iff_eq, eq_e_iff, hd]
      obtain ⟨hsign, hrest⟩ := Likewise.splitSign hds
      obtain ⟨hdigits, hrest⟩ := Likewise.span_isDigit hrest
      simp only [Cypher.splitExponent, he, hsign, hdigits]
      split
      · exact ⟨rfl, hrest⟩
      · exact ⟨rfl, h⟩

/-- A number is taken likewise behind its first digits. -/
lemma Likewise.numberAfter (h : SameLetters cs ds) (negative : Bool) (whole : List Char) :
    Likewise (numberAfter negative whole cs) (numberAfter negative whole ds) := by
  obtain ⟨cs', ds', rfl, rfl, h'⟩ | ⟨hdot, hdot'⟩ := h.cons_or_ne (c := '.') (by decide)
  · cases cs' with
    | nil =>
        rw [h'.eq_nil]
        exact ⟨rfl, rfl⟩
    | cons c cs =>
        obtain ⟨d, ds, rfl, hd, -⟩ := h'.exists_of_cons
        obtain ⟨hfraction, hrest⟩ := Likewise.span_isDigit h'
        obtain ⟨hexponent, hrest⟩ := Likewise.splitExponent hrest
        simp only [Cypher.numberAfter, isDigit_congr hd, hfraction, hexponent]
        split
        · exact ⟨rfl, hrest⟩
        · exact ⟨rfl, h⟩
  · rw [numberAfter_of_ne hdot, numberAfter_of_ne hdot']
    exact ⟨rfl, h⟩

/-- Numbers without a sign are taken likewise, ranges among them. -/
lemma Likewise.unsignedNumber (h : SameLetters cs ds) :
    Likewise (unsignedNumber cs) (unsignedNumber ds) := by
  have hspan := Likewise.span_isDigit h
  cases hcs : cs.span Char.isDigit with
  | mk low rest =>
      cases hds : ds.span Char.isDigit with
      | mk low' rest' =>
          rw [hcs, hds] at hspan
          obtain ⟨hlow, hrest⟩ := hspan
          dsimp only at hlow hrest
          subst hlow
          -- two dots make a range, and dots have one case
          by_cases hdots : ∃ tail, rest = '.' :: '.' :: tail
          · obtain ⟨tail, rfl⟩ := hdots
            obtain ⟨_, rfl, hdots⟩ := hrest.exists_cons (by decide)
            obtain ⟨_, rfl, htail⟩ := hdots.exists_cons (by decide)
            obtain ⟨hhigh, hrest⟩ := Likewise.span_isDigit htail
            simp only [Cypher.unsignedNumber, hcs, hds, hhigh]
            exact ⟨rfl, hrest⟩
          · have hdots' : ¬ ∃ tail, rest' = '.' :: '.' :: tail := by
              rintro ⟨tail, rfl⟩
              obtain ⟨_, rfl, hdot⟩ := hrest.symm.exists_cons (by decide)
              obtain ⟨tail, rfl, -⟩ := hdot.exists_cons (by decide)
              exact hdots ⟨tail, rfl⟩
            rw [unsignedNumber_of_ne hcs (not_exists.1 hdots),
              unsignedNumber_of_ne hds (not_exists.1 hdots')]
            exact Likewise.numberAfter hrest false low

lemma Likewise.negativeNumber (h : SameLetters cs ds) :
    Likewise (negativeNumber cs) (negativeNumber ds) := by
  obtain ⟨hwhole, hrest⟩ := Likewise.span_isDigit h
  simp only [Cypher.negativeNumber, hwhole]
  exact Likewise.numberAfter hrest true _

/-! ### Lexemes -/

/-- A sign is no letter, so it is found in both texts. -/
lemma SameLetters.exists_mark? {m : Mark} (h : SameLetters cs ds) (hm : mark? cs = some (m, r)) :
    ∃ r', mark? ds = some (m, r') ∧ SameLetters r r' := by
  -- all signs are of characters that have one case
  revert hm
  fun_cases mark? cs
  case case21 =>
    intro hm
    cases hm
  all_goals
    intro hm
    obtain ⟨rfl, rfl⟩ := Prod.mk.inj (Option.some.inj hm)
    obtain ⟨ds, rfl, hds⟩ := h.exists_cons (by decide)
  case case1 | case2 | case3 | case4 =>
    obtain ⟨ds', rfl, hds'⟩ := hds.exists_cons (by decide)
    exact ⟨ds', rfl, hds'⟩
  case case18 hgreater hequal =>
    exact ⟨ds, mark?_less (hds.ne_cons (by decide) hgreater) (hds.ne_cons (by decide) hequal), hds⟩
  case case19 hequal =>
    exact ⟨ds, mark?_greater (hds.ne_cons (by decide) hequal), hds⟩
  all_goals exact ⟨ds, rfl, hds⟩

/-- Both texts start with a dot, or none of them does. -/
lemma SameLetters.head?_eq_dot (h : SameLetters cs ds) :
    (cs.head? == some '.') = (ds.head? == some '.') := by
  obtain ⟨cs, ds, rfl, rfl, -⟩ | ⟨hdot, hdot'⟩ := h.cons_or_ne (c := '.') (by decide)
  · rfl
  · have hhead : ∀ {t : List Char}, (∀ r, t ≠ '.' :: r) → (t.head? == some '.') = false := by
      intro t ht
      rw [beq_eq_false_iff_ne]
      exact fun hd => ht _ (List.eq_cons_of_mem_head? hd)
    rw [hhead hdot, hhead hdot']

/-- Both texts start with a digit, or none of them does. -/
lemma SameLetters.head?_any_isDigit (h : SameLetters cs ds) :
    cs.head?.any Char.isDigit = ds.head?.any Char.isDigit := by
  cases cs with
  | nil => rw [h.eq_nil]
  | cons c cs =>
      obtain ⟨d, ds, rfl, hd, -⟩ := h.exists_of_cons
      exact isDigit_congr hd

/-- What cannot continue a word cannot continue it in another case. -/
lemma SameLetters.endsWord (h : SameLetters r r') (hr : EndsWord r) : EndsWord r' := by
  cases r with
  | nil =>
      rw [h.eq_nil]
      exact hr
  | cons c r =>
      obtain ⟨d, r', rfl, hd, -⟩ := h.exists_of_cons
      exact endsWord_cons (isWordPart_congr hd ▸ hr c rfl) r'

/-- What a lexeme leaves of a text is told by its length. -/
lemma eq_of_lexeme?_of_length (h : lexeme? (c :: (w ++ r)) = some (l, r'))
    (hlength : r'.length = r.length) : r' = r :=
  (List.suffix_of_suffix_length_le (lexeme?_suffix h) (List.suffix_append w r)
    hlength.le).eq_of_length hlength

/-- **A lexeme is read the same** in front of texts that differ in the case of letters only. -/
lemma lexeme?_of_sameLetters (hl : lexeme? (w ++ r) = some (l, r)) (hr : SameLetters r r') :
    lexeme? (w ++ r') = some (l, r') := by
  -- a word ends where no word character follows; everything else starts with a character of one
  -- case
  by_cases hword : ∃ text, l = .word text
  · obtain ⟨text, rfl⟩ := hword
    obtain ⟨hw, hidentifier, hends⟩ := lexeme?_word_iff.1 hl
    exact lexeme?_word_iff.2 ⟨hw, hidentifier, hr.endsWord hends⟩
  cases w with
  | nil => exact absurd (lexeme?_length_lt hl) (lt_irrefl _)
  | cons c w =>
      have hall := (SameLetters.refl w).append hr
      suffices hlexeme : ∃ r'', lexeme? (c :: (w ++ r')) = some (l, r'') ∧ SameLetters r r'' by
        obtain ⟨r'', hl', hr''⟩ := hlexeme
        rw [List.cons_append, hl',
          eq_of_lexeme?_of_length hl' (hr''.length_eq.symm.trans hr.length_eq)]
      rw [List.cons_append, lexeme?] at hl
      rw [lexeme?, ← hall.head?_eq_dot, ← hall.head?_any_isDigit]
      split_ifs at hl ⊢ with hstart hnumber hnegative hquote
      · exact absurd ⟨_, (congrArg Prod.fst (Option.some.inj hl)).symm⟩ hword
      · have hlikewise := Likewise.unsignedNumber ((SameLetters.refl [c]).append hall)
        obtain ⟨r'', hr'', h⟩ := hlikewise.exists_eq (Option.some.inj hl)
        exact ⟨r'', congrArg some hr'', h⟩
      · obtain ⟨r'', hr'', h⟩ := (Likewise.negativeNumber hall).exists_eq (Option.some.inj hl)
        exact ⟨r'', congrArg some hr'', h⟩
      · obtain ⟨⟨text, r₁⟩, hquoted, heq⟩ := Option.map_eq_some_iff.1 hl
        obtain ⟨rfl, rfl⟩ := Prod.mk.inj heq
        have hbackslash : c ≠ '\\' := by
          rintro rfl
          exact absurd hquote (by decide)
        have hclosed : quotedText c w = some (text, []) := quotedText_of_append hbackslash hquoted
        rw [quotedText_append hbackslash hclosed]
        exact ⟨r', rfl, hr⟩
      · obtain ⟨⟨m, r₁⟩, hmark, heq⟩ := Option.map_eq_some_iff.1 hl
        obtain ⟨rfl, rfl⟩ := Prod.mk.inj heq
        obtain ⟨r'', hmark', h⟩ := ((SameLetters.refl [c]).append hall).exists_mark? hmark
        rw [List.cons_append, List.nil_append] at hmark'
        rw [hmark']
        exact ⟨r'', rfl, h⟩

/-! ### Words -/

/-- Words that differ in the case of letters only spell the same keyword, if any. -/
lemma SameLetters.ofWord?_eq {v w : String} (h : SameLetters v.toList w.toList) :
    Keyword.ofWord? v = Keyword.ofWord? w := by
  refine Keyword.ofWord?_congr (String.toList_inj.1 ?_)
  rw [String.toList_map, String.toList_map, h]

/-- An identifier stays one. -/
lemma SameLetters.isIdentifier {v w : String} (h : SameLetters v.toList w.toList)
    (hv : isIdentifier v) :
    isIdentifier w := by
  rw [CodeGraph.isIdentifier] at hv ⊢
  generalize v.toList = cs at h hv
  generalize w.toList = ds at h
  cases cs with
  | nil => cases hv
  | cons c cs =>
      obtain ⟨d, ds, rfl, hd, hds⟩ := h.exists_of_cons
      rw [Bool.and_eq_true] at hv ⊢
      exact ⟨isWordStart_congr hd ▸ hv.1, hds.all_isWordPart_eq ▸ hv.2⟩

end CodeGraph.Cypher
