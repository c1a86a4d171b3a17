import CodeGraph.Cypher.Builders
import CodeGraph.Proofs.Cypher.Quoting

/-!
The texts of tokens.

A piece is a token with the text that it was cut from. The text tells the token again: a word is
spelled by itself, a number by its digits, a quoted text by what is between its quotes once the
escapes are resolved. Between two words there is always a gap, and no gap ends with an arrow head.

* `Lexeme.Spells`: a text spells a lexeme. `exists_spells`: the text that a lexeme is cut from does.
* `parseDouble?_of_digits`: a number with a fraction is read from its text as it is cut.
* `IsCut`: what holds of the pieces of every text.
* `Piece.ofText?_eq_some`: the pieces of a text are its tokens.
-/

namespace CodeGraph.Cypher

/-! ### Numbers with a fraction -/

section Decimals

variable {cs r : List Char}

/-- What is no capital letter is its own small letter. -/
lemma toLower_of_outside {c : Char} (h : c.toNat < 65 ∨ 90 < c.toNat) : c.toLower = c := by
  refine dif_neg fun hupper => ?_
  have hlow : 65 ≤ c.toNat := hupper.1
  have hhigh : c.toNat ≤ 90 := hupper.2
  omega

lemma toLower_of_isDigit {c : Char} (h : c.isDigit) : c.toLower = c := by
  simp only [Char.isDigit, Bool.and_eq_true, decide_eq_true_eq] at h
  have hhigh : c.toNat ≤ 57 := h.2
  exact toLower_of_outside (by omega)

/-- Digits behind a letter are the digits of an exponent. -/
lemma signedDigits?_eq {sign : Bool} {text digits : List Char}
    (hsign : splitSign text = (sign, digits)) (hne : digits ≠ [])
    (hdigits : digits.all Char.isDigit) :
    signedDigits? text = some (sign, digits) := by
  simp [signedDigits?, hsign, hne, hdigits]

/-- What a sign is split off from is the sign and what is left. -/
lemma exists_of_splitSign (cs : List Char) : ∃ text, cs = text ++ (splitSign cs).2
    ∧ ∀ digits : List Char, digits.head?.all Char.isDigit →
      splitSign (text ++ digits) = ((splitSign cs).1, digits) := by
  have hnone : ∀ digits : List Char, digits.head?.all Char.isDigit →
      splitSign digits = (false, digits) := by
    intro digits hdigits
    rw [splitSign.eq_def]
    split
    · cases hdigits
    · cases hdigits
    · rfl
  rw [splitSign.eq_def]
  split
  · exact ⟨['+'], rfl, fun digits _ => rfl⟩
  · exact ⟨['-'], rfl, fun digits _ => rfl⟩
  · exact ⟨[], rfl, hnone⟩

lemma span_isDigit (cs : List Char) : cs = (cs.span Char.isDigit).1 ++ (cs.span Char.isDigit).2
    ∧ (cs.span Char.isDigit).1.all Char.isDigit := by
  rw [List.span_eq_takeWhile_dropWhile]
  exact ⟨List.takeWhile_append_dropWhile.symm, List.all_takeWhile⟩

/-- An exponent is read from its text, which starts with no digit. -/
lemma exists_of_splitExponent (cs : List Char) : ∃ text, cs = text ++ (splitExponent cs).2
    ∧ parseExponent? text = some (splitExponent cs).1 ∧ ∀ c ∈ text.head?, c.isDigit = false := by
  cases cs with
  | nil => exact ⟨[], rfl, rfl, by simp⟩
  | cons c rest =>
      obtain ⟨sign, hsign, hsplit⟩ := exists_of_splitSign rest
      obtain ⟨hspan, hdigits⟩ := span_isDigit (splitSign rest).2
      simp only [splitExponent]
      split
      · rename_i h
        simp only [Bool.and_eq_true, Bool.or_eq_true, beq_iff_eq, Bool.not_eq_true',
          List.isEmpty_eq_false_iff] at h
        obtain ⟨hletter, hne⟩ := h
        have hhead : ((splitSign rest).2.span Char.isDigit).1.head?.all Char.isDigit := by
          obtain ⟨d, ds, hd⟩ := List.exists_cons_of_ne_nil hne
          rw [hd] at hdigits ⊢
          exact (Bool.and_eq_true_iff.1 hdigits).1
        refine ⟨c :: (sign ++ ((splitSign rest).2.span Char.isDigit).1), ?_, ?_, ?_⟩
        · rw [List.cons_append, List.append_assoc, ← hspan, ← hsign]
        · rw [parseExponent?, if_pos hletter,
            signedDigits?_eq (hsplit _ hhead) hne hdigits]
          rfl
        · rintro d ⟨⟩
          rcases hletter with rfl | rfl <;> decide
      · exact ⟨[], rfl, rfl, by simp⟩

/-- **A number with a fraction** is read from its text as it is cut. -/
lemma parseDouble?_of_digits {negative : Bool} {whole fraction text : List Char} {exponent : Int}
    (hne : whole ≠ []) (hwhole : whole.all Char.isDigit) (hfraction : fraction.all Char.isDigit)
    (hexponent : parseExponent? text = some exponent)
    (htext : ∀ c ∈ text.head?, c.isDigit = false) :
    parseDouble? ((if negative then ['-'] else []) ++ (whole ++ '.' :: (fraction ++ text)))
      = some (Decimal.toDouble ⟨negative, natOfDigits (whole ++ fraction),
        exponent - fraction.length⟩) := by
  obtain ⟨d, ds, rfl⟩ := List.exists_cons_of_ne_nil hne
  have hd : d.isDigit := (Bool.and_eq_true_iff.1 hwhole).1
  have hsign :
      splitSign ((if negative then ['-'] else []) ++ (d :: ds ++ '.' :: (fraction ++ text)))
      = (negative, d :: ds ++ '.' :: (fraction ++ text)) := by
    cases negative with
    | true => rfl
    | false =>
        rw [if_neg (by simp), List.nil_append, List.cons_append, splitSign.eq_def]
        split
        · rename_i heq
          cases heq
          exact absurd hd (by decide)
        · rename_i heq
          cases heq
          exact absurd hd (by decide)
        · rfl
  have hword : ∀ (c : Char) (cs : List Char), c.isDigit = false →
      String.ofList ((d :: ds ++ '.' :: (fraction ++ text)).map Char.toLower)
        ≠ String.ofList (c :: cs) := by
    intro c cs hc heq
    have hhead := congrArg (fun s : String => s.toList.head?) heq
    simp only [List.cons_append, List.map_cons, String.toList_ofList, List.head?_cons,
      Option.some.injEq, toLower_of_isDigit hd] at hhead
    rw [hhead, hc] at hd
    cases hd
  have hinf := hword 'i' ['n', 'f'] (by decide)
  have hinfinity := hword 'i' ['n', 'f', 'i', 'n', 'i', 't', 'y'] (by decide)
  have hnan := hword 'n' ['a', 'n'] (by decide)
  have hspan : (d :: ds ++ '.' :: (fraction ++ text)).span Char.isDigit
      = (d :: ds, '.' :: (fraction ++ text)) :=
    span_of_all hwhole (by simp)
  have hsplit : splitFraction ('.' :: (fraction ++ text)) = (fraction, text) :=
    span_of_all hfraction htext
  rw [parseDouble?, hsign]
  dsimp only
  rw [if_neg (not_or.2 ⟨hinf, hinfinity⟩), if_neg hnan, hspan]
  dsimp only
  rw [hsplit]
  simp [hexponent]

end Decimals

/-! ### Texts of lexemes -/

/-- A text spells a lexeme. -/
def Lexeme.Spells : Lexeme → List Char → Prop
  | word w, text => text = w.toList
  | integer negative digits, text =>
    text = (if negative then '-' :: digits else digits) ∧ digits ≠ [] ∧ digits.all Char.isDigit
  | decimal number, text => parseDouble? text = some number.toDouble
  | range low high, text =>
    text = low ++ '.' :: '.' :: high ∧ low.all Char.isDigit ∧ high.all Char.isDigit
  | quoted s, text => ∃ (q : Quote) (body : List Char),
    text = q.char :: (body ++ [q.char]) ∧ s = String.ofList (unescaped ['\\'] body)
  | mark m, text => mark? text = some (m, [])

section Spells

variable {cs r : List Char} {l : Lexeme}

/-- A number behind its first digits. -/
lemma numberAfter_spells {negative : Bool} {whole : List Char} (hne : whole ≠ [])
    (hwhole : whole.all Char.isDigit) (h : numberAfter negative whole cs = (l, r)) :
    ∃ text, cs = text ++ r ∧ l.Spells ((if negative then ['-'] else []) ++ (whole ++ text)) := by
  have hinteger :
      (Lexeme.integer negative whole).Spells ((if negative then ['-'] else []) ++ (whole ++ [])) :=
    ⟨by cases negative <;> simp, hne, hwhole⟩
  rw [numberAfter.eq_def] at h
  split at h
  · rename_i d rest
    split at h
    · obtain ⟨hspan, hdigits⟩ := span_isDigit (d :: rest)
      obtain ⟨text, htext, hexponent, hhead⟩ :=
        exists_of_splitExponent ((d :: rest).span Char.isDigit).2
      generalize (d :: rest).span Char.isDigit = p at *
      obtain ⟨fraction, after⟩ := p
      dsimp only at h htext hexponent
      generalize splitExponent after = q at *
      cases h
      refine ⟨'.' :: (fraction ++ text), ?_,
        parseDouble?_of_digits hne hwhole hdigits hexponent hhead⟩
      rw [hspan, htext, List.cons_append, List.append_assoc]
    · cases h
      exact ⟨[], rfl, hinteger⟩
  · cases h
    exact ⟨[], rfl, hinteger⟩

/-- The text of a number that has no sign. -/
lemma unsignedNumber_spells (hstart : cs.head?.any Char.isDigit ∨ ∃ rest, cs = '.' :: '.' :: rest)
    (h : unsignedNumber cs = (l, r)) : ∃ text, cs = text ++ r ∧ l.Spells text := by
  obtain ⟨hspan, hdigits⟩ := span_isDigit cs
  rw [unsignedNumber] at h
  split at h
  · rename_i low rest heq
    obtain ⟨hspan', hdigits'⟩ := span_isDigit rest
    rw [heq] at hspan hdigits
    generalize rest.span Char.isDigit = p at *
    cases h
    refine ⟨low ++ '.' :: '.' :: p.1, ?_, rfl, hdigits, hdigits'⟩
    rw [hspan, hspan', List.append_assoc]
    rfl
  · rename_i whole rest hdots heq
    rw [heq] at hspan hdigits
    have hne : whole ≠ [] := by
      rintro rfl
      rcases hstart with hdigit | ⟨tail, rfl⟩
      · cases cs with
        | nil => cases hdigit
        | cons c cs =>
            have hc : c.isDigit := hdigit
            rw [List.span_eq_takeWhile_dropWhile, List.takeWhile_cons_of_pos hc] at heq
            cases heq
      · exact hdots tail hspan.symm
    obtain ⟨text, htext, hspells⟩ := numberAfter_spells hne hdigits h
    exact ⟨whole ++ text, by rw [List.append_assoc, ← htext, ← hspan], hspells⟩

/-- The text of a mark, apart from what follows. -/
lemma mark?_spells {m : Mark} (h : mark? cs = some (m, r)) :
    ∃ text, cs = text ++ r ∧ mark? text = some (m, []) := by
  revert h
  fun_cases mark? cs
  case case1 | case2 | case3 | case4 =>
    intro h
    cases h
    exact ⟨[_, _], rfl, rfl⟩
  case case21 => exact fun h => absurd h (Option.some_ne_none _).symm
  all_goals
    intro h
    cases h
    exact ⟨[_], rfl, rfl⟩

/-- **The text that a lexeme is cut from** spells it. -/
lemma exists_spells (h : lexeme? cs = some (l, r)) : ∃ text, cs = text ++ r ∧ l.Spells text := by
  cases cs with
  | nil => cases h
  | cons c rest =>
      rw [lexeme?] at h
      split at h
      · rw [List.span_eq_takeWhile_dropWhile] at h
        cases h
        refine ⟨c :: rest.takeWhile isWordPart, ?_, String.toList_ofList.symm⟩
        rw [List.cons_append, List.takeWhile_append_dropWhile]
      · split at h
        · rename_i hstart
          refine unsignedNumber_spells ?_ (Option.some.inj h)
          simp only [Bool.or_eq_true, Bool.and_eq_true, beq_iff_eq] at hstart
          rcases hstart with hdigit | ⟨rfl, hdot⟩
          · exact .inl hdigit
          · exact .inr ⟨rest.tail, by rw [← List.eq_cons_of_mem_head? hdot]⟩
        · split at h
          · rename_i hminus
            simp only [Bool.and_eq_true, beq_iff_eq] at hminus
            obtain ⟨rfl, hdigit⟩ := hminus
            obtain ⟨hspan, hdigits⟩ := span_isDigit rest
            have hne : (rest.span Char.isDigit).1 ≠ [] := by
              cases rest with
              | nil => cases hdigit
              | cons d ds =>
                  have hd : d.isDigit := hdigit
                  simp [List.span_eq_takeWhile_dropWhile, hd]
            have hnumber : numberAfter true _ (rest.span Char.isDigit).2 = (l, r) :=
              Option.some.inj h
            obtain ⟨text, htext, hspells⟩ := numberAfter_spells hne hdigits hnumber
            refine ⟨'-' :: ((rest.span Char.isDigit).1 ++ text), ?_, hspells⟩
            rw [List.cons_append, List.append_assoc, ← htext, ← hspan]
          · split at h
            · rename_i hquote
              obtain ⟨q, rfl⟩ : ∃ q : Quote, c = q.char := by
                simp only [Bool.or_eq_true, beq_iff_eq] at hquote
                exact hquote.elim (⟨.single, ·⟩) (⟨.double, ·⟩)
              rw [quotedText_eq q ['\\'], Option.map_map] at h
              obtain ⟨⟨body, rest'⟩, hbody, heq⟩ := Option.map_eq_some_iff.1 h
              cases heq
              refine ⟨q.char :: (body ++ [q.char]), ?_, q, body, rfl, rfl⟩
              rw [(quotedBody_eq_some_iff.1 hbody).2]
              simp
            · obtain ⟨⟨m, rest'⟩, hmark, heq⟩ := Option.map_eq_some_iff.1 h
              cases heq
              exact mark?_spells hmark

end Spells

/-! ### Pieces -/

/-- A gap that is not empty does not end with an arrow head. -/
lemma Gap.getLast?_ne {g : List Char} (h : Gap g) : g.getLast? ≠ some '>' := by
  have hlast : ∀ (c : Char) (g : List Char), g.getLast? ≠ some '>' → c ≠ '>' →
      (c :: g).getLast? ≠ some '>' := by
    intro c g hg hc heq
    rw [List.getLast?_cons] at heq
    cases hlast : g.getLast? with
    | none => exact hc (by simpa [hlast] using heq)
    | some d => exact hg (by simpa [hlast] using heq)
  have happend : ∀ (body g : List Char) (c : Char), (c :: g).getLast? ≠ some '>' →
      (body ++ c :: g).getLast? ≠ some '>' := by
    intro body g c hg heq
    rw [List.getLast?_append_of_ne_nil _ (List.cons_ne_nil c g)] at heq
    exact hg heq
  induction h with
  | nil => simp
  | blank hc _ ih =>
      refine hlast _ _ ih ?_
      rintro rfl
      exact absurd hc (by decide)
  | @line body g _ _ ih => exact happend ('/' :: '/' :: body) g '\n' (hlast _ _ ih (by decide))
  | @block body g _ _ ih =>
      exact happend ('/' :: '*' :: body) ('/' :: g) '*'
        (hlast _ _ (hlast _ _ ih (by decide)) (by decide))

/-- What holds of the pieces of every text: their texts spell them, and words are kept apart. -/
structure IsCut (ts : List Piece) : Prop where
  gap : ∀ t ∈ ts, Gap t.gap
  spells : ∀ t ∈ ts, t.lexeme.Spells t.text
  apart : ts.IsChain fun t u => t.lexeme.isWord → u.lexeme.isWord → u.gap ≠ []

/-- What is left of a text that was cut into pieces is cut into pieces. -/
lemma IsCut.of_suffix {ts rest : List Piece} (h : IsCut ts) (hrest : rest <:+ ts) : IsCut rest where
  gap t ht := h.gap t (hrest.subset ht)
  spells t ht := h.spells t (hrest.subset ht)
  apart := h.apart.suffix hrest

lemma IsCut.tail {t : Piece} {ts : List Piece} (h : IsCut (t :: ts)) : IsCut ts :=
  h.of_suffix (List.suffix_cons t ts)

/-- Behind a word there is no word without a gap. -/
lemma gap_ne_nil_of_words {cs r after : List Char} {v w : String} {g : List Char}
    (hword : lexeme? cs = some (.word v, r)) (hgap : splitGap .blank r = some (g, after))
    (hnext : ∃ r', lexeme? after = some (.word w, r')) : g ≠ [] := by
  rintro rfl
  obtain ⟨r', hnext⟩ := hnext
  obtain rfl : after = r := append_splitGap hgap
  obtain ⟨c, rest, rfl⟩ := List.exists_cons_of_ne_nil (l := after) (by rintro rfl; cases hnext)
  obtain ⟨text, hcs, -⟩ := exists_spells hword
  rw [hcs] at hword
  have hstart := isWordStart_of_lexeme? hnext
  have hpart := (lexeme?_word_iff.1 hword).2.2 c rfl
  simp only [isWordStart, Bool.or_eq_true, beq_iff_eq] at hstart
  simp only [isWordPart, Char.isAlphanum, Bool.or_eq_false_iff] at hpart
  rcases hstart with hstart | rfl
  · exact absurd hstart (by simp [hpart.1.1])
  · exact absurd hpart.2 (by decide)

/-- **The pieces of a text** are its tokens with their texts. -/
lemma pieces?_spec (fuel : Nat) (cs : List Char) :
    (pieces? fuel cs).map (List.map Piece.toToken) = tokens? fuel cs
      ∧ ∀ ts, pieces? fuel cs = some ts → IsCut ts ∧ ∀ t ∈ ts.head?, ∃ after r,
        splitGap .blank cs = some (t.gap, after) ∧ lexeme? after = some (t.lexeme, r) := by
  induction fuel generalizing cs with
  | zero => exact ⟨rfl, fun ts h => absurd h (Option.some_ne_none ts).symm⟩
  | succ fuel ih =>
      rw [pieces?, tokens?]
      cases hgap : splitGap .blank cs with
      | none => exact ⟨rfl, fun ts h => absurd h (Option.some_ne_none ts).symm⟩
      | some p =>
          obtain ⟨g, after⟩ := p
          simp only [Option.bind_eq_bind, Option.bind_some]
          by_cases hempty : after.isEmpty
          · rw [if_pos hempty, if_pos hempty]
            refine ⟨rfl, fun ts hts => ?_⟩
            cases hts
            exact ⟨⟨by simp, by simp, .nil⟩, by simp⟩
          · rw [if_neg hempty, if_neg hempty]
            cases hlexeme : lexeme? after with
            | none => exact ⟨rfl, fun ts h => absurd h (Option.some_ne_none ts).symm⟩
            | some p =>
                obtain ⟨l, r⟩ := p
                obtain ⟨htokens, hcut⟩ := ih r
                simp only [Option.bind_some]
                rw [← htokens]
                cases hlater : pieces? fuel r with
                | none => exact ⟨rfl, fun ts h => absurd h (Option.some_ne_none ts).symm⟩
                | some later =>
                    refine ⟨rfl, fun ts hts => ?_⟩
                    cases hts
                    obtain ⟨hcut, hhead⟩ := hcut later hlater
                    obtain ⟨text, rfl, hspells⟩ := exists_spells hlexeme
                    have htext : (text ++ r).take ((text ++ r).length - r.length) = text := by
                      rw [List.length_append, Nat.add_sub_cancel, List.take_left]
                    refine ⟨⟨?_, ?_, ?_⟩, ?_⟩
                    · rintro t (_ | ⟨_, ht⟩)
                      · exact gap_of_splitGap hgap fun hnil => hempty (List.isEmpty_iff.2 hnil)
                      · exact hcut.gap t ht
                    · rintro t (_ | ⟨_, ht⟩)
                      · rw [htext]
                        exact hspells
                      · exact hcut.spells t ht
                    · refine List.isChain_cons.2 ⟨fun u hu hl hword => ?_, hcut.apart⟩
                      obtain ⟨after', r', hgap', hlexeme'⟩ := hhead u hu
                      cases l with
                      | word v =>
                          cases hul : u.lexeme with
                          | word w => exact gap_ne_nil_of_words hlexeme hgap' ⟨r', hul ▸ hlexeme'⟩
                          | _ => rw [hul] at hword; cases hword
                      | _ => cases hl
                    · rintro t ⟨⟩
                      exact ⟨_, r, rfl, hlexeme⟩

/-- Pieces without their texts are the tokens. -/
lemma Piece.map_ofText? (cs : List Char) :
    (Piece.ofText? cs).map (List.map Piece.toToken) = Token.ofText? cs := (pieces?_spec _ cs).1

lemma isCut_of_ofText? {cs : List Char} {ts : List Piece}
    (h : Piece.ofText? cs = some ts) : IsCut ts :=
  ((pieces?_spec _ cs).2 ts h).1

end CodeGraph.Cypher
