import CodeGraph.Proofs.Cypher.Gaps

/-!
Cutting a text, piece by piece.

* `Parts`: a place in front of a gap or at the end of the text.
* `lexeme?_suffix`: a lexeme takes a character at least.
* `lexeme?_append_iff`: a lexeme is read the same whatever stands behind such a place.
* `Token.ofText?_of_lexeme`: the tokens of a text are its first token and those of the rest,
  whatever the fuel.
* `Reads`: some tokens are read off the front of a text. `Reads.ofText?_eq`: they are the first
  tokens of it; `Reads.append_congr`: they are read off any text that goes on with another gap.
-/

namespace CodeGraph.Cypher

/-- A text that ends, or goes on with a blank or a slash, which no lexeme takes behind its first
character. -/
def Parts (g : List Char) : Prop := ∀ c ∈ g.head?, isBlank c ∨ c = '/'

lemma Gap.parts {g : List Char} (h : Gap g) (cs : List Char) (hne : g ≠ []) : Parts (g ++ cs) := by
  intro c hc
  cases h with
  | nil => exact absurd rfl hne
  | blank hblank _ => exact .inl (Option.some.inj hc ▸ hblank)
  | line _ _ => exact .inr (Option.some.inj hc).symm
  | block _ _ => exact .inr (Option.some.inj hc).symm

/-! ### Runs of characters -/

section Runs

variable {p : Char → Bool} {cs g : List Char}

/-- A run ends where a character ends it, whatever stands behind. -/
lemma span_append (h : ∀ c ∈ g.head?, p c = false) :
    (cs ++ g).span p = ((cs.span p).1, (cs.span p).2 ++ g) := by
  simp only [List.span_eq_takeWhile_dropWhile]
  induction cs with
  | nil =>
      cases g with
      | nil => rfl
      | cons c rest => simp [h c rfl]
  | cons c rest ih =>
      by_cases hc : p c <;> simp_all

lemma isWordPart_of_blank {c : Char} (h : isBlank c ∨ c = '/') : isWordPart c = false := by
  rcases h with h | rfl
  · simp only [isBlank, Bool.or_eq_true, beq_iff_eq] at h
    obtain ((rfl | rfl) | rfl) | rfl := h <;> decide
  · decide

lemma isDigit_of_blank {c : Char} (h : isBlank c ∨ c = '/') : c.isDigit = false := by
  rcases h with h | rfl
  · simp only [isBlank, Bool.or_eq_true, beq_iff_eq] at h
    obtain ((rfl | rfl) | rfl) | rfl := h <;> decide
  · decide

end Runs

/-! ### Numbers -/

section Numbers

variable {cs g : List Char}

/-- A gap starts with none of the characters that a lexeme looks for behind its own. -/
lemma Parts.ne_cons (hg : Parts g) {c : Char} (hc : isSolidChar c) (rest : List Char) :
    g ≠ c :: rest := by
  rintro rfl
  simp only [isSolidChar, Bool.and_eq_true, Bool.not_eq_true', bne_iff_ne] at hc
  rcases hg c rfl with hblank | rfl
  · exact absurd hblank (by simp [hc.1])
  · exact absurd rfl hc.2

/-- A text that does not start with such a character does not start with it in front of a gap
either. -/
lemma Parts.append_ne_cons (hg : Parts g) {c : Char} (hc : isSolidChar c)
    (h : ∀ rest, cs ≠ c :: rest)
    (rest : List Char) : cs ++ g ≠ c :: rest := by
  cases cs with
  | nil => exact hg.ne_cons hc rest
  | cons d tail =>
      intro heq
      obtain ⟨rfl, -⟩ := List.cons.inj heq
      exact h tail rfl

lemma span_digits_append (hg : Parts g) (cs : List Char) :
    (cs ++ g).span Char.isDigit = ((cs.span Char.isDigit).1, (cs.span Char.isDigit).2 ++ g) :=
  span_append fun c hc => isDigit_of_blank (hg c hc)

lemma splitSign_append (hg : Parts g) :
    splitSign (cs ++ g) = ((splitSign cs).1, (splitSign cs).2 ++ g) := by
  cases cs with
  | nil =>
      rw [List.nil_append, splitSign.eq_def]
      split
      · exact absurd rfl (hg.ne_cons (by decide) _)
      · exact absurd rfl (hg.ne_cons (by decide) _)
      · rfl
  | cons c rest =>
      rw [List.cons_append, splitSign.eq_def, splitSign.eq_def]
      split <;> simp_all

/-- An exponent ends before white space and before a comment. -/
lemma splitExponent_append (hg : Parts g) :
    splitExponent (cs ++ g) = ((splitExponent cs).1, (splitExponent cs).2 ++ g) := by
  cases cs with
  | nil =>
      cases g with
      | nil => rfl
      | cons c rest =>
          have hc : (c == 'e' || c == 'E') = false := by
            by_contra hc
            simp only [Bool.not_eq_false, Bool.or_eq_true, beq_iff_eq] at hc
            rcases hc with rfl | rfl <;> exact absurd rfl (hg.ne_cons (by decide) _)
          simp [splitExponent, hc]
  | cons c rest =>
      simp only [List.cons_append, splitExponent, splitSign_append hg, span_digits_append hg]
      split <;> rfl

/-- What follows the whole part of a number ends there too, so the number does. -/
lemma numberAfter_append (hg : Parts g) (negative : Bool) (whole : List Char) :
    numberAfter negative whole (cs ++ g)
      = ((numberAfter negative whole cs).1, (numberAfter negative whole cs).2 ++ g) := by
  rcases cs with _ | ⟨c, _ | ⟨d, rest⟩⟩
  · rw [List.nil_append, numberAfter.eq_def]
    split
    · exact absurd rfl (hg.ne_cons (by decide) _)
    · rfl
  · by_cases hc : c = '.'
    · subst hc
      cases g with
      | nil => rfl
      | cons d rest => simp [numberAfter, isDigit_of_blank (hg d rfl)]
    · simp [numberAfter, hc]
  · by_cases hc : c = '.'
    · subst hc
      have hspan := span_digits_append hg (d :: rest)
      simp only [List.cons_append] at hspan ⊢
      simp only [numberAfter, hspan, splitExponent_append hg]
      split <;> rfl
    · simp [numberAfter, hc]

/-- Digits that no two dots follow are a number. -/
lemma unsignedNumber_of_ne {low rest : List Char} (h : cs.span Char.isDigit = (low, rest))
    (hdots : ∀ tail, rest ≠ '.' :: '.' :: tail) :
    unsignedNumber cs = numberAfter false low rest := by
  rw [unsignedNumber, h]
  split
  · rename_i heq
    exact absurd (Prod.mk.inj heq).2 (hdots _)
  · rename_i heq
    obtain ⟨rfl, rfl⟩ := Prod.mk.inj heq
    rfl

lemma unsignedNumber_append (hg : Parts g) :
    unsignedNumber (cs ++ g) = ((unsignedNumber cs).1, (unsignedNumber cs).2 ++ g) := by
  have hspan := span_digits_append hg cs
  cases hcs : cs.span Char.isDigit with
  | mk low rest =>
      rw [hcs] at hspan
      by_cases hdots : ∃ tail, rest = '.' :: '.' :: tail
      · obtain ⟨tail, rfl⟩ := hdots
        simp only [unsignedNumber, hcs, hspan, List.cons_append, span_digits_append hg]
      · have hrest : ∀ tail, rest ≠ '.' :: '.' :: tail := not_exists.1 hdots
        have happend : ∀ tail, rest ++ g ≠ '.' :: '.' :: tail := by
          intro tail heq
          rcases rest with _ | ⟨c, rest⟩
          · exact hg.ne_cons (by decide) _ heq
          · rw [List.cons_append] at heq
            obtain ⟨rfl, hdot⟩ := List.cons.inj heq
            exact hg.append_ne_cons (by decide) (fun r hr => hrest r (by rw [hr])) tail hdot
        rw [unsignedNumber_of_ne hspan happend, unsignedNumber_of_ne hcs hrest,
          numberAfter_append hg]

lemma negativeNumber_append (hg : Parts g) :
    negativeNumber (cs ++ g) = ((negativeNumber cs).1, (negativeNumber cs).2 ++ g) := by
  rw [negativeNumber, negativeNumber, span_digits_append hg]
  exact numberAfter_append hg _ _

end Numbers

/-! ### Signs and quoted texts -/

section Signs

variable {cs g r : List Char} {m : Mark}

/-- A left arrow head alone, since no longer mark starts with what follows. -/
lemma mark?_less {rest : List Char} (h : ∀ r, rest ≠ '>' :: r) (h' : ∀ r, rest ≠ '=' :: r) :
    mark? ('<' :: rest) = some (.less, rest) := by
  rw [mark?]
  · exact h
  · exact h'

/-- The same for a right arrow head. -/
lemma mark?_greater {rest : List Char} (h : ∀ r, rest ≠ '=' :: r) :
    mark? ('>' :: rest) = some (.greater, rest) := by
  rw [mark?]
  exact h

lemma isSome_mark?_less (rest : List Char) : (mark? ('<' :: rest)).isSome := by
  rcases rest with _ | ⟨c, rest⟩
  · rfl
  · by_cases hc : c = '>'
    · rw [hc]
      rfl
    · by_cases hc' : c = '='
      · rw [hc']
        rfl
      · rw [mark?_less (by simp [hc]) (by simp [hc'])]
        rfl

lemma isSome_mark?_greater (rest : List Char) : (mark? ('>' :: rest)).isSome := by
  rcases rest with _ | ⟨c, rest⟩
  · rfl
  · by_cases hc : c = '='
    · rw [hc]
      rfl
    · rw [mark?_greater (by simp [hc])]
      rfl

/-- A text that starts with a sign in front of a gap starts with one. -/
lemma isSome_mark?_of_append (hg : Parts g) (hne : cs ≠ []) (h : (mark? (cs ++ g)).isSome) :
    (mark? cs).isSome := by
  obtain ⟨c, rest, rfl⟩ := List.exists_cons_of_ne_nil hne
  rw [List.cons_append] at h
  generalize ht : c :: (rest ++ g) = t at h
  revert h
  fun_cases mark? t
  case case1 | case2 | case18 =>
    obtain ⟨rfl, -⟩ := List.cons.inj ht
    exact fun _ => isSome_mark?_less rest
  case case3 | case19 =>
    obtain ⟨rfl, -⟩ := List.cons.inj ht
    exact fun _ => isSome_mark?_greater rest
  case case4 =>
    obtain ⟨rfl, hequal⟩ := List.cons.inj ht
    rcases rest with _ | ⟨d, rest⟩
    · exact absurd hequal (hg.ne_cons (by decide) _)
    · obtain ⟨rfl, -⟩ := List.cons.inj hequal
      exact fun _ => rfl
  case case21 => exact fun h => nomatch h
  all_goals
    obtain ⟨rfl, -⟩ := List.cons.inj ht
    exact fun _ => rfl

/-- A mark that was read is read where a gap follows, although some marks start like others. -/
lemma mark?_append_of_eq_some (hg : Parts g) (h : mark? cs = some (m, r)) :
    mark? (cs ++ g) = some (m, r ++ g) := by
  revert h
  fun_cases mark? cs
  case case18 rest h h' =>
    intro heq
    obtain ⟨rfl, rfl⟩ := Prod.mk.inj (Option.some.inj heq)
    exact mark?_less (hg.append_ne_cons (by decide) h) (hg.append_ne_cons (by decide) h')
  case case19 rest h =>
    intro heq
    obtain ⟨rfl, rfl⟩ := Prod.mk.inj (Option.some.inj heq)
    exact mark?_greater (hg.append_ne_cons (by decide) h)
  case case21 => exact fun h => nomatch h
  all_goals
    intro heq
    obtain ⟨rfl, rfl⟩ := Prod.mk.inj (Option.some.inj heq)
    rfl

/-- A sign is read the same whatever gap stands behind it. -/
lemma mark?_append (hg : Parts g) (hne : cs ≠ []) :
    mark? (cs ++ g) = (mark? cs).map (fun p => (p.1, p.2 ++ g)) := by
  cases h : mark? cs with
  | some p => exact mark?_append_of_eq_some hg h
  | none =>
      rw [Option.map_none, ← Option.not_isSome_iff_eq_none]
      intro hsome
      have := isSome_mark?_of_append hg hne hsome
      rw [h] at this
      cases this

/-- A character that is neither a backslash nor the quote is taken as it is. -/
lemma quotedText_cons {quote c : Char} (hc : c ≠ '\\') (rest : List Char) :
    quotedText quote (c :: rest)
      = if c = quote then some ([], rest)
        else (quotedText quote rest).map (fun p => (c :: p.1, p.2)) := by
  rw [quotedText, if_neg hc]
  exact fun _ _ hbackslash _ => hc hbackslash

/-- A quoted text is closed by its first quote without a backslash, whatever stands behind. -/
lemma quotedText_append {quote : Char} (hquote : quote ≠ '\\') {text : List Char}
    (h : quotedText quote cs = some (text, r)) (g : List Char) :
    quotedText quote (cs ++ g) = some (text, r ++ g) := by
  fun_induction quotedText quote cs generalizing text with
  | case1 => cases h
  | case2 c rest ih =>
      obtain ⟨⟨text', r'⟩, hrest, heq⟩ := Option.map_eq_some_iff.1 h
      obtain ⟨rfl, rfl⟩ := Prod.mk.inj heq
      simp [quotedText, ih hrest]
  | case3 rest _ =>
      obtain ⟨rfl, rfl⟩ := Prod.mk.inj (Option.some.inj h)
      rw [List.cons_append, quotedText_cons hquote, if_pos rfl]
  | case4 => cases h
  | case5 c rest _ hc hbackslash ih =>
      obtain ⟨⟨text', r'⟩, hrest, heq⟩ := Option.map_eq_some_iff.1 h
      obtain ⟨rfl, rfl⟩ := Prod.mk.inj heq
      rw [List.cons_append, quotedText_cons hbackslash, if_neg hc, ih hrest]
      rfl

/-- A quoted text takes its closing quote at least. -/
lemma exists_append_of_quotedText {quote : Char} {text : List Char}
    (h : quotedText quote cs = some (text, r)) :
    ∃ w, w ≠ [] ∧ cs = w ++ r := by
  fun_induction quotedText quote cs generalizing text with
  | case1 => cases h
  | case2 c rest ih =>
      obtain ⟨⟨text', r'⟩, hrest, heq⟩ := Option.map_eq_some_iff.1 h
      obtain ⟨rfl, rfl⟩ := Prod.mk.inj heq
      obtain ⟨w, -, rfl⟩ := ih hrest
      exact ⟨'\\' :: c :: w, List.cons_ne_nil _ _, rfl⟩
  | case3 rest _ =>
      obtain ⟨rfl, rfl⟩ := Prod.mk.inj (Option.some.inj h)
      exact ⟨[quote], List.cons_ne_nil _ _, rfl⟩
  | case4 => cases h
  | case5 c rest _ hc hbackslash ih =>
      obtain ⟨⟨text', r'⟩, hrest, heq⟩ := Option.map_eq_some_iff.1 h
      obtain ⟨rfl, rfl⟩ := Prod.mk.inj heq
      obtain ⟨w, -, rfl⟩ := ih hrest
      exact ⟨c :: w, List.cons_ne_nil _ _, rfl⟩

/-- What a quoted text leaves of a text is shorter. -/
lemma not_quotedText_eq_append {quote : Char} {text w : List Char} :
    quotedText quote g ≠ some (text, w ++ g) := by
  intro h
  obtain ⟨w', hne, heq⟩ := exists_append_of_quotedText h
  have hlength := congrArg List.length heq
  have := List.length_pos_iff.2 hne
  simp only [List.length_append] at hlength
  omega

/-- A quoted text that is closed in front of a place is closed without what stands behind it. -/
lemma quotedText_of_append {quote : Char} (hquote : quote ≠ '\\') {text : List Char}
    (h : quotedText quote (cs ++ g) = some (text, r ++ g)) :
    quotedText quote cs = some (text, r) := by
  fun_induction quotedText quote cs generalizing text with
  | case1 => exact absurd h not_quotedText_eq_append
  | case2 c rest ih =>
      obtain ⟨⟨text', r'⟩, hrest, heq⟩ := Option.map_eq_some_iff.1 h
      obtain ⟨rfl, rfl⟩ := Prod.mk.inj heq
      rw [ih hrest]
      rfl
  | case3 rest _ =>
      rw [List.cons_append, quotedText_cons hquote, if_pos rfl] at h
      obtain ⟨rfl, heq⟩ := Prod.mk.inj (Option.some.inj h)
      rw [List.append_cancel_right heq]
  | case4 rest hrest _ =>
      -- a backslash at the end of the text takes a character of what stands behind
      have hnil : rest = [] := by
        cases rest with
        | nil => rfl
        | cons c rest => exact absurd rfl (hrest c rest rfl)
      subst hnil
      cases g with
      | nil => simp [quotedText, hquote.symm] at h
      | cons d g =>
          simp only [List.cons_append, List.nil_append, quotedText, Option.map_eq_some_iff] at h
          obtain ⟨⟨text', r'⟩, hrest, heq⟩ := h
          obtain ⟨rfl, rfl⟩ := Prod.mk.inj heq
          exact absurd ((List.append_cons r d g) ▸ hrest) not_quotedText_eq_append
  | case5 c rest _ hc hbackslash ih =>
      rw [List.cons_append, quotedText_cons hbackslash, if_neg hc] at h
      obtain ⟨⟨text', r'⟩, hrest, heq⟩ := Option.map_eq_some_iff.1 h
      obtain ⟨rfl, rfl⟩ := Prod.mk.inj heq
      rw [ih hrest]
      rfl

end Signs

/-! ### Lexemes -/

section Lexemes

variable {cs g r : List Char} {c : Char} {l : Lexeme}

lemma span_suffix (p : Char → Bool) (cs : List Char) : (cs.span p).2 <:+ cs := by
  rw [List.span_eq_takeWhile_dropWhile]
  exact List.dropWhile_suffix p

lemma splitSign_suffix (cs : List Char) : (splitSign cs).2 <:+ cs := by
  rw [splitSign.eq_def]
  split
  · exact List.suffix_cons _ _
  · exact List.suffix_cons _ _
  · exact List.suffix_rfl

lemma splitExponent_suffix (cs : List Char) : (splitExponent cs).2 <:+ cs := by
  cases cs with
  | nil => exact List.suffix_rfl
  | cons c rest =>
      simp only [splitExponent]
      split
      · exact ((span_suffix _ _).trans (splitSign_suffix rest)).trans (List.suffix_cons c rest)
      · exact List.suffix_rfl

/-- A number is taken off the front. -/
lemma numberAfter_suffix (negative : Bool) (whole cs : List Char) :
    (numberAfter negative whole cs).2 <:+ cs := by
  rw [numberAfter.eq_def]
  split
  · split
    · exact ((splitExponent_suffix _).trans (span_suffix _ _)).trans (List.suffix_cons _ _)
    · exact List.suffix_rfl
  · exact List.suffix_rfl

/-- A number takes its first digit, and a range without a lower bound its first dot. -/
lemma unsignedNumber_suffix {rest : List Char} (h : c.isDigit ∨ c = '.' ∧ rest.head? = some '.') :
    (unsignedNumber (c :: rest)).2 <:+ rest := by
  by_cases hdots : ∃ tail, ((c :: rest).span Char.isDigit).2 = '.' :: '.' :: tail
  · obtain ⟨tail, htail⟩ := hdots
    have hsuffix : '.' :: '.' :: tail <:+ c :: rest := htail ▸ span_suffix Char.isDigit (c :: rest)
    have hdots : '.' :: tail <:+ rest := by
      rcases List.suffix_cons_iff.1 hsuffix with heq | hsuffix
      · obtain ⟨-, rfl⟩ := List.cons.inj heq
        exact List.suffix_rfl
      · exact (List.suffix_cons _ _).trans hsuffix
    have hnumber : (unsignedNumber (c :: rest)).2 = (tail.span Char.isDigit).2 := by
      rw [unsignedNumber, ← Prod.mk.eta (p := (c :: rest).span Char.isDigit), htail]
      rfl
    rw [hnumber]
    exact ((span_suffix _ _).trans (List.suffix_cons _ _)).trans hdots
  · rw [unsignedNumber_of_ne rfl (not_exists.1 hdots)]
    rcases h with hc | ⟨rfl, hdot⟩
    · refine (numberAfter_suffix _ _ _).trans ?_
      change ((c :: rest).span Char.isDigit).2 <:+ rest
      rw [List.span_eq_takeWhile_dropWhile, List.dropWhile_cons_of_pos hc]
      exact List.dropWhile_suffix _
    · -- the two dots are there, since no digit stands in front of them
      refine absurd ⟨rest.tail, ?_⟩ hdots
      rw [List.span_eq_takeWhile_dropWhile, List.dropWhile_cons_of_neg (by decide)]
      exact congrArg _ (List.eq_cons_of_mem_head? hdot)

/-- So is a mark. -/
lemma mark?_suffix {rest : List Char} {m : Mark} (h : mark? (c :: rest) = some (m, r)) :
    r <:+ rest := by
  generalize ht : c :: rest = t at h
  revert h
  fun_cases mark? t
  case case21 => exact fun h => nomatch h
  all_goals
    obtain ⟨-, rfl⟩ := List.cons.inj ht
    intro h
    obtain ⟨-, rfl⟩ := Prod.mk.inj (Option.some.inj h)
    first
    | exact List.suffix_rfl
    | exact List.suffix_cons _ _

/-- A lexeme takes its first character at least. -/
lemma lexeme?_suffix {rest : List Char} (h : lexeme? (c :: rest) = some (l, r)) : r <:+ rest := by
  rw [lexeme?] at h
  split at h
  · cases h
    exact span_suffix _ _
  · split at h
    · rename_i hnumber
      simp only [Bool.or_eq_true, Bool.and_eq_true, beq_iff_eq] at hnumber
      have hsuffix := unsignedNumber_suffix hnumber
      rwa [Option.some.inj h] at hsuffix
    · split at h
      · have hsuffix : (negativeNumber rest).2 <:+ rest :=
          (numberAfter_suffix _ _ _).trans (span_suffix _ rest)
        rwa [Option.some.inj h] at hsuffix
      · split at h
        · obtain ⟨⟨text, r'⟩, hquoted, heq⟩ := Option.map_eq_some_iff.1 h
          cases heq
          obtain ⟨w, -, rfl⟩ := exists_append_of_quotedText hquoted
          exact List.suffix_append w _
        · obtain ⟨⟨m, r'⟩, hmark, heq⟩ := Option.map_eq_some_iff.1 h
          cases heq
          exact mark?_suffix hmark

/-- A lexeme starts with no gap. -/
lemma isSolid_of_lexeme? (h : lexeme? cs = some (l, r)) : IsSolid cs := by
  cases cs with
  | nil => cases h
  | cons c rest =>
      refine ⟨c, rfl, ?_⟩
      by_contra hc
      have hstart : isBlank c ∨ c = '/' := by
        simpa [isSolidChar, Classical.or_iff_not_imp_left] using hc
      simp only [isBlank, Bool.or_eq_true, beq_iff_eq] at hstart
      obtain (((rfl | rfl) | rfl) | rfl) | rfl := hstart <;> cases h

lemma head?_append_eq_dot (hg : Parts g) :
    ((cs ++ g).head? == some '.') = (cs.head? == some '.') := by
  cases cs with
  | nil =>
      cases g with
      | nil => rfl
      | cons d g =>
          have hd : d ≠ '.' := fun hd => hg.ne_cons (c := '.') (by decide) g (by rw [hd])
          simp [hd]
  | cons d cs => rfl

lemma head?_append_any_isDigit (hg : Parts g) :
    (cs ++ g).head?.any Char.isDigit = cs.head?.any Char.isDigit := by
  cases cs with
  | nil =>
      cases g with
      | nil => rfl
      | cons d g => simp [isDigit_of_blank (hg d rfl)]
  | cons d cs => rfl

/-- **A lexeme that ends in front of a gap**, next to it or further on, is read the same without
what stands behind. -/
lemma lexeme?_append_iff (hg : Parts g) (hne : cs ≠ []) :
    lexeme? (cs ++ g) = some (l, r ++ g) ↔ lexeme? cs = some (l, r) := by
  obtain ⟨c, rest, rfl⟩ := List.exists_cons_of_ne_nil hne
  have hpair : ∀ p : Lexeme × List Char, some (p.1, p.2 ++ g) = some (l, r ++ g)
      ↔ some p = some (l, r) := by
    intro p
    rw [Option.some_inj, Option.some_inj, Prod.ext_iff, Prod.ext_iff, List.append_left_inj]
  rw [List.cons_append, lexeme?, lexeme?, head?_append_eq_dot hg, head?_append_any_isDigit hg]
  split_ifs with hword hnumber hnegative hquote
  · rw [span_append fun c hc => isWordPart_of_blank (hg c hc)]
    exact hpair (_, _)
  · rw [← List.cons_append, unsignedNumber_append hg]
    exact hpair _
  · rw [negativeNumber_append hg]
    exact hpair _
  · have hbackslash : c ≠ '\\' := by
      rintro rfl
      exact absurd hquote (by decide)
    constructor
    · intro h
      obtain ⟨⟨text, r'⟩, hquoted, heq⟩ := Option.map_eq_some_iff.1 h
      obtain ⟨rfl, rfl⟩ := Prod.mk.inj heq
      rw [quotedText_of_append hbackslash hquoted]
      rfl
    · intro h
      obtain ⟨⟨text, r'⟩, hquoted, heq⟩ := Option.map_eq_some_iff.1 h
      obtain ⟨rfl, rfl⟩ := Prod.mk.inj heq
      rw [quotedText_append hbackslash hquoted]
      rfl
  · rw [← List.cons_append, mark?_append hg hne, Option.map_map]
    cases mark? (c :: rest) with
    | none => simp
    | some p => exact hpair (.mark p.1, p.2)

end Lexemes

/-! ### Texts -/

section Texts

variable {cs g g' r rest : List Char} {l : Lexeme} {ts : List Token}

lemma splitGap_length_le {part : GapPart} (h : splitGap part cs = some (g, rest)) :
    rest.length ≤ cs.length := by
  rw [← append_splitGap h, List.length_append]
  omega

/-- A lexeme is never empty, so that fuel by the length of a text is enough. -/
lemma lexeme?_length_lt (h : lexeme? cs = some (l, r)) : r.length < cs.length := by
  cases cs with
  | nil => cases h
  | cons c rest => exact Nat.lt_succ_of_le (lexeme?_suffix h).length_le

/-- More fuel than characters is enough, and more of it changes nothing. -/
lemma tokens?_congr {fuel fuel' : Nat} (h : cs.length < fuel) (h' : cs.length < fuel') :
    tokens? fuel cs = tokens? fuel' cs := by
  induction fuel generalizing fuel' cs with
  | zero => omega
  | succ fuel ih =>
      obtain ⟨fuel', rfl⟩ : ∃ n, fuel' = n + 1 := ⟨fuel' - 1, by omega⟩
      rw [tokens?, tokens?]
      cases hgap : splitGap .blank cs with
      | none => rfl
      | some p =>
          obtain ⟨gap, rest⟩ := p
          have hlength := splitGap_length_le hgap
          simp only [Option.bind_eq_bind, Option.bind_some]
          cases hlexeme : lexeme? rest with
          | none => rfl
          | some p =>
              obtain ⟨l, r⟩ := p
              have hlt := lexeme?_length_lt hlexeme
              simp only [Option.bind_some,
                ih (show r.length < fuel by omega) (show r.length < fuel' by omega)]

/-- A gap alone has no tokens. -/
lemma Token.ofText?_of_gap (h : splitGap .blank cs = some (g, [])) :
    Token.ofText? cs = some [] := by
  rw [Token.ofText?, tokens?, h]
  rfl

/-- The tokens of a text are its first one and those of the rest. -/
lemma Token.ofText?_of_lexeme (hgap : splitGap .blank cs = some (g, rest))
    (hlexeme : lexeme? rest = some (l, r)) :
    Token.ofText? cs = (Token.ofText? r).map (⟨g, l⟩ :: ·) := by
  have hle := splitGap_length_le hgap
  have hlt := lexeme?_length_lt hlexeme
  have hne : rest.isEmpty = false := by
    cases rest with
    | nil => cases hlexeme
    | cons => rfl
  rw [Token.ofText?, Token.ofText?, tokens?, hgap,
    tokens?_congr (show r.length < r.length + 1 by omega) (show r.length < cs.length by omega)]
  simp only [Option.bind_eq_bind, Option.bind_some, hne, hlexeme, Bool.false_eq_true, if_false]
  cases tokens? cs.length r <;> rfl

/-- A text with tokens is a gap alone, or it starts with a gap and a lexeme. -/
lemma Token.exists_of_ofText? (h : Token.ofText? cs = some ts) :
    (∃ g, splitGap .blank cs = some (g, []) ∧ ts = []) ∨
      ∃ g rest l r later, splitGap .blank cs = some (g, rest) ∧ lexeme? rest = some (l, r) ∧
        Token.ofText? r = some later ∧ ts = ⟨g, l⟩ :: later := by
  rw [Token.ofText?, tokens?] at h
  obtain ⟨⟨g, rest⟩, hgap, h⟩ := Option.bind_eq_some_iff.1 h
  dsimp only at h
  split_ifs at h with hrest
  · obtain rfl := List.isEmpty_iff.1 hrest
    exact .inl ⟨g, hgap, (Option.some.inj h).symm⟩
  · obtain ⟨⟨l, r⟩, hlexeme, h⟩ := Option.bind_eq_some_iff.1 h
    obtain ⟨later, hlater, h⟩ := Option.bind_eq_some_iff.1 h
    have hlt := lexeme?_length_lt hlexeme
    have hle := splitGap_length_le hgap
    rw [tokens?_congr (show r.length < cs.length by omega) (Nat.lt_succ_self _)] at hlater
    exact .inr ⟨g, rest, l, r, later, hgap, hlexeme, hlater, (Option.some.inj h).symm⟩

/-- Some tokens are read off the front of a text, and what is left starts right behind the last of
them. -/
inductive Reads : List Char → List Token → List Char → Prop
  | done {cs : List Char} : Reads cs [] cs
  | step {cs gap rest r out : List Char} {l : Lexeme} {ts : List Token}
      (hgap : splitGap .blank cs = some (gap, rest)) (hlexeme : lexeme? rest = some (l, r))
        (h : Reads r ts out) :
      Reads cs (⟨gap, l⟩ :: ts) out

/-- What is read off the front of a text are its first tokens. -/
lemma Reads.ofText?_eq (h : Reads cs ts r) :
    Token.ofText? cs = (Token.ofText? r).map (ts ++ ·) := by
  induction h with
  | done => simp
  | step hgap hlexeme _ ih =>
      rw [Token.ofText?_of_lexeme hgap hlexeme, ih, Option.map_map]
      rfl

lemma Reads.suffix (h : Reads cs ts r) : r <:+ cs := by
  induction h with
  | done => exact List.suffix_rfl
  | @step cs gap rest r out l ts hgap hlexeme _ ih =>
      obtain ⟨c, tail, rfl⟩ := List.exists_cons_of_ne_nil (l := rest) (by rintro rfl; cases hlexeme)
      have hrest : c :: tail <:+ cs := ⟨gap, append_splitGap hgap⟩
      exact ((ih.trans (lexeme?_suffix hlexeme)).trans (List.suffix_cons _ _)).trans hrest

/-- The first tokens of a text are read off its front. -/
lemma exists_reads {before later : List Token} (h : Token.ofText? cs = some (before ++ later)) :
    ∃ r, Reads cs before r ∧ Token.ofText? r = some later := by
  induction before generalizing cs with
  | nil => exact ⟨cs, .done, h⟩
  | cons t before ih =>
      obtain ⟨g, -, hnil⟩ | ⟨g, rest, l, r, ts, hgap, hlexeme, hlater, heq⟩ :=
        Token.exists_of_ofText? h
      · cases hnil
      · obtain ⟨rfl, rfl⟩ := List.cons.inj heq
        obtain ⟨r', hreads, hr⟩ := ih hlater
        exact ⟨r', .step hgap hlexeme hreads, hr⟩

/-- **Tokens in front of a gap** are read whatever gap it is, and whatever stands behind it. -/
lemma Reads.append_congr {pre : List Char} (hg : Parts g) (hg' : Parts g')
    (h : Reads (pre ++ g) ts g) :
    Reads (pre ++ g') ts g' := by
  generalize hcs : pre ++ g = cs at h
  generalize hout : g = out at h
  induction h generalizing pre with
  | done =>
      have hpre : pre = [] := by simpa [hout] using hcs
      rw [hpre]
      exact .done
  | @step cs gap rest r out l ts hgap hlexeme hreads ih =>
      subst hout
      obtain ⟨w', rfl⟩ := hreads.suffix
      obtain ⟨c, tail, rfl⟩ := List.exists_cons_of_ne_nil (l := rest) (by rintro rfl; cases hlexeme)
      obtain ⟨w, hw⟩ := lexeme?_suffix hlexeme
      have hrest : c :: tail = (c :: (w ++ w')) ++ g := by rw [← hw]; simp
      have hpre : pre = gap ++ c :: (w ++ w') := by
        have happend := append_splitGap hgap
        rw [hrest, ← hcs, ← List.append_assoc] at happend
        exact (List.append_cancel_right happend).symm
      rw [hrest, lexeme?_append_iff hg (List.cons_ne_nil _ _)] at hlexeme
      have hlexeme' := (lexeme?_append_iff hg' (List.cons_ne_nil _ _)).2 hlexeme
      have hgap' : splitGap .blank (pre ++ g') = some (gap, (c :: (w ++ w')) ++ g') := by
        rw [hpre, List.append_assoc, (gap_of_splitGap hgap (List.cons_ne_nil _ _)).splitGap_append,
          splitGap_of_isSolid (isSolid_of_lexeme? hlexeme')]
        simp
      exact .step hgap' hlexeme' (ih rfl rfl)

end Texts

end CodeGraph.Cypher
