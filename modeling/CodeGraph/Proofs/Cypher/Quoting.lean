import CodeGraph.Proofs.Cypher.RenderedTokens

/-!
Texts between quotes.

A text is quoted by a backslash in front of every backslash and of every quote of the kind around
it. The ends of its lines and its tabs may be written as they are, or as letters behind a backslash.

Two passes are made over what stands between the quotes: one finds its end, over escapes of two
characters, and the other resolves the escapes. Since the first never parts an escape, the second
never comes to a backslash with nothing behind it.

* `Quote`, `Quotation`, `Quotation.text`: the ways to quote a text.
* `bodyRun`, `quotedBody`, `unescaped`: the two passes.
* `IsBody`: what may stand between quotes, and ends on a whole escape if on any.
* `quotedText_eq`, `lexeme?_quote_eq`: reading a quoted text is the two passes.
* `Quotation.lexeme?_text`: a text that was quoted is read back.
-/

namespace CodeGraph.Cypher

/-! ### Writing -/

/-- The signs that a text may stand between. -/
inductive Quote
  | single
  | double
deriving DecidableEq, Repr

def Quote.char : Quote → Char
  | single => '\''
  | double => '"'

/-- How a text is quoted: between which quotes, and whether the ends of its lines and its tabs are
written as letters.
-/
structure Quotation where
  quote : Quote
  letters : Bool
deriving DecidableEq, Repr

/-- The letter that stands for a character behind a backslash. -/
def controlLetter? : Char → Option Char
  | '\n' => some 'n'
  | '\t' => some 't'
  | '\r' => some 'r'
  | _ => none

namespace Quotation

/-- A character as it is written between quotes. -/
def escape (w : Quotation) (c : Char) : List Char :=
  if c = '\\' ∨ c = w.quote.char then ['\\', c]
  else if w.letters then (controlLetter? c).elim [c] (fun l => ['\\', l])
  else [c]

/-- A text between quotes. -/
def text (w : Quotation) (s : String) : String :=
  String.ofList (w.quote.char :: (s.toList.flatMap w.escape ++ [w.quote.char]))

end Quotation

/-! ### Two passes -/

variable {q : Quote} {cs body rest : List Char}

/-- The longest run of escapes, and of characters that are neither the quote nor a backslash; and
what follows it. -/
def bodyRun (quote : Char) : List Char → List Char × List Char
  | '\\' :: c :: rest => ('\\' :: c :: (bodyRun quote rest).1, (bodyRun quote rest).2)
  | c :: rest =>
    if c = quote ∨ c = '\\' then ([], c :: rest)
      else (c :: (bodyRun quote rest).1, (bodyRun quote rest).2)
  | [] => ([], [])

/-- What stands in front of the closing quote, and what follows the quote. -/
def quotedBody (quote : Char) (cs : List Char) : Option (List Char × List Char) :=
  match (bodyRun quote cs).2 with
  | c :: rest => if c = quote then some ((bodyRun quote cs).1, rest) else none
  | [] => none

/-- Escapes, and characters that are neither the quote nor a backslash. -/
inductive IsBody (q : Quote) : List Char → Prop
  | nil : IsBody q []
  | escape (c : Char) {cs : List Char} (h : IsBody q cs) : IsBody q ('\\' :: c :: cs)
  | plain {c : Char} {cs : List Char} (hquote : c ≠ q.char) (hbackslash : c ≠ '\\')
      (h : IsBody q cs) :
      IsBody q (c :: cs)

lemma Quote.char_ne_backslash (q : Quote) : q.char ≠ '\\' := by cases q <;> decide

/-- A run is such a body, and nothing of the text is lost. -/
lemma isBody_bodyRun (q : Quote) (cs : List Char) :
    IsBody q (bodyRun q.char cs).1 ∧ (bodyRun q.char cs).1 ++ (bodyRun q.char cs).2 = cs := by
  induction cs using bodyRun.induct q.char with
  | case1 c rest ih => exact ⟨.escape c ih.1, by simp [bodyRun, ih.2]⟩
  | case2 c rest hpair hstop =>
      exact ⟨by simpa [bodyRun, hstop] using .nil, by simp [bodyRun, hstop]⟩
  | case3 c rest hpair hgo ih =>
      rw [bodyRun, if_neg hgo]
      · obtain ⟨hquote, hbackslash⟩ := not_or.1 hgo
        exact ⟨.plain hquote hbackslash ih.1, by simp [ih.2]⟩
      · exact hpair
  | case4 => exact ⟨.nil, rfl⟩

lemma IsBody.bodyRun_append (h : IsBody q body) (rest : List Char) :
    bodyRun q.char (body ++ q.char :: rest) = (body, q.char :: rest) := by
  induction h with
  | nil =>
      rw [List.nil_append, bodyRun, if_pos (.inl rfl)]
      exact fun _ _ hc => absurd hc q.char_ne_backslash
  | escape c _ ih => rw [List.cons_append, List.cons_append, bodyRun, ih]
  | plain hquote hbackslash _ ih =>
      rw [List.cons_append, bodyRun, ih, if_neg (not_or.2 ⟨hquote, hbackslash⟩)]
      exact fun c _ hc => absurd hc hbackslash

/-- **What may stand between quotes**: the body in front of the closing quote, and no other text. -/
lemma quotedBody_eq_some_iff :
    quotedBody q.char cs = some (body, rest) ↔ IsBody q body ∧ cs = body ++ q.char :: rest := by
  constructor
  · intro h
    obtain ⟨hbody, hall⟩ := isBody_bodyRun q cs
    rw [quotedBody] at h
    split at h
    · rename_i c tail htail
      split_ifs at h with hc
      obtain ⟨rfl, rfl⟩ := Prod.mk.inj (Option.some.inj h)
      rw [htail, hc] at hall
      exact ⟨hbody, hall.symm⟩
    · cases h
  · rintro ⟨hbody, rfl⟩
    simp [quotedBody, hbody.bodyRun_append]

lemma unescaped_plain {c : Char} (hbackslash : c ≠ '\\') (d cs : List Char) :
    unescaped d (c :: cs) = c :: unescaped d cs := by
  rw [unescaped]
  · exact fun _ _ hc => absurd hc hbackslash
  · exact fun hc => absurd hc hbackslash

lemma quotedBody_escape (quote c : Char) (rest : List Char) :
    quotedBody quote ('\\' :: c :: rest) = (quotedBody quote rest).map fun p =>
      ('\\' :: c :: p.1, p.2) := by
  rw [quotedBody, quotedBody, bodyRun]
  cases (bodyRun quote rest).2 with
  | nil => rfl
  | cons d tail =>
      dsimp only
      split_ifs <;> rfl

lemma quotedBody_plain {quote c : Char} (hquote : c ≠ quote) (hbackslash : c ≠ '\\')
    (rest : List Char) :
    quotedBody quote (c :: rest) = (quotedBody quote rest).map fun p => (c :: p.1, p.2) := by
  rw [quotedBody, quotedBody, bodyRun, if_neg (not_or.2 ⟨hquote, hbackslash⟩)]
  · cases (bodyRun quote rest).2 with
    | nil => rfl
    | cons d tail =>
        dsimp only
        split_ifs <;> rfl
  · exact fun _ _ hc => absurd hc hbackslash

/-- **Reading a quoted text is the two passes**, whatever a backslash at the end of its body would
stand for. -/
lemma quotedText_eq (q : Quote) (dangling cs : List Char) :
    quotedText q.char cs = (quotedBody q.char cs).map fun p => (unescaped dangling p.1, p.2) := by
  induction cs using quotedText.induct q.char with
  | case1 => rfl
  | case2 c rest ih =>
      rw [quotedText, quotedBody_escape, ih, Option.map_map, Option.map_map]
      rfl
  | case3 rest hpair =>
      have hbody : quotedBody q.char (q.char :: rest) = some ([], rest) :=
        quotedBody_eq_some_iff.2 ⟨.nil, rfl⟩
      rw [quotedText, if_pos rfl, hbody]
      · rfl
      · exact hpair
  | case4 rest hpair hquote =>
      -- a backslash that is the last character of the text
      cases rest with
      | nil => simp [quotedText, quotedBody, bodyRun, q.char_ne_backslash.symm]
      | cons c rest => exact absurd rfl (hpair c rest rfl)
  | case5 c rest hpair hquote hbackslash ih =>
      have hone : ∀ p : List Char × List Char, (c :: unescaped dangling p.1, p.2)
          = (unescaped dangling (c :: p.1), p.2) := fun p => by rw [unescaped_plain hbackslash]
      rw [quotedText, if_neg hquote, if_neg hbackslash, quotedBody_plain hquote hbackslash, ih,
        Option.map_map, Option.map_map]
      · exact congrArg (Option.map · _) (funext fun p => hone p)
      · exact hpair

/-- A quoted text as a lexeme, read in the two passes. -/
lemma lexeme?_quote_eq (q : Quote) (dangling cs : List Char) :
    lexeme? (q.char :: cs)
      = (quotedBody q.char cs).map fun p =>
        (.quoted (String.ofList (unescaped dangling p.1)), p.2) := by
  have hlexeme : lexeme? (q.char :: cs)
      = (quotedText q.char cs).map fun p => (.quoted (String.ofList p.1), p.2) := by
    cases q <;> exact rfl
  rw [hlexeme, quotedText_eq q dangling, Option.map_map]
  rfl

/-! ### What was quoted is read back -/

lemma unescape_of_controlLetter? {c l : Char} (h : controlLetter? c = some l) : unescape l = c := by
  rw [controlLetter?.eq_def] at h
  split at h <;> cases h <;> rfl

namespace Quotation

/-- A character is written as one escape, or as itself. -/
lemma escape_cases (w : Quotation) (c : Char) :
    (∃ l, unescape l = c ∧ w.escape c = ['\\', l]) ∨ c ≠ w.quote.char ∧ c ≠ '\\'
      ∧ w.escape c = [c] := by
  rw [escape]
  split_ifs with hpair hletters
  · refine .inl ⟨c, ?_, rfl⟩
    rcases hpair with rfl | rfl
    · rfl
    · cases w.quote <;> rfl
  · cases hl : controlLetter? c with
    | some l => exact .inl ⟨l, unescape_of_controlLetter? hl, rfl⟩
    | none => exact .inr ⟨fun hc => hpair (.inr hc), fun hc => hpair (.inl hc), rfl⟩
  · exact .inr ⟨fun hc => hpair (.inr hc), fun hc => hpair (.inl hc), rfl⟩

lemma isBody_flatMap_escape (w : Quotation) (cs : List Char) :
    IsBody w.quote (cs.flatMap w.escape) := by
  induction cs with
  | nil => exact .nil
  | cons c cs ih =>
      rw [List.flatMap_cons]
      obtain ⟨l, -, hl⟩ | ⟨hquote, hbackslash, hc⟩ := w.escape_cases c
      · rw [hl]
        exact .escape l ih
      · rw [hc]
        exact .plain hquote hbackslash ih

lemma unescaped_flatMap_escape (w : Quotation) (dangling cs : List Char) :
    unescaped dangling (cs.flatMap w.escape) = cs := by
  induction cs with
  | nil => rfl
  | cons c cs ih =>
      rw [List.flatMap_cons]
      obtain ⟨l, hunescape, hl⟩ | ⟨-, hbackslash, hc⟩ := w.escape_cases c
      · rw [hl, List.cons_append, List.singleton_append, unescaped, hunescape, ih]
      · rw [hc, List.singleton_append, unescaped_plain hbackslash, ih]

/-- **What was quoted is read back**, whatever it contains and whatever follows. -/
lemma lexeme?_text (w : Quotation) (s : String) (rest : List Char) :
    lexeme? ((w.text s).toList ++ rest) = some (.quoted s, rest) := by
  have hbody : quotedBody w.quote.char (s.toList.flatMap w.escape ++ w.quote.char :: rest)
      = some (s.toList.flatMap w.escape, rest) :=
        quotedBody_eq_some_iff.2 ⟨w.isBody_flatMap_escape _, rfl⟩
  have htext : (w.text s).toList ++ rest
      = w.quote.char :: (s.toList.flatMap w.escape ++ w.quote.char :: rest) := by simp [text]
  rw [htext, lexeme?_quote_eq w.quote [], hbody, Option.map_some, unescaped_flatMap_escape,
    String.ofList_toList]

end Quotation

end CodeGraph.Cypher
