import CodeGraph.Proofs.Cypher.Cutting
import CodeGraph.Proofs.Cypher.RestyledClauses
import CodeGraph.Proofs.Cypher.TakenClauses

/-!
Comments and white space may stand for each other, except in a text test.

* `IsPlace`, `InTextTest`: a place behind some tokens of a text, and the places between the two
  words of a text test.
* `tokens_respaced`: another gap at a place changes the gap of one token.
* `Query.ofText_respaced`: the query stays, except with a comment in a text test, which makes it a
  fault.
-/

namespace CodeGraph
namespace Cypher

variable {B : Prop}

/-! ### Tokens with another gap at one place -/

/-- Another gap behind some tokens. -/
lemma regapped_append {before later : List Token} {l : Lexeme} {g g' : List Char}
    (hempty : g.isEmpty = g'.isEmpty)
    (hblank : ∀ t ∈ before.getLast?, t.lexeme.StartsTest →
      KeepsBlank B (⟨g, l⟩ :: later) (⟨g', l⟩ :: later)) :
    Regapped B (before ++ ⟨g, l⟩ :: later) (before ++ ⟨g', l⟩ :: later) := by
  induction before with
  | nil => exact .cons hempty (fun _ => .refl later) (.refl later)
  | cons t before ih =>
      refine .cons rfl (fun ht => ?_) (ih fun u hu => hblank u ?_)
      · cases before with
        | nil => exact hblank t rfl ht
        | cons u before =>
            rintro v hv v' hv' - hall
            rw [Option.mem_unique hv hv'] at hall
            exact .inl hall
      · rw [List.getLast?_cons, Option.mem_def, hu]
        rfl

/-! ### Texts with another gap at one place -/

/-- A place of a text behind some tokens, with nothing but a gap between the last of them and it. -/
def IsPlace (front : List Char) (before : List Token) (back : List Char) : Prop :=
  ∃ w g, front = w ++ g ∧ Gap g ∧ Reads (w ++ (g ++ back)) before (g ++ back)

/-- The place is between the words `STARTS` or `ENDS` and `WITH`. -/
def InTextTest (before : List Token) (back : List Char) : Prop :=
  (∃ t ∈ before.getLast?, t.lexeme.StartsTest) ∧
    ∃ u later, Token.ofText? back = some (u :: later) ∧ u.lexeme.keyword? = some .withWord

/-- Another gap at a place changes the gap of the token behind it, if there is one. -/
lemma tokens_respaced {front gap gap' back : List Char} {before ts : List Token}
    (hplace : IsPlace front before (gap ++ back)) (hgap : Gap gap) (hne : gap ≠ [])
    (hgap' : Gap gap')
    (hne' : gap' ≠ []) (h : Token.ofText? (front ++ (gap ++ back)) = some ts) :
    (Token.ofText? (gap ++ back) = some [] ∧ Token.ofText? (front ++ (gap' ++ back)) = some ts) ∨
      ∃ l g g' later, ts = before ++ ⟨g ++ (gap ++ g'), l⟩ :: later ∧
        Token.ofText? (gap ++ back) = some (⟨gap ++ g', l⟩ :: later) ∧
        Token.ofText? (front ++ (gap' ++ back))
          = some (before ++ ⟨g ++ (gap' ++ g'), l⟩ :: later) := by
  obtain ⟨w, g, rfl, hg, hreads⟩ := hplace
  have hparts : ∀ {b : List Char}, Gap b → b ≠ [] → Parts (g ++ (b ++ back)) := by
    intro b hb hb'
    rw [← List.append_assoc]
    exact (hg.append hb).parts back (by simp [hb'])
  have hreads' := hreads.append_congr (hparts hgap hne) (hparts hgap' hne')
  have hsplit : ∀ {b : List Char}, Gap b → splitGap .blank (g ++ (b ++ back))
      = (splitGap .blank back).map fun p => (g ++ (b ++ p.1), p.2) := by
    intro b hb
    rw [hg.splitGap_append, hb.splitGap_append, Option.map_map]
    rfl
  rw [List.append_assoc, hreads.ofText?_eq] at h
  obtain ⟨us, hus, rfl⟩ := Option.map_eq_some_iff.1 h
  rw [List.append_assoc, hreads'.ofText?_eq]
  obtain ⟨b, hb, rfl⟩ | ⟨b, rest, l, r, later, hb, hlexeme, hlater, rfl⟩ :=
    Token.exists_of_ofText? hus
  · left
    rw [hsplit hgap] at hb
    obtain ⟨⟨b', _⟩, hback, heq⟩ := Option.map_eq_some_iff.1 hb
    obtain ⟨rfl, rfl⟩ := Prod.mk.inj heq
    rw [Token.ofText?_of_gap (by rw [hgap.splitGap_append, hback]; rfl),
      Token.ofText?_of_gap (by rw [hsplit hgap', hback]; rfl)]
    exact ⟨rfl, rfl⟩
  · right
    rw [hsplit hgap] at hb
    obtain ⟨⟨b', rest⟩, hback, heq⟩ := Option.map_eq_some_iff.1 hb
    obtain ⟨rfl, rfl⟩ := Prod.mk.inj heq
    refine ⟨l, g, b', later, rfl, ?_, ?_⟩
    · rw [Token.ofText?_of_lexeme (by rw [hgap.splitGap_append, hback]; rfl) hlexeme, hlater]
      rfl
    · rw [Token.ofText?_of_lexeme (by rw [hsplit hgap', hback]; rfl) hlexeme, hlater]
      rfl

end Cypher

open Cypher

/-- What a text with tokens is read as. -/
lemma Query.ofText_of_tokens {text : List Char} {ts : List Token} {r : Read Query}
    (hts : Token.ofText? text = some ts) (hr : queryOfTokens? ts = some r) :
    Query.ofText (String.ofList text) = r.mapError ParseError.fault := by
  rw [Query.ofText, String.toList_ofList, hts, Option.bind_some, hr]
  cases r <;> rfl

lemma Query.exists_tokens_of_ofText {text : List Char} {q : Query}
    (h : Query.ofText (String.ofList text) = .ok q) :
    ∃ ts, Token.ofText? text = some ts ∧ queryOfTokens? ts = some (.ok q) := by
  rw [Query.ofText, String.toList_ofList] at h
  split at h
  · cases h
  · cases h
  · rename_i query hquery
    obtain ⟨ts, hts, hr⟩ := Option.bind_eq_some_iff.1 hquery
    exact ⟨ts, hts, by rw [hr, Except.ok.inj h]⟩

/-- **Comments and white space may stand for each other.** A text is read as a query. Then it is
read as the same query with any other gap between two of its tokens, except that a gap between the
words `STARTS` or `ENDS` and `WITH` must be blank: with a comment there, the operator of the two
words is at fault. -/
theorem Query.ofText_respaced {front gap gap' back : List Char} {before : List Token} {q : Query}
    (hplace : IsPlace front before (gap ++ back)) (hgap : Gap gap) (hne : gap ≠ [])
    (hgap' : Gap gap')
    (hne' : gap' ≠ []) (h : Query.ofText (String.ofList (front ++ (gap ++ back))) = .ok q) :
    (¬ (InTextTest before (gap ++ back) ∧ ¬ gap'.all isBlank) →
        Query.ofText (String.ofList (front ++ (gap' ++ back))) = .ok q) ∧
      (InTextTest before (gap ++ back) ∧ ¬ gap'.all isBlank →
        ∃ written, Query.ofText (String.ofList (front ++ (gap' ++ back)))
          = .error (.fault (.unknownOperator written))) := by
  obtain ⟨ts, hts, hq⟩ := exists_tokens_of_ofText h
  obtain ⟨hback, hts'⟩ | ⟨l, g, b, later, rfl, hback, hts'⟩ :=
    tokens_respaced hplace hgap hne hgap' hne' hts
  · -- behind the last token the gap stands in front of none
    refine ⟨fun _ => ofText_of_tokens hts' hq, fun ⟨⟨_, u, later, hu, _⟩, _⟩ => ?_⟩
    rw [hback] at hu
    cases hu
  · have hregapped : Regapped (InTextTest before (gap ++ back) ∧ ¬ gap'.all isBlank)
        (before ++ ⟨g ++ (gap ++ b), l⟩ :: later) (before ++ ⟨g ++ (gap' ++ b), l⟩ :: later) := by
      have hfilled : ∀ {c : List Char}, c ≠ [] → (g ++ (c ++ b)).isEmpty = false :=
        fun hc => List.isEmpty_eq_false_iff.2 (by simp [hc])
      refine regapped_append ((hfilled hne).trans (hfilled hne').symm) fun t ht hstart => ?_
      rintro u hu u' hu' hwith hblank
      obtain rfl := Option.some.inj hu
      obtain rfl := Option.some.inj hu'
      by_cases hall : gap'.all isBlank
      · simp only [List.all_append, Bool.and_eq_true] at hblank ⊢
        exact .inl ⟨hblank.1, hall, hblank.2.2⟩
      · exact .inr ⟨⟨⟨t, ht, hstart⟩, _, later, hback, hwith⟩, hall⟩
    have hrel := hregapped.queryOfTokens?_rel
    rw [hq] at hrel
    obtain ⟨r, hr, hfollows⟩ : ∃ r,
        queryOfTokens? (before ++ ⟨g ++ (gap' ++ b), l⟩ :: later) = some r ∧
        Follows (InTextTest before (gap ++ back) ∧ ¬ gap'.all isBlank) (.ok q) r := by
      generalize queryOfTokens? (before ++ ⟨g ++ (gap' ++ b), l⟩ :: later) = o at hrel
      cases hrel with
      | some hrel => exact ⟨_, rfl, hrel⟩
    rw [ofText_of_tokens hts' hr]
    obtain rfl | ⟨hbroken, written, rfl⟩ := hfollows q rfl
    · refine ⟨fun _ => rfl, ?_⟩
      rintro ⟨⟨⟨t, ht, hstart⟩, u, later', hu, hwith⟩, hcomment⟩
      -- the tokens of a query fit, but these do not
      rw [hback] at hu
      obtain ⟨rfl, rfl⟩ := List.cons.inj (Option.some.inj hu)
      have hchain := List.isChain_append.1 (isChain_of_queryOfTokens? hr)
      have hblank : (g ++ (gap' ++ b)).all isBlank := hchain.2.2 t ht _ rfl hstart hwith
      simp only [List.all_append, Bool.and_eq_true] at hblank
      exact absurd hblank.2.1 hcomment
    · exact ⟨fun hintact => absurd hbroken hintact, fun _ => ⟨written, rfl⟩⟩

lemma exists_of_isOk {ε α : Type} {r : Except ε α} (h : r.isOk) : ∃ a, r = .ok a := by
  cases r with
  | error e => cases h
  | ok a => exact ⟨a, rfl⟩

lemma eq_error_of_map {ε α β : Type} {f : α → β} {r : Except ε α} {e : ε} (h : r.map f = .error e) :
    r = .error e := by
  cases r with
  | error e' => exact congrArg Except.error (Except.error.inj h)
  | ok a => cases h

/-- A comment in the place of a blank, behind the first word of a query. -/
theorem Query.ofText_respaced_of_match :
    ∃ q, Query.ofText "MATCH (n) RETURN n" = .ok q
      ∧ Query.ofText "MATCH/* all */(n) RETURN n" = .ok q := by
  obtain ⟨q, hq⟩ : ∃ q, Query.ofText "MATCH (n) RETURN n" = .ok q :=
    exists_of_isOk (by decide +kernel)
  have htext : "MATCH (n) RETURN n"
      = String.ofList ("MATCH".toList ++ ([' '] ++ "(n) RETURN n".toList)) := by
    decide +kernel
  have htext' : "MATCH/* all */(n) RETURN n"
      = String.ofList ("MATCH".toList ++ ("/* all */".toList ++ "(n) RETURN n".toList)) := by
        decide +kernel
  have hsplit : splitGap .blank ("MATCH".toList ++ ([' '] ++ "(n) RETURN n".toList))
      = some ([], "MATCH (n) RETURN n".toList) := by decide +kernel
  have hlexeme : lexeme? "MATCH (n) RETURN n".toList
      = some (.word "MATCH", [' '] ++ "(n) RETURN n".toList) := by decide +kernel
  have hplace : IsPlace "MATCH".toList [⟨[], .word "MATCH"⟩] ([' '] ++ "(n) RETURN n".toList) :=
    ⟨"MATCH".toList, [], rfl, .nil, .step hsplit hlexeme .done⟩
  have hgap : Gap "/* all */".toList := by
    rw [show "/* all */".toList = '/' :: '*' :: (" all ".toList ++ ['*', '/']) by decide +kernel]
    exact .block (by decide +kernel) .nil
  have hmatch : ¬ (InTextTest [⟨[], .word "MATCH"⟩] ([' '] ++ "(n) RETURN n".toList) ∧
      ¬ "/* all */".toList.all isBlank) := by
    rintro ⟨⟨⟨t, ht, hstart⟩, -⟩, -⟩
    rw [← Option.some.inj ht] at hstart
    revert hstart
    unfold Lexeme.StartsTest
    decide +kernel
  rw [htext] at hq
  have hrespaced :=
    ofText_respaced hplace (.blank (by decide) .nil) (by decide) hgap (by decide +kernel) hq
  exact ⟨q, by rw [htext, hq], by rw [htext', hrespaced.1 hmatch]⟩

/-- A comment between the two words of a text test makes a fault of a query. -/
theorem Query.ofText_comment_in_text_test :
    (∃ q, Query.ofText "MATCH (n) WHERE n.name STARTS WITH 'a' RETURN n" = .ok q) ∧
      Query.ofText "MATCH (n) WHERE n.name STARTS/**/WITH 'a' RETURN n"
        = .error (.fault (.unknownOperator "STARTS/**/WITH")) := by
  have hfault :
      (Query.ofText "MATCH (n) WHERE n.name STARTS/**/WITH 'a' RETURN n").map (fun _ => ())
      = .error (.fault (.unknownOperator "STARTS/**/WITH")) := by decide +kernel
  exact ⟨exists_of_isOk (by decide +kernel), eq_error_of_map hfault⟩

end CodeGraph
