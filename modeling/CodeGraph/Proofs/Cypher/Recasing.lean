import CodeGraph.Proofs.Cypher.LetterCase
import CodeGraph.Proofs.Cypher.Respacing

/-!
Keywords may be written in any case.

Letters may change their case in every word that acts as a keyword, and only there: labels, groups,
keys, variables, functions and quoted texts stay as they are.

* `Recased s cs cs'`: two texts, at a place where `s` is due, that differ in the case of keywords
  only.
* `Recased.tokens_rel`: the tokens of both are restyled.
* `Query.ofText_recased`: both texts are read as the same query.
-/

namespace CodeGraph
namespace Cypher

variable {cs ds r r' : List Char}

/-! ### Texts -/

/-- Two texts that differ in the case of letters of keywords only, at a place where `s` is due. They
are compared from left to right, lexeme by lexeme: a word that spells a keyword and is no name may
have another case, every other lexeme stays, and so do the gaps. From some place on, the texts are
the same. -/
inductive Recased : Stand → List Char → List Char → Prop
  | rest {s : Stand} {cs : List Char} : Recased s cs cs
  | lexeme {s : Stand} {g w r r' : List Char} {l : Lexeme} (hg : Gap g)
      (hl : lexeme? (w ++ r) = some (l, r))
      (h : Recased (s.next l) r r') : Recased s (g ++ (w ++ r)) (g ++ (w ++ r'))
  | keyword {s : Stand} {g r r' : List Char} {v w : String} (hg : Gap g)
      (hl : lexeme? (v.toList ++ r) = some (.word v, r)) (hv : (Keyword.ofWord? v).isSome)
      (hname : ∀ later ∈ Token.ofText? r, s.isName (.word v) later = false)
      (hw : SameLetters v.toList w.toList) (h : Recased (s.next (.word v)) r r') :
      Recased s (g ++ (v.toList ++ r)) (g ++ (w.toList ++ r'))

lemma Recased.sameLetters {s : Stand} (h : Recased s cs ds) : SameLetters cs ds := by
  induction h with
  | rest => exact .refl _
  | lexeme _ _ _ ih => exact (SameLetters.refl _).append ((SameLetters.refl _).append ih)
  | keyword _ _ _ _ hw _ ih => exact (SameLetters.refl _).append (hw.append ih)

/-- A keyword is read in every case. -/
lemma Recased.lexeme?_keyword {v w : String} {s : Stand}
    (hl : lexeme? (v.toList ++ r) = some (.word v, r)) (hw : SameLetters v.toList w.toList)
    (h : Recased s r r') :
    lexeme? (w.toList ++ r') = some (.word w, r') := by
  obtain ⟨-, hv, hr⟩ := lexeme?_word_iff.1 hl
  exact lexeme?_word (hw.isIdentifier hv) (h.sameLetters.endsWord hr)

/-- Tokens in another case, with the same gaps. -/
def RecasedTokens (s : Stand) (ts ts' : List Token) : Prop :=
  Restyled False s ts ts' ∧ ts.map Token.gap = ts'.map Token.gap

lemma keepsBlank_of_map_gap {ts ts' : List Token} {B : Prop}
    (h : ts.map Token.gap = ts'.map Token.gap) :
    KeepsBlank B ts ts' := by
  rintro t ht t' ht' - hblank
  have hgap : some t.gap = some t'.gap := by
    rw [← Option.map_some, ← Option.map_some, ← Option.mem_def.1 ht, ← Option.mem_def.1 ht',
      ← List.head?_map, ← List.head?_map, h]
  rw [Option.some.inj hgap] at hblank
  exact .inl hblank

/-- **The tokens** of texts that differ in the case of keywords. -/
lemma Recased.tokens_rel {s : Stand} (h : Recased s cs ds) :
    Option.Rel (RecasedTokens s) (Token.ofText? cs) (Token.ofText? ds) := by
  induction h with
  | @rest s cs =>
      cases Token.ofText? cs with
      | none => exact .none
      | some ts => exact .some ⟨(Regapped.refl ts).restyled, rfl⟩
  | lexeme hg hl h ih =>
      have hl' := lexeme?_of_sameLetters hl h.sameLetters
      rw [(Reads.cons hg hl .done).ofText?_eq, (Reads.cons hg hl' .done).ofText?_eq]
      refine rel_map ih fun ts ts' hts => ⟨?_, congrArg (List.cons _) hts.2⟩
      exact .cons rfl (fun _ => keepsBlank_of_map_gap hts.2) (.inl rfl) hts.1
  | @keyword s g r r' v w hg hl hv hname hw h ih =>
      have hl' := h.lexeme?_keyword hl hw
      rw [(Reads.cons hg hl .done).ofText?_eq, (Reads.cons hg hl' .done).ofText?_eq]
      obtain ⟨ts, ts', e, e', hts⟩ | ⟨e, e'⟩ := rel_cases ih
      · obtain ⟨k, hk⟩ := Option.isSome_iff_exists.1 hv
        have hrespelled : (Lexeme.word v).Respelled (.word w) :=
          ⟨k, hk, hw.ofWord?_eq.symm.trans hk⟩
        rw [e, e']
        refine .some ⟨?_, congrArg (List.cons g) hts.2⟩
        exact .cons rfl (fun _ => keepsBlank_of_map_gap hts.2) (.inr ⟨hrespelled, hname ts e⟩) hts.1
      · rw [e, e']
        exact .none

/-- Whether a word is a name depends neither on its case nor on that of the keywords behind it. -/
lemma Restyled.isName_eq {B : Prop} {s : Stand} {v w : String} {ts ts' : List Token}
    (hvw : Keyword.ofWord? v = Keyword.ofWord? w) (h : Restyled B (s.next (.word v)) ts ts') :
    s.isName (.word v) ts = s.isName (.word w) ts' := by
  have hcallee : s.IsOpen →
      (callee? (⟨[], .word v⟩ :: ts)).isSome = (callee? (⟨[], .word w⟩ :: ts')).isSome := by
    intro hs
    rw [hs.next_eq] at h
    obtain ⟨ws, r, r', e, e', hr⟩ := (h.clause (Lexeme.isOpen_next_word v)).exists_dotted
    rw [callee?_eq, callee?_eq, word_cons, word_cons, Option.bind_some, Option.bind_some]
    dsimp only
    rw [e, e', Option.isSome_map, Option.isSome_map]
    exact hr.startsWithMark_eq .openParen
  have hkeyword : (Lexeme.word v).keyword? = (Lexeme.word w).keyword? := hvw
  cases s with
  | operand => rw [Stand.isName, Stand.isName, hkeyword, hcallee Stand.isOpen_operand]
  | result => rw [Stand.isName, Stand.isName, hkeyword, hcallee Stand.isOpen_result]
  | _ => rfl

lemma Recased.symm {s : Stand} (h : Recased s cs ds) : Recased s ds cs := by
  induction h with
  | rest => exact .rest
  | lexeme hg hl h ih => exact .lexeme hg (lexeme?_of_sameLetters hl h.sameLetters) ih
  | @keyword s g r r' v w hg hl hv hname hw h ih =>
      have hvw := hw.ofWord?_eq
      refine .keyword hg (h.lexeme?_keyword hl hw) (hvw ▸ hv) (fun later hlater => ?_) hw.symm
        (s.next_word_congr hvw ▸ ih)
      obtain ⟨ts, ts', e, e', hts⟩ | ⟨-, e'⟩ := rel_cases h.tokens_rel
      · obtain rfl := Option.mem_unique hlater e'
        rw [← hts.1.isName_eq hvw]
        exact hname ts e
      · rw [Option.mem_def, e'] at hlater
        cases hlater

end Cypher

open Cypher

/-- What is read of a text is read of it in another case. -/
lemma Query.ofText_of_recased {text text' : String} (h : Recased .clause text.toList text'.toList) :
    (Query.ofText text = .error .rejected → Query.ofText text' = .error .rejected) ∧
      ∀ q, Query.ofText text = .ok q → Query.ofText text' = .ok q := by
  have hrel : Option.Rel (Follows False) ((Token.ofText? text.toList).bind queryOfTokens?)
      ((Token.ofText? text'.toList).bind queryOfTokens?) :=
    rel_bind h.tokens_rel fun _ _ hts => hts.1.queryOfTokens?_rel
  rw [Query.ofText, Query.ofText]
  obtain ⟨r, r', e, e', hfollows⟩ | ⟨e, e'⟩ := rel_cases hrel
  · rw [e, e']
    cases r with
    | error f =>
        constructor
        · intro hr
          cases hr
        · intro q hr
          cases hr
    | ok q =>
        obtain rfl | ⟨hfalse, -⟩ := hfollows q rfl
        · exact ⟨id, fun _ => id⟩
        · exact hfalse.elim
  · rw [e, e']
    exact ⟨id, fun _ => id⟩

/-- **Keywords may be written in any case.** If two texts differ in the case of letters of keywords
only, the grammar accepts both or none, and a query that is read of the one is read of the other. -/
theorem Query.ofText_recased {text text' : String} (h : Recased .clause text.toList text'.toList) :
    (Query.ofText text = .error .rejected ↔ Query.ofText text' = .error .rejected) ∧
      ∀ q, Query.ofText text = .ok q ↔ Query.ofText text' = .ok q := by
  obtain ⟨hrejected, hok⟩ := ofText_of_recased h
  obtain ⟨hrejected', hok'⟩ := ofText_of_recased h.symm
  exact ⟨⟨hrejected, hrejected'⟩, fun q => ⟨hok q, hok' q⟩⟩

/-- A query in another case: its label is spelled like a keyword, and stays. -/
theorem Query.ofText_recased_of_label :
    ∃ q, Query.ofText "MATCH (n:Match) RETURN TRUE" = .ok q
      ∧ Query.ofText "match (n:Match) Return true" = .ok q := by
  obtain ⟨q, hq⟩ : ∃ q, Query.ofText "MATCH (n:Match) RETURN TRUE" = .ok q :=
    exists_of_isOk (by decide +kernel)
  have hfunction : ∀ later ∈ Token.ofText? [],
      Stand.isName .result (.word "TRUE") later = false := by
    intro later hlater
    rw [show Token.ofText? [] = some [] by decide +kernel, Option.mem_some] at hlater
    rw [← hlater]
    decide +kernel
  have hresult : Stand.next .clause (.word "RETURN") = .result := by decide +kernel
  have hvariable : Stand.next .operand (.word "n") = .clause := by decide +kernel
  have hclause : Stand.next .clause (.word "MATCH") = .clause := by decide +kernel
  -- from the last word to the first one
  have htrue := Recased.keyword (v := "TRUE") (w := "true") gap_blank (by decide +kernel)
    (by decide +kernel) hfunction (by decide +kernel) (@Recased.rest _ [])
  have hreturn := Recased.keyword (v := "RETURN") (w := "Return") gap_blank (by decide +kernel)
    (by decide +kernel) (fun _ _ => rfl) (by decide +kernel) (hresult ▸ htrue)
  have hclose := Recased.lexeme (s := .clause) (w := [')']) (l := .mark .closeParen) .nil
    (by decide +kernel) hreturn
  have hlabel := Recased.lexeme (s := .name) (w := "Match".toList) (l := .word "Match") .nil
    (by decide +kernel) hclose
  have hcolon := Recased.lexeme (s := .clause) (w := [':']) (l := .mark .colon) .nil
    (by decide +kernel) hlabel
  have hname := Recased.lexeme (w := ['n']) (l := .word "n") .nil (by decide +kernel)
    (hvariable ▸ hcolon)
  have hopen := Recased.lexeme (s := .clause) (w := ['(']) (l := .mark .openParen) gap_blank
    (by decide +kernel) hname
  have hmatch := Recased.keyword (v := "MATCH") (w := "match") .nil (by decide +kernel)
    (by decide +kernel) (fun _ _ => rfl) (by decide +kernel) (hclause ▸ hopen)
  have hrecased : Recased .clause "MATCH (n:Match) RETURN TRUE".toList
      "match (n:Match) Return true".toList := by
    convert hmatch using 1 <;> decide +kernel
  exact ⟨q, hq, ((ofText_recased hrecased).2 q).1 hq⟩

end CodeGraph
