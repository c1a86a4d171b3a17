import CodeGraph.Cypher.Lexer
import Mathlib.Tactic

/-!
Gaps: what may stand between two tokens.

* `Gap`: blanks and comments, every comment closed, one to the end of its line by the end of the
  line.
* `Gap.splitGap_append`: a gap in front of a text belongs to the gap that is split off.
* `gap_of_splitGap`: what is split off in front of more text is a gap.
* `IsSolid`, `splitGap_of_isSolid`: a text that starts with something else has no gap in front.
-/

namespace CodeGraph.Cypher

/-! ### Gaps -/

/-- Blanks and closed comments, in any order and number. -/
inductive Gap : List Char → Prop
  | nil : Gap []
  | blank {c : Char} {g : List Char} (hc : isBlank c) (hg : Gap g) : Gap (c :: g)
  | line {body g : List Char} (hbody : '\n' ∉ body) (hg : Gap g) :
      Gap ('/' :: '/' :: (body ++ '\n' :: g))
  | block {body g : List Char} (hbody : ¬ ['*', '/'] <:+: body) (hg : Gap g) :
      Gap ('/' :: '*' :: (body ++ '*' :: '/' :: g))

/-- Neither a blank nor the start of a comment. -/
def isSolidChar (c : Char) : Bool := !isBlank c && c != '/'

/-- A text starts solid if no gap stands in front of it. -/
def IsSolid (cs : List Char) : Prop := ∃ c ∈ cs.head?, isSolidChar c

lemma Gap.append {g g' : List Char} (h : Gap g) (h' : Gap g') : Gap (g ++ g') := by
  induction h with
  | nil => exact h'
  | blank hc _ ih => exact .blank hc ih
  | line hbody _ ih => simpa using Gap.line hbody ih
  | block hbody _ ih => simpa using Gap.block hbody ih

/-! ### Splitting a gap off -/

/-- A comment to the end of its line ends there. -/
lemma splitGap_line {body : List Char} (hbody : '\n' ∉ body) (cs : List Char) :
    splitGap .line (body ++ '\n' :: cs)
      = (splitGap .blank cs).map (fun p => (body ++ '\n' :: p.1, p.2)) := by
  induction body with
  | nil => rfl
  | cons c body ih =>
      obtain ⟨hc, hrest⟩ := not_or.1 (mt List.mem_cons.2 hbody)
      rw [List.cons_append, splitGap, if_neg (Ne.symm hc), ih hrest, Option.map_map]
      rfl

/-- Other comments end at the first star and slash. -/
lemma splitGap_block {body : List Char} (hbody : ¬ ['*', '/'] <:+: body) (cs : List Char) :
    splitGap .block (body ++ '*' :: '/' :: cs)
      = (splitGap .blank cs).map (fun p => (body ++ '*' :: '/' :: p.1, p.2)) := by
  induction body with
  | nil => rfl
  | cons c body ih =>
      have hrest : ¬ ['*', '/'] <:+: body := fun h =>
        hbody (h.trans (List.suffix_cons c body).isInfix)
      rw [List.cons_append, splitGap, ih hrest, Option.map_map]
      · rfl
      · -- the body does not start with a star and a slash, nor does it end between the two
        rintro rest rfl heq
        cases body with
        | nil => simp at heq
        | cons d body =>
            obtain ⟨rfl, -⟩ := List.cons.inj heq
            exact hbody ⟨[], body, rfl⟩

/-- **A gap in front of a text** belongs to the gap that is split off. -/
lemma Gap.splitGap_append {g : List Char} (h : Gap g) (cs : List Char) :
    splitGap .blank (g ++ cs) = (splitGap .blank cs).map (fun p => (g ++ p.1, p.2)) := by
  induction h with
  | nil => simp
  | @blank c g hc _ ih =>
      have hslash : c ≠ '/' := by
        rintro rfl
        exact absurd hc (by decide)
      rw [List.cons_append, splitGap, if_pos hc, ih, Option.map_map]
      · rfl
      · exact fun _ hcomment => absurd hcomment hslash
      · exact fun _ hcomment => absurd hcomment hslash
  | @line body g hbody _ ih =>
      rw [List.cons_append, List.cons_append, List.append_assoc, List.cons_append, splitGap,
        splitGap_line hbody, ih, Option.map_map, Option.map_map]
      simp [Function.comp_def]
  | @block body g hbody _ ih =>
      rw [List.cons_append, List.cons_append, List.append_assoc, List.cons_append, List.cons_append,
        splitGap, splitGap_block hbody, ih, Option.map_map, Option.map_map]
      simp [Function.comp_def]

/-- A text that starts solid has no gap in front. -/
lemma splitGap_of_isSolid {cs : List Char} (h : IsSolid cs) :
    splitGap .blank cs = some ([], cs) := by
  obtain ⟨c, hc, hsolid⟩ := h
  obtain ⟨rest, rfl⟩ : ∃ rest, cs = c :: rest := by
    cases cs with
    | nil => cases hc
    | cons d rest => exact ⟨rest, by rw [Option.some.inj hc]⟩
  simp only [isSolidChar, Bool.and_eq_true, Bool.not_eq_true', bne_iff_ne] at hsolid
  rw [splitGap, if_neg (by simp [hsolid.1])]
  · exact fun _ hcomment => absurd hcomment hsolid.2
  · exact fun _ hcomment => absurd hcomment hsolid.2

/-- What a part of a gap is, when there is more text behind it. -/
def GapPart.Spans : GapPart → List Char → Prop
  | .blank, g => Gap g
  | .line, g => ∃ body rest, g = body ++ '\n' :: rest ∧ '\n' ∉ body ∧ Gap rest
  | .block, g => ∃ body rest, g = body ++ '*' :: '/' :: rest ∧ ¬ ['*', '/'] <:+: body ∧ Gap rest

lemma spans_of_splitGap {part : GapPart} {cs g rest : List Char}
    (h : splitGap part cs = some (g, rest))
    (hne : rest ≠ []) : part.Spans g := by
  induction part, cs using splitGap.induct generalizing g with
  | case1 cs ih =>
      simp only [splitGap, Option.map_eq_some_iff] at h
      obtain ⟨⟨g', r⟩, hg, heq⟩ := h
      obtain ⟨rfl, rfl⟩ := Prod.mk.inj heq
      obtain ⟨body, tail, rfl, hbody, htail⟩ := ih hg
      exact .line hbody htail
  | case2 cs ih =>
      simp only [splitGap, Option.map_eq_some_iff] at h
      obtain ⟨⟨g', r⟩, hg, heq⟩ := h
      obtain ⟨rfl, rfl⟩ := Prod.mk.inj heq
      obtain ⟨body, tail, rfl, hbody, htail⟩ := ih hg
      exact .block hbody htail
  | case3 c cs _ _ hb ih =>
      rw [splitGap, if_pos hb] at h
      · obtain ⟨⟨g', r⟩, hg, heq⟩ := Option.map_eq_some_iff.1 h
        obtain ⟨rfl, rfl⟩ := Prod.mk.inj heq
        exact .blank hb (ih hg)
      all_goals assumption
  | case4 c cs _ _ hb =>
      rw [splitGap, if_neg hb] at h
      · obtain ⟨rfl, rfl⟩ := Prod.mk.inj (Option.some.inj h)
        exact .nil
      all_goals assumption
  | case5 =>
      obtain ⟨rfl, rfl⟩ := Prod.mk.inj (Option.some.inj h)
      exact .nil
  | case6 c cs ih =>
      obtain ⟨⟨g', r⟩, hg, heq⟩ := Option.map_eq_some_iff.1 h
      obtain ⟨rfl, rfl⟩ := Prod.mk.inj heq
      have hspans := ih hg
      split at hspans
      · rename_i hc
        exact ⟨[], g', by rw [hc]; rfl, by simp, hspans⟩
      · rename_i hc
        obtain ⟨body, tail, rfl, hbody, htail⟩ := hspans
        exact ⟨c :: body, tail, rfl, by simp [hbody, Ne.symm hc], htail⟩
  | case7 =>
      obtain ⟨rfl, rfl⟩ := Prod.mk.inj (Option.some.inj h)
      exact absurd rfl hne
  | case8 cs ih =>
      simp only [splitGap, Option.map_eq_some_iff] at h
      obtain ⟨⟨g', r⟩, hg, heq⟩ := h
      obtain ⟨rfl, rfl⟩ := Prod.mk.inj heq
      exact ⟨[], g', rfl, by simp, ih hg⟩
  | case9 c cs hstar ih =>
      rw [splitGap] at h
      · obtain ⟨⟨g', r⟩, hg, heq⟩ := Option.map_eq_some_iff.1 h
        obtain ⟨rfl, rfl⟩ := Prod.mk.inj heq
        obtain ⟨body, tail, rfl, hbody, htail⟩ := ih hg
        refine ⟨c :: body, tail, rfl, fun hinfix => ?_, htail⟩
        rcases List.infix_cons_iff.1 hinfix with hprefix | hinfix
        · -- the comment would have ended here
          obtain ⟨rest', heq⟩ := hprefix
          obtain ⟨rfl, rfl⟩ := List.cons.inj heq
          exact hstar _ rfl (append_splitGap hg).symm
        · exact hbody hinfix
      all_goals assumption
  | case10 => simp [splitGap] at h

/-- What is split off in front of more text is a gap. -/
lemma gap_of_splitGap {cs g rest : List Char} (h : splitGap .blank cs = some (g, rest))
    (hne : rest ≠ []) :
    Gap g :=
  spans_of_splitGap h hne

end CodeGraph.Cypher
