import CodeGraph.Schedule
import Mathlib.Tactic

/-!
A schedule decides how a list is worked on and never what comes of it.

* `upTo`: the first elements of a list, up to a limit if there is one.
* `Schedule.run_of_append`: a function that respects concatenation gives the same chunk by chunk.
* `Schedule.firstMatches_eq`: the first elements that a function selects, whatever the schedule.
-/

namespace CodeGraph

variable {α β : Type}

/-! ### Limits -/

/-- The first elements of a list, up to a limit if there is one. -/
def upTo : Option Nat → List α → List α
  | some limit, xs => xs.take limit
  | none, xs => xs

lemma upTo_sublist (limit : Option Nat) (xs : List α) : (upTo limit xs).Sublist xs := by
  cases limit with
  | none => exact List.Sublist.refl xs
  | some limit => exact List.take_sublist limit xs

/-- A limit counts once. -/
lemma upTo_upTo (limit : Option Nat) (xs : List α) :
    upTo limit (upTo limit xs) = upTo limit xs := by
  cases limit with
  | none => rfl
  | some limit => simp [upTo, List.take_take]

/-! ### Schedules -/

namespace Schedule

/-- A function that respects concatenation gives the same chunk by chunk as all at once. -/
lemma run_of_append (schedule : Schedule) {f : List α → List β} (hnil : f [] = [])
    (happend : ∀ xs ys, f (xs ++ ys) = f xs ++ f ys) (xs : List α) : schedule.run f xs = f xs := by
  have key : ∀ parts : List (List α), (parts.map f).flatten = f parts.flatten := by
    intro parts
    induction parts with
    | nil => exact hnil.symm
    | cons part rest ih => rw [List.map_cons, List.flatten_cons, List.flatten_cons, happend, ih]
  rw [run_eq, key, flatten_chunks]

/-- The elements that a function selects, up to a limit. -/
lemma firstMatches_eq (schedule : Schedule) (limit : Option Nat) (f : α → Option β) (xs : List α) :
    schedule.firstMatches limit f xs = upTo limit (xs.filterMap f) := by
  have hrun : schedule.run (List.filterMap f) xs = xs.filterMap f :=
    schedule.run_of_append rfl (fun _ _ => List.filterMap_append) xs
  cases limit with
  | none => exact hrun
  | some limit =>
      rw [firstMatches, hrun, takeMatches_eq]
      split <;> rfl

end Schedule
end CodeGraph
