/-!
How the work on a long list is scheduled.

A list is cut into chunks, each chunk is worked on by itself, one after another or side by side, and
the results are put together in the order of the chunks. The schedule decides how, never what.

* `Strategy`, `Schedule`: the decisions.
* `chunks`: a list cut into pieces of a given length.
* `Schedule.run`: a function on lists, applied chunk by chunk.
* `Schedule.firstMatches`: the first elements that a function selects.
-/

namespace CodeGraph

/-- Whether chunks are worked on one after another, side by side, or as the length of the list asks.
-/
inductive Strategy
  | sequential
  | parallel
  | auto
deriving DecidableEq, Repr, Inhabited

def Strategy.name : Strategy → String
  | sequential => "sequential"
  | parallel => "parallel"
  | auto => "auto"

/-- A strategy, the length of a list that calls for working side by side, and the length of a chunk.
-/
structure Schedule where
  strategy : Strategy := .auto
  threshold : Nat := 4096
  chunkSize : Nat := 1024
deriving DecidableEq, Repr, Inhabited

/-! ### Chunks -/

/-- The elements that still belong to the current chunk, which takes `room` more, and the chunks
after it, which take `size + 1` each. -/
def chunksAfter {α : Type} (size : Nat) : (room : Nat) → List α → List α × List (List α)
  | _, [] => ([], [])
  | 0, x :: rest =>
    let (current, later) := chunksAfter size size rest
    ([], (x :: current) :: later)
  | room + 1, x :: rest =>
    let (current, later) := chunksAfter size room rest
    (x :: current, later)

/-- A list cut into chunks of a length, which counts as one if it is zero. The last chunk may be
shorter. -/
def chunks {α : Type} (length : Nat) (xs : List α) : List (List α) :=
  (chunksAfter (length - 1) 0 xs).2

theorem flatten_chunksAfter {α : Type} (size room : Nat) (xs : List α) :
    (chunksAfter size room xs).1 ++ (chunksAfter size room xs).2.flatten = xs := by
  induction xs generalizing room with
  | nil => rfl
  | cons x rest ih =>
    cases room with
    | zero => simpa [chunksAfter] using ih size
    | succ room => simpa [chunksAfter] using ih room

theorem chunksAfter_zero {α : Type} (size : Nat) (xs : List α) :
    (chunksAfter size 0 xs).1 = [] := by
  cases xs <;> rfl

/-- The chunks of a list are the list, in its order. -/
@[simp] theorem flatten_chunks {α : Type} (length : Nat) (xs : List α) :
    (chunks length xs).flatten = xs := by
  simpa [chunks, chunksAfter_zero] using flatten_chunksAfter (length - 1) 0 xs

/-! ### Running -/

namespace Schedule

/-- Whether a list of a length is worked on side by side. -/
def isParallel (s : Schedule) (length : Nat) : Bool :=
  match s.strategy with
  | .sequential => false
  | .parallel => true
  | .auto => s.threshold ≤ length

/-- The length of a chunk, never zero. -/
def chunkLength (s : Schedule) : Nat := max s.chunkSize 1

/-- Applies a function to each chunk of a list and puts the results together in their order. -/
def run {α β : Type} (s : Schedule) (f : List α → List β) (xs : List α) : List β :=
  let parts := chunks s.chunkLength xs
  if s.isParallel xs.length then
    ((parts.map (fun part => Task.spawn (fun _ => f part))).map Task.get).flatten
  else (parts.map f).flatten

/-- The first `limit` results of a function that selects elements; the rest of the list is not
looked at. -/
def takeMatches {α β : Type} (f : α → Option β) : (limit : Nat) → List α → List β
  | 0, _ => []
  | _, [] => []
  | limit + 1, x :: rest =>
    match f x with
    | some y => y :: takeMatches f limit rest
    | none => takeMatches f (limit + 1) rest

/-- What a function selects from a list, up to a limit. Work that is not done side by side stops at
the limit. -/
def firstMatches {α β : Type} (s : Schedule) (limit : Option Nat) (f : α → Option β) (xs : List α) :
    List β :=
  match limit with
  | some limit =>
    if s.isParallel xs.length then (s.run (List.filterMap f) xs).take limit
      else takeMatches f limit xs
  | none => s.run (List.filterMap f) xs

/-! ### Small facts -/

/-- Whatever the strategy, a schedule applies the function to the chunks. -/
theorem run_eq {α β : Type} (s : Schedule) (f : List α → List β) (xs : List α) :
    s.run f xs = ((chunks s.chunkLength xs).map f).flatten := by
  simp only [run, List.map_map, Function.comp_def]
  split <;> rfl

theorem takeMatches_eq {α β : Type} (f : α → Option β) (limit : Nat) (xs : List α) :
    takeMatches f limit xs = (xs.filterMap f).take limit := by
  induction xs generalizing limit with
  | nil => cases limit <;> rfl
  | cons x rest ih =>
    cases limit with
    | zero => simp [takeMatches]
    | succ limit => cases h : f x <;> simp [takeMatches, h, ih]

end Schedule
end CodeGraph
