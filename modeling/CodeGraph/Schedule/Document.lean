import CodeGraph.Json.Reader
import CodeGraph.Schedule.Settings

/-!
Schedules from documents.

A schedule is written as an object with any of its three fields, or as an array of its first fields.
Fields of other names are passed over, but none of the three may stand twice.

* `Strategy.ofJson?`, `countOfJson?`: the parts.
* `Schedule.ofJson?`, `Schedule.ofDocument?`: the schedule of a document, and of its text.
-/

namespace CodeGraph

/-! ### Parts -/

/-- The strategy of exactly this name. -/
def Strategy.ofName? (name : String) : Option Strategy :=
  [sequential, parallel, auto].find? (fun s => s.name == name)

/-- A strategy is written by its name, or as an object with null under its name. -/
def Strategy.ofJson? : Json → Option Strategy
  | .string written => (Json.spelled? written).bind ofName?
  | .object [(key, .null)] => (Json.spelled? key).bind ofName?
  | _ => none

/-- A count is written by its digits. -/
def countOfJson? : Json → Option Nat
  | .number written => countOfDigits? written.toList
  | _ => none

/-! ### Schedules -/

namespace Schedule

/-- The fields of a schedule that were read so far. -/
structure Fields where
  strategy : Option Strategy := none
  threshold : Option Nat := none
  chunkSize : Option Nat := none
deriving Repr

/-- The schedule of some fields, the others being the default ones. -/
def Fields.toSchedule (f : Fields) : Schedule where
  strategy := f.strategy.getD .auto
  threshold := f.threshold.getD 4096
  chunkSize := f.chunkSize.getD 1024

/-- Reads an entry of an object. -/
def Fields.read (f : Fields) (entry : List Char × Json) : Option Fields := do
  let key ← Json.spelled? entry.1
  if key = "strategy" then
    if f.strategy.isSome then none
    else some { f with strategy := some (← Strategy.ofJson? entry.2) }
  else if key = "parallel_threshold" then
    if f.threshold.isSome then none
    else some { f with threshold := some (← countOfJson? entry.2) }
  else if key = "chunk_size" then
    if f.chunkSize.isSome then none
    else some { f with chunkSize := some (← countOfJson? entry.2) }
  else some f

/-- The schedule of a document. -/
def ofJson? : Json → Option Schedule
  | .object entries => do
    let fields ← entries.foldlM Fields.read {}
    some fields.toSchedule
  | .array [] => some {}
  | .array [s] => do some { strategy := ← Strategy.ofJson? s }
  | .array [s, t] => do some { strategy := ← Strategy.ofJson? s, threshold := ← countOfJson? t }
  | .array [s, t, c] => do
    some
      { strategy := ← Strategy.ofJson? s
        threshold := ← countOfJson? t
        chunkSize := ← countOfJson? c }
  | _ => none

/-- The schedule of the text of a document. -/
def ofDocument? (text : String) : Option Schedule := (Json.ofText? text).bind ofJson?

end Schedule
end CodeGraph
