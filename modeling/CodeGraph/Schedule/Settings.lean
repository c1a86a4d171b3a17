import CodeGraph.Schedule
import CodeGraph.Text.WhiteSpace

/-!
Schedules from settings of the environment.

Three settings override the default schedule one by one. One that says nothing sensible is passed
over.

* `Strategy.ofText`: the strategy of a name, or why there is none.
* `countOfText?`: the count that a text spells.
* `Schedule.ofSettings`: the schedule of a lookup of settings.
-/

namespace CodeGraph

/-! ### Strategies -/

/-- A name, freed from white space and capitals, that no strategy has. -/
structure UnknownStrategy where
  name : String
deriving DecidableEq, Repr

def UnknownStrategy.message (e : UnknownStrategy) : String :=
  "unknown execution strategy '" ++ e.name ++ "'"

/-- The strategy of a name, in any case of its letters and with white space around it. -/
def Strategy.ofText (text : String) : Except UnknownStrategy Strategy :=
  let name := (Text.trim text).map Char.toLower
  if name = "sequential" ∨ name = "seq" then .ok .sequential
  else if name = "parallel" ∨ name = "par" then .ok .parallel
  else if name = "auto" then .ok .auto
  else .error ⟨name⟩

/-! ### Counts -/

/-- The count that digits spell, if it has 64 bits. -/
def countOfDigits? (digits : List Char) : Option Nat :=
  if digits.isEmpty || !digits.all Char.isDigit then none
  else
    let n := Nat.ofDigitChars 10 digits 0
    if n < Nat.pow 2 64 then some n else none

/-- The count that a text spells, with white space around it and perhaps a plus in front. -/
def countOfText? (text : String) : Option Nat :=
  match (Text.trim text).toList with
  | '+' :: digits => countOfDigits? digits
  | digits => countOfDigits? digits

/-! ### Settings -/

namespace Schedule

def strategySetting : String := "CPG_QUERY_STRATEGY"

def thresholdSetting : String := "CPG_QUERY_PARALLEL_THRESHOLD"

def chunkSizeSetting : String := "CPG_QUERY_CHUNK_SIZE"

/-- The default schedule, overridden by the settings that say something sensible. -/
def ofSettings (setting? : String → Option String) : Schedule where
  strategy := ((setting? strategySetting).bind (fun t => (Strategy.ofText t).toOption)).getD .auto
  threshold := ((setting? thresholdSetting).bind countOfText?).getD 4096
  chunkSize := (((setting? chunkSizeSetting).bind countOfText?).filter (0 < ·)).getD 1024

end Schedule
end CodeGraph
