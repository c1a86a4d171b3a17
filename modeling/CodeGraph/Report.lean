import CodeGraph.Answer.Document
import CodeGraph.Demo
import CodeGraph.Schedule.Settings

/-!
The report of a run: a head, and for each query its text with its answer or its error.

* `ReportPart`: the parts of a report.
* `report`: the report on the queries of a run.
-/

namespace CodeGraph

def version : String := "0.1.0"

/-- A part of a report: a text of one line or more, or a document. -/
inductive ReportPart
  | text (s : String)
  | document (j : Json)
  | rejection (e : Cypher.ParseError)
deriving Repr

namespace ReportPart

def parseErrorLead : String := "  ✗ Parse error:"

/-- The text of a part. -/
def render : ReportPart → String
  | text s => s
  | document j => j.pretty
  | rejection e => "  ✗ " ++ e.message

end ReportPart

/-- The parts of a report on one query. -/
def reportQuery (schedule : Schedule) (s : Store) (query : String) : List ReportPart :=
  [.text "", .text query] ++
    match answerText schedule s query with
    | .ok a => [.text ("  → " ++ toString a.nodes.length ++ " nodes"), .document a.toJson]
    | .error (.parse .rejected) => [.rejection .rejected]
    | .error e => [.text ("  ✗ " ++ e.message)]

/-- The report of a run over a store: the given queries, or those of the demonstration if there are
none. -/
def report (schedule : Schedule) (s : Store) (queries : List String) : List ReportPart :=
  [.text ("CPG Query v" ++ version), .text "==========================================",
    .text ("Execution strategy: " ++ schedule.strategy.name),
    .text ("Graph: " ++ toString s.size ++ " nodes, " ++ toString s.edgeCount ++ " edges")]
    ++ (if queries.isEmpty then Demo.queries else queries).flatMap (reportQuery schedule s)

end CodeGraph
