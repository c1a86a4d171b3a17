import CodeGraph.Answer
import CodeGraph.Json

/-!
Answers as documents.

An answer is an object of its column and its rows; a row tells the name, the kind, the labels and
the properties of a node. A property is an object with its type as the key; null is the string of
that name.

* `Property.toJson`, `Node.toJson`, `Answer.toJson`: the documents.
-/

namespace CodeGraph

/-- Numbers in documents: up to sixteen places before the point and four zeros after it without an
exponent, every exponent with its sign, a whole number with a zero after its point, and of two
equally near shortest numbers the even one. A value without digits is null. -/
def documentNumber : Layout where
  tie := .even
  above := some (-5)
  upTo := some 16
  wholeEnding := ".0"
  exponentSign := "+"
  nan := "null"
  infinity := "null"

/-- Sixteen places before the point are written out, a seventeenth takes an exponent. -/
example : documentNumber.writeDecimal ⟨false, 1, 15⟩ = "1000000000000000.0"
    ∧ documentNumber.writeDecimal ⟨true, 1, 16⟩ = "-1e+16"
    ∧ documentNumber.writeDecimal ⟨false, 15, -8⟩ = "1.5e-7" := by decide +kernel

/-- A double as a number of a document. -/
def Double.toJson (x : Double) : Json :=
  if x.isNaN || x.isInfinite then .null else .number (documentNumber.write x)

def Property.toJson : Property → Json
  | .string text => .object [Json.entry "String" (.text text)]
  | .integer value => .object [Json.entry "Integer" (.ofInt value.toInt)]
  | .float value => .object [Json.entry "Float" value.toJson]
  | .boolean value => .object [Json.entry "Boolean" (.bool value)]
  | .null => .text "Null"

def PropertyMap.toJson (m : PropertyMap) : Json :=
  .object (m.entries.map (fun e => Json.entry e.1 e.2.toJson))

/-- A row of an answer. -/
def Node.toJson (n : Node) : Json :=
  .object
    [Json.entry "id" (.ofNat n.id.index), Json.entry "kind" (.text n.kind.name),
      Json.entry "labels" (.array (n.labels.map (fun l => .text l.text))),
      Json.entry "properties" n.properties.toJson]

def Answer.toJson (a : Answer) : Json :=
  .object [Json.entry "column" (.text a.column),
    Json.entry "rows" (.array (a.nodes.map Node.toJson))]

end CodeGraph
