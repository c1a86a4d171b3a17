import CodeGraph.Store

/-!
A small program as a graph, and queries about it.

The program has a global counter, a main function and a variadic logging function with their
parameters, a record with two fields, and a call of the logging function.

* `Demo.store`: the graph.
* `Demo.queries`: the queries that are asked when none are given.
-/

namespace CodeGraph.Demo

/-- A store that grows with the nodes and edges of a program. -/
abbrev Build := StateT Store (Except StoreError)

def add (n : Node) : Build NodeId := do
  let (s, id) := (← get).add n
  set s
  pure id

def join (owner : NodeId) (group : String) (target : NodeId) : Build Unit := do
  set (← liftM ((← get).addEdge owner ⟨group⟩ target .outgoing))

def addParameter (function parameter : NodeId) : Build Unit := do
  set (← liftM ((← get).addParameter function parameter))

/-- The nodes and edges of the program. -/
def build : Build Unit := do
  let _ ← add (.variableDeclaration "counter" "int counter;")
  let main ← add (.functionDeclaration "main" "int main(int argc, char **argv)")
  let argc ← add (.parameter "argc" "int argc" 0 false)
  let argv ← add (.parameter "argv" "char **argv" 1 false)
  addParameter main argc
  addParameter main argv
  let log ← add (.functionDeclaration "log" "void log(const char *fmt, ...)")
  let fmt ← add (.parameter "fmt" "const char *fmt" 0 false)
  let rest ← add (.parameter "args" "..." 1 true)
  addParameter log fmt
  addParameter log rest
  let point ← add (.recordDeclaration "Point" "struct Point \x7b int x; int y; \x7d")
  let x ← add (.fieldDeclaration "x" "int x;")
  join point "fields" x
  let y ← add (.fieldDeclaration "y" "int y;")
  join point "fields" y
  let call ← add (.callExpression "log" "log(\"%d\", counter)")
  join call "invokes" log

/-- The graph of the program. -/
def store : Except StoreError Store := (build.run {}).map Prod.snd

/-- The queries that are asked when none are given. -/
def queries : List String :=
  ["MATCH (n:FunctionDeclaration)-[:PARAMETERS]->(m:ParamVariableDeclaration) RETURN n",
    "MATCH (n:FunctionDeclaration)-[:PARAMETERS]->(m:ParamVariableDeclaration) RETURN m",
    "MATCH (n:FunctionDeclaration)-[:PARAMETERS]->(m:ParamVariableDeclaration)"
      ++ " WHERE m.name = 'argv' RETURN n",
    "MATCH (n:VariableDeclaration) WHERE n.name = 'counter' RETURN n",
    "MATCH (n:Declaration) RETURN n LIMIT 3"]

end CodeGraph.Demo
