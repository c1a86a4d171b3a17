/-!
The kinds of nodes of a code graph.

Kinds form a tree under `Kind.node`. A node carries the labels of its kind and of all kinds above
it, so that a method is also found as a function, as a declaration and as a node.

* `Kind.parent?`: the tree.
* `Kind.lineage`: a kind and the kinds above it, itself first.
* `Kind.labels`: the labels of a node of the kind.
* `Kind.ofName?`: the kind of a name.
-/

namespace CodeGraph

/-- What a pattern asks of a node, and what a node carries. -/
structure Label where
  text : String
deriving DecidableEq, Repr, Inhabited

/-- The kinds of nodes. -/
inductive Kind
  | node
  | declaration
  | translationUnitDeclaration
  | recordDeclaration
  | valueDeclaration
  | variableDeclaration
  | paramVariableDeclaration
  | fieldDeclaration
  | functionDeclaration
  | methodDeclaration
  | constructorDeclaration
  | statement
  | compoundStatement
  | returnStatement
  | declarationStatement
  | expression
  | literal
  | declaredReferenceExpression
  | callExpression
  | constructExpression
  | initializerListExpression
deriving DecidableEq, Repr, Inhabited

namespace Kind

/-- Every kind, each after the kind above it. -/
def all : List Kind :=
  [node, declaration, translationUnitDeclaration, recordDeclaration, valueDeclaration,
    variableDeclaration, paramVariableDeclaration, fieldDeclaration, functionDeclaration,
    methodDeclaration, constructorDeclaration, statement, compoundStatement, returnStatement,
    declarationStatement, expression, literal, declaredReferenceExpression, callExpression,
    constructExpression, initializerListExpression]

def name : Kind → String
  | node => "Node"
  | declaration => "Declaration"
  | translationUnitDeclaration => "TranslationUnitDeclaration"
  | recordDeclaration => "RecordDeclaration"
  | valueDeclaration => "ValueDeclaration"
  | variableDeclaration => "VariableDeclaration"
  | paramVariableDeclaration => "ParamVariableDeclaration"
  | fieldDeclaration => "FieldDeclaration"
  | functionDeclaration => "FunctionDeclaration"
  | methodDeclaration => "MethodDeclaration"
  | constructorDeclaration => "ConstructorDeclaration"
  | statement => "Statement"
  | compoundStatement => "CompoundStatement"
  | returnStatement => "ReturnStatement"
  | declarationStatement => "DeclarationStatement"
  | expression => "Expression"
  | literal => "Literal"
  | declaredReferenceExpression => "DeclaredReferenceExpression"
  | callExpression => "CallExpression"
  | constructExpression => "ConstructExpression"
  | initializerListExpression => "InitializerListExpression"

/-- The kind of a name. -/
def ofName? (name : String) : Option Kind := all.find? (fun k => k.name == name)

/-! ### The tree -/

/-- The kind directly above, absent for the root. -/
def parent? : Kind → Option Kind
  | node => none
  | declaration | statement => some node
  | translationUnitDeclaration | recordDeclaration | valueDeclaration => some declaration
  | variableDeclaration | paramVariableDeclaration | fieldDeclaration | functionDeclaration =>
    some valueDeclaration
  | methodDeclaration => some functionDeclaration
  | constructorDeclaration => some methodDeclaration
  | compoundStatement | returnStatement | declarationStatement | expression => some statement
  | literal | declaredReferenceExpression | callExpression | constructExpression
  | initializerListExpression => some expression

/-- The number of kinds above. -/
def depth : Kind → Nat
  | node => 0
  | declaration | statement => 1
  | translationUnitDeclaration | recordDeclaration | valueDeclaration => 2
  | compoundStatement | returnStatement | declarationStatement | expression => 2
  | variableDeclaration | paramVariableDeclaration | fieldDeclaration | functionDeclaration => 3
  | literal | declaredReferenceExpression | callExpression | constructExpression
  | initializerListExpression => 3
  | methodDeclaration => 4
  | constructorDeclaration => 5

theorem depth_parent {k p : Kind} (h : k.parent? = some p) : k.depth = p.depth + 1 := by
  cases k <;> cases h <;> rfl

/-- A kind followed by those above it, as far as `levels` reaches. -/
def ancestry : (levels : Nat) → Kind → List Kind
  | 0, k => [k]
  | levels + 1, k =>
    match k.parent? with
    | some p => k :: ancestry levels p
    | none => [k]

/-- A kind followed by all kinds above it. -/
def lineage (k : Kind) : List Kind := ancestry k.depth k

/-- The labels of a node of this kind, the most specific first. -/
def labels (k : Kind) : List Label := k.lineage.map (fun k => ⟨k.name⟩)

/-- Whether the kind is `other` or stands below it. -/
def isA (k other : Kind) : Bool := other ∈ k.lineage

/-! ### Small facts -/

theorem lineage_eq (k : Kind) :
    k.lineage = k :: (match k.parent? with | some p => p.lineage | none => []) := by
  cases k <;> rfl

theorem mem_all (k : Kind) : k ∈ all := by cases k <;> decide

theorem ofName?_name (k : Kind) : ofName? k.name = some k := by cases k <;> decide

theorem name_injective {k l : Kind} (h : k.name = l.name) : k = l := by
  have hk := ofName?_name k
  rw [h, ofName?_name l] at hk
  exact (Option.some.inj hk).symm

theorem nodup_labels (k : Kind) : k.labels.Nodup := by cases k <;> decide

end Kind
end CodeGraph
