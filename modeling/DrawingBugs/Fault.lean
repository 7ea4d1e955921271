import DrawingBugs.Tree

/-!
# Faults

Why a bug cannot go on, or a tree cannot be used as a program.
-/

namespace DrawingBugs

/-- What is wrong with the shape of a tree. -/
inductive Flaw where
  | missingChild (label : String) (index : Nat)
  | badNumber (text : String)
  | notAnExpression (text : String)
  | notUnary (operator : String)
  | unknownOperator (operator : String)
  | notAStatement (text : String)
  | notAProgram (text : String)
  deriving DecidableEq, Repr

def Flaw.message : Flaw → String
  | missingChild label index => s!"'{label}' is missing child {index}"
  | badNumber text => s!"bad number '{text}'"
  | notAnExpression text => s!"'{text}' is not an expression"
  | notUnary operator => s!"'{operator}' is not unary"
  | unknownOperator operator => s!"unknown operator '{operator}'"
  | notAStatement text => s!"'{text}' is not a statement"
  | notAProgram text => s!"expected a program tree, found '{text}'"

inductive Fault where
  | undefinedVariable (name : String)
  | undefinedFunction (name : String)
  | argumentCount (name : String) (expected found : Nat)
  | reservedName (name : String)
  | unknownColor (name : String)
  | bugNotFound (bug : String)
  | bugVariableNotFound (bug name : String)
  | notANumber (name : String)
  | malformed (flaw : Flaw)
  | halted
  deriving DecidableEq, Repr

def Fault.message : Fault → String
  | undefinedVariable name => s!"variable \"{name}\" could not be found"
  | undefinedFunction name => s!"function \"{name}\" is not defined"
  | argumentCount name expected found =>
    s!"function \"{name}\" expects {expected} argument(s) but was called with {found}"
  | reservedName name =>
    s!"\"{name}\" is a built-in field and cannot be declared as a variable or parameter"
  | unknownColor name => s!"\"{name}\" is not a valid color"
  | bugNotFound bug => s!"bug \"{bug}\" was not found"
  | bugVariableNotFound bug name => s!"variable \"{name}\" in bug \"{bug}\" was not found"
  | notANumber name => s!"variable \"{name}\" has value NaN"
  | malformed flaw => s!"malformed program tree: {flaw.message}"
  | halted => "execution halted"

/-- The part at an index, which a well-formed tree has. -/
def Tree.part (t : Tree) (i : Nat) : Except Fault Tree :=
  match t.child? i with
  | some child => .ok child
  | none => .error (.malformed (.missingChild t.text i))

end DrawingBugs
