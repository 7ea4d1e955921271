import DrawingBugs.Fault
import DrawingBugs.Grammar.Definition
import DrawingBugs.Tree.Encoding

/-!
# Programs

A program is a shared section and the definitions of its bugs. Loading a text reads the one
program that it holds.
-/

namespace DrawingBugs

structure Program where
  root : Tree
  allbugs : Tree
  bugs : List Tree

/-- Why a text gives no program. -/
inductive LoadError where
  | rejected (error : SyntaxError)
  | unusable (fault : Fault)
  deriving DecidableEq, Repr

def LoadError.diagnostic : LoadError → Diagnostic
  | rejected error => error.diagnostic
  | unusable fault => ⟨fault.message, .none, none⟩

namespace Program

def ofTree (root : Tree) : Except Fault Program :=
  if root.text = "program" then do
    let allbugs ← root.part 0
    let bugs ← root.part 1
    return ⟨root, allbugs, bugs.children⟩
  else .error (.malformed (.notAProgram root.text))

/-- The names of the bugs, in the order of their definitions. -/
def bugNames (p : Program) : List String := p.bugs.filterMap fun bug => (bug.child? 0).map Tree.text

/-- The rule for a text that has to hold a program. -/
def required : Recognizer Tree := Recognizer.expect Grammar.program .bugDefinition

def load (source : String) : Except LoadError Program :=
  match required (.ofSource source) with
  | .ok root _ => (ofTree root).mapError .unusable
  | .error e _ => .error (.rejected e)

/-- The outcome of loading as a document: the program's bugs and tree, or one error. -/
def outcome (source : String) : Document :=
  match load source with
  | .ok p =>
    let names := p.bugNames.map Document.string
    .object [("status", .string "success"),
      ("program", .object [("bugs", .array names), ("ast", p.root.toDocument)])]
  | .error e =>
    let d := e.diagnostic
    let error := Document.object [("line", .natural d.position.line),
      ("column", .natural d.position.column), ("message", .string d.summary)]
    .object [("status", .string "error"), ("errors", .array [error])]

end Program

/-- The version of the language and its tools. -/
def version : String := "0.3.0"

end DrawingBugs
