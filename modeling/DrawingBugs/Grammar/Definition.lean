import DrawingBugs.Grammar.Command

/-!
# Definitions

    program  := [ allbugs ] bug { bug } EOF
    allbugs  := "Allbugs" "{" EOL { variables } { function } "}" EOL
    bug      := "Bug" NAME "{" EOL { variables } [ "initially" block ] command { command }
                { function } "}" EOL
    function := "define" NAME [ "using" NAME { "," NAME } ] block
    variables := "var" NAME { "," NAME } EOL

The line end after the closing brace of a section may be missing at the end of the input, and
line ends may come before the program.
-/

namespace DrawingBugs.Grammar

open Recognizer

def initialBlock : Rule :=
  commit (keyword "initially") fun initially => do
    let body ← expect block .initialBlock
    return .node initially [body]

def parameters : Recognizer (List Token) := do
  match ← keyword "using" with
  | some _ => commaSeparated name .firstParameter .nextParameter
  | none => return []

def functionDefinition : Rule :=
  commit (keyword "define") fun _ => do
    let name ← expect name .functionName
    let parameters ← parameters
    let body ← expect block .functionBody
    return .labeled "function" [.leaf name, .labeled "var" (parameters.map .leaf), body]

def variableDeclaration : Rule :=
  commit (keyword "var") fun var => do
    let names ← commaSeparated name .firstVariable .nextVariable
    expect lineEnd .variablesEnd
    return .node var (names.map .leaf)

/-- The end of a section: a closing brace, then a line end or the end of the input. -/
def closing (brace line : Expectation) : Recognizer Unit := do
  let _ ← expect (symbol "\x7d") brace
  expectLineEndOrEnd line

def allbugsCode : Rule :=
  commit (keyword "Allbugs") fun allbugs => do
    opening .allbugsOpening .allbugsLine
    let declarations ← many variableDeclaration
    let functions ← many functionDefinition
    closing .allbugsClosing .allbugsEnd
    return .node allbugs [.labeled "list" declarations, .labeled "list" functions]

def bugDefinition : Rule :=
  commit (keyword "Bug") fun bug => do
    let name ← expect name .bugName
    opening .bugOpening .bugLine
    let declarations ← many variableDeclaration
    let initially ← initialBlock
    let first ← expect command .bugCommand
    let rest ← many command
    let functions ← many functionDefinition
    closing .bugClosing .bugEnd
    return .node bug
      [.leaf name, .labeled "list" declarations, initially.getD (.labeled "initially" []),
        .labeled "block" (first :: rest), .labeled "list" functions]

/-- The shared section, which a bug definition has to follow, or an empty one. -/
def sharedSection : Recognizer Tree := do
  match ← allbugsCode with
  | some allbugs =>
    if ← isNext .keyword "Bug" then return allbugs else fail .bugAfterAllbugs
  | none => return .labeled "Allbugs" []

/-- A whole program; a text without any bug definition does not match. -/
def program : Rule := do
  let _ ← lineEnd
  let allbugs ← sharedSection
  let bugs ← many bugDefinition
  if bugs.isEmpty then return none
  let _ ← expect (take .endOfInput none) .endOfProgram
  return some (.labeled "program" [allbugs, .labeled "list" bugs])

end DrawingBugs.Grammar
