import DrawingBugs.Diagnostic
import DrawingBugs.Scanner

/-!
# Expectations

Once a rule has read its first token it expects the rest. A syntax error is an expectation and
the token that stands in its place.
-/

namespace DrawingBugs

/-- What a committed rule expects next. -/
inductive Expectation where
  | bugDefinition
  | bugAfterAllbugs
  | endOfProgram
  | allbugsOpening
  | allbugsLine
  | allbugsClosing
  | allbugsEnd
  | bugName
  | bugOpening
  | bugLine
  | bugCommand
  | bugClosing
  | bugEnd
  | initialBlock
  | functionName
  | firstParameter
  | nextParameter
  | functionBody
  | firstVariable
  | nextVariable
  | variablesEnd
  | blockLine
  | blockClosing
  | blockEnd
  | assignSign
  | assignedValue
  | assignmentEnd
  | loopBody
  | exitIf
  | exitCondition
  | exitEnd
  | switchOpening
  | switchLine
  | caseGuard
  | caseLine
  | switchClosing
  | switchEnd
  | doName
  | doEnd
  | colorName
  | colorEnd
  | operand (keyword : String)
  | operandComma (keyword : String)
  | operandsEnd (keyword : String)
  | comparedValue
  | addedTerm
  | multipliedFactor
  | signedFactor
  | fieldName
  | innerExpression
  | closingParenthesis
  | callArguments
  | nextArgument
  | argumentsClosing
  | equalsAfterBang
  deriving DecidableEq, Repr

def Expectation.message : Expectation → String
  | bugDefinition => "Expected a Bug definition"
  | bugAfterAllbugs => "Expected a Bug definition after Allbugs code"
  | endOfProgram => "Expected end of input after Bug definitions"
  | allbugsOpening => "Error in Allbugs code after \"Allbugs\""
  | allbugsLine => "Error in Allbugs code after \"\x7b\""
  | allbugsClosing => "Error in Allbugs code: expected \"\x7d\""
  | allbugsEnd => "Error in Allbugs code after \"\x7d\""
  | bugName => "Error in Bug definition after \"Bug\""
  | bugOpening => "Error in Bug definition after name"
  | bugLine => "Error in Bug definition after \"\x7b\""
  | bugCommand => "Error in Bug definition: expected a command"
  | bugClosing => "Error in Bug definition after function definitions"
  | bugEnd => "Error in Bug definition after \"\x7d\""
  | initialBlock => "Error in initialization block after \"initially\""
  | functionName => "Error in function definition: nothing following \"define\""
  | firstParameter => "Error in function definition: nothing following \"using\""
  | nextParameter => "Error in function definition: nothing following \",\""
  | functionBody => "Error in function definition: expected a block"
  | firstVariable => "Error in var declaration: nothing follows \"var\""
  | nextVariable => "Error in var declaration: nothing follows \",\""
  | variablesEnd => "Error in var declaration: missing EOL"
  | blockLine => "Error in block after \"\x7b\""
  | blockClosing => "Error in block: expected a command or \"\x7d\""
  | blockEnd => "Error in block after \"\x7d\""
  | assignSign => "Error in assignment statement after variable"
  | assignedValue => "Error in assignment statement after \"=\""
  | assignmentEnd => "Error in assignment statement after expression"
  | loopBody => "Error in loop statement after \"loop\""
  | exitIf => "Error in exit if statement after \"exit\""
  | exitCondition => "Error in exit if statement after \"if\""
  | exitEnd => "Error in exit if statement after expression"
  | switchOpening => "Error in switch statement: nothing after \"switch\""
  | switchLine => "Error in switch statement: nothing after \"\x7b\""
  | caseGuard => "Error in switch statement: nothing after \"case\""
  | caseLine => "Error in switch statement: missing EOL after case"
  | switchClosing => "Error in switch statement: expected \"case\" or \"\x7d\""
  | switchEnd => "Error in switch statement: nothing after \"\x7d\""
  | doName => "Error in do statement after \"do\""
  | doEnd => "Error in do statement after function name"
  | colorName => "Error in color statement after \"color\""
  | colorEnd => "Error in color statement after color name"
  | operand keyword => s!"Syntax error in {keyword}: expected an expression"
  | operandComma keyword => s!"Syntax error in {keyword} after expression: expected ','"
  | operandsEnd keyword => s!"Syntax error in {keyword}: missing EOL"
  | comparedValue => "Illegal expression after comparator"
  | addedTerm => "Error in expression after '+' or '-'"
  | multipliedFactor => "No term after '*' or '/'"
  | signedFactor => "No factor following unary plus or minus"
  | fieldName => "Incorrect use of dot notation"
  | innerExpression => "Error in parenthesized expression"
  | closingParenthesis => "Unclosed parenthetical expression"
  | callArguments => "Error in function call after name"
  | nextArgument => "No expression after ','"
  | argumentsClosing => "Parameter list doesn't end with ')'"
  | equalsAfterBang => "Expected '=' after '!'"

inductive SyntaxError where
  | lexical (error : LexicalError)
  | unexpected (expected : Expectation) (found : Token)
  deriving DecidableEq, Repr

def LexicalError.diagnostic (e : LexicalError) : Diagnostic := ⟨e.message, e.position, none⟩

def SyntaxError.diagnostic : SyntaxError → Diagnostic
  | lexical error => error.diagnostic
  | unexpected expected found => ⟨expected.message, found.position, some found.quoted⟩

end DrawingBugs
