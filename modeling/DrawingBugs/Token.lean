import DrawingBugs.Number.Layout
import DrawingBugs.Number.Reading
import DrawingBugs.Position

/-!
# Tokens

A token is a kind and a text at a position. Tokens come from a source text or label the nodes
of a tree; two tokens say the same thing when kind and text agree, wherever they stand.
-/

namespace DrawingBugs

/-- The reserved words: the words of the grammar, then the colors and `none`. -/
def keywords : List String :=
  ["Allbugs", "Bug", "var", "initially", "move", "moveto", "turn", "turnto", "line", "loop",
   "exit", "if", "switch", "case", "return", "do", "color", "define", "using",
   "black", "blue", "cyan", "darkGray", "gray", "green", "lightGray", "magenta", "orange",
   "pink", "red", "white", "yellow", "brown", "purple", "none"]

def isKeyword (word : String) : Bool := keywords.contains word

inductive Kind where
  | name
  | number
  | keyword
  | symbol
  | endOfLine
  | endOfInput
  deriving DecidableEq, Repr

namespace Kind

/-- The word for a kind in documents. -/
def label : Kind → String
  | name => "name"
  | number => "number"
  | keyword => "keyword"
  | symbol => "symbol"
  | endOfLine => "eol"
  | endOfInput => "eof"

def ofLabel? : String → Option Kind
  | "name" => some name
  | "number" => some number
  | "keyword" => some keyword
  | "symbol" => some symbol
  | "eol" => some endOfLine
  | "eof" => some endOfInput
  | _ => none

@[simp] theorem ofLabel?_label (k : Kind) : ofLabel? k.label = some k := by
  cases k <;> rfl

/-- The words for a kind in diagnostics. -/
def description : Kind → String
  | name => "name"
  | number => "number"
  | keyword => "keyword"
  | symbol => "symbol"
  | endOfLine => "end of line"
  | endOfInput => "end of input"

/-- The word for a kind in front of a token's text. -/
def title : Kind → String
  | name => "NAME"
  | number => "NUMBER"
  | keyword => "KEYWORD"
  | symbol => "SYMBOL"
  | endOfLine => "EOL"
  | endOfInput => "EOF"

end Kind

structure Token where
  kind : Kind
  text : String
  position : Position
  deriving DecidableEq, Repr

namespace Token

def endOfLine (p : Position) : Token := ⟨.endOfLine, "\n", p⟩

def endOfInput (p : Position) : Token := ⟨.endOfInput, "EOF", p⟩

/-- A word is a keyword or a name. -/
def word (text : String) (p : Position) : Token :=
  ⟨if isKeyword text then .keyword else .name, text, p⟩

/-- The kind that a text has on its own. -/
def classify (text : String) : Kind :=
  if isKeyword text then .keyword
  else if text = "\n" then .endOfLine
  else if text.toList.head?.any Char.isAlpha then .name
  else if (Number.read? text).isSome then .number
  else .symbol

/-- The token of a text that stands nowhere. -/
def ofText (text : String) : Token := ⟨classify text, text, .none⟩

/-- The token without its place. -/
def unplaced (t : Token) : Token := { t with position := .none }

/-- Whether two tokens have the same kind and text. -/
def agrees (a b : Token) : Bool := a.kind = b.kind ∧ a.text = b.text

/-- Whether the token has the given kind and, if one is given, the given text. -/
def fits (t : Token) (kind : Kind) (text : Option String) : Bool :=
  t.kind = kind ∧ text.all (t.text == ·)

/-- The token as a diagnostic quotes it. -/
def quoted (t : Token) : String :=
  match t.kind with
  | .endOfLine | .endOfInput => t.kind.description
  | _ => s!"'{t.text}'"

def render (t : Token) : String :=
  match t.kind with
  | .endOfLine | .endOfInput => s!"{t.kind.title} at {t.position.render}"
  | _ => s!"{t.kind.title} '{t.text}' at {t.position.render}"

end Token

end DrawingBugs
