import DrawingBugs.Number.Layout

/-!
# Documents

A document is a tree of plain values: the form in which programs and snapshots are handed out
and taken back. The order of an object's members carries no meaning.
-/

namespace DrawingBugs

inductive Document where
  | null
  | bool (b : Bool)
  | natural (n : Nat)
  | number (v : Float)
  | string (s : String)
  | array (items : List Document)
  | object (members : List (String × Document))
  deriving Inhabited

namespace Document

/-- A number, or null where a document has no way to write it. -/
def ofFloat (v : Float) : Document := if Number.isFinite v then .number v else .null

def member? (members : List (String × Document)) (key : String) : Option Document :=
  members.lookup key

private def hexDigit (n : Nat) : Char := "0123456789abcdef".toList.getD n '0'

/-- A character inside quotes. -/
def escape (c : Char) : List Char :=
  if c = '"' then ['\\', '"']
  else if c = '\\' then ['\\', '\\']
  else if c = '\n' then ['\\', 'n']
  else if c = '\r' then ['\\', 'r']
  else if c = '\t' then ['\\', 't']
  else if c = '\x08' then ['\\', 'b']
  else if c = '\x0c' then ['\\', 'f']
  else if c.toNat < 32 then
    ['\\', 'u', '0', '0', hexDigit (c.toNat / 16), hexDigit (c.toNat % 16)]
  else [c]

def quote (s : String) : String := "\"" ++ String.ofList (s.toList.flatMap escape) ++ "\""

mutual

/-- The document as text, without blanks. -/
def render : Document → String
  | null => "null"
  | bool true => "true"
  | bool false => "false"
  | natural n => toString n
  | number v => Number.documentLayout.render v
  | string s => quote s
  | array [] => "[]"
  | array (d :: ds) => "[" ++ render d ++ renderItems ds ++ "]"
  | object [] => "\x7b\x7d"
  | object ((key, d) :: ms) => "\x7b" ++ quote key ++ ":" ++ render d ++ renderMembers ms ++ "\x7d"

def renderItems : List Document → String
  | [] => ""
  | d :: ds => "," ++ render d ++ renderItems ds

def renderMembers : List (String × Document) → String
  | [] => ""
  | (key, d) :: ms => "," ++ quote key ++ ":" ++ render d ++ renderMembers ms

end

end Document

end DrawingBugs
