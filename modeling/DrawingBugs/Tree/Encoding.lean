import DrawingBugs.Document
import DrawingBugs.Tree

/-!
# Trees as documents

A tree is written as its token's kind and text with the documents of its parts, which are left
out when there are none. Places are not written. On reading, members that mean nothing here are
passed over, and trees and tokens may also be arrays of what their members would hold: a token
of its kind and text, a tree of its token and, if it has any, its parts.
-/

namespace DrawingBugs

/-- A kind is its label, or an object with null under the label and nothing else. -/
def Kind.ofDocument? : Document → Option Kind
  | .string label => ofLabel? label
  | .object [(label, .null)] => ofLabel? label
  | _ => none

namespace Token

def toDocument (t : Token) : Document :=
  .object [("kind", .string t.kind.label), ("text", .string t.text)]

def ofFields? (kind text : Document) : Option Token :=
  match Kind.ofDocument? kind, text with
  | some kind, .string text => some ⟨kind, text, .none⟩
  | _, _ => none

def ofDocument? : Document → Option Token
  | .object members =>
    match Document.member? members "kind", Document.member? members "text" with
    | some kind, some text => ofFields? kind text
    | _, _ => none
  | .array [kind, text] => ofFields? kind text
  | _ => none

end Token

namespace Tree

mutual

def toDocument : Tree → Document
  | node value [] => .object [("value", value.toDocument)]
  | node value (t :: ts) =>
    .object [("value", value.toDocument), ("children", .array (toDocument t :: toDocuments ts))]

def toDocuments : List Tree → List Document
  | [] => []
  | t :: ts => toDocument t :: toDocuments ts

end

mutual

def ofDocument? : Document → Option Tree
  | .object members =>
    match (Document.member? members "value").bind Token.ofDocument?, partsOf? members with
    | some value, some children => some (node value children)
    | _, _ => none
  | .array [value] => (Token.ofDocument? value).map (node · [])
  | .array [value, parts] =>
    match Token.ofDocument? value, partsOfItem? parts with
    | some value, some children => some (node value children)
    | _, _ => none
  | _ => none

/-- The trees under the first member `children`; none are meant when it is absent. -/
def partsOf? : List (String × Document) → Option (List Tree)
  | [] => some []
  | (key, d) :: ms => if key = "children" then partsOfItem? d else partsOf? ms

def partsOfItem? : Document → Option (List Tree)
  | .array items => ofDocuments? items
  | _ => none

def ofDocuments? : List Document → Option (List Tree)
  | [] => some []
  | d :: ds =>
    match ofDocument? d, ofDocuments? ds with
    | some t, some ts => some (t :: ts)
    | _, _ => none

end

end Tree

end DrawingBugs
