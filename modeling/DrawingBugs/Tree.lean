import DrawingBugs.Token

/-!
# Trees

Every construct of the language is a token over an ordered list of parts. Labels such as
`block` or `call` that no source text holds stand at `0:0`.
-/

namespace DrawingBugs

inductive Tree where
  | node (value : Token) (children : List Tree)
  deriving Repr

namespace Tree

def value : Tree → Token
  | node value _ => value

def children : Tree → List Tree
  | node _ children => children

def kind (t : Tree) : Kind := t.value.kind

def text (t : Tree) : String := t.value.text

def leaf (value : Token) : Tree := node value []

/-- A node with a label that was not read from a text. -/
def labeled (label : String) (children : List Tree) : Tree := node (.ofText label) children

def child? (t : Tree) (i : Nat) : Option Tree := t.children[i]?

@[simp] theorem kind_node (value : Token) (children : List Tree) :
    (node value children).kind = value.kind := rfl

@[simp] theorem text_node (value : Token) (children : List Tree) :
    (node value children).text = value.text := rfl

@[simp] theorem text_labeled (label : String) (children : List Tree) :
    (labeled label children).text = label := rfl

@[simp] theorem children_node (value : Token) (children : List Tree) :
    (node value children).children = children := rfl

mutual

/-- Whether two trees agree in shape, kinds and texts. -/
def agrees : Tree → Tree → Bool
  | node a as, node b bs => a.agrees b && agreeAll as bs

def agreeAll : List Tree → List Tree → Bool
  | [], [] => true
  | a :: as, b :: bs => agrees a b && agreeAll as bs
  | _, _ => false

end

mutual

/-- The tree with all its tokens at `0:0`. -/
def unplaced : Tree → Tree
  | node value children => node value.unplaced (unplacedAll children)

def unplacedAll : List Tree → List Tree
  | [] => []
  | t :: ts => unplaced t :: unplacedAll ts

end

mutual

/-- The places of all nodes, each before its parts. -/
def positions : Tree → List Position
  | node value children => value.position :: positionsAll children

def positionsAll : List Tree → List Position
  | [] => []
  | t :: ts => positions t ++ positionsAll ts

end

/-- The text of a token as a label. -/
def label (value : Token) : String :=
  match value.kind with
  | .endOfLine => "EOL"
  | _ => value.text

mutual

/-- A label, with its parts in parentheses. -/
def render : Tree → String
  | node value [] => label value
  | node value (t :: ts) => label value ++ "(" ++ render t ++ renderRest ts ++ ")"

def renderRest : List Tree → String
  | [] => ""
  | t :: ts => ", " ++ render t ++ renderRest ts

end

end Tree

end DrawingBugs
