/-!
# Colors

The colors of a pen. A lifted pen has none.
-/

namespace DrawingBugs

inductive Color where
  | black
  | blue
  | cyan
  | darkGray
  | gray
  | green
  | lightGray
  | magenta
  | orange
  | pink
  | red
  | white
  | yellow
  | brown
  | purple
  deriving DecidableEq, Repr

namespace Color

/-- The keyword of a color. -/
def keyword : Color → String
  | black => "black"
  | blue => "blue"
  | cyan => "cyan"
  | darkGray => "darkGray"
  | gray => "gray"
  | green => "green"
  | lightGray => "lightGray"
  | magenta => "magenta"
  | orange => "orange"
  | pink => "pink"
  | red => "red"
  | white => "white"
  | yellow => "yellow"
  | brown => "brown"
  | purple => "purple"

def ofKeyword? : String → Option Color
  | "black" => some black
  | "blue" => some blue
  | "cyan" => some cyan
  | "darkGray" => some darkGray
  | "gray" => some gray
  | "green" => some green
  | "lightGray" => some lightGray
  | "magenta" => some magenta
  | "orange" => some orange
  | "pink" => some pink
  | "red" => some red
  | "white" => some white
  | "yellow" => some yellow
  | "brown" => some brown
  | "purple" => some purple
  | _ => none

/-- The red, green and blue parts. -/
def components : Color → UInt8 × UInt8 × UInt8
  | black => (0, 0, 0)
  | blue => (0, 0, 255)
  | cyan => (0, 255, 255)
  | darkGray => (64, 64, 64)
  | gray => (128, 128, 128)
  | green => (0, 255, 0)
  | lightGray => (192, 192, 192)
  | magenta => (255, 0, 255)
  | orange => (255, 200, 0)
  | pink => (255, 175, 175)
  | red => (255, 0, 0)
  | white => (255, 255, 255)
  | yellow => (255, 255, 0)
  | brown => (153, 76, 0)
  | purple => (153, 51, 255)

@[simp] theorem ofKeyword?_keyword (c : Color) : ofKeyword? c.keyword = some c := by
  cases c <;> rfl

end Color

end DrawingBugs
