import DrawingBugs.Tree

/-!
# The grammar

Derivations of tokens from the rules of the language. A phrase relates the tokens it covers to
the tree, token or list that it stands for; its elements are the derivations themselves, so that
one can say that there is only one. Every production is a constructor. Repetition, separation
by commas and chains of operators are phrases over phrases.
-/

namespace DrawingBugs.Syntax

/-- The derivations of tokens from one rule, by the tokens and what they stand for. -/
abbrev Phrase (α : Type) := List Token → α → Type

/-- A derivation with its tokens and what they stand for. -/
structure Derivation {α : Type} (D : Phrase α) where
  {tokens : List Token}
  {value : α}
  steps : D tokens value

inductive Terminal (kind : Kind) (text : Option String) : List Token → Token → Type
  | token {t : Token} (h : t.fits kind text) : Terminal kind text [t] t

abbrev Name : Phrase Token := Terminal .name none

abbrev Number : Phrase Token := Terminal .number none

abbrev Keyword (word : String) : Phrase Token := Terminal .keyword (some word)

abbrev Symbol (text : String) : Phrase Token := Terminal .symbol (some text)

section Combinators

variable {α : Type}

/-- `D | E` -/
abbrev Choice (D E : Phrase α) : Phrase α := fun ts a => D ts a ⊕ E ts a

/-- `[ D ]` -/
inductive Optional (D : List Token → α → Type) : List Token → Option α → Type
  | absent : Optional D [] none
  | present {p : List Token} {a : α} (item : D p a) : Optional D p (some a)

/-- `{ D }` -/
inductive Repeated (D : List Token → α → Type) : List Token → List α → Type
  | none : Repeated D [] []
  | more {p q : List Token} {a : α} {as : List α} (first : D p a) (rest : Repeated D q as) :
    Repeated D (p ++ q) (a :: as)

/-- `"," D` -/
inductive AfterComma (D : List Token → α → Type) : List Token → α → Type
  | item {p q : List Token} {comma : Token} {a : α} (separator : Symbol "," p comma) (item : D q a) :
    AfterComma D (p ++ q) a

/-- `D { "," D }` -/
inductive Separated (D : List Token → α → Type) : List Token → List α → Type
  | items {p q : List Token} {a : α} {as : List α} (first : D p a)
    (rest : Repeated (AfterComma D) q as) : Separated D (p ++ q) (a :: as)

/-- `{ O D }` after a left operand: each operator takes all that stands to its left. -/
inductive Links (O : List Token → Token → Type) (D : List Token → Tree → Type) :
    Tree → List Token → Tree → Type
  | stop {left : Tree} : Links O D left [] left
  | link {left right t : Tree} {op : Token} {p q r : List Token} (operator : O p op)
    (operand : D q right) (rest : Links O D (.node op [left, right]) r t) :
    Links O D left (p ++ (q ++ r)) t

/-- `D { O D }` -/
inductive Chained (O : List Token → Token → Type) (D : List Token → Tree → Type) :
    List Token → Tree → Type
  | chain {p q : List Token} {left t : Tree} (first : D p left) (rest : Links O D left q t) :
    Chained O D (p ++ q) t

end Combinators

/-- `EOL { EOL }` -/
inductive LineEnds : List Token → Unit → Type
  | lines {p q : List Token} {t : Token} {ts : List Token} (first : Terminal .endOfLine none p t)
    (rest : Repeated (Terminal .endOfLine none) q ts) : LineEnds (p ++ q) ()

/-! ## Expressions -/

inductive AddOperator : List Token → Token → Type
  | plus {p : List Token} {t : Token} (sign : Symbol "+" p t) : AddOperator p t
  | minus {p : List Token} {t : Token} (sign : Symbol "-" p t) : AddOperator p t

inductive MultiplyOperator : List Token → Token → Type
  | times {p : List Token} {t : Token} (sign : Symbol "*" p t) : MultiplyOperator p t
  | over {p : List Token} {t : Token} (sign : Symbol "/" p t) : MultiplyOperator p t

/-- `C [ "=" ]`, one operator at the place of the first token. -/
inductive OrEqual (text : String) : List Token → Token → Type
  | plain {p : List Token} {t : Token} (sign : Symbol text p t) : OrEqual text p t
  | orEqual {p q : List Token} {t e : Token} (sign : Symbol text p t) (equals : Symbol "=" q e) :
    OrEqual text (p ++ q) { t with text := text ++ "=" }

/-- `"!" "="`, one operator at the place of the first token. -/
inductive Unequal : List Token → Token → Type
  | signs {p q : List Token} {t e : Token} (bang : Symbol "!" p t) (equals : Symbol "=" q e) :
    Unequal (p ++ q) { t with text := "!=" }

inductive Comparator : List Token → Token → Type
  | less {p : List Token} {t : Token} (signs : OrEqual "<" p t) : Comparator p t
  | greater {p : List Token} {t : Token} (signs : OrEqual ">" p t) : Comparator p t
  | equal {p : List Token} {t : Token} (sign : Symbol "=" p t) : Comparator p t
  | unequal {p : List Token} {t : Token} (signs : Unequal p t) : Comparator p t

/-- A factor is a sign, if any, and an unsigned factor. -/
inductive Signed (D : List Token → Tree → Type) : List Token → Tree → Type
  | plain {p : List Token} {t : Tree} (operand : D p t) : Signed D p t
  | signed {p q : List Token} {s : Token} {t : Tree} (sign : AddOperator p s) (operand : D q t) :
    Signed D (p ++ q) (.node s [t])

/-- `"(" [ D { "," D } ] ")"` -/
inductive Arguments (D : List Token → Tree → Type) : List Token → Tree → Type
  | list {p q r : List Token} {o c : Token} {ts : Option (List Tree)} (opening : Symbol "(" p o)
    (items : Optional (Separated D) q ts) (closing : Symbol ")" r c) :
    Arguments D (p ++ (q ++ r)) (.labeled "var" (ts.getD []))

/-- What starts with a name: a field of a bug, a call, or the name alone. -/
inductive Named (D : List Token → Tree → Type) : List Token → Tree → Type
  | field {p q r : List Token} {n dot f : Token} (bug : Name p n) (point : Symbol "." q dot)
    (field : Name r f) : Named D (p ++ (q ++ r)) (.node dot [.leaf n, .leaf f])
  | call {p q : List Token} {n : Token} {t : Tree} (function : Name p n) (arguments : Arguments D q t) :
    Named D (p ++ q) (.labeled "call" [.leaf n, t])
  | name {p : List Token} {n : Token} (name : Name p n) : Named D p (.leaf n)

inductive Literal : List Token → Tree → Type
  | number {p : List Token} {n : Token} (number : Number p n) : Literal p (.leaf n)

/-- `"(" D ")"` -/
inductive Parenthesized (D : List Token → Tree → Type) : List Token → Tree → Type
  | inner {p q r : List Token} {o c : Token} {t : Tree} (opening : Symbol "(" p o) (inner : D q t)
    (closing : Symbol ")" r c) : Parenthesized D (p ++ (q ++ r)) t

inductive Unsigned : List Token → Tree → Type
  | named {p : List Token} {t : Tree} (named : Named (Chained Comparator (Chained AddOperator
      (Chained MultiplyOperator (Signed Unsigned)))) p t) : Unsigned p t
  | literal {p : List Token} {t : Tree} (literal : Literal p t) : Unsigned p t
  | inner {p : List Token} {t : Tree} (inner : Parenthesized (Chained Comparator (Chained AddOperator
      (Chained MultiplyOperator (Signed Unsigned)))) p t) : Unsigned p t

abbrev Factor : Phrase Tree := Signed Unsigned

abbrev Term : Phrase Tree := Chained MultiplyOperator Factor

abbrev Arithmetic : Phrase Tree := Chained AddOperator Term

abbrev Expression : Phrase Tree := Chained Comparator Arithmetic

/-! ## Commands -/

/-- `{ "," Expression }`, as often as said. -/
inductive FurtherOperands : Nat → List Token → List Tree → Type
  | none : FurtherOperands 0 [] []
  | more {count : Nat} {p q r : List Token} {comma : Token} {t : Tree} {ts : List Tree}
    (separator : Symbol "," p comma) (operand : Expression q t) (rest : FurtherOperands count r ts) :
    FurtherOperands (count + 1) (p ++ (q ++ r)) (t :: ts)

/-- A keyword with one operand and a number of further ones, up to the line end. -/
inductive Directive (word : String) (further : Nat) : List Token → Tree → Type
  | directive {p q r s : List Token} {k : Token} {t : Tree} {ts : List Tree} (keyword : Keyword word p k)
    (first : Expression q t) (rest : FurtherOperands further r ts) (ending : LineEnds s ()) :
    Directive word further (p ++ (q ++ (r ++ s))) (.node k (t :: ts))

inductive Action : List Token → Tree → Type
  | move {p : List Token} {t : Tree} (d : Directive "move" 0 p t) : Action p t
  | moveTo {p : List Token} {t : Tree} (d : Directive "moveto" 1 p t) : Action p t
  | turn {p : List Token} {t : Tree} (d : Directive "turn" 0 p t) : Action p t
  | turnTo {p : List Token} {t : Tree} (d : Directive "turnto" 0 p t) : Action p t
  | line {p : List Token} {t : Tree} (d : Directive "line" 3 p t) : Action p t

/-- `"{" EOL { C } "}" EOL` -/
inductive Braced (C : List Token → Tree → Type) : List Token → List Tree → Type
  | braces {p q r s u : List Token} {o c : Token} {ts : List Tree} (opening : Symbol "\x7b" p o)
    (line : LineEnds q ()) (items : Repeated C r ts) (closing : Symbol "\x7d" s c)
    (ending : LineEnds u ()) : Braced C (p ++ (q ++ (r ++ (s ++ u)))) ts

inductive Assignment : List Token → Tree → Type
  | assign {p q r s : List Token} {n e : Token} {t : Tree} (target : Name p n)
    (equals : Symbol "=" q e) (value : Expression r t) (ending : LineEnds s ()) :
    Assignment (p ++ (q ++ (r ++ s))) (.labeled "assign" [.leaf n, t])

inductive Exit : List Token → Tree → Type
  | exit {p q r s : List Token} {k i : Token} {t : Tree} (keyword : Keyword "exit" p k)
    (word : Keyword "if" q i) (condition : Expression r t) (ending : LineEnds s ()) :
    Exit (p ++ (q ++ (r ++ s))) (.node k [t])

inductive Performance : List Token → Tree → Type
  | perform {p q r s : List Token} {k n : Token} {t : Option Tree} (keyword : Keyword "do" p k)
    (function : Name q n) (arguments : Optional (Arguments Expression) r t)
    (ending : LineEnds s ()) :
    Performance (p ++ (q ++ (r ++ s)))
      (.labeled "call" [.leaf n, t.getD (.labeled "var" [])])

inductive Coloring : List Token → Tree → Type
  | color {p q r : List Token} {k c : Token} (keyword : Keyword "color" p k)
    (color : Terminal .keyword none q c) (ending : LineEnds r ()) :
    Coloring (p ++ (q ++ r)) (.node k [.leaf c])

/-- `"loop" Block`, with commands `C` inside. -/
inductive Loop (C : List Token → Tree → Type) : List Token → Tree → Type
  | loop {p q : List Token} {k : Token} {ts : List Tree} (keyword : Keyword "loop" p k)
    (body : Braced C q ts) : Loop C (p ++ q) (.node k [.labeled "block" ts])

/-- `"case" Expression EOL { C }` -/
inductive Case (C : List Token → Tree → Type) : List Token → Tree → Type
  | case {p q r s : List Token} {k : Token} {t : Tree} {ts : List Tree} (keyword : Keyword "case" p k)
    (guard : Expression q t) (line : LineEnds r ()) (commands : Repeated C s ts) :
    Case C (p ++ (q ++ (r ++ s))) (.node k [t, .labeled "block" ts])

/-- `"switch" "{" EOL { Case } "}" EOL`, with commands `C` inside. -/
inductive Switch (C : List Token → Tree → Type) : List Token → Tree → Type
  | switch {p q : List Token} {k : Token} {ts : List Tree} (keyword : Keyword "switch" p k)
    (cases : Braced (Case C) q ts) : Switch C (p ++ q) (.node k ts)

inductive Command : List Token → Tree → Type
  | action {p : List Token} {t : Tree} (action : Action p t) : Command p t
  | assign {p : List Token} {t : Tree} (assignment : Assignment p t) : Command p t
  | loop {p : List Token} {t : Tree} (loop : Loop Command p t) : Command p t
  | exit {p : List Token} {t : Tree} (exit : Exit p t) : Command p t
  | switch {p : List Token} {t : Tree} (switch : Switch Command p t) : Command p t
  | leave {p : List Token} {t : Tree} (d : Directive "return" 0 p t) : Command p t
  | perform {p : List Token} {t : Tree} (performance : Performance p t) : Command p t
  | color {p : List Token} {t : Tree} (coloring : Coloring p t) : Command p t

inductive Block (C : List Token → Tree → Type) : List Token → Tree → Type
  | block {p : List Token} {ts : List Tree} (commands : Braced C p ts) :
    Block C p (.labeled "block" ts)

/-! ## Definitions -/

/-- `"using" Name { "," Name }` -/
inductive Parameters : List Token → List Token → Type
  | names {p q : List Token} {k : Token} {names : List Token} (keyword : Keyword "using" p k)
    (items : Separated Name q names) : Parameters (p ++ q) names

inductive Function : List Token → Tree → Type
  | define {p q r s : List Token} {k n : Token} {names : Option (List Token)} {t : Tree}
    (keyword : Keyword "define" p k) (name : Name q n) (parameters : Optional Parameters r names)
    (body : Block Command s t) :
    Function (p ++ (q ++ (r ++ s)))
      (.labeled "function" [.leaf n, .labeled "var" ((names.getD []).map .leaf), t])

inductive Variables : List Token → Tree → Type
  | declare {p q r : List Token} {k : Token} {names : List Token} (keyword : Keyword "var" p k)
    (items : Separated Name q names) (ending : LineEnds r ()) :
    Variables (p ++ (q ++ r)) (.node k (names.map .leaf))

inductive Initially : List Token → Tree → Type
  | initially {p q : List Token} {k : Token} {t : Tree} (keyword : Keyword "initially" p k)
    (body : Block Command q t) : Initially (p ++ q) (.node k [t])

/-- `"Allbugs" "{" EOL { Variables } { Function } "}"` -/
inductive AllbugsBody : List Token → Tree → Type
  | allbugs {p q r s u v : List Token} {k o c : Token} {vs fs : List Tree}
    (keyword : Keyword "Allbugs" p k) (opening : Symbol "\x7b" q o) (line : LineEnds r ())
    (declarations : Repeated Variables s vs) (functions : Repeated Function u fs)
    (closing : Symbol "\x7d" v c) :
    AllbugsBody (p ++ (q ++ (r ++ (s ++ (u ++ v))))) (.node k [.labeled "list" vs, .labeled "list" fs])

/-- `"Bug" Name "{" EOL { Variables } [ Initially ] Command { Command } { Function } "}"` -/
inductive BugBody : List Token → Tree → Type
  | bug {p q r s u v w x y z : List Token} {k n o c : Token} {vs cs fs : List Tree} {i : Option Tree}
    {t : Tree} (keyword : Keyword "Bug" p k) (name : Name q n) (opening : Symbol "\x7b" r o)
    (line : LineEnds s ()) (declarations : Repeated Variables u vs) (initial : Optional Initially v i)
    (first : Command w t) (commands : Repeated Command x cs) (functions : Repeated Function y fs)
    (closing : Symbol "\x7d" z c) :
    BugBody (p ++ (q ++ (r ++ (s ++ (u ++ (v ++ (w ++ (x ++ (y ++ z)))))))))
      (.node k [.leaf n, .labeled "list" vs, i.getD (.labeled "initially" []),
        .labeled "block" (t :: cs), .labeled "list" fs])

/-- The shared section and its line end. -/
inductive Allbugs : List Token → Tree → Type
  | allbugs {p q : List Token} {t : Tree} (body : AllbugsBody p t) (ending : LineEnds q ()) :
    Allbugs (p ++ q) t

/-- One bug or more. The line end after the last one may be missing. -/
inductive Bugs : List Token → List Tree → Type
  | last {p q : List Token} {t : Tree} {o : Option Unit} (body : BugBody p t)
    (ending : Optional LineEnds q o) : Bugs (p ++ q) [t]
  | more {p q r : List Token} {t : Tree} {ts : List Tree} (body : BugBody p t) (ending : LineEnds q ())
    (rest : Bugs r ts) : Bugs (p ++ (q ++ r)) (t :: ts)

/-- `[ EOL ] [ Allbugs ] Bug { Bug }` -/
inductive Text : List Token → Tree → Type
  | text {p q r : List Token} {o : Option Unit} {a : Option Tree} {ts : List Tree}
    (lines : Optional LineEnds p o) (shared : Optional Allbugs q a) (bugs : Bugs r ts) :
    Text (p ++ (q ++ r)) (.labeled "program" [a.getD (.labeled "Allbugs" []), .labeled "list" ts])

/-- A text up to the end of the input. -/
inductive Program : List Token → Tree → Type
  | program {p q : List Token} {t : Tree} {e : Token} (text : Text p t)
    (ending : Terminal .endOfInput none q e) : Program (p ++ q) t

end DrawingBugs.Syntax
