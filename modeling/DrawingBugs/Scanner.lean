import DrawingBugs.Token

/-!
# Scanner

A scanner gives the tokens of a source text one at a time and takes one of them back. Blanks
and comments separate tokens; a line end is a token of its own. Two-character comparators are
not assembled here: every character that starts no word and no number is a symbol.
-/

namespace DrawingBugs

/-- Why no token could be read. -/
inductive LexicalError where
  | openComment (opened : Position)
  | malformedNumber (text : String) (start : Position)
  deriving DecidableEq, Repr

namespace LexicalError

def message : LexicalError → String
  | openComment _ => "Unterminated block comment"
  | malformedNumber text _ => s!"Malformed number '{text}'"

def position : LexicalError → Position
  | openComment opened => opened
  | malformedNumber _ start => start

end LexicalError

/-- The unread part of a source text. -/
structure Cursor where
  position : Position
  rest : List Char
  deriving DecidableEq, Repr

/-- What is being skipped in front of a token. -/
inductive Trivia where
  | blank
  | lineComment
  /-- A block comment, with the place of its opener and whether its last character is a star. -/
  | blockComment (opened : Position) (starred : Bool)
  deriving DecidableEq, Repr

namespace Cursor

/-- Skips blanks and comments. A comment left open is reported by the place of its opener, and
then nothing is left to read. -/
def skip : Trivia → Position → List Char → Option Position × Cursor
  | .blank, p, ' ' :: cs => skip .blank (p.after ' ') cs
  | .blank, p, '\t' :: cs => skip .blank (p.after '\t') cs
  | .blank, p, '\r' :: cs => skip .blank (p.after '\r') cs
  | .blank, p, '/' :: '/' :: cs => skip .lineComment (p.past ['/', '/']) cs
  | .blank, p, '/' :: '*' :: cs => skip (.blockComment p false) (p.past ['/', '*']) cs
  | .blank, p, cs => (none, ⟨p, cs⟩)
  | .lineComment, p, [] => (none, ⟨p, []⟩)
  | .lineComment, p, c :: cs =>
    if c = '\n' then (none, ⟨p, c :: cs⟩) else skip .lineComment (p.after c) cs
  | .blockComment opened _, p, [] => (some opened, ⟨p, []⟩)
  | .blockComment opened starred, p, c :: cs =>
    if starred ∧ c = '/' then skip .blank (p.after c) cs
    else skip (.blockComment opened (c = '*')) (p.after c) cs

/-- Splits off the digits of a number, with a fraction if a digit follows the point. -/
def splitNumber (cs : List Char) : List Char × List Char :=
  let (whole, rest) := cs.span Char.isDigit
  match rest with
  | '.' :: tail =>
    let (fraction, rest') := tail.span Char.isDigit
    if fraction = [] then (whole, rest) else (whole ++ '.' :: fraction, rest')
  | _ => (whole, rest)

/-- A number token has the canonical text of its value. -/
def numberToken (lexeme : List Char) (p : Position) : Except LexicalError Token :=
  match Number.readChars? lexeme with
  | some v => .ok ⟨.number, Number.text v, p⟩
  | none => .error (.malformedNumber (String.ofList lexeme) p)

/-- Reads the token that starts at the first unread character. -/
def lexeme (p : Position) : List Char → Except LexicalError Token × Cursor
  | [] => (.ok (.endOfInput p), ⟨p, []⟩)
  | c :: cs =>
    if c = '\n' then (.ok (.endOfLine p), ⟨p.after c, cs⟩)
    else if c.isDigit then
      let (number, rest) := splitNumber (c :: cs)
      (numberToken number p, ⟨p.past number, rest⟩)
    else if c.isAlpha then
      let (word, rest) := (c :: cs).span Char.isAlphanum
      (.ok (.word (String.ofList word) p), ⟨p.past word, rest⟩)
    else (.ok ⟨.symbol, String.singleton c, p⟩, ⟨p.after c, cs⟩)

def scan (cursor : Cursor) : Except LexicalError Token × Cursor :=
  match skip .blank cursor.position cursor.rest with
  | (some opened, cursor') => (.error (.openComment opened), cursor')
  | (none, cursor') => lexeme cursor'.position cursor'.rest

end Cursor

structure Scanner where
  cursor : Cursor
  /-- A token that was taken back and comes next. -/
  pending : Option Token
  /-- Whether a token was ever taken back while another one was pending. -/
  crowded : Bool
  deriving DecidableEq, Repr

namespace Scanner

def ofSource (source : String) : Scanner := ⟨⟨.first, source.toList⟩, none, false⟩

def next (s : Scanner) : Except LexicalError Token × Scanner :=
  match s.pending with
  | some token => (.ok token, { s with pending := none })
  | none =>
    let (result, cursor) := s.cursor.scan
    (result, { s with cursor })

/-- Takes one token back, so that it comes next. -/
def takeBack (token : Token) (s : Scanner) : Scanner :=
  { s with pending := some token, crowded := s.crowded || s.pending.isSome }

/-- A token that was taken back comes next, and then the scanner is where it was. -/
theorem next_takeBack (token : Token) (s : Scanner) (h : s.pending = none) :
    (s.takeBack token).next = (.ok token, s) := by
  cases s
  simp_all [takeBack, next]

/-- The line of what comes next, blanks and comments included. -/
def line (s : Scanner) : Nat :=
  match s.pending with
  | some token => token.position.line
  | none => s.cursor.position.line

/-- What is left to read: the unread characters, and one for a pending token that is not the
end of the input. -/
def size (s : Scanner) : Nat :=
  s.cursor.rest.length + if s.pending.any (·.kind ≠ .endOfInput) then 1 else 0

/-- Reads tokens up to and including the end of the input, `fuel` of them at most. -/
def readAll : Nat → Scanner → Except LexicalError (List Token) × Scanner
  | 0, s => (.ok [], s)
  | fuel + 1, s =>
    match s.next with
    | (.error e, s') => (.error e, s')
    | (.ok token, s') =>
      if token.kind = .endOfInput then (.ok [token], s')
      else
        let (rest, s'') := readAll fuel s'
        (rest.map (token :: ·), s'')

/-- All tokens that are left, or the first error. -/
def tokens (s : Scanner) : Except LexicalError (List Token) × Scanner := readAll (s.size + 1) s

end Scanner

end DrawingBugs
