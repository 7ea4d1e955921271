import DrawingBugs.Document
import DrawingBugs.Document.Reader

/-!
# Run configuration

How a run is paced and whether it starts by itself. A configuration document is an object with
the members `pause_ms` and `start_running`, either of which may be missing, or an array of the
two in this order, which may be shorter.
-/

namespace DrawingBugs

structure RunConfig where
  /-- The pause between rounds in milliseconds. -/
  pauseMs : Nat
  /-- Whether rounds are granted from the start. -/
  startRunning : Bool
  deriving DecidableEq, Repr

namespace RunConfig

open Document (Reader Problem)

def default : RunConfig := ⟨250, false⟩

/-- The largest pause that can be written, one less than `2 ^ 64`. -/
def greatestPause : Nat := 0xffffffffffffffff

/-- A pause is a natural number without point and exponent. -/
def readPause : Reader Nat := do
  match ← Reader.peek with
  | some c =>
    if c.isDigit then
      let n ← Reader.rangedNumeral
      let pause := Number.digitsValue n.whole
      if n.fraction = [] ∧ n.exponent = [] ∧ pause ≤ greatestPause then return pause
      else throw .unfit
    else Reader.refuse
  | none => throw .ended

def readFlag : Reader Bool := do
  match ← Reader.peek with
  | some 't' =>
    Reader.word ['t', 'r', 'u', 'e']
    return true
  | some 'f' =>
    Reader.word ['f', 'a', 'l', 's', 'e']
    return false
  | _ => Reader.refuse

/-- Whether another item of an array comes; it is the first one unless `follows`. -/
def anotherItem (follows : Bool) : Reader Bool := do
  match ← Reader.peek with
  | none => throw .ended
  | some ']' => return false
  | some c =>
    if !follows then return true
    else if c = ',' then
      let _ ← Reader.next
      match ← Reader.peek with
      | none => throw .ended
      | some ']' => throw .malformed
      | some _ => return true
    else throw .malformed

/-- The end of an array that has all its items. -/
def endOfItems : Reader Unit := do
  match ← Reader.peek with
  | none => throw .ended
  | some ']' =>
    let _ ← Reader.next
  | some _ => throw .malformed

/-- Reads an array after its opening bracket. -/
def readItems : Reader RunConfig := do
  let config ← if ← anotherItem false then
    let pauseMs ← readPause
    if ← anotherItem true then
      let startRunning ← readFlag
      pure ⟨pauseMs, startRunning⟩
    else pure { default with pauseMs }
  else pure default
  endOfItems
  return config

/-- Whether another member of an object comes, whose opening quote is read. -/
def anotherMember (follows : Bool) : Reader Bool := do
  match ← Reader.peek with
  | none => throw .ended
  | some '\x7d' =>
    let _ ← Reader.next
    return false
  | some c =>
    if follows then
      if c ≠ ',' then throw .malformed
      let _ ← Reader.next
    match ← Reader.peek with
    | none => throw .ended
    | some '"' =>
      let _ ← Reader.next
      return true
    | some _ => throw .malformed

def colon : Reader Unit := do
  match ← Reader.peek with
  | none => throw .ended
  | some c =>
    let _ ← Reader.next
    if c ≠ ':' then throw .malformed

/-- Reads members, `fuel` of them at most, after those that are known. A member may not come
twice, and members that mean nothing here are passed over. -/
def readMembers (pauseMs : Option Nat) (startRunning : Option Bool) (follows : Bool) :
    Nat → Reader RunConfig
  | 0 => throw .ended
  | fuel + 1 => do
    if ← anotherMember follows then
      match ← Reader.quoted with
      | "pause_ms" =>
        if pauseMs.isSome then throw .unfit
        colon
        let pause ← readPause
        readMembers (some pause) startRunning true fuel
      | "start_running" =>
        if startRunning.isSome then throw .unfit
        colon
        let flag ← readFlag
        readMembers pauseMs (some flag) true fuel
      | _ =>
        colon
        Reader.skip
        readMembers pauseMs startRunning true fuel
    else
      return ⟨pauseMs.getD default.pauseMs, startRunning.getD default.startRunning⟩

def reader : Reader RunConfig := do
  match ← Reader.peek with
  | none => throw .ended
  | some '[' =>
    let _ ← Reader.next
    readItems
  | some '\x7b' =>
    let _ ← Reader.next
    Reader.sized (readMembers none none false)
  | some _ => Reader.refuse

/-- Reads a configuration, after which nothing but blanks may come. -/
def read (text : String) : Except Problem RunConfig := do
  let (config, rest) ← reader.run text.toList
  if (rest.dropWhile Reader.isBlank).isEmpty then return config else throw .malformed

/-- The whole seconds of the pause. -/
def pauseSeconds (c : RunConfig) : Nat := c.pauseMs / 1000

def toDocument (c : RunConfig) : Document :=
  .object [("pause_ms", .natural c.pauseMs), ("start_running", .bool c.startRunning)]

end RunConfig

end DrawingBugs
