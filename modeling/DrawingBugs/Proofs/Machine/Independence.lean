import DrawingBugs.Proofs.Machine.Roles

/-!
# Independent machines

A machine that asks no other bug depends on what is shared only through the look of its own bug,
the shared variables that it reads and the shared functions. Two worlds that agree on these lead
it to the same machine, and they still agree afterwards. What a machine changes in its world is
its own bug and the shared variables that it assigns to.
-/

namespace DrawingBugs

/-- What a bug shows of itself. -/
structure Look where
  x : Float
  y : Float
  angle : Float
  color : Option Color
  vars : Table String Float

/-- A line without its place in the log. -/
abbrev Stroke := Segment × Color

/-- All drawn lines, without their places. -/
def World.strokes (w : World) : List Stroke := w.lines.map fun line => (line.segment, line.color)

namespace Bug

variable {b c : Bug}

def look (b : Bug) : Look := ⟨b.x, b.y, b.angle, b.color, b.vars⟩

private theorem field?_of_look (h : b.look = c.look) (name : String) :
    b.field? name = c.field? name := by
  cases b
  cases c
  cases h
  rfl

private theorem look_setBuiltIn (h : b.look = c.look) (name : String) (v : Float) :
    (b.setBuiltIn name v).look = (c.setBuiltIn name v).look := by
  cases b
  cases c
  cases h
  simp only [setBuiltIn]
  split
  · rfl
  · split <;> rfl

private theorem look_act (h : b.look = c.look) (label : String) (operands : List Float) :
    (b.act label operands).1.look = (c.act label operands).1.look ∧
      (b.act label operands).2 = (c.act label operands).2 := by
  cases b
  cases c
  cases h
  unfold act
  dsimp only
  split
  · cases operandAt "move" operands 0 <;> exact ⟨rfl, rfl⟩
  · cases operandAt "moveto" operands 0 <;> cases operandAt "moveto" operands 1 <;> exact ⟨rfl, rfl⟩
  · cases operandAt "turn" operands 0 <;> exact ⟨rfl, rfl⟩
  · cases operandAt "turnto" operands 0 <;> exact ⟨rfl, rfl⟩
  · exact ⟨rfl, rfl⟩

end Bug

namespace World

theorem bug_modifyBug {w : World} {seat : Nat} (h : seat < w.bugs.length) (f : Bug → Bug) :
    (w.modifyBug seat f).bug seat = f (w.bug seat) := by
  simp [bug, modifyBug, h]

private theorem bug_modifyBug_of_ne (w : World) {seat i : Nat} (hne : i ≠ seat) (f : Bug → Bug) :
    (w.modifyBug seat f).bug i = w.bug i := by
  simp [bug, modifyBug, Ne.symm hne]

/-- For a bug with these roles the world where it sits at `i` is as good as the other one where it
sits at `j`. -/
structure Agrees (R : Roles) (i : Nat) (w : World) (j : Nat) (v : World) : Prop where
  seated : i < w.bugs.length
  seated' : j < v.bugs.length
  look : (w.bug i).look = (v.bug j).look
  globals : ∀ name, R.source name → w.globals.get? name = v.globals.get? name
  functions : w.functions = v.functions

variable {R : Roles} {i j : Nat} {w v : World}

private theorem Agrees.modifyBug (h : Agrees R i w j v) {f g : Bug → Bug}
    (hlook : (f (w.bug i)).look = (g (v.bug j)).look) :
    Agrees R i (w.modifyBug i f) j (v.modifyBug j g) := by
  refine ⟨by simpa [World.modifyBug] using h.seated, by simpa [World.modifyBug] using h.seated', ?_,
    h.globals, h.functions⟩
  rwa [bug_modifyBug h.seated, bug_modifyBug h.seated']

private theorem Agrees.fetch (h : Agrees R i w j v) (memory : Memory) {name : String}
    (hname : R.source name) : w.fetch i memory name = v.fetch j memory name := by
  have hvars : (w.bug i).vars = (v.bug j).vars := congrArg Look.vars h.look
  simp only [World.fetch, Bug.builtIn, Bug.field?_of_look h.look, hvars, World.global?,
    h.globals name hname]

private theorem Agrees.setGlobal? (h : Agrees R i w j v) {name : String} (hname : R.source name)
    (x : Float) : w.setGlobal? name x = none ∧ v.setGlobal? name x = none ∨
      ∃ w' v', w.setGlobal? name x = some w' ∧ v.setGlobal? name x = some v' ∧
        Agrees R i w' j v' := by
  have hsame : w.globals.contains name = v.globals.contains name := by
    simp only [Table.contains, h.globals name hname]
  simp only [World.setGlobal?, hsame]
  split
  · refine .inr ⟨_, _, rfl, rfl, h.seated, h.seated', h.look, fun k hk => ?_, h.functions⟩
    simp only [Table.get?_update, h.globals k hk]
  · exact .inl ⟨rfl, rfl⟩

private theorem Agrees.setOwn? (h : Agrees R i w j v) (name : String) (x : Float) :
    w.setOwn? i name x = none ∧ v.setOwn? j name x = none ∨
      ∃ w' v', w.setOwn? i name x = some w' ∧ v.setOwn? j name x = some v' ∧ Agrees R i w' j v' := by
  have hvars : (w.bug i).vars = (v.bug j).vars := congrArg Look.vars h.look
  simp only [World.setOwn?, hvars]
  split
  · refine .inr ⟨_, _, rfl, rfl, h.modifyBug ?_⟩
    have hlook := h.look
    simp only [Bug.look, Look.mk.injEq] at hlook ⊢
    simp [hlook]
  · exact .inl ⟨rfl, rfl⟩

/-- What a step of the bug at a seat with these roles leaves alone: the other bugs, the functions,
and all shared variables but those that it may assign to. -/
structure Spares (R : Roles) (seat : Nat) (w w' : World) : Prop where
  count : w'.bugs.length = w.bugs.length
  others : ∀ i, i ≠ seat → w'.bug i = w.bug i
  functions : w'.functions = w.functions
  keys : w'.globals.keys = w.globals.keys
  globals : ∀ name, ¬ R.target name → w'.globals.get? name = w.globals.get? name

variable {w' : World} {seat : Nat}

theorem Spares.refl (w : World) : Spares R seat w w := ⟨rfl, fun _ _ => rfl, rfl, rfl, fun _ _ => rfl⟩

private theorem Spares.modifyBug (w : World) (f : Bug → Bug) :
    Spares R seat w (w.modifyBug seat f) :=
  ⟨by simp [World.modifyBug], fun _ hne => bug_modifyBug_of_ne w hne f, rfl, rfl, fun _ _ => rfl⟩

private theorem Spares.store {name : String} (hname : R.target name) {memory memory' : Memory}
    {x : Float} (h : w.store seat memory name x = .ok (w', memory')) : Spares R seat w w' := by
  unfold World.store at h
  split at h
  · cases h
    exact .modifyBug w _
  split at h
  · cases h
    exact .refl w
  split at h
  · next hset =>
    cases h
    rcases Option.or_eq_some_iff.mp hset with hown | ⟨-, hglobal⟩
    · unfold World.setOwn? at hown
      split at hown <;> cases hown
      exact .modifyBug w _
    · unfold World.setGlobal? at hglobal
      split at hglobal <;> cases hglobal
      refine ⟨rfl, fun _ _ => rfl, rfl, by simp, fun k hk => ?_⟩
      have hne : name ≠ k := fun he => hk (he ▸ hname)
      simp [hne]
  · cases h

end World

/-- The line that a focus is about to draw. -/
def Focus.strokes : Focus → List Stroke
  | .draw segment color => [(segment, color)]
  | _ => []

/-- Roles of a bug that asks no other one and may read what it assigns to. -/
structure Roles.Secluded (R : Roles) : Prop where
  closed : R.Closed
  asks : ¬ R.asks
  target : ∀ name, R.target name → R.source name

namespace Machine

variable {R : Roles} {m : Machine} {i j : Nat} {w v : World}

private theorem callFunction_congr (m : Machine) (h : w.functions = v.functions) (name : String)
    (arguments : Tree) : m.callFunction w name arguments = m.callFunction v name arguments := by
  simp only [callFunction, functionNamed, World.function?, h]

private theorem call_congr (hasks : ¬ R.asks) (m : Machine) (h : w.functions = v.functions)
    {t : Tree} (ht : R.Callable t) : m.call w t = m.call v t := by
  unfold call
  cases hname : t.part 0 with
  | error e => rfl
  | ok name =>
    have hown := ht.1.ok hname
    cases t.part 1 with
    | error e => rfl
    | ok arguments =>
      simp only [bind, Except.bind]
      split
      · next htext => exact absurd (hown (.inl htext)) hasks
      · next htext => exact absurd (hown (.inr htext)) hasks
      · rw [callFunction_congr m h]

private theorem evaluate_congr (hR : R.Secluded) (m : Machine) (h : World.Agrees R i w j v)
    {t : Tree} (ht : R.expression t) : m.evaluate w i t = m.evaluate v j t := by
  have ht := hR.closed.expression t ht
  unfold Roles.Evaluable at ht
  simp only [evaluate]
  split <;> simp only [‹t.kind = _›] at ht
  · rfl
  · split
    · next hchildren =>
      rw [if_pos (by simpa using hchildren)] at ht
      rw [h.fetch m.memory ht]
    · next hchildren =>
      rw [if_neg (by simpa using hchildren)] at ht
      split
      · next htext => exact call_congr hR.asks m h.functions (by simpa only [if_pos htext] using ht)
      · rfl
  · rfl
  · split
    · next htext =>
      rw [if_pos htext] at ht
      exact absurd ht.2.2 hR.asks
    · rfl
  · rfl
  · rfl

private theorem perform_congr (hR : R.Secluded) (m : Machine) (h : w.functions = v.functions)
    {t : Tree} (ht : R.statement t) : m.perform w t = m.perform v t := by
  have ht := hR.closed.statement t ht
  unfold Roles.Executable at ht
  unfold perform
  split <;> try rfl
  next htext =>
    simp only [htext] at ht
    exact call_congr hR.asks _ h ht

private theorem store_agrees (m : Machine) (h : World.Agrees R i w j v) {name : String}
    (hname : R.source name) (x : Float) : (m.store w i name x).1 = (m.store v j name x).1 ∧
      World.Agrees R i (m.store w i name x).2 j (m.store v j name x).2 := by
  unfold Machine.store World.store
  by_cases hbuiltIn : isBuiltIn name
  · simp only [if_pos hbuiltIn]
    exact ⟨trivial, h.modifyBug (Bug.look_setBuiltIn h.look name x)⟩
  simp only [if_neg hbuiltIn]
  cases m.memory.setLocal? name x with
  | some memory => exact ⟨rfl, h⟩
  | none =>
    rcases h.setOwn? name x with ⟨hw, hv⟩ | ⟨w', v', hw, hv, hown⟩
    · rcases h.setGlobal? hname x with ⟨hw', hv'⟩ | ⟨w', v', hw', hv', hglobal⟩
      · simp only [hw, hv, hw', hv', Option.or_none]
        exact ⟨trivial, h⟩
      · simp only [hw, hv, hw', hv', Option.none_or]
        exact ⟨trivial, hglobal⟩
    · simp only [hw, hv, Option.some_or]
      exact ⟨trivial, hown⟩

private theorem act_agrees (m : Machine) (h : World.Agrees R i w j v) (label : String)
    (operands : List Float) : (m.act w i label operands).1 = (m.act v j label operands).1 ∧
      World.Agrees R i (m.act w i label operands).2 j (m.act v j label operands).2 := by
  obtain ⟨hlook, hresult⟩ := Bug.look_act h.look label operands
  have hcolor := congrArg Look.color hlook
  simp only [Bug.look] at hcolor
  have hafter := h.modifyBug (f := fun _ => ((w.bug i).act label operands).1)
    (g := fun _ => ((v.bug j).act label operands).1) hlook
  simp only [Machine.act, hresult, hcolor]
  split <;> exact ⟨rfl, hafter⟩

private theorem declare_agrees (m : Machine) (h : World.Agrees R i w j v) (names : List String) :
    (m.declare w i names).1 = (m.declare v j names).1 ∧
      World.Agrees R i (m.declare w i names).2 j (m.declare v j names).2 := by
  cases names with
  | nil => exact ⟨rfl, h⟩
  | cons name rest =>
    simp only [Machine.declare]
    split
    · exact ⟨rfl, h⟩
    · refine ⟨rfl, h.modifyBug ?_⟩
      have hlook := h.look
      simp only [Bug.look, Bug.declare, Look.mk.injEq] at hlook ⊢
      simp [hlook]

/-- **Step alone.** A step of a machine in the world of a simulation is its step alone, as long as
the worlds agree and it does not wait for its permit; and then they still agree. -/
theorem Plays.step_agrees (hR : R.Secluded) (hm : m.Plays R) {s t : Shared}
    (h : World.Agrees R i s.world j t.world) (hs : s.barrier.killed = false)
    (ht : t.barrier = .unsupervised) (hpermit : m.focus = .await → s.barrier.permit i = .granted) :
    (m.step i s).1 = (m.step j t).1 ∧
      World.Agrees R i (m.step i s).2.world j (m.step j t).2.world ∧
      (m.step j t).2.barrier = .unsupervised := by
  have hfocus := hm.focus
  unfold Machine.step
  cases hm' : m.focus <;> rw [hm'] at hfocus
  case evaluate node => exact ⟨evaluate_congr hR m h hfocus, h, ht⟩
  case execute node =>
    have hongoing : t.barrier.killed = false := by rw [ht]; rfl
    simp only [hs, hongoing]
    exact ⟨trivial, h, ht⟩
  case perform node => exact ⟨perform_congr hR m h.functions hfocus, h, ht⟩
  case consult other question => exact absurd hfocus hR.asks
  case declare names =>
    obtain ⟨hsame, hafter⟩ := declare_agrees m h names
    exact ⟨hsame, hafter, ht⟩
  case store name v =>
    obtain ⟨hsame, hafter⟩ := store_agrees m h (hR.target name hfocus) v
    exact ⟨hsame, hafter, ht⟩
  case paint color =>
    refine ⟨rfl, h.modifyBug ?_, ht⟩
    have hlook := h.look
    simp only [Bug.look, Look.mk.injEq] at hlook ⊢
    simp [hlook]
  case act node operands =>
    obtain ⟨hsame, hafter⟩ := act_agrees m h node.text operands
    exact ⟨hsame, hafter, ht⟩
  case draw segment color =>
    exact ⟨rfl, ⟨h.seated, h.seated', h.look, h.globals, h.functions⟩, ht⟩
  case park =>
    refine ⟨rfl, h, ?_⟩
    simp only [ht]
    rfl
  case await =>
    have hgranted : t.barrier.permit j = .granted := by rw [ht]; rfl
    simp only [hpermit hm', hgranted]
    exact ⟨trivial, h, ht⟩
  case value | flow | fault => exact ⟨rfl, h, ht⟩

theorem spares_step (htarget : ∀ name v, m.focus = .store name v → R.target name) (seat : Nat)
    (s : Shared) : World.Spares R seat s.world (m.step seat s).2.world := by
  unfold Machine.step
  cases hm : m.focus
  case declare names =>
    cases names with
    | nil => exact .refl _
    | cons name rest =>
      simp only [Machine.declare]
      split
      · exact .refl _
      · exact .modifyBug _ _
  case store name v =>
    simp only [Machine.store]
    split
    · next hstored => exact .store (htarget name v hm) hstored
    · exact .refl _
  case paint color => exact .modifyBug _ _
  case act node operands =>
    simp only [Machine.act]
    split <;> exact .modifyBug _ _
  case draw segment color => exact ⟨rfl, fun _ _ => rfl, rfl, rfl, fun _ _ => rfl⟩
  all_goals exact .refl _

/-- A step of a machine spares what its roles do not let it assign to. -/
theorem Plays.step_spares (hm : m.Plays R) (seat : Nat) (s : Shared) :
    World.Spares R seat s.world (m.step seat s).2.world := by
  refine spares_step (fun name v hstore => ?_) seat s
  have hfocus := hm.focus
  rwa [hstore] at hfocus

theorem strokes_step (m : Machine) (seat : Nat) (s : Shared) :
    (m.step seat s).2.world.strokes = s.world.strokes ++ m.focus.strokes := by
  have hmove := m.step_move seat s
  generalize (m.step seat s).1 = m', (m.step seat s).2 = s' at hmove
  cases hmove with
  | compute hcomputing _ hkeeps =>
    have hnone : m.focus.strokes = [] := by
      cases hm : m.focus <;> simp_all [Focus.strokes, Focus.isComputing]
    simp [World.strokes, hkeeps.lines, hnone]
  | act hm _ hkeeps => simp [World.strokes, hkeeps.lines, Focus.strokes, hm]
  | draw hm => simp [World.strokes, World.draw, Focus.strokes, hm]
  | park hm | wait hm | proceed hm | halt hm | unwind hm => simp [Focus.strokes, hm]

end Machine

end DrawingBugs
