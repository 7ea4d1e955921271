import DrawingBugs.Machine.Step

/-!
# What a step of a machine can do

Between two visible actions a machine only computes: it leaves the barrier, the log of lines,
the registry and the failures alone. An action ends in three steps that no other step can
lead into: the line is drawn, the bug parks, and it waits for its permit. Every step is one of
a few moves, and what is invariant under all moves is invariant under all steps.
-/

namespace DrawingBugs

theorem bind_eq_ok {ε α β : Type} {x : Except ε α} {f : α → Except ε β} {b : β} :
    x >>= f = .ok b ↔ ∃ a, x = .ok a ∧ f a = .ok b := by
  cases x <;> simp [bind, Except.bind]

theorem Table.mem_of_get?_eq_some {κ α : Type} [DecidableEq κ] {t : Table κ α} {key : κ} {a : α}
    (h : t.get? key = some a) : (key, a) ∈ t := by
  induction t with
  | nil => cases h
  | cons entry rest ih =>
    obtain ⟨k, b⟩ := entry
    by_cases hk : k = key
    · simp only [get?, hk, if_true, Option.some.injEq] at h
      simp [hk, h]
    · simp only [get?, hk, if_false] at h
      exact List.mem_cons_of_mem _ (ih h)

theorem Table.contains_iff_mem_keys {κ α : Type} [DecidableEq κ] {t : Table κ α}
    {key : κ} : t.contains key ↔ key ∈ t.keys := by
  induction t with
  | nil => simp [contains, get?, keys]
  | cons entry rest ih =>
    obtain ⟨k, b⟩ := entry
    by_cases hk : k = key
    · simp [contains, get?, keys, hk]
    · simp only [contains, keys] at ih
      simp [contains, get?, keys, hk, ih, Ne.symm hk]

theorem Tree.part_eq_ok {t c : Tree} {i : Nat} : t.part i = .ok c ↔ t.children[i]? = some c := by
  unfold part child?
  cases t.children[i]? <;> simp

/-- Whether a focus is outside the end of an action. -/
def Focus.isPlain : Focus → Bool
  | .draw .. | .park | .await => false
  | _ => true

/-- Whether a focus is outside the end of an action and no statement that has just begun. -/
def Focus.isOrdinary : Focus → Bool
  | .perform _ => false
  | focus => focus.isPlain

/-- Whether a focus is a computation: neither an action, nor the end of one, nor a fault. -/
def Focus.isComputing : Focus → Bool
  | .act .. | .draw .. | .park | .await | .fault _ => false
  | _ => true

namespace Bug

/-- What no step changes about a bug. -/
def identity (b : Bug) : Nat × String := (b.id, b.name)

theorem exists_setBuiltIn_eq (b : Bug) (name : String) (v : Float) :
    ∃ x y angle, b.setBuiltIn name v = { b with x, y, angle } := by
  simp only [setBuiltIn]
  split
  · exact ⟨_, _, _, rfl⟩
  · split <;> exact ⟨_, _, _, rfl⟩

private theorem exists_act_eq (b : Bug) (label : String) (operands : List Float) :
    ∃ x y angle, (b.act label operands).1 = { b with x, y, angle } := by
  simp only [act]
  split
  case h_5 => exact ⟨_, _, _, rfl⟩
  all_goals split <;> exact ⟨_, _, _, rfl⟩

@[simp] theorem identity_setBuiltIn (b : Bug) (name : String) (v : Float) :
    (b.setBuiltIn name v).identity = b.identity := by
  obtain ⟨x, y, angle, h⟩ := b.exists_setBuiltIn_eq name v
  rw [h]
  rfl

private theorem identity_act (b : Bug) (label : String) (operands : List Float) :
    (b.act label operands).1.identity = b.identity := by
  obtain ⟨x, y, angle, h⟩ := b.exists_act_eq label operands
  rw [h]
  rfl

theorem vars_setBuiltIn (b : Bug) (name : String) (v : Float) :
    (b.setBuiltIn name v).vars = b.vars := by
  obtain ⟨x, y, angle, h⟩ := b.exists_setBuiltIn_eq name v
  rw [h]

theorem vars_act (b : Bug) (label : String) (operands : List Float) :
    (b.act label operands).1.vars = b.vars := by
  obtain ⟨x, y, angle, h⟩ := b.exists_act_eq label operands
  rw [h]

end Bug

namespace World

/-- The second world has the bugs, registry, functions, lines and failures of the first; poses,
pens and variables may differ. -/
structure Keeps (w w' : World) : Prop where
  identities : w'.bugs.map Bug.identity = w.bugs.map Bug.identity
  functions : w'.functions = w.functions
  registry : w'.registry = w.registry
  lines : w'.lines = w.lines
  failures : w'.failures = w.failures

private theorem Keeps.refl (w : World) : Keeps w w := ⟨rfl, rfl, rfl, rfl, rfl⟩

private theorem Keeps.modifyBug (w : World) (seat : Nat) (f : Bug → Bug)
    (hf : ∀ b, w.bugs[seat]? = some b → (f b).identity = b.identity) :
    Keeps w (w.modifyBug seat f) := by
  refine ⟨?_, rfl, rfl, rfl, rfl⟩
  apply List.ext_getElem?
  intro i
  simp only [World.modifyBug, List.getElem?_map, List.getElem?_modify]
  by_cases hi : seat = i
  · subst hi
    cases hb : w.bugs[seat]? with
    | none => rfl
    | some b => simp [hf b hb]
  · simp [hi]

private theorem Keeps.setOwn? {w w' : World} {seat : Nat} {name : String} {v : Float}
    (h : w.setOwn? seat name v = some w') : Keeps w w' := by
  simp only [World.setOwn?] at h
  split at h
  · cases h
    exact Keeps.modifyBug w seat _ fun _ _ => rfl
  · cases h

private theorem Keeps.setGlobal? {w w' : World} {name : String} {v : Float}
    (h : w.setGlobal? name v = some w') : Keeps w w' := by
  simp only [World.setGlobal?] at h
  split at h
  · cases h
    exact ⟨rfl, rfl, rfl, rfl, rfl⟩
  · cases h

private theorem Keeps.store {w w' : World} {seat : Nat} {memory memory' : Memory} {name : String}
    {v : Float} (h : w.store seat memory name v = .ok (w', memory')) : Keeps w w' := by
  simp only [World.store] at h
  split at h
  · cases h
    exact Keeps.modifyBug w seat _ fun b _ => b.identity_setBuiltIn name v
  · split at h
    · cases h
      exact Keeps.refl w
    · split at h
      next w'' hw =>
        cases h
        rcases Option.or_eq_some_iff.mp hw with hown | ⟨_, hglobal⟩
        · exact Keeps.setOwn? hown
        · exact Keeps.setGlobal? hglobal
      next => cases h

end World

namespace Machine

/-- A machine outside the end of an action. -/
abbrev Plain (m : Machine) : Prop := m.focus.isPlain

/-- A machine outside the end of an action and not at the beginning of a statement. -/
abbrev Ordinary (m : Machine) : Prop := m.focus.isOrdinary

private theorem Ordinary.plain {m : Machine} (h : m.Ordinary) : m.Plain := by
  cases hm : m.focus <;> simp_all [Ordinary, Plain, Focus.isOrdinary, Focus.isPlain]

private theorem orFail_ordinary (m : Machine) {x : Except Fault Machine}
    (h : ∀ m', x = .ok m' → m'.Ordinary) : (m.orFail x).Ordinary := by
  cases x with
  | ok m' => exact h m' rfl
  | error e => rfl

private theorem orFail_part_ordinary (m : Machine) {t : Tree} {i : Nat}
    {f : Tree → Except Fault Machine}
    (h : ∀ part m', f part = .ok m' → m'.Ordinary) : (m.orFail (t.part i >>= f)).Ordinary := by
  apply orFail_ordinary
  intro m' hm
  obtain ⟨part, _, hm⟩ := bind_eq_ok.mp hm
  exact h part m' hm

private theorem give_ordinary (m : Machine) (x : Except Fault Float) : (m.give x).Ordinary := by
  cases x <;> rfl

private theorem nextArgument_ordinary (m : Machine) (parameters : List String) (rest : List Tree)
    (scope : Table String Float) (body : Tree) :
    (m.nextArgument parameters rest scope body).Ordinary := by
  unfold nextArgument
  split <;> rfl

theorem callFunction_eq_ok {m m' : Machine} {w : World} {name : String} {arguments : Tree}
    (h : m.callFunction w name arguments = .ok m') :
    ∃ function parameters body, m.functionNamed w name = .ok function ∧
      function.part 1 = .ok parameters ∧ function.part 2 = .ok body ∧
      m' = m.nextArgument (parameters.children.map Tree.text) arguments.children [] body := by
  obtain ⟨function, hfunction, h⟩ := bind_eq_ok.mp h
  obtain ⟨parameters, hparameters, h⟩ := bind_eq_ok.mp h
  obtain ⟨body, hbody, h⟩ := bind_eq_ok.mp h
  refine ⟨function, parameters, body, hfunction, hparameters, hbody, ?_⟩
  dsimp only at h
  split at h
  · cases h
  · split at h
    · cases h
    · cases h
      rfl

theorem callBuiltIn_eq_ok {m m' : Machine} {w : World} {name : String} {question : Question}
    {arguments : Tree} (h : m.callBuiltIn w name question arguments = .ok m') :
    ∃ other, m' = m.focusOn (.consult other question) := by
  dsimp only [callBuiltIn] at h
  split at h
  · cases h
  · obtain ⟨_, _, h⟩ := bind_eq_ok.mp h
    obtain ⟨other, _, h⟩ := bind_eq_ok.mp h
    exact ⟨other, (Except.ok.inj h).symm⟩

private theorem call_ordinary (m : Machine) (w : World) (node : Tree) :
    (m.call w node).Ordinary := by
  apply orFail_ordinary
  intro m' h
  obtain ⟨name, _, h⟩ := bind_eq_ok.mp h
  obtain ⟨arguments, _, h⟩ := bind_eq_ok.mp h
  split at h
  · obtain ⟨other, rfl⟩ := callBuiltIn_eq_ok h
    rfl
  · obtain ⟨other, rfl⟩ := callBuiltIn_eq_ok h
    rfl
  · obtain ⟨_, _, _, _, _, _, rfl⟩ := callFunction_eq_ok h
    exact nextArgument_ordinary _ _ _ _ _

private theorem evaluate_ordinary (m : Machine) (w : World) (seat : Nat) (node : Tree) :
    (m.evaluate w seat node).Ordinary := by
  simp only [evaluate]
  split
  · split <;> rfl
  · split
    · exact give_ordinary _ _
    · split
      · exact call_ordinary m w node
      · rfl
  · split
    · exact orFail_part_ordinary m fun _ _ h => by cases h; rfl
    · rfl
  · split
    · apply orFail_part_ordinary
      intro bug m' h
      obtain ⟨name, _, h⟩ := bind_eq_ok.mp h
      obtain ⟨other, _, h⟩ := bind_eq_ok.mp h
      cases h
      rfl
    · exact orFail_part_ordinary m fun _ _ h => by cases h; rfl
  · rfl
  · rfl

private theorem nextSection_ordinary (m : Machine) (definition : Tree) (rest : List Nat) :
    (m.nextSection definition rest).Ordinary := by
  cases rest with
  | nil => rfl
  | cons i rest => exact orFail_part_ordinary m fun _ _ h => by cases h; rfl

private theorem nextInList_ordinary (m : Machine) (rest : List Tree) :
    (m.nextInList rest).Ordinary := by
  cases rest <;> rfl

private theorem nextInBlock_ordinary (m : Machine) (rest : List Tree) :
    (m.nextInBlock rest).Ordinary := by
  cases rest <;> rfl

private theorem nextOperand_ordinary (m : Machine) (node : Tree) (done : List Float)
    (rest : List Tree) : (m.nextOperand node done rest).Ordinary := by
  cases rest <;> rfl

private theorem nextCase_ordinary (m : Machine) (rest : List Tree) :
    (m.nextCase rest).Ordinary := by
  cases rest with
  | nil => rfl
  | cons case rest => exact orFail_part_ordinary m fun _ _ h => by cases h; rfl

private theorem afterInBlock_ordinary (m : Machine) (f : Flow) (rest : List Tree) :
    (m.afterInBlock f rest).Ordinary := by
  simp only [afterInBlock]
  split
  · exact nextInBlock_ordinary _ rest
  · rfl

private theorem perform_ordinary (m : Machine) (w : World) (node : Tree) :
    (m.perform w node).Ordinary := by
  simp only [perform]
  split
  · exact nextSection_ordinary _ _ _
  · exact nextInList_ordinary _ _
  · rfl
  · exact orFail_part_ordinary m fun _ _ h => by cases h; rfl
  · split <;> rfl
  · exact nextInBlock_ordinary _ _
  · apply orFail_part_ordinary
    intro name m' h
    obtain ⟨value, _, h⟩ := bind_eq_ok.mp h
    cases h
    rfl
  · exact orFail_part_ordinary m fun _ _ h => by cases h; rfl
  · exact orFail_part_ordinary m fun _ _ h => by cases h; rfl
  · exact nextCase_ordinary _ _
  · exact orFail_part_ordinary m fun _ _ h => by cases h; rfl
  · exact call_ordinary _ _ _
  · apply orFail_part_ordinary
    intro word m' h
    obtain ⟨color, _, h⟩ := bind_eq_ok.mp h
    cases h
    rfl
  · split
    · exact nextOperand_ordinary _ _ _ _
    · rfl

private theorem resumeValue_ordinary (m : Machine) (v : Float) (frame : Frame) (hm : m.Ordinary) :
    (m.resumeValue v frame).Ordinary := by
  cases frame with
  | unary operator => exact give_ordinary _ _
  | leftOperand node => exact orFail_part_ordinary m fun _ _ h => by cases h; rfl
  | rightOperand operator left => exact give_ordinary _ _
  | guard case =>
    simp only [resumeValue, afterGuard]
    split
    · exact orFail_part_ordinary m fun _ _ h => by cases h; rfl
    · rfl
  | switchGuard case rest =>
    simp only [resumeValue, afterSwitchGuard]
    split
    · exact orFail_part_ordinary m fun _ _ h => by cases h; rfl
    · exact nextCase_ordinary _ _
  | argument parameter parameters rest scope body => exact nextArgument_ordinary _ _ _ _ _
  | operand node done rest => exact nextOperand_ordinary _ _ _ _
  | discard | assign _ | exitIf | returning => rfl
  | guarded _ | activation | block _ | list _ | sections _ _ | loop _ => exact hm

private theorem resumeFlow_ordinary (m : Machine) (f : Flow) (frame : Frame) (hm : m.Ordinary) :
    (m.resumeFlow f frame).Ordinary := by
  cases frame with
  | guarded _ | activation => rfl
  | block rest => exact afterInBlock_ordinary _ _ _
  | list rest => exact nextInList_ordinary _ _
  | sections definition rest => exact nextSection_ordinary _ _ _
  | loop body => cases f <;> rfl
  | _ => exact hm

private theorem resume_ordinary (m : Machine) (next : Machine → Frame → Machine) (hm : m.Ordinary)
    (h : ∀ m' frame, m'.Ordinary → (next m' frame).Ordinary) : (m.resume next).Ordinary := by
  simp only [resume]
  split
  · exact hm
  · exact h _ _ hm

theorem unwind_focus (m : Machine) (frame : Frame) : (m.unwind frame).focus = m.focus := by
  cases frame <;> rfl

theorem resume_unwind_focus (m : Machine) : (m.resume unwind).focus = m.focus := by
  simp only [resume]
  split
  · rfl
  · exact unwind_focus _ _

theorem outcome?_eq_fault {m : Machine} {e : Fault} (h : m.outcome? = some (.fault e)) :
    m.focus = .fault e := by
  unfold outcome? at h
  split at h <;> cases h
  assumption

/-- What a step of the bug at a seat can be: the machine before it, the machine after it, and
what is shared after it. -/
inductive Move (seat : Nat) (s : Shared) : Machine → Machine → Shared → Prop
  | compute {m m' : Machine} {w : World} (hcomputing : m.focus.isComputing) (hplain : m'.Plain)
      (hkeeps : s.world.Keeps w)
      (hbegins : ∀ t, m'.focus = .perform t → m.focus = .execute t ∧ s.barrier.killed = false) :
      Move seat s m m' { s with world := w }
  /-- The pose changes; a line is still to be drawn, or not, or an operand was missing. -/
  | act {m m' : Machine} {w : World} {node : Tree} {operands : List Float}
      (hm : m.focus = .act node operands)
      (hafter : (∃ segment color, m'.focus = .draw segment color) ∨ m'.focus = .park ∨
        ∃ e, m'.focus = .fault e)
      (hkeeps : s.world.Keeps w) : Move seat s m m' { s with world := w }
  | draw {m : Machine} {segment : Segment} {color : Color} (hm : m.focus = .draw segment color) :
      Move seat s m (m.focusOn .park) { s with world := s.world.draw segment color }
  | park {m : Machine} (hm : m.focus = .park) :
      Move seat s m (m.focusOn .await) { s with barrier := s.barrier.park seat }
  | wait {m : Machine} (hm : m.focus = .await) (hpermit : s.barrier.permit seat = .waiting) :
      Move seat s m m s
  | proceed {m : Machine} (hm : m.focus = .await) (hpermit : s.barrier.permit seat = .granted) :
      Move seat s m (m.focusOn (.flow .normal)) s
  | halt {m : Machine} (hm : m.focus = .await) (hpermit : s.barrier.permit seat = .halted) :
      Move seat s m (m.fail .halted) s
  | unwind {m m' : Machine} {e : Fault} (hm : m.focus = .fault e) (hm' : m'.focus = .fault e) :
      Move seat s m m' s

private theorem Move.ordinary {seat : Nat} {s : Shared} {m m' : Machine} {w : World}
    (hcomputing : m.focus.isComputing) (hordinary : m'.Ordinary) (hkeeps : s.world.Keeps w) :
    Move seat s m m' { s with world := w } := by
  refine .compute hcomputing hordinary.plain hkeeps fun t hm' => ?_
  rw [Ordinary, hm'] at hordinary
  cases hordinary

private theorem act_move (seat : Nat) (m : Machine) (s : Shared) {node : Tree}
    {operands : List Float} (hm : m.focus = .act node operands) :
    Move seat s m (m.act s.world seat node.text operands).1
      { s with world := (m.act s.world seat node.text operands).2 } := by
  have hworld : (m.act s.world seat node.text operands).2 =
      s.world.modifyBug seat fun _ => ((s.world.bug seat).act node.text operands).1 := by
    simp only [Machine.act]
    split <;> rfl
  apply Move.act hm
  · simp only [Machine.act]
    split
    · exact .inl ⟨_, _, rfl⟩
    · exact .inr (.inl rfl)
    · exact .inr (.inr ⟨_, rfl⟩)
  · rw [hworld]
    apply World.Keeps.modifyBug
    intro b hb
    have hbug : s.world.bug seat = b := by simp [World.bug, hb]
    rw [Bug.identity_act, hbug]

/-- Every step is a move. -/
theorem step_move (seat : Nat) (m : Machine) (s : Shared) :
    Move seat s m (m.step seat s).1 (m.step seat s).2 := by
  have hkept := World.Keeps.refl s.world
  cases hm : m.focus with
  | evaluate node =>
    simp only [step, hm]
    exact .ordinary (by rw [hm]; rfl) (evaluate_ordinary _ _ _ _) hkept
  | execute node =>
    simp only [step, hm]
    refine .compute (by rw [hm]; rfl) ?_ hkept fun t ht => ?_
    · split <;> rfl
    · cases hkilled : s.barrier.killed <;> simp_all [focusOn, fail]
  | perform node =>
    simp only [step, hm]
    exact .ordinary (by rw [hm]; rfl) (perform_ordinary _ _ _) hkept
  | consult other question =>
    simp only [step, hm]
    exact .ordinary (by rw [hm]; rfl) (give_ordinary _ _) hkept
  | declare names =>
    simp only [step, hm]
    cases names with
    | nil => exact .ordinary (by rw [hm]; rfl) rfl hkept
    | cons name rest =>
      simp only [declare]
      split
      · exact .ordinary (by rw [hm]; rfl) rfl hkept
      · exact .ordinary (by rw [hm]; rfl) rfl
          (World.Keeps.modifyBug _ _ _ fun _ _ => rfl)
  | store name v =>
    simp only [step, hm, store]
    split
    next hstored => exact .ordinary (by rw [hm]; rfl) rfl (World.Keeps.store hstored)
    next => exact .ordinary (by rw [hm]; rfl) rfl hkept
  | paint color =>
    simp only [step, hm]
    exact .ordinary (by rw [hm]; rfl) rfl
      (World.Keeps.modifyBug _ _ _ fun _ _ => rfl)
  | act node operands =>
    simp only [step, hm]
    exact act_move seat m s hm
  | draw segment color =>
    simp only [step, hm]
    exact .draw hm
  | park =>
    simp only [step, hm]
    exact .park hm
  | await =>
    simp only [step, hm]
    cases hpermit : s.barrier.permit seat with
    | granted => exact .proceed hm hpermit
    | halted => exact .halt hm hpermit
    | waiting => exact .wait hm hpermit
  | value v =>
    simp only [step, hm]
    exact .ordinary (by rw [hm]; rfl)
      (resume_ordinary _ _ (by rw [Ordinary, hm]; rfl) fun _ _ h => resumeValue_ordinary _ _ _ h) hkept
  | flow f =>
    simp only [step, hm]
    exact .ordinary (by rw [hm]; rfl)
      (resume_ordinary _ _ (by rw [Ordinary, hm]; rfl) fun _ _ h => resumeFlow_ordinary _ _ _ h) hkept
  | fault e =>
    simp only [step, hm]
    exact .unwind hm ((resume_unwind_focus m).trans hm)

theorem Move.functions {seat : Nat} {s s' : Shared} {m m' : Machine}
    (h : Move seat s m m' s') : s'.world.functions = s.world.functions := by
  cases h with
  | compute _ _ hkeeps => exact hkeeps.functions
  | act _ _ hkeeps => exact hkeeps.functions
  | _ => rfl

theorem functions_step (seat : Nat) (m : Machine) (s : Shared) :
    (m.step seat s).2.world.functions = s.world.functions := (step_move seat m s).functions

end Machine

end DrawingBugs
