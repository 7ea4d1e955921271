import DrawingBugs.Proofs.Machine.Balance
import DrawingBugs.Proofs.Machine.Independence

/-!
# Names that are bound

A name gets into a table where a bug declares its variables, where a function is called, and where
the shared variables are declared. Each of these places refuses the built-in names in its own way,
and all other changes to a table keep its names. The parameters of a call are looked at before its
first argument: frames hold them, with the scope that is being filled, until the function is entered.
-/

namespace DrawingBugs

namespace Table

private theorem mem_keys_insert {κ α : Type} [DecidableEq κ] {t : Table κ α} {key k : κ} {v : α} :
    k ∈ (t.insert key v).keys ↔ key = k ∨ k ∈ t.keys := by
  rw [← contains_iff_mem_keys, ← contains_iff_mem_keys]
  simp only [contains, get?_insert]
  by_cases h : key = k <;> simp [h]

/-- No built-in name is bound. -/
def Clean (t : Table String Float) : Prop := ∀ name ∈ t.keys, isBuiltIn name = false

variable {t t' : Table String Float} {name : String}

theorem Clean.empty : Clean [] := nofun

theorem Clean.insert (h : t.Clean) (hname : isBuiltIn name = false) (v : Float) :
    Clean (t.insert name v) := by
  intro other hother
  cases mem_keys_insert.mp hother with
  | inl heq => rwa [← heq]
  | inr hmem => exact h other hmem

theorem Clean.of_keys (h : t.Clean) (hkeys : t'.keys = t.keys) : t'.Clean := by
  intro name hname
  rw [hkeys] at hname
  exact h name hname

theorem Clean.get?_eq_none (h : t.Clean) (hname : isBuiltIn name = true) : t.get? name = none := by
  by_contra hbound
  have hmem := contains_iff_mem_keys.mp (Option.isSome_iff_ne_none.mpr hbound)
  rw [h name hmem] at hname
  cases hname

end Table

theorem unreserved_of_find? {names : List String} (h : names.find? isBuiltIn = none) :
    ∀ name ∈ names, isBuiltIn name = false := by
  intro name hname
  exact Bool.eq_false_iff.mpr (List.find?_eq_none.mp h name hname)

/-- No call that is active binds a built-in name. -/
def Memory.Clean (memory : Memory) : Prop := ∀ scope ∈ memory.scopes, scope.Clean

private theorem Memory.Clean.setLocal? {memory memory' : Memory} {name : String} {v : Float}
    (h : memory.Clean) (hset : memory.setLocal? name v = some memory') : memory'.Clean := by
  obtain ⟨scopes, hscopes, rfl⟩ := Option.map_eq_some_iff.mp hset
  intro scope hscope
  have hkeys := List.mem_map_of_mem hscope (f := Table.keys)
  rw [Memory.keys_setInScopes? hscopes] at hkeys
  obtain ⟨old, hold, hsame⟩ := List.mem_map.mp hkeys
  exact (h old hold).of_keys hsame.symm

theorem Memory.Clean.local?_eq_none {memory : Memory} {name : String} (h : memory.Clean)
    (hname : isBuiltIn name = true) : memory.local? name = none := by
  apply List.findSome?_eq_none_iff.mpr
  intro scope hscope
  exact (h scope hscope).get?_eq_none hname

/-! ## The world around a bug -/

namespace World

/-- Neither the variables of the bug at the seat nor the shared ones have a built-in name. -/
structure Clean (seat : Nat) (w : World) : Prop where
  own : (w.bug seat).vars.Clean
  globals : w.globals.Clean

variable {seat : Nat} {w w' : World}

private theorem Clean.modifyBug {f : Bug → Bug} (h : w.Clean seat)
    (hf : (f (w.bug seat)).vars.Clean) : (w.modifyBug seat f).Clean seat := by
  refine ⟨?_, h.globals⟩
  by_cases hseat : seat < w.bugs.length
  · rwa [bug_modifyBug hseat]
  · have hsame : (w.modifyBug seat f).bug seat = w.bug seat := by
      simp [bug, World.modifyBug, hseat]
    rw [hsame]
    exact h.own

private theorem Clean.store {memory memory' : Memory} {name : String} {v : Float} (h : w.Clean seat)
    (hmemory : memory.Clean) (hstored : w.store seat memory name v = .ok (w', memory')) :
    w'.Clean seat ∧ memory'.Clean := by
  unfold World.store at hstored
  split at hstored
  · cases hstored
    refine ⟨h.modifyBug ?_, hmemory⟩
    rw [Bug.vars_setBuiltIn]
    exact h.own
  split at hstored
  · next hset =>
    cases hstored
    exact ⟨h, hmemory.setLocal? hset⟩
  split at hstored
  · next hset =>
    cases hstored
    refine ⟨?_, hmemory⟩
    cases Option.or_eq_some_iff.mp hset with
    | inl hown =>
      unfold World.setOwn? at hown
      split at hown <;> cases hown
      exact h.modifyBug (h.own.of_keys (by simp))
    | inr hglobal =>
      obtain ⟨-, hglobal⟩ := hglobal
      unfold World.setGlobal? at hglobal
      split at hglobal <;> cases hglobal
      exact ⟨h.own, h.globals.of_keys (by simp)⟩
  · cases hstored

end World

/-! ## Machines -/

/-- A call that is being prepared has parameters that may be bound. -/
def Frame.Clean : Frame → Prop
  | .argument parameter parameters _ scope _ =>
    (∀ name ∈ parameter :: parameters, isBuiltIn name = false) ∧ scope.Clean
  | _ => True

namespace Machine

/-- From the first machine to the second one only frames and scopes without built-in names come. -/
structure Adds (m m' : Machine) : Prop where
  stack : ∃ frames, m'.stack = frames ++ m.stack ∧ ∀ frame ∈ frames, frame.Clean
  scopes : ∀ scope ∈ m'.memory.scopes, scope ∈ m.memory.scopes ∨ scope.Clean

variable {m m' m'' : Machine}

private theorem Adds.same (hstack : m'.stack = m.stack)
    (hscopes : m'.memory.scopes = m.memory.scopes) : m.Adds m' :=
  ⟨⟨[], hstack, nofun⟩, fun _ hscope => .inl (hscopes ▸ hscope)⟩

private theorem Adds.push {frame : Frame} {focus : Focus} (hframe : frame.Clean) :
    m.Adds (m.push frame focus) :=
  ⟨⟨[frame], rfl, by simpa using hframe⟩, fun _ => .inl⟩

private theorem Adds.trans (h : m.Adds m') (h' : m'.Adds m'') : m.Adds m'' where
  stack := by
    obtain ⟨frames, hstack, hframes⟩ := h.stack
    obtain ⟨frames', hstack', hframes'⟩ := h'.stack
    refine ⟨frames' ++ frames, by rw [hstack', hstack, List.append_assoc], ?_⟩
    exact List.forall_mem_append.mpr ⟨hframes', hframes⟩
  scopes scope hscope := by
    cases h'.scopes scope hscope with
    | inl hold => exact h.scopes scope hold
    | inr hclean => exact .inr hclean

private theorem Adds.orFail {x : Except Fault Machine} (h : ∀ m', x = .ok m' → m.Adds m') :
    m.Adds (m.orFail x) := by
  cases x with
  | ok m' => exact h m' rfl
  | error e => exact .same rfl rfl

private theorem Adds.orFail_part {t : Tree} {i : Nat} {f : Tree → Except Fault Machine}
    (h : ∀ part m', f part = .ok m' → m.Adds m') : m.Adds (m.orFail (t.part i >>= f)) := by
  apply Adds.orFail
  intro m' hm'
  obtain ⟨part, -, hpart⟩ := bind_eq_ok.mp hm'
  exact h part m' hpart

private theorem Adds.give (x : Except Fault Float) : m.Adds (m.give x) := by
  cases x <;> exact .same rfl rfl

/-- A function is entered with a scope that was filled with checked parameters. -/
private theorem Adds.nextArgument {parameters : List String} {scope : Table String Float}
    (hparameters : ∀ name ∈ parameters, isBuiltIn name = false) (hscope : scope.Clean)
    (rest : List Tree) (body : Tree) : m.Adds (m.nextArgument parameters rest scope body) := by
  unfold Machine.nextArgument
  split
  · exact .push ⟨hparameters, hscope⟩
  · refine ⟨⟨[.activation], rfl, by simp [Frame.Clean]⟩, fun inner hinner => ?_⟩
    cases List.mem_cons.mp hinner with
    | inl heq => exact .inr (heq ▸ hscope)
    | inr hmem => exact .inl hmem

private theorem Adds.callFunction {w : World} {name : String} {arguments : Tree}
    (h : m.callFunction w name arguments = .ok m') : m.Adds m' := by
  obtain ⟨function, -, h⟩ := bind_eq_ok.mp h
  obtain ⟨parameters, -, h⟩ := bind_eq_ok.mp h
  obtain ⟨body, -, h⟩ := bind_eq_ok.mp h
  dsimp only at h
  split at h
  · cases h
  · split at h
    · cases h
    · next hfind =>
      cases h
      exact .nextArgument (unreserved_of_find? hfind) .empty _ _

private theorem Adds.call (w : World) (node : Tree) : m.Adds (m.call w node) := by
  apply Adds.orFail
  intro m' h
  obtain ⟨name, -, h⟩ := bind_eq_ok.mp h
  obtain ⟨arguments, -, h⟩ := bind_eq_ok.mp h
  split at h
  · obtain ⟨other, rfl⟩ := callBuiltIn_eq_ok h
    exact .same rfl rfl
  · obtain ⟨other, rfl⟩ := callBuiltIn_eq_ok h
    exact .same rfl rfl
  · exact .callFunction h

private theorem Adds.orFail_push {t : Tree} {i : Nat} {frame : Frame} {focus : Tree → Focus}
    (hframe : frame.Clean) :
    m.Adds (m.orFail (t.part i >>= fun part => pure (m.push frame (focus part)))) := by
  apply Adds.orFail_part
  intro part m' h
  cases h
  exact .push hframe

private theorem Adds.evaluate (w : World) (seat : Nat) (node : Tree) :
    m.Adds (m.evaluate w seat node) := by
  simp only [Machine.evaluate]
  split
  · split <;> exact .same rfl rfl
  · split
    · exact .give _
    · split
      · exact .call w node
      · exact .same rfl rfl
  · split
    · exact .orFail_push trivial
    · exact .same rfl rfl
  · split
    · apply Adds.orFail_part
      intro bug m' h
      obtain ⟨name, -, h⟩ := bind_eq_ok.mp h
      obtain ⟨other, -, h⟩ := bind_eq_ok.mp h
      cases h
      exact .same rfl rfl
    · apply Adds.orFail_push
      split <;> trivial
  · exact .same rfl rfl
  · exact .same rfl rfl

private theorem Adds.nextSection (definition : Tree) (rest : List Nat) :
    m.Adds (m.nextSection definition rest) := by
  cases rest with
  | nil => exact .same rfl rfl
  | cons i rest => exact .orFail_push trivial

private theorem Adds.nextInList (rest : List Tree) : m.Adds (m.nextInList rest) := by
  cases rest with
  | nil => exact .same rfl rfl
  | cons node rest => exact .push trivial

private theorem Adds.nextInBlock (rest : List Tree) : m.Adds (m.nextInBlock rest) := by
  cases rest with
  | nil => exact .same rfl rfl
  | cons node rest => exact .push trivial

private theorem Adds.nextOperand (node : Tree) (done : List Float) (rest : List Tree) :
    m.Adds (m.nextOperand node done rest) := by
  cases rest with
  | nil => exact .same rfl rfl
  | cons operand rest => exact .push trivial

private theorem Adds.nextCase (rest : List Tree) : m.Adds (m.nextCase rest) := by
  cases rest with
  | nil => exact .same rfl rfl
  | cons case rest => exact .orFail_push trivial

private theorem Adds.iterate (body : Tree) : m.Adds (m.iterate body) := .push trivial

private theorem Adds.perform (w : World) (node : Tree) : m.Adds (m.perform w node) := by
  simp only [Machine.perform]
  split
  · exact .nextSection _ _
  · exact .nextInList _
  · exact .same rfl rfl
  · apply Adds.orFail_part
    intro name m' h
    cases h
    exact .same rfl rfl
  · split <;> exact .same rfl rfl
  · exact .nextInBlock _
  · apply Adds.orFail_part
    intro name m' h
    obtain ⟨value, -, h⟩ := bind_eq_ok.mp h
    cases h
    exact .push trivial
  · apply Adds.orFail_part
    intro body m' h
    cases h
    have hcounted : m.Adds { m with memory := { m.memory with loopDepth := m.memory.loopDepth + 1 } } :=
      .same rfl rfl
    exact hcounted.trans (.iterate body)
  · exact .orFail_push trivial
  · exact .nextCase _
  · exact .orFail_push trivial
  · have hdiscard : m.Adds { m with stack := .discard :: m.stack } := .push trivial
    exact hdiscard.trans (.call w node)
  · apply Adds.orFail_part
    intro word m' h
    obtain ⟨color, -, h⟩ := bind_eq_ok.mp h
    cases h
    exact .same rfl rfl
  · split
    · exact .nextOperand _ _ _
    · exact .same rfl rfl

private theorem Adds.resumeValue (v : Float) {frame : Frame} (hframe : frame.Clean) :
    m.Adds (m.resumeValue v frame) := by
  cases frame with
  | unary operator => exact .give _
  | leftOperand node => exact .orFail_push trivial
  | rightOperand operator left => exact .give _
  | guard case =>
    simp only [Machine.resumeValue, Machine.afterGuard]
    split
    · exact .orFail_push trivial
    · exact .same rfl rfl
  | switchGuard case rest =>
    simp only [Machine.resumeValue, Machine.afterSwitchGuard]
    split
    · apply Adds.orFail_part
      intro body m' h
      cases h
      exact .same rfl rfl
    · exact .nextCase _
  | argument parameter parameters rest scope body =>
    obtain ⟨hnames, hscope⟩ := hframe
    rw [List.forall_mem_cons] at hnames
    exact .nextArgument hnames.2 (hscope.insert hnames.1 v) _ _
  | operand node done rest => exact .nextOperand _ _ _
  | _ => exact .same rfl rfl

private theorem Adds.leaveScope : m.Adds m.leaveScope :=
  ⟨⟨[], rfl, nofun⟩, fun _ hscope => .inl (List.mem_of_mem_tail hscope)⟩

private theorem Adds.resumeFlow (f : Flow) (frame : Frame) : m.Adds (m.resumeFlow f frame) := by
  cases frame with
  | activation => exact Adds.leaveScope.trans (.same rfl rfl)
  | block rest =>
    simp only [Machine.resumeFlow, Machine.afterInBlock]
    split
    · have hcleared : m.Adds { m with memory := { m.memory with exitPending := false } } :=
        .same rfl rfl
      exact hcleared.trans (.nextInBlock rest)
    · exact .same rfl rfl
  | list rest => exact .nextInList rest
  | sections definition rest => exact .nextSection definition rest
  | loop body =>
    cases f with
    | normal => exact .iterate body
    | returned | loopExit => exact .same rfl rfl
  | _ => exact .same rfl rfl

private theorem Adds.unwind (frame : Frame) : m.Adds (m.unwind frame) := by
  cases frame with
  | activation => exact .leaveScope
  | _ => exact .same rfl rfl

/-- No active call, and no call that is being prepared above the base, binds a built-in name. -/
structure Clean (base : List Frame) (m : Machine) : Prop where
  memory : m.memory.Clean
  stack : ∃ inner, m.stack = inner ++ base ∧ ∀ frame ∈ inner, frame.Clean

variable {base : List Frame}

private theorem Clean.adds (h : m.Clean base) (hadds : m.Adds m') : m'.Clean base where
  memory scope hscope := by
    cases hadds.scopes scope hscope with
    | inl hold => exact h.memory scope hold
    | inr hclean => exact hclean
  stack := by
    obtain ⟨inner, hstack, hinner⟩ := h.stack
    obtain ⟨frames, hstack', hframes⟩ := hadds.stack
    refine ⟨frames ++ inner, by rw [hstack', hstack, List.append_assoc], ?_⟩
    exact List.forall_mem_append.mpr ⟨hframes, hinner⟩

private theorem Clean.resume (h : m.Clean base) (hbusy : ¬ m.Returned base)
    (hresult : m.focus.isResult) {next : Machine → Frame → Machine}
    (hnext : ∀ (m : Machine) frame, frame.Clean → m.Adds (next m frame)) :
    (m.resume next).Clean base := by
  obtain ⟨inner, hstack, hinner⟩ := h.stack
  cases inner with
  | nil => exact absurd ⟨hstack, hresult⟩ hbusy
  | cons frame inner =>
    rw [List.forall_mem_cons] at hinner
    have hbelow : Clean base { m with stack := inner ++ base } := ⟨h.memory, inner, rfl, hinner.2⟩
    simp only [Machine.resume, hstack, List.cons_append]
    exact hbelow.adds (hnext _ frame hinner.1)

variable {seat : Nat} {s : Shared}

/-- **Step.** A step above the base binds no built-in name. -/
theorem Clean.step (h : m.Clean base) (hs : s.world.Clean seat) (hbusy : ¬ m.Returned base) :
    (m.step seat s).1.Clean base ∧ (m.step seat s).2.world.Clean seat := by
  unfold Machine.step
  cases hfocus : m.focus with
  | evaluate node => exact ⟨h.adds (.evaluate _ _ _), hs⟩
  | execute node =>
    refine ⟨h.adds ?_, hs⟩
    dsimp only
    split <;> exact .same rfl rfl
  | perform node => exact ⟨h.adds (.perform _ _), hs⟩
  | consult other question => exact ⟨h.adds (.give _), hs⟩
  | declare names =>
    cases names with
    | nil => exact ⟨h.adds (.same rfl rfl), hs⟩
    | cons name rest =>
      simp only [Machine.declare]
      split
      · exact ⟨h.adds (.same rfl rfl), hs⟩
      · next hname =>
        refine ⟨h.adds (.same rfl rfl), hs.modifyBug ?_⟩
        exact hs.own.insert (Bool.eq_false_iff.mpr hname) _
  | store name v =>
    simp only [Machine.store]
    split
    · next w' memory' hstored =>
      obtain ⟨hworld, hmemory⟩ := hs.store h.memory hstored
      exact ⟨⟨hmemory, h.stack⟩, hworld⟩
    · exact ⟨h.adds (.same rfl rfl), hs⟩
  | paint color => exact ⟨h.adds (.same rfl rfl), hs.modifyBug hs.own⟩
  | act node operands =>
    have hvars : ((s.world.bug seat).act node.text operands).1.vars.Clean := by
      rw [Bug.vars_act]
      exact hs.own
    simp only [Machine.act]
    split <;> exact ⟨h.adds (.same rfl rfl), hs.modifyBug hvars⟩
  | draw segment color => exact ⟨h.adds (.same rfl rfl), hs.own, hs.globals⟩
  | park => exact ⟨h.adds (.same rfl rfl), hs⟩
  | await =>
    refine ⟨h.adds ?_, hs⟩
    cases s.barrier.permit seat <;> exact .same rfl rfl
  | value v =>
    exact ⟨h.resume hbusy (by rw [hfocus]; rfl) fun _ _ hframe => .resumeValue v hframe, hs⟩
  | flow f =>
    exact ⟨h.resume hbusy (by rw [hfocus]; rfl) fun _ frame _ => .resumeFlow f frame, hs⟩
  | fault e => exact ⟨h.resume hbusy (by rw [hfocus]; rfl) fun _ frame _ => .unwind frame, hs⟩

/-- **Run.** As long as nobody else binds a built-in name, a run does not bind one. -/
theorem Clean.runs {env : Shared → Shared → Prop}
    (henv : ∀ s t, env s t → s.world.Clean seat → t.world.Clean seat) {d : Machine × Shared}
    (hrun : Runs seat env base (m, s) d) (h : m.Clean base) (hs : s.world.Clean seat) :
    d.1.Clean base ∧ d.2.world.Clean seat := by
  refine hrun.invariant (P := fun c => c.1.Clean base ∧ c.2.world.Clean seat) ?_ ⟨h, hs⟩
  intro m s t hc hbusy hst
  exact hc.1.step (henv s t hst hc.2) hbusy

end Machine

end DrawingBugs
