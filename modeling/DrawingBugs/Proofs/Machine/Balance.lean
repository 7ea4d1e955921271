import DrawingBugs.Proofs.Machine.Manners

/-!
# The balance of scopes and loops

There is a scope for every active call and a loop counted for every active loop, also on the way of
a fault. So what a machine evaluates or executes above a stack, whichever tree it is, hands its
result to a memory with as many scopes as before, of the same names, and as many loops.
-/

namespace DrawingBugs

theorem Memory.keys_setInScopes? {name : String} {v : Float} {scopes scopes' : List (Table String Float)}
    (h : Memory.setInScopes? name v scopes = some scopes') :
    scopes'.map Table.keys = scopes.map Table.keys := by
  induction scopes generalizing scopes' with
  | nil => cases h
  | cons scope outer ih =>
    rw [Memory.setInScopes?] at h
    split at h
    · cases h
      simp
    · obtain ⟨outer', houter, rfl⟩ := Option.map_eq_some_iff.mp h
      simp [ih houter]

/-- What may be said of the scopes of so many calls and of those around them: it lasts while calls
begin and end and while variables are set. -/
structure Layers (Q : Nat → List (Table String Float) → Prop) : Prop where
  enter : ∀ n scopes scope, Q n scopes → Q (n + 1) (scope :: scopes)
  leave : ∀ n scopes, Q (n + 1) scopes → Q n scopes.tail
  set : ∀ n scopes scopes' name v, Memory.setInScopes? name v scopes = some scopes' → Q n scopes →
    Q n scopes'

/-- The scopes around those of so many calls are of these names. -/
def Named (names : List (List String)) (n : Nat) (scopes : List (Table String Float)) : Prop :=
  ∃ inner, scopes.map Table.keys = inner ++ names ∧ inner.length = n

theorem Named.layers (names : List (List String)) : Layers (Named names) where
  enter n scopes scope := by
    rintro ⟨inner, hinner, rfl⟩
    exact ⟨scope.keys :: inner, by simp [hinner], rfl⟩
  leave n scopes := by
    rintro ⟨_ | ⟨own, inner⟩, hinner, hlength⟩
    · cases hlength
    · exact ⟨inner, by simp [hinner], Nat.succ.inj hlength⟩
  set n scopes scopes' name v h := by
    rintro ⟨inner, hinner, hlength⟩
    exact ⟨inner, (Memory.keys_setInScopes? h).trans hinner, hlength⟩

namespace Machine

/-- The scopes are as they are to be for as many calls as there are activations above the base; and
besides those of that number, a loop is counted for every loop above the base. -/
structure Balanced (Q : Nat → List (Table String Float) → Prop) (base : List Frame) (depth : Nat)
    (m : Machine) : Prop where
  scopes : ∃ n, n + activations base = activations m.stack ∧ Q n m.memory.scopes
  depth : m.memory.loopDepth + loops base = depth + loops m.stack

variable {M : Manner} {Q : Nat → List (Table String Float) → Prop} {base : List Frame} {depth : Nat}
  {last a : Aim} {m m' : Machine}

private theorem Balanced.restack (hm : m.Balanced Q base depth) {focus : Focus} {stack : List Frame}
    (hactivations : activations stack = activations m.stack) (hloops : loops stack = loops m.stack) :
    Machine.Balanced Q base depth { focus, stack, memory := m.memory } :=
  ⟨by simpa only [hactivations] using hm.scopes, by simpa only [hloops] using hm.depth⟩

private theorem Balanced.pop {frame : Frame} {stack : List Frame} (hm : m.Balanced Q base depth)
    (hstack : m.stack = frame :: stack) (hactivation : frame.isActivation = false)
    (hloop : frame.isLoop = false) : Machine.Balanced Q base depth { m with stack } :=
  hm.restack (by simp [hstack, activations_cons, hactivation]) (by simp [hstack, loops_cons, hloop])

private theorem Balanced.leaveLoop {body : Tree} {stack : List Frame} (hm : m.Balanced Q base depth)
    (hstack : m.stack = .loop body :: stack) (hbase : base <:+ stack) :
    (Machine.leaveLoop { m with stack }).Balanced Q base depth := by
  have hscopes := hm.scopes
  have hdepth := hm.depth
  have hcount := loops_le_of_suffix hbase
  simp only [hstack, activations_cons, loops_cons, Frame.isActivation, Frame.isLoop, if_true]
    at hscopes hdepth
  refine ⟨hscopes, ?_⟩
  simp only [Machine.leaveLoop]
  omega

section

variable (hQ : Layers Q)
include hQ

private theorem Balanced.goesOn (h : M.GoesOn a m m') (hm : m.Balanced Q base depth) :
    m'.Balanced Q base depth := by
  induction h with
  | turn => exact hm.restack rfl rfl
  | push _ _ hactivation hloop =>
    exact hm.restack (by simp [activations_cons, hactivation]) (by simp [loops_cons, hloop])
  | @enter m scope body =>
    obtain ⟨n, hn, hscopes⟩ := hm.scopes
    refine ⟨⟨n + 1, ?_, hQ.enter n _ scope hscopes⟩, hm.depth⟩
    simp only [enter, activations_cons, Frame.isActivation, if_true]
    omega
  | enterLoop =>
    have hdepth := hm.depth
    refine ⟨hm.scopes, ?_⟩
    simp only [enterLoop, iterate, push, loops_cons, Frame.isLoop, if_true]
    omega
  | define => exact ⟨hm.scopes, hm.depth⟩
  | call _ ih => exact ih (hm.restack rfl rfl)

private theorem Balanced.leaveScope {stack : List Frame} (hm : m.Balanced Q base depth)
    (hstack : m.stack = .activation :: stack) (hbase : base <:+ stack) :
    (Machine.leaveScope { m with stack }).Balanced Q base depth := by
  obtain ⟨n, hn, hscopes⟩ := hm.scopes
  have hdepth := hm.depth
  have hcount := activations_le_of_suffix hbase
  simp only [hstack, activations_cons, loops_cons, Frame.isActivation, Frame.isLoop, if_true]
    at hn hdepth
  cases n with
  | zero => omega
  | succ n => exact ⟨⟨n, by simp only [Machine.leaveScope]; omega, hQ.leave n _ hscopes⟩, hdepth⟩

private theorem Balanced.turn (h : M.Turn m m') (hm : m.Balanced Q base depth)
    (hbase : ∀ frame stack, m.focus.isResult → m.stack = frame :: stack → base <:+ stack) :
    m'.Balanced Q base depth := by
  cases h with
  | go _ _ h => exact hm.goesOn hQ h
  | assign _ hset =>
    obtain ⟨n, hn, hscopes⟩ := hm.scopes
    exact ⟨⟨n, hn, hQ.set n _ _ _ _ hset hscopes⟩, hm.depth⟩
  | answer _ hstack hawaits h =>
    have hpop := hm.pop hstack (Frame.isActivation_of_awaits hawaits) (Frame.isLoop_of_awaits hawaits)
    exact hpop.goesOn hQ h
  | «return» _ hstack =>
    have hpop := hm.pop hstack rfl rfl
    exact ⟨hpop.scopes, hpop.depth⟩
  | ignore _ _ hstack hactivation hloop h => exact (hm.pop hstack hactivation hloop).goesOn hQ h
  | next _ _ hstack h => exact (hm.pop hstack rfl rfl).goesOn hQ h
  | exit _ _ hstack =>
    have hpop := hm.pop hstack rfl rfl
    exact ⟨hpop.scopes, hpop.depth⟩
  | skip _ _ _ hstack => exact hm.pop hstack rfl rfl
  | leave hfocus hstack =>
    have hleft := hm.leaveScope hQ hstack (hbase _ _ (by rw [hfocus]; rfl) hstack)
    exact ⟨hleft.scopes, hleft.depth⟩
  | iterate => exact hm.restack rfl rfl
  | endLoop hfocus _ hstack =>
    have hleft := hm.leaveLoop hstack (hbase _ _ (by rw [hfocus]; rfl) hstack)
    exact hleft.restack rfl rfl
  | @unwind e frame stack hfocus hstack =>
    have hbase := hbase _ _ (by rw [hfocus]; rfl) hstack
    cases frame with
    | activation => exact hm.leaveScope hQ hstack hbase
    | loop body => exact hm.leaveLoop hstack hbase
    | _ => exact hm.pop hstack rfl rfl

/-- A step above a base keeps the balance. -/
theorem Balanced.step (hm : m.Balanced Q base depth) (hworks : M.Works base last m)
    (hbusy : ¬ m.Returned base) (h : M.Turn m m') : m'.Balanced Q base depth := by
  refine hm.turn hQ h fun frame stack hresult hstack => ?_
  exact (hworks.inner (fun hbase => hbusy ⟨hbase, hresult⟩) hstack).2.2.suffix

theorem Runs.balanced {seat : Nat} {env : Shared → Shared → Prop} {c d : Machine × Shared}
    (hrun : Runs seat env base c d) (hworks : Manner.any.Works base last c.1)
    (hbalanced : c.1.Balanced Q base depth) : d.1.Balanced Q base depth := by
  refine (hrun.invariant (P := fun c => Manner.any.Works base last c.1 ∧
    c.1.Balanced Q base depth) (fun m s t h hbusy _ => ?_) ⟨hworks, hbalanced⟩).2
  obtain ⟨hturn, hworks'⟩ := Manner.any_turn h.1 hbusy seat t
  exact ⟨hworks', h.2.step hQ h.1 hbusy hturn⟩

end

/-- **Balance.** When what is evaluated or executed returns, whatever its outcome, there are as many
scopes as before, of the same names, and as many loops. -/
theorem scopes_and_loops_balanced {seat : Nat} {env : Shared → Shared → Prop} {m m' : Machine}
    {s s' : Shared} {t : Tree}
    (hfocus : m.focus = .evaluate t ∨ m.focus = .execute t)
    (hrun : Runs seat env m.stack (m, s) (m', s')) (hreturned : m'.Returned m.stack) :
    m'.memory.scopes.length = m.memory.scopes.length ∧
      m'.memory.scopes.map Table.keys = m.memory.scopes.map Table.keys ∧
      m'.memory.loopDepth = m.memory.loopDepth := by
  have hworks : ∃ last, Manner.any.Works m.stack last m := by
    rcases hfocus with hfocus | hfocus
    · exact ⟨.value, .start (by rw [hfocus]; trivial) (by rw [hfocus]; rfl)⟩
    · exact ⟨.flow, .start (by rw [hfocus]; trivial) (by rw [hfocus]; rfl)⟩
  obtain ⟨last, hworks⟩ := hworks
  have hbalanced : m.Balanced (Named (m.memory.scopes.map Table.keys)) m.stack m.memory.loopDepth :=
    ⟨⟨0, Nat.zero_add _, [], rfl, rfl⟩, rfl⟩
  obtain ⟨⟨n, hn, inner, hinner, hlength⟩, hdepth⟩ :=
    hrun.balanced (Named.layers _) hworks hbalanced
  rw [hreturned.1] at hn hdepth
  have hnone : inner = [] := List.length_eq_zero_iff.mp (hlength.trans (Nat.add_eq_right.mp hn))
  have hnames : m'.memory.scopes.map Table.keys = m.memory.scopes.map Table.keys := by
    rw [hinner, hnone, List.nil_append]
  refine ⟨?_, hnames, Nat.add_right_cancel hdepth⟩
  simpa only [List.length_map] using congrArg List.length hnames

/-- A function whose loop reads a variable that there is not. -/
private def ghostLoop : Tree :=
  .labeled "function" [.labeled "astray" [], .labeled "var" [.labeled "p" []],
    .labeled "block" [.labeled "loop" [.labeled "block" [.labeled "return" [.labeled "ghost" []]]]]]

/-- Inside three loops of a function with the parameter `a`, that function is called. -/
private def straying : Machine :=
  .evaluating ⟨[("astray", ghostLoop)], [[("a", 1.0)]], 0.0, 3, false⟩
    (.labeled "call" [.labeled "astray" [], .labeled "var" [.labeled "a" []]])

theorem scopes_and_loops_balanced_astray :
    ∃ c, Runs 0 Eq [] (straying, Shared.alone) c ∧ c.1.Returned [] ∧
      c.1.focus = .fault (.undefinedVariable "ghost") ∧
      c.1.memory.scopes.map Table.keys = [["a"]] ∧ c.1.memory.loopDepth = 3 := by
  obtain ⟨c, hrun, hfailed⟩ := Runs.exists_of_advance (by decide +kernel :
    (advance 0 [].length 17 (straying, Shared.alone)).any (fun c => c.1.stack.isEmpty &&
      match c.1.focus with
      | .fault e => e = .undefinedVariable "ghost"
      | _ => false) = true)
  obtain ⟨hstack, hfault⟩ := Bool.and_eq_true_iff.mp hfailed
  split at hfault
  · next e hfocus =>
    obtain rfl := of_decide_eq_true hfault
    have hreturned : c.1.Returned [] := ⟨List.isEmpty_iff.mp hstack, by rw [hfocus]; rfl⟩
    obtain ⟨-, hnames, hdepth⟩ := scopes_and_loops_balanced (m := straying) (.inl rfl) hrun hreturned
    exact ⟨c, hrun, hreturned, hfocus, hnames, hdepth⟩
  · cases hfault

end Machine

end DrawingBugs
