import DrawingBugs.Proofs.Machine.Balance
import DrawingBugs.Proofs.Simulation.Code

/-!
# The isolation of parameters

Names are looked for in the scopes of all active calls, the innermost first. As long as a function
runs, its own scope stands between the calls that it makes and everything around it: whatever is
assigned to one of its parameters, at whatever depth, it never gets past that scope.
-/

namespace DrawingBugs

namespace Table

variable {κ α : Type} [DecidableEq κ]

private theorem contains_update (t : Table κ α) (key k : κ) (f : α → α) :
    (t.update key f).contains k = t.contains k := by
  simp only [contains, get?_update]
  split <;> simp

end Table

namespace Memory

private theorem map_get?_setInScopes? {name other : String} {v : Float}
    {scopes scopes' : List (Table String Float)} (h : setInScopes? other v scopes = some scopes')
    (hne : other ≠ name) : scopes'.map (·.get? name) = scopes.map (·.get? name) := by
  induction scopes generalizing scopes' with
  | nil => cases h
  | cons scope outer ih =>
    rw [setInScopes?] at h
    split at h
    · cases h
      simp [hne]
    · obtain ⟨outer', houter, rfl⟩ := Option.map_eq_some_iff.mp h
      simp [ih houter]

private theorem setInScopes?_of_contains {name : String} {v : Float}
    {scopes : List (Table String Float)}
    (h : ∃ scope ∈ scopes, scope.contains name) : (setInScopes? name v scopes).isSome := by
  induction scopes with
  | nil => simp at h
  | cons scope outer ih =>
    rw [setInScopes?]
    split
    · rfl
    · next hunbound =>
      rw [Option.isSome_map]
      exact ih (by simpa [hunbound] using h)

end Memory

/-- Around those of so many calls there is a scope that binds the name, and around it the name has
these values. -/
def Shielded (name : String) (outer : List (Option Float)) (n : Nat)
    (scopes : List (Table String Float)) : Prop :=
  ∃ inner own rest, scopes = inner ++ own :: rest ∧ inner.length = n ∧ own.contains name ∧
    rest.map (·.get? name) = outer

variable {name : String} {outer : List (Option Float)}

private theorem Shielded.set {n : Nat} {scopes scopes' : List (Table String Float)} {other : String}
    {v : Float} (hset : Memory.setInScopes? other v scopes = some scopes')
    (h : Shielded name outer n scopes) : Shielded name outer n scopes' := by
  obtain ⟨inner, own, rest, rfl, rfl, hown, hrest⟩ := h
  induction inner generalizing scopes' with
  | nil =>
    rw [List.nil_append, Memory.setInScopes?] at hset
    split at hset
    · cases hset
      exact ⟨[], _, rest, rfl, rfl, by rwa [Table.contains_update], hrest⟩
    · next hunbound =>
      obtain ⟨rest', hrest', rfl⟩ := Option.map_eq_some_iff.mp hset
      have hne : other ≠ name := fun he => hunbound (he ▸ hown)
      exact ⟨[], own, rest', rfl, rfl, hown, (Memory.map_get?_setInScopes? hrest' hne).trans hrest⟩
  | cons scope inner ih =>
    rw [List.cons_append, Memory.setInScopes?] at hset
    split at hset
    · cases hset
      exact ⟨_ :: inner, own, rest, rfl, rfl, hown, hrest⟩
    · obtain ⟨scopes'', hscopes, rfl⟩ := Option.map_eq_some_iff.mp hset
      obtain ⟨inner', own', rest', rfl, hlength, hown', hrest'⟩ := ih hscopes
      exact ⟨scope :: inner', own', rest', rfl, by simp [hlength], hown', hrest'⟩

private theorem Shielded.layers (name : String) (outer : List (Option Float)) :
    Layers (Shielded name outer) where
  enter n scopes scope := by
    rintro ⟨inner, own, rest, rfl, rfl, hown, hrest⟩
    exact ⟨scope :: inner, own, rest, rfl, rfl, hown, hrest⟩
  leave n scopes := by
    rintro ⟨_ | ⟨first, inner⟩, own, rest, rfl, hlength, hown, hrest⟩
    · cases hlength
    · exact ⟨inner, own, rest, rfl, Nat.succ.inj hlength, hown, hrest⟩
  set n scopes scopes' other v hset h := h.set hset

private theorem Shielded.contains {n : Nat} {scopes : List (Table String Float)}
    (h : Shielded name outer n scopes) : ∃ scope ∈ scopes, scope.contains name := by
  obtain ⟨inner, own, rest, rfl, -, hown, -⟩ := h
  exact ⟨own, by simp, hown⟩

/-! ## What is shared -/

namespace World

/-- The bug at a seat and the world have the variable as before. -/
def SameVariable (seat : Nat) (name : String) (w w' : World) : Prop :=
  (w'.bug seat).vars.get? name = (w.bug seat).vars.get? name ∧ w'.global? name = w.global? name

variable {seat : Nat} {w : World}

private theorem SameVariable.refl (w : World) : SameVariable seat name w w := ⟨rfl, rfl⟩

private theorem SameVariable.modifyBug {f : Bug → Bug}
    (hf : (f (w.bug seat)).vars.get? name = (w.bug seat).vars.get? name) :
    SameVariable seat name w (w.modifyBug seat f) := by
  refine ⟨?_, rfl⟩
  by_cases hseat : seat < w.bugs.length
  · rw [bug_modifyBug hseat, hf]
  · simp [bug, World.modifyBug, hseat]

private theorem SameVariable.store {memory memory' : Memory} {other : String} {v : Float}
    {w' : World} (hbound : ∃ scope ∈ memory.scopes, scope.contains name)
    (h : w.store seat memory other v = .ok (w', memory')) : SameVariable seat name w w' := by
  unfold World.store at h
  split at h
  · cases h
    exact .modifyBug (by rw [Bug.vars_setBuiltIn])
  split at h
  · cases h
    exact .refl w
  next hlocal =>
    have hne : other ≠ name := by
      rintro rfl
      have hset := Memory.setInScopes?_of_contains (v := v) hbound
      rw [Memory.setLocal?, Option.map_eq_none_iff] at hlocal
      rw [hlocal] at hset
      cases hset
    split at h
    · next hset =>
      cases h
      rcases Option.or_eq_some_iff.mp hset with hown | ⟨-, hglobal⟩
      · unfold World.setOwn? at hown
        split at hown <;> cases hown
        exact .modifyBug (by simp [hne])
      · unfold World.setGlobal? at hglobal
        split at hglobal <;> cases hglobal
        exact ⟨rfl, by simp [global?, hne]⟩
    · cases h

end World

namespace Machine

private theorem sameVariable_step {M : Manner} (houtlying : ¬ M.outlying) {m : Machine}
    (hfocus : m.focus.Offers M) (hbound : ∃ scope ∈ m.memory.scopes, scope.contains name)
    (seat : Nat) (s : Shared) : World.SameVariable seat name s.world (m.step seat s).2.world := by
  unfold Machine.step
  cases hm : m.focus <;> rw [hm] at hfocus
  case declare names => exact absurd hfocus houtlying
  case store other v =>
    simp only [Machine.store]
    split
    · next hstored => exact .store hbound hstored
    · exact .refl _
  case paint color => exact .modifyBug rfl
  case act node operands =>
    simp only [Machine.act]
    split <;> exact .modifyBug (by rw [Bug.vars_act])
  all_goals exact ⟨rfl, rfl⟩

end Machine

/-! ## What a function reaches -/

/-- A node of the tree calls a function of that name. -/
def Tree.Calls (t : Tree) (name : String) : Prop :=
  ∃ u ∈ t.nodes, u.text = "call" ∧ (u.child? 0).map Tree.text = some name

/-- The bodies that can be executed when the first one is: it itself, and those of the functions that
they call. -/
inductive ReachesBody (own shared : Table String Tree) (body : Tree) : Tree → Prop
  | self : ReachesBody own shared body body
  | call {t function called : Tree} {name : String} (ht : ReachesBody own shared body t)
    (hcalls : t.Calls name) (hfound : (own.get? name).or (shared.get? name) = some function)
    (hcalled : function.part 2 = .ok called) : ReachesBody own shared body called

private theorem ReachesBody.isBlock {own shared : Table String Tree} {body c : Tree}
    (hwritten : FindsWritten own shared) (hbody : body.IsBlock) (h : ReachesBody own shared body c) :
    c.IsBlock := by
  cases h with
  | self => exact hbody
  | call _ _ hfound hcalled =>
    obtain ⟨hblock⟩ := hwritten _ _ hfound
    cases hcalled
    exact hblock

/-- The blocks, commands and expressions in the bodies that can be reached. -/
abbrev Manner.reached (own shared : Table String Tree) (body : Tree) : Manner :=
  .written (fun t => ∃ c, ReachesBody own shared body c ∧ t ∈ c.nodes) fun t =>
    t.IsBlock ∧ ReachesBody own shared body t

namespace Manner

variable {own shared : Table String Tree} {body : Tree}

private theorem reached_settled : (reached own shared body).Settled := by
  refine written_settled ?_ fun t ht => ⟨ht.1, t, ht.2, t.mem_nodes_self⟩
  rintro t ⟨c, hc, ht⟩ child hchild
  exact ⟨c, hc, Tree.mem_nodes_of_child hchild c ht⟩

private theorem reached_finds (hwritten : ∀ c, ReachesBody own shared body c → c.IsBlock) :
    (reached own shared body).Finds own shared := by
  intro t name function ht htext hname hfound
  obtain ⟨c, hc, hnode⟩ : ∃ c, ReachesBody own shared body c ∧ t ∈ c.nodes := by
    rcases ht with ht | ht <;> exact ht.2
  have hcalls : c.Calls name.text := by
    refine ⟨t, hnode, htext, ?_⟩
    rw [show t.child? 0 = some name from Tree.part_eq_ok.mp hname, Option.map_some]
  refine ⟨written_comes, ?_⟩
  cases hcalled : function.part 2 with
  | ok called =>
    have hreach := ReachesBody.call hc hcalls hfound hcalled
    exact ⟨hwritten called hreach, hreach⟩
  | error e => trivial

end Manner

namespace Machine

variable {base : List Frame} {m : Machine} {s : Shared} {seat : Nat}

/-- While the function above the base runs, whatever it calls, its scope shields what is around. -/
private theorem Runs.shielded {body : Tree} {depth : Nat} {d : Machine × Shared}
    (hwritten : ∀ c, ReachesBody m.memory.functions s.world.functions body c → c.IsBlock)
    (hfocus : m.focus = .execute body) (hbalanced : m.Balanced (Shielded name outer) m.stack depth)
    (hrun : Runs seat Eq m.stack (m, s) d) :
    d.1.Balanced (Shielded name outer) m.stack depth ∧
      World.SameVariable seat name s.world d.2.world := by
  have hworks : (Manner.reached m.memory.functions s.world.functions body).Works m.stack .flow m :=
    .start (by
      rw [hfocus]
      exact ⟨.inr (hwritten body .self), body, .self, body.mem_nodes_self⟩) (by rw [hfocus]; rfl)
  refine (hrun.settled Manner.reached_settled (fun s t hst => by rw [hst])
    (P := fun d => d.1.Balanced (Shielded name outer) m.stack depth ∧
      World.SameVariable seat name s.world d.2.world) ?_ hworks (Manner.reached_finds hwritten)
    ⟨hbalanced, .refl _⟩).2.2
  rintro m' s' _ hworks' hbusy rfl ⟨hbalanced', hsame⟩ hturn
  refine ⟨hbalanced'.step (Shielded.layers name outer) hworks' hbusy hturn, ?_⟩
  obtain ⟨n, -, hshielded⟩ := hbalanced'.scopes
  have hstep := sameVariable_step id hworks'.focus hshielded.contains seat s'
  exact ⟨hstep.1.trans hsame.1, hstep.2.trans hsame.2⟩

/-- When the function above the base has returned, nothing around its scope has changed. -/
private theorem Runs.isolated {body : Tree} {own : Table String Float}
    {rest : List (Table String Float)} {d : Machine × Shared}
    (hwritten : ∀ c, ReachesBody m.memory.functions s.world.functions body c → c.IsBlock)
    (hfocus : m.focus = .execute body) (hstack : m.stack = .activation :: base)
    (hscopes : m.memory.scopes = own :: rest) (hown : own.contains name)
    (hrun : Runs seat Eq base (m, s) d) (hreturned : d.1.Returned base) :
    d.1.memory.scopes.map (·.get? name) = rest.map (·.get? name) ∧
      World.SameVariable seat name s.world d.2.world := by
  have hworks : Manner.any.Works m.stack .flow m :=
    .start (by rw [hfocus]; trivial) (by rw [hfocus]; rfl)
  have hbalanced : m.Balanced (Shielded name (rest.map (·.get? name))) m.stack m.memory.loopDepth :=
    ⟨⟨0, Nat.zero_add _, [], own, rest, hscopes, rfl, hown, rfl⟩, rfl⟩
  rw [hstack] at hworks
  rcases Manner.any_runs_function hrun hworks with hinside | ⟨m', s', _, hto, hleft, rfl, rfl⟩
  · obtain ⟨a, hexpects, -⟩ := (Manner.any_runs hinside hworks).stack
    have hlength := hexpects.suffix.length_le
    rw [hreturned.1, List.length_cons] at hlength
    omega
  · obtain ⟨-, hscopes', -⟩ := step_of_returned seat (Manner.any_runs hto hworks) hleft s'
    rw [← hstack] at hto
    obtain ⟨⟨⟨n, hn, inner, own', rest', hshield, hinner, -, houter⟩, -⟩, hsame⟩ :=
      hto.shielded hwritten hfocus hbalanced
    rw [hstack, hleft.1, Nat.add_eq_right] at hn
    obtain rfl := List.length_eq_zero_iff.mp (hinner.trans hn)
    rw [hscopes', hshield, shared_step_of_isResult hleft.2]
    exact ⟨houter, hsame⟩

private theorem Runs.keys_of_enter {caller m₁ : Machine} {scope : Table String Float} {body : Tree}
    {s s₁ : Shared} (hrun : Runs seat Eq caller.stack (caller.enter scope body, s) (m₁, s₁))
    (hstack : m₁.stack = .activation :: caller.stack) :
    ∃ own outer, m₁.memory.scopes = own :: outer ∧ own.keys = scope.keys := by
  have hworks : Manner.any.Works (.activation :: caller.stack) .flow (caller.enter scope body) :=
    .start (m := caller.enter scope body) trivial rfl
  rcases Manner.any_runs_function hrun hworks with hinside | ⟨m', s', _, hto, hleft, rfl, hend⟩
  · have hbalanced : (caller.enter scope body).Balanced
        (Named (scope.keys :: caller.memory.scopes.map Table.keys)) (.activation :: caller.stack)
        caller.memory.loopDepth := ⟨⟨0, Nat.zero_add _, [], rfl, rfl⟩, rfl⟩
    obtain ⟨⟨n, hn, inner, hinner, hlength⟩, -⟩ :=
      hinside.balanced (Named.layers _) hworks hbalanced
    rw [hstack, Nat.add_eq_right] at hn
    obtain rfl := List.length_eq_zero_iff.mp (hlength.trans hn)
    obtain ⟨own, outer, hscopes, hkeys, -⟩ := List.map_eq_cons_iff.mp hinner
    exact ⟨own, outer, hscopes, hkeys⟩
  · have hdone := (step_of_returned seat (Manner.any_runs hto hworks) hleft s').1.1
    rw [← hend, hstack] at hdone
    exact absurd hdone (List.cons_ne_self _ _)

/-- When the arguments of a call are there, the scope of the function binds every parameter. -/
private theorem Runs.binds {parameters : List String} {rest : List Tree}
    {scope : Table String Float} {body : Tree} {caller m₁ : Machine} {s s₁ : Shared}
    (hcount : parameters.length = rest.length)
    (hrun : Runs seat Eq caller.stack (caller.nextArgument parameters rest scope body, s) (m₁, s₁))
    (hstack : m₁.stack = .activation :: caller.stack) :
    ∃ own outer, m₁.memory.scopes = own :: outer ∧
      ∀ name, name ∈ parameters ∨ scope.contains name → own.contains name := by
  induction parameters generalizing rest scope caller s with
  | nil =>
    obtain rfl : rest = [] := List.length_eq_zero_iff.mp hcount.symm
    obtain ⟨own, outer, hscopes, hkeys⟩ := hrun.keys_of_enter hstack
    refine ⟨own, outer, hscopes, fun name hname => ?_⟩
    rw [Table.contains_iff_mem_keys, hkeys, ← Table.contains_iff_mem_keys]
    exact hname.resolve_left List.not_mem_nil
  | cons parameter parameters ih =>
    cases rest with
    | nil => cases hcount
    | cons argument rest =>
      have hworks : Manner.any.Works (.argument parameter parameters rest scope body :: caller.stack)
          .value (caller.push (.argument parameter parameters rest scope body) (.evaluate argument)) :=
        .start (m := caller.push _ (.evaluate argument)) trivial rfl
      rcases Manner.any_runs_inner hrun hworks with hinside | ⟨m', s', _, hto, hleft, rfl, hfrom⟩
      · have hwhole := (Manner.any_runs hinside hworks).stack_eq (by rw [hstack]; rfl)
        rw [hstack] at hwhole
        cases hwhole
      · have hstack' : m'.stack = .argument parameter parameters rest scope body :: caller.stack :=
          hleft.1
        have hworks' : Manner.any.Works _ .value m' := Manner.any_runs hto hworks
        rcases value_or_fault hworks' hleft with ⟨v, hfocus⟩ | ⟨e, hfocus⟩
        · have hstep : m'.step seat s' = (Machine.nextArgument { m' with stack := caller.stack }
              parameters rest (scope.insert parameter v) body, s') := by
            simp only [Machine.step, hfocus, resume, hstack', resumeValue]
          rw [hstep] at hfrom
          obtain ⟨own, outer, hscopes, hbinds⟩ := @ih rest (scope.insert parameter v)
            { m' with stack := caller.stack } s' (Nat.succ.inj hcount) hfrom hstack
          refine ⟨own, outer, hscopes, fun name hname => hbinds name ?_⟩
          rw [List.mem_cons] at hname
          by_cases hsame : parameter = name
          · simp [Table.contains, hsame]
          · simpa [Table.contains, hsame, Ne.symm hsame] using hname
        · have hstep : m'.step seat s' = (⟨.fault e, caller.stack, m'.memory⟩, s') := by
            simp only [Machine.step, hfocus, resume, hstack', unwind]
          rw [hstep] at hfrom
          cases hfrom.eq_of_returned ⟨rfl, rfl⟩
          exact absurd hstack.symm (List.cons_ne_self _ _)

private theorem callFunction_of_named {m₀ : Machine} {w : World} {called : String}
    {arguments function parameters body : Tree} (h : m.callFunction w called arguments = .ok m₀)
    (hfunction : m.functionNamed w called = .ok function)
    (hparameters : function.part 1 = .ok parameters) (hbody : function.part 2 = .ok body) :
    parameters.children.length = arguments.children.length ∧
      m₀ = m.nextArgument (parameters.children.map Tree.text) arguments.children [] body := by
  obtain ⟨_, hsame, h⟩ := bind_eq_ok.mp h
  obtain rfl := Except.ok.inj (hfunction.symm.trans hsame)
  obtain ⟨_, hsame, h⟩ := bind_eq_ok.mp h
  obtain rfl := Except.ok.inj (hparameters.symm.trans hsame)
  obtain ⟨_, hsame, h⟩ := bind_eq_ok.mp h
  obtain rfl := Except.ok.inj (hbody.symm.trans hsame)
  dsimp only at h
  split at h
  · cases h
  · next hcount =>
    split at h
    · cases h
    · exact ⟨Decidable.not_not.mp hcount, (Except.ok.inj h).symm⟩

/-- **Isolation.** When a call of a function has returned, or failed, the names of its parameters have
the values that they had when its arguments had been evaluated: in all scopes around the call, among
the bug's own variables, and among the shared ones. -/
theorem parameters_isolated {m₀ m₁ : Machine} {s₀ s₁ : Shared} {d : Machine × Shared} {called : String}
    {arguments function parameters body : Tree}
    (hcall : m.callFunction s₀.world called arguments = .ok m₀)
    (hfunction : m.functionNamed s₀.world called = .ok function)
    (hparameters : function.part 1 = .ok parameters) (hbody : function.part 2 = .ok body)
    (harguments : Runs seat Eq m.stack (m₀, s₀) (m₁, s₁))
    (hstack : m₁.stack = .activation :: m.stack) (hfocus : m₁.focus = .execute body)
    (hwritten : ∀ c, ReachesBody m₁.memory.functions s₁.world.functions body c → c.IsBlock)
    (hrun : Runs seat Eq m.stack (m₁, s₁) d) (hreturned : d.1.Returned m.stack) :
    ∀ name ∈ parameters.children.map Tree.text,
      d.1.memory.scopes.map (·.get? name) = m₁.memory.scopes.tail.map (·.get? name) ∧
        (d.2.world.bug seat).vars.get? name = (s₁.world.bug seat).vars.get? name ∧
        d.2.world.global? name = s₁.world.global? name := by
  obtain ⟨hcount, rfl⟩ := callFunction_of_named hcall hfunction hparameters hbody
  obtain ⟨own, outer, hscopes, hbinds⟩ := harguments.binds (by simpa using hcount) hstack
  intro name hname
  obtain ⟨hvalues, hown, hglobal⟩ :=
    hrun.isolated hwritten hfocus hstack hscopes (hbinds name (.inl hname)) hreturned
  rw [hscopes]
  exact ⟨hvalues, hown, hglobal⟩

section Sample

open DrawingBugs.Tree

private def readP : Tree := .leaf ⟨.name, "p", ⟨1, 1⟩⟩

private def setP (v : String) : Tree := .labeled "assign" [readP, .leaf (.ofText v)]

private def bumpBody : List Tree := [setP "6", callOf "poke" []]

private def bump : Tree := functionOf "bump" ["p"] bumpBody

/-- The first function sets its parameter and calls the second one, which sets it too. -/
private def bumpPoke : Table String Tree := [("bump", bump), ("poke", functionOf "poke" [] [setP "7"])]

private def listOf (t : Tree) : Tree := .labeled "var" [t]

/-- A shared variable, one of the bug's own and a parameter of the caller are all named `p`. -/
private def crowded : Shared :=
  ⟨{ World.empty with
      globals := [("p", 1.0)]
      bugs := [{ Bug.newborn 0 "crowded" with vars := [("p", 2.0)] }] }, .unsupervised⟩

private def bumping : Machine := ⟨.flow .normal, [], ⟨bumpPoke, [[("p", 3.0)]], 0.0, 0, false⟩⟩

/-- The argument has been evaluated. -/
private def bumped : Machine :=
  ⟨.execute (.labeled "block" bumpBody), [.activation],
    ⟨bumpPoke, [[("p", 3.0)], [("p", 3.0)]], 0.0, 0, false⟩⟩

private theorem isCommand_setP {v : String} (hkind : (Token.ofText v).kind = .number)
    (hread : (Number.read? (Token.ofText v).text).isSome) : (setP v).IsCommand :=
  .assign (by decide) (.number hkind hread)

private theorem isCommand_bumpBody : ∀ t ∈ bumpBody, t.IsCommand := by
  simp only [bumpBody, List.forall_mem_cons]
  exact ⟨isCommand_setP rfl (by decide +kernel), .call nofun, nofun⟩

private theorem findsWritten_bumpPoke : FindsWritten bumpPoke World.empty.functions := by
  refine findsWritten_of_mem ?_ nofun
  simp only [bumpPoke, List.forall_mem_cons]
  exact ⟨isFunction_functionOf isCommand_bumpBody,
    isFunction_functionOf (by simpa using isCommand_setP rfl (by decide +kernel)), nofun⟩

/-- Both functions set the parameter, and the caller has its own `p` as before. -/
theorem parameters_isolated_bump :
    ∃ d, Runs 0 Eq [] (bumped, crowded) d ∧ d.1.Returned [] ∧
      d.1.memory.scopes.map (·.get? "p") = [some 3.0] ∧
      (d.2.world.bug 0).vars.get? "p" = some 2.0 ∧ d.2.world.global? "p" = some 1.0 := by
  have hcall : bumping.callFunction crowded.world "bump" (listOf readP) =
      .ok (bumping.nextArgument ["p"] [readP] [] (.labeled "block" bumpBody)) := rfl
  have hfunction : bumping.functionNamed crowded.world "bump" = .ok bump := rfl
  have harguments : Runs 0 Eq [] (bumping.nextArgument ["p"] [readP] [] (.labeled "block" bumpBody),
      crowded) (bumped, crowded) := .of_advance (fun _ => rfl) (n := 2) rfl
  obtain ⟨d, hrun, hd⟩ := Runs.exists_of_advance (by decide +kernel : (advance 0 [].length 22
    (bumped, crowded)).any (fun c => c.1.stack.isEmpty && c.1.focus.isResult) = true)
  rw [Bool.and_eq_true, List.isEmpty_iff] at hd
  obtain ⟨hscopes, hown, hglobal⟩ := parameters_isolated hcall hfunction rfl rfl harguments rfl rfl
    (fun c hc => hc.isBlock findsWritten_bumpPoke (.block isCommand_bumpBody)) hrun hd "p" (by decide)
  exact ⟨d, hrun, hd, hscopes, hown, hglobal⟩

end Sample

end Machine

end DrawingBugs
