import DrawingBugs.Proofs.Machine.Isolation

/-!
# Resolution of names

A name can be bound in many places at once. The bug at a seat looks it up at the places that it
sees, one after another, and the first one that binds it counts. Reading gives what is bound there,
and writing changes it there and nowhere else.
-/

namespace DrawingBugs

private theorem findSome?_eq_bind_find? {α β : Type} (f : α → Option β) (l : List α) :
    l.findSome? f = (l.find? fun a => (f a).isSome).bind f := by
  induction l with
  | nil => rfl
  | cons a l ih =>
    cases h : f a with
    | none => simp [h, ih]
    | some b => simp [h]

/-- A place where names are bound: the pose of a bug, the scope of an active call, counted from the
innermost one, the variables of a bug, and the shared variables. -/
inductive Place where
  | pose (seat : Nat)
  | scope (depth : Nat)
  | own (seat : Nat)
  | shared
  deriving DecidableEq

namespace World

/-- What a name is bound to at a place. -/
def binding? (w : World) (memory : Memory) (name : String) : Place → Option Float
  | .pose seat => if isBuiltIn name then w.bugs[seat]?.bind (·.field? name) else none
  | .scope depth => memory.scopes[depth]?.bind (·.get? name)
  | .own seat => w.bugs[seat]?.bind (·.vars.get? name)
  | .shared => w.globals.get? name

/-- The places that the bug at a seat sees, in the order in which it looks names up. -/
def places (seat : Nat) (memory : Memory) : List Place :=
  .pose seat :: ((List.range memory.scopes.length).map .scope ++ [.own seat, .shared])

/-- The first place that the bug at a seat sees and that binds the name. -/
def innermost? (w : World) (seat : Nat) (memory : Memory) (name : String) : Option Place :=
  (places seat memory).find? fun place => (w.binding? memory name place).isSome

/-- From the first state to the second one the value of a name at a place changes, and nothing
else. -/
structure Rebinds (name : String) (place : Place) (v : Float) (w : World) (memory : Memory)
    (w' : World) (memory' : Memory) : Prop where
  set : w'.binding? memory' name place = some v
  others : ∀ other p, other ≠ name ∨ p ≠ place →
    w'.binding? memory' other p = w.binding? memory other p
  bugs : w'.bugs.map (fun b => (b.identity, b.color, b.vars.keys)) =
    w.bugs.map fun b => (b.identity, b.color, b.vars.keys)
  globals : w'.globals.keys = w.globals.keys
  scopes : memory'.scopes.map Table.keys = memory.scopes.map Table.keys
  world : { w' with bugs := w.bugs, globals := w.globals } = w
  memory : { memory' with scopes := memory.scopes } = memory

variable {w w' : World} {seat : Nat} {memory memory' : Memory} {name : String} {v : Float}

private theorem getElem?_bugs (hseat : seat < w.bugs.length) :
    w.bugs[seat]? = some (w.bug seat) := by
  simp [bug, hseat]

private theorem binds_of_innermost? {place : Place}
    (h : w.innermost? seat memory name = some place) : (w.binding? memory name place).isSome := by
  have hbinds := List.find?_some h
  exact hbinds

/-! ## Reading -/

private theorem isSome_field? (b : Bug) (h : isBuiltIn name) : (b.field? name).isSome := by
  simp only [isBuiltIn, List.contains_iff_mem, List.mem_cons, List.not_mem_nil, or_false] at h
  rcases h with rfl | rfl | rfl <;> rfl

private theorem binding?_pose (hseat : seat < w.bugs.length) (h : isBuiltIn name) :
    w.binding? memory name (.pose seat) = (w.bug seat).field? name := by
  simp [binding?, h, getElem?_bugs hseat]

private theorem local?_eq_findSome? (w : World) (memory : Memory) (name : String) :
    memory.local? name =
    ((List.range memory.scopes.length).map Place.scope).findSome? (w.binding? memory name) := by
  have hscopes : (List.range memory.scopes.length).map
      (fun depth => memory.scopes[depth]?.bind (·.get? name)) = memory.scopes.map (·.get? name) :=
    List.ext_getElem (by simp) fun i _ hi => by
      rw [List.length_map] at hi
      simp [hi]
  have hvalues := congrArg (List.findSome? id) hscopes
  rw [List.findSome?_map, List.findSome?_map] at hvalues
  rw [List.findSome?_map]
  exact hvalues.symm

private theorem fetch_eq (hseat : seat < w.bugs.length) (memory : Memory) (name : String) :
    w.fetch seat memory name =
      match (w.innermost? seat memory name).bind (w.binding? memory name) with
      | some v => if isBuiltIn name ∧ v.isNaN then .error (.notANumber name) else .ok v
      | none => .error (.undefinedVariable name) := by
  rw [innermost?, ← findSome?_eq_bind_find?, places, List.findSome?_cons]
  by_cases hbuiltIn : isBuiltIn name
  · obtain ⟨v, hv⟩ := Option.isSome_iff_exists.mp (isSome_field? (w.bug seat) hbuiltIn)
    simp [fetch, Bug.builtIn, hbuiltIn, binding?_pose hseat hbuiltIn, hv]
  · have hpose : w.binding? memory name (.pose seat) = none := by simp [binding?, hbuiltIn]
    have houter : [Place.own seat, .shared].findSome? (w.binding? memory name) =
        ((w.bug seat).vars.get? name).or (w.global? name) := by
      cases hown : (w.bug seat).vars.get? name <;>
        simp [binding?, getElem?_bugs hseat, global?, hown]
    simp only [fetch, hbuiltIn, hpose, List.findSome?_append, ← local?_eq_findSome?, houter]
    cases (memory.local? name).or (((w.bug seat).vars.get? name).or (w.global? name)) <;> simp

/-! ## Writing -/

private theorem field?_setBuiltIn (b : Bug) {other : String} (hname : isBuiltIn name)
    (hother : isBuiltIn other) (v : Float) :
    (b.setBuiltIn name v).field? other = if other = name then some v else b.field? other := by
  simp only [isBuiltIn, List.contains_iff_mem, List.mem_cons, List.not_mem_nil, or_false]
    at hname hother
  rcases hname with rfl | rfl | rfl <;> rcases hother with rfl | rfl | rfl <;> rfl

private theorem field?_withVars (b : Bug) {vars : Table String Float} (h : isBuiltIn name) :
    { b with vars }.field? name = b.field? name := by
  simp only [isBuiltIn, List.contains_iff_mem, List.mem_cons, List.not_mem_nil, or_false] at h
  rcases h with rfl | rfl | rfl <;> rfl

private theorem bugs_modifyBug {α : Type} (w : World) (seat : Nat) {f : Bug → Bug} {g : Bug → α}
    (h : ∀ b, g (f b) = g b) : (w.modifyBug seat f).bugs.map g = w.bugs.map g := by
  apply List.ext_getElem?
  intro i
  simp only [modifyBug, List.getElem?_map, List.getElem?_modify]
  split <;> cases w.bugs[i]? <;> simp [h]

private theorem Rebinds.pose (hseat : seat < w.bugs.length) (h : isBuiltIn name) (memory : Memory)
    (v : Float) :
    Rebinds name (.pose seat) v w memory (w.modifyBug seat fun b => b.setBuiltIn name v) memory where
  set := by simp [binding?, h, modifyBug, getElem?_bugs hseat, field?_setBuiltIn]
  others other p hother := by
    cases p with
    | scope depth | shared => rfl
    | own i =>
      simp only [binding?, modifyBug, List.getElem?_modify]
      split <;> cases w.bugs[i]? <;> simp [Bug.vars_setBuiltIn]
    | pose i =>
      simp only [binding?, modifyBug, List.getElem?_modify]
      by_cases hi : seat = i
      · subst hi
        have hne : other ≠ name := hother.resolve_right (fun hp => hp rfl)
        split
        · next hbuiltIn =>
          cases w.bugs[seat]? <;> simp [field?_setBuiltIn _ h hbuiltIn, hne]
        · rfl
      · simp [hi]
  bugs := bugs_modifyBug w seat fun b => by
    obtain ⟨x, y, angle, hb⟩ := b.exists_setBuiltIn_eq name v
    rw [hb]
    rfl
  globals := rfl
  scopes := rfl
  world := rfl
  memory := rfl

private theorem Rebinds.own (hseat : seat < w.bugs.length) (h : (w.bug seat).vars.contains name)
    (memory : Memory) (v : Float) : Rebinds name (.own seat) v w memory
      (w.modifyBug seat fun b => { b with vars := b.vars.update name fun _ => v }) memory where
  set := by
    obtain ⟨old, hold⟩ := Option.isSome_iff_exists.mp h
    simp [binding?, modifyBug, getElem?_bugs hseat, hold]
  others other p hother := by
    cases p with
    | scope depth | shared => rfl
    | own i =>
      simp only [binding?, modifyBug, List.getElem?_modify]
      by_cases hi : seat = i
      · subst hi
        have hne : name ≠ other := Ne.symm (hother.resolve_right (fun hp => hp rfl))
        cases w.bugs[seat]? <;> simp [hne]
      · simp [hi]
    | pose i =>
      simp only [binding?, modifyBug, List.getElem?_modify]
      split
      · next hbuiltIn => split <;> cases w.bugs[i]? <;> simp [field?_withVars _ hbuiltIn]
      · rfl
  bugs := bugs_modifyBug w seat fun b => by simp [Bug.identity]
  globals := rfl
  scopes := rfl
  world := rfl
  memory := rfl

private theorem Rebinds.shared (h : w.globals.contains name) (memory : Memory) (v : Float) :
    Rebinds name .shared v w memory { w with globals := w.globals.update name fun _ => v } memory where
  set := by
    obtain ⟨old, hold⟩ := Option.isSome_iff_exists.mp h
    simp [binding?, hold]
  others other p hother := by
    cases p with
    | shared =>
      have hne : name ≠ other := Ne.symm (hother.resolve_right (fun hp => hp rfl))
      simp [binding?, hne]
    | _ => rfl
  bugs := rfl
  globals := by simp
  scopes := rfl
  world := rfl
  memory := rfl

private theorem Rebinds.scope {depth : Nat} {scope : Table String Float}
    (hscope : memory.scopes[depth]? = some scope) (h : scope.contains name) (w : World) (v : Float) :
    Rebinds name (.scope depth) v w memory w
      { memory with scopes := memory.scopes.modify depth (·.update name fun _ => v) } where
  set := by
    obtain ⟨old, hold⟩ := Option.isSome_iff_exists.mp h
    simp [binding?, hscope, hold]
  others other p hother := by
    cases p with
    | scope i =>
      simp only [binding?, List.getElem?_modify]
      by_cases hi : depth = i
      · subst hi
        have hne : name ≠ other := Ne.symm (hother.resolve_right (fun hp => hp rfl))
        simp [hscope, hne]
      · simp [hi]
    | _ => rfl
  bugs := rfl
  globals := rfl
  scopes := by
    apply List.ext_getElem?
    intro i
    simp only [List.getElem?_map, List.getElem?_modify]
    split <;> cases memory.scopes[i]? <;> simp
  world := rfl
  memory := rfl

private theorem exists_of_setInScopes? {scopes scopes' : List (Table String Float)}
    (h : Memory.setInScopes? name v scopes = some scopes') :
    ∃ depth scope, scopes[depth]? = some scope ∧ scope.contains name ∧
      (∀ i < depth, ∀ inner ∈ scopes[i]?, inner.contains name = false) ∧
      scopes' = scopes.modify depth (·.update name fun _ => v) := by
  induction scopes generalizing scopes' with
  | nil => cases h
  | cons scope outer ih =>
    rw [Memory.setInScopes?] at h
    split at h
    · next hbinds =>
      cases h
      exact ⟨0, scope, rfl, hbinds, fun i hi => absurd hi (Nat.not_lt_zero i), rfl⟩
    · next hbinds =>
      obtain ⟨outer', houter, rfl⟩ := Option.map_eq_some_iff.mp h
      obtain ⟨depth, found, hfound, hcontains, hinner, rfl⟩ := ih houter
      refine ⟨depth + 1, found, hfound, hcontains, fun i hi inner hmem => ?_, rfl⟩
      cases i with
      | zero =>
        cases hmem
        exact eq_false_of_ne_true hbinds
      | succ i => exact hinner i (Nat.lt_of_succ_lt_succ hi) inner hmem

private theorem not_contains_of_setInScopes? {scopes : List (Table String Float)}
    (h : Memory.setInScopes? name v scopes = none) : ∀ scope ∈ scopes, scope.contains name = false := by
  induction scopes with
  | nil => nofun
  | cons scope outer ih =>
    rw [Memory.setInScopes?] at h
    split at h
    · cases h
    · next hbinds =>
      rw [List.forall_mem_cons]
      exact ⟨eq_false_of_ne_true hbinds, ih (Option.map_eq_none_iff.mp h)⟩

private theorem innermost?_of_isBuiltIn (hseat : seat < w.bugs.length) (h : isBuiltIn name) :
    w.innermost? seat memory name = some (.pose seat) := by
  simp [innermost?, places, binding?_pose hseat h, isSome_field? _ h]

private theorem innermost?_of_ordinary (hseat : seat < w.bugs.length) (h : ¬ isBuiltIn name) :
    w.innermost? seat memory name =
      (((List.range memory.scopes.length).find? fun depth =>
        (w.binding? memory name (.scope depth)).isSome).map Place.scope).or
      (if (w.bug seat).vars.contains name then some (.own seat)
        else if w.globals.contains name then some .shared else none) := by
  have hpose : w.binding? memory name (.pose seat) = none := by simp [binding?, h]
  have hown : w.binding? memory name (.own seat) = (w.bug seat).vars.get? name := by
    simp [binding?, getElem?_bugs hseat]
  have hshared : w.binding? memory name .shared = w.globals.get? name := rfl
  have houter : [Place.own seat, .shared].find? (fun place => (w.binding? memory name place).isSome) =
      if (w.bug seat).vars.contains name then some (.own seat)
      else if w.globals.contains name then some .shared else none := by
    by_cases hvars : (w.bug seat).vars.contains name <;> by_cases hglobals : w.globals.contains name <;>
      simp_all [Table.contains]
  rw [innermost?, places, List.find?_cons, hpose, List.find?_append, List.find?_map, houter]
  rfl

private theorem find?_scope {depth : Nat} {scope : Table String Float}
    (hscope : memory.scopes[depth]? = some scope) (h : scope.contains name)
    (hinner : ∀ i < depth, ∀ inner ∈ memory.scopes[i]?, inner.contains name = false) :
    ((List.range memory.scopes.length).find? fun depth =>
      (w.binding? memory name (.scope depth)).isSome) = some depth := by
  rw [List.find?_range_eq_some]
  refine ⟨by simpa [binding?, hscope, Table.contains] using h, ?_, fun i hi => ?_⟩
  · obtain ⟨hdepth, -⟩ := List.getElem?_eq_some_iff.mp hscope
    exact List.mem_range.mpr hdepth
  · cases hi' : memory.scopes[i]? with
    | none => simp [binding?, hi']
    | some inner => simpa [binding?, hi', Table.contains] using hinner i hi inner hi'

private theorem find?_scope_eq_none (h : ∀ scope ∈ memory.scopes, scope.contains name = false) :
    ((List.range memory.scopes.length).find? fun depth =>
      (w.binding? memory name (.scope depth)).isSome) = none := by
  rw [List.find?_eq_none]
  intro i hi
  rw [List.mem_range] at hi
  simpa [binding?, hi, Table.contains] using h _ (List.getElem_mem hi)

/-- Writing rebinds the name at the first place that binds it. -/
private theorem store_eq_ok (hseat : seat < w.bugs.length)
    (h : w.store seat memory name v = .ok (w', memory')) : ∃ place,
      w.innermost? seat memory name = some place ∧ Rebinds name place v w memory w' memory' := by
  unfold store at h
  split at h
  · next hbuiltIn =>
    cases h
    exact ⟨_, innermost?_of_isBuiltIn hseat hbuiltIn, .pose hseat hbuiltIn memory v⟩
  next hordinary =>
  rw [innermost?_of_ordinary hseat hordinary]
  split at h
  · next hlocal =>
    obtain ⟨scopes, hset, rfl⟩ := Option.map_eq_some_iff.mp hlocal
    obtain ⟨depth, scope, hscope, hbinds, hinner, rfl⟩ := exists_of_setInScopes? hset
    cases h
    refine ⟨.scope depth, ?_, .scope hscope hbinds w v⟩
    rw [find?_scope hscope hbinds hinner]
    rfl
  next hlocal =>
  rw [find?_scope_eq_none (not_contains_of_setInScopes? (Option.map_eq_none_iff.mp hlocal))]
  split at h
  · next w₁ houter =>
    cases h
    simp only [setOwn?, setGlobal?] at houter
    by_cases hown : (w.bug seat).vars.contains name
    · simp only [hown, if_true, Option.some_or, Option.some.injEq] at houter
      subst houter
      exact ⟨.own seat, by simp [hown], .own hseat hown memory v⟩
    · simp only [hown, Bool.false_eq_true, if_false, Option.none_or] at houter
      split at houter
      · next hshared =>
        cases houter
        exact ⟨.shared, by simp [hown, hshared], .shared hshared memory v⟩
      · cases houter
  · cases h

private theorem store_eq_error {e : Fault} (hseat : seat < w.bugs.length)
    (h : w.store seat memory name v = .error e) : e = .undefinedVariable name ∧
      isBuiltIn name = false ∧ w.innermost? seat memory name = none := by
  unfold store at h
  split at h
  · cases h
  next hordinary =>
  rw [innermost?_of_ordinary hseat hordinary]
  split at h
  · cases h
  next hlocal =>
  rw [find?_scope_eq_none (not_contains_of_setInScopes? (Option.map_eq_none_iff.mp hlocal))]
  split at h
  · cases h
  · next houter =>
    cases h
    refine ⟨rfl, eq_false_of_ne_true hordinary, ?_⟩
    simp only [setOwn?, setGlobal?, Option.or_eq_none_iff, ite_eq_right_iff, reduceCtorEq,
      imp_false] at houter
    simp [houter]

private theorem Rebinds.innermost? {place : Place} (h : Rebinds name place v w memory w' memory')
    (hplace : w.innermost? seat memory name = some place) (other : String) :
    w'.innermost? seat memory' other = w.innermost? seat memory other := by
  have hscopes : memory'.scopes.length = memory.scopes.length := by
    simpa using congrArg List.length h.scopes
  have hsame (p : Place) :
      (w'.binding? memory' other p).isSome = (w.binding? memory other p).isSome := by
    by_cases hp : other = name ∧ p = place
    · obtain ⟨rfl, rfl⟩ := hp
      rw [h.set, Option.isSome_some]
      exact (binds_of_innermost? hplace).symm
    · rw [h.others other p (by rwa [Decidable.not_and_iff_not_or_not] at hp)]
  simp only [World.innermost?, places, hscopes, hsame]

end World

namespace Machine

open World

/-- **Resolution.** Writing succeeds where reading does, and for the fields of the pose. Afterwards
the name reads as what was written, if it is a number or no field of the pose, and all other names
read as before: the name was rebound at the first place that binds it, and nothing else changed.
Where writing fails, nothing changed at all. -/
theorem store_resolves_as_fetch {w : World} {seat : Nat} (hseat : seat < w.bugs.length)
    (m : Machine) (name : String) (v : Float) :
    ((∃ r, w.store seat m.memory name v = .ok r) ↔
      isBuiltIn name ∨ ∃ old, w.fetch seat m.memory name = .ok old) ∧
    match w.store seat m.memory name v with
    | .ok (w', memory') =>
      m.store w seat name v = ({ m with focus := .flow .normal, memory := memory' }, w') ∧
        w'.fetch seat memory' name =
          (if isBuiltIn name ∧ v.isNaN then .error (.notANumber name) else .ok v) ∧
        (∀ other, other ≠ name → w'.fetch seat memory' other = w.fetch seat m.memory other) ∧
        ∃ place, w.innermost? seat m.memory name = some place ∧
          Rebinds name place v w m.memory w' memory'
    | .error e => e = .undefinedVariable name ∧ m.store w seat name v = (m.fail e, w) := by
  have hfetch := fetch_eq hseat m.memory
  cases hstore : w.store seat m.memory name v with
  | error e =>
    obtain ⟨rfl, hordinary, hnone⟩ := store_eq_error hseat hstore
    refine ⟨?_, rfl, by simp [Machine.store, hstore]⟩
    simp [hfetch name, hordinary, hnone]
  | ok r =>
    obtain ⟨w', memory'⟩ := r
    obtain ⟨place, hplace, hrebinds⟩ := store_eq_ok hseat hstore
    have hseat' : seat < w'.bugs.length := by
      have hcount := congrArg List.length hrebinds.bugs
      simp only [List.length_map] at hcount
      omega
    refine ⟨⟨fun _ => ?_, fun _ => ⟨_, rfl⟩⟩, by simp [Machine.store, hstore], ?_, fun other hother => ?_,
      place, hplace, hrebinds⟩
    · by_cases hbuiltIn : isBuiltIn name
      · exact .inl hbuiltIn
      · obtain ⟨old, hold⟩ := Option.isSome_iff_exists.mp (binds_of_innermost? hplace)
        exact .inr ⟨old, by simp [hfetch name, hplace, hold, hbuiltIn]⟩
    · simp [fetch_eq hseat', hrebinds.innermost? hplace, hplace, hrebinds.set]
    · have hsame : w'.binding? memory' other = w.binding? m.memory other :=
        funext fun p => hrebinds.others other p (.inl hother)
      rw [fetch_eq hseat', hfetch other, hrebinds.innermost? hplace, hsame]

section Sample

/-- `n` is bound in the outer one of two scopes, among the bug's own variables, and among the shared
ones. -/
private def layered : World :=
  { World.empty with
    globals := [("n", 1.0)]
    bugs := [{ Bug.newborn 0 "layered" with vars := [("n", 2.0)] }] }

private def within : Machine :=
  ⟨.flow .normal, [.activation, .activation], ⟨[], [[("k", 4.0)], [("n", 3.0)]], 0.0, 0, false⟩⟩

/-- The outer scope is written to, and what it hides stays as it was. -/
theorem store_resolves_as_fetch_layered : ∃ w memory,
    layered.store 0 within.memory "n" 7.0 = .ok (w, memory) ∧
      layered.innermost? 0 within.memory "n" = some (.scope 1) ∧
      w.fetch 0 memory "n" = .ok 7.0 ∧ w.fetch 0 memory "k" = .ok 4.0 ∧
      w.binding? memory "n" (.own 0) = some 2.0 ∧ w.binding? memory "n" .shared = some 1.0 := by
  have hseat : 0 < layered.bugs.length := by decide
  have hfirst : layered.innermost? 0 within.memory "n" = some (.scope 1) := by decide +kernel
  have hstore : layered.store 0 within.memory "n" 7.0 =
      .ok (layered, { within.memory with scopes := [[("k", 4.0)], [("n", 7.0)]] }) := rfl
  obtain ⟨-, hstored⟩ := store_resolves_as_fetch hseat within "n" 7.0
  rw [hstore] at hstored
  obtain ⟨-, hsame, hothers, place, hplace, hrebinds⟩ := hstored
  obtain rfl := Option.some.inj (hplace.symm.trans hfirst)
  exact ⟨_, _, hstore, hplace, hsame, hothers "k" (by decide),
    hrebinds.others "n" (.own 0) (.inr nofun), hrebinds.others "n" .shared (.inr nofun)⟩

end Sample

end Machine

end DrawingBugs
