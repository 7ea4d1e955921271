import DrawingBugs.Proofs.Grammar.Assignments
import DrawingBugs.Proofs.Machine.Balance
import DrawingBugs.Proofs.Machine.Exits

/-!
# Exits stay within loops

Where no loop is counted an exit does nothing, and every block ends by the exit that is pending. In a
tree that was read from a text each loop is over a block, so nothing but that block hands a flow to
the loop, and what it hands on leaves no exit behind. So an exit that is pending or on its way has a
loop around it that began later than the run itself, and no exit outlives its loop.
-/

namespace DrawingBugs

/-- Above the base each loop is over a block, and nothing but a block stands directly on a loop. -/
structure LoopsHold (base stack : List Frame) : Prop where
  body : ∀ body outer, .loop body :: outer <:+ stack → base <:+ outer → body.text = "block"
  inner : ∀ frame body outer, frame :: .loop body :: outer <:+ stack → base <:+ outer →
    ∃ rest, frame = .block rest

/-- The innermost frame is no loop above the base. -/
def OffLoops (base stack : List Frame) : Prop :=
  ∀ body outer, stack = .loop body :: outer → ¬ base <:+ outer

section

variable {base stack : List Frame} {frame : Frame}

private theorem not_suffix_of_cons_suffix {outer : List Frame} (h : frame :: outer <:+ base) :
    ¬ base <:+ outer := by
  intro hbase
  have hlength := (h.trans hbase).length_le
  rw [List.length_cons] at hlength
  omega

private theorem LoopsHold.refl (base : List Frame) : LoopsHold base base where
  body _ _ h hbase := absurd hbase (not_suffix_of_cons_suffix h)
  inner _ _ _ h hbase :=
    absurd hbase (not_suffix_of_cons_suffix ((List.suffix_cons _ _).trans h))

private theorem LoopsHold.pop (h : LoopsHold base (frame :: stack)) : LoopsHold base stack where
  body body outer hsuffix := h.body body outer (hsuffix.trans (List.suffix_cons _ _))
  inner inner body outer hsuffix := h.inner inner body outer (hsuffix.trans (List.suffix_cons _ _))

private theorem LoopsHold.push (h : LoopsHold base stack) (hoff : OffLoops base stack)
    (hbody : ∀ body, frame = .loop body → body.text = "block") : LoopsHold base (frame :: stack) where
  body body outer hsuffix hbase := by
    rcases List.suffix_cons_iff.mp hsuffix with hwhole | hinner
    · cases hwhole
      exact hbody body rfl
    · exact h.body body outer hinner hbase
  inner inner body outer hsuffix hbase := by
    rcases List.suffix_cons_iff.mp hsuffix with hwhole | hinner
    · cases hwhole
      exact absurd hbase (hoff body outer rfl)
    · exact h.inner inner body outer hinner hbase

private theorem LoopsHold.pushBlock (h : LoopsHold base stack) (rest : List Tree) :
    LoopsHold base (.block rest :: stack) where
  body body outer hsuffix hbase := by
    rcases List.suffix_cons_iff.mp hsuffix with hwhole | hinner
    · cases hwhole
    · exact h.body body outer hinner hbase
  inner inner body outer hsuffix hbase := by
    rcases List.suffix_cons_iff.mp hsuffix with hwhole | hinner
    · cases hwhole
      exact ⟨rest, rfl⟩
    · exact h.inner inner body outer hinner hbase

/-- Nothing but a block stands directly on a loop. -/
private theorem LoopsHold.offLoops (h : LoopsHold base (frame :: stack))
    (hframe : ∀ rest, frame ≠ .block rest) : OffLoops base stack := by
  rintro body outer rfl hbase
  obtain ⟨rest, hrest⟩ := h.inner frame body outer (List.suffix_refl _) hbase
  exact hframe rest hrest

private theorem exists_of_not_offLoops (h : ¬ OffLoops base stack) :
    ∃ body outer, stack = .loop body :: outer ∧ base <:+ outer := by
  simpa only [OffLoops, not_forall, not_not, exists_prop] using h

private theorem offLoops_cons (hframe : frame.isLoop = false) : OffLoops base (frame :: stack) := by
  rintro body outer h -
  cases h
  cases hframe

end

namespace Machine

/-- What is in focus is the block that the innermost frame is a loop over, or what came of it. -/
def IsIterating (m : Machine) : Prop :=
  match m.focus with
  | .execute t | .perform t => t.text = "block"
  | .flow f => f ≠ .normal → m.memory.exitPending = false
  | .fault _ => True
  | _ => False

/-- Whatever exit there is has a loop around it that stands above the base, unless a fault is on its
way. -/
structure Confined (base : List Frame) (m : Machine) : Prop where
  stack : LoopsHold base m.stack
  carried : m.CarriesExit → (∃ e, m.focus = .fault e) ∨ loops base < loops m.stack
  iterating : ∀ body outer, m.stack = .loop body :: outer → base <:+ outer → m.IsIterating

variable {base : List Frame} {m m' : Machine} {M : Manner} {a last : Aim}

private theorem loops_lt_of_loop {body : Tree} {outer : List Frame} (hbase : base <:+ outer) :
    loops base < loops (.loop body :: outer) := by
  have hle := loops_le_of_suffix hbase
  simp only [loops_cons, Frame.isLoop, if_true]
  omega

private theorem loops_of_not_loop {stack : List Frame} {frame : Frame} (h : frame.isLoop = false) :
    loops (frame :: stack) = loops stack := by
  simp [loops_cons, h]

private theorem loops_lt_cons {stack : List Frame} {frame : Frame} (h : frame.isLoop = false)
    (hloops : loops base < loops stack) : loops base < loops (frame :: stack) := by
  rwa [loops_of_not_loop h]

private theorem Confined.off {stack : List Frame} (hm : m.stack = stack)
    (hstack : LoopsHold base stack) (hoff : OffLoops base stack)
    (hcarried : m.CarriesExit → (∃ e, m.focus = .fault e) ∨ loops base < loops stack) :
    m.Confined base := by
  subst hm
  exact ⟨hstack, hcarried, fun body outer h hbase => absurd hbase (hoff body outer h)⟩

private theorem Confined.on {body : Tree} {outer : List Frame} (hm : m.stack = .loop body :: outer)
    (hbase : base <:+ outer) (hstack : LoopsHold base (.loop body :: outer))
    (hiterating : m.IsIterating) : m.Confined base :=
  ⟨hm ▸ hstack, fun _ => .inr (hm ▸ loops_lt_of_loop hbase), fun _ _ _ _ => hiterating⟩

section

variable (hbodies : ∀ t body, M.statement t → t.text = "loop" → t.part 0 = .ok body → body.text = "block")
include hbodies

private theorem Confined.goesOn (h : M.GoesOn a m m') (hbase : base <:+ m.stack)
    (hstack : LoopsHold base m.stack) (hoff : OffLoops base m.stack)
    (hdepth : 0 < m.memory.loopDepth → loops base < loops m.stack)
    (hpending : m.memory.exitPending = true → loops base < loops m.stack) : m'.Confined base := by
  induction h with
  | turn _ _ hexit =>
    refine .off rfl hstack hoff ?_
    rintro (hcarried | hcarried)
    · exact .inr (hpending hcarried)
    · exact .inr (hdepth (hexit hcarried))
  | @push _ m frame focus _ _ _ hloop hbusy =>
    refine .off rfl (hstack.push hoff ?_) (offLoops_cons hloop) ?_
    · rintro body rfl
      cases hloop
    · rintro (hcarried | hcarried)
      · exact .inr (loops_lt_cons hloop (hpending hcarried))
      · rw [show focus = .flow .loopExit from hcarried] at hbusy
        cases hbusy
  | enter =>
    refine .off rfl (hstack.push hoff fun _ => nofun) (offLoops_cons rfl) ?_
    rintro (hcarried | hcarried)
    · exact .inr (loops_lt_cons rfl (hpending hcarried))
    · cases hcarried
  | @enterLoop m t body ht htext hpart =>
    have hblock := hbodies t body ht htext hpart
    refine .on rfl hbase (hstack.push hoff ?_) hblock
    intro body' h
    cases h
    exact hblock
  | define =>
    refine .off rfl hstack hoff ?_
    rintro (hcarried | hcarried)
    · exact .inr (hpending hcarried)
    · cases hcarried
  | call _ ih =>
    exact ih (hbase.trans (List.suffix_cons _ _)) (hstack.push hoff fun _ => nofun)
      (offLoops_cons rfl) (fun h => loops_lt_cons rfl (hdepth h)) fun h => loops_lt_cons rfl (hpending h)

end

private theorem Confined.nextInBlock {body : Tree} {outer : List Frame}
    (hm : m.stack = .loop body :: outer) (hbase : base <:+ outer)
    (hstack : LoopsHold base (.loop body :: outer)) (rest : List Tree) :
    (m.nextInBlock rest).Confined base := by
  cases rest with
  | nil => exact .on hm hbase hstack fun h => absurd rfl h
  | cons c rest =>
    refine .off (congrArg (Frame.block rest :: ·) hm) (hstack.pushBlock rest) (offLoops_cons rfl) ?_
    intro _
    exact .inr (loops_lt_cons rfl (loops_lt_of_loop hbase))

private theorem Confined.step_on (hm : m.Confined base) {body : Tree} {outer : List Frame}
    (hstack : m.stack = .loop body :: outer) (hbase : base <:+ outer) (seat : Nat) (s : Shared) :
    (m.step seat s).1.Confined base := by
  have hiterating := hm.iterating body outer hstack hbase
  have hhold := hm.stack
  rw [hstack] at hhold
  have hbody := hhold.body body outer (List.suffix_refl _) hbase
  have houter : OffLoops base outer := hhold.offLoops (by simp)
  unfold IsIterating at hiterating
  unfold step
  cases hfocus : m.focus <;> rw [hfocus] at hiterating <;> try exact hiterating.elim
  case execute t =>
    dsimp only
    split
    · exact .on hstack hbase hhold trivial
    · exact .on hstack hbase hhold hiterating
  case perform t =>
    simp only [perform, show t.text = "block" from hiterating]
    exact .nextInBlock hstack hbase hhold _
  case flow f =>
    simp only [resume, hstack, resumeFlow]
    cases f with
    | normal => exact .on rfl hbase hhold hbody
    | returned =>
      refine .off rfl hhold.pop houter ?_
      rintro (hcarried | hcarried)
      · rw [show m.memory.exitPending = true from hcarried] at hiterating
        cases hiterating (by decide)
      · cases hcarried
    | loopExit =>
      refine .off rfl hhold.pop houter ?_
      rintro (hcarried | hcarried)
      · rw [show m.memory.exitPending = true from hcarried] at hiterating
        cases hiterating (by decide)
      · cases hcarried
  case fault e =>
    simp only [resume, hstack]
    exact .off rfl hhold.pop houter fun _ => .inl ⟨e, hfocus⟩

/-- Directly below a result stands a loop: so a block takes the result, and hands nothing to the loop
that leaves an exit pending. -/
private theorem Confined.step_within (hm : m.Confined base) (hworks : M.Works base last m)
    (hbusy : ¬ m.Returned base) (hresult : m.focus.isResult) (htail : ¬ OffLoops base m.stack.tail)
    (seat : Nat) (s : Shared) : (m.step seat s).1.Confined base := by
  obtain ⟨body, outer, hbelow, hbase⟩ := exists_of_not_offLoops htail
  obtain ⟨frame, hstack⟩ : ∃ frame, m.stack = frame :: .loop body :: outer := by
    cases hstack : m.stack with
    | nil =>
      rw [hstack] at hbelow
      cases hbelow
    | cons frame stack =>
      rw [hstack, List.tail_cons] at hbelow
      exact ⟨frame, by rw [hbelow]⟩
  have hhold := hm.stack
  rw [hstack] at hhold
  obtain ⟨rest, rfl⟩ := hhold.inner frame body outer (List.suffix_refl _) hbase
  have hawaits := (hworks.inner (fun hreturned => hbusy ⟨hreturned, hresult⟩) hstack).1
  unfold step
  cases hfocus : m.focus <;> rw [hfocus] at hawaits hresult <;> try cases hresult
  case value v => exact absurd (hawaits .value rfl) nofun
  case flow f =>
    simp only [resume, hstack, resumeFlow, afterInBlock]
    split
    · exact .nextInBlock rfl hbase hhold.pop rest
    · exact .on rfl hbase hhold.pop fun _ => rfl
  case fault e =>
    refine .on (by simp [resume, hstack, unwind]) hbase hhold.pop ?_
    simp [resume, hstack, unwind, IsIterating, hfocus]

private theorem Confined.pop (hm : m.Confined base) (hworks : M.Works base last m)
    (hbusy : ¬ m.Returned base) (hoff : OffLoops base m.stack) (htail : OffLoops base m.stack.tail)
    (hresult : m.focus.isResult)
    {frame : Frame} {stack : List Frame} (hstack : m.stack = frame :: stack) :
    base <:+ stack ∧ LoopsHold base stack ∧ OffLoops base stack ∧ loops stack = loops m.stack := by
  have hbase := (hworks.inner (fun hbase => hbusy ⟨hbase, hresult⟩) hstack).2.2.suffix
  have hhold := hm.stack
  rw [hstack] at hhold hoff htail
  refine ⟨hbase, hhold.pop, htail, ?_⟩
  rw [hstack]
  cases frame with
  | loop body => exact absurd hbase (hoff body stack rfl)
  | _ => rfl

/-- A turn that takes place off the loops keeps the machine confined. -/
private theorem Confined.turn
    (hbodies : ∀ t body, M.statement t → t.text = "loop" → t.part 0 = .ok body → body.text = "block")
    (h : M.Turn m m') (hm : m.Confined base) (hworks : M.Works base last m) (hbusy : ¬ m.Returned base)
    (hdepth : m.memory.loopDepth + loops base = loops m.stack) (hoff : OffLoops base m.stack)
    (htail : m.focus.isResult → OffLoops base m.stack.tail) : m'.Confined base := by
  have hpop {frame : Frame} {stack : List Frame} (hresult : m.focus.isResult)
      (hstack : m.stack = frame :: stack) :=
    hm.pop hworks hbusy hoff (htail hresult) hresult hstack
  have hexits {focus : Focus} (hfocus : m.focus = focus) (hgood : ∀ e, focus ≠ .fault e)
      (hcarries : m.CarriesExit) : loops base < loops m.stack := by
    refine (hm.carried hcarries).resolve_left ?_
    rintro ⟨e, he⟩
    exact hgood e (hfocus.symm.trans he)
  -- What goes on without the innermost frame goes on off the loops.
  have hgo {focus : Focus} {frame : Frame} {stack : List Frame} (hfocus : m.focus = focus)
      (hresult : focus.isResult) (hgood : ∀ e, focus ≠ .fault e) (hstack : m.stack = frame :: stack)
      {a : Aim} (h : M.GoesOn a { m with stack } m') : m'.Confined base := by
    obtain ⟨hbase, hhold, hoff', hloops⟩ := hpop (hfocus ▸ hresult) hstack
    refine .goesOn hbodies h hbase hhold hoff' (fun hpositive => ?_) fun hpending => ?_
    · have : 0 < m.memory.loopDepth := hpositive
      show loops base < loops stack
      omega
    · exact hloops ▸ hexits hfocus hgood (.inl hpending)
  cases h with
  | @go a m' haim hresult h =>
    refine .goesOn hbodies h ?_ hm.stack hoff (by omega) fun hpending => ?_
    · exact (hworks.expects haim).suffix
    · refine hexits rfl ?_ (.inl hpending)
      intro e he
      rw [he] at haim
      cases haim
  | assign hfocus =>
    refine .off rfl hm.stack hoff ?_
    rintro (hcarried | hcarried)
    · exact .inr (hexits hfocus nofun (.inl hcarried))
    · cases hcarried
  | answer hfocus hstack _ h => exact hgo hfocus rfl nofun hstack h
  | «return» hfocus hstack =>
    obtain ⟨-, hhold, hoff', hloops⟩ := hpop (by rw [hfocus]; rfl) hstack
    refine .off rfl hhold hoff' ?_
    rintro (hcarried | hcarried)
    · exact .inr (hloops ▸ hexits hfocus nofun (.inl hcarried))
    · cases hcarried
  | ignore hfocus _ hstack _ _ h => exact hgo hfocus rfl nofun hstack h
  | next hfocus _ hstack h => exact hgo hfocus rfl nofun hstack h
  | exit hfocus hpending hstack =>
    obtain ⟨-, hhold, hoff', hloops⟩ := hpop (by rw [hfocus]; rfl) hstack
    exact .off rfl hhold hoff' fun _ => .inr (hloops ▸ hexits hfocus nofun (.inl hpending))
  | skip hfocus _ _ hstack =>
    obtain ⟨-, hhold, hoff', hloops⟩ := hpop (by rw [hfocus]; rfl) hstack
    exact .off rfl hhold hoff' fun hcarries => .inr (hloops ▸ hexits hfocus nofun hcarries)
  | @leave f stack hfocus hstack =>
    obtain ⟨-, hhold, hoff', hloops⟩ := hpop (by rw [hfocus]; rfl) hstack
    refine .off rfl hhold hoff' fun hcarries => .inr (hloops ▸ hexits hfocus nofun ?_)
    simpa [CarriesExit, afterBody, leaveScope, hfocus] using hcarries
  | iterate hfocus hstack =>
    have hbase := (hpop (by rw [hfocus]; rfl) hstack).1
    exact absurd hbase (hoff _ _ hstack)
  | endLoop hfocus _ hstack =>
    have hbase := (hpop (by rw [hfocus]; rfl) hstack).1
    exact absurd hbase (hoff _ _ hstack)
  | @unwind e frame stack hfocus hstack =>
    obtain ⟨-, hhold, hoff', -⟩ := hpop (by rw [hfocus]; rfl) hstack
    refine .off ?_ hhold hoff' fun _ => .inl ⟨e, ?_⟩
    · cases frame <;> rfl
    · rw [unwind_focus]
      exact hfocus

private theorem Confined.step
    (hbodies : ∀ t body, M.statement t → t.text = "loop" → t.part 0 = .ok body → body.text = "block")
    {seat : Nat} {s : Shared} (h : M.Turn m (m.step seat s).1) (hm : m.Confined base)
    (hworks : M.Works base last m) (hbusy : ¬ m.Returned base)
    (hdepth : m.memory.loopDepth + loops base = loops m.stack) : (m.step seat s).1.Confined base := by
  by_cases hoff : OffLoops base m.stack
  · by_cases htail : m.focus.isResult → OffLoops base m.stack.tail
    · exact .turn hbodies h hm hworks hbusy hdepth hoff htail
    · obtain ⟨hresult, htail⟩ := Classical.not_imp.mp htail
      exact hm.step_within hworks hbusy hresult htail seat s
  · obtain ⟨body, outer, hstack, hbase⟩ := exists_of_not_offLoops hoff
    exact hm.step_on hstack hbase seat s

variable {seat : Nat} {env : Shared → Shared → Prop}

/-- A run of a tree that was read from a text, with functions that were, keeps the machine
confined. -/
private theorem Runs.confined (henv : ∀ s t, env s t → t.world.functions = s.world.functions)
    {m : Machine} {s : Shared} {d : Machine × Shared} {t : Tree} (ht : t.Parsed)
    (hown : ∀ name f, m.memory.functions.get? name = some f → f.Parsed)
    (hshared : ∀ name f, s.world.functions.get? name = some f → f.Parsed)
    (hfocus : m.focus = .evaluate t ∨ m.focus = .execute t) (hdepth : m.memory.loopDepth = 0)
    (hpending : m.memory.exitPending = false) (hrun : Runs seat env m.stack (m, s) d) :
    d.1.Confined m.stack := by
  have hclosed : (Roles.all Tree.Parsed).Closed := Roles.all_closed fun _ h _ hc => .part h hc
  have hbodies (t body : Tree) (ht : t.Parsed) (htext : t.text = "loop")
      (hpart : t.part 0 = .ok body) : body.text = "block" :=
    ht.text_child? htext (Tree.part_eq_ok.mp hpart)
  have hlayers : Layers fun _ _ => True :=
    ⟨fun _ _ _ _ => trivial, fun _ _ _ => trivial, fun _ _ _ _ _ _ _ => trivial⟩
  have hworks : ∃ last, (Roles.all Tree.Parsed).manner.Works m.stack last m := by
    rcases hfocus with hfocus | hfocus
    · exact ⟨.value, .start (by rw [hfocus]; exact ht) (by rw [hfocus]; rfl)⟩
    · exact ⟨.flow, .start (by rw [hfocus]; exact ht) (by rw [hfocus]; rfl)⟩
  obtain ⟨last, hworks⟩ := hworks
  have hstart : m.Confined m.stack := by
    refine .off rfl (.refl m.stack) ?_ ?_
    · intro body outer h
      exact not_suffix_of_cons_suffix (by rw [h])
    · rintro (hcarried | hcarried)
      · rw [hpending] at hcarried
        cases hcarried
      · rw [hcarried] at hfocus
        rcases hfocus with hfocus | hfocus <;> cases hfocus
  have hbalanced : m.Balanced (fun _ _ => True) m.stack 0 :=
    ⟨⟨0, Nat.zero_add _, trivial⟩, by rw [hdepth]⟩
  refine (hrun.playing hclosed (fun _ => trivial) henv
    (P := fun c => c.1.Balanced (fun _ _ => True) m.stack 0 ∧ c.1.Confined m.stack)
    (fun m' s' t' hworks' hbusy _ hm' hturn => ?_) hworks hown hshared ⟨hbalanced, hstart⟩).2.2
  have hdepth' := hm'.1.depth
  rw [Nat.zero_add] at hdepth'
  exact ⟨hm'.1.step hlayers hworks' hbusy hturn,
    hm'.2.step hbodies hturn hworks' hbusy hdepth'⟩

/-- **Exits stay within loops.** Where no loop is counted and no exit is pending, what is read from a
text and executed or evaluated leaves no exit: a statement finishes normally or by a return, and none
is pending. On the way an exit is pending or on its way only within a loop that began in the run, and
when a loop ends by an exit or a return, no exit is left for what is around it. -/
theorem exits_stay_in_loops (henv : ∀ s t, env s t → t.world.functions = s.world.functions)
    {m : Machine} {s : Shared} {d : Machine × Shared} {t : Tree} (ht : t.Parsed)
    (hown : ∀ name f, m.memory.functions.get? name = some f → f.Parsed)
    (hshared : ∀ name f, s.world.functions.get? name = some f → f.Parsed)
    (hfocus : m.focus = .evaluate t ∨ m.focus = .execute t) (hdepth : m.memory.loopDepth = 0)
    (hpending : m.memory.exitPending = false) (hrun : Runs seat env m.stack (m, s) d) :
    (d.1.stack = m.stack →
      (∀ f, d.1.focus = .flow f →
        (f = .normal ∨ f = .returned) ∧ d.1.memory.exitPending = false) ∧
      ∀ v, d.1.focus = .value v → d.1.memory.exitPending = false) ∧
    (d.1.CarriesExit → (∃ e, d.1.focus = .fault e) ∨ loops m.stack < loops d.1.stack) ∧
    ∀ f body outer s', d.1.focus = .flow f → f ≠ .normal → d.1.stack = .loop body :: outer →
      m.stack <:+ outer →
        (d.1.step seat s').1.stack = outer ∧ ¬ (d.1.step seat s').1.CarriesExit := by
  have hconfined := hrun.confined henv ht hown hshared hfocus hdepth hpending
  refine ⟨fun hreturned => ?_, hconfined.carried, ?_⟩
  · have hnone (hgood : ∀ e, d.1.focus ≠ .fault e) : ¬ d.1.CarriesExit := by
      intro hcarries
      rcases hconfined.carried hcarries with ⟨e, he⟩ | hloops
      · exact hgood e he
      · rw [hreturned] at hloops
        exact Nat.lt_irrefl _ hloops
    simp only [CarriesExit, not_or, Bool.not_eq_true] at hnone
    refine ⟨fun f hf => ?_, fun v hv => (hnone (by simp [hv])).1⟩
    obtain ⟨hclear, hflow⟩ := hnone (by simp [hf])
    refine ⟨?_, hclear⟩
    cases f with
    | normal => exact .inl rfl
    | returned => exact .inr rfl
    | loopExit => exact absurd hf hflow
  · intro f body outer s' hf hother hstack hbase
    have hiterating := hconfined.iterating body outer hstack hbase
    simp only [IsIterating, hf] at hiterating
    have hclear := hiterating hother
    have hstep : (d.1.step seat s').1.stack = outer ∧
        (d.1.step seat s').1.memory.exitPending = d.1.memory.exitPending ∧
        (d.1.step seat s').1.focus ≠ .flow .loopExit := by
      simp only [step, hf, resume, hstack, resumeFlow]
      cases f with
      | normal => exact absurd rfl hother
      | returned | loopExit => simp [afterIteration, leaveLoop, focusOn]
    obtain ⟨houter, hsame, hflow⟩ := hstep
    refine ⟨houter, ?_⟩
    rintro (hcarried | hcarried)
    · rw [hsame, hclear] at hcarried
      cases hcarried
    · exact hflow hcarried

section Sample

/-- The tree that a rule reads from a text. -/
private def treeOf (rule : Rule) (source : String) : Option Tree :=
  match rule (.ofSource source) with
  | .ok t _ => t
  | .error _ _ => none

private theorem parsed_of_treeOf {rule : Rule} (hrule : rule ∈ Grammar.program :: Grammar.rules)
    {source : String} {t : Tree} (h : treeOf rule source = some t) : t.Parsed := by
  unfold treeOf at h
  split at h
  · next hread =>
    subst h
    exact .whole hrule hread
  · cases h

private def spinSource : String := "define spin \x7b\nloop \x7b\nexit if 1\n\x7d\n\x7d\n"

private def callerSource : String := "\x7b\ndo spin\nloop \x7b\nexit if spin() = 0\n\x7d\n\x7d\n"

/-- Everything is done, and nothing went wrong. -/
private def isDone (m : Machine) : Bool :=
  m.stack.isEmpty && match m.focus with
    | .flow f => f = .normal
    | _ => false

@[irreducible] private def spinFunction : Tree :=
  (treeOf Grammar.functionDefinition spinSource).get (by decide +kernel)

@[irreducible] private def spinBlock : Tree := (treeOf Grammar.block callerSource).get (by decide +kernel)

private def spinning : Machine := .executing ⟨[("spin", spinFunction)], [], 0.0, 0, false⟩ spinBlock

/-- The function ends a loop of its own by an exit, and so does the block that calls it. -/
theorem exits_stay_in_loops_spin :
    ∃ d, Runs 0 Eq [] (spinning, Shared.alone) d ∧ d.1.stack = [] ∧
      d.1.focus = .flow .normal ∧ d.1.memory.exitPending = false := by
  have hcaller : treeOf Grammar.block callerSource = some spinBlock := by rw [spinBlock, Option.some_get]
  have hspin : treeOf Grammar.functionDefinition spinSource = some spinFunction := by
    rw [spinFunction, Option.some_get]
  have hown : ∀ name f, spinning.memory.functions.get? name = some f → f.Parsed := by
    intro name f hf
    obtain ⟨-, rfl⟩ : name = "spin" ∧ f = spinFunction := by
      simpa [spinning, executing] using Table.mem_of_get?_eq_some hf
    exact parsed_of_treeOf (by simp [Grammar.rules]) hspin
  obtain ⟨d, hrun, hd⟩ := Runs.exists_of_advance (by decide +kernel : (advance 0 [].length 49
    (spinning, Shared.alone)).any (fun c => isDone c.1) = true)
  obtain ⟨hstack, hflow⟩ := Bool.and_eq_true_iff.mp hd
  rw [List.isEmpty_iff] at hstack
  split at hflow
  · next f hfocus =>
    obtain rfl := of_decide_eq_true hflow
    obtain ⟨hreturned, -⟩ := exits_stay_in_loops (fun _ _ hst => by rw [hst])
      (parsed_of_treeOf (by simp [Grammar.rules]) hcaller) hown (fun _ _ hf => by cases hf)
      (.inr rfl) rfl rfl hrun
    exact ⟨d, hrun, hstack, hfocus, ((hreturned hstack).1 _ hfocus).2⟩
  · cases hflow

end Sample

end Machine

end DrawingBugs
