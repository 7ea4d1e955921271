import DrawingBugs.Proofs.Machine.Moves

/-!
# Halting

After a kill no statement begins, so all that is left for a machine to do is in its focus and on
its stack: the expressions of statements that have begun, and the frames that a halt unwinds. Every
step makes that less, whatever loops and calls the machine is in.
-/

namespace DrawingBugs

namespace Tree

mutual

/-- The number of nodes. -/
def size : Tree → Nat
  | node _ children => 1 + sizeAll children

def sizeAll : List Tree → Nat
  | [] => 0
  | t :: ts => size t + sizeAll ts

end

/-- The size of the part at an index, if there is one. -/
def partSize (t : Tree) (i : Nat) : Nat := ((t.child? i).map size).getD 0

private theorem size_eq (t : Tree) : t.size = 1 + sizeAll t.children := by
  cases t
  rw [size, children_node]

private theorem size_le_of_mem {t : Tree} {ts : List Tree} (h : t ∈ ts) : t.size ≤ sizeAll ts := by
  induction ts with
  | nil => cases h
  | cons first rest ih =>
    rw [sizeAll]
    rcases List.mem_cons.mp h with rfl | hrest
    · omega
    · have := ih hrest
      omega

private theorem length_le_sizeAll (ts : List Tree) : ts.length ≤ sizeAll ts := by
  induction ts with
  | nil => exact Nat.le_refl 0
  | cons t ts ih =>
    have hsize := t.size_eq
    rw [List.length_cons, sizeAll]
    omega

private theorem size_lt_of_part {t c : Tree} {i : Nat} (h : t.part i = .ok c) :
    c.size < t.size := by
  have hle := size_le_of_mem (List.mem_of_getElem? (part_eq_ok.mp h))
  rw [size_eq t]
  omega

private theorem size_add_partSize_lt {t first : Tree} (h : t.part 0 = .ok first) :
    first.size + t.partSize 1 < t.size := by
  rw [part_eq_ok] at h
  rw [size_eq t, partSize, child?]
  match hchildren : t.children, h with
  | only :: rest, h =>
    cases h
    cases rest with
    | nil => simp [sizeAll]
    | cons second rest =>
      simp only [sizeAll, List.getElem?_cons_succ, List.getElem?_cons_zero, Option.map_some,
        Option.getD_some]
      omega

end Tree

/-- How much a focus leaves to do after a kill. -/
def Focus.effort : Focus → Nat
  | .evaluate t => 5 * t.size
  | .execute _ | .await => 1
  | .perform t => 5 * t.size + 5
  | .consult _ _ | .act _ _ => 4
  | .declare names => names.length + 3
  | .store _ _ | .paint _ | .draw _ _ | .value _ => 3
  | .park | .flow _ => 2
  | .fault _ => 0

/-- How much a frame leaves to do after a kill. -/
def Frame.effort : Frame → Nat
  | .leftOperand t => 5 * t.partSize 1 + 1
  | .guarded _ | .activation => 2
  | .switchGuard _ rest | .argument _ _ rest _ _ => 5 * Tree.sizeAll rest + 1
  | .operand _ _ rest => 5 * Tree.sizeAll rest + 2
  | _ => 1

private theorem Frame.effort_pos (frame : Frame) : 0 < frame.effort := by
  cases frame <;> simp [Frame.effort]

namespace Machine

/-- How much the stack leaves to do after a kill. -/
def backlog (m : Machine) : Nat := m.stack.foldr (fun frame n => frame.effort + n) 0

/-- How much a machine has to do after a kill. -/
def effort (m : Machine) : Nat := m.focus.effort + m.backlog

variable {m : Machine}

@[simp] theorem effort_focusOn (m : Machine) (focus : Focus) :
    (m.focusOn focus).effort = focus.effort + m.backlog := rfl

@[simp] theorem effort_fail (m : Machine) (e : Fault) : (m.fail e).effort = m.backlog :=
  Nat.zero_add _

@[simp] theorem effort_push (m : Machine) (frame : Frame) (focus : Focus) :
    (m.push frame focus).effort = focus.effort + (frame.effort + m.backlog) := by
  simp [effort, backlog, push]

private theorem effort_orFail_lt {n : Nat} {x : Except Fault Machine} (hn : m.backlog < n)
    (h : ∀ m', x = .ok m' → m'.effort < n) : (m.orFail x).effort < n := by
  cases x with
  | ok m' => exact h m' rfl
  | error e => simpa [orFail] using hn

private theorem effort_orFail_part_lt {n i : Nat} {t : Tree} {f : Tree → Except Fault Machine}
    (hn : m.backlog < n) (h : ∀ part m', t.part i = .ok part → f part = .ok m' → m'.effort < n) :
    (m.orFail (t.part i >>= f)).effort < n := by
  refine effort_orFail_lt hn fun m' hm' => ?_
  obtain ⟨part, hpart, hm'⟩ := bind_eq_ok.mp hm'
  exact h part m' hpart hm'

private theorem effort_give_le (m : Machine) (x : Except Fault Float) :
    (m.give x).effort ≤ 3 + m.backlog := by
  cases x with
  | ok v => exact Nat.le_refl _
  | error e => simp [give]

private theorem effort_nextArgument_le (m : Machine) (parameters : List String) (rest : List Tree)
    (scope : Table String Float) (body : Tree) :
    (m.nextArgument parameters rest scope body).effort ≤ 5 * Tree.sizeAll rest + 3 + m.backlog := by
  unfold nextArgument
  split
  · simp [Focus.effort, Frame.effort, Tree.sizeAll]
    omega
  · simp [enter, effort, backlog, Focus.effort, Frame.effort]
    omega

/-- A call costs no more than its node does. -/
private theorem effort_call_lt (m : Machine) (w : World) (t : Tree) :
    (m.call w t).effort < 5 * t.size + m.backlog := by
  have hsize := t.size_eq
  refine effort_orFail_part_lt (by omega) fun name m' _ hm' => ?_
  obtain ⟨arguments, harguments, hm'⟩ := bind_eq_ok.mp hm'
  have hlt := Tree.size_lt_of_part harguments
  have hasked (question : Question) (other : Nat) :
      (m.focusOn (.consult other question)).effort < 5 * t.size + m.backlog := by
    simp [Focus.effort]
    omega
  split at hm'
  · obtain ⟨other, rfl⟩ := callBuiltIn_eq_ok hm'
    exact hasked _ _
  · obtain ⟨other, rfl⟩ := callBuiltIn_eq_ok hm'
    exact hasked _ _
  · obtain ⟨_, parameters, body, _, _, _, rfl⟩ := callFunction_eq_ok hm'
    have hle := m.effort_nextArgument_le (parameters.children.map Tree.text) arguments.children [] body
    have harguments := arguments.size_eq
    omega

private theorem effort_evaluate_lt (m : Machine) (w : World) (seat : Nat) (t : Tree) :
    (m.evaluate w seat t).effort < 5 * t.size + m.backlog := by
  have hsize := t.size_eq
  have hfail (e : Fault) : (m.fail e).effort < 5 * t.size + m.backlog := by
    simp
    omega
  have hgive (x : Except Fault Float) : (m.give x).effort < 5 * t.size + m.backlog := by
    have hle := m.effort_give_le x
    omega
  simp only [evaluate]
  split
  · split
    · exact hgive (.ok _)
    · exact hfail _
  · split
    · exact hgive _
    · split
      · exact m.effort_call_lt w t
      · exact hfail _
  · split
    · refine effort_orFail_part_lt (by omega) fun guard m' hguard hm' => ?_
      cases hm'
      have hlt := Tree.size_lt_of_part hguard
      simp [Focus.effort, Frame.effort]
      omega
    · exact hfail _
  · split
    · refine effort_orFail_part_lt (by omega) fun bug m' _ hm' => ?_
      obtain ⟨name, _, hm'⟩ := bind_eq_ok.mp hm'
      obtain ⟨other, _, hm'⟩ := bind_eq_ok.mp hm'
      cases hm'
      simp [Focus.effort]
      omega
    · refine effort_orFail_part_lt (by omega) fun first m' hfirst hm' => ?_
      cases hm'
      have hlt := Tree.size_add_partSize_lt hfirst
      rw [effort_push]
      split <;> simp only [Focus.effort, Frame.effort] <;> omega
  · exact hfail _
  · exact hfail _

private theorem effort_nextCase_le (m : Machine) (rest : List Tree) :
    (m.nextCase rest).effort ≤ 5 * Tree.sizeAll rest + 2 + m.backlog := by
  cases rest with
  | nil => simp [nextCase, Focus.effort, Tree.sizeAll]
  | cons case rest =>
    refine Nat.le_of_lt_succ (effort_orFail_part_lt (by omega) fun guard m' hguard hm' => ?_)
    cases hm'
    have hlt := Tree.size_lt_of_part hguard
    simp [Focus.effort, Frame.effort, Tree.sizeAll]
    omega

private theorem effort_nextOperand_le (m : Machine) (t : Tree) (done : List Float)
    (rest : List Tree) :
    (m.nextOperand t done rest).effort ≤ 5 * Tree.sizeAll rest + 4 + m.backlog := by
  cases rest with
  | nil => simp [nextOperand, Focus.effort, Tree.sizeAll]
  | cons operand rest =>
    simp [nextOperand, Focus.effort, Frame.effort, Tree.sizeAll]
    omega

private theorem effort_nextSection_le (m : Machine) (definition : Tree) (rest : List Nat) :
    (m.nextSection definition rest).effort ≤ 2 + m.backlog := by
  cases rest with
  | nil => exact Nat.le_refl _
  | cons i rest =>
    refine Nat.le_of_lt_succ (effort_orFail_part_lt (by omega) fun part m' _ hm' => ?_)
    cases hm'
    simp [Focus.effort, Frame.effort]
    omega

private theorem effort_nextInList_le (m : Machine) (rest : List Tree) :
    (m.nextInList rest).effort ≤ 2 + m.backlog := by
  cases rest with
  | nil => exact Nat.le_refl _
  | cons t rest =>
    simp [nextInList, Focus.effort, Frame.effort]
    omega

private theorem effort_nextInBlock_le (m : Machine) (rest : List Tree) :
    (m.nextInBlock rest).effort ≤ 2 + m.backlog := by
  cases rest with
  | nil => exact Nat.le_refl _
  | cons t rest =>
    simp [nextInBlock, Focus.effort, Frame.effort]
    omega

/-- A statement that has begun evaluates its own expressions, and no statement inside it begins. -/
private theorem effort_perform_lt (m : Machine) (w : World) (t : Tree) :
    (m.perform w t).effort < 5 * t.size + 5 + m.backlog := by
  have hsize := t.size_eq
  have hflow : 2 + m.backlog < 5 * t.size + 5 + m.backlog := by omega
  have hevaluated {i : Nat} {frame : Frame} (hframe : frame.effort = 1) :
      (m.orFail do
        let part ← t.part i
        return m.push frame (.evaluate part)).effort < 5 * t.size + 5 + m.backlog := by
    refine effort_orFail_part_lt (by omega) fun part m' hpart hm' => ?_
    cases hm'
    have hlt := Tree.size_lt_of_part hpart
    simp [Focus.effort, hframe]
    omega
  simp only [perform]
  split
  · have hle := m.effort_nextSection_le t sectionOrder
    omega
  · have hle := m.effort_nextInList_le t.children
    omega
  · have hlength := Tree.length_le_sizeAll t.children
    simp [Focus.effort]
    omega
  · refine effort_orFail_part_lt (by omega) fun name m' _ hm' => ?_
    cases hm'
    exact hflow
  · split
    · simp [Focus.effort]
    · exact hflow
  · have hle := m.effort_nextInBlock_le t.children
    omega
  · refine effort_orFail_part_lt (by omega) fun name m' _ hm' => ?_
    obtain ⟨value, hvalue, hm'⟩ := bind_eq_ok.mp hm'
    cases hm'
    have hlt := Tree.size_lt_of_part hvalue
    simp [Focus.effort, Frame.effort]
    omega
  · refine effort_orFail_part_lt (by omega) fun body m' _ hm' => ?_
    cases hm'
    simp [enterLoop, iterate, effort, push, backlog, Focus.effort, Frame.effort]
    omega
  · exact hevaluated rfl
  · have hle := m.effort_nextCase_le t.children
    omega
  · exact hevaluated rfl
  · have hlt := effort_call_lt { m with stack := .discard :: m.stack } w t
    have hbacklog : backlog { m with stack := .discard :: m.stack } = 1 + m.backlog := by
      simp [backlog, Frame.effort]
    omega
  · refine effort_orFail_part_lt (by omega) fun word m' _ hm' => ?_
    obtain ⟨color, _, hm'⟩ := bind_eq_ok.mp hm'
    cases hm'
    simp [Focus.effort]
  · split
    · have hle := m.effort_nextOperand_le t [] t.children
      omega
    · simp

private theorem effort_resumeValue_lt (m : Machine) (v : Float) (hm : m.focus = .value v)
    (frame : Frame) : (m.resumeValue v frame).effort < 3 + frame.effort + m.backlog := by
  have hpopped : m.effort = 3 + m.backlog := by rw [effort, hm]; rfl
  have hgive (x : Except Fault Float) {n : Nat} : (m.give x).effort < 3 + (n + 1) + m.backlog := by
    have hle := m.effort_give_le x
    omega
  cases frame with
  | unary operator => exact hgive _
  | rightOperand operator left => exact hgive _
  | leftOperand t =>
    refine effort_orFail_part_lt (by omega) fun second m' hsecond hm' => ?_
    cases hm'
    have hsize : t.partSize 1 = second.size := by
      simp [Tree.partSize, Tree.child?, Tree.part_eq_ok.mp hsecond]
    simp [Focus.effort, Frame.effort, hsize]
    omega
  | guard case =>
    simp only [resumeValue, afterGuard]
    split
    · refine effort_orFail_part_lt (by omega) fun body m' _ hm' => ?_
      cases hm'
      simp [Focus.effort, Frame.effort]
      omega
    · simp [Focus.effort, Frame.effort]
  | switchGuard case rest =>
    simp only [resumeValue, afterSwitchGuard]
    split
    · refine effort_orFail_part_lt (by omega) fun body m' _ hm' => ?_
      cases hm'
      simp [Focus.effort, Frame.effort]
      omega
    · have hle := m.effort_nextCase_le rest
      simp only [Frame.effort]
      omega
  | argument parameter parameters rest scope body =>
    have hle := m.effort_nextArgument_le parameters rest (scope.insert parameter v) body
    simp only [resumeValue, Frame.effort]
    omega
  | operand t done rest =>
    have hle := m.effort_nextOperand_le t (done ++ [v]) rest
    simp only [resumeValue, Frame.effort]
    omega
  | discard | assign _ | exitIf | returning =>
    simp [resumeValue, effort, backlog, focusOn, Focus.effort, Frame.effort]
  | guarded _ | activation | block _ | list _ | sections _ _ | loop _ =>
    simp only [resumeValue, Frame.effort]
    omega

private theorem effort_resumeFlow_lt (m : Machine) (f : Flow) (hm : m.focus = .flow f)
    (frame : Frame) : (m.resumeFlow f frame).effort < 2 + frame.effort + m.backlog := by
  have hpopped : m.effort = 2 + m.backlog := by rw [effort, hm]; rfl
  cases frame with
  | guarded guard => simp [resumeFlow, Focus.effort, Frame.effort]
  | activation => simp [resumeFlow, afterBody, leaveScope, effort, backlog, Focus.effort, Frame.effort]
  | block rest =>
    have hle := effort_nextInBlock_le { m with memory := { m.memory with exitPending := false } } rest
    simp only [resumeFlow, afterInBlock]
    split
    · simp only [Frame.effort]
      simp only [backlog] at hle ⊢
      omega
    · simp [effort, backlog, focusOn, Focus.effort, Frame.effort]
  | list rest =>
    have hle := m.effort_nextInList_le rest
    simp only [resumeFlow, Frame.effort]
    omega
  | sections definition rest =>
    have hle := m.effort_nextSection_le definition rest
    simp only [resumeFlow, Frame.effort]
    omega
  | loop body =>
    cases f with
    | normal =>
      simp [resumeFlow, afterIteration, iterate, Focus.effort, Frame.effort]
      omega
    | returned | loopExit =>
      simp [resumeFlow, afterIteration, leaveLoop, effort, backlog, focusOn, Focus.effort, Frame.effort]
  | _ =>
    have hpos := Frame.effort_pos
    simp only [resumeFlow, Frame.effort]
    omega

private theorem effort_resume_lt {next : Machine → Frame → Machine} {n : Nat}
    (hm : m.effort = n + m.backlog) (hstack : m.stack ≠ [])
    (h : ∀ (m' : Machine) frame, m'.focus = m.focus →
      (next m' frame).effort < n + frame.effort + m'.backlog) : (m.resume next).effort < m.effort := by
  unfold resume
  split
  · next hempty => exact absurd hempty hstack
  · next frame stack hframes =>
    have hlt := h { m with stack } frame rfl
    have hbacklog : m.backlog = frame.effort + backlog { m with stack } := by
      simp [backlog, hframes]
    omega

private theorem effort_unwind_lt (m : Machine) (e : Fault) (hm : m.focus = .fault e)
    (frame : Frame) : (m.unwind frame).effort < 0 + frame.effort + m.backlog := by
  have hpos := frame.effort_pos
  have heffort : (m.unwind frame).effort = m.backlog := by
    cases frame <;> simp [unwind, leaveScope, leaveLoop, effort, backlog, hm, Focus.effort]
  omega

private theorem effort_declare_lt (m : Machine) (w : World) (seat : Nat) (names : List String) :
    (m.declare w seat names).1.effort < names.length + 3 + m.backlog := by
  cases names with
  | nil => simp [declare, Focus.effort]
  | cons name rest =>
    simp only [declare]
    split
    · simp
    · simp [Focus.effort]

private theorem effort_store_lt (m : Machine) (w : World) (seat : Nat) (name : String) (v : Float) :
    (m.store w seat name v).1.effort < 3 + m.backlog := by
  unfold store
  split
  · simp [effort, backlog, Focus.effort]
  · simp

private theorem effort_act_lt (m : Machine) (w : World) (seat : Nat) (label : String)
    (operands : List Float) : (m.act w seat label operands).1.effort < 4 + m.backlog := by
  unfold act
  dsimp only
  split <;> simp [Focus.effort]

/-- **Step.** After a kill every step of a machine that has not ended leaves less to do. -/
theorem effort_step_lt (seat : Nat) (s : Shared) (hkilled : s.barrier.killed = true)
    (hongoing : m.outcome? = none) : (m.step seat s).1.effort < m.effort := by
  have heffort : m.effort = m.focus.effort + m.backlog := rfl
  cases hm : m.focus <;> rw [hm] at heffort <;> simp only [step, hm]
  case value v =>
    have hstack : m.stack ≠ [] := fun hempty => by simp [outcome?, hempty, hm] at hongoing
    exact effort_resume_lt heffort hstack fun m' frame hm' =>
      m'.effort_resumeValue_lt v (hm'.trans hm) frame
  case flow f =>
    have hstack : m.stack ≠ [] := fun hempty => by simp [outcome?, hempty, hm] at hongoing
    exact effort_resume_lt heffort hstack fun m' frame hm' =>
      m'.effort_resumeFlow_lt f (hm'.trans hm) frame
  case fault e =>
    have hstack : m.stack ≠ [] := fun hempty => by simp [outcome?, hempty, hm] at hongoing
    exact effort_resume_lt heffort hstack fun m' frame hm' =>
      m'.effort_unwind_lt e (hm'.trans hm) frame
  all_goals rw [heffort]
  case evaluate t => exact m.effort_evaluate_lt s.world seat t
  case perform t => exact m.effort_perform_lt s.world t
  case consult other question =>
    have hle := m.effort_give_le (s.world.answer seat other question)
    simp only [Focus.effort]
    omega
  case declare names => exact m.effort_declare_lt s.world seat names
  case store name v => exact m.effort_store_lt s.world seat name v
  case act t operands => exact m.effort_act_lt s.world seat t.text operands
  case execute t => simp [hkilled, Focus.effort]
  case await => simp [Barrier.permit, hkilled, await, Focus.effort]
  case paint | draw | park => simp [Focus.effort]

end Machine

end DrawingBugs
