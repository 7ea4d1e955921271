import DrawingBugs.Proofs.Grammar.Assignments
import DrawingBugs.Proofs.Machine.Independence
import DrawingBugs.Proofs.Simulation.Soundness

/-!
# The code of a bug

A bug executes its own definition and the shared functions. Bugs are independent when no code asks
another bug and no code assigns to a shared variable that the code of another bug mentions. The
nodes of the code are the roles of a bug in an independent program: it never takes a tree from
elsewhere, and so it reads and assigns to nothing but what its code mentions.
-/

namespace DrawingBugs

namespace Tree

mutual

/-- All nodes of a tree, each as the tree that it is the top of. -/
def nodes : Tree → List Tree
  | node value children => node value children :: nodesAll children

def nodesAll : List Tree → List Tree
  | [] => []
  | t :: ts => nodes t ++ nodesAll ts

end

theorem mem_nodes_self (t : Tree) : t ∈ t.nodes := by
  cases t
  rw [nodes]
  exact List.mem_cons_self

private theorem mem_nodesAll_of_mem {t : Tree} {ts : List Tree} (h : t ∈ ts) : t ∈ nodesAll ts := by
  induction ts with
  | nil => cases h
  | cons first rest ih =>
    rw [nodesAll, List.mem_append]
    rcases List.mem_cons.mp h with rfl | hrest
    · exact .inl (mem_nodes_self t)
    · exact .inr (ih hrest)

mutual

theorem mem_nodes_of_child {u c : Tree} (hc : c ∈ u.children) : ∀ t : Tree, u ∈ t.nodes → c ∈ t.nodes
  | node value children, hu => by
    rw [nodes, List.mem_cons] at hu ⊢
    rcases hu with rfl | hu
    · exact .inr (mem_nodesAll_of_mem hc)
    · exact .inr (mem_nodesAll_of_child hc children hu)

private theorem mem_nodesAll_of_child {u c : Tree} (hc : c ∈ u.children) :
    ∀ ts : List Tree, u ∈ nodesAll ts → c ∈ nodesAll ts
  | [], hu => by cases hu
  | t :: ts, hu => by
    rw [nodesAll, List.mem_append] at hu ⊢
    exact hu.imp (mem_nodes_of_child hc t) (mem_nodesAll_of_child hc ts)

end

/-- Whether a node asks another bug: for a field, for its distance or for its direction. -/
def asks (t : Tree) : Bool :=
  (t.kind = .symbol && t.text = ".") ||
    t.text = "call" && (t.child? 0).any fun name => name.text = "distance" || name.text = "direction"

end Tree

/-- A name occurs in a code, at a place of the text that it was read from. -/
def Mentions (code : List Tree) (name : String) : Prop :=
  ∃ t ∈ code, t.kind = .name ∧ t.text = name ∧ t.value.position ≠ .none

/-- A name is assigned to in a code. -/
def Assigns (code : List Tree) (name : String) : Prop :=
  ∃ t ∈ code, t.text = "assign" ∧ (t.child? 0).map Tree.text = some name

instance (code : List Tree) (name : String) : Decidable (Mentions code name) :=
  inferInstanceAs (Decidable (∃ t ∈ code, _))

instance (code : List Tree) (name : String) : Decidable (Assigns code name) :=
  inferInstanceAs (Decidable (∃ t ∈ code, _))

namespace Program

/-- The code of a bug: all nodes of its definition and of the shared functions. -/
def code (p : Program) (definition : Tree) : List Tree :=
  Tree.nodesAll (definition :: (p.allbugs.child? 1).toList.flatMap Tree.children)

/-- No bug asks another one, and none assigns to a shared variable that occurs in the code of
another one. -/
structure Independent (p : Program) : Prop where
  alone : ∀ definition ∈ p.bugs, ∀ t ∈ p.code definition, t.asks = false
  apart : ∀ i j : Fin p.bugs.length, i ≠ j → ∀ name ∈ World.declaredNames p.allbugs,
    Assigns (p.code p.bugs[i]) name → ¬ Mentions (p.code p.bugs[j]) name

instance (p : Program) : Decidable p.Independent :=
  decidable_of_iff
    ((∀ definition ∈ p.bugs, ∀ t ∈ p.code definition, t.asks = false) ∧
      ∀ i j : Fin p.bugs.length, i ≠ j → ∀ name ∈ World.declaredNames p.allbugs,
        Assigns (p.code p.bugs[i]) name → ¬ Mentions (p.code p.bugs[j]) name)
    ⟨fun h => ⟨h.1, h.2⟩, fun h => ⟨h.alone, h.apart⟩⟩

end Program

/-! ## Roles within some trees -/

private theorem unaryValue_ne_halted {operator : String} {v : Float} {e : Fault}
    (h : unaryValue operator v = .error e) : e ≠ .halted := by
  unfold unaryValue at h
  split at h <;> cases h
  exact nofun

private theorem binaryValue_ne_halted {operator : String} {a b : Float} {e : Fault}
    (h : binaryValue operator a b = .error e) : e ≠ .halted := by
  unfold binaryValue at h
  split at h
  case h_5 =>
    split at h <;> cases h
    exact nofun
  all_goals cases h

private theorem Tree.part_ne_halted {t : Tree} {i : Nat} {e : Fault} (h : t.part i = .error e) :
    e ≠ .halted := by
  unfold Tree.part at h
  split at h <;> cases h
  exact nofun

private theorem operandAt_ne_halted {label : String} {operands : List Float} {i : Nat} {e : Fault}
    (h : operandAt label operands i = .error e) : e ≠ .halted := by
  unfold operandAt at h
  split at h <;> cases h
  exact nofun

private theorem Bug.act_ne_halted {b : Bug} {label : String} {operands : List Float} {e : Fault}
    (h : (b.act label operands).2 = .error e) : e ≠ .halted := by
  unfold Bug.act at h
  dsimp only at h
  split at h
  case h_5 =>
    cases h₀ : operandAt label operands 0 <;> cases h₁ : operandAt label operands 1 <;>
      cases h₂ : operandAt label operands 2 <;> cases h₃ : operandAt label operands 3 <;>
      simp only [h₀, h₁, h₂, h₃] at h <;> cases h
    all_goals exact operandAt_ne_halted ‹_›
  all_goals
    split at h <;> cases h
    all_goals exact operandAt_ne_halted ‹_›

namespace Roles

/-- The roles of the trees that have some property, where nobody is asked and nothing halts. -/
def within (R : Roles) (P : Tree → Prop) (source target : String → Prop) : Roles where
  expression t := R.expression t ∧ P t
  statement t := R.statement t ∧ P t
  case t := R.case t ∧ P t
  function t := R.function t ∧ P t
  source := source
  target := target
  asks := False
  fault e := R.fault e ∧ e ≠ .halted

/-- The trees that have some property keep it in their parts, ask nobody, and hold only the names
that they may. -/
structure Encloses (R : Roles) (P : Tree → Prop) (source target : String → Prop) : Prop where
  children : ∀ t, P t → ∀ c ∈ t.children, P c
  asks : ∀ t, P t → t.asks = false
  source : ∀ t, R.expression t → P t → t.kind = .name → t.children = [] → source t.text
  target : ∀ t, R.statement t → P t → t.text = "assign" → ∀ name, t.child? 0 = some name →
    target name.text

variable {R : Roles} {P : Tree → Prop} {source target : String → Prop}

private theorem Gives.within {α : Type} {p q : α → Prop} {x : Except Fault α} (h : R.Gives p x)
    (herror : ∀ e, x = .error e → e ≠ .halted) (hok : ∀ a, x = .ok a → p a → q a) :
    (R.within P source target).Gives q x := by
  cases x with
  | ok a => exact hok a rfl h
  | error e => exact ⟨h, herror e rfl⟩

private theorem within_flaw {flaw : Flaw} (h : R.fault (.malformed flaw)) :
    (R.within P source target).fault (.malformed flaw) := ⟨h, nofun⟩

variable (h : R.Encloses P source target)
include h

private theorem Gives.part {t : Tree} (ht : P t) {i : Nat} {p : Tree → Prop}
    (hp : R.Gives p (t.part i)) :
    (R.within P source target).Gives (fun c => p c ∧ P c) (t.part i) :=
  hp.within (fun _ => Tree.part_ne_halted) fun c hc hpc =>
    ⟨hpc, h.children t ht c (List.mem_of_getElem? (Tree.part_eq_ok.mp hc))⟩

private theorem Encloses.callable {t : Tree} (ht : P t) (htext : t.text = "call")
    (hcall : R.Callable t) : (R.within P source target).Callable t := by
  obtain ⟨hname, harguments⟩ := hcall
  refine ⟨hname.within (fun _ => Tree.part_ne_halted) fun name hpart _ hown => ?_, ?_⟩
  · have hasks := h.asks t ht
    have hchild : t.child? 0 = some name := Tree.part_eq_ok.mp hpart
    simp only [Tree.asks, htext, hchild, Option.any_some] at hasks
    rcases hown with hown | hown <;> simp [hown] at hasks
  · refine (harguments.part h ht).imp fun arguments hwithin a ha => ?_
    exact ⟨hwithin.1 a ha, h.children _ hwithin.2 a ha⟩

private theorem Encloses.evaluable {t : Tree} (hexpression : R.expression t) (ht : P t)
    (hR : R.Evaluable t) : (R.within P source target).Evaluable t := by
  unfold Evaluable at hR ⊢
  dsimp only at hR ⊢
  split <;> simp only [‹t.kind = _›] at hR
  · exact hR.imp_right within_flaw
  · next hkind =>
    split
    · next hchildren => exact h.source t hexpression ht hkind hchildren
    · next hchildren =>
      rw [if_neg hchildren] at hR
      split
      · next htext => exact h.callable ht htext (by simpa only [if_pos htext] using hR)
      · next htext =>
        rw [if_neg htext] at hR
        exact within_flaw hR
  · split
    · next htext =>
      rw [if_pos htext] at hR
      exact ⟨hR.1.part h ht, hR.2.part h ht⟩
    · next htext =>
      rw [if_neg htext] at hR
      exact within_flaw hR
  · next hkind =>
    split
    · next htext =>
      have hasks := h.asks t ht
      simp [Tree.asks, hkind, htext] at hasks
    · next htext =>
      rw [if_neg htext] at hR
      refine ⟨hR.1.part h ht, ?_⟩
      split
      · next hone =>
        rw [if_pos hone] at hR
        exact fun v => (hR.2 v).within (fun _ => unaryValue_ne_halted) fun _ _ _ => trivial
      · next hone =>
        rw [if_neg hone] at hR
        exact ⟨hR.2.1.part h ht,
          fun a b => (hR.2.2 a b).within (fun _ => binaryValue_ne_halted) fun _ _ _ => trivial⟩
  · exact within_flaw hR
  · exact within_flaw hR

private theorem Encloses.executable {t : Tree} (hstatement : R.statement t) (ht : P t)
    (hR : R.Executable t) : (R.within P source target).Executable t := by
  have hpart {i : Nat} {p : Tree → Prop} (hp : R.Gives p (t.part i)) := hp.part h ht
  have hcomes {i : Nat} (hp : R.Comes (t.part i)) : (R.within P source target).Comes (t.part i) :=
    hp.within (fun _ => Tree.part_ne_halted) fun _ _ _ => trivial
  have hchildren {p : Tree → Prop} (hp : ∀ c ∈ t.children, p c) : ∀ c ∈ t.children, p c ∧ P c :=
    fun c hc => ⟨hp c hc, h.children t ht c hc⟩
  unfold Executable at hR ⊢
  generalize htext : t.text = text at hR ⊢
  split at hR
  · exact fun i hi => hpart (hR i hi)
  · exact hchildren hR
  · trivial
  · exact ⟨hcomes hR.1, hR.2, ht⟩
  · exact fun c hc => ⟨hR c hc, h.children t ht c (List.mem_of_getElem? hc)⟩
  · exact hchildren hR
  · refine ⟨hR.1.within (fun _ => Tree.part_ne_halted) fun name hname _ => ?_, hpart hR.2⟩
    exact h.target t hstatement ht htext name (Tree.part_eq_ok.mp hname)
  · exact hpart hR
  · exact hpart hR
  · exact hchildren hR
  · exact hpart hR
  · exact h.callable ht htext hR
  · exact hcomes hR
  · split
    · next haction =>
      rw [if_pos haction] at hR
      exact ⟨hchildren hR.1, fun b operands hcount =>
        (hR.2 b operands hcount).within (fun _ => Bug.act_ne_halted) fun _ _ _ => trivial⟩
    · next haction =>
      rw [if_neg haction] at hR
      exact within_flaw hR

private theorem Encloses.closed (hR : R.Closed) : (R.within P source target).Closed where
  ordinary e he := ⟨hR.ordinary e he, fun hhalted => by rw [hhalted] at he; cases he⟩
  expression t ht := h.evaluable ht.1 ht.2 (hR.expression t ht.1)
  statement t ht := h.executable ht.1 ht.2 (hR.statement t ht.1)
  case t ht := by
    obtain ⟨hguard, hbody⟩ := hR.case t ht.1
    exact ⟨hguard.part h ht.2, hbody.part h ht.2⟩
  function t ht := by
    obtain ⟨hparameters, hbody⟩ := hR.function t ht.1
    exact ⟨hparameters.within (fun _ => Tree.part_ne_halted) fun _ _ _ => trivial, hbody.part h ht.2⟩

end Roles

/-! ## The roles of the code -/

namespace Program

variable {p : Program} {definition : Tree}

private theorem code_children {t : Tree} (ht : t ∈ p.code definition) :
    ∀ c ∈ t.children, c ∈ p.code definition :=
  fun _ hc => Tree.mem_nodesAll_of_child hc _ ht

/-- A program that was read from a text. -/
structure IsParsed (p : Program) : Prop where
  shared : p.allbugs.Parsed
  bugs : ∀ t ∈ p.bugs, t.Parsed

theorem isParsed_of_load {source : String} (h : load source = .ok p) : p.IsParsed := by
  have hreturns : Recognizer.Returns required Tree.Parsed :=
    .expect (fun _ _ _ hprogram t ht => by cases ht; exact .whole List.mem_cons_self hprogram) _
  unfold load at h
  split at h
  · next root s hrequired =>
    have hroot := hreturns _ _ _ hrequired
    have hpart {i : Nat} {c : Tree} (hc : root.part i = .ok c) : c.Parsed :=
      .part hroot (List.mem_of_getElem? (Tree.part_eq_ok.mp hc))
    cases hp : ofTree root with
    | error fault =>
      rw [hp] at h
      cases h
    | ok q =>
      rw [hp] at h
      cases h
      unfold ofTree at hp
      split at hp
      · obtain ⟨allbugs, hallbugs, hp⟩ := bind_eq_ok.mp hp
        obtain ⟨bugs, hbugs, hp⟩ := bind_eq_ok.mp hp
        cases hp
        exact ⟨hpart hallbugs, fun t ht => .part (hpart hbugs) ht⟩
      · cases hp
  · cases h

end Program

namespace Tree

private theorem IsExpression.placed {t : Tree} (h : IsExpression t) (hkind : t.kind = .name)
    (hchildren : t.children = []) : t.value.position ≠ .none := by
  cases h with
  | name _ hplaced => exact hplaced
  | number hnumber =>
    rw [leaf, kind_node, hnumber] at hkind
    cases hkind
  | field | unary | binary | call => cases hchildren

private theorem IsStatement.placed {t name : Tree} (h : IsStatement t) (htext : t.text = "assign")
    (hname : t.child? 0 = some name) : name.value.position ≠ .none := by
  cases h with
  | command h =>
    cases h with
    | assign hplaced =>
      cases hname
      exact hplaced
    -- No other statement has that word.
    | action hcount =>
      rw [text_node] at htext
      rw [htext] at hcount
      cases hcount
    | loop hword | exit hword | switch hword | leave hword | color hword =>
      simp [hword] at htext
    | call => simp at htext
  | block h | function h =>
    cases h
    simp at htext
  | declaration h =>
    obtain ⟨hword⟩ := h
    simp [hword] at htext
  | bug h =>
    obtain ⟨hword⟩ := h
    simp [hword] at htext
  | initially h =>
    cases h with
    | absent => simp at htext
    | present hword => simp [hword] at htext
  | declarations | functions => simp at htext

end Tree

namespace Roles

/-- The roles of the nodes of a bug's code, which was read from a text. -/
def code (p : Program) (definition : Tree) : Roles :=
  shapes.within (fun t => t ∈ p.code definition ∧ t.Parsed) (Mentions (p.code definition)) fun name =>
    Assigns (p.code definition) name ∧ Mentions (p.code definition) name

private theorem shapes_encloses_code {p : Program} {definition : Tree}
    (h : ∀ t ∈ p.code definition, t.asks = false) :
    shapes.Encloses (fun t => t ∈ p.code definition ∧ t.Parsed) (Mentions (p.code definition))
      fun name => Assigns (p.code definition) name ∧ Mentions (p.code definition) name where
  children _ ht c hc := ⟨Program.code_children ht.1 c hc, .part ht.2 hc⟩
  asks t ht := h t ht.1
  source t hexpression ht hkind hchildren :=
    ⟨t, ht.1, hkind, rfl, hexpression.placed hkind hchildren⟩
  target t hstatement ht htext name hname :=
    ⟨⟨t, ht.1, htext, by rw [hname, Option.map_some]⟩,
      name, Program.code_children ht.1 name (List.mem_of_getElem? hname), ht.2.kind_child? htext hname,
      rfl, hstatement.placed htext hname⟩

theorem code_secluded {p : Program} {definition : Tree}
    (h : ∀ t ∈ p.code definition, t.asks = false) : (code p definition).Secluded where
  closed := (shapes_encloses_code h).closed shapes_closed
  asks := id
  target _ := And.right

end Roles

/-- The bugs of an independent program never leave their code. -/
theorem Program.Independent.plays {p : Program} (h : p.Independent) (hshaped : p.IsShaped)
    (hparsed : p.IsParsed) : p.Plays (Roles.code p) where
  closed t ht := (Roles.code_secluded (h.alone t ht)).closed
  bugs t ht := ⟨.bug (hshaped.bugs t ht), Tree.mem_nodesAll_of_mem List.mem_cons_self, hparsed.bugs t ht⟩
  shared _ _ _ hw name f hf := by
    have hmem := World.mem_of_ofAllbugs hw hf
    obtain ⟨functions, hfunctions, hchild⟩ := List.mem_flatMap.mp hmem
    exact ⟨(Roles.shapes_ofAllbugs hshaped.shared).ok hw name f hf,
      Tree.mem_nodesAll_of_mem (List.mem_cons_of_mem _ hmem),
      .part (.part hparsed.shared (List.mem_of_getElem? (Option.mem_toList.mp hfunctions))) hchild⟩

end DrawingBugs
