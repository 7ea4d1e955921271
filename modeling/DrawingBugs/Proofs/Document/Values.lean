import DrawingBugs.Snapshot
import Mathlib.Data.List.Basic

/-!
# Documents as values

An object is a finite map from names to documents: its members are found by their names, in
whatever order they stand.
-/

namespace DrawingBugs

namespace Document

/-- The value of a member of an object, none in any other document. -/
def field? : Document → String → Option Document
  | object members, key => member? members key
  | _, _ => none

mutual

/-- No object, at any depth, has two members of one name. -/
def Distinct : Document → Prop
  | array items => DistinctItems items
  | object members => (members.map Prod.fst).Nodup ∧ DistinctMembers members
  | _ => True

def DistinctItems : List Document → Prop
  | [] => True
  | d :: ds => Distinct d ∧ DistinctItems ds

def DistinctMembers : List (String × Document) → Prop
  | [] => True
  | (_, d) :: ms => Distinct d ∧ DistinctMembers ms

end

mutual

/-- Equality of documents up to the order of the members of their objects. -/
inductive Same : Document → Document → Prop where
  | refl (d : Document) : Same d d
  | array {ds es : List Document} (h : SameItems ds es) : Same (array ds) (array es)
  | object {ms ns : List (String × Document)}
      (h : ∀ key, SameMember (member? ms key) (member? ns key)) : Same (object ms) (object ns)

inductive SameItems : List Document → List Document → Prop where
  | nil : SameItems [] []
  | cons {d e : Document} {ds es : List Document} (h : Same d e) (hs : SameItems ds es) :
      SameItems (d :: ds) (e :: es)

inductive SameMember : Option Document → Option Document → Prop where
  | none : SameMember none none
  | some {d e : Document} (h : Same d e) : SameMember (some d) (some e)

end

section Members

variable {α : Type} {read : Document → Option α} {key other : String}

@[simp] theorem member?_nil (key : String) : member? [] key = none := rfl

@[simp] theorem member?_cons_self (d : Document) (ms : List (String × Document)) :
    member? ((key, d) :: ms) key = some d := by
  simp [member?]

theorem member?_cons_of_ne (h : key ≠ other) (d : Document) (ms : List (String × Document)) :
    member? ((other, d) :: ms) key = member? ms key := by
  have hne : (key == other) = false := beq_eq_false_iff_ne.mpr h
  rw [member?, List.lookup_cons, hne]
  rfl

theorem member?_eq_none {ms : List (String × Document)} (h : key ∉ ms.map Prod.fst) :
    member? ms key = none := by
  induction ms with
  | nil => rfl
  | cons m ms ih =>
    simp only [List.map_cons, List.mem_cons, not_or] at h
    rw [member?_cons_of_ne h.1, ih h.2]

@[simp] theorem required_cons_self (d : Document) (ms : List (String × Document)) :
    required ((key, d) :: ms) key read = read d := by
  simp [required]

theorem required_cons_of_ne (h : key ≠ other) (d : Document) (ms : List (String × Document)) :
    required ((other, d) :: ms) key read = required ms key read := by
  rw [required, member?_cons_of_ne h, required]

theorem optional_cons_of_ne (h : key ≠ other) (d : Document) (ms : List (String × Document))
    (missing : α) :
    Document.optional ((other, d) :: ms) key missing read =
      Document.optional ms key missing read := by
  rw [Document.optional, member?_cons_of_ne h, Document.optional]

theorem member?_mapValues (f : String → Document → Document) (ms : List (String × Document)) :
    member? (ms.map fun m => (m.1, f m.1 m.2)) key = (member? ms key).map (f key) := by
  induction ms with
  | nil => rfl
  | cons m ms ih =>
    obtain ⟨name, d⟩ := m
    by_cases h : key = name
    · subst h
      simp
    · rw [List.map_cons, member?_cons_of_ne h, member?_cons_of_ne h, ih]

theorem member?_filterKeys (known : String → Bool) (ms : List (String × Document)) :
    member? (ms.filter fun m => known m.1) key = if known key then member? ms key else none := by
  induction ms with
  | nil => simp
  | cons m ms ih =>
    obtain ⟨name, d⟩ := m
    rw [List.filter_cons]
    by_cases h : key = name
    · subst h
      cases hknown : known key <;> simp [hknown] at ih ⊢
      exact ih
    · rw [member?_cons_of_ne h, ← ih]
      split
      · rw [member?_cons_of_ne h]
      · rfl

end Members

end Document

end DrawingBugs
