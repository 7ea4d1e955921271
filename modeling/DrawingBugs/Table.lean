/-!
# Tables

Finite maps as lists of entries, at most one of them for each key.
-/

namespace DrawingBugs

abbrev Table (κ α : Type) := List (κ × α)

namespace Table

variable {κ α : Type} [DecidableEq κ]

def get? : Table κ α → κ → Option α
  | [], _ => none
  | (k, a) :: rest, key => if k = key then some a else get? rest key

/-- Binds a key, whether or not it was bound. -/
def insert : Table κ α → κ → α → Table κ α
  | [], key, value => [(key, value)]
  | (k, a) :: rest, key, value =>
    if k = key then (k, value) :: rest else (k, a) :: insert rest key value

/-- Changes what a key is bound to; an unbound key stays unbound. -/
def update (t : Table κ α) (key : κ) (f : α → α) : Table κ α :=
  t.map fun (k, a) => if k = key then (k, f a) else (k, a)

/-- Takes a key out of the table. -/
def erase : Table κ α → κ → Table κ α
  | [], _ => []
  | (k, a) :: rest, key => if k = key then erase rest key else (k, a) :: erase rest key

def keys (t : Table κ α) : List κ := t.map Prod.fst

def contains (t : Table κ α) (key : κ) : Bool := (t.get? key).isSome

@[simp] theorem get?_insert (t : Table κ α) (key k : κ) (v : α) :
    (t.insert key v).get? k = if key = k then some v else t.get? k := by
  induction t with
  | nil => simp [insert, get?]
  | cons entry rest ih =>
    obtain ⟨k', a⟩ := entry
    by_cases h : k' = key
    · subst h
      by_cases hk : k' = k <;> simp [insert, get?, hk]
    · by_cases hk : k' = k
      · subst hk
        simp [insert, get?, h, Ne.symm h]
      · simp [insert, get?, h, hk, ih]

@[simp] theorem get?_update (t : Table κ α) (key k : κ) (f : α → α) :
    (t.update key f).get? k = if key = k then (t.get? k).map f else t.get? k := by
  induction t with
  | nil => simp [update, get?]
  | cons entry rest ih =>
    obtain ⟨k', a⟩ := entry
    simp only [update, List.map_cons] at ih ⊢
    by_cases h : k' = key
    · subst h
      by_cases hk : k' = k
      · simp [get?, hk]
      · simp [get?, hk, ih]
    · by_cases hk : k' = k
      · subst hk
        simp [get?, h, Ne.symm h]
      · simp [get?, h, hk, ih]

@[simp] theorem keys_update (t : Table κ α) (key : κ) (f : α → α) :
    (t.update key f).keys = t.keys := by
  simp only [keys, update, List.map_map]
  apply List.map_congr_left
  intro entry _
  simp only [Function.comp_apply]
  split <;> rfl

@[simp] theorem get?_erase (t : Table κ α) (key k : κ) :
    (t.erase key).get? k = if key = k then none else t.get? k := by
  induction t with
  | nil => simp [erase, get?]
  | cons entry rest ih =>
    obtain ⟨k', a⟩ := entry
    by_cases h : k' = key
    · subst h
      by_cases hk : k' = k
      · subst hk
        simpa [erase] using ih
      · simp [erase, get?, hk, ih]
    · by_cases hk : k' = k
      · subst hk
        simp [erase, get?, h, Ne.symm h]
      · simp [erase, get?, h, hk, ih]

end Table

end DrawingBugs
