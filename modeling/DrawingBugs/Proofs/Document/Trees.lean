import DrawingBugs.Proofs.Document.Values
import DrawingBugs.Tree.Encoding

/-!
# Trees and their documents

The document of a tree is read back to the tree without its places. In the other direction, the
document of a tree that was read is the document it was read from, once what that document gives
as arrays is given by members and the members that mean nothing are gone.
-/

namespace DrawingBugs

open Document (Same SameItems SameMember member? member?_cons_self member?_cons_of_ne)

private theorem Kind.label_of_ofLabel? {s : String} {k : Kind} (h : ofLabel? s = some k) :
    s = k.label := by
  unfold ofLabel? at h
  split at h <;> cases h <;> rfl

namespace Token

/-- A kind as its label. -/
def kindSpelledOut : Document → Document
  | .object [(label, .null)] => .string label
  | d => d

def memberSpelledOut (key : String) (d : Document) : Document :=
  if key = "kind" then kindSpelledOut d else d

/-- The document of a token with the members that an array of two stands for. -/
def spelledOut : Document → Document
  | .object ms => .object (ms.map fun m => (m.1, memberSpelledOut m.1 m.2))
  | .array [kind, text] => .object [("kind", kindSpelledOut kind), ("text", text)]
  | d => d

def isMember (key : String) : Bool := ["kind", "text"].contains key

/-- The document of a token without members that mean nothing to it. -/
def pruned : Document → Document
  | .object ms => .object (ms.filter fun m => isMember m.1)
  | d => d

private theorem ofDocument?_toDocument (t : Token) :
    ofDocument? t.toDocument = some t.unplaced := by
  simp [toDocument, ofDocument?, member?_cons_of_ne, ofFields?, Kind.ofDocument?, unplaced]

private theorem kindSpelledOut_eq {d : Document} {k : Kind} (h : Kind.ofDocument? d = some k) :
    kindSpelledOut d = .string k.label := by
  unfold Kind.ofDocument? at h
  split at h
  · rw [Kind.label_of_ofLabel? h]
    rfl
  · rw [Kind.label_of_ofLabel? h]
    rfl
  · cases h

private theorem ofFields?_eq_some {kind text : Document} {t : Token}
    (h : ofFields? kind text = some t) :
    kindSpelledOut kind = .string t.kind.label ∧ text = .string t.text := by
  unfold ofFields? at h
  split at h
  · rename_i k s hkind
    cases h
    exact ⟨kindSpelledOut_eq hkind, rfl⟩
  · cases h

private theorem same_of_members {t : Token} {ms : List (String × Document)}
    (hkind : member? ms "kind" = some (.string t.kind.label))
    (htext : member? ms "text" = some (.string t.text))
    (hother : ∀ key, key ≠ "kind" → key ≠ "text" → member? ms key = none) :
    Same t.toDocument (.object ms) := by
  apply Same.object
  intro key
  by_cases h : key = "kind"
  · subst h
    rw [hkind]
    exact .some (.refl _)
  by_cases h' : key = "text"
  · subst h'
    rw [htext]
    exact .some (.refl _)
  · rw [hother key h h', member?_cons_of_ne h, member?_cons_of_ne h']
    exact .none

private theorem same_pruned {d : Document} {t : Token} (h : ofDocument? d = some t) :
    Same t.toDocument (pruned (spelledOut d)) := by
  unfold ofDocument? at h
  split at h
  · rename_i ms
    split at h
    · rename_i kind text hkind htext
      obtain ⟨hkind', rfl⟩ := ofFields?_eq_some h
      have hmember (key : String) :
          member? ((ms.map fun m => (m.1, memberSpelledOut m.1 m.2)).filter fun m =>
              isMember m.1) key =
            if isMember key then (member? ms key).map (memberSpelledOut key) else none := by
        rw [Document.member?_filterKeys, Document.member?_mapValues]
      apply same_of_members
      · rw [hmember, hkind, ← hkind']
        rfl
      · rw [hmember, htext]
        rfl
      · intro key hne hne'
        rw [hmember, if_neg (by simp [isMember, hne, hne'])]
    · cases h
  · obtain ⟨hkind', rfl⟩ := ofFields?_eq_some h
    rw [spelledOut, hkind']
    exact .refl t.toDocument
  · cases h

end Token

namespace Tree

mutual

/-- The document of a tree with the members that arrays stand for, at every depth. -/
def spelledOut : Document → Document
  | .object ms => .object (spelledOutMembers ms)
  | .array [value] => .object [("value", Token.spelledOut value)]
  | .array [value, parts] =>
    .object [("value", Token.spelledOut value), ("children", spelledOutParts parts)]
  | d => d

def spelledOutMembers : List (String × Document) → List (String × Document)
  | [] => []
  | (key, d) :: ms =>
    (key, if key = "value" then Token.spelledOut d
      else if key = "children" then spelledOutParts d
      else d) :: spelledOutMembers ms

def spelledOutParts : Document → Document
  | .array items => .array (spelledOutItems items)
  | d => d

def spelledOutItems : List Document → List Document
  | [] => []
  | d :: ds => spelledOut d :: spelledOutItems ds

end

mutual

/-- The document of a tree without members that mean nothing and without empty `children`, at
every depth. -/
def pruned : Document → Document
  | .object ms => .object (prunedMembers ms)
  | d => d

def prunedMembers : List (String × Document) → List (String × Document)
  | [] => []
  | (key, d) :: ms =>
    if key = "value" then (key, Token.pruned d) :: prunedMembers ms
    else if key = "children" then prunedParts d ++ prunedMembers ms
    else prunedMembers ms

def prunedParts : Document → List (String × Document)
  | .array [] => []
  | .array (d :: ds) => [("children", .array (pruned d :: prunedItems ds))]
  | d => [("children", d)]

def prunedItems : List Document → List Document
  | [] => []
  | d :: ds => pruned d :: prunedItems ds

end

/-- What the document of a tree has under `children`. -/
def partsMember : List Tree → Option Document
  | [] => none
  | t :: ts => some (.array (toDocuments (t :: ts)))

mutual

private theorem ofDocument?_toDocument : ∀ t : Tree, ofDocument? t.toDocument = some t.unplaced
  | node value [] => by
    simp [toDocument, ofDocument?, Token.ofDocument?_toDocument, partsOf?, unplaced, unplacedAll]
  | node value (t :: ts) => by
    have hparts := ofDocuments?_toDocuments (t :: ts)
    rw [toDocuments] at hparts
    simp [toDocument, ofDocument?, Token.ofDocument?_toDocument, partsOf?, partsOfItem?, hparts,
      unplaced]

private theorem ofDocuments?_toDocuments :
    ∀ ts : List Tree, ofDocuments? (toDocuments ts) = some (unplacedAll ts)
  | [] => rfl
  | t :: ts => by
    rw [toDocuments, ofDocuments?, ofDocument?_toDocument t, ofDocuments?_toDocuments ts]
    rfl

end

mutual

private theorem toDocument_unplaced : ∀ t : Tree, t.unplaced.toDocument = t.toDocument
  | node value [] => rfl
  | node value (t :: ts) => by
    rw [unplaced, unplacedAll, toDocument, toDocument, toDocument_unplaced t,
      toDocuments_unplacedAll ts]
    rfl

private theorem toDocuments_unplacedAll :
    ∀ ts : List Tree, toDocuments (unplacedAll ts) = toDocuments ts
  | [] => rfl
  | t :: ts => by
    rw [unplacedAll, toDocuments, toDocuments, toDocument_unplaced t, toDocuments_unplacedAll ts]

end

mutual

private theorem agrees_unplaced : ∀ t : Tree, t.agrees t.unplaced = true
  | node value children => by
    rw [unplaced, agrees, agreeAll_unplacedAll children]
    simp [Token.agrees, Token.unplaced]

private theorem agreeAll_unplacedAll : ∀ ts : List Tree, agreeAll ts (unplacedAll ts) = true
  | [] => rfl
  | t :: ts => by
    rw [unplacedAll, agreeAll, agrees_unplaced t, agreeAll_unplacedAll ts]
    rfl

end

mutual

private theorem positions_unplaced : ∀ t : Tree, ∀ p ∈ t.unplaced.positions, p = .none
  | node value children => by
    intro p hp
    rw [unplaced, positions] at hp
    cases hp with
    | head => rfl
    | tail _ hp => exact positionsAll_unplacedAll children p hp

private theorem positionsAll_unplacedAll :
    ∀ ts : List Tree, ∀ p ∈ positionsAll (unplacedAll ts), p = .none
  | [] => by simp [unplacedAll, positionsAll]
  | t :: ts => by
    intro p hp
    rw [unplacedAll, positionsAll, List.mem_append] at hp
    cases hp with
    | inl hp => exact positions_unplaced t p hp
    | inr hp => exact positionsAll_unplacedAll ts p hp

end

section Lookup

variable (ms : List (String × Document))

private theorem member?_spelledOutMembers (key : String) :
    member? (spelledOutMembers ms) key = (member? ms key).map fun d =>
      if key = "value" then Token.spelledOut d
      else if key = "children" then spelledOutParts d
      else d := by
  induction ms with
  | nil => rfl
  | cons m ms ih =>
    obtain ⟨name, d⟩ := m
    rw [spelledOutMembers]
    by_cases h : key = name
    · subst h
      simp
    · rw [member?_cons_of_ne h, member?_cons_of_ne h, ih]

private theorem keys_spelledOutMembers : (spelledOutMembers ms).map Prod.fst = ms.map Prod.fst := by
  induction ms with
  | nil => rfl
  | cons m ms ih => rw [spelledOutMembers, List.map_cons, List.map_cons, ih]

private theorem member?_prunedParts_append {key : String} (h : key ≠ "children") (d : Document) :
    member? (prunedParts d ++ ms) key = member? ms key := by
  unfold prunedParts
  split
  · rfl
  · exact member?_cons_of_ne h _ _
  · exact member?_cons_of_ne h _ _

private theorem member?_prunedMembers_value :
    member? (prunedMembers ms) "value" = (member? ms "value").map Token.pruned := by
  induction ms with
  | nil => rfl
  | cons m ms ih =>
    obtain ⟨name, d⟩ := m
    rw [prunedMembers]
    by_cases h : name = "value"
    · subst h
      simp
    · rw [if_neg h, member?_cons_of_ne (Ne.symm h), ← ih]
      split
      · exact member?_prunedParts_append _ (by decide) d
      · rfl

private theorem member?_prunedMembers_other {key : String} (hvalue : key ≠ "value")
    (hchildren : key ≠ "children") : member? (prunedMembers ms) key = none := by
  induction ms with
  | nil => rfl
  | cons m ms ih =>
    obtain ⟨name, d⟩ := m
    rw [prunedMembers]
    split
    · rename_i h
      subst h
      rw [member?_cons_of_ne hvalue, ih]
    · split
      · rw [member?_prunedParts_append _ hchildren, ih]
      · exact ih

private theorem member?_prunedMembers_children (hkeys : (ms.map Prod.fst).Nodup) :
    member? (prunedMembers ms) "children" =
      (member? ms "children").bind fun d => member? (prunedParts d) "children" := by
  induction ms with
  | nil => rfl
  | cons m ms ih =>
    obtain ⟨name, d⟩ := m
    rw [List.map_cons, List.nodup_cons] at hkeys
    have hrest := ih hkeys.2
    rw [prunedMembers]
    by_cases h : name = "children"
    · subst h
      rw [Document.member?_eq_none hkeys.1, Option.bind_none] at hrest
      rw [member?_cons_self, if_neg (by decide), if_pos rfl, Option.bind_some]
      unfold prunedParts
      split
      · exact hrest
      · rw [List.cons_append, member?_cons_self, member?_cons_self]
      · rw [List.cons_append, member?_cons_self, member?_cons_self]
    · rw [member?_cons_of_ne (Ne.symm h), ← hrest]
      split
      · rename_i hvalue
        rw [member?_cons_of_ne (by rw [hvalue]; decide)]
      · rfl

end Lookup

private theorem same_of_members {value : Token} {children : List Tree}
    {ms : List (String × Document)} {d : Document} (hvalue : member? ms "value" = some d)
    (hsame : Same value.toDocument d)
    (hchildren : SameMember (partsMember children) (member? ms "children"))
    (hother : ∀ key, key ≠ "value" → key ≠ "children" → member? ms key = none) :
    Same (node value children).toDocument (.object ms) := by
  have hnode : (node value children).toDocument = .object (("value", value.toDocument) ::
      (partsMember children).toList.map fun d => ("children", d)) := by
    cases children <;> rfl
  rw [hnode]
  apply Same.object
  intro key
  by_cases h : key = "value"
  · subst h
    rw [hvalue, member?_cons_self]
    exact .some hsame
  rw [member?_cons_of_ne h]
  by_cases h' : key = "children"
  · subst h'
    cases hparts : partsMember children with
    | none => rwa [hparts] at hchildren
    | some d => rwa [hparts] at hchildren
  · rw [hother key h h']
    cases partsMember children with
    | none => exact .none
    | some d =>
      rw [Option.toList_some, List.map_singleton, member?_cons_of_ne h']
      exact .none

mutual

private theorem same_pruned : ∀ (d : Document) (t : Tree), d.Distinct → ofDocument? d = some t →
    Same t.toDocument (pruned (spelledOut d))
  | .object ms, t, hd, h => by
    rw [ofDocument?] at h
    split at h
    · rename_i value children hvalue hchildren
      cases h
      obtain ⟨d, hmember, hread⟩ := Option.bind_eq_some_iff.mp hvalue
      rw [spelledOut, pruned]
      apply same_of_members
      · rw [member?_prunedMembers_value, member?_spelledOutMembers, hmember]
        rfl
      · exact Token.same_pruned hread
      · exact same_prunedMembers ms children hd.1 hd.2 hchildren
      · intro key hne hne'
        exact member?_prunedMembers_other _ hne hne'
    · cases h
  | .array [value], t, _, h => by
    obtain ⟨v, hv, rfl⟩ := Option.map_eq_some_iff.mp h
    exact same_of_members rfl (Token.same_pruned hv) .none
      (fun key hne _ => member?_cons_of_ne hne _ _)
  | .array [value, parts], t, hd, h => by
    rw [ofDocument?] at h
    split at h
    · rename_i v children hv hchildren
      cases h
      rw [spelledOut, pruned]
      apply same_of_members
      · exact member?_prunedMembers_value _
      · exact Token.same_pruned hv
      · have hparts := same_prunedParts parts children hd.2.1 hchildren
        rwa [member?_prunedMembers_children _ (by simp)]
      · intro key hne hne'
        exact member?_prunedMembers_other _ hne hne'
    · cases h
  | .array [], t, _, h => by cases h
  | .array (_ :: _ :: _ :: _), t, _, h => by cases h
  | .null, t, _, h => by cases h
  | .bool _, t, _, h => by cases h
  | .natural _, t, _, h => by cases h
  | .number _, t, _, h => by cases h
  | .string _, t, _, h => by cases h

private theorem same_prunedMembers : ∀ (ms : List (String × Document)) (ts : List Tree),
    (ms.map Prod.fst).Nodup → Document.DistinctMembers ms → partsOf? ms = some ts →
    SameMember (partsMember ts) (member? (prunedMembers (spelledOutMembers ms)) "children")
  | [], ts, _, _, h => by
    cases h
    exact .none
  | (key, d) :: ms, ts, hkeys, hd, h => by
    have hkeys' : ((spelledOutMembers ((key, d) :: ms)).map Prod.fst).Nodup := by
      rwa [keys_spelledOutMembers]
    rw [member?_prunedMembers_children _ hkeys', member?_spelledOutMembers]
    rw [partsOf?] at h
    split at h
    · rename_i hkey
      subst hkey
      rw [member?_cons_self]
      exact same_prunedParts d ts hd.1 h
    · rename_i hkey
      rw [List.map_cons, List.nodup_cons] at hkeys
      have hrest := same_prunedMembers ms ts hkeys.2 hd.2 h
      rw [member?_prunedMembers_children _ (by rw [keys_spelledOutMembers]; exact hkeys.2),
        member?_spelledOutMembers] at hrest
      rwa [member?_cons_of_ne (Ne.symm hkey)]

private theorem same_prunedParts : ∀ (d : Document) (ts : List Tree), d.Distinct →
    partsOfItem? d = some ts →
    SameMember (partsMember ts) (member? (prunedParts (spelledOutParts d)) "children")
  | .array [], ts, _, h => by
    cases h
    exact .none
  | .array (d :: ds), ts, hd, h => by
    have hitems := same_prunedItems (d :: ds) ts hd h
    rw [spelledOutItems, prunedItems] at hitems
    rw [spelledOutParts, spelledOutItems, prunedParts, member?_cons_self]
    cases ts with
    | nil => cases hitems
    | cons t ts => exact .some (.array hitems)
  | .null, ts, _, h => by cases h
  | .bool _, ts, _, h => by cases h
  | .natural _, ts, _, h => by cases h
  | .number _, ts, _, h => by cases h
  | .string _, ts, _, h => by cases h
  | .object _, ts, _, h => by cases h

private theorem same_prunedItems :
    ∀ (ds : List Document) (ts : List Tree), Document.DistinctItems ds →
    ofDocuments? ds = some ts → SameItems (toDocuments ts) (prunedItems (spelledOutItems ds))
  | [], ts, _, h => by
    cases h
    exact .nil
  | d :: ds, ts, hd, h => by
    rw [ofDocuments?] at h
    split at h
    · rename_i t ts hfirst hrest
      cases h
      exact .cons (same_pruned d t hd.1 hfirst) (same_prunedItems ds ts hd.2 hrest)
    · cases h

end

/-- A tree is read back from its document without its places, and is then written as the same
document. A tree read from a document is written as that document, with members for what was in
arrays and without the members that were passed over. -/
theorem documents_restored :
    (∀ t : Tree, ∃ u, ofDocument? t.toDocument = some u ∧ t.agrees u = true ∧
      (∀ p ∈ u.positions, p = .none) ∧ u.toDocument = t.toDocument) ∧
    ∀ (d : Document) (t : Tree), d.Distinct → ofDocument? d = some t →
      Same t.toDocument (pruned (spelledOut d)) := by
  constructor
  · intro t
    exact ⟨t.unplaced, t.ofDocument?_toDocument, t.agrees_unplaced, t.positions_unplaced,
      t.toDocument_unplaced⟩
  · intro d t hd h
    exact same_pruned d t hd h

/-- A member of no meaning, members in another order, a kind under its label, a leaf as an array
and an empty array of parts. -/
theorem documents_restored_move :
    let d : Document := .object [
      ("children", .array [.array [.array [.string "number", .string "1.0"], .array []]]),
      ("place", .natural 3),
      ("value", .object [("text", .string "move"), ("kind", .object [("keyword", .null)])])]
    let t := node ⟨.keyword, "move", .none⟩ [leaf ⟨.number, "1.0", .none⟩]
    d.Distinct ∧ ofDocument? d = some t ∧ Same t.toDocument (pruned (spelledOut d)) := by
  intro d t
  have hd : d.Distinct := by
    simp [d, Document.Distinct, Document.DistinctMembers, Document.DistinctItems]
  have hread : ofDocument? d = some t := rfl
  exact ⟨hd, hread, documents_restored.2 d t hd hread⟩

/-- What was in arrays does not come back as arrays. -/
theorem array_not_restored :
    let d : Document := .array [.array [.string "name", .string "a"]]
    let t := leaf ⟨.name, "a", .none⟩
    d.Distinct ∧ ofDocument? d = some t ∧ ¬ Same t.toDocument (pruned d) := by
  intro d t
  constructor
  · simp [d, Document.Distinct, Document.DistinctItems]
  constructor
  · rfl
  · intro h
    cases h

end Tree

end DrawingBugs
