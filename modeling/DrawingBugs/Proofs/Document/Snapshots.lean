import DrawingBugs.Proofs.Document.Values

/-!
# Reading snapshots back

A coordinate that is no finite number is written as null, and null is no number, so the document
of a snapshot is read back to the snapshot itself if all its coordinates are finite, and is not
read at all otherwise.
-/

namespace DrawingBugs

open Number (isFinite)

namespace Document

private theorem float?_ofFloat (v : Float) :
    (ofFloat v).float? = if isFinite v then some v else none := by
  unfold ofFloat
  split <;> rfl

private theorem each_map {α : Type} {write : α → Document} {read : Document → Option α}
    {readable : α → Bool} (h : ∀ a, read (write a) = if readable a then some a else none)
    (as : List α) :
    each read (.array (as.map write)) = if as.all readable then some as else none := by
  change (as.map write).mapM read = _
  induction as with
  | nil => rfl
  | cons a as ih =>
    rw [List.map_cons, List.mapM_cons, ih, h, List.all_cons]
    cases readable a
    · rfl
    · cases as.all readable <;> rfl

end Document

open Document

namespace BugView

def coordinates (b : BugView) : List Float := [b.x, b.y, b.angle]

private theorem optional_color (pen : Option Color) :
    Document.optional (pen.toList.map fun c => ("color", c.toDocument)) "color" none penOf? =
      some pen := by
  cases pen with
  | none => rfl
  | some c => simp [Document.optional, penOf?, Color.toDocument, Color.ofDocument?, string?]

private theorem ofDocument?_toDocument (b : BugView) :
    ofDocument? b.toDocument = if b.coordinates.all isFinite then some b else none := by
  simp only [toDocument, List.cons_append, List.nil_append, ofDocument?, required_cons_self,
    required_cons_of_ne, optional_cons_of_ne, optional_color, ne_eq, String.reduceEq,
    not_false_eq_true, string?, float?_ofFloat]
  simp only [coordinates, List.all_cons, List.all_nil]
  by_cases hx : isFinite b.x <;> by_cases hy : isFinite b.y <;>
    by_cases hangle : isFinite b.angle <;> simp [hx, hy, hangle]

private theorem field?_color_eq_none (b : BugView) :
    b.toDocument.field? "color" = none ↔ b.color = none := by
  simp only [toDocument, List.cons_append, List.nil_append, field?, member?_cons_of_ne, ne_eq,
    String.reduceEq, not_false_eq_true]
  cases b.color <;> simp [member?]

end BugView

namespace Line

def coordinates (l : Line) : List Float :=
  [l.segment.x1, l.segment.y1, l.segment.x2, l.segment.y2]

private theorem ofDocument?_toDocument (l : Line) :
    ofDocument? l.toDocument = if l.coordinates.all isFinite then some l else none := by
  simp only [toDocument, ofDocument?, required_cons_self, required_cons_of_ne, ne_eq,
    String.reduceEq, not_false_eq_true, float?_ofFloat, natural?, Color.toDocument,
    Color.ofDocument?, string?, Option.bind_some, Color.ofKeyword?_keyword]
  simp only [coordinates, List.all_cons, List.all_nil]
  by_cases hx1 : isFinite l.segment.x1 <;> by_cases hy1 : isFinite l.segment.y1 <;>
    by_cases hx2 : isFinite l.segment.x2 <;> by_cases hy2 : isFinite l.segment.y2 <;>
    simp [hx1, hy1, hx2, hy2]

end Line

private theorem Failure.ofDocument?_toDocument (f : Failure) :
    ofDocument? f.toDocument = some f := by
  simp [toDocument, ofDocument?, required_cons_of_ne, string?]

namespace Snapshot

def coordinates (s : Snapshot) : List Float :=
  s.bugs.flatMap BugView.coordinates ++ s.lines.flatMap Line.coordinates

private theorem optional_failures (failures : List Failure) :
    Document.optional (failureMembers failures) "failures" [] (each Failure.ofDocument?) =
      some failures := by
  cases failures with
  | nil => rfl
  | cons f fs =>
    have hread : each Failure.ofDocument? (.array ((f :: fs).map Failure.toDocument)) =
        if (f :: fs).all fun _ => true then some (f :: fs) else none :=
      each_map Failure.ofDocument?_toDocument (f :: fs)
    simp only [failureMembers, List.isEmpty_cons, Document.optional]
    simpa using hread

private theorem ofDocument?_toDocument (s : Snapshot) :
    ofDocument? s.toDocument = if s.coordinates.all isFinite then some s else none := by
  have hbugs := each_map BugView.ofDocument?_toDocument s.bugs
  have hlines := each_map Line.ofDocument?_toDocument s.lines
  simp only [toDocument, List.cons_append, List.nil_append, ofDocument?, required_cons_self,
    required_cons_of_ne, optional_cons_of_ne, optional_failures, ne_eq, String.reduceEq,
    not_false_eq_true, natural?, hbugs, hlines]
  simp only [coordinates, List.all_append, List.all_flatMap]
  cases s.bugs.all fun b => b.coordinates.all isFinite <;>
    cases s.lines.all fun l => l.coordinates.all isFinite <;> rfl

theorem readsBack_eq (s : Snapshot) : s.readsBack = s.coordinates.all isFinite := by
  rw [readsBack, ofDocument?_toDocument]
  cases s.coordinates.all isFinite <;> rfl

private theorem field?_failures_eq_none (s : Snapshot) :
    s.toDocument.field? "failures" = none ↔ s.failures = [] := by
  simp only [toDocument, List.cons_append, List.nil_append, field?, member?_cons_of_ne, ne_eq,
    String.reduceEq, not_false_eq_true]
  cases s.failures <;> simp [failureMembers, member?]

/-- The document of a snapshot gives the snapshot back if all its coordinates are finite, and
nothing otherwise. It has no member for failures if there are none, and no bug with a lifted pen
has one for its color. -/
theorem reads_back_iff_finite (s : Snapshot) :
    ofDocument? s.toDocument = (if s.coordinates.all isFinite then some s else none) ∧
      (s.toDocument.field? "failures" = none ↔ s.failures = []) ∧
      ∀ b ∈ s.bugs, b.toDocument.field? "color" = none ↔ b.color = none := by
  constructor
  · exact s.ofDocument?_toDocument
  constructor
  · exact s.field?_failures_eq_none
  · intro b _
    exact b.field?_color_eq_none

end Snapshot

end DrawingBugs
