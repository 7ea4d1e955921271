import DrawingBugs.Program
import DrawingBugs.Proofs.Grammar.Definitions

/-!
# Programs are recognized

The rule for a text that has to hold a program reads the texts of the grammar, right before the
end of the input.
-/

namespace DrawingBugs.Grammar

open Syntax Recognizer

variable {ι : Type} {b : ι → Nat} {N : Nat}

/-! ## Bugs -/

/-- Bugs, if any, right before the end of the input. -/
def bugsForm : Form (Option (Derivation Bugs)) (List Tree) where
  tokens d := d.elim [] (·.tokens)
  value d := d.elim [] (·.value)
  barred _ := NotAtEnd

private theorem starts_bugs {ts : List Token} {us : List Tree} (d : Bugs ts us) :
    ∃ t rest, ts = t :: rest ∧ t.Among [⟨.keyword, "Bug"⟩] := by
  obtain ⟨body, _⟩ | ⟨body, _, _⟩ := d <;>
  · obtain ⟨t, rest, hts, ht⟩ := (bugBody_recognizes (b := fun _ : Unit => 0) (N := 0)).starts ⟨body⟩
    exact ⟨t, _, by simp only [Form.ofPhrase] at hts; rw [hts]; rfl, ht⟩

private theorem not_atEnd_of_among {t : Token} {classes : List TokenClass} (h : t.Among classes)
    (hdisjoint : TokenClass.disjoint classes [⟨.endOfInput, "EOF"⟩]) : NotAtEnd t :=
  fun hfits => h.of_disjoint hdisjoint (Token.among_singleton.mpr hfits)

/-- What comes after the body of a bug: its line end and further bugs, or the end of the input. -/
def closeBug (fuel : Nat) (bug : Tree) : Recognizer (List Tree) := do
  match ← lineEnd with
  | some () => manyWithin bugDefinition fuel >>= fun rest => return bug :: rest
  | none =>
    if ← isNext .endOfInput "EOF" then
      manyWithin bugDefinition fuel >>= fun rest => return bug :: rest
    else fail .bugEnd

private theorem manyWithin_bugDefinition_succ (fuel : Nat) :
    manyWithin bugDefinition (fuel + 1) = (do
      match ← bugBody with
      | some bug => closeBug fuel bug
      | none => return []) := by
  show bugDefinition >>= _ = _
  rw [bugDefinition_bind]
  refine bind_congr fun o => ?_
  cases o with
  | none => rfl
  | some t => exact expectLineEndOrEnd_bind .bugEnd _

private theorem gives_of_succ {α : Type} {R : Nat → Recognizer α} {σ : TokenStream} {o : Answer α}
    (h : Gives (fun fuel => fuel + 1) (fun fuel => R (fuel + 1)) σ o) :
    Gives (fun fuel => fuel) R σ o := by
  rintro (_ | fuel) s hfuel hs
  · exact absurd hfuel (Nat.not_lt_zero _)
  · exact h fuel s hfuel hs

private theorem manyWithin_bugDefinition_gives_nil {σ : TokenStream} (h : σ.Stops NotAtEnd) :
    Gives (fun fuel => fuel) (manyWithin bugDefinition) σ (.done [] σ) := by
  refine gives_of_succ ?_
  simp only [manyWithin_bugDefinition_succ]
  have hnone := bugBody_recognizes.reads.gives_of_splits (b := fun fuel => fuel + 1) (d := none)
    (Nat.lt_succ_self σ.length) ⟨rfl, h.mono fun _ ht => not_atEnd_of_among ht (by decide)⟩
  exact hnone.bind_here (Gives.pure [] σ)

private theorem closeBug_reads
    (hrest : Reads N (fun fuel => fuel) (manyWithin bugDefinition) bugsForm)
    (bug : Tree) : Reads N (fun fuel => fuel) (fun fuel => closeBug fuel bug)
      (((Form.ofPhrase LineEnds lineFirst).bind fun _ => bugsForm.withValue (bug :: ·)).sum
        (Form.nothing [bug] NotAtEnd)) := by
  have hline : Recognizes N (fun fuel => fuel) (fun _ : Nat => lineEnd) _ _ _ := Recognizes.lineEnd
  refine hline.reads.branch hline.starts
    (fun _ => (hrest.withValue (bug :: ·)).mono (Nat.sub_le N 1) fun fuel => Nat.sub_le fuel 1)
    (Reads.ifNext ?_ (fail_refuses .bugEnd)) (fun _ => ?_)
    (Form.avoids_nothing fun _ ht => not_atEnd_of_among ht (by decide))
  · intro σ t hnext hfits
    have hnil := manyWithin_bugDefinition_gives_nil ⟨t, hnext, not_not_intro hfits⟩
    exact hnil.bind_here (Gives.pure [bug] σ)
  · have hbegins : bugsForm.Begins [⟨.keyword, "Bug"⟩] := by
      rintro (_ | d) t ts hts
      · cases hts
      · obtain ⟨t', rest, hts', ht'⟩ := starts_bugs d.steps
        cases hts.symm.trans hts'
        exact ht'
    exact hbegins.avoids (by decide) fun _ _ ht => not_atEnd_of_among ht (by decide)

/-- A body, and after it a line end with further bugs, if any, or nothing. -/
def bugsOf : ((_ : Derivation BugBody) × (((_ : Derivation LineEnds) × Option (Derivation Bugs)) ⊕ Unit))
    ⊕ Unit → Option (Derivation Bugs)
  | .inl ⟨body, .inl ⟨line, some rest⟩⟩ => some ⟨.more body.steps line.steps rest.steps⟩
  | .inl ⟨body, .inl ⟨line, none⟩⟩ => some ⟨.last body.steps (.present line.steps)⟩
  | .inl ⟨body, .inr ()⟩ => some ⟨.last body.steps .absent⟩
  | .inr () => none

private theorem manyWithin_bugDefinition_reads :
    Reads N (fun fuel => fuel) (manyWithin bugDefinition) bugsForm := by
  induction N with
  | zero => exact ⟨⟨none⟩, fun σ hσ => absurd hσ (Nat.not_lt_zero _)⟩
  | succ N ih =>
    have hbody : Recognizes (N + 1) (fun fuel => fuel + 1) (fun _ : Nat => bugBody) _ _ _ :=
      bugBody_recognizes
    have hnext : Reads (N + 1) (fun fuel => fuel + 1)
        (fun fuel => manyWithin bugDefinition (fuel + 1)) bugsForm := by
      simp only [manyWithin_bugDefinition_succ]
      have hbranch := hbody.reads.branch (S := fun fuel o => do
          match o with
          | some bug => closeBug fuel bug
          | none => return []) hbody.starts
        (fun d => closeBug_reads ih d.value) (Reads.nothing [] NotAtEnd) (fun _ => Form.avoids_none)
        (Form.avoids_nothing fun _ ht => not_atEnd_of_among ht (by decide))
      refine hbranch.map bugsOf ?_ ?_ ?_ ?_
      · rintro (_ | ⟨⟨body, _ | line⟩ | ⟨body, line, rest⟩⟩)
        · exact ⟨.inr (), rfl⟩
        · exact ⟨.inl ⟨⟨body⟩, .inr ()⟩, rfl⟩
        · exact ⟨.inl ⟨⟨body⟩, .inl ⟨⟨line⟩, none⟩⟩, rfl⟩
        · exact ⟨.inl ⟨⟨body⟩, .inl ⟨⟨line⟩, some ⟨rest⟩⟩⟩, rfl⟩
      · rintro (⟨body, ⟨line, _ | rest⟩ | _⟩ | _) <;>
          simp [bugsOf, bugsForm, Form.sum, Form.bind, Form.nothing, Form.withValue, Form.ofPhrase]
      · rintro (⟨body, ⟨line, _ | rest⟩ | _⟩ | _) <;> rfl
      · rintro (⟨body, ⟨line, _ | rest⟩ | _⟩ | _) t ht <;> exact ht
    exact hnext.imp fun σ o hg => gives_of_succ hg

theorem many_bugDefinition_reads : Reads N b (fun _ => many bugDefinition) bugsForm := by
  have hwithin := manyWithin_bugDefinition_reads.reindex (N := N) Prod.snd
    fun j : ι × Nat => Nat.min_le_right (b j.1) j.2
  exact hwithin.sized

/-! ## The shared section -/

/-- The shared section, if there is one, right before the first bug. -/
def sharedForm : Form (Derivation (Optional Allbugs)) Tree where
  tokens d := d.tokens
  value d := d.value.getD (.labeled "Allbugs" [])
  barred _ t := ¬ t.fits .keyword (some "Bug")

/-- After its line end the shared section has to be followed by a bug. -/
def closeShared (shared : Tree) : Recognizer Tree := do
  match ← lineEnd with
  | some () => if ← isNext .keyword "Bug" then return shared else fail .bugAfterAllbugs
  | none =>
    if ← isNext .endOfInput "EOF" then
      if ← isNext .keyword "Bug" then return shared else fail .bugAfterAllbugs
    else fail .allbugsEnd

private theorem sharedSection_eq :
    sharedSection = (do
      match ← allbugsBody with
      | some shared => closeShared shared
      | none => return .labeled "Allbugs" []) := by
  show allbugsCode >>= _ = _
  rw [allbugsCode_bind]
  refine bind_congr fun o => ?_
  cases o with
  | none => rfl
  | some shared => exact expectLineEndOrEnd_bind .allbugsEnd _

private theorem closeShared_refuses (shared : Tree) : Refuses b fun _ => (do
    if ← isNext .endOfInput "EOF" then
      if ← isNext .keyword "Bug" then return shared else fail .bugAfterAllbugs
    else fail .allbugsEnd) := by
  intro σ
  cases hnext : σ.next with
  | error e =>
    exact ⟨.lexical e, rfl, fun τ hτ => (isNext_gives_stuck _ _ hτ).bind_stuck⟩
  | ok t =>
    by_cases hfits : t.fits .endOfInput (some "EOF")
    · have hbug : t.fits .keyword (some "Bug") = false := by
        have hkind := Token.kind_of_fits hfits
        simp [Token.fits, hkind]
      obtain ⟨e, hblames, hgives⟩ := fail_refuses (b := b) (α := Tree) .bugAfterAllbugs σ
      refine ⟨e, hnext ▸ hblames, fun τ hτ => ?_⟩
      have hend := isNext_gives (b := b) .endOfInput "EOF" hτ
      have hpeek := isNext_gives (b := b) .keyword "Bug" hτ
      rw [hbug] at hpeek
      rw [hfits] at hend
      exact hend.bind_here (hpeek.bind_here (hgives τ (hτ.trans hnext.symm)))
    · obtain ⟨e, hblames, hgives⟩ := fail_refuses (b := b) (α := Tree) .allbugsEnd σ
      refine ⟨e, hnext ▸ hblames, fun τ hτ => ?_⟩
      have hend := isNext_gives (b := b) .endOfInput "EOF" hτ
      rw [Bool.not_eq_true] at hfits
      rw [hfits] at hend
      exact hend.bind_here (hgives τ (hτ.trans hnext.symm))

private theorem closeShared_reads (shared : Tree) :
    Reads N b (fun _ => closeShared shared)
      ((Form.ofPhrase LineEnds lineFirst).bind fun _ =>
        Form.nothing shared fun t => ¬ t.fits .keyword (some "Bug")) := by
  have hline : Recognizes N b (fun _ : ι => lineEnd) _ _ _ := Recognizes.lineEnd
  refine hline.reads.require rfl hline.inhabited
    (fun _ => Reads.ifNext (fun σ _ _ _ => Gives.pure shared σ) (fail_refuses .bugAfterAllbugs))
    (closeShared_refuses shared) fun _ => Form.avoids_nothing fun t ht hfits => ?_
  exact ht.of_disjoint (by decide) (Token.among_singleton (c := ⟨.keyword, "Bug"⟩).mpr hfits)

theorem sharedSection_reads : Reads N b (fun _ => sharedSection) sharedForm := by
  have hbody : Recognizes N b (fun _ : ι => allbugsBody) _ _ _ := allbugsBody_recognizes
  have hbranch := hbody.reads.branch (S := fun _ o => do
      match o with
      | some shared => closeShared shared
      | none => return Tree.labeled "Allbugs" []) hbody.starts
    (fun d => closeShared_reads d.value)
    (Reads.nothing (Tree.labeled "Allbugs" []) fun t => ¬ t.fits .keyword (some "Bug"))
    (fun _ => Form.avoids_none) (Form.avoids_nothing fun t ht hfits =>
      ht.of_disjoint (by decide) (Token.among_singleton (c := ⟨.keyword, "Bug"⟩).mpr hfits))
  simp only [sharedSection_eq]
  refine hbranch.map (Sum.elim (fun d => ⟨.present (.allbugs d.1.steps d.2.1.steps)⟩)
    fun _ => ⟨.absent⟩) ?_ ?_ ?_ ?_
  · rintro ⟨_ | ⟨⟨body, line⟩⟩⟩
    · exact ⟨.inr (), rfl⟩
    · exact ⟨.inl ⟨⟨body⟩, ⟨line⟩, ()⟩, rfl⟩
  · rintro (d | d)
    · simp [sharedForm, Form.sum, Form.bind, Form.nothing, Form.ofPhrase]
    · rfl
  · rintro (d | d) <;> rfl
  · rintro (d | d) t ht <;> exact ht

private theorem begins_shared : sharedForm.Begins [⟨.keyword, "Allbugs"⟩] := by
  rintro ⟨_ | ⟨⟨body, _⟩⟩⟩ t ts hts
  · cases hts
  · obtain ⟨t', rest, hts', ht'⟩ :=
      (allbugsBody_recognizes (b := fun _ : Unit => 0) (N := 0)).starts ⟨body⟩
    simp only [Form.ofPhrase] at hts'
    simp only [sharedForm, hts', List.cons_append] at hts
    cases hts
    exact ht'

/-! ## Programs -/

/-- A text, right before the end of the input. -/
def textForm : Form (Derivation Text) Tree where
  tokens d := d.tokens
  value d := d.value
  barred _ := NotAtEnd

/-- Bugs, at least one, and the end of the input. -/
def finish (shared : Tree) (bugs : List Tree) : Recognizer Tree :=
  if bugs.isEmpty then fail .bugDefinition
  else atEnd (.labeled "program" [shared, .labeled "list" bugs]) .endOfProgram

theorem required_eq :
    Program.required = (do
      let _ ← lineEnd
      let shared ← sharedSection
      let bugs ← many bugDefinition
      finish shared bugs) := by
  show program >>= _ = _
  simp only [program, bind_assoc]
  refine bind_congr fun _ => bind_congr fun shared => bind_congr fun bugs => ?_
  cases bugs <;> simp [finish, atEnd]

private theorem inhabited_bugs : Nonempty (Derivation Bugs) := by
  obtain ⟨body⟩ := (bugBody_recognizes (b := fun _ : Unit => 0) (N := 0)).inhabited
  exact ⟨⟨.last body.steps .absent⟩⟩

private theorem finish_reads (shared : Tree) (d : Derivation Bugs) :
    Reads N b (fun _ : ι => finish shared d.value)
      (Form.nothing (.labeled "program" [shared, .labeled "list" d.value]) NotAtEnd) := by
  obtain ⟨⟨⟩⟩ := d <;> exact Reads.atEnd _ .endOfProgram

private theorem starts_bugsEnd (shared : Tree) : (bugsForm.present.bind fun d =>
    Form.nothing (Tree.labeled "program" [shared, .labeled "list" d.value]) NotAtEnd).Starts
    [⟨.keyword, "Bug"⟩] :=
  Form.Starts.bind fun d => starts_bugs d.steps

private theorem avoids_bugsEnd (shared : Tree) : (bugsForm.present.bind fun d =>
    Form.nothing (Tree.labeled "program" [shared, .labeled "list" d.value]) NotAtEnd).Avoids
    fun t => ¬ t.fits .keyword (some "Bug") := by
  intro d τ _
  obtain ⟨t, rest, hts, ht⟩ := starts_bugsEnd shared d
  refine ⟨t, by rw [hts]; rfl, not_not_intro ?_⟩
  exact Token.among_singleton.mp ht

theorem required_reads : Reads N b (fun _ => Program.required) textForm := by
  have hline : Recognizes N b (fun _ : ι => lineEnd) _ _ _ := Recognizes.lineEnd
  have hbugs (shared : Tree) : Reads N b (fun _ : ι => many bugDefinition >>= finish shared) _ :=
    many_bugDefinition_reads.require rfl inhabited_bugs (finish_reads shared)
      (fail_refuses .bugDefinition) fun _ => Form.avoids_nothing fun _ ht => ht
  have hshared : Reads N b (fun _ : ι => do
      let shared ← sharedSection
      let bugs ← many bugDefinition
      finish shared bugs) _ :=
    sharedSection_reads.andThen (fun d => hbugs _) fun d => avoids_bugsEnd _
  have hall : Reads N b (fun _ : ι => do
      let _ ← lineEnd
      let shared ← sharedSection
      let bugs ← many bugDefinition
      finish shared bugs) _ :=
    hline.reads.optional.andThen (fun _ => hshared)
      fun _ => (begins_shared.bind fun _ => starts_bugsEnd _).avoids (by decide)
  simp only [required_eq]
  refine hall.map (fun d => ⟨.text d.1.steps d.2.1.steps d.2.2.1.steps⟩) ?_ ?_ ?_ ?_
  · rintro ⟨⟨lines, shared, bugs⟩⟩
    exact ⟨⟨⟨lines⟩, ⟨shared⟩, ⟨bugs⟩, ()⟩, rfl⟩
  · rintro ⟨lines, shared, bugs, _⟩
    simp [textForm, Form.bind, Form.nothing, Form.present, Form.ofPhrase, sharedForm, bugsForm]
  · exact fun _ => rfl
  · exact fun _ _ ht => ht

end DrawingBugs.Grammar
