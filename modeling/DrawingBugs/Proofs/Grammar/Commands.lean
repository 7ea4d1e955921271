import DrawingBugs.Grammar.Command
import DrawingBugs.Proofs.Grammar.Expressions

/-!
# Commands are recognized

The rules for actions, statements and blocks read the phrases for them. Rules with commands
inside are treated over any rule that reads those commands.
-/

namespace DrawingBugs.Grammar

open Syntax Recognizer

variable {ι : Type} {b : ι → Nat} {N : Nat}

abbrev lineFirst : List TokenClass := [⟨.endOfLine, none⟩]

/-! ## Actions and plain statements -/

private theorem begins_furtherOperands (count : Nat) (barred : List TokenClass) :
    (Form.ofPhrase (FurtherOperands count) barred).Begins [⟨.symbol, ","⟩] := by
  rintro ⟨steps⟩ t ts hts
  cases steps with
  | none => cases hts
  | more separator operand rest =>
    cases separator with
    | token hfits =>
      cases hts
      exact Token.among_singleton.mpr hfits

private theorem furtherOperands_reads (word : String) (count : Nat) :
    Reads N b (fun _ => furtherOperands word count)
      (Form.ofPhrase (FurtherOperands count) expressionBarred) := by
  induction count with
  | zero =>
    refine (Reads.nothing [] (·.Among expressionBarred)).map (fun _ => ⟨.none⟩) ?_ (fun _ => rfl)
      (fun _ => rfl) fun _ _ ht => ht
    rintro ⟨⟨⟩⟩
    exact ⟨(), rfl⟩
  | succ count ih =>
    have hcomma : Recognizes N b (fun _ : ι => symbol ",") _ _ _ := Recognizes.symbol ","
    have hall : Reads N b (fun _ => furtherOperands word (count + 1)) _ :=
      (hcomma.expect (.operandComma word)).andThen
        (fun _ => (expression_recognizes.expect (.operand word)).andThen
          (fun _ => ih.withValue _)
          fun _ => (begins_furtherOperands count _).avoids (by decide) fun _ _ ht => ht)
        fun _ => Form.avoids_none
    refine hall.map (fun d => ⟨.more d.1.steps d.2.1.steps d.2.2.steps⟩) ?_ (fun _ => rfl)
      (fun _ => rfl) fun _ _ ht => ht
    rintro ⟨⟨⟩⟩
    exact ⟨⟨⟨_⟩, ⟨_⟩, ⟨_⟩⟩, rfl⟩

private theorem withOperands_recognizes (word : String) (further : Nat) :
    Recognizes N b (fun _ => withOperands word further) (Directive word further)
      [⟨.keyword, word⟩] lineFirst := by
  have hline : Recognizes (N - 1) (fun i => b i - 1) (fun _ : ι => lineEnd) _ _ _ := Recognizes.lineEnd
  refine (Recognizes.keyword word).commit
    (fun _ => (expression_recognizes.expect (.operand word)).andThen
      (fun _ => (furtherOperands_reads word further).andThen
        (fun _ => (hline.expect (.operandsEnd word)).withValue _)
        fun _ => hline.starts.avoids (by decide))
      fun _ => ((begins_furtherOperands further _).bind fun _ => hline.starts).avoids (by decide))
    (fun _ => Form.avoids_none)
    (fun d => ⟨.directive d.1.steps d.2.1.steps d.2.2.1.steps d.2.2.2.steps⟩) ?_ (fun _ => rfl)
    (fun _ => rfl) fun _ _ _ ht => ht
  rintro ⟨⟨keyword, first, rest, ending⟩⟩
  exact ⟨⟨⟨keyword⟩, ⟨first⟩, ⟨rest⟩, ⟨ending⟩⟩, rfl⟩

abbrev actionFirst : List TokenClass :=
  [⟨.keyword, "move"⟩, ⟨.keyword, "moveto"⟩, ⟨.keyword, "turn"⟩, ⟨.keyword, "turnto"⟩,
    ⟨.keyword, "line"⟩]

private theorem action_recognizes :
    Recognizes N b (fun _ => action) Action actionFirst lineFirst := by
  have hturnTo := (withOperands_recognizes (b := b) (N := N) "turnto" 0).either
    (withOperands_recognizes "line" 3) (by decide)
  have hturn := (withOperands_recognizes "turn" 0).either hturnTo (by decide)
  have hmoveTo := (withOperands_recognizes "moveto" 1).either hturn (by decide)
  refine ((withOperands_recognizes "move" 0).either hmoveTo (by decide)).map
    (fun d => ⟨d.steps.elim .move fun d => d.elim .moveTo fun d => d.elim .turn fun d =>
      d.elim .turnTo .line⟩) ?_ (fun _ => rfl) (fun _ => rfl) fun _ ht => ht.mono (by decide)
  rintro ⟨d | d | d | d | d⟩
  · exact ⟨⟨.inl d⟩, rfl⟩
  · exact ⟨⟨.inr (.inl d)⟩, rfl⟩
  · exact ⟨⟨.inr (.inr (.inl d))⟩, rfl⟩
  · exact ⟨⟨.inr (.inr (.inr (.inl d)))⟩, rfl⟩
  · exact ⟨⟨.inr (.inr (.inr (.inr d)))⟩, rfl⟩

private theorem assignment_recognizes :
    Recognizes N b (fun _ => assignment) Assignment [⟨.name, none⟩] lineFirst := by
  have hequals : Recognizes (N - 1) (fun i => b i - 1) (fun _ : ι => symbol "=") _ _ _ :=
    Recognizes.symbol "="
  have hline : Recognizes (N - 1) (fun i => b i - 1) (fun _ : ι => lineEnd) _ _ _ := Recognizes.lineEnd
  refine Recognizes.name.commit
    (fun _ => (hequals.expect .assignSign).andThen
      (fun _ => (expression_recognizes.expect .assignedValue).andThen
        (fun _ => (hline.expect .assignmentEnd).withValue _)
        fun _ => hline.starts.avoids (by decide))
      fun _ => Form.avoids_none)
    (fun _ => Form.avoids_none)
    (fun d => ⟨.assign d.1.steps d.2.1.steps d.2.2.1.steps d.2.2.2.steps⟩) ?_ (fun _ => rfl)
    (fun _ => rfl) fun _ _ _ ht => ht
  rintro ⟨⟨target, equals, value, ending⟩⟩
  exact ⟨⟨⟨target⟩, ⟨equals⟩, ⟨value⟩, ⟨ending⟩⟩, rfl⟩

private theorem exitStatement_recognizes :
    Recognizes N b (fun _ => exitStatement) Exit [⟨.keyword, "exit"⟩] lineFirst := by
  have hif : Recognizes (N - 1) (fun i => b i - 1) (fun _ : ι => keyword "if") _ _ _ :=
    Recognizes.keyword "if"
  have hline : Recognizes (N - 1) (fun i => b i - 1) (fun _ : ι => lineEnd) _ _ _ := Recognizes.lineEnd
  refine (Recognizes.keyword "exit").commit
    (fun _ => (hif.expect .exitIf).andThen
      (fun _ => (expression_recognizes.expect .exitCondition).andThen
        (fun _ => (hline.expect .exitEnd).withValue _)
        fun _ => hline.starts.avoids (by decide))
      fun _ => Form.avoids_none)
    (fun _ => Form.avoids_none)
    (fun d => ⟨.exit d.1.steps d.2.1.steps d.2.2.1.steps d.2.2.2.steps⟩) ?_ (fun _ => rfl)
    (fun _ => rfl) fun _ _ _ ht => ht
  rintro ⟨⟨keyword, word, condition, ending⟩⟩
  exact ⟨⟨⟨keyword⟩, ⟨word⟩, ⟨condition⟩, ⟨ending⟩⟩, rfl⟩

private theorem doStatement_recognizes :
    Recognizes N b (fun _ => doStatement) Performance [⟨.keyword, "do"⟩] lineFirst := by
  have hname : Recognizes (N - 1) (fun i => b i - 1) (fun _ : ι => name) _ _ _ := Recognizes.name
  have harguments : Recognizes (N - 1) (fun i => b i - 1) (fun _ : ι => parameterList) _ _ _ :=
    parameterList_recognizes
  have hline : Recognizes (N - 1) (fun i => b i - 1) (fun _ : ι => lineEnd) _ _ _ := Recognizes.lineEnd
  refine (Recognizes.keyword "do").commit
    (fun _ => (hname.expect .doName).andThen
      (fun _ => harguments.reads.optional.andThen
        (fun _ => (hline.expect .doEnd).withValue _) fun _ => hline.starts.avoids (by decide))
      fun _ => Form.avoids_none)
    (fun _ => Form.avoids_none)
    (fun d => ⟨.perform d.1.steps d.2.1.steps d.2.2.1.steps d.2.2.2.steps⟩) ?_ (fun _ => rfl)
    (fun _ => rfl) fun _ _ _ ht => ht
  rintro ⟨⟨keyword, function, arguments, ending⟩⟩
  exact ⟨⟨⟨keyword⟩, ⟨function⟩, ⟨arguments⟩, ⟨ending⟩⟩, rfl⟩

private theorem colorStatement_recognizes :
    Recognizes N b (fun _ => colorStatement) Coloring [⟨.keyword, "color"⟩] lineFirst := by
  have hvalue : Recognizes (N - 1) (fun i => b i - 1) (fun _ : ι => take .keyword none) _ _ _ :=
    Recognizes.take .keyword none (by decide)
  have hline : Recognizes (N - 1) (fun i => b i - 1) (fun _ : ι => lineEnd) _ _ _ := Recognizes.lineEnd
  refine (Recognizes.keyword "color").commit
    (fun _ => (hvalue.expect .colorName).andThen
      (fun _ => (hline.expect .colorEnd).withValue _) fun _ => Form.avoids_none)
    (fun _ => Form.avoids_none) (fun d => ⟨.color d.1.steps d.2.1.steps d.2.2.steps⟩) ?_
    (fun _ => rfl) (fun _ => rfl) fun _ _ _ ht => ht
  rintro ⟨⟨keyword, color, ending⟩⟩
  exact ⟨⟨⟨keyword⟩, ⟨color⟩, ⟨ending⟩⟩, rfl⟩

/-! ## Commands inside others -/

/-- What a command starts with. -/
abbrev commandFirst : List TokenClass :=
  actionFirst ++ [⟨.name, none⟩, ⟨.keyword, "loop"⟩, ⟨.keyword, "exit"⟩, ⟨.keyword, "switch"⟩,
    ⟨.keyword, "return"⟩, ⟨.keyword, "do"⟩, ⟨.keyword, "color"⟩]

section Open

variable {nested : ι → Rule}

private theorem blockOver_recognizes
    (h : Recognizes (N - 1) (fun i => b i - 1) nested Command commandFirst lineFirst) :
    Recognizes N b (fun i => blockOver (nested i)) (Block Command) [⟨.symbol, "\x7b"⟩] lineFirst := by
  have hclose : Recognizes (N - 1) (fun i => b i - 1) (fun _ : ι => symbol "\x7d") _ _ _ :=
    Recognizes.symbol "\x7d"
  have hline : Recognizes (N - 1) (fun i => b i - 1) (fun _ : ι => lineEnd) _ _ _ := Recognizes.lineEnd
  refine (Recognizes.symbol "\x7b").commit
    (fun _ => (hline.expect .blockLine).andThen
      (fun _ => (h.many (by decide)).andThen
        (fun _ => (hclose.expect .blockClosing).andThen
          (fun _ => (hline.expect .blockEnd).withValue _) fun _ => Form.avoids_none)
        fun _ => hclose.starts.bind.avoids (by decide))
      fun _ => ((h.begins_repeated _).bind fun _ => hclose.starts.bind).avoids (by decide))
    (fun _ => Form.avoids_none)
    (fun d => ⟨.block (.braces d.1.steps d.2.1.steps d.2.2.1.steps d.2.2.2.1.steps d.2.2.2.2.steps)⟩)
    ?_ (fun _ => rfl) (fun _ => rfl) fun _ _ _ ht => ht
  rintro ⟨⟨⟨o, line, items, c, ending⟩⟩⟩
  exact ⟨⟨⟨o⟩, ⟨line⟩, ⟨items⟩, ⟨c⟩, ⟨ending⟩⟩, rfl⟩

/-- A loop whose body is given as a block. -/
def loopOfBlock {C : Phrase Tree} {p q : List Token} {k : Token} {t : Tree} (keyword : Keyword "loop" p k) :
    Block C q t → Loop C (p ++ q) (.node k [t])
  | .block body => .loop keyword body

private theorem loopOver_recognizes
    (h : Recognizes (N - 1) (fun i => b i - 1) nested Command commandFirst lineFirst) :
    Recognizes N b (fun i => loopOver (nested i)) (Loop Command) [⟨.keyword, "loop"⟩] lineFirst := by
  have hblock := blockOver_recognizes h.later
  refine (Recognizes.keyword "loop").commit (fun _ => (hblock.expect .loopBody).withValue _)
    (fun _ => Form.avoids_none) (fun d => ⟨loopOfBlock d.1.steps d.2.steps⟩) ?_ (fun _ => rfl)
    (fun _ => rfl) fun _ _ _ ht => ht
  rintro ⟨⟨keyword, body⟩⟩
  exact ⟨⟨⟨keyword⟩, ⟨.block body⟩⟩, rfl⟩

private theorem caseOver_recognizes
    (h : Recognizes (N - 1) (fun i => b i - 1) nested Command commandFirst lineFirst) :
    Recognizes N b (fun i => caseOver (nested i)) (Case Command) [⟨.keyword, "case"⟩]
      (commandFirst ++ lineFirst) := by
  have hline : Recognizes (N - 1) (fun i => b i - 1) (fun _ : ι => lineEnd) _ _ _ := Recognizes.lineEnd
  refine (Recognizes.keyword "case").commit
    (fun _ => (expression_recognizes.expect .caseGuard).andThen
      (fun _ => (hline.expect .caseLine).andThen (fun _ => (h.many (by decide)).withValue _)
        fun _ => (h.begins_repeated (commandFirst ++ lineFirst)).avoids (by decide)
          fun _ _ ht => ht.mono (by decide))
      fun _ => hline.starts.bind.avoids (by decide))
    (fun _ => Form.avoids_none)
    (fun d => ⟨.case d.1.steps d.2.1.steps d.2.2.1.steps d.2.2.2.steps⟩) ?_ (fun _ => rfl)
    (fun _ => rfl) fun _ _ _ ht => ht
  rintro ⟨⟨keyword, guard, line, commands⟩⟩
  exact ⟨⟨⟨keyword⟩, ⟨guard⟩, ⟨line⟩, ⟨commands⟩⟩, rfl⟩

private theorem switchOver_recognizes
    (h : Recognizes (N - 1) (fun i => b i - 1) nested Command commandFirst lineFirst) :
    Recognizes N b (fun i => switchOver (nested i)) (Switch Command) [⟨.keyword, "switch"⟩]
      lineFirst := by
  have hclose : Recognizes (N - 1) (fun i => b i - 1) (fun _ : ι => symbol "\x7d") _ _ _ :=
    Recognizes.symbol "\x7d"
  have hline : Recognizes (N - 1) (fun i => b i - 1) (fun _ : ι => lineEnd) _ _ _ := Recognizes.lineEnd
  have hcase := caseOver_recognizes h.later
  refine (Recognizes.keyword "switch").commit
    (fun _ => (Reads.opening .switchOpening .switchLine).andThen
      (fun _ => (hcase.many (by decide)).andThen
        (fun _ => (hclose.expect .switchClosing).andThen
          (fun _ => (hline.expect .switchEnd).withValue _) fun _ => Form.avoids_none)
        fun _ => hclose.starts.bind.avoids (by decide))
      fun _ => ((hcase.begins_repeated _).bind fun _ => hclose.starts.bind).avoids (by decide))
    (fun _ => Form.avoids_none)
    (fun d => ⟨.switch d.1.steps (.braces d.2.1.1.steps d.2.1.2.steps d.2.2.1.steps d.2.2.2.1.steps
      d.2.2.2.2.steps)⟩) ?_ ?_ (fun _ => rfl) fun _ _ _ ht => ht
  · rintro ⟨⟨keyword, ⟨o, line, cases, c, ending⟩⟩⟩
    exact ⟨⟨⟨keyword⟩, ⟨⟨o⟩, ⟨line⟩⟩, ⟨cases⟩, ⟨c⟩, ⟨ending⟩⟩, rfl⟩
  · intro d
    simp [Form.bind, Form.withValue, Form.ofPhrase]

private theorem statementOver_recognizes
    (h : Recognizes (N - 1) (fun i => b i - 1) nested Command commandFirst lineFirst) :
    Recognizes N b (fun i => statementOver (nested i))
      (Choice Assignment (Choice (Loop Command) (Choice Exit (Choice (Switch Command)
        (Choice (Directive "return" 0) (Choice Performance Coloring))))))
      [⟨.name, none⟩, ⟨.keyword, "loop"⟩, ⟨.keyword, "exit"⟩, ⟨.keyword, "switch"⟩,
        ⟨.keyword, "return"⟩, ⟨.keyword, "do"⟩, ⟨.keyword, "color"⟩]
      (lineFirst ++ (lineFirst ++ (lineFirst ++ (lineFirst ++ (lineFirst ++ (lineFirst ++ lineFirst)))))) := by
  have hdo := doStatement_recognizes (b := b) (N := N) |>.either colorStatement_recognizes (by decide)
  have hreturn := (withOperands_recognizes "return" 0).either hdo (by decide)
  have hswitch := (switchOver_recognizes h).either hreturn (by decide)
  have hexit := exitStatement_recognizes.either hswitch (by decide)
  have hloop := (loopOver_recognizes h).either hexit (by decide)
  exact assignment_recognizes.either hloop (by decide)

private theorem commandOver_recognizes
    (h : Recognizes (N - 1) (fun i => b i - 1) nested Command commandFirst lineFirst) :
    Recognizes N b (fun i => commandOver (nested i)) Command commandFirst lineFirst := by
  refine (action_recognizes.either (statementOver_recognizes h) (by decide)).map
    (fun d => ⟨d.steps.elim .action fun d => d.elim .assign fun d => d.elim .loop fun d =>
      d.elim .exit fun d => d.elim .switch fun d => d.elim .leave fun d => d.elim .perform .color⟩)
    ?_ (fun _ => rfl) (fun _ => rfl) fun _ ht => ht.mono (by decide)
  rintro ⟨d | d | d | d | d | d | d | d⟩
  · exact ⟨⟨.inl d⟩, rfl⟩
  · exact ⟨⟨.inr (.inl d)⟩, rfl⟩
  · exact ⟨⟨.inr (.inr (.inl d))⟩, rfl⟩
  · exact ⟨⟨.inr (.inr (.inr (.inl d)))⟩, rfl⟩
  · exact ⟨⟨.inr (.inr (.inr (.inr (.inl d))))⟩, rfl⟩
  · exact ⟨⟨.inr (.inr (.inr (.inr (.inr (.inl d)))))⟩, rfl⟩
  · exact ⟨⟨.inr (.inr (.inr (.inr (.inr (.inr (.inl d))))))⟩, rfl⟩
  · exact ⟨⟨.inr (.inr (.inr (.inr (.inr (.inr (.inr d))))))⟩, rfl⟩

end Open

/-! ## The rules for commands -/

private theorem starts_directive {word : String} {further : Nat} {ts : List Token} {t : Tree}
    (d : Directive word further ts t) (hword : ⟨.keyword, some word⟩ ∈ commandFirst) :
    ∃ u us, ts = u :: us ∧ u.Among commandFirst := by
  obtain ⟨⟨hfits⟩, -, -, -⟩ := d
  exact ⟨_, _, rfl, _, hword, hfits⟩

theorem starts_command : (Form.ofPhrase Command lineFirst).Starts commandFirst := by
  rintro ⟨d⟩
  cases d with
  | action d => cases d with | _ d => exact starts_directive d (by decide)
  | leave d => exact starts_directive d (by decide)
  | assign d =>
    obtain ⟨⟨hfits⟩, -, -, -⟩ := d
    exact ⟨_, _, rfl, ⟨.name, none⟩, by decide, hfits⟩
  | loop d =>
    obtain ⟨⟨hfits⟩, -⟩ := d
    exact ⟨_, _, rfl, ⟨.keyword, "loop"⟩, by decide, hfits⟩
  | exit d =>
    obtain ⟨⟨hfits⟩, -, -, -⟩ := d
    exact ⟨_, _, rfl, ⟨.keyword, "exit"⟩, by decide, hfits⟩
  | switch d =>
    obtain ⟨⟨hfits⟩, -⟩ := d
    exact ⟨_, _, rfl, ⟨.keyword, "switch"⟩, by decide, hfits⟩
  | perform d =>
    obtain ⟨⟨hfits⟩, -, -, -⟩ := d
    exact ⟨_, _, rfl, ⟨.keyword, "do"⟩, by decide, hfits⟩
  | color d =>
    obtain ⟨⟨hfits⟩, -, -⟩ := d
    exact ⟨_, _, rfl, ⟨.keyword, "color"⟩, by decide, hfits⟩

private theorem inhabited_command : Nonempty (Derivation Command) := by
  obtain ⟨d⟩ := (colorStatement_recognizes (b := fun _ : Unit => 0) (N := 0)).inhabited
  exact ⟨⟨.color d.steps⟩⟩

private theorem commandWithin_recognizes :
    Recognizes N (fun fuel => fuel) commandWithin Command commandFirst lineFirst := by
  induction N with
  | zero =>
    exact ⟨⟨⟨none⟩, fun σ hσ => absurd hσ (Nat.not_lt_zero _)⟩, starts_command, inhabited_command⟩
  | succ N ih =>
    have hopen := commandOver_recognizes (N := N + 1) (b := fun fuel => fuel + 1) ih
    refine ⟨hopen.reads.imp ?_, starts_command, inhabited_command⟩
    rintro σ o hg (_ | fuel) s hfuel hs
    · exact absurd hfuel (Nat.not_lt_zero _)
    · exact hg fuel s hfuel hs

theorem command_recognizes : Recognizes N b (fun _ => command) Command commandFirst lineFirst := by
  have hwithin := commandWithin_recognizes.reads.reindex (N := N) Prod.snd
    fun j : ι × Nat => Nat.min_le_right (b j.1) j.2
  exact ⟨hwithin.sized, starts_command, inhabited_command⟩

theorem block_recognizes :
    Recognizes N b (fun _ => block) (Block Command) [⟨.symbol, "\x7b"⟩] lineFirst :=
  blockOver_recognizes command_recognizes

end DrawingBugs.Grammar
