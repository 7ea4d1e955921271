import DrawingBugs.Grammar.Definition
import DrawingBugs.Proofs.Grammar.Commands

/-!
# Definitions are recognized

The rules for declarations, functions, the shared section and bugs read the phrases for them, up
to the closing brace of a section. What comes after that brace depends on what comes next: a
section that ends without a line end has to be the last one.
-/

namespace DrawingBugs.Grammar

open Syntax Recognizer

variable {ι : Type} {b : ι → Nat} {N : Nat}

private theorem initialBlock_recognizes :
    Recognizes N b (fun _ => initialBlock) Initially [⟨.keyword, "initially"⟩] lineFirst := by
  refine (Recognizes.keyword "initially").commit
    (fun _ => (block_recognizes.expect .initialBlock).withValue _) (fun _ => Form.avoids_none)
    (fun d => ⟨.initially d.1.steps d.2.steps⟩) ?_ (fun _ => rfl) (fun _ => rfl) fun _ _ _ ht => ht
  rintro ⟨⟨keyword, body⟩⟩
  exact ⟨⟨⟨keyword⟩, ⟨body⟩⟩, rfl⟩

abbrev parametersFirst : List TokenClass := [⟨.keyword, "using"⟩]

private theorem parameters_reads :
    Reads N b (fun _ => parameters)
      ((Form.ofPhrase (Optional Parameters) (parametersFirst ++ [⟨.symbol, ","⟩])).withValue
        (·.getD [])) := by
  have husing : Recognizes N b (fun _ : ι => keyword "using") _ _ _ := Recognizes.keyword "using"
  have hnames : Reads (N - 1) (fun i => b i - 1)
      (fun _ : ι => commaSeparated name .firstParameter .nextParameter) _ :=
    Recognizes.name.commaSeparated (by decide) .firstParameter .nextParameter
  have hbranch : Reads N b (fun _ => parameters) _ :=
    husing.reads.branch husing.starts (fun _ => hnames)
      (Reads.nothing [] (·.Among parametersFirst)) (fun _ => Form.avoids_none)
      (Form.avoids_nothing fun _ ht => ht)
  refine hbranch.map
    (Sum.elim (fun d => ⟨.present (.names d.1.steps d.2.steps)⟩) fun _ => ⟨.absent⟩) ?_ ?_ ?_ ?_
  · rintro ⟨_ | ⟨⟨keyword, items⟩⟩⟩
    · exact ⟨.inr (), rfl⟩
    · exact ⟨.inl ⟨⟨keyword⟩, ⟨items⟩⟩, rfl⟩
  · rintro (d | d) <;> rfl
  · rintro (d | d) <;> rfl
  · rintro (d | d) t (ht : t.Among _) <;> exact ht.mono (by decide)

private theorem functionDefinition_recognizes :
    Recognizes N b (fun _ => functionDefinition) Syntax.Function [⟨.keyword, "define"⟩] lineFirst := by
  have hname : Recognizes (N - 1) (fun i => b i - 1) (fun _ : ι => name) _ _ _ := Recognizes.name
  have hblock : Recognizes (N - 1) (fun i => b i - 1) (fun _ : ι => block) _ _ _ := block_recognizes
  refine (Recognizes.keyword "define").commit
    (fun _ => (hname.expect .functionName).andThen
      (fun _ => parameters_reads.andThen (fun _ => (hblock.expect .functionBody).withValue _)
        fun _ => hblock.starts.avoids (by decide))
      fun _ => Form.avoids_none)
    (fun _ => Form.avoids_none)
    (fun d => ⟨.define d.1.steps d.2.1.steps d.2.2.1.steps d.2.2.2.steps⟩) ?_ (fun _ => rfl)
    (fun _ => rfl) fun _ _ _ ht => ht
  rintro ⟨⟨keyword, name, parameters, body⟩⟩
  exact ⟨⟨⟨keyword⟩, ⟨name⟩, ⟨parameters⟩, ⟨body⟩⟩, rfl⟩

private theorem variableDeclaration_recognizes :
    Recognizes N b (fun _ => variableDeclaration) Variables [⟨.keyword, "var"⟩] lineFirst := by
  have hline : Recognizes (N - 1) (fun i => b i - 1) (fun _ : ι => lineEnd) _ _ _ := Recognizes.lineEnd
  refine (Recognizes.keyword "var").commit
    (fun _ => (Recognizes.name.commaSeparated (by decide) .firstVariable .nextVariable).andThen
      (fun _ => (hline.expect .variablesEnd).withValue _) fun _ => hline.starts.avoids (by decide))
    (fun _ => Form.avoids_none) (fun d => ⟨.declare d.1.steps d.2.1.steps d.2.2.steps⟩) ?_
    (fun _ => rfl) (fun _ => rfl) fun _ _ _ ht => ht
  rintro ⟨⟨keyword, items, ending⟩⟩
  exact ⟨⟨⟨keyword⟩, ⟨items⟩, ⟨ending⟩⟩, rfl⟩

/-! ## Sections up to their closing braces -/

/-- The shared section up to its closing brace. -/
def allbugsBody : Rule :=
  commit (keyword "Allbugs") fun allbugs => do
    opening .allbugsOpening .allbugsLine
    let declarations ← many variableDeclaration
    let functions ← many functionDefinition
    let _ ← expect (symbol "\x7d") .allbugsClosing
    return .node allbugs [.labeled "list" declarations, .labeled "list" functions]

/-- A bug definition up to its closing brace. -/
def bugBody : Rule :=
  commit (keyword "Bug") fun bug => do
    let name ← expect name .bugName
    opening .bugOpening .bugLine
    let declarations ← many variableDeclaration
    let initially ← initialBlock
    let first ← expect command .bugCommand
    let rest ← many command
    let functions ← many functionDefinition
    let _ ← expect (symbol "\x7d") .bugClosing
    return .node bug
      [.leaf name, .labeled "list" declarations, initially.getD (.labeled "initially" []),
        .labeled "block" (first :: rest), .labeled "list" functions]

private theorem commit_bind {α β γ : Type} (lead : Recognizer (Option α)) (body : α → Recognizer β)
    (f : Option β → Recognizer γ) : commit lead body >>= f = lead >>= fun o =>
      match o with
      | some a => body a >>= fun x => f (some x)
      | none => f none := by
  simp only [commit, bind_assoc]
  refine bind_congr fun o => ?_
  cases o <;> simp

theorem allbugsCode_bind {γ : Type} (f : Option Tree → Recognizer γ) :
    allbugsCode >>= f = allbugsBody >>= fun o =>
      match o with
      | some t => expectLineEndOrEnd .allbugsEnd >>= fun _ => f (some t)
      | none => f none := by
  simp only [allbugsCode, allbugsBody, commit_bind]
  refine bind_congr fun o => ?_
  cases o <;> simp [closing]

theorem bugDefinition_bind {γ : Type} (f : Option Tree → Recognizer γ) :
    bugDefinition >>= f = bugBody >>= fun o =>
      match o with
      | some t => expectLineEndOrEnd .bugEnd >>= fun _ => f (some t)
      | none => f none := by
  simp only [bugDefinition, bugBody, commit_bind]
  refine bind_congr fun o => ?_
  cases o <;> simp [closing]

private theorem fail_bind {α β : Type} (expected : Expectation) (f : α → Recognizer β) :
    fail expected >>= f = fail expected := by
  simp only [fail, bind_assoc]
  rfl

theorem expectLineEndOrEnd_bind {γ : Type} (expected : Expectation) (f : Recognizer γ) :
    (expectLineEndOrEnd expected >>= fun _ => f) = lineEnd >>= fun o =>
      match o with
      | some () => f
      | none => (do if ← isNext .endOfInput "EOF" then f else fail expected) := by
  simp only [expectLineEndOrEnd, bind_assoc]
  refine bind_congr fun o => ?_
  cases o
  · simp only [bind_assoc]
    refine bind_congr fun atEnd => ?_
    cases atEnd
    · exact fail_bind expected _
    · simp
  · simp

theorem allbugsBody_recognizes :
    Recognizes N b (fun _ => allbugsBody) AllbugsBody [⟨.keyword, "Allbugs"⟩] [] := by
  have hclose : Recognizes (N - 1) (fun i => b i - 1) (fun _ : ι => symbol "\x7d") _ _ _ :=
    Recognizes.symbol "\x7d"
  have hvariables : Recognizes (N - 1) (fun i => b i - 1) (fun _ : ι => variableDeclaration) _ _ _ :=
    variableDeclaration_recognizes
  have hfunctions : Recognizes (N - 1) (fun i => b i - 1) (fun _ : ι => functionDefinition) _ _ _ :=
    functionDefinition_recognizes
  refine (Recognizes.keyword "Allbugs").commit
    (fun _ => (Reads.opening .allbugsOpening .allbugsLine).andThen
      (fun _ => (hvariables.many (by decide)).andThen
        (fun _ => (hfunctions.many (by decide)).andThen
          (fun _ => (hclose.expect .allbugsClosing).withValue _)
          fun _ => hclose.starts.avoids (by decide))
        fun _ => ((hfunctions.begins_repeated _).bind fun _ => hclose.starts).avoids (by decide))
      fun _ => ((hvariables.begins_repeated _).bind fun _ =>
        (hfunctions.begins_repeated _).bind fun _ => hclose.starts).avoids (by decide))
    (fun _ => Form.avoids_none)
    (fun d => ⟨.allbugs d.1.steps d.2.1.1.steps d.2.1.2.steps d.2.2.1.steps d.2.2.2.1.steps
      d.2.2.2.2.steps⟩) ?_ ?_ (fun _ => rfl) fun _ _ _ ht => ht
  · rintro ⟨⟨keyword, o, line, declarations, functions, c⟩⟩
    exact ⟨⟨⟨keyword⟩, ⟨⟨o⟩, ⟨line⟩⟩, ⟨declarations⟩, ⟨functions⟩, ⟨c⟩⟩, rfl⟩
  · intro d
    simp [Form.bind, Form.withValue, Form.ofPhrase]

theorem bugBody_recognizes :
    Recognizes N b (fun _ => bugBody) BugBody [⟨.keyword, "Bug"⟩] [] := by
  have hname : Recognizes (N - 1) (fun i => b i - 1) (fun _ : ι => name) _ _ _ := Recognizes.name
  have hclose : Recognizes (N - 1) (fun i => b i - 1) (fun _ : ι => symbol "\x7d") _ _ _ :=
    Recognizes.symbol "\x7d"
  have hvariables : Recognizes (N - 1) (fun i => b i - 1) (fun _ : ι => variableDeclaration) _ _ _ :=
    variableDeclaration_recognizes
  have hinitial : Recognizes (N - 1) (fun i => b i - 1) (fun _ : ι => initialBlock) _ _ _ :=
    initialBlock_recognizes
  have hcommand : Recognizes (N - 1) (fun i => b i - 1) (fun _ : ι => command) _ _ _ :=
    command_recognizes
  have hfunctions : Recognizes (N - 1) (fun i => b i - 1) (fun _ : ι => functionDefinition) _ _ _ :=
    functionDefinition_recognizes
  refine (Recognizes.keyword "Bug").commit
    (fun _ => (hname.expect .bugName).andThen
      (fun _ => (Reads.opening .bugOpening .bugLine).andThen
        (fun _ => (hvariables.many (by decide)).andThen
          (fun _ => hinitial.reads.optional.andThen
            (fun _ => (hcommand.expect .bugCommand).andThen
              (fun _ => (hcommand.many (by decide)).andThen
                (fun _ => (hfunctions.many (by decide)).andThen
                  (fun _ => (hclose.expect .bugClosing).withValue _)
                  fun _ => hclose.starts.avoids (by decide))
                fun _ => ((hfunctions.begins_repeated _).bind fun _ => hclose.starts).avoids (by decide))
              fun _ => ((hcommand.begins_repeated _).bind fun _ =>
                (hfunctions.begins_repeated _).bind fun _ => hclose.starts).avoids (by decide))
            fun _ => hcommand.starts.bind.avoids (by decide))
          fun _ => ((begins_optional hinitial.starts _).bind fun _ =>
            hcommand.starts.bind).avoids (by decide))
        fun _ => ((hvariables.begins_repeated _).bind fun _ =>
          (begins_optional hinitial.starts _).bind fun _ => hcommand.starts.bind).avoids (by decide))
      fun _ => Form.avoids_none)
    (fun _ => Form.avoids_none)
    (fun d => ⟨.bug d.1.steps d.2.1.steps d.2.2.1.1.steps d.2.2.1.2.steps d.2.2.2.1.steps
      d.2.2.2.2.1.steps d.2.2.2.2.2.1.steps d.2.2.2.2.2.2.1.steps d.2.2.2.2.2.2.2.1.steps
      d.2.2.2.2.2.2.2.2.steps⟩) ?_ ?_ (fun _ => rfl) fun _ _ _ ht => ht
  · rintro ⟨⟨keyword, name, o, line, declarations, initial, first, commands, functions, c⟩⟩
    exact ⟨⟨⟨keyword⟩, ⟨name⟩, ⟨⟨o⟩, ⟨line⟩⟩, ⟨declarations⟩, ⟨initial⟩, ⟨first⟩, ⟨commands⟩,
      ⟨functions⟩, ⟨c⟩⟩, rfl⟩
  · intro d
    simp [Form.bind, Form.withValue, Form.ofPhrase]

end DrawingBugs.Grammar
