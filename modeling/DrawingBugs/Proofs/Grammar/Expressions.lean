import DrawingBugs.Grammar.Expression
import DrawingBugs.Proofs.Grammar.Combinators

/-!
# Expressions are recognized

The rules for expressions read the phrases for expressions. Each rule is treated over any rule
that reads the expressions inside it, as it is defined; the fuel is closed last.
-/

namespace DrawingBugs.Grammar

open Syntax Recognizer

variable {ι : Type} {b : ι → Nat} {N : Nat}

/-! ## Operators -/

private theorem addOperator_recognizes :
    Recognizes N b (fun _ => addOperator) AddOperator [⟨.symbol, "+"⟩, ⟨.symbol, "-"⟩] [] := by
  refine ((Recognizes.symbol "+").either (Recognizes.symbol "-") (by decide)).map
    (fun d => ⟨d.steps.elim .plus .minus⟩) ?_ ?_ ?_ fun _ ht => ht
  · rintro ⟨sign | sign⟩
    · exact ⟨⟨.inl sign⟩, rfl⟩
    · exact ⟨⟨.inr sign⟩, rfl⟩
  · exact fun _ => rfl
  · exact fun _ => rfl

private theorem multiplyOperator_recognizes :
    Recognizes N b (fun _ => multiplyOperator) MultiplyOperator
      [⟨.symbol, "*"⟩, ⟨.symbol, "/"⟩] [] := by
  refine ((Recognizes.symbol "*").either (Recognizes.symbol "/") (by decide)).map
    (fun d => ⟨d.steps.elim .times .over⟩) ?_ ?_ ?_ fun _ ht => ht
  · rintro ⟨sign | sign⟩
    · exact ⟨⟨.inl sign⟩, rfl⟩
    · exact ⟨⟨.inr sign⟩, rfl⟩
  · exact fun _ => rfl
  · exact fun _ => rfl

theorem text_of_terminal {kind : Kind} {text : String} {ts : List Token} {t : Token}
    (h : Terminal kind (some text) ts t) : t.text = text := by
  cases h with
  | token hfits => exact Token.text_of_fits hfits

private theorem withEquals_recognizes (text : String) :
    Recognizes N b (fun _ => commit (symbol text) withEquals) (OrEqual text) [⟨.symbol, text⟩]
      [⟨.symbol, "="⟩] := by
  have hequals : Recognizes (N - 1) (fun i => b i - 1) (fun _ : ι => symbol "=") _ _ _ :=
    Recognizes.symbol "="
  have hbody (d : Derivation (Symbol text)) :
      Reads (N - 1) (fun i => b i - 1) (fun _ : ι => withEquals d.value)
        (((Form.ofPhrase (Symbol "=") []).bind fun _ =>
          Form.nothing { d.value with text := d.value.text ++ "=" } fun _ => False).sum
          (Form.nothing d.value (·.Among [⟨.symbol, "="⟩]))) :=
    hequals.reads.branch hequals.starts (fun _ => Reads.nothing _ _) (Reads.nothing _ _)
      (fun _ => Form.avoids_none) (Form.avoids_nothing fun _ ht => ht)
  refine (Recognizes.symbol text).commit (S := fun _ => withEquals) hbody
    (fun _ => Form.avoids_none)
    (fun d => d.2.elim (fun e => ⟨.orEqual d.1.steps e.1.steps⟩) fun _ => ⟨.plain d.1.steps⟩)
    ?_ ?_ ?_ ?_
  · rintro ⟨sign | ⟨sign, equals⟩⟩
    · exact ⟨⟨⟨sign⟩, .inr ()⟩, rfl⟩
    · exact ⟨⟨⟨sign⟩, .inl ⟨⟨equals⟩, ()⟩⟩, rfl⟩
  · rintro ⟨d, e | e⟩
    · simp [Form.bind, Form.sum, Form.nothing, Form.ofPhrase]
    · simp [Form.sum, Form.nothing]
  · rintro ⟨⟨sign⟩, e | e⟩
    · simp [Form.bind, Form.sum, Form.nothing, text_of_terminal sign]
    · rfl
  · rintro d (e | e) t ht
    · exact ht.elim
    · exact ht

private theorem bangEquals_recognizes :
    Recognizes N b (fun _ => commit (symbol "!") bangEquals) Unequal [⟨.symbol, "!"⟩] [] := by
  have hequals : Recognizes (N - 1) (fun i => b i - 1) (fun _ : ι => symbol "=") _ _ _ :=
    Recognizes.symbol "="
  have hbody (d : Derivation (Symbol "!")) :
      Reads (N - 1) (fun i => b i - 1) (fun _ : ι => bangEquals d.value)
        ((Form.ofPhrase (Symbol "=") []).withValue fun _ => { d.value with text := "!=" }) :=
    (hequals.expect .equalsAfterBang).withValue _
  refine (Recognizes.symbol "!").commit (S := fun _ => bangEquals) hbody
    (fun _ => Form.avoids_none)
    (fun d => ⟨.signs d.1.steps d.2.steps⟩) ?_ (fun _ => rfl) (fun _ => rfl) fun _ _ _ ht => ht
  rintro ⟨⟨bang, equals⟩⟩
  exact ⟨⟨⟨bang⟩, ⟨equals⟩⟩, rfl⟩

private theorem comparator_recognizes :
    Recognizes N b (fun _ => comparator) Comparator
      [⟨.symbol, "<"⟩, ⟨.symbol, ">"⟩, ⟨.symbol, "="⟩, ⟨.symbol, "!"⟩] [⟨.symbol, "="⟩] := by
  have hequal := (Recognizes.symbol (b := b) (N := N) "=").either bangEquals_recognizes (by decide)
  have hgreater := (withEquals_recognizes ">").either hequal (by decide)
  refine ((withEquals_recognizes "<").either hgreater (by decide)).map
    (fun d => ⟨d.steps.elim .less fun d => d.elim .greater fun d => d.elim .equal .unequal⟩) ?_ ?_ ?_ ?_
  · rintro ⟨signs | signs | sign | signs⟩
    · exact ⟨⟨.inl signs⟩, rfl⟩
    · exact ⟨⟨.inr (.inl signs)⟩, rfl⟩
    · exact ⟨⟨.inr (.inr (.inl sign))⟩, rfl⟩
    · exact ⟨⟨.inr (.inr (.inr signs))⟩, rfl⟩
  · exact fun _ => rfl
  · exact fun _ => rfl
  · intro t ht
    simpa [Token.Among] using ht

/-! ## Expressions inside others -/

/-- What an expression starts with. -/
abbrev expressionFirst : List TokenClass :=
  [⟨.symbol, "+"⟩, ⟨.symbol, "-"⟩, ⟨.name, none⟩, ⟨.number, none⟩, ⟨.symbol, "("⟩]

/-- What goes on with an expression. -/
abbrev expressionBarred : List TokenClass :=
  [⟨.symbol, "<"⟩, ⟨.symbol, ">"⟩, ⟨.symbol, "="⟩, ⟨.symbol, "!"⟩, ⟨.symbol, "+"⟩, ⟨.symbol, "-"⟩,
    ⟨.symbol, "*"⟩, ⟨.symbol, "/"⟩, ⟨.symbol, "."⟩, ⟨.symbol, "("⟩]

section Open

variable {nested : ι → Rule}

private theorem argumentsOver_reads
    (h : Recognizes N b nested Expression expressionFirst expressionBarred) :
    Reads N b (fun i => argumentsOver (nested i))
      ((Form.ofPhrase (Optional (Separated Expression))
        (⟨.symbol, ","⟩ :: expressionFirst ++ expressionBarred)).withValue (·.getD [])) := by
  have hrest (d : Derivation Expression) :=
    ((h.later.afterComma .nextArgument).many (by decide)).withValue (d.value :: ·)
  have hbranch : Reads N b (fun i => argumentsOver (nested i)) _ :=
    h.reads.branch h.starts hrest (Reads.nothing [] (·.Among expressionFirst))
      (fun _ => h.avoids_afterCommas (by decide)) (Form.avoids_nothing fun _ ht => ht)
  refine hbranch.map (Sum.elim (fun d => ⟨.present (.items d.1.steps d.2.steps)⟩) fun _ => ⟨.absent⟩)
    ?_ ?_ ?_ ?_
  · rintro ⟨_ | ⟨⟨item, rest⟩⟩⟩
    · exact ⟨.inr (), rfl⟩
    · exact ⟨.inl ⟨⟨item⟩, ⟨rest⟩⟩, rfl⟩
  · rintro (d | d) <;> rfl
  · rintro (d | d) <;> rfl
  · rintro (d | d) t (ht : t.Among _) <;> exact ht.mono (by decide)

private theorem parameterListOver_recognizes
    (h : Recognizes (N - 1) (fun i => b i - 1) nested Expression expressionFirst expressionBarred) :
    Recognizes N b (fun i => parameterListOver (nested i)) (Arguments Expression)
      [⟨.symbol, "("⟩] [] := by
  have hclose : Recognizes (N - 1) (fun i => b i - 1) (fun _ : ι => symbol ")") _ _ _ :=
    Recognizes.symbol ")"
  refine (Recognizes.symbol "(").commit
    (fun _ => (argumentsOver_reads h).andThen
      (fun _ => (hclose.expect .argumentsClosing).withValue _)
      fun _ => hclose.starts.avoids (by decide))
    (fun _ => Form.avoids_none)
    (fun d => ⟨.list d.1.steps d.2.1.steps d.2.2.steps⟩) ?_ (fun _ => rfl) (fun _ => rfl)
    fun _ _ _ ht => ht
  rintro ⟨⟨o, items, c⟩⟩
  exact ⟨⟨⟨o⟩, ⟨items⟩, ⟨c⟩⟩, rfl⟩

private theorem parenthesizedOver_recognizes
    (h : Recognizes (N - 1) (fun i => b i - 1) nested Expression expressionFirst expressionBarred) :
    Recognizes N b (fun i => parenthesizedOver (nested i)) (Parenthesized Expression)
      [⟨.symbol, "("⟩] [] := by
  have hclose : Recognizes (N - 1) (fun i => b i - 1) (fun _ : ι => symbol ")") _ _ _ :=
    Recognizes.symbol ")"
  refine (Recognizes.symbol "(").commit
    (fun _ => (h.expect .innerExpression).andThen
      (fun _ => (hclose.expect .closingParenthesis).withValue _)
      fun _ => hclose.starts.avoids (by decide))
    (fun _ => Form.avoids_none)
    (fun d => ⟨.inner d.1.steps d.2.1.steps d.2.2.steps⟩) ?_ (fun _ => rfl) (fun _ => rfl)
    fun _ _ _ ht => ht
  rintro ⟨⟨o, inner, c⟩⟩
  exact ⟨⟨⟨o⟩, ⟨inner⟩, ⟨c⟩⟩, rfl⟩

private theorem namedOver_recognizes
    (h : Recognizes (N - 1) (fun i => b i - 1) nested Expression expressionFirst expressionBarred) :
    Recognizes N b (fun i => commit name (namedOver (nested i))) (Named Expression) [⟨.name, none⟩]
      [⟨.symbol, "."⟩, ⟨.symbol, "("⟩] := by
  have hdot : Recognizes (N - 1) (fun i => b i - 1) (fun _ : ι => symbol ".") _ _ _ :=
    Recognizes.symbol "."
  have hfield : Recognizes (N - 1 - 1) (fun i => b i - 1 - 1) (fun _ : ι => name) _ _ _ :=
    Recognizes.name
  have harguments := parameterListOver_recognizes h.later
  refine Recognizes.name.commit
    (fun n => hdot.reads.branch hdot.starts
      (fun _ => (hfield.expect .fieldName).withValue _)
      (harguments.reads.branch harguments.starts (fun _ => Reads.nothing _ fun _ => False)
        (Reads.nothing _ (·.Among [⟨.symbol, "."⟩, ⟨.symbol, "("⟩])) (fun _ => Form.avoids_none)
        (Form.avoids_nothing fun _ ht => ht.mono (by decide)))
      (fun _ => Form.avoids_none)
      ((harguments.starts.bind.avoids (by decide)).sum
        (Form.avoids_nothing fun _ ht => ht.mono (by decide))))
    (fun _ => Form.avoids_none)
    (fun d => d.2.elim (fun x => ⟨.field d.1.steps x.1.steps x.2.steps⟩)
      (Sum.elim (fun x => ⟨.call d.1.steps x.1.steps⟩) fun _ => ⟨.name d.1.steps⟩)) ?_ ?_ ?_ ?_
  · rintro ⟨⟨n, dot, f⟩ | ⟨n, arguments⟩ | n⟩
    · exact ⟨⟨⟨n⟩, .inl ⟨⟨dot⟩, ⟨f⟩⟩⟩, rfl⟩
    · exact ⟨⟨⟨n⟩, .inr (.inl ⟨⟨arguments⟩, ()⟩)⟩, rfl⟩
    · exact ⟨⟨⟨n⟩, .inr (.inr ())⟩, rfl⟩
  · rintro ⟨n, x | x | x⟩
    · rfl
    · simp [Form.sum, Form.bind, Form.nothing, Form.ofPhrase]
    · simp [Form.sum, Form.nothing]
  · rintro ⟨n, x | x | x⟩ <;> rfl
  · rintro n (x | x | x) t ht
    · exact Token.Among.mono ht (List.nil_subset _)
    · exact ht.elim
    · exact ht

private theorem number_recognizes :
    Recognizes N b (fun _ => commit (take .number none) fun number => return .leaf number) Literal
      [⟨.number, none⟩] [] := by
  refine (Recognizes.take .number none (by decide)).commit
    (fun _ => Reads.nothing _ fun _ => False) (fun _ => Form.avoids_none)
    (fun d => ⟨.number d.1.steps⟩) ?_ ?_ (fun _ => rfl) fun _ _ _ ht => ht.elim
  · rintro ⟨⟨number⟩⟩
    exact ⟨⟨⟨number⟩, ()⟩, rfl⟩
  · exact fun _ => (List.append_nil _).symm

private theorem unsignedFactorOver_recognizes
    (h : Recognizes (N - 1) (fun i => b i - 1) nested Expression expressionFirst expressionBarred) :
    Recognizes N b (fun i => unsignedFactorOver (nested i)) Unsigned
      [⟨.name, none⟩, ⟨.number, none⟩, ⟨.symbol, "("⟩] [⟨.symbol, "."⟩, ⟨.symbol, "("⟩] := by
  have hliteral := number_recognizes.either (parenthesizedOver_recognizes h) (by decide)
  refine ((namedOver_recognizes h).either hliteral (by decide)).map
    (fun d => ⟨d.steps.elim .named fun d => d.elim .literal .inner⟩) ?_ (fun _ => rfl) (fun _ => rfl)
    fun _ ht => ht
  rintro ⟨named | literal | inner⟩
  · exact ⟨⟨.inl named⟩, rfl⟩
  · exact ⟨⟨.inr (.inl literal)⟩, rfl⟩
  · exact ⟨⟨.inr (.inr inner)⟩, rfl⟩

/-- A factor that has a sign. -/
inductive SignedFactor : List Token → Tree → Type
  | signed {p q : List Token} {s : Token} {t : Tree} (sign : AddOperator p s) (operand : Unsigned q t) :
    SignedFactor (p ++ q) (.node s [t])

def SignedFactor.factor {ts : List Token} {t : Tree} : SignedFactor ts t → Factor ts t
  | signed sign operand => .signed sign operand

private theorem factorOver_recognizes
    (h : Recognizes (N - 1) (fun i => b i - 1) nested Expression expressionFirst expressionBarred) :
    Recognizes N b (fun i => factorOver (nested i)) Factor expressionFirst
      [⟨.symbol, "."⟩, ⟨.symbol, "("⟩] := by
  have hoperand := unsignedFactorOver_recognizes h.later
  have hsigned : Recognizes N b (fun i => commit addOperator fun sign => do
      let operand ← expect (unsignedFactorOver (nested i)) .signedFactor
      return .node sign [operand]) SignedFactor [⟨.symbol, "+"⟩, ⟨.symbol, "-"⟩]
      [⟨.symbol, "."⟩, ⟨.symbol, "("⟩] := by
    refine addOperator_recognizes.commit (fun _ => (hoperand.expect .signedFactor).withValue _)
      (fun _ => Form.avoids_none)
      (fun d => ⟨.signed d.1.steps d.2.steps⟩) ?_ (fun _ => rfl) (fun _ => rfl) fun _ _ _ ht => ht
    rintro ⟨⟨sign, operand⟩⟩
    exact ⟨⟨⟨sign⟩, ⟨operand⟩⟩, rfl⟩
  refine (hsigned.either (unsignedFactorOver_recognizes h) (by decide)).map
    (fun d => ⟨d.steps.elim SignedFactor.factor .plain⟩)
    ?_ (fun _ => rfl) (fun _ => rfl) fun _ ht => ht.mono (by decide)
  rintro ⟨operand | ⟨sign, operand⟩⟩
  · exact ⟨⟨.inr operand⟩, rfl⟩
  · exact ⟨⟨.inl (.signed sign operand)⟩, rfl⟩

private theorem expressionOver_recognizes
    (h : Recognizes (N - 1) (fun i => b i - 1) nested Expression expressionFirst expressionBarred) :
    Recognizes N b (fun i => expressionOver (nested i)) Expression expressionFirst
      expressionBarred := by
  have hterm := Recognizes.chain .multipliedFactor multiplyOperator_recognizes
    (factorOver_recognizes h) (by decide) (by decide)
  have harithmetic := Recognizes.chain .addedTerm addOperator_recognizes hterm (by decide) (by decide)
  exact Recognizes.chain .comparedValue comparator_recognizes harithmetic (by decide) (by decide)

end Open

/-! ## The rules for expressions -/

theorem starts_unsigned {ts : List Token} {t : Tree} (d : Unsigned ts t) :
    ∃ u us, ts = u :: us ∧ u.Among expressionFirst := by
  rcases d with ⟨⟨⟨hfits⟩, -, -⟩ | ⟨⟨hfits⟩, -⟩ | ⟨⟨hfits⟩⟩⟩ | ⟨⟨⟨hfits⟩⟩⟩ | ⟨⟨⟨hfits⟩, -, -⟩⟩
  · exact ⟨_, _, rfl, ⟨.name, none⟩, by decide, hfits⟩
  · exact ⟨_, _, rfl, ⟨.name, none⟩, by decide, hfits⟩
  · exact ⟨_, _, rfl, ⟨.name, none⟩, by decide, hfits⟩
  · exact ⟨_, _, rfl, ⟨.number, none⟩, by decide, hfits⟩
  · exact ⟨_, _, rfl, ⟨.symbol, "("⟩, by decide, hfits⟩

private theorem starts_factor {ts : List Token} {t : Tree} (d : Factor ts t) :
    ∃ u us, ts = u :: us ∧ u.Among expressionFirst := by
  rcases d with operand | ⟨⟨⟨hfits⟩⟩ | ⟨⟨hfits⟩⟩, operand⟩
  · exact starts_unsigned operand
  · exact ⟨_, _, rfl, ⟨.symbol, "+"⟩, by decide, hfits⟩
  · exact ⟨_, _, rfl, ⟨.symbol, "-"⟩, by decide, hfits⟩

private theorem starts_expression :
    (Form.ofPhrase Expression expressionBarred).Starts expressionFirst := by
  rintro ⟨⟨⟨⟨factor, _⟩, _⟩, _⟩⟩
  obtain ⟨u, us, rfl, hu⟩ := starts_factor factor
  exact ⟨u, _, rfl, hu⟩

private theorem inhabited_expression : Nonempty (Derivation Expression) := by
  have hname : Token.fits ⟨.name, "", .none⟩ .name none := rfl
  exact ⟨⟨.chain (.chain (.chain (.plain (.named (.name (.token hname)))) .stop) .stop) .stop⟩⟩

private theorem expressionWithin_recognizes :
    Recognizes N (fun fuel => fuel) expressionWithin Expression expressionFirst expressionBarred := by
  induction N with
  | zero =>
    exact ⟨⟨⟨none⟩, fun σ hσ => absurd hσ (Nat.not_lt_zero _)⟩, starts_expression,
      inhabited_expression⟩
  | succ N ih =>
    have hopen := expressionOver_recognizes (N := N + 1) (b := fun fuel => fuel + 1) ih
    refine ⟨hopen.reads.imp ?_, starts_expression, inhabited_expression⟩
    rintro σ o hg (_ | fuel) s hfuel hs
    · exact absurd hfuel (Nat.not_lt_zero _)
    · exact hg fuel s hfuel hs

theorem expression_recognizes :
    Recognizes N b (fun _ => expression) Expression expressionFirst expressionBarred := by
  have hwithin := expressionWithin_recognizes.reads.reindex (N := N) Prod.snd
    fun j : ι × Nat => Nat.min_le_right (b j.1) j.2
  exact ⟨hwithin.sized, starts_expression, inhabited_expression⟩

theorem parameterList_recognizes :
    Recognizes N b (fun _ => parameterList) (Arguments Expression) [⟨.symbol, "("⟩] [] :=
  parameterListOver_recognizes expression_recognizes

end DrawingBugs.Grammar
