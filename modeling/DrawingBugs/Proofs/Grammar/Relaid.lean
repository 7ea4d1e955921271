import DrawingBugs.Proofs.Grammar.Combinators
import DrawingBugs.Tree

/-!
# Other layouts of the same tokens

A stream is relaid when its tokens move to other places and when its runs of line ends get longer
or shorter. Two runs of a recognizer, one on a stream and one on a relaid stream, come off alike:
they find values that say the same, or they fail with the same expectation at tokens that say the
same. A rule that matches uses up at least one token on both sides, so the fuel of both runs lasts.
-/

namespace DrawingBugs

namespace Token

theorem kind_eq_of_unplaced {t u : Token} (h : t.unplaced = u.unplaced) : t.kind = u.kind :=
  (Token.mk.inj h).1

theorem text_eq_of_unplaced {t u : Token} (h : t.unplaced = u.unplaced) : t.text = u.text :=
  (Token.mk.inj h).2.1

private theorem fits_eq_of_unplaced {t u : Token} (h : t.unplaced = u.unplaced) (kind : Kind)
    (text : Option String) : t.fits kind text = u.fits kind text := by
  simp only [fits, kind_eq_of_unplaced h, text_eq_of_unplaced h]

theorem quoted_eq_of_unplaced {t u : Token} (h : t.unplaced = u.unplaced) : t.quoted = u.quoted := by
  simp only [quoted, kind_eq_of_unplaced h, text_eq_of_unplaced h]

theorem unplaced_setText {t u : Token} (h : t.unplaced = u.unplaced) (text : String) :
    ({ t with text } : Token).unplaced = ({ u with text } : Token).unplaced := by
  simp only [unplaced, kind_eq_of_unplaced h]

end Token

namespace TokenStream

/-- The stream behind the line ends in front of it. -/
def pastLines : TokenStream → TokenStream
  | token t σ => if t.kind = .endOfLine then σ.pastLines else token t σ
  | ended p => ended p
  | failed e => failed e

theorem length_pastLines (σ : TokenStream) : σ.pastLines.length ≤ σ.length := by
  induction σ with
  | token t σ ih =>
    simp only [pastLines]
    split
    · exact Nat.le_succ_of_le ih
    · exact Nat.le_refl _
  | ended _ => exact Nat.le_refl _
  | failed _ => exact Nat.le_refl _

/-- The same tokens in another layout: at other places, and with more or fewer line ends wherever
there are line ends at all. -/
inductive Relaid : TokenStream → TokenStream → Prop
  | ended {p q : Position} : Relaid (ended p) (ended q)
  | token {t u : Token} {σ τ : TokenStream} (htoken : t.unplaced = u.unplaced)
    (hkind : t.kind ≠ .endOfLine) (hrest : Relaid σ τ) : Relaid (token t σ) (token u τ)
  | lines {t u : Token} {σ τ : TokenStream} (htoken : t.unplaced = u.unplaced)
    (hkind : t.kind = .endOfLine) (hrest : Relaid σ.pastLines τ.pastLines) :
    Relaid (token t σ) (token u τ)

/-- What comes next says the same in both layouts. -/
theorem Relaid.next {σ τ : TokenStream} (h : Relaid σ τ) :
    ∃ t u, σ.next = .ok t ∧ τ.next = .ok u ∧ t.unplaced = u.unplaced := by
  cases h with
  | ended => exact ⟨_, _, rfl, rfl, rfl⟩
  | token htoken _ _ => exact ⟨_, _, rfl, rfl, htoken⟩
  | lines htoken _ _ => exact ⟨_, _, rfl, rfl, htoken⟩

end TokenStream

namespace Tree

private theorem unplacedAll_eq_map (ts : List Tree) : unplacedAll ts = ts.map unplaced := by
  induction ts with
  | nil => rfl
  | cons t ts ih => rw [unplacedAll, ih, List.map_cons]

theorem unplaced_node (value : Token) (children : List Tree) :
    (node value children).unplaced = node value.unplaced (children.map unplaced) := by
  rw [unplaced, unplacedAll_eq_map]

end Tree

namespace Recognizer

variable {α β γ δ : Type}

theorem bind_of_ok {p : Recognizer α} {s s' : Scanner} {a : α} (h : p s = .ok a s')
    (q : α → Recognizer β) : (p >>= q) s = q a s' := by
  show EStateM.bind p q s = _
  simp only [EStateM.bind, h]

private theorem bind_of_error {p : Recognizer α} {s s' : Scanner} {e : SyntaxError}
    (h : p s = .error e s') (q : α → Recognizer β) : (p >>= q) s = .error e s' := by
  show EStateM.bind p q s = _
  simp only [EStateM.bind, h]

/-- How two runs end that come off alike: with values that say the same and relaid rests, both
shorter than before by the cost of the value, or at tokens that say the same and do not fit the same
expectation. -/
inductive EndAlike (f : α → γ) (cost : γ → Nat) (σ σ' : TokenStream) :
    EStateM.Result SyntaxError Scanner α → EStateM.Result SyntaxError Scanner α → Prop
  | done {a a' : α} {s s' : Scanner} {τ τ' : TokenStream} (hvalue : f a = f a') (hs : s.Holds τ)
    (hs' : s'.Holds τ') (hrest : τ.Relaid τ') (hcost : τ.length + cost (f a) ≤ σ.length)
    (hcost' : τ'.length + cost (f a) ≤ σ'.length) : EndAlike f cost σ σ' (.ok a s) (.ok a' s')
  | failed {x : Expectation} {t t' : Token} {s s' : Scanner} (htoken : t.unplaced = t'.unplaced) :
    EndAlike f cost σ σ' (.error (.unexpected x t) s) (.error (.unexpected x t') s')

private theorem EndAlike.mono {f : α → γ} {cost cost₁ : γ → Nat} {σ σ' τ τ' : TokenStream}
    {r r' : EStateM.Result SyntaxError Scanner α} (h : EndAlike f cost₁ τ τ' r r')
    (hτ : ∀ c, τ.length + cost c ≤ σ.length + cost₁ c)
    (hτ' : ∀ c, τ'.length + cost c ≤ σ'.length + cost₁ c) : EndAlike f cost σ σ' r r' := by
  cases h with
  | failed htoken => exact .failed htoken
  | @done a a' s s' υ υ' hvalue hs hs' hrest hcost hcost' =>
    have hmore := hτ (f a)
    have hmore' := hτ' (f a)
    exact .done hvalue hs hs' hrest (by omega) (by omega)

private theorem EndAlike.bind {f : α → γ} {g : β → δ} {cost : γ → Nat} {cost₁ : δ → Nat}
    {σ σ' : TokenStream} {p p' : Recognizer α} {q q' : α → Recognizer β} {s s' : Scanner}
    (hp : EndAlike f cost σ σ' (p s) (p' s'))
    (hq : ∀ a a' s₁ s₁' τ τ', f a = f a' → s₁.Holds τ → s₁'.Holds τ' → τ.Relaid τ' →
      τ.length + cost (f a) ≤ σ.length → τ'.length + cost (f a) ≤ σ'.length →
      EndAlike g cost₁ σ σ' (q a s₁) (q' a' s₁')) :
    EndAlike g cost₁ σ σ' ((p >>= q) s) ((p' >>= q') s') := by
  generalize hr : p s = r at hp
  generalize hr' : p' s' = r' at hp
  cases hp with
  | failed htoken =>
    rw [bind_of_error hr, bind_of_error hr']
    exact .failed htoken
  | done hvalue hτ hτ' hrest hcost hcost' =>
    rw [bind_of_ok hr, bind_of_ok hr']
    exact hq _ _ _ _ _ _ hvalue hτ hτ' hrest hcost hcost'

/-- The two recognizers come off alike on relaid streams that are shorter than the two bounds. -/
def AlikeBy (f : α → γ) (cost : γ → Nat) (n n' : Nat) (p p' : Recognizer α) : Prop :=
  ∀ s s' σ σ', s.Holds σ → s'.Holds σ' → σ.Relaid σ' → σ.length < n → σ'.length < n' →
    EndAlike f cost σ σ' (p s) (p' s')

/-- The two recognizers come off alike, whatever they use up. -/
abbrev Alike (f : α → γ) : Nat → Nat → Recognizer α → Recognizer α → Prop := AlikeBy f fun _ => 0

/-- Both recognizers match or neither does, and a match uses up a token. -/
abbrev MatchAlike (f : α → γ) : Nat → Nat → Recognizer (Option α) → Recognizer (Option α) → Prop :=
  AlikeBy (Option.map f) fun o => if o.isSome then 1 else 0

variable {f : α → γ} {g : β → δ} {n n' m m' : Nat}

theorem AlikeBy.mono {cost : γ → Nat} {p p' : Recognizer α} (h : AlikeBy f cost m m' p p')
    (hn : n ≤ m) (hn' : n' ≤ m') : AlikeBy f cost n n' p p' := by
  intro s s' σ σ' hs hs' hσ hlength hlength'
  exact h s s' σ σ' hs hs' hσ (Nat.lt_of_lt_of_le hlength hn) (Nat.lt_of_lt_of_le hlength' hn')

theorem AlikeBy.later {cost : γ → Nat} {p p' : Recognizer α} (h : AlikeBy f cost n n' p p') :
    AlikeBy f cost (n - 1) (n' - 1) p p' := h.mono (Nat.sub_le n 1) (Nat.sub_le n' 1)

theorem AlikeBy.alike {cost : γ → Nat} {p p' : Recognizer α} (h : AlikeBy f cost n n' p p') :
    Alike f n n' p p' := by
  intro s s' σ σ' hs hs' hσ hlength hlength'
  exact (h s s' σ σ' hs hs' hσ hlength hlength').mono (fun _ => Nat.le_add_right _ _)
    fun _ => Nat.le_add_right _ _

theorem AlikeBy.of_zero {cost : γ → Nat} {p p' : Recognizer α} (h : n = 0 ∨ n' = 0) :
    AlikeBy f cost n n' p p' := by
  intro s s' σ σ' _ _ _ hlength hlength'
  omega

/-! ## Sequences -/

theorem AlikeBy.pure {a a' : α} (h : f a = f a') : Alike f n n' (pure a) (pure a') := by
  intro s s' σ σ' hs hs' hσ _ _
  exact .done h hs hs' hσ (Nat.le_refl _) (Nat.le_refl _)

private theorem matchAlike_none : MatchAlike f n n' (pure none) (pure none) := by
  intro s s' σ σ' hs hs' hσ _ _
  exact .done rfl hs hs' hσ (Nat.le_refl _) (Nat.le_refl _)

theorem AlikeBy.bind {cost : δ → Nat} {p p' : Recognizer α} {q q' : α → Recognizer β}
    (hp : Alike f n n' p p') (hq : ∀ a a', f a = f a' → AlikeBy g cost n n' (q a) (q' a')) :
    AlikeBy g cost n n' (p >>= q) (p' >>= q') := by
  intro s s' σ σ' hs hs' hσ hlength hlength'
  refine (hp s s' σ σ' hs hs' hσ hlength hlength').bind ?_
  intro a a' s₁ s₁' τ τ' ha hτ hτ' hrest hle hle'
  refine (hq a a' ha s₁ s₁' τ τ' hτ hτ' hrest (by omega) (by omega)).mono ?_ ?_ <;>
  · intro b
    omega

/-- After a match there is one token less to read. -/
private theorem AlikeBy.branch {cost : δ → Nat} {p p' : Recognizer (Option α)}
    {q q' : Option α → Recognizer β} (hcost : ∀ b, cost b ≤ 1) (hp : MatchAlike f n n' p p')
    (hsome : ∀ a a', f a = f a' → Alike g (n - 1) (n' - 1) (q (some a)) (q' (some a')))
    (hnone : AlikeBy g cost n n' (q none) (q' none)) :
    AlikeBy g cost n n' (p >>= q) (p' >>= q') := by
  intro s s' σ σ' hs hs' hσ hlength hlength'
  refine (hp s s' σ σ' hs hs' hσ hlength hlength').bind ?_
  intro o o' s₁ s₁' τ τ' ho hτ hτ' hrest hle hle'
  cases o with
  | none =>
    obtain rfl : o' = none := by simpa using ho.symm
    refine (hnone s₁ s₁' τ τ' hτ hτ' hrest (by omega) (by omega)).mono ?_ ?_ <;>
    · intro b
      omega
  | some a =>
    obtain ⟨a', rfl, ha⟩ : ∃ a', o' = some a' ∧ f a' = f a := by simpa using ho.symm
    simp only [Option.map_some, Option.isSome_some, if_true] at hle hle'
    refine (hsome a a' ha.symm s₁ s₁' τ τ' hτ hτ' hrest (by omega) (by omega)).mono ?_ ?_ <;>
    · intro b
      have hb := hcost b
      omega

theorem AlikeBy.byMatch {p p' : Recognizer (Option α)} {q q' : Option α → Recognizer β}
    (hp : MatchAlike f n n' p p')
    (hsome : ∀ a a', f a = f a' → Alike g (n - 1) (n' - 1) (q (some a)) (q' (some a')))
    (hnone : Alike g n n' (q none) (q' none)) : Alike g n n' (p >>= q) (p' >>= q') :=
  hp.branch (fun _ => Nat.zero_le 1) hsome hnone

theorem alike_fail {cost : γ → Nat} (x : Expectation) : AlikeBy f cost n n' (fail x) (fail x) := by
  intro s s' σ σ' hs hs' hσ _ _
  obtain ⟨t, u, ht, hu, htoken⟩ := hσ.next
  obtain ⟨s₁, hnext⟩ := hs.next_eq
  obtain ⟨s₁', hnext'⟩ := hs'.next_eq
  rw [ht] at hnext
  rw [hu] at hnext'
  simp only [fail, bind_of_ok (nextToken_of_next hnext), bind_of_ok (nextToken_of_next hnext')]
  exact .failed htoken

theorem AlikeBy.expect {cost : Option γ → Nat} {p p' : Recognizer (Option α)}
    (hp : AlikeBy (Option.map f) cost n n' p p') (x : Expectation) :
    Alike f n n' (expect p x) (expect p' x) := by
  refine hp.alike.bind fun o o' ho => ?_
  cases o with
  | none =>
    obtain rfl : o' = none := by simpa using ho.symm
    exact alike_fail x
  | some a =>
    obtain ⟨a', rfl, ha⟩ : ∃ a', o' = some a' ∧ f a' = f a := by simpa using ho.symm
    exact .pure ha.symm

theorem AlikeBy.commit {lead lead' : Recognizer (Option α)} {body body' : α → Recognizer β}
    (hlead : MatchAlike f n n' lead lead')
    (hbody : ∀ a a', f a = f a' → Alike g (n - 1) (n' - 1) (body a) (body' a')) :
    MatchAlike g n n' (commit lead body) (commit lead' body') := by
  refine hlead.branch (fun o => by split <;> omega) (fun a a' ha => ?_) matchAlike_none
  exact (hbody a a' ha).bind fun b b' hb => .pure (congrArg some hb)

theorem AlikeBy.either {p p' q q' : Recognizer (Option α)} (hp : MatchAlike f n n' p p')
    (hq : MatchAlike f n n' q q') : MatchAlike f n n' (either p q) (either p' q') :=
  hp.branch (fun o => by split <;> omega) (fun _ _ ha => .pure (congrArg some ha)) hq

/-! ## Repetition -/

/-- The size of each scanner is fuel enough for its own run. -/
theorem AlikeBy.sized {cost : γ → Nat} {p p' : Nat → Recognizer α}
    (h : ∀ k k', AlikeBy f cost (min n k) (min n' k') (p k) (p' k')) :
    AlikeBy f cost n n' (sized p) (sized p') := by
  intro s s' σ σ' hs hs' hσ hlength hlength'
  have hsize := hs.length_le
  have hsize' := hs'.length_le
  exact h (s.size + 1) (s'.size + 1) s s' σ σ' hs hs' hσ (by omega) (by omega)

private theorem AlikeBy.manyWithin {p p' : Recognizer (Option α)} (hp : MatchAlike f n n' p p')
    (k k' : Nat) : Alike (List.map f) (min n k) (min n' k') (manyWithin p k) (manyWithin p' k') := by
  induction k generalizing k' with
  | zero => exact .of_zero (.inl (Nat.min_zero n))
  | succ k ih =>
    cases k' with
    | zero => exact .of_zero (.inr (Nat.min_zero n'))
    | succ k' =>
      have hfirst : MatchAlike f (min n (k + 1)) (min n' (k' + 1)) p p' :=
        hp.mono (Nat.min_le_left _ _) (Nat.min_le_left _ _)
      refine hfirst.byMatch (fun a a' ha => ?_) (.pure rfl)
      have hrest : Alike _ (min n (k + 1) - 1) (min n' (k' + 1) - 1) _ _ :=
        (ih k').mono (by omega) (by omega)
      exact hrest.bind fun as as' has => .pure (by simp [ha, has])

theorem AlikeBy.many {p p' : Recognizer (Option α)} (hp : MatchAlike f n n' p p') :
    Alike (List.map f) n n' (many p) (many p') := AlikeBy.sized hp.manyWithin

private theorem AlikeBy.chainWithin {operand operand' : Rule}
    {operator operator' : Recognizer (Option Token)} (x : Expectation)
    (hoperator : MatchAlike Token.unplaced n n' operator operator')
    (hoperand : MatchAlike Tree.unplaced n n' operand operand') (k k' : Nat) {left left' : Tree}
    (hleft : left.unplaced = left'.unplaced) :
    Alike Tree.unplaced (min n k) (min n' k') (chainWithin operand operator x k left)
      (chainWithin operand' operator' x k' left') := by
  induction k generalizing k' left left' with
  | zero => exact .of_zero (.inl (Nat.min_zero n))
  | succ k ih =>
    cases k' with
    | zero => exact .of_zero (.inr (Nat.min_zero n'))
    | succ k' =>
      have hfirst : MatchAlike Token.unplaced (min n (k + 1)) (min n' (k' + 1)) operator operator' :=
        hoperator.mono (Nat.min_le_left _ _) (Nat.min_le_left _ _)
      refine hfirst.byMatch (fun op op' hop => ?_) (.pure hleft)
      have hright : Alike _ (min n (k + 1) - 1) (min n' (k' + 1) - 1) _ _ :=
        (hoperand.expect x).mono (by omega) (by omega)
      refine hright.bind fun right right' hright => ?_
      refine (ih k' ?_).mono (by omega) (by omega)
      simp [Tree.unplaced_node, hop, hleft, hright]

theorem AlikeBy.chain {operand operand' : Rule} {operator operator' : Recognizer (Option Token)}
    (hoperand : MatchAlike Tree.unplaced n n' operand operand')
    (hoperator : MatchAlike Token.unplaced n n' operator operator') (x : Expectation) :
    MatchAlike Tree.unplaced n n' (chain operand operator x) (chain operand' operator' x) := by
  refine hoperand.commit fun left left' hleft => AlikeBy.sized fun k k' => ?_
  exact AlikeBy.chainWithin x hoperator.later hoperand.later k k' hleft

/-! ## Single tokens -/

private theorem take_of_holds {s : Scanner} {σ : TokenStream} {t : Token}
    (hs : s.Holds (.token t σ)) {kind : Kind} {text : Option String} (hfits : t.fits kind text) :
    ∃ s', take kind text s = .ok (some t) s' ∧ s'.Holds σ := by
  cases hs with
  | token hnext _ hs =>
    refine ⟨_, ?_, hs⟩
    rw [take_of_next hnext, if_pos hfits]

private theorem take_of_not_fits {s : Scanner} {σ : TokenStream} {t : Token} (hs : s.Holds σ)
    (ht : σ.next = .ok t) {kind : Kind} {text : Option String} (hfits : ¬ t.fits kind text) :
    ∃ s', take kind text s = .ok none s' ∧ s'.Holds σ := by
  obtain ⟨s', hnext⟩ := hs.next_eq
  rw [ht] at hnext
  refine ⟨_, ?_, hs.takeBack hnext⟩
  rw [take_of_next hnext, if_neg hfits]

theorem alike_take {kind : Kind} {text : Option String}
    (hkind : kind ≠ .endOfLine ∧ kind ≠ .endOfInput) :
    MatchAlike Token.unplaced n n' (take kind text) (take kind text) := by
  intro s s' σ σ' hs hs' hσ _ _
  obtain ⟨t, u, ht, hu, htoken⟩ := hσ.next
  by_cases hfits : t.fits kind text
  · have hfits' : u.fits kind text := Token.fits_eq_of_unplaced htoken kind text ▸ hfits
    have htkind := Token.kind_of_fits hfits
    cases hσ with
    | ended =>
      cases ht
      exact absurd htkind.symm hkind.2
    | lines _ hline _ =>
      cases ht
      exact absurd (htkind.symm.trans hline) hkind.1
    | token _ _ hrest =>
      cases ht
      cases hu
      obtain ⟨s₁, htake, hs₁⟩ := take_of_holds hs hfits
      obtain ⟨s₁', htake', hs₁'⟩ := take_of_holds hs' hfits'
      rw [htake, htake']
      exact .done (congrArg some htoken) hs₁ hs₁' hrest (Nat.le_refl _) (Nat.le_refl _)
  · have hfits' : ¬ u.fits kind text := Token.fits_eq_of_unplaced htoken kind text ▸ hfits
    obtain ⟨s₁, htake, hs₁⟩ := take_of_not_fits hs ht hfits
    obtain ⟨s₁', htake', hs₁'⟩ := take_of_not_fits hs' hu hfits'
    rw [htake, htake']
    exact .done rfl hs₁ hs₁' hσ (Nat.le_refl _) (Nat.le_refl _)

theorem alike_symbol (text : String) : MatchAlike Token.unplaced n n' (symbol text) (symbol text) :=
  alike_take (by decide)

theorem alike_keyword (word : String) :
    MatchAlike Token.unplaced n n' (keyword word) (keyword word) := alike_take (by decide)

theorem alike_name : MatchAlike Token.unplaced n n' name name := alike_take (by decide)

private theorem alike_isNext (kind : Kind) (text : String) :
    Alike id n n' (isNext kind text) (isNext kind text) := by
  intro s s' σ σ' hs hs' hσ _ _
  obtain ⟨t, u, ht, hu, htoken⟩ := hσ.next
  obtain ⟨s₁, hnext⟩ := hs.next_eq
  obtain ⟨s₁', hnext'⟩ := hs'.next_eq
  rw [ht] at hnext
  rw [hu] at hnext'
  rw [isNext_of_next hnext, isNext_of_next hnext']
  exact .done (Token.fits_eq_of_unplaced htoken kind text) (hs.takeBack hnext) (hs'.takeBack hnext')
    hσ (Nat.le_refl _) (Nat.le_refl _)

theorem alike_ifNext {kind : Kind} {text : String} {cost : γ → Nat} {p p' q q' : Recognizer α}
    (hp : AlikeBy f cost n n' p p') (hq : AlikeBy f cost n n' q q') :
    AlikeBy f cost n n' (do if ← isNext kind text then p else q)
      (do if ← isNext kind text then p' else q') := by
  refine (alike_isNext kind text).bind fun followed followed' h => ?_
  obtain rfl : followed = followed' := h
  cases followed with
  | true => exact hp
  | false => exact hq

theorem alike_take_endOfInput :
    Alike (Option.map Token.unplaced) n n' (take .endOfInput none) (take .endOfInput none) := by
  intro s s' σ σ' hs hs' hσ _ _
  cases hs with
  | failed _ => cases hσ
  | ended hnext hstays =>
    cases hσ
    cases hs' with
    | ended hnext' hstays' =>
      rw [take_of_next hnext, take_of_next hnext']
      exact .done rfl (.ended hstays hstays) (.ended hstays' hstays') .ended (Nat.le_refl _)
        (Nat.le_refl _)
  | @token _ _ t _ hnext ht hs =>
    have hfits : ¬ t.fits .endOfInput none := fun hfits => ht (Token.kind_of_fits hfits)
    have hfits' (u : Token) (h : t.unplaced = u.unplaced) : ¬ u.fits .endOfInput none :=
      Token.fits_eq_of_unplaced h _ _ ▸ hfits
    obtain ⟨_, u, ht', hu, htoken⟩ := hσ.next
    cases ht'
    obtain ⟨s₁, htake, hs₁⟩ := take_of_not_fits (.token hnext ht hs) rfl hfits
    obtain ⟨s₁', htake', hs₁'⟩ := take_of_not_fits hs' hu (hfits' u htoken)
    rw [htake, htake']
    exact .done rfl hs₁ hs₁' hσ (Nat.le_refl _) (Nat.le_refl _)

/-! ## Line ends -/

private theorem fits_endOfLine (t : Token) : t.fits .endOfLine none ↔ t.kind = .endOfLine := by
  simp [Token.fits]

private theorem manyWithin_of_none {p : Recognizer (Option α)} {s s' : Scanner}
    (h : p s = .ok none s') (k : Nat) : manyWithin p (k + 1) s = .ok [] s' := bind_of_ok h _

private theorem manyWithin_of_some {p : Recognizer (Option α)} {s s₁ s' : Scanner} {a : α}
    {as : List α} {k : Nat} (h : p s = .ok (some a) s₁) (hrest : manyWithin p k s₁ = .ok as s') :
    manyWithin p (k + 1) s = .ok (a :: as) s' := by
  simp only [manyWithin, bind_of_ok h, bind_of_ok hrest]
  rfl

private theorem manyWithin_endOfLine {s : Scanner} {σ : TokenStream} {t : Token} {k : Nat}
    (hs : s.Holds σ) (ht : σ.pastLines.next = .ok t) (hk : σ.length < k) :
    ∃ ts s', manyWithin (take .endOfLine none) k s = .ok ts s' ∧ s'.Holds σ.pastLines := by
  induction hs generalizing k with
  | failed _ => cases ht
  | @ended s _ p hnext hstays =>
    obtain ⟨k, rfl⟩ := Nat.exists_eq_succ_of_ne_zero (Nat.ne_of_gt (Nat.zero_lt_of_lt hk))
    obtain ⟨s', htake, hs'⟩ := take_of_not_fits (.ended hnext hstays) rfl
      (show ¬ (Token.endOfInput p).fits .endOfLine none from Bool.false_ne_true)
    exact ⟨[], s', manyWithin_of_none htake k, hs'⟩
  | @token s _ u σ hnext hu hs ih =>
    obtain ⟨k, rfl⟩ := Nat.exists_eq_succ_of_ne_zero (Nat.ne_of_gt (Nat.zero_lt_of_lt hk))
    by_cases hline : u.kind = .endOfLine
    · simp only [TokenStream.pastLines, if_pos hline] at ht ⊢
      have htake := take_of_next hnext .endOfLine none
      rw [if_pos ((fits_endOfLine u).mpr hline)] at htake
      obtain ⟨ts, s', hmany, hs'⟩ := ih ht (Nat.lt_of_succ_lt_succ hk)
      exact ⟨u :: ts, s', manyWithin_of_some htake hmany, hs'⟩
    · simp only [TokenStream.pastLines, if_neg hline]
      obtain ⟨s', htake, hs'⟩ := take_of_not_fits (.token hnext hu hs) rfl
        (mt (fits_endOfLine u).mp hline)
      exact ⟨[], s', manyWithin_of_none htake k, hs'⟩

/-- A line end takes all those after it along. -/
private theorem lineEnd_of_line {s : Scanner} {σ : TokenStream} {t u : Token}
    (hs : s.Holds (.token t σ)) (ht : t.kind = .endOfLine) (hu : σ.pastLines.next = .ok u) :
    ∃ s', lineEnd s = .ok (some ()) s' ∧ s'.Holds σ.pastLines := by
  obtain ⟨s₁, htake, hs₁⟩ := take_of_holds hs ((fits_endOfLine t).mpr ht)
  obtain ⟨ts, s', hmany, hs'⟩ := manyWithin_endOfLine hs₁ hu (Nat.lt_succ_of_le hs₁.length_le)
  refine ⟨s', ?_, hs'⟩
  have hbody : (many (take .endOfLine none) >>= fun _ => pure ()) s₁ = .ok () s' :=
    bind_of_ok hmany _
  simp only [lineEnd, commit, bind_of_ok htake, bind_of_ok hbody]
  rfl

private theorem lineEnd_of_other {s : Scanner} {σ : TokenStream} {t : Token} (hs : s.Holds σ)
    (ht : σ.next = .ok t) (hkind : t.kind ≠ .endOfLine) :
    ∃ s', lineEnd s = .ok none s' ∧ s'.Holds σ := by
  obtain ⟨s', htake, hs'⟩ := take_of_not_fits hs ht (mt (fits_endOfLine t).mp hkind)
  exact ⟨s', bind_of_ok htake _, hs'⟩

theorem alike_lineEnd : MatchAlike id n n' lineEnd lineEnd := by
  intro s s' σ σ' hs hs' hσ _ _
  cases hσ with
  | @lines t u σ σ' htoken hkind hrest =>
    have hkind' : u.kind = .endOfLine := Token.kind_eq_of_unplaced htoken ▸ hkind
    obtain ⟨v, w, hv, hw, -⟩ := hrest.next
    obtain ⟨s₁, hline, hs₁⟩ := lineEnd_of_line hs hkind hv
    obtain ⟨s₁', hline', hs₁'⟩ := lineEnd_of_line hs' hkind' hw
    rw [hline, hline']
    exact .done rfl hs₁ hs₁' hrest (Nat.succ_le_succ σ.length_pastLines)
      (Nat.succ_le_succ σ'.length_pastLines)
  | @token t u σ σ' htoken hkind hrest =>
    have hkind' : u.kind ≠ .endOfLine := Token.kind_eq_of_unplaced htoken ▸ hkind
    obtain ⟨s₁, hline, hs₁⟩ := lineEnd_of_other hs rfl hkind
    obtain ⟨s₁', hline', hs₁'⟩ := lineEnd_of_other hs' rfl hkind'
    rw [hline, hline']
    exact .done rfl hs₁ hs₁' (.token htoken hkind hrest) (Nat.le_refl _) (Nat.le_refl _)
  | ended =>
    obtain ⟨s₁, hline, hs₁⟩ := lineEnd_of_other hs rfl nofun
    obtain ⟨s₁', hline', hs₁'⟩ := lineEnd_of_other hs' rfl nofun
    rw [hline, hline']
    exact .done rfl hs₁ hs₁' .ended (Nat.le_refl _) (Nat.le_refl _)

/-- At the top of a text there may be line ends in one layout and none in the other. -/
theorem lineEnd_of_pastLines {s : Scanner} {σ : TokenStream} {t : Token} (hs : s.Holds σ)
    (ht : σ.pastLines.next = .ok t) : ∃ o s', lineEnd s = .ok o s' ∧ s'.Holds σ.pastLines := by
  cases σ with
  | failed _ => cases ht
  | ended _ =>
    obtain ⟨s', hline, hs'⟩ := lineEnd_of_other hs rfl nofun
    exact ⟨none, s', hline, hs'⟩
  | token u σ =>
    by_cases hu : u.kind = .endOfLine
    · simp only [TokenStream.pastLines, if_pos hu] at ht ⊢
      obtain ⟨s', hline, hs'⟩ := lineEnd_of_line hs hu ht
      exact ⟨some (), s', hline, hs'⟩
    · simp only [TokenStream.pastLines, if_neg hu]
      obtain ⟨s', hline, hs'⟩ := lineEnd_of_other hs rfl hu
      exact ⟨none, s', hline, hs'⟩

theorem alike_expectLineEndOrEnd (x : Expectation) :
    Alike id n n' (expectLineEndOrEnd x) (expectLineEndOrEnd x) :=
  alike_lineEnd.byMatch (fun _ _ _ => .pure rfl) (alike_ifNext (.pure rfl) (alike_fail x))

theorem alike_opening (brace line : Expectation) :
    Alike id n n' (opening brace line) (opening brace line) :=
  ((alike_symbol _).expect brace).bind fun _ _ _ => alike_lineEnd.expect line

theorem AlikeBy.afterCommas {item item' : Recognizer (Option α)}
    (hitem : MatchAlike f n n' item item') (next : Expectation) :
    Alike (List.map f) n n' (Recognizer.many (Recognizer.commit (symbol ",") fun _ =>
        Recognizer.expect item next))
      (Recognizer.many (Recognizer.commit (symbol ",") fun _ => Recognizer.expect item' next)) :=
  ((alike_symbol ",").commit fun _ _ _ => (hitem.expect next).later).many

theorem AlikeBy.commaSeparated {item item' : Recognizer (Option α)}
    (hitem : MatchAlike f n n' item item') (first next : Expectation) :
    Alike (List.map f) n n' (commaSeparated item first next) (commaSeparated item' first next) :=
  (hitem.expect first).bind fun _ _ ha => (hitem.afterCommas next).bind fun _ _ has =>
    .pure (by simp [ha, has])

end Recognizer

end DrawingBugs
