import DrawingBugs.Proofs.Grammar.Unread

/-!
# The pace of recognizers

A match costs a token. So a repetition of matches ends after as many as there are tokens, and a rule
that comes back to itself behind a token is never as deep in itself as that. Fuel for more than the
tokens that are left is enough: with whatever larger amount a recognizer does the same.
-/

namespace DrawingBugs.Recognizer

variable {α β : Type} {n : Nat} {P Q : α → Prop} {p q : Recognizer α} {σ : TokenStream}

/-- Where a recognizer has come to from a scanner: some tokens are read, and a result of this kind
costs one at least. -/
def Costs (s : Scanner) (P : α → Prop) : EStateM.Result SyntaxError Scanner α → Prop
  | .ok a s' => ∃ ts, s.Consumes ts s' ∧ (P a → ts ≠ [])
  | .error _ s' => s.Leads s'

/-- With fewer than `n` tokens left the two recognizers do the same, and results of this kind cost a
token. -/
def Paced (n : Nat) (P : α → Prop) (p q : Recognizer α) : Prop :=
  ∀ (s : Scanner) (σ : TokenStream), s.Holds σ → σ.length < n → p s = q s ∧ Costs s P (p s)

/-- With fewer than `n` tokens left the two recognizers do the same, and a match costs a token. -/
abbrev Advances (n : Nat) (p q : Recognizer (Option α)) : Prop := Paced n (fun o => o.isSome) p q

/-- With fewer than `n` tokens left the two recognizers do the same, and need not read a token. -/
abbrev Free (n : Nat) (p q : Recognizer α) : Prop := Paced n (fun _ => False) p q

theorem paced_zero : Paced 0 P p q := fun _ _ _ hσ => absurd hσ (Nat.not_lt_zero _)

theorem Paced.mono {m : Nat} (h : Paced n P p q) (hm : m ≤ n) : Paced m P p q :=
  fun s σ hs hσ => h s σ hs (Nat.lt_of_lt_of_le hσ hm)

theorem Paced.imp (h : Paced n P p q) (hPQ : ∀ a, Q a → P a) : Paced n Q p q := by
  intro s σ hs hσ
  obtain ⟨heq, hcosts⟩ := h s σ hs hσ
  refine ⟨heq, ?_⟩
  cases hp : p s with
  | ok a s' =>
    rw [hp] at hcosts
    obtain ⟨ts, hconsumes, hts⟩ := hcosts
    exact ⟨ts, hconsumes, fun ha => hts (hPQ a ha)⟩
  | error e s' =>
    rw [hp] at hcosts
    exact hcosts

theorem Paced.pure {a : α} (ha : ¬ P a) : Paced n P (pure a) (pure a) :=
  fun _ _ _ _ => ⟨rfl, [], .refl, fun h => absurd h ha⟩

theorem free_pure (a : α) : Free n (pure a) (pure a) := .pure id

/-- What follows a result that has cost a token has fewer tokens left. -/
theorem Paced.bind_within {R : β → Prop} {Q : α → β → Prop} {f g : α → Recognizer β}
    (hp : Paced n P p q)
    (hf : ∀ a m, m ≤ n → (P a → m < n) → Paced m (Q a) (f a) (g a))
    (hR : ∀ a b, R b → P a ∨ Q a b) : Paced n R (p >>= f) (q >>= g) := by
  intro s σ hs hσ
  obtain ⟨heq, hcosts⟩ := hp s σ hs hσ
  change EStateM.bind p f s = EStateM.bind q g s ∧ Costs s R (EStateM.bind p f s)
  simp only [EStateM.bind, ← heq]
  cases hps : p s with
  | error e s' =>
    rw [hps] at hcosts
    exact ⟨rfl, hcosts⟩
  | ok a s' =>
    rw [hps] at hcosts
    obtain ⟨ts, hconsumes, hts⟩ := hcosts
    obtain ⟨τ, rfl, hτ⟩ := hconsumes.holds hs
    rw [TokenStream.length_after] at hσ
    have hless (ha : P a) : τ.length + 1 < n := by
      have hpos := List.length_pos_iff.mpr (hts ha)
      omega
    obtain ⟨heq', hcosts'⟩ := hf a (τ.length + 1) (by omega) hless s' τ hτ (Nat.lt_succ_self _)
    refine ⟨heq', ?_⟩
    dsimp only
    cases hfs : f a s' with
    | error e s'' =>
      rw [hfs] at hcosts'
      exact hconsumes.leads.trans hcosts'
    | ok b s'' =>
      rw [hfs] at hcosts'
      obtain ⟨us, hconsumes', hus⟩ := hcosts'
      refine ⟨ts ++ us, hconsumes.trans hconsumes', fun hb => ?_⟩
      cases hR a b hb with
      | inl ha => exact List.append_ne_nil_of_left_ne_nil (hts ha) us
      | inr hb => exact List.append_ne_nil_of_right_ne_nil ts (hus hb)

theorem Paced.bind {f g : α → Recognizer β} (hp : Paced n P p q) (hf : ∀ a, Free n (f a) (g a)) :
    Free n (p >>= f) (q >>= g) :=
  hp.bind_within (fun a _ hm _ => (hf a).mono hm) fun _ _ => False.elim

theorem Paced.leads {s : Scanner} (h : ∀ n, Paced n P p p) (hs : s.Holds σ) : s.Leads (p.after s) := by
  have hcosts := (h (σ.length + 1) s σ hs (Nat.lt_succ_self _)).2
  rw [after]
  cases hp : p s with
  | ok a s' =>
    rw [hp] at hcosts
    obtain ⟨ts, hconsumes, -⟩ := hcosts
    exact hconsumes.leads
  | error e s' =>
    rw [hp] at hcosts
    exact hcosts

/-! ## Single tokens -/

theorem paced_take (kind : Kind) (text : Option String) :
    Paced n (fun o => o.isSome ∧ kind ≠ .endOfInput) (take kind text) (take kind text) := by
  intro s σ _ _
  refine ⟨rfl, ?_⟩
  cases hnext : s.next with
  | mk r s' =>
    cases r with
    | error e =>
      rw [take_of_failed hnext]
      exact .of_next hnext
    | ok t =>
      rw [take_of_next hnext]
      split
      · next hfits =>
        by_cases ht : t.kind = .endOfInput
        · refine ⟨[], .finish .refl hnext ht, ?_⟩
          intro hcosts
          rw [Token.kind_of_fits hfits] at ht
          exact absurd ht hcosts.2
        · exact ⟨_, .read .refl hnext ht, fun _ => List.cons_ne_nil _ _⟩
      · exact ⟨[], .look .refl hnext, fun hcosts => nomatch hcosts.1⟩

theorem advances_take (kind : Kind) (text : Option String) (hkind : kind ≠ .endOfInput) :
    Advances n (take kind text) (take kind text) :=
  (paced_take kind text).imp fun _ ho => ⟨ho, hkind⟩

theorem advances_symbol (text : String) : Advances n (symbol text) (symbol text) :=
  advances_take .symbol _ nofun

theorem paced_fail (expected : Expectation) : Paced n P (fail expected) (fail expected) := by
  intro s σ _ _
  refine ⟨rfl, ?_⟩
  change Costs s P (EStateM.bind nextToken _ s)
  cases hnext : s.next with
  | mk r s' =>
    cases r with
    | error e =>
      simp only [EStateM.bind, nextToken_of_failed hnext]
      exact .of_next hnext
    | ok t =>
      simp only [EStateM.bind, nextToken_of_next hnext]
      exact .of_next hnext

/-! ## Combinations -/

theorem Paced.expect {P : Option α → Prop} {p q : Recognizer (Option α)} (h : Paced n P p q)
    (expected : Expectation) : Free n (expect p expected) (expect q expected) := by
  refine h.bind fun o => ?_
  cases o with
  | some a => exact free_pure a
  | none => exact paced_fail expected

theorem Paced.commit_succ {lead lead' : Recognizer (Option α)} {body body' : α → Recognizer β}
    (hlead : Advances (n + 1) lead lead') (hbody : ∀ a, Free n (body a) (body' a)) :
    Advances (n + 1) (commit lead body) (commit lead' body') := by
  refine hlead.bind_within (Q := fun o b => o.isNone ∧ b.isSome) (fun o m _ hless => ?_) fun o b hb => ?_
  · cases o with
    | none => exact .pure fun h => nomatch h.2
    | some a =>
      have hm : m ≤ n := Nat.le_of_lt_succ (hless rfl)
      exact (((hbody a).mono hm).bind fun b => free_pure (some b)).imp fun _ h => nomatch h.1
  · cases o with
    | none => exact .inr ⟨rfl, hb⟩
    | some a => exact .inl rfl

theorem Paced.commit {lead lead' : Recognizer (Option α)} {body body' : α → Recognizer β}
    (hlead : Advances n lead lead') (hbody : ∀ a, Free n (body a) (body' a)) :
    Advances n (commit lead body) (commit lead' body') := by
  cases n with
  | zero => exact paced_zero
  | succ n => exact hlead.commit_succ fun a => (hbody a).mono (Nat.le_succ n)

theorem Paced.either {p p' q q' : Recognizer (Option α)} (hp : Advances n p p')
    (hq : Advances n q q') : Advances n (either p q) (either p' q') := by
  refine hp.bind_within (Q := fun o b => o.isNone ∧ b.isSome) (fun o m hm _ => ?_) fun o b hb => ?_
  · cases o with
    | none => exact (hq.mono hm).imp fun _ h => h.2
    | some a => exact .pure fun h => nomatch h.1
  · cases o with
    | none => exact .inr ⟨rfl, hb⟩
    | some a => exact .inl rfl

/-- The size of the unread input is enough fuel. -/
theorem Paced.sized {f g : Nat → Recognizer α}
    (h : ∀ m fuel, m ≤ n → m ≤ fuel → Paced m P (f fuel) (g fuel)) :
    Paced n P (sized f) (sized g) := by
  intro s σ hs hσ
  exact h (σ.length + 1) (s.size + 1) hσ (Nat.succ_le_succ hs.length_le) s σ hs (Nat.lt_succ_self _)

/-- Every match of a repetition costs a token, so with fuel for all tokens it ends by itself. -/
theorem Paced.manyWithin {p q : Recognizer (Option α)} (h : Advances n p q) {fuel fuel' : Nat}
    (hfuel : n ≤ fuel) (hfuel' : n ≤ fuel') :
    Paced n (· ≠ []) (manyWithin p fuel) (manyWithin q fuel') := by
  induction n generalizing fuel fuel' with
  | zero => exact paced_zero
  | succ n ih =>
    obtain ⟨fuel, rfl⟩ := Nat.exists_eq_add_of_le' hfuel
    obtain ⟨fuel', rfl⟩ := Nat.exists_eq_add_of_le' hfuel'
    refine h.bind_within (Q := fun o b => o.isNone ∧ b ≠ []) (fun o m _ hless => ?_) fun o b hb => ?_
    · cases o with
      | none => exact .pure fun h => h.2 rfl
      | some a =>
        have hm : m ≤ n := Nat.le_of_lt_succ (hless rfl)
        have hrest := (ih (h.mono (Nat.le_succ n)) (Nat.le_add_left n fuel)
          (Nat.le_add_left n fuel')).mono hm
        exact (hrest.bind fun as => free_pure (a :: as)).imp fun _ h => nomatch h.1
    · cases o with
      | none => exact .inr ⟨rfl, hb⟩
      | some a => exact .inl rfl

theorem Paced.many {p q : Recognizer (Option α)} (h : Advances n p q) :
    Paced n (· ≠ []) (many p) (many q) :=
  .sized fun _ _ hm hfuel => (h.mono hm).manyWithin hfuel hfuel

theorem Paced.chainWithin {operand operand' : Rule} {operator operator' : Recognizer (Option Token)}
    (hoperand : Advances n operand operand') (hoperator : Advances n operator operator')
    (expected : Expectation) {fuel fuel' : Nat} (hfuel : n ≤ fuel) (hfuel' : n ≤ fuel') (left : Tree) :
    Free n (chainWithin operand operator expected fuel left)
      (chainWithin operand' operator' expected fuel' left) := by
  induction n generalizing fuel fuel' left with
  | zero => exact paced_zero
  | succ n ih =>
    obtain ⟨fuel, rfl⟩ := Nat.exists_eq_add_of_le' hfuel
    obtain ⟨fuel', rfl⟩ := Nat.exists_eq_add_of_le' hfuel'
    refine hoperator.bind_within (Q := fun _ _ => False) (fun o m _ hless => ?_) fun _ _ => False.elim
    cases o with
    | none => exact free_pure left
    | some op =>
      have hm : m ≤ n := Nat.le_of_lt_succ (hless rfl)
      refine ((hoperand.mono (hm.trans (Nat.le_succ n))).expect expected).bind fun right => ?_
      exact (ih (hoperand.mono (Nat.le_succ n)) (hoperator.mono (Nat.le_succ n))
        (Nat.le_add_left n fuel) (Nat.le_add_left n fuel') _).mono hm

theorem Paced.chain {operand operand' : Rule} {operator operator' : Recognizer (Option Token)}
    (hoperand : Advances n operand operand') (hoperator : Advances n operator operator')
    (expected : Expectation) :
    Advances n (chain operand operator expected) (chain operand' operator' expected) :=
  hoperand.commit fun left => .sized fun _ _ hm hfuel =>
    (hoperand.mono hm).chainWithin (hoperator.mono hm) expected hfuel hfuel left

theorem Paced.commaSeparated {item item' : Recognizer (Option α)} (h : Advances n item item')
    (first next : Expectation) :
    Free n (commaSeparated item first next) (commaSeparated item' first next) :=
  (h.expect first).bind fun _ =>
    ((advances_symbol ",").commit fun _ => h.expect next).many.bind fun _ => free_pure _

/-- A loop that asks `lead` in front of each round, and goes on with `body` in the round, begins this
many rounds from here. -/
inductive Begins (lead : Recognizer (Option α)) (body : α → Recognizer β) : Nat → Scanner → Prop
  | idle (s : Scanner) : Begins lead body 0 s
  | first {s s' : Scanner} {a : α} (hlead : lead s = .ok (some a) s') : Begins lead body 1 s
  | again {k : Nat} {s s' s'' : Scanner} {a : α} {b : β} (hlead : lead s = .ok (some a) s')
    (hbody : body a s' = .ok b s'') (hrest : Begins lead body k s'') : Begins lead body (k + 1) s

end DrawingBugs.Recognizer
