import DrawingBugs.Proofs.Grammar.Reading

/-!
# Combinators

What the combinators of recognizers read, given what their parts read.
-/

namespace DrawingBugs.Recognizer

open Syntax

variable {ι α β δ η : Type} {b : ι → Nat} {N : Nat} {first : List TokenClass}

/-! ## Single tokens -/

theorem nextToken_of_next {s s' : Scanner} {t : Token} (h : s.next = (.ok t, s')) :
    nextToken s = .ok t s' := by
  simp only [nextToken, h]

theorem nextToken_of_failed {s s' : Scanner} {e : LexicalError} (h : s.next = (.error e, s')) :
    nextToken s = .error (.lexical e) s' := by
  simp only [nextToken, h]

theorem take_of_next {s s' : Scanner} {t : Token} (h : s.next = (.ok t, s')) (kind : Kind)
    (text : Option String) :
    take kind text s = if t.fits kind text then .ok (some t) s' else .ok none (s'.takeBack t) := by
  show EStateM.bind nextToken _ s = _
  simp only [EStateM.bind, nextToken_of_next h]
  split <;> rfl

theorem take_of_failed {s s' : Scanner} {e : LexicalError} (h : s.next = (.error e, s')) (kind : Kind)
    (text : Option String) : take kind text s = .error (.lexical e) s' := by
  show EStateM.bind nextToken _ s = _
  simp only [EStateM.bind, nextToken_of_failed h]

/-- The error of an expectation that is not met by what comes next. -/
def blame (expected : Expectation) : Except LexicalError Token → SyntaxError
  | .ok t => .unexpected expected t
  | .error e => .lexical e

theorem fail_gives (expected : Expectation) (σ : TokenStream) :
    Gives b (fun _ => fail (α := α) expected) σ (.stuck (blame expected σ.next)) := by
  intro i s _ hs
  obtain ⟨s', hs'⟩ := hs.next_eq
  show (Answer.stuck _).Of (EStateM.bind nextToken _ s)
  cases hnext : σ.next with
  | ok t =>
    rw [hnext] at hs'
    simp only [EStateM.bind, nextToken_of_next hs']
    rfl
  | error e =>
    rw [hnext] at hs'
    simp only [EStateM.bind, nextToken_of_failed hs']
    rfl

theorem fail_refuses (expected : Expectation) : Refuses b fun _ => fail (α := α) expected := by
  intro σ
  refine ⟨blame expected σ.next, ?_, ?_⟩
  · cases σ.next <;> rfl
  · intro τ hτ
    rw [← hτ]
    exact fail_gives expected τ

private theorem Reads.take (kind : Kind) (text : Option String) (hkind : kind ≠ .endOfInput) :
    Reads N b (fun _ => Recognizer.take kind text)
      ((Form.ofPhrase (Terminal kind text) []).optional [⟨kind, text⟩]) := by
  refine ⟨⟨none⟩, fun σ _ => ?_⟩
  cases hnext : σ.next with
  | error e =>
    refine .stuck [] σ (.lexical e) rfl hnext ⟨none, [], rfl⟩ ?_ ?_
    · intro τ hτ i s _ hs
      obtain ⟨s', hs'⟩ := hs.next_eq
      rw [TokenStream.after_nil, hτ, hnext] at hs'
      show (Answer.stuck _).Of (Recognizer.take kind text s)
      rw [take_of_failed hs']
      rfl
    · intro τ hτ d τ' hd
      obtain ⟨t, ht⟩ := TokenStream.next_of_splits hd
      rw [TokenStream.after_nil, hτ, hnext] at ht
      cases ht
  | ok t =>
    by_cases hfits : t.fits kind text
    · cases σ with
      | failed e => cases hnext
      | ended p =>
        cases hnext
        exact absurd (Token.kind_of_fits hfits).symm hkind
      | token t' rest =>
        cases hnext
        refine .found (some ⟨.token hfits⟩) rest rfl ?_ ?_
        · intro τ _ i s _ hs
          cases hs with
          | token h _ hs =>
            show (Answer.done _ τ).Of (Recognizer.take kind text _)
            rw [take_of_next h, if_pos hfits]
            exact ⟨rfl, hs⟩
        · rintro τ - (_ | ⟨⟨⟨hfits'⟩⟩⟩) τ' ⟨hsplit, t', ht', hnot⟩
          · cases hsplit
            cases ht'
            exact absurd (Token.among_singleton.mpr hfits) hnot
          · cases hsplit
            rfl
    · refine .found none σ rfl ?_ ?_
      · intro τ hτ i s _ (hs : s.Holds τ)
        obtain ⟨s', hs'⟩ := hs.next_eq
        rw [hτ, hnext] at hs'
        show (Answer.done _ τ).Of (Recognizer.take kind text s)
        rw [take_of_next hs', if_neg hfits]
        exact ⟨rfl, hs.takeBack hs'⟩
      · rintro τ hτ (_ | ⟨⟨⟨hfits'⟩⟩⟩) τ' ⟨hsplit, -⟩
        · rfl
        · cases (show τ = _ from hsplit)
          cases hτ.trans hnext
          exact absurd hfits' hfits

/-! ## Choices -/

theorem Reads.andThen {R : ι → Recognizer α} {S : ι → α → Recognizer β} {ε : δ → Type}
    {F : Form δ α} {G : (d : δ) → Form (ε d) β} (hR : Reads N b R F)
    (hS : ∀ d, Reads N b (fun i => S i (F.value d)) (G d)) (havoids : ∀ d, (G d).Avoids (F.barred d)) :
    Reads N b (fun i => R i >>= S i) (F.bind G) :=
  hR.bind (fun d => (hS d).mono (Nat.sub_le _ _) fun _ => Nat.sub_le _ _) havoids

private theorem Reads.expect {R : ι → Recognizer (Option α)} {F : Form δ α}
    (hR : Reads N b R (F.optional first)) (hinhabited : Nonempty δ) (expected : Expectation) :
    Reads N b (fun i => Recognizer.expect (R i) expected) F := by
  have hrequire : Reads N b (fun i => Recognizer.expect (R i) expected) _ :=
    hR.require rfl hinhabited (fun d => Reads.nothing (F.value d) (F.barred d))
      (fail_refuses expected) fun _ => Form.avoids_nothing fun _ ht => ht
  refine hrequire.map Sigma.fst (fun d => ⟨⟨d, ()⟩, rfl⟩) ?_ (fun _ => rfl) fun _ _ ht => ht
  exact fun _ => (List.append_nil _).symm

theorem Reads.branch {R : ι → Recognizer (Option α)} {S : ι → Option α → Recognizer β}
    {ε : δ → Type} {F : Form δ α} {G : (d : δ) → Form (ε d) β} {H : Form η β}
    (hR : Reads N b R (F.optional first)) (hstarts : F.Starts first)
    (hsome : ∀ d, Reads (N - 1) (fun i => b i - 1) (fun i => S i (some (F.value d))) (G d))
    (hnone : Reads N b (fun i => S i none) H)
    (havoids : ∀ d, (G d).Avoids (F.barred d))
    (hskip : H.Avoids (·.Among first)) :
    Reads N b (fun i => R i >>= S i) ((F.bind G).sum H) := by
  let T : (o : Option δ) → Form (o.elim η ε) β := fun o =>
    match o with
    | none => H
    | some d => G d
  have hbind : Reads N b (fun i => R i >>= S i) ((F.optional first).bind T) := by
    refine hR.bind ?_ ?_
    · rintro (_ | d)
      · exact hnone
      · have hpos := hstarts.length_pos d
        refine (hsome d).mono ?_ fun i => ?_
        · exact Nat.sub_le_sub_left hpos N
        · exact Nat.sub_le_sub_left hpos (b i)
    · rintro (_ | d)
      · exact hskip
      · exact havoids d
  let f : (o : Option δ) × o.elim η ε → ((d : δ) × ε d) ⊕ η := fun o =>
    match o with
    | ⟨none, x⟩ => .inr x
    | ⟨some d, x⟩ => .inl ⟨d, x⟩
  refine hbind.map f ?_ ?_ ?_ ?_
  · rintro (⟨d, x⟩ | x)
    · exact ⟨⟨some d, x⟩, rfl⟩
    · exact ⟨⟨none, x⟩, rfl⟩
  · rintro ⟨_ | d, x⟩ <;> rfl
  · rintro ⟨_ | d, x⟩ <;> rfl
  · rintro ⟨_ | d, x⟩ t ht <;> exact ht

private theorem Reads.commit {R : ι → Recognizer (Option α)} {S : ι → α → Recognizer β}
    {ε : δ → Type} {F : Form δ α} {G : (d : δ) → Form (ε d) β}
    (hR : Reads N b R (F.optional first)) (hstarts : F.Starts first)
    (hS : ∀ d, Reads (N - 1) (fun i => b i - 1) (fun i => S i (F.value d)) (G d))
    (havoids : ∀ d, (G d).Avoids (F.barred d)) :
    Reads N b (fun i => Recognizer.commit (R i) (S i)) ((F.bind G).optional first) := by
  have hbranch : Reads N b (fun i => Recognizer.commit (R i) (S i)) _ :=
    Reads.branch (G := fun d => (G d).withValue some) hR hstarts
      (fun d => (hS d).withValue some) (Reads.nothing none (·.Among first)) havoids
      (Form.avoids_nothing fun _ ht => ht)
  refine hbranch.map (Sum.elim some fun _ => none) ?_ ?_ ?_ ?_
  · rintro (_ | d)
    · exact ⟨.inr (), rfl⟩
    · exact ⟨.inl d, rfl⟩
  · rintro (d | d) <;> rfl
  · rintro (d | d) <;> rfl
  · rintro (d | d) t ht <;> exact ht

private theorem Reads.either {R S : ι → Recognizer (Option α)} {first' : List TokenClass}
    {F : Form δ α} {G : Form η α} (hR : Reads N b R (F.optional first))
    (hS : Reads N b S (G.optional first'))
    (hstarts : F.Starts first) (hstarts' : G.Starts first')
    (hdisjoint : TokenClass.disjoint first' first) :
    Reads N b (fun i => Recognizer.either (R i) (S i)) ((F.sum G).optional (first ++ first')) := by
  have hsecond : Reads N b S ⟨(G.optional first').tokens, (G.optional first').value,
      fun d => d.elim (·.Among (first ++ first')) G.barred⟩ := by
    refine hS.map id (fun x => ⟨x, rfl⟩) (fun _ => rfl) (fun _ => rfl) ?_
    rintro (_ | d) t ht
    · exact Token.among_append.mpr (.inr ht)
    · exact ht
  have hbranch : Reads N b (fun i => Recognizer.either (R i) (S i)) _ :=
    Reads.branch (G := fun d => Form.nothing (some (F.value d)) (F.barred d)) hR hstarts
      (fun d => Reads.nothing _ _) hsecond (fun _ => Form.avoids_nothing fun _ ht => ht) ?_
  · refine hbranch.map (Sum.elim (fun d => some (.inl d.1)) (Option.map .inr)) ?_ ?_ ?_ ?_
    · rintro (_ | d | d)
      · exact ⟨.inr none, rfl⟩
      · exact ⟨.inl ⟨d, ()⟩, rfl⟩
      · exact ⟨.inr (some d), rfl⟩
    · rintro (⟨d, -⟩ | _ | d)
      · exact (List.append_nil _).symm
      · rfl
      · rfl
    · rintro (d | _ | d) <;> rfl
    · rintro (d | _ | d) t ht <;> exact ht
  · rintro (_ | d) τ hstops
    · exact hstops.mono fun t ht => Token.among_append.mpr (.inl ht)
    · obtain ⟨t, ts, hts, ht⟩ := hstarts' d
      refine ⟨t, ?_, ht.of_disjoint hdisjoint⟩
      show (τ.after (G.tokens d)).next = _
      rw [hts]
      rfl

private theorem Reads.mapOptional {R : ι → Recognizer (Option α)} {F : Form δ α} {G : Form η α}
    (h : Reads N b R (F.optional first)) (f : δ → η) (hf : ∀ x, ∃ d, f d = x)
    (htokens : ∀ d, G.tokens (f d) = F.tokens d) (hvalue : ∀ d, G.value (f d) = F.value d)
    (hbarred : ∀ d t, F.barred d t → G.barred (f d) t) : Reads N b R (G.optional first) := by
  refine h.map (Option.map f) ?_ ?_ ?_ ?_
  · rintro (_ | x)
    · exact ⟨none, rfl⟩
    · obtain ⟨d, rfl⟩ := hf x
      exact ⟨some d, rfl⟩
  · rintro (_ | d)
    · rfl
    · exact htokens d
  · rintro (_ | d)
    · rfl
    · exact congrArg some (hvalue d)
  · rintro (_ | d) t ht
    · exact ht
    · exact hbarred d t ht

theorem Reads.optional {R : ι → Recognizer (Option α)} {D : Phrase α} {barred : List TokenClass}
    (h : Reads N b R ((Form.ofPhrase D barred).optional first)) :
    Reads N b R (Form.ofPhrase (Optional D) (first ++ barred)) := by
  refine h.map (fun o => o.elim ⟨.absent⟩ fun d => ⟨.present d.steps⟩) ?_ ?_ ?_ ?_
  · rintro ⟨_ | item⟩
    · exact ⟨none, rfl⟩
    · exact ⟨some ⟨item⟩, rfl⟩
  · rintro (_ | d) <;> rfl
  · rintro (_ | d) <;> rfl
  · rintro (_ | d) t ht
    · exact Token.among_append.mpr (.inl ht)
    · exact Token.among_append.mpr (.inr ht)

theorem begins_optional {D : Phrase α} {barred : List TokenClass}
    (h : (Form.ofPhrase D barred).Starts first) (barred' : List TokenClass) :
    (Form.ofPhrase (Optional D) barred').Begins first := by
  rintro ⟨steps⟩ t ts hts
  cases steps with
  | absent => cases hts
  | present item => exact h.begins ⟨item⟩ t ts hts

/-! ## Rules -/

/-- The rule reads the phrase, and the phrase starts with a token of one of these classes. -/
structure Recognizes (N : Nat) (b : ι → Nat) (R : ι → Recognizer (Option α)) (D : Phrase α)
    (first barred : List TokenClass) : Prop where
  reads : Reads N b R ((Form.ofPhrase D barred).optional first)
  starts : (Form.ofPhrase D barred).Starts first
  inhabited : Nonempty (Derivation D)

namespace Recognizes

variable {D : Phrase α} {barred : List TokenClass} {R : ι → Recognizer (Option α)}

private theorem mono {N' : Nat} {b' : ι → Nat} (h : Recognizes N b R D first barred) (hN : N' ≤ N)
    (hb : ∀ i, b' i ≤ b i) : Recognizes N' b' R D first barred :=
  ⟨h.reads.mono hN hb, h.starts, h.inhabited⟩

private theorem reindex {κ : Type} {c : κ → Nat} (h : Recognizes N b R D first barred) (f : κ → ι)
    (hc : ∀ j, c j ≤ b (f j)) : Recognizes N c (fun j => R (f j)) D first barred :=
  ⟨h.reads.reindex f hc, h.starts, h.inhabited⟩

theorem later (h : Recognizes N b R D first barred) :
    Recognizes (N - 1) (fun i => b i - 1) R D first barred :=
  h.mono (Nat.sub_le N 1) fun i => Nat.sub_le (b i) 1

theorem expect (h : Recognizes N b R D first barred) (expected : Expectation) :
    Reads N b (fun i => Recognizer.expect (R i) expected) (Form.ofPhrase D barred) :=
  h.reads.expect h.inhabited expected

theorem take (kind : Kind) (text : Option String) (hkind : kind ≠ .endOfInput) :
    Recognizes N b (fun _ => Recognizer.take kind text) (Terminal kind text) [⟨kind, text⟩] [] := by
  refine ⟨Reads.take kind text hkind, ?_, ?_⟩
  · rintro ⟨⟨hfits⟩⟩
    exact ⟨_, [], rfl, Token.among_singleton.mpr hfits⟩
  · have hfits : Token.fits ⟨kind, text.getD "", .none⟩ kind text := by
      cases text <;> simp [Token.fits]
    exact ⟨⟨.token hfits⟩⟩

theorem symbol (text : String) :
    Recognizes N b (fun _ => Recognizer.symbol text) (Symbol text) [⟨.symbol, text⟩] [] :=
  take .symbol (some text) (by decide)

theorem keyword (word : String) :
    Recognizes N b (fun _ => Recognizer.keyword word) (Keyword word) [⟨.keyword, word⟩] [] :=
  take .keyword (some word) (by decide)

theorem name : Recognizes N b (fun _ => Recognizer.name) Name [⟨.name, none⟩] [] :=
  take .name none (by decide)

theorem map {D' : Phrase α} {barred' : List TokenClass} (h : Recognizes N b R D first barred)
    (f : Derivation D → Derivation D') (hf : ∀ x, ∃ d, f d = x)
    (htokens : ∀ d, (f d).tokens = d.tokens) (hvalue : ∀ d, (f d).value = d.value)
    (hbarred : ∀ t : Token, t.Among barred → t.Among barred') :
    Recognizes N b R D' first barred' := by
  refine ⟨h.reads.mapOptional f hf htokens hvalue fun _ => hbarred, ?_, ?_⟩
  · intro x
    obtain ⟨d, rfl⟩ := hf x
    obtain ⟨t, ts, hts, ht⟩ := h.starts d
    exact ⟨t, ts, (htokens d).trans hts, ht⟩
  · obtain ⟨d⟩ := h.inhabited
    exact ⟨f d⟩

theorem commit {S : ι → α → Recognizer β} {E : Phrase β} {ε : Derivation D → Type}
    {G : (d : Derivation D) → Form (ε d) β} {barred' : List TokenClass}
    (h : Recognizes N b R D first barred)
    (hbody : ∀ d : Derivation D, Reads (N - 1) (fun i => b i - 1) (fun i => S i d.value) (G d))
    (havoids : ∀ d, (G d).Avoids (·.Among barred))
    (f : (d : Derivation D) × ε d → Derivation E) (hf : ∀ x, ∃ d, f d = x)
    (htokens : ∀ d, (f d).tokens = d.1.tokens ++ (G d.1).tokens d.2)
    (hvalue : ∀ d, (f d).value = (G d.1).value d.2)
    (hbarred : ∀ (d : Derivation D) x t, (G d).barred x t → t.Among barred') :
    Recognizes N b (fun i => Recognizer.commit (R i) (S i)) E first barred' := by
  have hcommit := h.reads.commit h.starts hbody havoids
  refine ⟨hcommit.mapOptional f hf htokens hvalue fun d => hbarred d.1 d.2, ?_, ?_⟩
  · intro x
    obtain ⟨d, rfl⟩ := hf x
    obtain ⟨t, ts, hts, ht⟩ := h.starts.bind (G := G) d
    exact ⟨t, ts, (htokens d).trans hts, ht⟩
  · obtain ⟨d⟩ := h.inhabited
    exact (hbody d).inhabited.map fun x => f ⟨d, x⟩

theorem either {S : ι → Recognizer (Option α)} {E : Phrase α} {first' barred' : List TokenClass}
    (h : Recognizes N b R D first barred) (h' : Recognizes N b S E first' barred')
    (hdisjoint : TokenClass.disjoint first' first) :
    Recognizes N b (fun i => Recognizer.either (R i) (S i)) (Choice D E) (first ++ first')
      (barred ++ barred') := by
  have heither := Reads.either h.reads h'.reads h.starts h'.starts hdisjoint
  refine ⟨heither.mapOptional (Sum.elim (fun d => ⟨.inl d.steps⟩) fun d => ⟨.inr d.steps⟩) ?_ ?_ ?_ ?_,
    ?_, ?_⟩
  · rintro ⟨item | item⟩
    · exact ⟨.inl ⟨item⟩, rfl⟩
    · exact ⟨.inr ⟨item⟩, rfl⟩
  · rintro (d | d) <;> rfl
  · rintro (d | d) <;> rfl
  · rintro (d | d) t ht
    · exact Token.among_append.mpr (.inl ht)
    · exact Token.among_append.mpr (.inr ht)
  · rintro ⟨item | item⟩
    · obtain ⟨t, ts, hts, ht⟩ := h.starts ⟨item⟩
      exact ⟨t, ts, hts, Token.among_append.mpr (.inl ht)⟩
    · obtain ⟨t, ts, hts, ht⟩ := h'.starts ⟨item⟩
      exact ⟨t, ts, hts, Token.among_append.mpr (.inr ht)⟩
  · obtain ⟨d⟩ := h.inhabited
    exact ⟨⟨.inl d.steps⟩⟩

end Recognizes

/-! ## Repetition -/

namespace Recognizes

variable {D : Phrase α} {barred : List TokenClass} {p : ι → Recognizer (Option α)}

theorem begins_repeated (h : Recognizes N b p D first barred) (barred' : List TokenClass) :
    (Form.ofPhrase (Repeated D) barred').Begins first := by
  rintro ⟨steps⟩ t ts hts
  cases steps with
  | none => cases hts
  | more item rest =>
    obtain ⟨t', ts', hts', ht'⟩ := h.starts ⟨item⟩
    simp only [Form.ofPhrase] at hts hts'
    rw [hts', List.cons_append] at hts
    cases hts
    exact ht'

private theorem manyWithin_succ {r : ι → Recognizer (List α)}
    (hp : Recognizes (N + 1) b p D first barred)
    (hr : Reads N (fun i => b i - 1) r (Form.ofPhrase (Repeated D) (first ++ barred)))
    (hdisjoint : TokenClass.disjoint first barred) :
    Reads (N + 1) b (fun i => do
      match ← p i with
      | some a => return a :: (← r i)
      | none => return []) (Form.ofPhrase (Repeated D) (first ++ barred)) := by
  have hbranch := Reads.branch (S := fun i o => do
      match o with
      | some a => return a :: (← r i)
      | none => return []) hp.reads hp.starts (fun d => hr.withValue (d.value :: ·))
    (Reads.nothing [] (·.Among (first ++ barred))) ?_ ?_
  · refine hbranch.map (Sum.elim (fun d => ⟨.more d.1.steps d.2.steps⟩) fun _ => ⟨.none⟩) ?_ ?_ ?_ ?_
    · rintro ⟨_ | ⟨item, rest⟩⟩
      · exact ⟨.inr (), rfl⟩
      · exact ⟨.inl ⟨⟨item⟩, ⟨rest⟩⟩, rfl⟩
    · rintro (d | d) <;> rfl
    · rintro (d | d) <;> rfl
    · rintro (d | d) t ht <;> exact ht
  · intro d
    exact (hp.begins_repeated (first ++ barred)).avoids hdisjoint
      fun _ _ ht => Token.among_append.mpr (.inr ht)
  · intro _ τ hstops
    exact hstops.mono fun _ ht => Token.among_append.mpr (.inl ht)

private theorem manyWithin (hp : Recognizes N b p D first barred)
    (hdisjoint : TokenClass.disjoint first barred) :
    Reads N (fun j : ι × Nat => min (b j.1) j.2) (fun j => Recognizer.manyWithin (p j.1) j.2)
      (Form.ofPhrase (Repeated D) (first ++ barred)) := by
  induction N with
  | zero => exact ⟨⟨⟨.none⟩⟩, fun σ hσ => absurd hσ (Nat.not_lt_zero _)⟩
  | succ N ih =>
    have hrest := ih (hp.mono (Nat.le_succ N) fun i => Nat.le_refl (b i))
    have hmatch := hp.reindex (c := fun j : ι × Nat => min (b j.1) (j.2 + 1)) Prod.fst
      fun j => Nat.min_le_left _ _
    have hnext := manyWithin_succ hmatch
      (hrest.mono (Nat.le_refl N) fun j => (by omega)) hdisjoint
    -- A bound above the length of a stream leaves fuel for one more match.
    refine hnext.imp ?_
    rintro σ o hg ⟨i, _ | fuel⟩ s hj hs
    · simp at hj
    · exact hg (i, fuel) s hj hs

theorem many (hp : Recognizes N b p D first barred) (hdisjoint : TokenClass.disjoint first barred) :
    Reads N b (fun i => Recognizer.many (p i)) (Form.ofPhrase (Repeated D) (first ++ barred)) :=
  (hp.manyWithin hdisjoint).sized

theorem afterComma (hp : Recognizes N b p D first barred) (next : Expectation) :
    Recognizes N b (fun i =>
      Recognizer.commit (Recognizer.symbol ",") fun _ => Recognizer.expect (p i) next)
      (AfterComma D) [⟨.symbol, ","⟩] barred := by
  refine (symbol ",").commit (fun _ => hp.later.expect next) (fun _ => Form.avoids_none)
    (fun d => ⟨.item d.1.steps d.2.steps⟩) ?_ (fun _ => rfl) (fun _ => rfl)
    fun _ _ _ ht => ht
  rintro ⟨⟨comma, item⟩⟩
  exact ⟨⟨⟨comma⟩, ⟨item⟩⟩, rfl⟩

theorem avoids_afterCommas (hp : Recognizes N b p D first barred)
    (hdisjoint : TokenClass.disjoint [⟨.symbol, ","⟩] barred) :
    (Form.ofPhrase (Repeated (AfterComma D)) (⟨.symbol, ","⟩ :: barred)).Avoids (·.Among barred) :=
  ((hp.afterComma .nextArgument).begins_repeated _).avoids hdisjoint
    fun _ _ ht => ht.mono (List.subset_cons_self _ _)

theorem commaSeparated (hp : Recognizes N b p D first barred)
    (hdisjoint : TokenClass.disjoint [⟨.symbol, ","⟩] barred) (item next : Expectation) :
    Reads N b (fun i => Recognizer.commaSeparated (p i) item next)
      (Form.ofPhrase (Separated D) (⟨.symbol, ","⟩ :: barred)) := by
  have hrest (d : Derivation D) := ((hp.afterComma next).many hdisjoint).withValue (d.value :: ·)
  have hbind : Reads N b (fun i => Recognizer.commaSeparated (p i) item next) _ :=
    (hp.expect item).andThen hrest fun _ => hp.avoids_afterCommas hdisjoint
  refine hbind.map (fun d => ⟨.items d.1.steps d.2.steps⟩) ?_ (fun _ => rfl) (fun _ => rfl)
    fun _ _ ht => ht
  rintro ⟨⟨item, rest⟩⟩
  exact ⟨⟨⟨item⟩, ⟨rest⟩⟩, rfl⟩

end Recognizes

/-! ## Chains of operators -/

namespace Recognizes

variable {O : Phrase Token} {D : Phrase Tree} {firstO barredO barred : List TokenClass}
  {operand : ι → Rule} {operator : ι → Recognizer (Option Token)}

private theorem begins_links (h : Recognizes N b operator O firstO barredO) (left : Tree)
    (barred' : List TokenClass) : (Form.ofPhrase (Links O D left) barred').Begins firstO := by
  rintro ⟨steps⟩ t ts hts
  cases steps with
  | stop => cases hts
  | link op item rest =>
    obtain ⟨t', ts', hts', ht'⟩ := h.starts ⟨op⟩
    simp only [Form.ofPhrase] at hts hts'
    rw [hts', List.cons_append] at hts
    cases hts
    exact ht'

private theorem avoids_links (h : Recognizes N b operator O firstO barredO)
    (hdisjoint : TokenClass.disjoint firstO barred) (left : Tree) :
    (Form.ofPhrase (Links O D left) (firstO ++ barred)).Avoids (·.Among barred) :=
  (h.begins_links left _).avoids hdisjoint fun _ _ ht => Token.among_append.mpr (.inr ht)

private theorem chainWithin_succ {r : ι → Tree → Recognizer Tree} (expected : Expectation)
    (left : Tree) (hoperator : Recognizes (N + 1) b operator O firstO barredO)
    (hoperand : Recognizes N (fun i => b i - 1) operand D first barred)
    (hr : ∀ t, Reads N (fun i => b i - 1) (fun i => r i t)
      (Form.ofPhrase (Links O D t) (firstO ++ barred)))
    (hdisjointO : TokenClass.disjoint first barredO) (hdisjoint : TokenClass.disjoint firstO barred) :
    Reads (N + 1) b (fun i => do
      match ← operator i with
      | some op => do
        let right ← Recognizer.expect (operand i) expected
        r i (.node op [left, right])
      | none => return left) (Form.ofPhrase (Links O D left) (firstO ++ barred)) := by
  have hright (op : Derivation O) : Reads N (fun i => b i - 1)
      (fun i => Recognizer.expect (operand i) expected >>= fun right => r i (.node op.value [left, right]))
      ((Form.ofPhrase D barred).bind fun d =>
        Form.ofPhrase (Links O D (.node op.value [left, d.value])) (firstO ++ barred)) :=
    (hoperand.expect expected).bind (fun d => (hr _).mono (Nat.sub_le _ _) fun i => Nat.sub_le _ _)
      fun _ => hoperator.avoids_links hdisjoint _
  have hbranch := Reads.branch (S := fun i o => do
      match o with
      | some op => do
        let right ← Recognizer.expect (operand i) expected
        r i (.node op [left, right])
      | none => return left) hoperator.reads hoperator.starts hright
    (Reads.nothing left (·.Among (firstO ++ barred)))
    (fun _ => hoperand.starts.bind.avoids hdisjointO)
    (Form.avoids_nothing fun _ ht => Token.among_append.mpr (.inl ht))
  refine hbranch.map (Sum.elim (fun d => ⟨.link d.1.steps d.2.1.steps d.2.2.steps⟩) fun _ => ⟨.stop⟩)
    ?_ ?_ ?_ ?_
  · rintro ⟨steps⟩
    cases steps with
    | stop => exact ⟨.inr (), rfl⟩
    | link op item rest => exact ⟨.inl ⟨⟨op⟩, ⟨item⟩, ⟨rest⟩⟩, rfl⟩
  · rintro (d | d) <;> rfl
  · rintro (d | d) <;> rfl
  · rintro (d | d) t ht <;> exact ht

private theorem chainWithin (expected : Expectation) (left : Tree)
    (hoperator : Recognizes N b operator O firstO barredO)
    (hoperand : Recognizes N b operand D first barred)
    (hdisjointO : TokenClass.disjoint first barredO) (hdisjoint : TokenClass.disjoint firstO barred) :
    Reads N (fun j : ι × Nat => min (b j.1) j.2)
      (fun j => Recognizer.chainWithin (operand j.1) (operator j.1) expected j.2 left)
      (Form.ofPhrase (Links O D left) (firstO ++ barred)) := by
  induction N generalizing left with
  | zero => exact ⟨⟨⟨.stop⟩⟩, fun σ hσ => absurd hσ (Nat.not_lt_zero _)⟩
  | succ N ih =>
    have hfewer := hoperand.mono (Nat.le_succ N) fun i => Nat.le_refl (b i)
    have hrest (t : Tree) := ih t (hoperator.mono (Nat.le_succ N) fun i => Nat.le_refl (b i)) hfewer
    have hnext := chainWithin_succ expected left
      (hoperator.reindex (c := fun j : ι × Nat => min (b j.1) (j.2 + 1)) Prod.fst
        fun j => Nat.min_le_left _ _)
      (hfewer.reindex Prod.fst fun j => (by omega))
      (fun t => (hrest t).mono (Nat.le_refl N) fun j => (by omega)) hdisjointO hdisjoint
    refine hnext.imp ?_
    rintro σ o hg ⟨i, _ | fuel⟩ s hj hs
    · simp at hj
    · exact hg (i, fuel) s hj hs

theorem chain (expected : Expectation) (hoperator : Recognizes N b operator O firstO barredO)
    (hoperand : Recognizes N b operand D first barred)
    (hdisjointO : TokenClass.disjoint first barredO) (hdisjoint : TokenClass.disjoint firstO barred) :
    Recognizes N b (fun i => Recognizer.chain (operand i) (operator i) expected) (Chained O D) first
      (firstO ++ barred) := by
  have hlinks (left : Tree) : Reads N b
      (fun i => sized fun fuel => Recognizer.chainWithin (operand i) (operator i) expected fuel left)
      (Form.ofPhrase (Links O D left) (firstO ++ barred)) :=
    (chainWithin expected left hoperator hoperand hdisjointO hdisjoint).sized
  refine hoperand.commit
    (fun d => (hlinks d.value).mono (Nat.sub_le N 1) fun i => Nat.sub_le (b i) 1)
    (fun _ => hoperator.avoids_links hdisjoint _)
    (fun d => ⟨.chain d.1.steps d.2.steps⟩) ?_ (fun _ => rfl) (fun _ => rfl) fun _ _ _ ht => ht
  rintro ⟨⟨item, rest⟩⟩
  exact ⟨⟨⟨item⟩, ⟨rest⟩⟩, rfl⟩

/-! ## Line ends -/

theorem lineEnd :
    Recognizes N b (fun _ => Recognizer.lineEnd) LineEnds [⟨.endOfLine, none⟩] [⟨.endOfLine, none⟩] := by
  have hline : Recognizes N b (fun _ => Recognizer.take .endOfLine none) _ _ _ :=
    take .endOfLine none (by decide)
  have hmany := (hline.later.many rfl).withValue fun _ => ()
  refine hline.commit (fun _ => hmany) (fun _ => Form.avoids_none)
    (fun d => ⟨.lines d.1.steps d.2.steps⟩) ?_ (fun _ => rfl) (fun _ => rfl) fun _ _ _ ht => ht
  rintro ⟨⟨line, lines⟩⟩
  exact ⟨⟨⟨line⟩, ⟨lines⟩⟩, rfl⟩

end Recognizes

theorem Reads.opening (brace line : Expectation) :
    Reads N b (fun _ => Recognizer.opening brace line)
      ((Form.ofPhrase (Symbol "\x7b") []).bind fun _ => Form.ofPhrase LineEnds [⟨.endOfLine, none⟩]) :=
  ((Recognizes.symbol "\x7b").expect brace).andThen (fun _ => Recognizes.lineEnd.expect line)
    fun _ => Form.avoids_none

/-! ## Looking ahead -/

theorem isNext_of_next {s s' : Scanner} {t : Token} (h : s.next = (.ok t, s')) (kind : Kind)
    (text : String) : isNext kind text s = .ok (t.fits kind (some text)) (s'.takeBack t) := by
  show EStateM.bind nextToken _ s = _
  simp only [EStateM.bind, nextToken_of_next h]
  rfl

theorem isNext_of_failed {s s' : Scanner} {e : LexicalError} (h : s.next = (.error e, s'))
    (kind : Kind) (text : String) : isNext kind text s = .error (.lexical e) s' := by
  show EStateM.bind nextToken _ s = _
  simp only [EStateM.bind, nextToken_of_failed h]

theorem isNext_gives (kind : Kind) (text : String) {σ : TokenStream} {t : Token} (h : σ.next = .ok t) :
    Gives b (fun _ => isNext kind text) σ (.done (t.fits kind (some text)) σ) := by
  intro i s _ hs
  obtain ⟨s', hs'⟩ := hs.next_eq
  rw [h] at hs'
  show (Answer.done _ σ).Of (isNext kind text s)
  rw [isNext_of_next hs']
  exact ⟨rfl, hs.takeBack hs'⟩

theorem isNext_gives_stuck (kind : Kind) (text : String) {σ : TokenStream} {e : LexicalError}
    (h : σ.next = .error e) : Gives b (fun _ => isNext kind text) σ (.stuck (.lexical e)) := by
  intro i s _ hs
  obtain ⟨s', hs'⟩ := hs.next_eq
  rw [h] at hs'
  show (Answer.stuck _).Of (isNext kind text s)
  rw [isNext_of_failed hs']
  rfl

theorem Reads.ifNext {kind : Kind} {text : String} {R : ι → Recognizer α} {S : ι → Recognizer α} {a : α}
    (hR : ∀ σ : TokenStream, ∀ t, σ.next = .ok t → t.fits kind (some text) → Gives b R σ (.done a σ))
    (hS : Refuses b S) :
    Reads N b (fun i => do if ← isNext kind text then R i else S i)
      (Form.nothing a fun t => ¬ t.fits kind (some text)) := by
  refine ⟨⟨()⟩, fun σ _ => ?_⟩
  cases hnext : σ.next with
  | error e =>
    refine .stuck [] σ (.lexical e) rfl hnext ⟨(), [], rfl⟩ ?_ ?_
    · intro τ hτ
      exact (isNext_gives_stuck kind text (hτ.trans hnext)).bind_stuck
    · intro τ hτ d τ' hd
      obtain ⟨t, ht⟩ := TokenStream.next_of_splits hd
      cases ht.symm.trans (hτ.trans hnext)
  | ok t =>
    have hpeek {τ : TokenStream} (hτ : τ.next = σ.next) :=
      isNext_gives (b := b) kind text (hτ.trans hnext)
    by_cases hfits : t.fits kind (some text)
    · refine .found () σ rfl ?_ fun _ _ _ _ _ => rfl
      intro τ hτ
      refine (hpeek hτ).bind_here ?_
      simp only [hfits, if_true]
      exact hR τ t (hτ.trans hnext) hfits
    · obtain ⟨e, hblames, hgives⟩ := hS σ
      refine .stuck [] σ e rfl hblames ⟨(), [], rfl⟩ ?_ ?_
      · intro τ hτ
        refine (hpeek hτ).bind_here ?_
        simp only [hfits]
        exact hgives τ hτ
      · rintro τ hτ d τ' ⟨hsplit, t', ht', hnot⟩
        cases (show τ = τ' from hsplit)
        cases ht'.symm.trans (hτ.trans hnext)
        exact hnot hfits

/-- What cannot come at the end of the input. -/
abbrev NotAtEnd (t : Token) : Prop := ¬ t.fits .endOfInput (some "EOF")

private theorem take_endOfInput_gives {σ : TokenStream} {t : Token} (h : σ.next = .ok t) :
    Gives b (fun _ => take .endOfInput none) σ
      (.done (if t.fits .endOfInput (some "EOF") then some t else none) σ) := by
  intro i s _ hs
  show (Answer.done _ σ).Of (take .endOfInput none s)
  cases hs with
  | failed h' => cases h
  | token h' ht hs =>
    cases h
    have hfits (text : Option String) : ¬ t.fits .endOfInput text := fun hfits =>
      ht (Token.kind_of_fits hfits)
    rw [take_of_next h', if_neg (hfits _), if_neg (hfits _)]
    exact ⟨rfl, Scanner.Holds.takeBack (.token h' ht hs) h'⟩
  | ended h' hs =>
    cases h
    have hfits (p : Position) : (Token.endOfInput p).fits .endOfInput none := rfl
    have hfits' (p : Position) : (Token.endOfInput p).fits .endOfInput (some "EOF") := rfl
    rw [take_of_next h', if_pos (hfits _), if_pos (hfits' _)]
    exact ⟨rfl, .ended hs hs⟩

private theorem take_endOfInput_stuck {σ : TokenStream} {e : LexicalError} (h : σ.next = .error e) :
    Gives b (fun _ => take .endOfInput none) σ (.stuck (.lexical e)) := by
  intro i s _ hs
  obtain ⟨s', hs'⟩ := hs.next_eq
  rw [h] at hs'
  show (Answer.stuck _).Of (take .endOfInput none s)
  rw [take_of_failed hs']
  rfl

/-- The end of the input, and nothing else. -/
def atEnd (a : α) (expected : Expectation) : Recognizer α := do
  let _ ← expect (take .endOfInput none) expected
  return a

theorem atEnd_gives (a : α) (expected : Expectation) {σ : TokenStream} (h : σ.Stops NotAtEnd) :
    Gives b (fun _ => atEnd a expected) σ (.done a σ) := by
  obtain ⟨t, hnext, hnot⟩ := h
  have htake := take_endOfInput_gives (b := b) hnext
  rw [if_pos (not_not.mp hnot)] at htake
  exact (htake.bind_here (Gives.pure t σ)).bind_here (Gives.pure a σ)

theorem atEnd_refuses (a : α) (expected : Expectation) {σ : TokenStream} (h : ¬ σ.Stops NotAtEnd) :
    ∃ e : SyntaxError, e.Blames σ.next ∧
      ∀ τ : TokenStream, τ.next = σ.next → Gives b (fun _ => atEnd a expected) τ (.stuck e) := by
  cases hnext : σ.next with
  | error e =>
    exact ⟨.lexical e, rfl, fun τ hτ => (take_endOfInput_stuck hτ).bind_stuck.bind_stuck⟩
  | ok t =>
    obtain ⟨e, hblames, hgives⟩ := fail_refuses (b := b) (α := Token) expected σ
    refine ⟨e, hnext ▸ hblames, fun τ hτ => ?_⟩
    have htake := take_endOfInput_gives (b := b) hτ
    rw [if_neg fun hfits => h ⟨t, hnext, not_not_intro hfits⟩] at htake
    exact (htake.bind_here (hgives τ (hτ.trans hnext.symm))).bind_stuck

theorem Reads.atEnd (a : α) (expected : Expectation) :
    Reads N b (fun _ => Recognizer.atEnd a expected) (Form.nothing a NotAtEnd) := by
  refine ⟨⟨()⟩, fun σ _ => ?_⟩
  by_cases hstops : σ.Stops NotAtEnd
  · exact .found () σ rfl (fun τ hτ => atEnd_gives a expected (hstops.of_next hτ))
      fun _ _ _ _ _ => rfl
  · obtain ⟨e, hblames, hgives⟩ := atEnd_refuses a expected hstops
    refine .stuck [] σ e rfl hblames ⟨(), [], rfl⟩ hgives ?_
    rintro τ hτ d τ' ⟨hsplit, hstops'⟩
    cases (show τ = τ' from hsplit)
    exact hstops (hstops'.of_next hτ.symm)

end DrawingBugs.Recognizer
