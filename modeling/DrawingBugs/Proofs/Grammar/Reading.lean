import DrawingBugs.Grammar.Recognizer
import DrawingBugs.Proofs.Grammar.Syntax
import DrawingBugs.Proofs.Grammar.TokenStream

/-!
# What recognizers read

A recognizer reads the derivations of a form when on every stream it finds the one derivation that
the stream begins with, or gets stuck at the first token that no derivation goes on with. In both
cases it has looked no further than the next token. Fuel is treated by families: all members of
a family behave alike on the streams that are shorter than their bounds.
-/

namespace DrawingBugs

/-- The tokens of a kind, all of them or those with one text. -/
structure TokenClass where
  kind : Kind
  text : Option String
  deriving DecidableEq

def TokenClass.overlaps (a b : TokenClass) : Bool :=
  a.kind = b.kind ∧ (a.text = none ∨ b.text = none ∨ a.text = b.text)

/-- The token belongs to one of the classes. -/
def Token.Among (t : Token) (classes : List TokenClass) : Prop :=
  ∃ c ∈ classes, t.fits c.kind c.text

def TokenClass.disjoint (as bs : List TokenClass) : Bool :=
  as.all fun a => bs.all fun b => !a.overlaps b

theorem Token.kind_of_fits {t : Token} {kind : Kind} {text : Option String} (h : t.fits kind text) :
    t.kind = kind := by
  simp only [Token.fits, decide_eq_true_eq] at h
  exact h.1

theorem Token.text_of_fits {t : Token} {kind : Kind} {text : String} (h : t.fits kind (some text)) :
    t.text = text := by
  simp only [Token.fits, Option.all_some, beq_iff_eq, decide_eq_true_eq] at h
  exact h.2

private theorem Token.overlaps_of_fits {t : Token} {a b : TokenClass} (ha : t.fits a.kind a.text)
    (hb : t.fits b.kind b.text) : a.overlaps b := by
  obtain ⟨kind, text⟩ := a
  obtain ⟨kind', text'⟩ := b
  cases text <;> cases text' <;> simp_all [Token.fits, TokenClass.overlaps]

theorem Token.Among.of_disjoint {t : Token} {as bs : List TokenClass} (ha : t.Among as)
    (h : TokenClass.disjoint as bs) : ¬ t.Among bs := by
  rintro ⟨b, hb, htb⟩
  obtain ⟨a, ha, hta⟩ := ha
  simp only [TokenClass.disjoint, List.all_eq_true] at h
  have hnot := h a ha b hb
  rw [Token.overlaps_of_fits hta htb] at hnot
  cases hnot

theorem Token.Among.mono {t : Token} {as bs : List TokenClass} (ha : t.Among as) (h : as ⊆ bs) :
    t.Among bs := by
  obtain ⟨a, ha, hta⟩ := ha
  exact ⟨a, h ha, hta⟩

theorem Token.among_append {t : Token} {as bs : List TokenClass} :
    t.Among (as ++ bs) ↔ t.Among as ∨ t.Among bs := by
  simp only [Token.Among, List.mem_append, or_and_right, exists_or]

theorem Token.among_singleton {t : Token} {c : TokenClass} : t.Among [c] ↔ t.fits c.kind c.text := by
  simp [Token.Among]

/-- The next token does not go on with what is barred. -/
def TokenStream.Stops (σ : TokenStream) (barred : Token → Prop) : Prop :=
  ∃ t, σ.next = .ok t ∧ ¬ barred t

/-- The error is about what comes next. -/
def SyntaxError.Blames : SyntaxError → Except LexicalError Token → Prop
  | .lexical e, next => next = .error e
  | .unexpected _ t, next => next = .ok t

/-- How a recognizer comes off on a stream. -/
inductive Answer (α : Type) where
  | done (a : α) (rest : TokenStream)
  | stuck (e : SyntaxError)

def Answer.Of {α : Type} : Answer α → EStateM.Result SyntaxError Scanner α → Prop
  | done a rest, .ok a' s => a' = a ∧ s.Holds rest
  | stuck e, .error e' _ => e' = e
  | _, _ => False

/-- Derivations with their tokens, with what they stand for, and with the tokens that may not come
right after them. -/
structure Form (δ α : Type) where
  tokens : δ → List Token
  value : δ → α
  barred : δ → Token → Prop

/-- The stream is the derivation and a rest that does not go on with it. -/
def Form.Splits {δ α : Type} (F : Form δ α) (σ : TokenStream) (d : δ) (rest : TokenStream) : Prop :=
  σ = rest.after (F.tokens d) ∧ rest.Stops (F.barred d)

/-- The tokens begin a derivation. -/
def Form.Viable {δ α : Type} (F : Form δ α) (read : List Token) : Prop :=
  ∃ d rest, F.tokens d = read ++ rest

namespace Recognizer

variable {ι κ α β : Type} {b : ι → Nat} {c : κ → Nat}

/-- All members of the family whose bound is above the stream's length have this outcome on it. -/
def Gives (b : ι → Nat) (R : ι → Recognizer α) (σ : TokenStream) (o : Answer α) : Prop :=
  ∀ i s, σ.length < b i → s.Holds σ → o.Of (R i s)

theorem Gives.pure (a : α) (σ : TokenStream) : Gives b (fun _ => pure a) σ (.done a σ) :=
  fun _ _ _ hs => ⟨rfl, hs⟩

private theorem Gives.bind {R : ι → Recognizer α} {S : ι → α → Recognizer β} {ts : List Token}
    {σ : TokenStream} {a : α} {o : Answer β} (hR : Gives b R (σ.after ts) (.done a σ))
    (hS : Gives (fun i => b i - ts.length) (fun i => S i a) σ o) :
    Gives b (fun i => R i >>= S i) (σ.after ts) o := by
  intro i s hi hs
  have hfirst := hR i s hi hs
  show o.Of (EStateM.bind (R i) (S i) s)
  simp only [EStateM.bind]
  cases hr : R i s with
  | error e s' =>
    rw [hr] at hfirst
    exact hfirst.elim
  | ok a' s' =>
    rw [hr] at hfirst
    obtain ⟨rfl, hs'⟩ := hfirst
    rw [TokenStream.length_after] at hi
    exact hS i s' (Nat.lt_sub_of_add_lt (by omega)) hs'

theorem Gives.bind_stuck {R : ι → Recognizer α} {S : ι → α → Recognizer β} {σ : TokenStream}
    {e : SyntaxError} (hR : Gives b R σ (.stuck e)) :
    Gives b (fun i => R i >>= S i) σ (.stuck e) := by
  intro i s hi hs
  have hfirst := hR i s hi hs
  show (Answer.stuck e).Of (EStateM.bind (R i) (S i) s)
  simp only [EStateM.bind]
  cases hr : R i s with
  | error e' s' =>
    rw [hr] at hfirst
    exact hfirst
  | ok a s' =>
    rw [hr] at hfirst
    exact hfirst.elim

theorem Gives.bind_here {R : ι → Recognizer α} {S : ι → α → Recognizer β}
    {σ : TokenStream} {a : α} {o : Answer β} (hR : Gives b R σ (.done a σ))
    (hS : Gives b (fun i => S i a) σ o) : Gives b (fun i => R i >>= S i) σ o := by
  have hbind : Gives b (fun i => R i >>= S i) (σ.after []) o := Gives.bind hR hS
  exact hbind

variable {δ ε : Type}

/-- What a family of recognizers does on one stream. Where it gets stuck it has read something
viable. -/
inductive ReadsAt (viable : List Token → Prop) (b : ι → Nat) (R : ι → Recognizer α) (F : Form δ α)
    (σ : TokenStream) : Prop
  | found (d : δ) (rest : TokenStream) (hσ : σ = rest.after (F.tokens d))
    (hgives : ∀ τ : TokenStream, τ.next = rest.next →
      Gives b R (τ.after (F.tokens d)) (.done (F.value d) τ))
    (hunique : ∀ τ : TokenStream, τ.next = rest.next → ∀ d' τ',
      F.Splits (τ.after (F.tokens d)) d' τ' → d' = d)
  | stuck (read : List Token) (rest : TokenStream) (e : SyntaxError) (hσ : σ = rest.after read)
    (hblames : e.Blames rest.next) (hviable : viable read)
    (hgives : ∀ τ : TokenStream, τ.next = rest.next → Gives b R (τ.after read) (.stuck e))
    (hnone : ∀ τ : TokenStream, τ.next = rest.next → ∀ d' τ', ¬ F.Splits (τ.after read) d' τ')

/-- The recognizers read the form, which has derivations, on all streams of less than `N` tokens. -/
structure Reads (N : Nat) (b : ι → Nat) (R : ι → Recognizer α) (F : Form δ α) : Prop where
  inhabited : Nonempty δ
  readsAt : ∀ σ : TokenStream, σ.length < N → ReadsAt F.Viable b R F σ

private theorem ReadsAt.transport {R : ι → Recognizer α} {S : κ → Recognizer β} {F : Form δ α}
    {G : Form ε β} {viable viable' : List Token → Prop} {σ : TokenStream}
    (h : ReadsAt viable b R F σ) (f : δ → ε)
    (hf : ∀ x, ∃ d, f d = x) (htokens : ∀ d, G.tokens (f d) = F.tokens d)
    (hbarred : ∀ d t, F.barred d t → G.barred (f d) t) (hviable : ∀ p, viable p → viable' p)
    (hdone : ∀ d σ τ, Gives b R σ (.done (F.value d) τ) → Gives c S σ (.done (G.value (f d)) τ))
    (hstuck : ∀ σ e, Gives b R σ (.stuck e) → Gives c S σ (.stuck e)) : ReadsAt viable' c S G σ := by
  have hsplits {σ τ : TokenStream} {d : δ} (hd : G.Splits σ (f d) τ) : F.Splits σ d τ := by
    obtain ⟨hσ, t, ht, hnot⟩ := hd
    exact ⟨by rw [hσ, htokens], t, ht, fun hbar => hnot (hbarred d t hbar)⟩
  cases h with
  | found d rest hσ hgives hunique =>
    refine .found (f d) rest (by rw [htokens, hσ]) ?_ ?_
    · intro τ hτ
      rw [htokens]
      exact hdone d _ τ (hgives τ hτ)
    · intro τ hτ x τ' hx
      obtain ⟨d', rfl⟩ := hf x
      rw [htokens] at hx
      rw [hunique τ hτ d' τ' (hsplits hx)]
  | stuck read rest e hσ hblames hread hgives hnone =>
    refine .stuck read rest e hσ hblames (hviable read hread)
      (fun τ hτ => hstuck _ e (hgives τ hτ)) ?_
    intro τ hτ x τ' hx
    obtain ⟨d', rfl⟩ := hf x
    exact hnone τ hτ d' τ' (hsplits hx)

private theorem Reads.transport {N N' : Nat} {R : ι → Recognizer α} {S : κ → Recognizer β}
    {F : Form δ α} {G : Form ε β} (h : Reads N b R F) (hN : N' ≤ N) (f : δ → ε)
    (hf : ∀ x, ∃ d, f d = x)
    (htokens : ∀ d, G.tokens (f d) = F.tokens d) (hbarred : ∀ d t, F.barred d t → G.barred (f d) t)
    (hdone : ∀ d σ τ, Gives b R σ (.done (F.value d) τ) → Gives c S σ (.done (G.value (f d)) τ))
    (hstuck : ∀ σ e, Gives b R σ (.stuck e) → Gives c S σ (.stuck e)) : Reads N' c S G := by
  refine ⟨h.inhabited.map f, fun σ hσ => ?_⟩
  refine (h.readsAt σ (Nat.lt_of_lt_of_le hσ hN)).transport f hf htokens hbarred ?_ hdone hstuck
  rintro p ⟨d, rest, hp⟩
  exact ⟨f d, rest, by rw [htokens, hp]⟩

/-- Recognizers that come off alike read alike. -/
theorem Reads.imp {N : Nat} {R : ι → Recognizer α} {S : κ → Recognizer α} {F : Form δ α}
    (h : Reads N b R F) (hgives : ∀ σ o, Gives b R σ o → Gives c S σ o) : Reads N c S F :=
  h.transport (Nat.le_refl N) id (fun x => ⟨x, rfl⟩) (fun _ => rfl) (fun _ _ hbar => hbar)
    (fun _ σ _ => hgives σ _) fun σ _ => hgives σ _

theorem Reads.reindex {N : Nat} {R : ι → Recognizer α} {F : Form δ α} (h : Reads N b R F)
    (f : κ → ι) (hc : ∀ j, c j ≤ b (f j)) : Reads N c (fun j => R (f j)) F :=
  h.imp fun _ _ hg j s hj => hg (f j) s (Nat.lt_of_lt_of_le hj (hc j))

theorem Reads.mono {N N' : Nat} {b' : ι → Nat} {R : ι → Recognizer α} {F : Form δ α}
    (h : Reads N b R F) (hN : N' ≤ N) (hb : ∀ i, b' i ≤ b i) : Reads N' b' R F := by
  have hfewer : Reads N' b R F :=
    ⟨h.inhabited, fun σ hσ => h.readsAt σ (Nat.lt_of_lt_of_le hσ hN)⟩
  exact hfewer.reindex id hb

/-- The size of a scanner is fuel enough. -/
theorem Reads.sized {N : Nat} {R : ι × Nat → Recognizer α} {F : Form δ α}
    (h : Reads N (fun j => min (b j.1) j.2) R F) :
    Reads N b (fun i => Recognizer.sized fun fuel => R (i, fuel)) F := by
  refine h.imp ?_
  intro σ o hg i s hi hs
  have hsize := hs.length_le
  exact hg (i, s.size + 1) s (Nat.lt_min.mpr ⟨hi, Nat.lt_succ_of_le hsize⟩) hs

theorem Reads.map {N : Nat} {R : ι → Recognizer α} {F : Form δ α} {G : Form ε α}
    (h : Reads N b R F) (f : δ → ε) (hf : ∀ x, ∃ d, f d = x)
    (htokens : ∀ d, G.tokens (f d) = F.tokens d) (hvalue : ∀ d, G.value (f d) = F.value d)
    (hbarred : ∀ d t, F.barred d t → G.barred (f d) t) : Reads N b R G :=
  h.transport (Nat.le_refl N) f hf htokens hbarred
    (fun d _ _ hg => by rwa [hvalue]) fun _ _ hg => hg

end Recognizer

namespace TokenStream

theorem next_of_splits {δ α : Type} {F : Form δ α} {σ τ : TokenStream} {d : δ}
    (h : F.Splits σ d τ) : ∃ t, σ.next = .ok t := by
  obtain ⟨rfl, t, ht, -⟩ := h
  cases hts : F.tokens d with
  | nil => exact ⟨t, ht⟩
  | cons u ts => exact ⟨u, rfl⟩

theorem Stops.of_next {σ τ : TokenStream} {barred : Token → Prop} (h : σ.Stops barred)
    (hnext : τ.next = σ.next) : τ.Stops barred := by
  obtain ⟨t, ht, hnot⟩ := h
  exact ⟨t, hnext.trans ht, hnot⟩

theorem Stops.mono {σ : TokenStream} {barred barred' : Token → Prop} (h : σ.Stops barred)
    (hb : ∀ t, barred' t → barred t) : σ.Stops barred' := by
  obtain ⟨t, ht, hnot⟩ := h
  exact ⟨t, ht, fun hbar => hnot (hb t hbar)⟩

end TokenStream

namespace Form

variable {δ α β : Type}

/-- The same derivations, standing for something else. -/
def withValue (F : Form δ α) (g : α → β) : Form δ β := ⟨F.tokens, fun d => g (F.value d), F.barred⟩

/-- No token at all, in front of a token that is not barred. -/
def nothing (a : α) (barred : Token → Prop) : Form Unit α := ⟨fun _ => [], fun _ => a, fun _ => barred⟩

/-- A derivation, and after it one whose form depends on the first. -/
def bind {ε : δ → Type} (F : Form δ α) (G : (d : δ) → Form (ε d) β) : Form ((d : δ) × ε d) β where
  tokens d := F.tokens d.1 ++ (G d.1).tokens d.2
  value d := (G d.1).value d.2
  barred d := (G d.1).barred d.2

/-- A derivation of either form. -/
def sum {ε : Type} (F : Form δ α) (G : Form ε α) : Form (δ ⊕ ε) α where
  tokens := Sum.elim F.tokens G.tokens
  value := Sum.elim F.value G.value
  barred := Sum.elim F.barred G.barred

/-- The derivations of a phrase, before tokens of none of the classes. -/
def ofPhrase (D : Syntax.Phrase α) (barred : List TokenClass) : Form (Syntax.Derivation D) α where
  tokens d := d.tokens
  value d := d.value
  barred _ t := t.Among barred

/-- A derivation or none, which is only for a token that does not start one. -/
def optional (F : Form δ α) (first : List TokenClass) : Form (Option δ) (Option α) where
  tokens d := d.elim [] F.tokens
  value := Option.map F.value
  barred d := d.elim (·.Among first) F.barred

/-- The derivations that are not missing. -/
def present (F : Form (Option δ) α) : Form δ α :=
  ⟨fun d => F.tokens (some d), fun d => F.value (some d), fun d => F.barred (some d)⟩

/-- All derivations start with a token of one of the classes. -/
def Starts (F : Form δ α) (first : List TokenClass) : Prop :=
  ∀ d, ∃ t ts, F.tokens d = t :: ts ∧ t.Among first

theorem Starts.length_pos {F : Form δ α} {first : List TokenClass} (h : F.Starts first) (d : δ) :
    1 ≤ (F.tokens d).length := by
  obtain ⟨t, ts, hts, -⟩ := h d
  rw [hts]
  exact Nat.le_add_left 1 ts.length

/-- All derivations that are not empty start with a token of one of the classes. -/
def Begins (F : Form δ α) (first : List TokenClass) : Prop :=
  ∀ d t ts, F.tokens d = t :: ts → t.Among first

theorem Starts.bind {ε : δ → Type} {F : Form δ α} {G : (d : δ) → Form (ε d) β}
    {first : List TokenClass} (h : F.Starts first) : (F.bind G).Starts first := by
  rintro ⟨d, x⟩
  obtain ⟨t, ts, hts, ht⟩ := h d
  exact ⟨t, ts ++ (G d).tokens x, by simp [Form.bind, hts], ht⟩

theorem Starts.begins {F : Form δ α} {first : List TokenClass} (h : F.Starts first) :
    F.Begins first := by
  intro d t ts hts
  obtain ⟨t', ts', hts', ht'⟩ := h d
  cases hts.symm.trans hts'
  exact ht'

theorem Begins.bind {ε : δ → Type} {F : Form δ α} {G : (d : δ) → Form (ε d) β}
    {first first' : List TokenClass} (h : F.Begins first) (hG : ∀ d, (G d).Starts first') :
    (F.bind G).Starts (first ++ first') := by
  rintro ⟨d, x⟩
  cases hd : F.tokens d with
  | nil =>
    obtain ⟨t, ts, hts, ht⟩ := hG d x
    exact ⟨t, ts, by simp [Form.bind, hd, hts], Token.among_append.mpr (.inr ht)⟩
  | cons t ts =>
    exact ⟨t, ts ++ (G d).tokens x, by simp [Form.bind, hd],
      Token.among_append.mpr (.inl (h d t ts hd))⟩

/-- In front of what they may stand before, no derivation begins with a barred token. -/
def Avoids (F : Form δ α) (barred : Token → Prop) : Prop :=
  ∀ d (τ : TokenStream), τ.Stops (F.barred d) → (τ.after (F.tokens d)).Stops barred

theorem avoids_none {F : Form δ α} : F.Avoids (·.Among []) := by
  intro d τ hstops
  obtain ⟨t, ht⟩ := TokenStream.next_of_splits (F := F) ⟨rfl, hstops⟩
  exact ⟨t, ht, fun hbar => by simp [Token.Among] at hbar⟩

theorem Starts.avoids {F : Form δ α} {first barred : List TokenClass} (h : F.Starts first)
    (hdisjoint : TokenClass.disjoint first barred) : F.Avoids (·.Among barred) := by
  intro d τ _
  obtain ⟨t, ts, hts, ht⟩ := h d
  refine ⟨t, ?_, ht.of_disjoint hdisjoint⟩
  rw [hts]
  rfl

theorem Avoids.sum {ε : Type} {F : Form δ α} {G : Form ε α} {barred : Token → Prop}
    (h : F.Avoids barred) (h' : G.Avoids barred) : (F.sum G).Avoids barred := by
  rintro (d | d) τ hstops
  · exact h d τ hstops
  · exact h' d τ hstops

theorem avoids_nothing {a : α} {barred barred' : Token → Prop} (h : ∀ t, barred' t → barred t) :
    (nothing a barred).Avoids barred' :=
  fun _ _ hstops => hstops.mono h

theorem Begins.avoids {F : Form δ α} {first barred : List TokenClass} (h : F.Begins first)
    (hdisjoint : TokenClass.disjoint first barred)
    (hbarred : ∀ d t, t.Among barred → F.barred d t) : F.Avoids (·.Among barred) := by
  intro d τ hstops
  cases hts : F.tokens d with
  | nil => exact hstops.mono (hbarred d)
  | cons t ts => exact ⟨t, rfl, (h d t ts hts).of_disjoint hdisjoint⟩

end Form

namespace Recognizer

variable {ι α β δ : Type} {b : ι → Nat} {N : Nat}

theorem Reads.nothing (a : α) (barred : Token → Prop) :
    Reads N b (fun _ => pure a) (Form.nothing a barred) :=
  ⟨⟨()⟩, fun σ _ => .found () σ rfl (fun τ _ => Gives.pure a τ) fun _ _ _ _ _ => rfl⟩

theorem Reads.withValue {R : ι → Recognizer α} {F : Form δ α} (h : Reads N b R F) (g : α → β) :
    Reads N b (fun i => R i >>= fun a => Pure.pure (g a)) (F.withValue g) :=
  h.transport (Nat.le_refl N) id (fun x => ⟨x, rfl⟩) (fun _ => rfl) (fun _ _ hbar => hbar)
    (fun d σ τ hg i s hi hs => by
      have hfirst := hg i s hi hs
      show (Answer.done _ τ).Of (EStateM.bind (R i) _ s)
      simp only [EStateM.bind]
      cases hr : R i s with
      | error e s' =>
        rw [hr] at hfirst
        exact hfirst.elim
      | ok a s' =>
        rw [hr] at hfirst
        obtain ⟨rfl, hs'⟩ := hfirst
        exact ⟨rfl, hs'⟩)
    fun _ _ hg => hg.bind_stuck

private theorem ReadsAt.bind {R : ι → Recognizer α} {S : ι → α → Recognizer β} {ε : δ → Type}
    {F : Form δ α} {G : (d : δ) → Form (ε d) β} {viable viable' : List Token → Prop}
    {viableS : δ → List Token → Prop} {σ : TokenStream} (hR : ReadsAt viable b R F σ)
    (hS : ∀ d rest, σ = rest.after (F.tokens d) → ReadsAt (viableS d)
      (fun i => b i - (F.tokens d).length) (fun i => S i (F.value d)) (G d) rest)
    (havoids : ∀ d, (G d).Avoids (F.barred d)) (hfirst : ∀ p, viable p → viable' p)
    (hsecond : ∀ d p, viableS d p → viable' (F.tokens d ++ p)) :
    ReadsAt viable' b (fun i => R i >>= S i) (F.bind G) σ := by
  -- A split of the whole stream splits off the first derivation, and then the second.
  have hsplit {σ τ : TokenStream} {x : (d : δ) × ε d} (hx : (F.bind G).Splits σ x τ) :
      F.Splits σ x.1 (τ.after ((G x.1).tokens x.2)) ∧
        (G x.1).Splits (τ.after ((G x.1).tokens x.2)) x.2 τ := by
    obtain ⟨rfl, hstops⟩ := hx
    exact ⟨⟨TokenStream.after_append _ _ _, havoids x.1 x.2 τ hstops⟩, rfl, hstops⟩
  cases hR with
  | stuck read rest e hread hblames hviable hgives hnone =>
    refine .stuck read rest e hread hblames (hfirst read hviable)
      (fun τ hτ => (hgives τ hτ).bind_stuck) ?_
    intro τ hτ x τ' hx
    exact hnone τ hτ x.1 _ (hsplit hx).1
  | found d rest hread hgives hunique =>
    cases hS d rest hread with
    | found x rest' hread' hgives' hunique' =>
      have hnext {τ : TokenStream} (hτ : τ.next = rest'.next) :
          (τ.after ((G d).tokens x)).next = rest.next := by
        rw [hread']
        exact TokenStream.next_after hτ _
      refine .found ⟨d, x⟩ rest' ?_ ?_ ?_
      · rw [hread, hread', Form.bind, TokenStream.after_append]
      · intro τ hτ
        rw [Form.bind, TokenStream.after_append]
        exact (hgives _ (hnext hτ)).bind (hgives' τ hτ)
      · rintro τ hτ ⟨d', x'⟩ τ' hx
        rw [Form.bind, TokenStream.after_append] at hx
        obtain ⟨hd, hsplit'⟩ := hsplit hx
        obtain rfl := hunique _ (hnext hτ) d' _ hd
        have hcancel : τ.after ((G d').tokens x) = _ := TokenStream.after_cancel hd.1
        rw [← hcancel] at hsplit'
        rw [hunique' τ hτ x' τ' hsplit']
    | stuck read' rest' e hread' hblames hviable hgives' hnone =>
      have hnext {τ : TokenStream} (hτ : τ.next = rest'.next) :
          (τ.after read').next = rest.next := by
        rw [hread']
        exact TokenStream.next_after hτ _
      refine .stuck (F.tokens d ++ read') rest' e ?_ hblames (hsecond d read' hviable) ?_ ?_
      · rw [hread, hread', TokenStream.after_append]
      · intro τ hτ
        rw [TokenStream.after_append]
        exact (hgives _ (hnext hτ)).bind (hgives' τ hτ)
      · rintro τ hτ ⟨d', x'⟩ τ' hx
        rw [TokenStream.after_append] at hx
        obtain ⟨hd, hsplit'⟩ := hsplit hx
        obtain rfl := hunique _ (hnext hτ) d' _ hd
        have hcancel : τ.after read' = _ := TokenStream.after_cancel hd.1
        rw [← hcancel] at hsplit'
        exact hnone τ hτ x' τ' hsplit'

/-- One recognizer after the other. The second one may count on a shorter stream. -/
theorem Reads.bind {R : ι → Recognizer α} {S : ι → α → Recognizer β} {ε : δ → Type}
    {F : Form δ α} {G : (d : δ) → Form (ε d) β} (hR : Reads N b R F)
    (hS : ∀ d, Reads (N - (F.tokens d).length) (fun i => b i - (F.tokens d).length)
      (fun i => S i (F.value d)) (G d))
    (havoids : ∀ d, (G d).Avoids (F.barred d)) : Reads N b (fun i => R i >>= S i) (F.bind G) := by
  refine ⟨hR.inhabited.elim fun d => (hS d).inhabited.map (⟨d, ·⟩), fun σ hσ => ?_⟩
  refine (hR.readsAt σ hσ).bind (fun d rest hread => (hS d).readsAt rest ?_) havoids ?_ ?_
  · rw [hread, TokenStream.length_after] at hσ
    omega
  · rintro p ⟨d, rest, hp⟩
    obtain ⟨x⟩ := (hS d).inhabited
    exact ⟨⟨d, x⟩, rest ++ (G d).tokens x, by simp [Form.bind, hp]⟩
  · rintro d p ⟨x, rest, hp⟩
    exact ⟨⟨d, x⟩, rest, by simp [Form.bind, hp]⟩

/-- What can be split off is read. -/
theorem Reads.gives_of_splits {R : ι → Recognizer α} {F : Form δ α} {σ τ : TokenStream} {d : δ}
    (h : Reads N b R F) (hσ : σ.length < N) (hd : F.Splits σ d τ) :
    Gives b R σ (.done (F.value d) τ) := by
  cases h.readsAt σ hσ with
  | stuck read rest e hread _ _ _ hnone => exact absurd (hread ▸ hd) (hnone rest rfl d τ)
  | found d' rest hread hgives hunique =>
    obtain rfl := hunique rest rfl d τ (hread ▸ hd)
    have hrest : rest = τ := TokenStream.after_cancel (hread.symm.trans hd.1)
    rw [hread, hrest]
    exact hrest ▸ hgives rest rfl

/-- A stream splits in one way at most. -/
theorem Reads.splits_unique {R : ι → Recognizer α} {F : Form δ α} {σ τ τ' : TokenStream} {d d' : δ}
    (h : Reads N b R F) (hσ : σ.length < N) (hd : F.Splits σ d τ) (hd' : F.Splits σ d' τ') : d = d' := by
  cases h.readsAt σ hσ with
  | stuck read rest e hread _ _ _ hnone => exact absurd (hread ▸ hd) (hnone rest rfl d τ)
  | found x rest hread hgives hunique =>
    rw [hunique rest rfl d τ (hread ▸ hd), hunique rest rfl d' τ' (hread ▸ hd')]

/-- The recognizers get stuck at once, on every stream. -/
def Refuses (b : ι → Nat) (R : ι → Recognizer α) : Prop :=
  ∀ σ : TokenStream, ∃ e : SyntaxError, e.Blames σ.next ∧
    ∀ τ : TokenStream, τ.next = σ.next → Gives b R τ (.stuck e)

/-- Where the first part may be missing but must not, the second one refuses what follows. -/
theorem Reads.require {R : ι → Recognizer α} {S : ι → α → Recognizer β} {ε : δ → Type}
    {F : Form (Option δ) α} {G : (d : δ) → Form (ε d) β} (hR : Reads N b R F)
    (hnone : F.tokens none = []) (hinhabited : Nonempty δ)
    (hS : ∀ d, Reads N b (fun i => S i (F.value (some d))) (G d))
    (hrefuses : Refuses b fun i => S i (F.value none))
    (havoids : ∀ d, (G d).Avoids (F.barred (some d))) :
    Reads N b (fun i => R i >>= S i) (F.present.bind G) := by
  let T : (o : Option δ) → Form (o.elim Empty ε) β := fun o =>
    match o with
    | none => ⟨Empty.elim, Empty.elim, Empty.elim⟩
    | some d => G d
  let f : (o : Option δ) × o.elim Empty ε → (d : δ) × ε d := fun o =>
    match o with
    | ⟨some d, x⟩ => ⟨d, x⟩
  refine ⟨hinhabited.elim fun d => (hS d).inhabited.map (⟨d, ·⟩), fun σ hσ => ?_⟩
  have hsecond (o : Option δ) (rest : TokenStream) (hread : σ = rest.after (F.tokens o)) :
      ReadsAt (o.elim (· = []) fun d => (G d).Viable) (fun i => b i - (F.tokens o).length)
        (fun i => S i (F.value o)) (T o) rest := by
    cases o with
    | none =>
      obtain ⟨e, hblames, hgives⟩ := hrefuses rest
      rw [hnone]
      exact .stuck [] rest e rfl hblames rfl hgives fun _ _ d => d.elim
    | some d =>
      have hshorter := (hS d).mono (Nat.le_refl N) fun i => Nat.sub_le (b i) (F.tokens (some d)).length
      refine hshorter.readsAt rest ?_
      rw [hread, TokenStream.length_after] at hσ
      omega
  have hbind : ReadsAt (F.present.bind G).Viable b (fun i => R i >>= S i) (F.bind T) σ := by
    refine (hR.readsAt σ hσ).bind hsecond ?_ ?_ ?_
    · rintro (_ | d)
      · exact fun d => d.elim
      · exact havoids d
    · rintro p ⟨_ | d, rest, hp⟩
      · obtain ⟨d⟩ := hinhabited
        obtain ⟨x⟩ := (hS d).inhabited
        rw [hnone] at hp
        obtain ⟨rfl, -⟩ := List.append_eq_nil_iff.mp hp.symm
        exact ⟨⟨d, x⟩, _, rfl⟩
      · obtain ⟨x⟩ := (hS d).inhabited
        exact ⟨⟨d, x⟩, rest ++ (G d).tokens x, by simp [Form.bind, Form.present, hp]⟩
    · rintro (_ | d) p hp
      · obtain ⟨d⟩ := hinhabited
        obtain ⟨x⟩ := (hS d).inhabited
        rw [hnone, show p = [] from hp]
        exact ⟨⟨d, x⟩, _, rfl⟩
      · obtain ⟨x, rest, hp⟩ := hp
        exact ⟨⟨d, x⟩, rest, by simp [Form.bind, Form.present, hp]⟩
  refine hbind.transport f ?_ ?_ ?_ (fun _ hp => hp) ?_ fun _ _ hg => hg
  · rintro ⟨d, x⟩
    exact ⟨⟨some d, x⟩, rfl⟩
  · rintro ⟨_ | d, x⟩
    · exact x.elim
    · rfl
  · rintro ⟨_ | d, x⟩ t ht
    · exact x.elim
    · exact ht
  · rintro ⟨_ | d, x⟩ σ τ hg
    · exact x.elim
    · exact hg

end Recognizer

end DrawingBugs
