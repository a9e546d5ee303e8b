import Mathlib.Data.List.Forall2

set_option autoImplicit false

/-!
# Rules for computations that may fail

Two statements about a computation `x : Except ε α`: it returns a value with a property
(`Outcome.Returns`), or every value it returns has the property (`Outcome.Ensures`). The
rules follow the way such computations are composed.

## Main definitions

* `Outcome.Returns`, `Outcome.Ensures` — total and partial correctness.
* `Outcome.Succeeds` — the computation returns a value.
* `Outcome.Guarded` — partial correctness, and total correctness under a condition.

## Main results

* `Outcome.mapM_eq_ok`, `Outcome.mapM_map` — computations over a list, and reading one back.
* `Outcome.Returns.bind`, `Outcome.Ensures.bind` — sequencing.
* `Outcome.Returns.foldlM`, `Outcome.Ensures.foldlM` — loops over a list, by an invariant.
* `Outcome.Succeeds.bind`, `Outcome.Succeeds.foldlM` — the same for `Outcome.Succeeds`, when it is
  known what the computations ensure.
-/

namespace Outcome

open List

variable {ε α β σ : Type}

/-- The computation returns, and its value has the property. -/
def Returns (x : Except ε α) (P : α → Prop) : Prop := ∃ a, x = .ok a ∧ P a

/-- If the computation returns, its value has the property. -/
def Ensures (x : Except ε α) (P : α → Prop) : Prop := ∀ a, x = .ok a → P a

/-- The computation returns. -/
def Succeeds (x : Except ε α) : Prop := ∃ a, x = .ok a

lemma ok_bind (a : α) (f : α → Except ε β) : ((.ok a : Except ε α) >>= f) = f a := rfl

lemma bind_eq_ok {x : Except ε α} {f : α → Except ε β} {b : β} :
    (x >>= f) = .ok b ↔ ∃ a, x = .ok a ∧ f a = .ok b := by
  cases x with
  | error e =>
    constructor
    · intro h
      cases h
    · rintro ⟨a, h, -⟩
      cases h
  | ok a =>
    constructor
    · intro h
      exact ⟨a, rfl, h⟩
    · rintro ⟨a', h, h'⟩
      cases h
      exact h'

/-- A computation over a list returns if it returns for each element. -/
lemma mapM_eq_ok {f : α → Except ε β} {l : List α} {l' : List β} :
    l.mapM f = .ok l' ↔ List.Forall₂ (fun a b => f a = .ok b) l l' := by
  induction l generalizing l' with
  | nil =>
    rw [mapM_nil, forall₂_nil_left_iff]
    exact ⟨fun h => (Except.ok.inj h).symm, fun h => congrArg _ h.symm⟩
  | cons a l ih =>
    rw [mapM_cons, bind_eq_ok, forall₂_cons_left_iff]
    constructor
    · rintro ⟨b, hb, hl⟩
      obtain ⟨bs, hbs, hok⟩ := bind_eq_ok.1 hl
      cases hok
      exact ⟨b, bs, hb, ih.1 hbs, rfl⟩
    · rintro ⟨b, bs, hb, hbs, rfl⟩
      exact ⟨b, hb, bind_eq_ok.2 ⟨bs, ih.2 hbs, rfl⟩⟩

lemma exists_mapM_eq_ok {f : α → Except ε β} {l : List α} (h : ∀ a ∈ l, ∃ b, f a = .ok b) :
    ∃ l', l.mapM f = .ok l' := by
  simp only [mapM_eq_ok]
  induction l with
  | nil => exact ⟨[], .nil⟩
  | cons a l ih =>
    obtain ⟨⟨b, hb⟩, hl⟩ := forall_mem_cons.1 h
    obtain ⟨bs, hbs⟩ := ih hl
    exact ⟨b :: bs, .cons hb hbs⟩

/-- A list is read back, if each of its elements is. -/
lemma mapM_map {write : α → β} {read : β → Except ε α} {l : List α}
    (h : ∀ a ∈ l, read (write a) = .ok a) : (l.map write).mapM read = .ok l := by
  rw [mapM_eq_ok, forall₂_map_left_iff]
  exact forall₂_same.2 h

/-- Inversion of a sequence of two stateful computations. -/
lemma run_bind_eq_ok {x : EStateM ε σ α} {f : α → EStateM ε σ β} {s s'' : σ} {b : β} :
    (x >>= f) s = .ok b s'' ↔ ∃ a s', x s = .ok a s' ∧ f a s' = .ok b s'' := by
  show EStateM.bind x f s = .ok b s'' ↔ _
  unfold EStateM.bind
  cases x s with
  | error e s' =>
    constructor
    · intro h
      cases h
    · rintro ⟨a, s', h, -⟩
      cases h
  | ok a s' =>
    constructor
    · intro h
      exact ⟨a, s', rfl, h⟩
    · rintro ⟨a', s₁, h, h'⟩
      cases h
      exact h'

namespace Returns

variable {P : α → Prop} {x : Except ε α}

lemma ok {a : α} (h : P a) : Returns (.ok a : Except ε α) P := ⟨a, rfl, h⟩

lemma mono {R : α → Prop} (h : Returns x P) (himp : ∀ a, P a → R a) : Returns x R := by
  obtain ⟨a, ha, hP⟩ := h
  exact ⟨a, ha, himp a hP⟩

lemma bind {f : α → Except ε β} {R : β → Prop}
    (h : Returns x P) (hf : ∀ a, P a → Returns (f a) R) : Returns (x >>= f) R := by
  obtain ⟨a, rfl, hP⟩ := h
  exact hf a hP

lemma ensures (h : Returns x P) : Ensures x P := by
  obtain ⟨a, rfl, hP⟩ := h
  intro b hb
  cases hb
  exact hP

/-- A loop returns with its invariant when every round does. -/
lemma foldlM {f : σ → α → Except ε σ} {I : σ → Prop} {l : List α} {s : σ} (hs : I s)
    (hstep : ∀ a ∈ l, ∀ s, I s → Returns (f s a) I) : Returns (l.foldlM f s) I := by
  induction l generalizing s with
  | nil => exact ok hs
  | cons a l ih =>
    refine (hstep a (by simp) s hs).bind fun s' hs' => ih hs' fun b hb => ?_
    exact hstep b (mem_cons_of_mem a hb)

end Returns

namespace Ensures

variable {P R : α → Prop} {x : Except ε α} {f : α → Except ε β}

lemma ok {a : α} (h : P a) : Ensures (.ok a : Except ε α) P := by
  intro b hb
  cases hb
  exact h

lemma error (e : ε) : Ensures (.error e : Except ε α) P := by
  intro b hb
  cases hb

lemma mono (h : Ensures x P) (himp : ∀ a, P a → R a) :
    Ensures x R := fun a ha => himp a (h a ha)

lemma bind {R : β → Prop}
    (h : Ensures x P) (hf : ∀ a, P a → Ensures (f a) R) : Ensures (x >>= f) R := by
  intro b hb
  obtain ⟨a, ha, hfa⟩ := bind_eq_ok.1 hb
  exact hf a (h a ha) b hfa

lemma and (h : Ensures x P) (h' : Ensures x R) :
    Ensures x fun a => P a ∧ R a := fun a ha => ⟨h a ha, h' a ha⟩

/-- Sequencing when nothing is known about the first computation. -/
lemma bind' {R : β → Prop} (hf : ∀ a, Ensures (f a) R) : Ensures (x >>= f) R :=
  bind (P := fun _ => True) (fun _ _ => trivial) fun a _ => hf a

/-- A loop keeps its invariant when every round does. -/
lemma foldlM {f : σ → α → Except ε σ} {I : σ → Prop} {l : List α} {s : σ} (hs : I s)
    (hstep : ∀ a ∈ l, ∀ s, I s → Ensures (f s a) I) : Ensures (l.foldlM f s) I := by
  induction l generalizing s with
  | nil => exact ok hs
  | cons a l ih =>
    refine (hstep a (by simp) s hs).bind fun s' hs' => ih hs' fun b hb => ?_
    exact hstep b (mem_cons_of_mem a hb)

end Ensures

namespace Succeeds

lemma ok (a : α) : Succeeds (.ok a : Except ε α) := ⟨a, rfl⟩

lemma of_eq {x : Except ε α} {a : α} (h : x = .ok a) : Succeeds x := ⟨a, h⟩

/-- A computation that returns is followed by one that returns for what the first ensures. -/
lemma bind {x : Except ε α} {f : α → Except ε β} {P : α → Prop} (h : Succeeds x)
    (hP : Ensures x P) (hf : ∀ a, P a → Succeeds (f a)) : Succeeds (x >>= f) := by
  obtain ⟨a, rfl⟩ := h
  exact hf a (hP a rfl)

/-- A loop returns when every round returns and keeps the invariant. -/
lemma foldlM {f : σ → α → Except ε σ} {I : σ → Prop} {l : List α} {s : σ} (hs : I s)
    (hround : ∀ a ∈ l, ∀ s, I s → Succeeds (f s a))
    (hI : ∀ a ∈ l, ∀ s, I s → Ensures (f s a) I) : Succeeds (l.foldlM f s) := by
  have hreturns : Returns (l.foldlM f s) I := by
    refine Returns.foldlM hs fun a ha s hs => ?_
    obtain ⟨s', hs'⟩ := hround a ha s hs
    exact ⟨s', hs', hI a ha s hs s' hs'⟩
  obtain ⟨s', hs', -⟩ := hreturns
  exact ⟨s', hs'⟩

end Succeeds

/-- What a computation returns for a fixed input can be tested by running it. -/
instance decidableExistsOk {P : α → Prop} [DecidablePred P] :
    (x : Except ε α) → Decidable (∃ a, x = .ok a ∧ P a)
  | .ok a => decidable_of_iff (P a) (by simp)
  | .error _ => isFalse (by simp)

instance decidableExistsState {P : σ → Prop} [DecidablePred P] [DecidableEq α]
    (x : EStateM ε σ α) (s : σ) (a : α) : Decidable (∃ s', x s = .ok a s' ∧ P s') :=
  match x s with
  | .ok b s' => decidable_of_iff (b = a ∧ P s') (by simp)
  | .error _ _ => isFalse (by simp)

/-- Every value the computation returns has the property, and under the condition `g` it
returns. -/
structure Guarded (g : Prop) (x : Except ε α) (P : α → Prop) : Prop where
  ensures : Ensures x P
  succeeds : g → Succeeds x

namespace Guarded

variable {g : Prop}

variable {P : α → Prop} {x : Except ε α}

lemma ok {a : α} (h : P a) : Guarded g (.ok a : Except ε α) P :=
  ⟨.ok h, fun _ => .ok a⟩

lemma of_returns (h : Returns x P) : Guarded g x P := by
  obtain ⟨a, rfl, ha⟩ := h
  exact ok ha

/-- A computation that stops has to be one where the condition fails. -/
lemma error (e : ε) (h : ¬ g) : Guarded g (.error e : Except ε α) P :=
  ⟨.error e, fun hg => absurd hg h⟩

lemma mono {R : α → Prop} (h : Guarded g x P) (himp : ∀ a, P a → R a) :
    Guarded g x R := ⟨h.ensures.mono himp, h.succeeds⟩

/-- The condition may be strengthened. -/
lemma of_imp {g' : Prop} (h : Guarded g' x P) (himp : g → g') :
    Guarded g x P := ⟨h.ensures, fun hg => h.succeeds (himp hg)⟩

lemma bind {f : α → Except ε β} {R : β → Prop}
    (h : Guarded g x P) (hf : ∀ a, P a → Guarded g (f a) R) : Guarded g (x >>= f) R :=
  ⟨h.ensures.bind fun a ha => (hf a ha).ensures,
    fun hg => (h.succeeds hg).bind h.ensures fun a ha => (hf a ha).succeeds hg⟩

/-- A call of which only is known when it returns. -/
lemma call (h : g → Succeeds x) : Guarded g x fun a => x = .ok a := ⟨fun _ ha => ha, h⟩

/-- A loop keeps its invariant, and returns when every round does. -/
lemma foldlM {f : σ → α → Except ε σ} {I : σ → Prop} {l : List α} {s : σ} (hs : I s)
    (hround : ∀ a ∈ l, ∀ s, I s → Guarded g (f s a) I) : Guarded g (l.foldlM f s) I :=
  ⟨.foldlM hs fun a ha s hs => (hround a ha s hs).ensures,
    fun hg => .foldlM hs (fun a ha s hs => (hround a ha s hs).succeeds hg)
      fun a ha s hs => (hround a ha s hs).ensures⟩

end Guarded

end Outcome
