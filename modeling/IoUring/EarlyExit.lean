import Mathlib.Logic.Basic

/-! Programs that change a state and may leave early. An early exit keeps the
state it was reached in, which is where a cleanup that was forgotten shows. -/

namespace EarlyExit

variable {ε σ α β : Type}

def final : EStateM.Result ε σ α → σ
  | .ok _ s => s
  | .error _ s => s

theorem bind_eq_ok {x : EStateM ε σ α} {f : α → EStateM ε σ β} {s s' : σ} {b : β} :
    (x >>= f) s = .ok b s' ↔ ∃ a t, x s = .ok a t ∧ f a t = .ok b s' := by
  change EStateM.bind x f s = _ ↔ _
  unfold EStateM.bind
  cases hx : x s with
  | ok a t =>
    constructor
    · exact fun h => ⟨a, t, rfl, h⟩
    · rintro ⟨_, _, h, hf⟩
      cases h
      exact hf
  | error e t => simp

theorem bind_eq_error {x : EStateM ε σ α} {f : α → EStateM ε σ β} {s s' : σ} {e : ε} :
    (x >>= f) s = .error e s' ↔
      x s = .error e s' ∨ ∃ a t, x s = .ok a t ∧ f a t = .error e s' := by
  change EStateM.bind x f s = _ ↔ _
  unfold EStateM.bind
  cases hx : x s with
  | ok a t =>
    constructor
    · exact fun h => Or.inr ⟨a, t, rfl, h⟩
    · rintro (h | ⟨_, _, h, hf⟩)
      · cases h
      · cases h
        exact hf
  | error e t => simp

theorem bind_of_ok {x : EStateM ε σ α} {f : α → EStateM ε σ β} {s t : σ} {a : α}
    (h : x s = .ok a t) : (x >>= f) s = f a t := by
  change EStateM.bind x f s = _
  unfold EStateM.bind
  rw [h]

theorem pure_eq_ok {a b : α} {s s' : σ} :
    (pure a : EStateM ε σ α) s = .ok b s' ↔ a = b ∧ s = s' := by
  change EStateM.pure a s = _ ↔ _
  simp [EStateM.pure]

theorem throw_eq_ok {e : ε} {b : α} {s s' : σ} :
    (throw e : EStateM ε σ α) s = .ok b s' ↔ False := by
  constructor
  · intro h
    cases h
  · exact False.elim

/-- `P` holds in the end, early exits included, if it holds at the start. -/
def Keeps (P : σ → Prop) (x : EStateM ε σ α) : Prop := ∀ s, P s → P (final (x s))

theorem Keeps.of_error {P : σ → Prop} {x : EStateM ε σ α} {s s' : σ} {e : ε}
    (hx : Keeps P x) (h : x s = .error e s') (hs : P s) : P s' := by
  have := hx s hs
  rwa [h] at this

theorem Keeps.pure {P : σ → Prop} (a : α) : Keeps P (pure a : EStateM ε σ α) :=
  fun _ h => h

theorem Keeps.throw {P : σ → Prop} (e : ε) : Keeps P (throw e : EStateM ε σ α) :=
  fun _ h => h

theorem Keeps.bind {P : σ → Prop} {x : EStateM ε σ α} {f : α → EStateM ε σ β}
    (hx : Keeps P x) (hf : ∀ a, (∃ s t, x s = .ok a t) → Keeps P (f a)) : Keeps P (x >>= f) := by
  intro s hs
  have h := hx s hs
  change P (final (EStateM.bind x f s))
  unfold EStateM.bind
  cases hr : x s with
  | ok a t =>
    rw [hr] at h
    exact hf a ⟨s, t, hr⟩ t h
  | error e t =>
    rw [hr] at h
    exact h

theorem Keeps.ite {P : σ → Prop} {c : Prop} [Decidable c] {x y : EStateM ε σ α}
    (hx : Keeps P x) (hy : Keeps P y) : Keeps P (if c then x else y) := by
  split
  · exact hx
  · exact hy

/-- From every state the program ends without an early exit, in a result with `Q`. -/
def Ends (Q : α → Prop) (x : EStateM ε σ α) : Prop := ∀ s, ∃ a t, x s = .ok a t ∧ Q a

theorem Ends.pure {Q : α → Prop} {a : α} (h : Q a) : Ends Q (pure a : EStateM ε σ α) :=
  fun s => ⟨a, s, rfl, h⟩

theorem Ends.bind {Q : α → Prop} {R : β → Prop} {x : EStateM ε σ α} {f : α → EStateM ε σ β}
    (hx : Ends Q x) (hf : ∀ a, Q a → Ends R (f a)) : Ends R (x >>= f) := by
  intro s
  obtain ⟨a, t, hxs, ha⟩ := hx s
  obtain ⟨b, s', hfa, hb⟩ := hf a ha t
  exact ⟨b, s', bind_eq_ok.mpr ⟨a, t, hxs, hfa⟩, hb⟩

theorem throw_bind {e : ε} {f : α → EStateM ε σ β} :
    ((throw e : EStateM ε σ α) >>= f) = throw e := rfl

/-- Whenever the program ends without an early exit its result has `Q`. -/
def Yields (Q : α → Prop) (x : EStateM ε σ α) : Prop := ∀ s a t, x s = .ok a t → Q a

theorem Yields.any (x : EStateM ε σ α) : Yields (fun _ => True) x := fun _ _ _ _ => trivial

theorem Yields.pure {Q : α → Prop} {a : α} (h : Q a) : Yields Q (pure a : EStateM ε σ α) := by
  intro s b t hb
  obtain ⟨rfl, -⟩ := pure_eq_ok.mp hb
  exact h

theorem Yields.throw {Q : α → Prop} (e : ε) : Yields Q (throw e : EStateM ε σ α) :=
  fun _ _ _ h => (throw_eq_ok.mp h).elim

theorem Yields.bind {P : α → Prop} {Q : β → Prop} {x : EStateM ε σ α} {f : α → EStateM ε σ β}
    (hx : Yields P x) (hf : ∀ a, P a → Yields Q (f a)) : Yields Q (x >>= f) := by
  intro s b t h
  obtain ⟨a, u, ha, hb⟩ := bind_eq_ok.mp h
  exact hf a (hx s a u ha) u b t hb

theorem Yields.ite {Q : α → Prop} {c : Prop} [Decidable c] {x y : EStateM ε σ α}
    (hx : Yields Q x) (hy : Yields Q y) : Yields Q (if c then x else y) := by
  split
  · exact hx
  · exact hy

/-- From a state with `P` the program ends in one, and an early exit has a reason in `Q`. -/
def Tame (P : σ → Prop) (Q : ε → Prop) (x : EStateM ε σ α) : Prop :=
  ∀ s, P s → P (final (x s)) ∧ ∀ e t, x s = .error e t → Q e

section

variable {P : σ → Prop} {Q : ε → Prop}

theorem Tame.pure (a : α) : Tame P Q (pure a : EStateM ε σ α) :=
  fun _ h => ⟨h, fun _ _ he => nomatch he⟩

theorem Tame.throw {e : ε} (h : Q e) : Tame P Q (throw e : EStateM ε σ α) := by
  intro s hs
  refine ⟨hs, ?_⟩
  rintro e' t ⟨⟩
  exact h

theorem Tame.bind {x : EStateM ε σ α} {f : α → EStateM ε σ β} (hx : Tame P Q x)
    (hf : ∀ a, (∃ s t, x s = .ok a t) → Tame P Q (f a)) : Tame P Q (x >>= f) := by
  intro s hs
  obtain ⟨hstate, herror⟩ := hx s hs
  cases hr : x s with
  | ok a t =>
    rw [hr] at hstate
    rw [bind_of_ok hr]
    exact hf a ⟨s, t, hr⟩ t hstate
  | error e t =>
    rw [hr] at hstate
    have hbind : (x >>= f) s = .error e t := bind_eq_error.mpr (Or.inl hr)
    rw [hbind]
    refine ⟨hstate, ?_⟩
    rintro e' t' ⟨⟩
    exact herror e t hr

theorem Tame.ite {c : Prop} [Decidable c] {x y : EStateM ε σ α} (hx : Tame P Q x)
    (hy : Tame P Q y) : Tame P Q (if c then x else y) := by
  split
  · exact hx
  · exact hy

end

end EarlyExit
