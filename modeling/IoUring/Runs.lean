import Mathlib.Data.List.Perm.Basic
import Mathlib.Logic.Relation

/-! Runs of a transition system whose steps are named by actions. A run may be
restricted to the steps that meet a condition on the state they start in. -/

namespace Runs

variable {σ α : Type} {step : σ → α → Option σ} {ok : σ → α → Prop} {s t : σ}

def Step (step : σ → α → Option σ) (ok : σ → α → Prop) (s t : σ) : Prop :=
  ∃ a, ok s a ∧ step s a = some t

/-- States linked by a run all of whose steps meet `ok`. -/
abbrev Reach (step : σ → α → Option σ) (ok : σ → α → Prop) : σ → σ → Prop :=
  Relation.ReflTransGen (Step step ok)

abbrev Any : σ → α → Prop := fun _ _ => True

theorem Reach.invariant {I : σ → Prop} (h : Reach step ok s t) (hs : I s)
    (hstep : ∀ u a v, ok u a → step u a = some v → I u → I v) : I t := by
  induction h with
  | refl => exact hs
  | tail _ hlast ih =>
    obtain ⟨a, hok, ha⟩ := hlast
    exact hstep _ a _ hok ha ih

def run (step : σ → α → Option σ) : σ → List α → Option σ
  | s, [] => some s
  | s, a :: as =>
    match step s a with
    | none => none
    | some t => run step t as

theorem reach_of_run (as : List α) (hok : ∀ u, ∀ a ∈ as, ok u a) (h : run step s as = some t) :
    Reach step ok s t := by
  induction as generalizing s with
  | nil =>
    cases h
    exact Relation.ReflTransGen.refl
  | cons a as ih =>
    cases ha : step s a with
    | none => simp [run, ha] at h
    | some u =>
      simp only [run, ha] at h
      have hrest := ih (fun v b hb => hok v b (List.mem_cons_of_mem a hb)) h
      exact Relation.ReflTransGen.head ⟨a, hok s a List.mem_cons_self, ha⟩ hrest

/-- A run whose steps are each tested where they are taken. -/
theorem reach_of_guarded [∀ s a, Decidable (ok s a)] (as : List α)
    (h : run (fun s a => if ok s a then step s a else none) s as = some t) :
    Reach step ok s t := by
  have hreach : Reach (fun s a => if ok s a then step s a else none) Any s t :=
    reach_of_run as (fun _ _ _ => trivial) h
  refine Relation.ReflTransGen.mono ?_ _ _ hreach
  rintro u v ⟨a, -, ha⟩
  obtain ⟨hok, hstep⟩ := Option.ite_none_right_eq_some.mp ha
  exact ⟨a, hok, hstep⟩

/-- No run from `s` whose steps meet `ok` goes on for ever. -/
def Halts (step : σ → α → Option σ) (ok : σ → α → Prop) (s : σ) : Prop :=
  ¬ ∃ f : Nat → σ, f 0 = s ∧ ∀ n, Step step ok (f n) (f (n + 1))

theorem halts_of_measure {I : σ → Prop} (m : σ → Nat) (hs : I s)
    (hstep : ∀ u a v, ok u a → step u a = some v → I u → I v ∧ m v < m u) :
    Halts step ok s := by
  rintro ⟨f, h0, hf⟩
  have hdown : ∀ n, I (f n) ∧ m (f n) + n ≤ m (f 0) := by
    intro n
    induction n with
    | zero => exact ⟨h0 ▸ hs, Nat.le_refl _⟩
    | succ n ih =>
      obtain ⟨a, hok, ha⟩ := hf n
      obtain ⟨hi, hlt⟩ := hstep _ a _ hok ha ih.1
      exact ⟨hi, by omega⟩
  have := (hdown (m (f 0) + 1)).2
  omega

/-- A run goes on for ever where every state has a next one with the invariant. -/
theorem not_halts_of_progress {I : σ → Prop} (hs : I s)
    (hstep : ∀ u, I u → ∃ v, Step step ok u v ∧ I v) : ¬ Halts step ok s := by
  choose next hnext hI using hstep
  let f : Nat → {u // I u} := fun n =>
    n.rec ⟨s, hs⟩ fun _ u => ⟨next u.1 u.2, hI u.1 u.2⟩
  intro h
  exact h ⟨fun n => (f n).1, rfl, fun n => hnext (f n).1 (f n).2⟩

/-- One of the requests under way is completed, whichever it is. -/
theorem cons_eraseIdx_perm {xs : List α} {k : Nat} {x : α} (h : xs[k]? = some x) :
    (x :: xs.eraseIdx k).Perm xs := by
  obtain ⟨hlt, rfl⟩ := List.getElem?_eq_some_iff.mp h
  exact List.getElem_cons_eraseIdx_perm hlt

end Runs
