import Mathlib.Data.Set.Function
import Mathlib.Logic.Function.Basic

/-! Loops whose iterations run at the same time, each on a cell of its own. An iteration loads
its cell, and at some later time stores what it makes of it. -/

namespace ParallelFor

variable {ι κ α : Type}

inductive Phase (α : Type) where
  | waiting
  | loaded (a : α)
  | done

structure State (ι κ α : Type) where
  cells : κ → α
  phase : ι → Phase α

def start (cells : κ → α) : State ι κ α := ⟨cells, fun _ => .waiting⟩

def Phase.after (a : α) : Nat → Phase α
  | 0 => .waiting
  | 1 => .loaded a
  | _ + 2 => .done

variable {P : ι → Prop} {cell : ι → κ} {f : ι → α → α} {cells : κ → α}

/-- Where the iterations are that have made `n` accesses each: the cell of an iteration
changes with its second access only. -/
structure Inv (P : ι → Prop) (cell : ι → κ) (f : ι → α → α) (cells : κ → α) (n : ι → Nat)
    (s : State ι κ α) : Prop where
  phase : ∀ i, P i → s.phase i = Phase.after (cells (cell i)) (n i)
  own : ∀ i, P i → s.cells (cell i) = if n i < 2 then cells (cell i) else f i (cells (cell i))
  frame : ∀ k, (∀ i, P i → cell i ≠ k) → s.cells k = cells k

theorem start_inv : Inv P cell f cells (fun _ => 0) (start cells) :=
  ⟨fun _ _ => rfl, fun _ _ => rfl, fun _ _ => rfl⟩

variable [DecidableEq ι] [DecidableEq κ]

/-- The next access of the iteration `i` to its cell. -/
def step (cell : ι → κ) (f : ι → α → α) (s : State ι κ α) (i : ι) : State ι κ α :=
  match s.phase i with
  | .waiting => { s with phase := Function.update s.phase i (.loaded (s.cells (cell i))) }
  | .loaded a => ⟨Function.update s.cells (cell i) (f i a), Function.update s.phase i .done⟩
  | .done => s

/-- The iterations access their cells in the order of the schedule. -/
def run (cell : ι → κ) (f : ι → α → α) (cells : κ → α) (schedule : List ι) : κ → α :=
  (schedule.foldl (step cell f) (start cells)).cells

/-- The iterations are those with `P`, and all of them have come to their end. -/
structure Complete (P : ι → Prop) (schedule : List ι) : Prop where
  only : ∀ i ∈ schedule, P i
  twice : ∀ i, P i → 2 ≤ schedule.count i

/-- One iteration after the other. -/
def inOrder (is : List ι) : List ι := is.flatMap fun i => [i, i]

theorem inOrder_complete {is : List ι} (h : ∀ i, i ∈ is ↔ P i) : Complete P (inOrder is) := by
  constructor
  · intro i hi
    obtain ⟨j, hj, hmem⟩ := List.mem_flatMap.mp hi
    have hij : i = j := by simpa using hmem
    rw [hij]
    exact (h j).mp hj
  · intro i hi
    obtain ⟨front, back, rfl⟩ := List.append_of_mem ((h i).mpr hi)
    simp only [inOrder, List.flatMap_append, List.flatMap_cons, List.count_append,
      List.count_cons_self]
    omega

theorem Complete.perm {schedule schedule' : List ι} (h : Complete P schedule)
    (hperm : schedule'.Perm schedule) : Complete P schedule' := by
  constructor
  · intro i hi
    exact h.only i (hperm.subset hi)
  · intro i hi
    rw [hperm.count_eq]
    exact h.twice i hi

/-- A test leaves out iterations before they access their cells. -/
theorem Complete.filter {schedule : List ι} (h : Complete P schedule) (p : ι → Bool) :
    Complete (fun i => P i ∧ p i) (schedule.filter p) := by
  constructor
  · intro i hi
    obtain ⟨hmem, hp⟩ := List.mem_filter.mp hi
    exact ⟨h.only i hmem, hp⟩
  · rintro i ⟨hi, hp⟩
    rw [List.count_filter hp]
    exact h.twice i hi

/-- The step in one form for all phases: where nothing is stored, the cell already holds
what is said here. -/
theorem Inv.step_eq {n : ι → Nat} {s : State ι κ α} (h : Inv P cell f cells n s) {i : ι}
    (hi : P i) :
    step cell f s i =
      ⟨Function.update s.cells (cell i)
          (if n i + 1 < 2 then cells (cell i) else f i (cells (cell i))),
        Function.update s.phase i (Phase.after (cells (cell i)) (n i + 1))⟩ := by
  have hphase := h.phase i hi
  have hown := h.own i hi
  match hn : n i with
  | 0 =>
    rw [hn] at hphase hown
    have hsame : Function.update s.cells (cell i) (cells (cell i)) = s.cells :=
      Function.update_eq_self_iff.mpr hown.symm
    simp only [step, hphase, Phase.after]
    exact congrArg₂ State.mk hsame.symm (by rw [hown]; rfl)
  | 1 =>
    rw [hn] at hphase
    simp only [step, hphase, Phase.after]
    rfl
  | m + 2 =>
    rw [hn] at hphase hown
    have hsame : Function.update s.phase i .done = s.phase :=
      Function.update_eq_self_iff.mpr hphase.symm
    have hsame' : Function.update s.cells (cell i) (f i (cells (cell i))) = s.cells :=
      Function.update_eq_self_iff.mpr hown.symm
    simp only [step, hphase, Phase.after]
    exact congrArg₂ State.mk hsame'.symm hsame.symm

theorem step_inv (hinj : Set.InjOn cell {i | P i}) {n : ι → Nat} {s : State ι κ α}
    (h : Inv P cell f cells n s) {i : ι} (hi : P i) :
    Inv P cell f cells (Function.update n i (n i + 1)) (step cell f s i) := by
  rw [h.step_eq hi]
  constructor
  · intro j hj
    by_cases hji : j = i
    · subst hji
      simp only [Function.update_self]
    · simp only [Function.update_of_ne hji]
      exact h.phase j hj
  · intro j hj
    by_cases hji : j = i
    · subst hji
      simp only [Function.update_self]
    · have hcell : cell j ≠ cell i := fun he => hji (hinj hj hi he)
      simp only [Function.update_of_ne hji, Function.update_of_ne hcell]
      exact h.own j hj
  · intro k hk
    simp only [Function.update_of_ne (hk i hi).symm]
    exact h.frame k hk

theorem foldl_inv (hinj : Set.InjOn cell {i | P i}) {schedule : List ι}
    (honly : ∀ i ∈ schedule, P i) {n : ι → Nat} {s : State ι κ α} (h : Inv P cell f cells n s) :
    Inv P cell f cells (fun i => n i + schedule.count i) (schedule.foldl (step cell f) s) := by
  induction schedule generalizing n s with
  | nil => exact h
  | cons i schedule ih =>
    obtain ⟨hi, hrest⟩ := List.forall_mem_cons.mp honly
    have hnext := ih hrest (step_inv hinj h hi)
    have hcount : (fun j => Function.update n i (n i + 1) j + schedule.count j) =
        fun j => n j + (i :: schedule).count j := by
      funext j
      by_cases hji : j = i
      · subst hji
        rw [Function.update_self, List.count_cons_self]
        omega
      · rw [Function.update_of_ne hji, List.count_cons_of_ne (Ne.symm hji)]
    rw [hcount] at hnext
    exact hnext

/-- Whatever the order, each cell holds what its iteration makes of it, and the others what
they held. -/
theorem run_own (hinj : Set.InjOn cell {i | P i}) {schedule : List ι}
    (h : Complete P schedule) {i : ι} (hi : P i) :
    run cell f cells schedule (cell i) = f i (cells (cell i)) := by
  have hinv := foldl_inv hinj h.only (start_inv : Inv P cell f cells _ _)
  have htwice := h.twice i hi
  rw [run, hinv.own i hi, if_neg (by omega)]

theorem run_frame (hinj : Set.InjOn cell {i | P i}) {schedule : List ι}
    (h : Complete P schedule) {k : κ} (hk : ∀ i, P i → cell i ≠ k) :
    run cell f cells schedule k = cells k := by
  have hinv := foldl_inv hinj h.only (start_inv : Inv P cell f cells _ _)
  exact hinv.frame k hk

end ParallelFor
