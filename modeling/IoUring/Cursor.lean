import Mathlib.Data.List.Basic
import Mathlib.Algebra.BigOperators.Intervals
import Mathlib.Tactic.Ring

/-! Reading a finite sequence through a cursor. A read of `k` items returns what
is left at the cursor, at most `k`, and moves past it. Nothing here depends on
what the items are or on who keeps the cursor. -/

namespace Cursor

variable {α : Type*}

def read (s : List α) (pos k : Nat) : List α := (s.drop pos).take k

def seek (s : List α) (pos k : Nat) : Nat := min (pos + k) s.length

@[simp] theorem length_read (s : List α) (pos k : Nat) :
    (read s pos k).length = min k (s.length - pos) := by
  simp [read]

@[simp] theorem read_zero (s : List α) (pos : Nat) : read s pos 0 = [] := by
  simp [read]

theorem seek_le (s : List α) (pos k : Nat) : seek s pos k ≤ s.length := by
  simp [seek]

theorem seek_eq_add_length {s : List α} {pos : Nat} (hp : pos ≤ s.length) (k : Nat) :
    seek s pos k = pos + (read s pos k).length := by
  simp only [seek, length_read]
  omega

theorem read_eq_nil_iff {s : List α} {pos k : Nat} :
    read s pos k = [] ↔ k = 0 ∨ s.length ≤ pos := by
  rw [← List.length_eq_zero_iff, length_read]
  omega

theorem read_length (s : List α) (pos k : Nat) :
    read s pos (read s pos k).length = read s pos k := by
  rw [length_read]
  simp only [read, List.take_eq_take_iff, List.length_drop]
  omega

theorem seek_add {s : List α} {pos : Nat} (a b : Nat) :
    seek s pos (a + b) = seek s (seek s pos a) b := by
  simp only [seek]
  omega

/-- One large read is two smaller ones, the second starting where the first
stopped. -/
theorem read_add {s : List α} {pos : Nat} (a b : Nat) :
    read s pos (a + b) = read s pos a ++ read s (seek s pos a) b := by
  by_cases h : pos + a ≤ s.length
  · have hs : seek s pos a = pos + a := by simp [seek, h]
    simp only [read, hs, List.take_add, List.drop_drop]
  · have hs : seek s pos a = s.length := by simp only [seek]; omega
    have ha : (s.drop pos).length ≤ a := by simp only [List.length_drop]; omega
    simp [read, hs, List.take_of_length_le ha,
      List.take_of_length_le (ha.trans (Nat.le_add_right a b))]

theorem read_all {s : List α} {k : Nat} (h : s.length ≤ k) : read s 0 k = s := by
  simp [read, List.take_of_length_le h]

/-- What follows in the sequence: two pieces do when the second follows behind the first. -/
theorem append_follows_iff {s t u : List α} {pos : Nat} :
    t ++ u <+: s.drop pos ↔ t <+: s.drop pos ∧ u <+: s.drop (pos + t.length) := by
  constructor
  · rintro ⟨rest, hrest⟩
    have hdrop : s.drop (pos + t.length) = u ++ rest := by
      rw [← List.drop_drop, ← hrest, List.append_assoc, List.drop_left]
    exact ⟨⟨u ++ rest, by rw [← hrest, List.append_assoc]⟩, ⟨rest, hdrop.symm⟩⟩
  · rintro ⟨⟨rest, hrest⟩, hu⟩
    have hdrop : s.drop (pos + t.length) = rest := by
      rw [← List.drop_drop, ← hrest, List.drop_left]
    rw [hdrop] at hu
    rw [← hrest]
    exact (List.prefix_append_right_inj t).mpr hu

/-- Items read again follow at `pos` only where the sequence repeats its beginning. -/
theorem take_follows_iff {s : List α} {pos k : Nat} (hk : k ≤ s.length) :
    s.take k <+: s.drop pos ↔ (k = 0 ∨ pos + k ≤ s.length) ∧ (s.drop pos).take k = s.take k := by
  have hlen : (s.take k).length = k := List.length_take_of_le hk
  rw [List.prefix_iff_eq_take, hlen, eq_comm]
  refine ⟨fun h => ⟨?_, h⟩, fun h => h.2⟩
  have := congrArg List.length h
  rw [List.length_take, List.length_drop, hlen] at this
  omega

/-- `out` are `k` items read again and again from the start of `s`, `m` of them each
time. -/
structure Rereads (s : List α) (m k : Nat) (out : List α) : Prop where
  length : out.length = k
  getElem? : ∀ i < k, out[i]? = s[i % m]?

theorem Rereads.nil {s : List α} {m : Nat} : Rereads s m 0 [] :=
  ⟨rfl, fun _ hi => absurd hi (Nat.not_lt_zero _)⟩

theorem Rereads.cons {s out : List α} {m k : Nat} (hs : m ≤ s.length)
    (h : Rereads s m (k - m) out) : Rereads s m k (s.take (min k m) ++ out) := by
  have hlen : (s.take (min k m)).length = min k m := List.length_take_of_le (by omega)
  refine ⟨?_, ?_⟩
  · rw [List.length_append, hlen, h.length]
    omega
  · intro i hi
    by_cases him : i < m
    · rw [List.getElem?_append_left (by omega), Nat.mod_eq_of_lt him]
      exact List.getElem?_take_of_lt (by omega)
    · have hmod : (i - m) % m = i % m := (Nat.mod_eq_sub_mod (by omega)).symm
      rw [List.getElem?_append_right (by omega), hlen, Nat.min_eq_right (by omega), ← hmod]
      exact h.getElem? (i - m) (by omega)

/-- Such items follow at `pos` only where the sequence repeats its beginning. -/
theorem Rereads.follows_iff {s out : List α} {m k pos : Nat} (h : Rereads s m k out) :
    out <+: s.drop pos ↔
      (k = 0 ∨ pos + k ≤ s.length) ∧ ∀ i < k, s[pos + i]? = s[i % m]? := by
  constructor
  · rintro ⟨rest, hrest⟩
    have hlen := congrArg List.length hrest
    rw [List.length_append, List.length_drop, h.length] at hlen
    refine ⟨by omega, ?_⟩
    intro i hi
    rw [← List.getElem?_drop, ← hrest, List.getElem?_append_left (by rw [h.length]; exact hi)]
    exact h.getElem? i hi
  · rintro ⟨hfit, hall⟩
    have hlen := h.length
    rw [List.prefix_iff_eq_take]
    apply List.ext_getElem?
    intro i
    by_cases hi : i < k
    · rw [List.getElem?_take_of_lt (by omega), List.getElem?_drop, h.getElem? i hi, hall i hi]
    · rw [List.getElem?_eq_none (by omega), List.getElem?_eq_none]
      simp only [List.length_take, List.length_drop]
      omega

/-- Reading until a read comes back empty; `ks i` is the length asked for by the
`i`-th read and `none` says that the reads were not over yet. -/
def drain (s : List α) : Nat → Nat → (Nat → Nat) → Option (List α)
  | 0, _, _ => none
  | turns + 1, pos, ks =>
    if read s pos (ks 0) = [] then some []
    else (drain s turns (seek s pos (ks 0)) (fun i => ks (i + 1))).map (read s pos (ks 0) ++ ·)

theorem drain_succ (s : List α) (turns pos : Nat) (ks : Nat → Nat) :
    drain s (turns + 1) pos ks = if ks 0 = 0 ∨ s.length ≤ pos then some []
      else (drain s turns (seek s pos (ks 0)) (fun i => ks (i + 1))).map
        (read s pos (ks 0) ++ ·) := by
  by_cases h : ks 0 = 0 ∨ s.length ≤ pos
  · rw [if_pos h, drain, if_pos (read_eq_nil_iff.mpr h)]
  · rw [if_neg h, drain, if_neg (fun he => h (read_eq_nil_iff.mp he))]

/-- The reads end at the first empty request or at the end of the sequence, and
what they returned together is one read of everything asked for before. -/
theorem drain_some {s : List α} {turns pos : Nat} {ks : Nat → Nat} {out : List α}
    (h : drain s turns pos ks = some out) :
    ∃ n, (∀ i < n, 0 < ks i) ∧ out = read s pos (∑ i ∈ Finset.range n, ks i) ∧
      (ks n = 0 ∨ s.length ≤ pos + ∑ i ∈ Finset.range n, ks i) := by
  induction turns generalizing pos ks out with
  | zero => simp [drain] at h
  | succ turns ih =>
    rw [drain_succ] at h
    split at h
    · next hend =>
      refine ⟨0, by simp, ?_, by simpa using hend⟩
      simpa using h.symm
    · next hmore =>
      obtain ⟨rest, hrest, rfl⟩ := Option.map_eq_some_iff.mp h
      obtain ⟨n, hpos, rfl, hstop⟩ := ih hrest
      have hsum : ∑ i ∈ Finset.range (n + 1), ks i =
          ks 0 + ∑ i ∈ Finset.range n, ks (i + 1) := by
        rw [Finset.sum_range_succ', add_comm]
      refine ⟨n + 1, ?_, ?_, ?_⟩
      · intro i hi
        cases i with
        | zero => omega
        | succ i => exact hpos i (by omega)
      · rw [hsum, read_add]
      · rw [hsum]
        simp only [seek] at hstop
        omega

theorem drain_of_stop {s : List α} {n turns pos : Nat} {ks : Nat → Nat}
    (hn : n < turns) (hpos : ∀ i < n, 0 < ks i)
    (hstop : ks n = 0 ∨ s.length ≤ pos + ∑ i ∈ Finset.range n, ks i) :
    drain s turns pos ks = some (read s pos (∑ i ∈ Finset.range n, ks i)) := by
  induction n generalizing turns pos ks with
  | zero =>
    obtain ⟨turns, rfl⟩ : ∃ t, turns = t + 1 := ⟨turns - 1, by omega⟩
    rw [drain_succ, if_pos (by simpa using hstop)]
    simp
  | succ n ih =>
    obtain ⟨turns, rfl⟩ : ∃ t, turns = t + 1 := ⟨turns - 1, by omega⟩
    have hsum : ∑ i ∈ Finset.range (n + 1), ks i =
        ks 0 + ∑ i ∈ Finset.range n, ks (i + 1) := by
      rw [Finset.sum_range_succ', add_comm]
    rw [drain_succ]
    by_cases hend : s.length ≤ pos
    · have hnil : read s pos (∑ i ∈ Finset.range (n + 1), ks i) = [] :=
        read_eq_nil_iff.mpr (Or.inr hend)
      rw [if_pos (Or.inr hend), hnil]
    · have h0 := hpos 0 (by omega)
      have hstop' : ks (n + 1) = 0 ∨
          s.length ≤ seek s pos (ks 0) + ∑ i ∈ Finset.range n, ks (i + 1) := by
        rw [hsum] at hstop
        simp only [seek]
        omega
      rw [if_neg (by omega), ih (by omega) (fun i hi => hpos (i + 1) (by omega)) hstop',
        hsum, read_add, Option.map_some]

theorem le_sum_range {n : Nat} {ks : Nat → Nat} (hpos : ∀ i, 0 < ks i) :
    n ≤ ∑ i ∈ Finset.range n, ks i := by
  induction n with
  | zero => simp
  | succ n ih =>
    rw [Finset.sum_range_succ]
    have := hpos n
    omega

theorem drain_of_pos {s : List α} {turns pos : Nat} {ks : Nat → Nat}
    (hpos : ∀ i, 0 < ks i) (ht : s.length - pos < turns) :
    drain s turns pos ks = some (s.drop pos) := by
  have hsum := le_sum_range (n := s.length - pos) hpos
  rw [drain_of_stop ht (fun i _ => hpos i) (Or.inr (by omega))]
  have hlen : (s.drop pos).length ≤ ∑ i ∈ Finset.range (s.length - pos), ks i := by
    simpa using hsum
  simp [read, List.take_of_length_le hlen]

end Cursor
