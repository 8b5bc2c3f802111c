import Mathlib.Algebra.BigOperators.Intervals

/-! Rings in shared memory. Both counters run freely over 32 bits and are masked
only where they address a slot. The reader may run ahead of the head that it
has published. -/

namespace MaskedRing

variable {α : Type} {slots slots' : UInt32 → α} {mask entries published next tail : UInt32}

/-- The number of slots is a power of two that fits the counters. -/
def Sized (mask entries : UInt32) : Prop :=
  ∃ k < 32, entries.toNat = 2 ^ k ∧ mask.toNat = 2 ^ k - 1

theorem Sized.pos (h : Sized mask entries) : 0 < entries.toNat := by
  obtain ⟨k, -, hk, -⟩ := h
  rw [hk]
  exact Nat.two_pow_pos k

theorem Sized.le (h : Sized mask entries) : entries.toNat ≤ 2 ^ 31 := by
  obtain ⟨k, hlt, hk, -⟩ := h
  rw [hk]
  exact Nat.pow_le_pow_right (by omega) (by omega)

theorem Sized.and_mask (h : Sized mask entries) (c : UInt32) :
    (c &&& mask).toNat = c.toNat % entries.toNat := by
  obtain ⟨k, -, hk, hm⟩ := h
  rw [UInt32.toNat_and, hm, hk, Nat.and_two_pow_sub_one_eq_mod]

theorem Sized.dvd (h : Sized mask entries) : entries.toNat ∣ 2 ^ 32 := by
  obtain ⟨k, hlt, hk, -⟩ := h
  rw [hk]
  exact Nat.pow_dvd_pow 2 (by omega)

theorem Sized.slot_ne (h : Sized mask entries) (c : UInt32) {n : Nat} (hpos : 0 < n)
    (hlt : n < entries.toNat) : (c + UInt32.ofNat n) &&& mask ≠ c &&& mask := by
  intro he
  have hmod := congrArg UInt32.toNat he
  have hle := h.le
  have hn : (UInt32.ofNat n).toNat = n := UInt32.toNat_ofNat_of_lt' (by rw [UInt32.size]; omega)
  rw [h.and_mask, h.and_mask, UInt32.toNat_add, hn, Nat.mod_mod_of_dvd _ h.dvd] at hmod
  have hzero := Nat.sub_mod_eq_zero_of_mod_eq hmod
  rw [Nat.add_sub_cancel_left, Nat.mod_eq_of_lt hlt] at hzero
  omega

theorem Sized.slot_wrap (h : Sized mask entries) (c : UInt32) :
    (c + entries) &&& mask = c &&& mask := by
  apply UInt32.toNat_inj.mp
  rw [h.and_mask, h.and_mask, UInt32.toNat_add, Nat.mod_mod_of_dvd _ h.dvd, Nat.add_mod_right]

/-- The slots from counter `c` on hold `xs`. -/
def Holds (slots : UInt32 → α) (mask : UInt32) : UInt32 → List α → Prop
  | _, [] => True
  | c, x :: xs => slots (c &&& mask) = x ∧ Holds slots mask (c + 1) xs

theorem add_ofNat_succ (c : UInt32) (n : Nat) :
    c + UInt32.ofNat (n + 1) = c + 1 + UInt32.ofNat n := by
  rw [UInt32.ofNat_add, UInt32.add_comm (UInt32.ofNat n), UInt32.add_assoc]
  rfl

theorem holds_append {c : UInt32} {xs ys : List α} :
    Holds slots mask c (xs ++ ys) ↔
      Holds slots mask c xs ∧ Holds slots mask (c + UInt32.ofNat xs.length) ys := by
  induction xs generalizing c with
  | nil => simp [Holds]
  | cons x xs ih =>
    rw [List.cons_append, Holds, Holds, ih, List.length_cons, add_ofNat_succ, and_assoc]

theorem Holds.frame (hsize : Sized mask entries) {c : UInt32} {xs : List α}
    (h : Holds slots mask c xs) (hlen : xs.length < entries.toNat)
    (hother : ∀ i, i ≠ (c + UInt32.ofNat xs.length) &&& mask → slots' i = slots i) :
    Holds slots' mask c xs := by
  induction xs generalizing c with
  | nil => trivial
  | cons x xs ih =>
    rw [List.length_cons] at hlen
    have hne := (hsize.slot_ne c (Nat.succ_pos xs.length) hlen).symm
    refine ⟨(hother _ hne).trans h.1, ih h.2 (by omega) ?_⟩
    intro i hi
    apply hother
    rwa [List.length_cons, add_ofNat_succ]

/-- The reader at `next` has `pending` before it, and what it has read but not
published still counts. -/
structure Window (slots : UInt32 → α) (mask entries published next tail : UInt32)
    (pending : List α) : Prop where
  holds : Holds slots mask next pending
  tail_eq : tail = next + UInt32.ofNat pending.length
  room : (next - published).toNat + pending.length ≤ entries.toNat

theorem Window.empty (slots : UInt32 → α) (mask entries c : UInt32) :
    Window slots mask entries c c c [] :=
  ⟨trivial, by simp, by simp⟩

variable {pending : List α}

theorem Window.tail_sub (h : Window slots mask entries published next tail pending)
    (hsize : Sized mask entries) :
    (tail - published).toNat = (next - published).toNat + pending.length := by
  have hroom := h.room
  have hle := hsize.le
  have hn : (UInt32.ofNat pending.length).toNat = pending.length :=
    UInt32.toNat_ofNat_of_lt' (by rw [UInt32.size]; omega)
  have hsplit : tail - published = next - published + UInt32.ofNat pending.length := by
    rw [h.tail_eq]
    grind
  rw [hsplit, UInt32.toNat_add, hn]
  omega

theorem Window.next_le (h : Window slots mask entries published next tail pending)
    (hsize : Sized mask entries) : next - published ≤ tail - published := by
  rw [UInt32.le_iff_toNat_le, h.tail_sub hsize]
  omega

theorem Window.tail_le (h : Window slots mask entries published next tail pending)
    (hsize : Sized mask entries) : tail - published ≤ entries := by
  rw [UInt32.le_iff_toNat_le, h.tail_sub hsize]
  exact h.room

theorem Window.eq_tail_iff (h : Window slots mask entries published next tail pending)
    (hsize : Sized mask entries) : next = tail ↔ pending = [] := by
  have hroom := h.room
  have hle := hsize.le
  constructor
  · intro he
    have hsub := h.tail_sub hsize
    rw [← he] at hsub
    exact List.length_eq_zero_iff.mp (by omega)
  · rintro rfl
    simpa using h.tail_eq.symm

/-- The writer may use the slot at the tail while there is room. -/
theorem Window.frame (h : Window slots mask entries published next tail pending)
    (hsize : Sized mask entries) (hroom : tail - published < entries)
    (hother : ∀ i, i ≠ tail &&& mask → slots' i = slots i) :
    Window slots' mask entries published next tail pending := by
  rw [UInt32.lt_iff_toNat_lt, h.tail_sub hsize] at hroom
  exact ⟨h.holds.frame hsize (by omega) (h.tail_eq ▸ hother), h.tail_eq, h.room⟩

theorem Window.push (h : Window slots mask entries published next tail pending)
    (hsize : Sized mask entries) (hroom : tail - published < entries) :
    Window slots mask entries published next (tail + 1)
      (pending ++ [slots (tail &&& mask)]) := by
  rw [UInt32.lt_iff_toNat_lt, h.tail_sub hsize] at hroom
  refine ⟨holds_append.mpr ⟨h.holds, ?_, trivial⟩, ?_, ?_⟩
  · rw [← h.tail_eq]
  · rw [List.length_append, List.length_singleton, add_ofNat_succ, h.tail_eq]
    grind
  · rw [List.length_append, List.length_singleton]
    omega

theorem Window.pop {x : α} (hsize : Sized mask entries)
    (h : Window slots mask entries published next tail (x :: pending)) :
    slots (next &&& mask) = x ∧
      Window slots mask entries published (next + 1) tail pending := by
  have hroom := h.room
  have hle := hsize.le
  rw [List.length_cons] at hroom
  have hstep : (next + 1 - published).toNat = (next - published).toNat + 1 := by
    have hsplit : next + 1 - published = next - published + 1 := by grind
    rw [hsplit, UInt32.toNat_add, UInt32.toNat_one]
    omega
  refine ⟨h.holds.1, h.holds.2, ?_, ?_⟩
  · rw [h.tail_eq, List.length_cons, add_ofNat_succ]
  · omega

/-- In a full ring the slot at the tail is the one to be read next. -/
theorem Window.slot_of_full (h : Window slots mask entries published next tail pending)
    (hsize : Sized mask entries) (hfull : pending.length = entries.toNat) :
    tail &&& mask = next &&& mask := by
  rw [h.tail_eq, hfull, UInt32.ofNat_toNat]
  exact hsize.slot_wrap next

theorem Window.publish (h : Window slots mask entries published next tail pending) :
    Window slots mask entries next next tail pending := by
  have hroom := h.room
  refine ⟨h.holds, h.tail_eq, ?_⟩
  rw [UInt32.sub_self, UInt32.toNat_zero]
  omega

end MaskedRing
