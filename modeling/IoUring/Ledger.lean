import Mathlib.Data.Finset.Card

/-! A ledger of the resources that a program holds. Every acquisition takes an
identity never used before, so that two resources are never confused, and every
release is recorded with the deallocator that made it. -/

structure Held (κ : Type) where
  kind : κ
  id : Nat
deriving DecidableEq

structure Ledger (κ δ : Type) [DecidableEq κ] where
  live : Finset (Held κ)
  next : Nat
  released : List (Held κ × δ)
  fresh : ∀ r ∈ live, r.id < next

namespace Ledger

variable {κ δ : Type} [DecidableEq κ]

def empty : Ledger κ δ := ⟨∅, 0, [], by simp⟩

def upcoming (l : Ledger κ δ) (k : κ) : Held κ := ⟨k, l.next⟩

def acquire (l : Ledger κ δ) (k : κ) : Ledger κ δ where
  live := insert (l.upcoming k) l.live
  next := l.next + 1
  released := l.released
  fresh := by
    intro r hr
    rcases Finset.mem_insert.mp hr with rfl | hr
    · exact Nat.lt_succ_self _
    · exact Nat.lt_succ_of_lt (l.fresh r hr)

def release (l : Ledger κ δ) (r : Held κ) (d : δ) : Ledger κ δ where
  live := l.live.erase r
  next := l.next
  released := l.released ++ [(r, d)]
  fresh := fun r hr => l.fresh r (Finset.mem_of_mem_erase hr)

@[simp] theorem upcoming_id (l : Ledger κ δ) (k : κ) : (l.upcoming k).id = l.next := rfl
@[simp] theorem acquire_live (l : Ledger κ δ) (k : κ) :
    (l.acquire k).live = insert (l.upcoming k) l.live := rfl
@[simp] theorem acquire_next (l : Ledger κ δ) (k : κ) : (l.acquire k).next = l.next + 1 := rfl
@[simp] theorem release_live (l : Ledger κ δ) (r : Held κ) (d : δ) :
    (l.release r d).live = l.live.erase r := rfl

/-- `l'` is `l` with the resources `rs`, all acquired since, and nothing released. -/
structure Grown (l l' : Ledger κ δ) (rs : Finset (Held κ)) : Prop where
  live : l'.live = l.live ∪ rs
  ids : ∀ r ∈ rs, l.next ≤ r.id ∧ r.id < l'.next
  next_le : l.next ≤ l'.next
  released : l'.released = l.released

theorem Grown.refl (l : Ledger κ δ) : Grown l l ∅ where
  live := by simp
  ids := by simp
  next_le := Nat.le_refl _
  released := rfl

theorem Grown.acquire (l : Ledger κ δ) (k : κ) : Grown l (l.acquire k) {l.upcoming k} where
  live := by rw [acquire_live, Finset.insert_eq, Finset.union_comm]
  ids := by simp
  next_le := Nat.le_succ _
  released := rfl

theorem Grown.trans {l l' l'' : Ledger κ δ} {rs rs' : Finset (Held κ)}
    (h : Grown l l' rs) (h' : Grown l' l'' rs') : Grown l l'' (rs ∪ rs') where
  live := by rw [h'.live, h.live, Finset.union_assoc]
  ids := by
    intro r hr
    rcases Finset.mem_union.mp hr with hr | hr
    · have := h.ids r hr
      have := h'.next_le
      omega
    · have := h'.ids r hr
      have := h.next_le
      omega
  next_le := Nat.le_trans h.next_le h'.next_le
  released := h'.released.trans h.released

/-- A resource acquired in between was not live at any time before. -/
theorem Grown.not_mem {l₀ l l' : Ledger κ δ} {rs : Finset (Held κ)} (h : Grown l l' rs)
    (h₀ : l₀.next ≤ l.next) {r : Held κ} (hr : r ∈ rs) : r ∉ l₀.live := by
  intro hmem
  have := l₀.fresh r hmem
  have := (h.ids r hr).1
  omega

theorem Grown.disjoint {l l' : Ledger κ δ} {rs : Finset (Held κ)} (h : Grown l l' rs) :
    Disjoint l.live rs :=
  Finset.disjoint_right.mpr fun _ hr => h.not_mem (Nat.le_refl _) hr

theorem Grown.card_union {l l' l'' : Ledger κ δ} {rs rs' : Finset (Held κ)}
    (h : Grown l l' rs) (h' : Grown l' l'' rs') : (rs ∪ rs').card = rs.card + rs'.card := by
  refine Finset.card_union_of_disjoint (Finset.disjoint_left.mpr fun r hr hr' => ?_)
  have := (h.ids r hr).2
  have := (h'.ids r hr').1
  omega

end Ledger
