import Mathlib.Data.List.Nodup
import Mathlib.Tactic.Tauto
import IoUring.EarlyExit
import IoUring.Ledger

/-! Programs that acquire resources, give them back, and write to a log and to an output.
To release what is not held is an early exit. -/

namespace Holding

structure World (κ δ : Type) [DecidableEq κ] where
  ledger : Ledger κ δ
  log : List String
  out : List UInt8

/-- How a program ends other than by a return. -/
inductive Stop where
  | outOfBounds | nullPointer | doubleFree | badAlloc | divideByZero | overflow | endless
deriving DecidableEq

abbrev Prog (κ δ : Type) [DecidableEq κ] := EStateM Stop (World κ δ)

open EarlyExit

variable {κ δ : Type}

theorem nodup_append_of_ids {xs ys : List (Held κ × δ)} (hxs : (xs.map Prod.fst).Nodup)
    (hys : (ys.map Prod.fst).Nodup) (h : ∀ x ∈ xs, ∀ y ∈ ys, x.1.id ≠ y.1.id) :
    ((xs ++ ys).map Prod.fst).Nodup := by
  rw [List.map_append]
  apply hxs.append hys
  intro r hr hr'
  obtain ⟨x, hx, rfl⟩ := List.mem_map.mp hr
  obtain ⟨y, hy, he⟩ := List.mem_map.mp hr'
  exact h x hx y hy (congrArg Held.id he.symm)

variable [DecidableEq κ]

def World.start : World κ δ := ⟨.empty, [], []⟩

def acquire (k : κ) : Prog κ δ (Held κ) := fun w =>
  .ok (w.ledger.upcoming k) { w with ledger := w.ledger.acquire k }

def tryAcquire (ok : Bool) (k : κ) : Prog κ δ (Option (Held κ)) :=
  if ok then do
    let r ← acquire k
    pure (some r)
  else pure none

def release (x : Held κ × δ) : Prog κ δ Unit := fun w =>
  if x.1 ∈ w.ledger.live then .ok () { w with ledger := w.ledger.release x.1 x.2 }
  else .error .doubleFree w

def releaseAll : List (Held κ × δ) → Prog κ δ Unit
  | [] => pure ()
  | x :: xs => do
    release x
    releaseAll xs

def report (msg : String) : Prog κ δ Unit := fun w => .ok () { w with log := w.log ++ [msg] }

def write (bytes : List UInt8) : Prog κ δ Unit := fun w => .ok () { w with out := w.out ++ bytes }

@[simp] theorem upcoming_kind (l : Ledger κ δ) (k : κ) : (l.upcoming k).kind = k := rfl

theorem tryAcquire_false (k : κ) (w : World κ δ) : tryAcquire false k w = .ok none w := rfl

/-- Everything acquired in between was given back, once, and in the way its kind owns. -/
structure Settled (own : κ → δ) (w w' : World κ δ) : Prop where
  live : w'.ledger.live = w.ledger.live
  next_le : w.ledger.next ≤ w'.ledger.next
  released : ∃ xs, w'.ledger.released = w.ledger.released ++ xs ∧ (xs.map Prod.fst).Nodup ∧
    ∀ x ∈ xs, x.2 = own x.1.kind ∧ w.ledger.next ≤ x.1.id ∧ x.1.id < w'.ledger.next

theorem Settled.of_ledger {own : κ → δ} {w w' : World κ δ} (h : w'.ledger = w.ledger) :
    Settled own w w' :=
  ⟨congrArg Ledger.live h, Nat.le_of_eq (congrArg Ledger.next h).symm, [], by simp [h]⟩

theorem Settled.trans {own : κ → δ} {w w' w'' : World κ δ} (h : Settled own w w')
    (h' : Settled own w' w'') : Settled own w w'' := by
  obtain ⟨xs, hxs, hnodup, hown⟩ := h.released
  obtain ⟨ys, hys, hnodup', hown'⟩ := h'.released
  refine ⟨h'.live.trans h.live, h.next_le.trans h'.next_le, xs ++ ys, ?_, ?_, ?_⟩
  · rw [hys, hxs, List.append_assoc]
  · apply nodup_append_of_ids hnodup hnodup'
    intro x hx y hy
    exact Nat.ne_of_lt (Nat.lt_of_lt_of_le (hown x hx).2.2 (hown' y hy).2.1)
  · intro x hx
    rcases List.mem_append.mp hx with hx | hx
    · obtain ⟨hd, hlo, hhi⟩ := hown x hx
      exact ⟨hd, hlo, Nat.lt_of_lt_of_le hhi h'.next_le⟩
    · obtain ⟨hd, hlo, hhi⟩ := hown' x hx
      exact ⟨hd, h.next_le.trans hlo, hhi⟩

/-- What is held since `w` are the resources `rs`. -/
structure Holds (w w' : World κ δ) (rs : List (Held κ)) : Prop where
  grown : w.ledger.Grown w'.ledger rs.toFinset
  nodup : rs.Nodup
  out : w'.out = w.out

variable {w w' : World κ δ} {rs : List (Held κ)}

theorem Holds.refl (w : World κ δ) : Holds w w [] := ⟨.refl _, List.nodup_nil, rfl⟩

theorem Holds.perm (h : Holds w w' rs) {rs' : List (Held κ)} (hperm : rs'.Perm rs) :
    Holds w w' rs' :=
  ⟨List.toFinset_eq_of_perm _ _ hperm ▸ h.grown, hperm.nodup_iff.mpr h.nodup, h.out⟩

theorem Holds.acquired (h : Holds w w' rs) (k : κ) :
    Holds w { w' with ledger := w'.ledger.acquire k } (w'.ledger.upcoming k :: rs) := by
  refine ⟨?_, ?_, h.out⟩
  · have hgrown := h.grown.trans (.acquire w'.ledger k)
    rwa [List.toFinset_cons, Finset.insert_eq, Finset.union_comm]
  · refine List.nodup_cons.mpr ⟨fun hmem => ?_, h.nodup⟩
    have hlt := (h.grown.ids _ (List.mem_toFinset.mpr hmem)).2
    exact Nat.lt_irrefl _ hlt

theorem Holds.acquire (h : Holds w w' rs) (k : κ) :
    ∃ r w'', acquire k w' = .ok r w'' ∧ r.kind = k ∧ Holds w w'' (r :: rs) :=
  ⟨_, _, rfl, rfl, h.acquired k⟩

theorem Holds.tryAcquire (h : Holds w w' rs) (k : κ) :
    ∃ r w'', tryAcquire true k w' = .ok (some r) w'' ∧ r.kind = k ∧ Holds w w'' (r :: rs) := by
  obtain ⟨r, w'', hrun, hkind, hr⟩ := h.acquire k
  refine ⟨r, w'', ?_, hkind, hr⟩
  rw [Holding.tryAcquire, if_pos rfl, bind_of_ok hrun]
  rfl

theorem Holds.report (h : Holds w w' rs) (msg : String) :
    ∃ w'', report msg w' = .ok () w'' ∧ Holds w w'' rs := ⟨_, rfl, h.grown, h.nodup, h.out⟩

theorem releaseAll_ok {xs : List (Held κ × δ)} (hnodup : (xs.map Prod.fst).Nodup)
    (hlive : ∀ x ∈ xs, x.1 ∈ w.ledger.live) :
    ∃ w', releaseAll xs w = .ok () w' ∧
      w'.ledger.live = w.ledger.live \ (xs.map Prod.fst).toFinset ∧
      w'.ledger.next = w.ledger.next ∧
      w'.ledger.released = w.ledger.released ++ xs ∧ w'.out = w.out ∧ w'.log = w.log := by
  induction xs generalizing w with
  | nil => exact ⟨w, rfl, by simp, rfl, by simp, rfl, rfl⟩
  | cons x xs ih =>
    rw [List.map_cons, List.nodup_cons] at hnodup
    obtain ⟨hx, hxs⟩ := List.forall_mem_cons.mp hlive
    have hone : release x w = .ok () { w with ledger := w.ledger.release x.1 x.2 } := if_pos hx
    have hrest : ∀ y ∈ xs, y.1 ∈ (w.ledger.release x.1 x.2).live := by
      intro y hy
      have hne : y.1 ≠ x.1 := fun he => hnodup.1 (he ▸ List.mem_map_of_mem hy)
      exact Finset.mem_erase.mpr ⟨hne, hxs y hy⟩
    obtain ⟨w', hrun, hlive', hnext, hreleased, hout⟩ :=
      ih (w := { w with ledger := w.ledger.release x.1 x.2 }) hnodup.2 hrest
    refine ⟨w', bind_eq_ok.mpr ⟨(), _, hone, hrun⟩, ?_, hnext, ?_, hout⟩
    · rw [hlive', List.map_cons, List.toFinset_cons, Ledger.release_live]
      ext r
      simp only [Finset.mem_sdiff, Finset.mem_erase, Finset.mem_insert]
      tauto
    · rw [hreleased]
      simp [Ledger.release]

/-- In whatever way it is given back, what was held is then no longer live. -/
theorem Holds.release_live (h : Holds w w' rs) {w₂ : World κ δ}
    (hlive : w₂.ledger.live = w'.ledger.live) {xs : List (Held κ × δ)}
    (hperm : (xs.map Prod.fst).Perm rs) :
    ∃ w'', releaseAll xs w₂ = .ok () w'' ∧ w''.ledger.live = w.ledger.live ∧
      w''.ledger.next = w₂.ledger.next ∧ w''.ledger.released = w₂.ledger.released ++ xs ∧
      w''.out = w₂.out ∧ w''.log = w₂.log := by
  have hset : (xs.map Prod.fst).toFinset = rs.toFinset := List.toFinset_eq_of_perm _ _ hperm
  rw [h.grown.live] at hlive
  have hmem : ∀ x ∈ xs, x.1 ∈ w₂.ledger.live := by
    intro x hx
    have hheld := hperm.subset (List.mem_map_of_mem (f := Prod.fst) hx)
    rw [hlive]
    exact Finset.mem_union_right _ (List.mem_toFinset.mpr hheld)
  obtain ⟨w'', hrun, hlive', hrest⟩ := releaseAll_ok (hperm.nodup_iff.mpr h.nodup) hmem
  refine ⟨w'', hrun, ?_, hrest⟩
  rw [hlive', hset, hlive, Finset.union_sdiff_cancel_right h.grown.disjoint]

/-- To release just what is held leaves the ledger settled, also if more came and went. -/
theorem Holds.releaseAll (h : Holds w w' rs) {own : κ → δ} {w₂ : World κ δ}
    (hsettled : Settled own w' w₂) {xs : List (Held κ × δ)} (hperm : (xs.map Prod.fst).Perm rs)
    (hown : ∀ x ∈ xs, x.2 = own x.1.kind) :
    ∃ w'', releaseAll xs w₂ = .ok () w'' ∧ Settled own w w'' ∧ w''.out = w₂.out ∧
      w''.log = w₂.log := by
  have hnodup := hperm.nodup_iff.mpr h.nodup
  have hids : ∀ x ∈ xs, w.ledger.next ≤ x.1.id ∧ x.1.id < w'.ledger.next := by
    intro x hx
    exact h.grown.ids _ (List.mem_toFinset.mpr
      (hperm.subset (List.mem_map_of_mem (f := Prod.fst) hx)))
  obtain ⟨ys, hys, hnodup', hown'⟩ := hsettled.released
  obtain ⟨w'', hrun, hlive, hnext, hreleased, hout⟩ := h.release_live hsettled.live hperm
  have hle : w'.ledger.next ≤ w''.ledger.next := hnext ▸ hsettled.next_le
  refine ⟨w'', hrun, ⟨hlive, h.grown.next_le.trans hle, ys ++ xs, ?_, ?_, ?_⟩, hout⟩
  · rw [hreleased, hys, h.grown.released, List.append_assoc]
  · apply nodup_append_of_ids hnodup' hnodup
    intro y hy x hx
    exact Nat.ne_of_gt (Nat.lt_of_lt_of_le (hids x hx).2 (hown' y hy).2.1)
  · intro x hx
    rcases List.mem_append.mp hx with hx | hx
    · obtain ⟨hd, hlo, hhi⟩ := hown' x hx
      exact ⟨hd, h.grown.next_le.trans hlo, hnext ▸ hhi⟩
    · obtain ⟨hlo, hhi⟩ := hids x hx
      exact ⟨hown x hx, hlo, Nat.lt_of_lt_of_le hhi hle⟩

/-- The program returns, with a result and a log in `Q`, and has given back all it took. -/
def Leaves {β : Type} (own : κ → δ) (w : World κ δ) (Q : β → List String → Prop)
    (r : EStateM.Result Stop (World κ δ) β) : Prop :=
  ∃ b w', r = .ok b w' ∧ Settled own w w' ∧ Q b w'.log

theorem Leaves.of_ledger {β : Type} {own : κ → δ} {Q : β → List String → Prop} {b : β}
    (h : w'.ledger = w.ledger) (hQ : Q b w'.log) : Leaves own w Q (.ok b w') :=
  ⟨b, w', rfl, .of_ledger h, hQ⟩

theorem Leaves.bind {β γ : Type} {own : κ → δ} {Q : β → List String → Prop}
    {R : γ → List String → Prop} {x : Prog κ δ β} {f : β → Prog κ δ γ}
    (hx : Leaves own w Q (x w))
    (hf : ∀ b w', Q b w'.log → Leaves own w' R (f b w')) : Leaves own w R ((x >>= f) w) := by
  obtain ⟨b, w', hrun, hsettled, hQ⟩ := hx
  obtain ⟨c, w'', hrun', hsettled', hR⟩ := hf b w' hQ
  exact ⟨c, w'', bind_eq_ok.mpr ⟨b, w', hrun, hrun'⟩, hsettled.trans hsettled', hR⟩

/-- A program that ends with the release of all it holds. -/
theorem leaves_of_holds {β : Type} {own : κ → δ} {Q : β → List String → Prop} {b : β}
    {xs : List (Held κ × δ)} (hown : ∀ x ∈ xs, x.2 = own x.1.kind)
    (h : Holds w w' (xs.map Prod.fst)) {w₂ : World κ δ} (hledger : w₂.ledger = w'.ledger)
    (hQ : Q b w₂.log) : Leaves own w Q ((releaseAll xs >>= fun _ => pure b) w₂) := by
  obtain ⟨w'', hrun, hall, -, hlog⟩ := h.releaseAll (.of_ledger hledger) (List.Perm.refl _) hown
  rw [bind_of_ok hrun]
  exact ⟨b, w'', rfl, hall, hlog ▸ hQ⟩

end Holding
