import IoUring.Blocks
import IoUring.MaskedRing
import IoUring.Runs

/-! `read_from_cq` of omp_io_uring_manual.c. The kernel may post completions between
any two of its steps, and it learns only at the end of the call which of them
have been taken. -/

namespace IoUring

namespace Drain

open Blocks MaskedRing

/-- `user_data` is the number of the `file_info` that it points to. -/
structure Cqe where
  userData : Nat
  res : Int32
deriving DecidableEq

structure CqRing where
  head : UInt32
  tail : UInt32
  ringMask : UInt32
  ringEntries : UInt32
  cqes : UInt32 → Cqe

inductive Line where
  | text (s : String)
  | error (res : Int32)
  | result (res : Int32)
  | chunk (v : Iovec)
deriving DecidableEq

/-- Where the call stands, with the `head` of its own. -/
inductive Pc where
  | idle
  | begun (head : UInt32)
  | looping (head : UInt32)
  | found (head : UInt32)
  | fetched (head : UInt32) (fi : Nat)
  | leaving (head : UInt32)

/-- `storing` is an entry written but not yet behind the tail. `posted` and
`handled` are the completions of all calls so far, and `observed` is the number
posted when the tail was last read. -/
structure State where
  pc : Pc
  ring : CqRing
  storing : Option Cqe
  out : List Line
  posted : List Cqe
  handled : List Cqe
  observed : Nat

inductive Action where
  | call | look | check | fetch | handle | publish
  | store (c : Cqe)
  | advance

def CqRing.entry (ring : CqRing) (c : UInt32) : Cqe := ring.cqes (c &&& ring.ringMask)

def printed (fi : Blocks.FileInfo) (res : Int32) : List Line :=
  (if res < 0 then Line.error res else Line.result res) :: fi.printed.map Line.chunk

def step (fis : Nat → Blocks.FileInfo) (s : State) : Action → Option State
  | .call =>
    match s.pc with
    | .idle =>
      some { s with
        pc := .begun s.ring.head
        out := s.out ++ [.text "Reading from completion queue...\n"] }
    | _ => none
  | .look =>
    match s.pc with
    | .begun head =>
      some { s with
        pc := .looping head
        observed := s.posted.length
        out := if head = s.ring.tail then s.out ++ [.text "Ring buffer is empty.\n"] else s.out }
    | _ => none
  | .check =>
    match s.pc with
    | .looping head =>
      some { s with
        pc := if head = s.ring.tail then .leaving head else .found head
        observed := s.posted.length }
    | _ => none
  | .fetch =>
    match s.pc with
    | .found head => some { s with pc := .fetched head (s.ring.entry head).userData }
    | _ => none
  | .handle =>
    match s.pc with
    | .fetched head fi =>
      let res := (s.ring.entry head).res
      some { s with
        pc := .looping (head + 1)
        out := s.out ++ printed (fis fi) res
        handled := s.handled ++ [⟨fi, res⟩] }
    | _ => none
  | .publish =>
    match s.pc with
    | .leaving head => some { s with pc := .idle, ring := { s.ring with head := head } }
    | _ => none
  | .store c =>
    if s.storing = none ∧ s.ring.tail - s.ring.head < s.ring.ringEntries then
      some { s with
        storing := some c
        ring := { s.ring with
          cqes := fun i => if i = s.ring.tail &&& s.ring.ringMask then c else s.ring.cqes i } }
    else none
  | .advance =>
    match s.storing with
    | some c =>
      some { s with
        storing := none
        ring := { s.ring with tail := s.ring.tail + 1 }
        posted := s.posted ++ [c] }
    | none => none

/-- The local head of the call, or the published one between calls. -/
def State.next (s : State) : UInt32 :=
  match s.pc with
  | .idle => s.ring.head
  | .begun head | .looping head | .found head | .fetched head _ | .leaving head => head

def start (ring : CqRing) : State := ⟨.idle, ring, none, [], [], [], 0⟩

theorem store_pc {fis : Nat → Blocks.FileInfo} {s t : State} {c : Cqe}
    (h : step fis s (.store c) = some t) : t.pc = s.pc := by
  obtain ⟨-, ⟨⟩⟩ := Option.ite_none_right_eq_some.mp h
  rfl

theorem advance_pc {fis : Nat → Blocks.FileInfo} {s t : State}
    (h : step fis s .advance = some t) : t.pc = s.pc := by
  simp only [step] at h
  split at h
  · cases h
    rfl
  · cases h

theorem publish_pc {fis : Nat → Blocks.FileInfo} {s t : State}
    (h : step fis s .publish = some t) : t.pc = .idle := by
  simp only [step] at h
  split at h
  · cases h
    rfl
  · cases h

def At (s : State) (pending : List Cqe) : Prop :=
  match s.pc with
  | .idle | .begun _ | .leaving _ => s.handled.length = s.observed
  | .looping _ => s.handled.length ≤ s.observed
  | .found _ => s.handled.length < s.observed
  | .fetched _ fi => s.handled.length < s.observed ∧ ∃ c ∈ pending.head?, c.userData = fi

structure Inv (s : State) (pending : List Cqe) : Prop where
  sized : Sized s.ring.ringMask s.ring.ringEntries
  window : Window s.ring.cqes s.ring.ringMask s.ring.ringEntries s.ring.head s.next s.ring.tail
    pending
  posted : s.posted = s.handled ++ pending
  observed : s.observed ≤ s.posted.length
  storing : ∀ c, s.storing = some c →
    s.ring.tail - s.ring.head < s.ring.ringEntries ∧ s.ring.entry s.ring.tail = c
  here : At s pending

theorem start_inv {ring : CqRing} (hsize : Sized ring.ringMask ring.ringEntries)
    (hempty : ring.head = ring.tail) : Inv (start ring) [] where
  sized := hsize
  window := by
    have h := Window.empty ring.cqes ring.ringMask ring.ringEntries ring.head
    change Window _ _ _ ring.head ring.head ring.tail []
    rwa [← hempty]
  posted := rfl
  observed := Nat.le_refl _
  storing := by simp [start]
  here := rfl

theorem At.post {s t : State} {pending : List Cqe} (h : At s pending) (hpc : t.pc = s.pc)
    (hhandled : t.handled = s.handled) (hobs : t.observed = s.observed) (c : Cqe) :
    At t (pending ++ [c]) := by
  rw [At, hpc, hhandled, hobs]
  rw [At] at h
  split at h
  · exact h
  · exact h
  · exact h
  · exact h
  · exact h
  · obtain ⟨hlt, x, hx, hfi⟩ := h
    cases pending with
    | nil => cases hx
    | cons y rest => exact ⟨hlt, x, hx, hfi⟩

/-- A step of the call that leaves the ring and what was handled alone. -/
theorem Inv.move {s : State} {pending : List Cqe} (h : Inv s pending) (pc : Pc) (out : List Line)
    (observed : Nat) (hobs : observed ≤ s.posted.length)
    (hnext : State.next { s with pc := pc } = s.next)
    (hat : At { s with pc := pc, observed := observed } pending) :
    Inv { s with pc := pc, out := out, observed := observed } pending where
  sized := h.sized
  window := by
    have hw := h.window
    rw [← hnext] at hw
    exact hw
  posted := h.posted
  observed := hobs
  storing := h.storing
  here := hat

theorem step_inv {fis : Nat → Blocks.FileInfo} {s t : State} {a : Action} {pending : List Cqe}
    (h : step fis s a = some t) (hs : Inv s pending) : ∃ pending', Inv t pending' := by
  have hhere := hs.here
  have hlen := congrArg List.length hs.posted
  rw [List.length_append] at hlen
  rw [At] at hhere
  cases a with
  | call =>
    simp only [step] at h
    split at h
    · next hpc =>
      cases h
      rw [hpc] at hhere
      exact ⟨pending, hs.move _ _ _ hs.observed (by simp [State.next, hpc]) hhere⟩
    · cases h
  | look =>
    simp only [step] at h
    split at h
    · next head hpc =>
      cases h
      rw [hpc] at hhere
      refine ⟨pending, hs.move _ _ _ (Nat.le_refl _) (by simp [State.next, hpc]) ?_⟩
      change s.handled.length ≤ s.posted.length
      omega
    · cases h
  | check =>
    simp only [step] at h
    split at h
    · next head hpc =>
      cases h
      have hnext : s.next = head := by rw [State.next, hpc]
      have hend := hs.window.eq_tail_iff hs.sized
      rw [hnext] at hend
      by_cases hempty : head = s.ring.tail
      · have hnil := hend.mp hempty
        rw [if_pos hempty]
        refine ⟨pending, hs.move _ _ _ (Nat.le_refl _) (by simp [State.next, hpc]) ?_⟩
        change s.handled.length = s.posted.length
        rw [hlen, hnil, List.length_nil, Nat.add_zero]
      · have hmore := List.length_pos_iff.mpr (hend.not.mp hempty)
        rw [if_neg hempty]
        refine ⟨pending, hs.move _ _ _ (Nat.le_refl _) (by simp [State.next, hpc]) ?_⟩
        change s.handled.length < s.posted.length
        omega
    · cases h
  | fetch =>
    simp only [step] at h
    split at h
    · next head hpc =>
      cases h
      rw [hpc] at hhere
      have hnext : s.next = head := by rw [State.next, hpc]
      cases pending with
      | nil =>
        have hobs := hs.observed
        rw [List.length_nil] at hlen
        omega
      | cons c rest =>
        have hread := (hs.window.pop hs.sized).1
        rw [hnext] at hread
        refine ⟨c :: rest, hs.move _ _ _ hs.observed (by simp [State.next, hpc]) ?_⟩
        exact ⟨hhere, c, rfl, congrArg Cqe.userData hread.symm⟩
    · cases h
  | handle =>
    simp only [step] at h
    split at h
    · next head fi hpc =>
      cases h
      rw [hpc] at hhere
      obtain ⟨hlt, c, hc, rfl⟩ := hhere
      have hnext : s.next = head := by rw [State.next, hpc]
      cases pending with
      | nil => cases hc
      | cons x rest =>
        cases hc
        have hw := hs.window
        rw [hnext] at hw
        obtain ⟨hread, hrest⟩ := hw.pop hs.sized
        have hentry : s.ring.entry head = c := hread
        refine ⟨rest, hs.sized, hrest, ?_, hs.observed, hs.storing, ?_⟩
        · rw [hs.posted, hentry, List.append_assoc]
          rfl
        · change (s.handled ++ [_]).length ≤ s.observed
          rw [List.length_append]
          exact hlt
    · cases h
  | publish =>
    simp only [step] at h
    split at h
    · next head hpc =>
      cases h
      rw [hpc] at hhere
      have hnext : s.next = head := by rw [State.next, hpc]
      have hw := hs.window
      rw [hnext] at hw
      have hpub := hw.publish
      refine ⟨pending, hs.sized, hpub, hs.posted, hs.observed, ?_, hhere⟩
      intro c hc
      obtain ⟨hroom, hentry⟩ := hs.storing c hc
      refine ⟨?_, hentry⟩
      have hle := hw.tail_sub hs.sized
      have hle' := hpub.tail_sub hs.sized
      rw [UInt32.sub_self, UInt32.toNat_zero] at hle'
      rw [UInt32.lt_iff_toNat_lt] at hroom ⊢
      change (s.ring.tail - head).toNat < s.ring.ringEntries.toNat
      omega
    · cases h
  | store c =>
    obtain ⟨⟨-, hroom⟩, ⟨⟩⟩ := Option.ite_none_right_eq_some.mp h
    refine ⟨pending, hs.sized, ?_, hs.posted, hs.observed, ?_, hhere⟩
    · exact hs.window.frame hs.sized hroom fun i hi => if_neg hi
    · rintro x ⟨⟩
      exact ⟨hroom, if_pos rfl⟩
  | advance =>
    simp only [step] at h
    split at h
    · next c hc =>
      cases h
      obtain ⟨hroom, hentry⟩ := hs.storing c hc
      have hpush := hs.window.push hs.sized hroom
      have hslot : s.ring.cqes (s.ring.tail &&& s.ring.ringMask) = c := hentry
      rw [hslot] at hpush
      refine ⟨pending ++ [c], hs.sized, hpush, ?_, ?_, by simp, hs.here.post rfl rfl rfl c⟩
      · rw [hs.posted, List.append_assoc]
      · have hobs := hs.observed
        change s.observed ≤ (s.posted ++ [c]).length
        rw [List.length_append]
        omega
    · cases h

theorem reach_inv {fis : Nat → Blocks.FileInfo} {ring : CqRing}
    (hsize : Sized ring.ringMask ring.ringEntries) (hempty : ring.head = ring.tail) {s : State}
    (h : Runs.Reach (step fis) Runs.Any (start ring) s) : ∃ pending, Inv s pending :=
  h.invariant (I := fun s => ∃ pending, Inv s pending) ⟨[], start_inv hsize hempty⟩
    fun _ _ _ _ hstep ⟨_, hu⟩ => step_inv hstep hu

theorem Inv.in_order {s : State} {pending : List Cqe} (h : Inv s pending) :
    s.handled <+: s.posted.take s.observed := by
  have hle : s.handled.length ≤ s.observed := by
    have hhere := h.here
    rw [At] at hhere
    split at hhere <;> omega
  rw [h.posted, List.take_append, List.take_of_length_le hle]
  exact List.prefix_append _ _

theorem Inv.eq_of_idle {s : State} {pending : List Cqe} (h : Inv s pending) (hpc : s.pc = .idle) :
    s.handled = s.posted.take s.observed := by
  have hhere := h.here
  rw [At, hpc] at hhere
  rw [← hhere, h.posted, List.take_left]

/-- Whatever the kernel posts between the steps of the calls, these handle the
completions in order and each once, up to the last tail that they have read, and
the counters stay in order whatever value they start at. -/
theorem drained {fis : Nat → Blocks.FileInfo} {ring : CqRing}
    (hsize : Sized ring.ringMask ring.ringEntries) (hempty : ring.head = ring.tail) {s : State}
    (h : Runs.Reach (step fis) Runs.Any (start ring) s) :
    s.handled <+: s.posted.take s.observed ∧
      (s.pc = .idle → s.handled = s.posted.take s.observed) ∧
      s.next - s.ring.head ≤ s.ring.tail - s.ring.head ∧
      s.ring.tail - s.ring.head ≤ s.ring.ringEntries := by
  obtain ⟨pending, hs⟩ := reach_inv hsize hempty h
  exact ⟨hs.in_order, hs.eq_of_idle, hs.window.next_le hs.sized, hs.window.tail_le hs.sized⟩

theorem drained_at_wrap :
    ∃ s, Runs.Reach (step fun _ => .empty) Runs.Any
        (start ⟨4294967295, 4294967295, 1, 2, fun _ => ⟨0, 0⟩⟩) s ∧ s.handled = [⟨3, 0⟩] ∧
      s.handled <+: s.posted.take s.observed ∧
      (s.pc = .idle → s.handled = s.posted.take s.observed) ∧
      s.next - s.ring.head ≤ s.ring.tail - s.ring.head ∧
      s.ring.tail - s.ring.head ≤ s.ring.ringEntries := by
  have hreach := Runs.reach_of_run
    [.call, .store ⟨3, 0⟩, .look, .advance, .check, .fetch, .handle, .check, .publish]
    (fun _ _ _ => trivial)
    (rfl : Runs.run (step fun _ => .empty)
      (start ⟨4294967295, 4294967295, 1, 2, fun _ => ⟨0, 0⟩⟩) _ = some _)
  exact ⟨_, hreach, rfl, drained ⟨1, by decide, rfl, rfl⟩ rfl hreach⟩

end Drain

end IoUring
