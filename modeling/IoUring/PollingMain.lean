import IoUring.PollingCount
import IoUring.PollingOpen

/-! The whole of polling.c: `main` opens the files, lets `my_fread` run, and calls
`my_close` behind it. -/

namespace IoUring

namespace Polling

/-- `main` as far as `my_fread`, or its status if it does not come there. -/
def main (queueInit : Bool) (avail : Nat → Bool) (fds : List (Option Nat))
    (files : Nat → FileInfo) : Option (Except Nat State) :=
  (Scarce.myFopen queueInit avail fds files).map fun r =>
    if r.1 ≤ 0 then .error 1 else .ok (start r.1 r.2.1 r.2.2)

/-- Where the loop stands. -/
structure Placed (s : State) : Prop where
  here : s.pc ≠ .loop → s.pc ≠ .done → s.ring.cq ≠ []
  done : s.pc = .done → ¬ 0 < s.numFiles
  armed : ∀ k, s.pc = .rearming k → s.out ≠ []

/-- What a step does to the completions and to the count. -/
inductive Moved (s t : State) : Prop where
  | quiet (more : List Cqe) (numFiles : t.numFiles = s.numFiles) (out : t.out = s.out)
      (handled : t.handled = s.handled) (unhandled : t.unhandled = s.unhandled ++ more)
      (requests : t.requests.length + more.length = s.requests.length)
  | ended (c : Cqe) (res : c.res ≤ 0) (numFiles : t.numFiles = s.numFiles - 1) (out : t.out = s.out)
      (handled : t.handled = s.handled ++ [c]) (unhandled : s.unhandled = c :: t.unhandled)
      (requests : t.requests = s.requests)
  | wrote (c : Cqe) (x : Nat × List UInt8) (res : 0 < c.res) (numFiles : t.numFiles = s.numFiles)
      (out : t.out = s.out ++ [x]) (handled : t.handled = s.handled ++ [c])
      (unhandled : s.unhandled = c :: t.unhandled) (requests : t.requests = s.requests)

theorem Moved.same {s t : State} (hnum : t.numFiles = s.numFiles) (hout : t.out = s.out)
    (hhandled : t.handled = s.handled) (hun : t.unhandled = s.unhandled)
    (hreq : t.requests.length = s.requests.length) : Moved s t :=
  .quiet [] hnum hout hhandled (by simpa using hun) (by simpa using hreq)

theorem step_moved {contents : Nat → List UInt8} {s t : State} {a : Action}
    (h : step contents s a = some t) (hs : Placed s) : Placed t ∧ Moved s t := by
  cases a with
  | poll =>
    obtain ⟨hpc, h⟩ := Option.ite_none_right_eq_some.mp h
    have hun : s.unhandled = s.ring.cq := by rw [State.unhandled, hpc]
    split at h
    · split at h
      · cases h
        exact ⟨hs, .same rfl rfl rfl rfl rfl⟩
      · next hcq =>
        cases h
        exact ⟨⟨fun _ _ => by simp [hcq], by simp, by simp⟩, .same rfl rfl rfl hun.symm rfl⟩
    · next hnum =>
      cases h
      exact ⟨⟨by simp, fun _ => hnum, by simp⟩, .same rfl rfl rfl hun.symm rfl⟩
  | handle =>
    obtain ⟨hpc, h⟩ := Option.ite_none_right_eq_some.mp h
    split at h
    · cases h
    · next c rest hcq =>
      have hne : s.ring.cq ≠ [] := by simp [hcq]
      have hun : s.unhandled = c :: rest := by rw [State.unhandled, hpc]; exact hcq
      have htail : s.unhandled = c :: s.ring.cq.tail := by rw [hun, hcq, List.tail_cons]
      split at h
      · next hneg =>
        cases h
        exact ⟨⟨fun _ _ => hne, by simp, by simp⟩,
          .ended c (Int32.le_of_lt hneg) rfl rfl rfl htail rfl⟩
      · split at h
        · next hpos =>
          cases h
          exact ⟨⟨fun _ _ => hne, by simp, by simp⟩, .wrote c _ hpos rfl rfl rfl htail rfl⟩
        · next hpos =>
          cases h
          exact ⟨⟨fun _ _ => hne, by simp, by simp⟩,
            .ended c (Int32.not_lt.mp hpos) rfl rfl rfl htail rfl⟩
  | rearm =>
    simp only [step] at h
    split at h
    · next k hpc =>
      cases h
      obtain ⟨reserved, hring⟩ := setupRead_eq s.ring k (s.files k)
      have hun : s.unhandled = s.ring.cq.tail := by rw [State.unhandled, hpc]
      have hcq := hs.here (by simp [hpc]) (by simp [hpc])
      rw [hring]
      exact ⟨⟨fun _ _ => hcq, by simp, by simp⟩, .same rfl rfl rfl hun.symm rfl⟩
    · cases h
  | seen =>
    obtain ⟨hpc, ⟨⟩⟩ := Option.ite_none_right_eq_some.mp h
    have hun : s.unhandled = s.ring.cq.tail := by rw [State.unhandled, hpc]
    exact ⟨⟨by simp, by simp, by simp⟩, .same rfl rfl rfl hun.symm rfl⟩
  | take =>
    simp only [step] at h
    split at h
    · cases h
    · next sqe rest hpub =>
      cases h
      refine ⟨⟨hs.here, hs.done, hs.armed⟩, .same rfl rfl rfl rfl ?_⟩
      simp [State.requests, hpub]
      omega
  | complete k res =>
    simp only [step] at h
    split at h
    · cases h
    · next sqe hk =>
      split at h
      · cases h
        have hhere : s.pc = .seeing ∨ (∃ k, s.pc = .rearming k) → s.ring.cq ≠ [] := by
          rintro (hpc | ⟨k, hpc⟩)
          · exact hs.here (by simp [hpc]) (by simp [hpc])
          · exact hs.here (by simp [hpc]) (by simp [hpc])
        refine ⟨⟨by simp, hs.done, hs.armed⟩, .quiet [⟨sqe.userData, res⟩] rfl rfl rfl ?_ ?_⟩
        · exact State.unhandled_post hhere ⟨rfl, rfl⟩
        · exact (requests_eraseIdx hk).length_eq
      · cases h

/-- Of `n` files that are counted `m` were handed to the kernel, each with one read. -/
structure Tally (n m : Nat) (s : State) : Prop where
  few : n < 2 ^ 31
  total : s.requests.length + s.unhandled.length + s.handled.length = m
  count : s.numFiles.toInt = n - ((s.handled.filter (·.res ≤ 0)).length : Int)
  out : s.out.length = (s.handled.filter (0 < ·.res)).length

theorem length_handled (cs : List Cqe) :
    (cs.filter (·.res ≤ 0)).length + (cs.filter (0 < ·.res)).length = cs.length := by
  induction cs with
  | nil => rfl
  | cons c cs ih =>
    by_cases hres : c.res ≤ 0
    · have hpos : ¬ 0 < c.res := Int32.not_lt.mpr hres
      simp [hres, hpos]
      omega
    · have hpos : 0 < c.res := Int32.not_le.mp hres
      simp [hres, hpos]
      omega

theorem Moved.tally {n m : Nat} {s t : State} (h : Moved s t) (hm : m ≤ n) (hs : Tally n m s) :
    Tally n m t := by
  have htotal := hs.total
  have hcount := hs.count
  have hout := hs.out
  have hfew := hs.few
  have hall := length_handled s.handled
  cases h with
  | quiet more hnum ho hhandled hun hreq =>
    refine ⟨hfew, ?_, by rw [hnum, hhandled]; exact hcount, by rw [ho, hhandled]; exact hout⟩
    rw [hun, hhandled, List.length_append]
    omega
  | ended c hres hnum ho hhandled hun hreq =>
    have hpos : ¬ 0 < c.res := Int32.not_lt.mpr hres
    have hone : (1 : Int32).toInt = 1 := rfl
    rw [hun, List.length_cons] at htotal
    refine ⟨hfew, ?_, ?_, ?_⟩
    · rw [hreq, hhandled, List.length_append, List.length_singleton]
      omega
    · have hmore : ((s.handled ++ [c]).filter (·.res ≤ 0)).length =
          (s.handled.filter (·.res ≤ 0)).length + 1 := by simp [hres]
      rw [hnum, hhandled, hmore, Int32.toInt_sub, hone, Int.bmod_eq_of_le] <;> omega
    · rw [ho, hhandled, hout]
      simp [hpos]
  | wrote c x hres hnum ho hhandled hun hreq =>
    have hneg : ¬ c.res ≤ 0 := Int32.not_le.mpr hres
    rw [hun, List.length_cons] at htotal
    refine ⟨hfew, ?_, ?_, ?_⟩
    · rw [hreq, hhandled, List.length_append, List.length_singleton]
      omega
    · rw [hnum, hhandled, hcount]
      simp [hneg]
    · rw [ho, hhandled, List.length_append, List.length_singleton, hout]
      simp [hres]

/-- The state where the loop has ended: every file was read once, and found empty or
not readable. -/
theorem Tally.ended {n m : Nat} {s : State} (hm : m ≤ n) (h : Tally n m s) (hs : Placed s)
    (hpc : s.pc = .done) :
    m = n ∧ s.out = [] ∧ s.unhandled = [] ∧ ∀ c ∈ s.handled, c.res ≤ 0 := by
  have htotal := h.total
  have hcount := h.count
  have hall := length_handled s.handled
  have hle : s.numFiles.toInt ≤ 0 := Int32.le_iff_toInt_le.mp (Int32.not_lt.mp (hs.done hpc))
  have hfull : (s.handled.filter (·.res ≤ 0)).length = s.handled.length := by omega
  refine ⟨by omega, ?_, ?_, ?_⟩
  · rw [← List.length_eq_zero_iff, h.out]
    omega
  · rw [← List.length_eq_zero_iff]
    omega
  · simpa [List.length_filter_eq_length_iff] using hfull

/-- The loop can still end: no file has delivered data. -/
structure Winding (n : Nat) (s : State) : Prop where
  placed : Placed s
  tally : Tally n n s
  out : s.out = []
  unhandled : ∀ c ∈ s.unhandled, c.res ≤ 0

theorem Winding.moved {n : Nat} {s t : State} (hs : Winding n s) (ht : Placed t) (h : Moved s t)
    (hun : ∀ c ∈ t.unhandled, c.res ≤ 0) : Winding n t := by
  refine ⟨ht, h.tally (Nat.le_refl n) hs.tally, ?_, hun⟩
  cases h with
  | quiet more hnum ho hhandled hsame hreq => rw [ho, hs.out]
  | ended c hres hnum ho hhandled hsame hreq => rw [ho, hs.out]
  | wrote c x hres hnum ho hhandled hsame hreq =>
    have hle := hs.unhandled c (by simp [hsame])
    exact absurd hres (Int32.not_lt.mpr hle)

def Pc.rank : Pc → Nat
  | .loop => 2
  | .peeked => 1
  | .rearming _ | .seeing | .done => 0

/-- Falls along the steps that bring the loop to its end. -/
def State.left (s : State) : Nat :=
  5 * s.ring.published.length + 4 * s.ring.inFlight.length + 3 * s.ring.cq.length + s.pc.rank

theorem Winding.step {contents : Nat → List UInt8} {n : Nat} {s t : State} {a : Action}
    (hs : Winding n s) (h : step contents s a = some t) (hun : ∀ c ∈ t.unhandled, c.res ≤ 0)
    (hleft : t.left < s.left) :
    ∃ a t, Polling.step contents s a = some t ∧ Winding n t ∧ t.left < s.left := by
  obtain ⟨ht, hmoved⟩ := step_moved h hs.placed
  exact ⟨a, t, h, hs.moved ht hmoved hun, hleft⟩

/-- While files are counted, the queues are not empty. -/
theorem Winding.requests {n : Nat} {s : State} (hs : Winding n s) (hnum : 0 < s.numFiles) :
    s.requests ≠ [] ∨ s.unhandled ≠ [] := by
  have htotal := hs.tally.total
  have hcount := hs.tally.count
  have hout := hs.tally.out
  have hall := length_handled s.handled
  have hpos : 0 < s.numFiles.toInt := Int32.lt_iff_toInt_lt.mp hnum
  rw [hs.out, List.length_nil] at hout
  by_contra h
  push Not at h
  rw [h.1, h.2] at htotal
  simp at htotal
  omega

theorem Winding.progress {contents : Nat → List UInt8} {n : Nat} {s : State} (hs : Winding n s)
    (hdone : s.pc ≠ .done) :
    ∃ a t, Polling.step contents s a = some t ∧ Winding n t ∧ t.left < s.left := by
  cases hpc : s.pc with
  | done => exact absurd hpc hdone
  | rearming k => exact absurd hs.out (hs.placed.armed k hpc)
  | seeing =>
    have hun : s.unhandled = s.ring.cq.tail := by rw [State.unhandled, hpc]
    have hcq := List.length_pos_iff.mpr (hs.placed.here (by simp [hpc]) (by simp [hpc]))
    apply hs.step (a := .seen) (if_pos hpc)
    · exact fun c hc => hs.unhandled c (hun ▸ hc)
    · simp only [State.left, Pc.rank, hpc, List.length_tail]
      omega
  | peeked =>
    cases hcq : s.ring.cq with
    | nil => exact absurd hcq (hs.placed.here (by simp [hpc]) (by simp [hpc]))
    | cons c rest =>
      have hun : s.unhandled = c :: rest := by rw [State.unhandled, hpc]; exact hcq
      have hres := hs.unhandled c (by simp [hun])
      have hrest : ∀ x ∈ rest, x.res ≤ 0 := fun x hx => hs.unhandled x (by simp [hun, hx])
      by_cases hneg : c.res < 0
      · apply hs.step (a := .handle) (by simp only [Polling.step, hpc, hcq, hneg, if_true]; rfl)
        · simpa [State.unhandled, hcq] using hrest
        · simp [State.left, Pc.rank, hpc]
      · have hpos : ¬ 0 < c.res := Int32.not_lt.mpr hres
        apply hs.step (a := .handle)
          (by simp only [Polling.step, hpc, hcq, hneg, hpos, if_true, if_false]; rfl)
        · simpa [State.unhandled, hcq] using hrest
        · simp [State.left, Pc.rank, hpc]
  | loop =>
    have hun : s.unhandled = s.ring.cq := by rw [State.unhandled, hpc]
    by_cases hnum : 0 < s.numFiles
    · cases hcq : s.ring.cq with
      | cons c rest =>
        apply hs.step (a := .poll) (by simp only [Polling.step, hpc, hcq, hnum, if_true]; rfl)
        · exact fun x hx => hs.unhandled x (hun ▸ hx)
        · simp [State.left, Pc.rank, hpc]
      | nil =>
        have hreq := (hs.requests hnum).resolve_right (by simp [hun, hcq])
        cases hfly : s.ring.inFlight with
        | cons sqe rest =>
          -- a read can always fail
          have hanswer : Answers (contents sqe.fd) sqe (-1) := Or.inl (by decide)
          apply hs.step (a := .complete 0 (-1))
            (by simp only [Polling.step, hfly, List.getElem?_cons_zero, if_pos hanswer]; rfl)
          · intro x hx
            simp [State.unhandled, hpc, hcq] at hx
            subst hx
            exact Int32.le_of_lt (by decide : (-1 : Int32) < 0)
          · simp [State.left, hpc, hcq, hfly]
            omega
        | nil =>
          cases hpub : s.ring.published with
          | nil => exact absurd (by simp [State.requests, hfly, hpub]) hreq
          | cons sqe rest =>
            apply hs.step (a := .take) (by simp only [Polling.step, hpub]; rfl)
            · intro x hx
              simp [State.unhandled, hpc, hcq] at hx
            · simp [State.left, hpc, hcq, hfly, hpub]
              omega
    · apply hs.step (a := .poll) (by simp only [Polling.step, hpc, hnum, if_true, if_false]; rfl)
      · exact fun x hx => hs.unhandled x (hun ▸ hx)
      · simp [State.left, Pc.rank, hpc]

end Polling

end IoUring
