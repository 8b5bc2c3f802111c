import IoUring.Polling

/-! The countdown of polling.c. A completion that delivers data has the next read of
its file prepared, but the loop never submits it: the file stays counted with
nothing on its way. -/

namespace IoUring

namespace Polling

theorem setupRead_eq (ring : Ring) (k : Nat) (fi : FileInfo) :
    ∃ reserved, setupRead ring k fi = { ring with reserved := reserved } := by
  rw [setupRead]
  split
  · exact ⟨_, rfl⟩
  · exact ⟨_, rfl⟩

def State.requests (s : State) : List Sqe := s.ring.published ++ s.ring.inFlight

/-- The completions that are posted and not gone through. -/
def State.unhandled (s : State) : List Cqe :=
  match s.pc with
  | .loop | .peeked | .done => s.ring.cq
  | .rearming _ | .seeing => s.ring.cq.tail

/-- The files in `ids` were handed to the kernel, each with one read, which is now
waiting, under way, completed or gone through. -/
structure Counted (ids : List Nat) (s : State) : Prop where
  nodup : ids.Nodup
  few : ids.length < 2 ^ 31
  tokens : (s.requests.map (·.userData) ++ s.unhandled.map (·.userData) ++
    s.handled.map (·.userData)).Perm ids
  count : s.numFiles.toInt = ids.length - ((s.handled.filter (·.res ≤ 0)).length : Int)
  here : s.pc = .seeing ∨ (∃ k, s.pc = .rearming k) → s.ring.cq ≠ []
  done : s.pc = .done → ¬ 0 < s.numFiles

theorem Counted.distinct {ids : List Nat} {s : State} (h : Counted ids s) :
    (s.requests.map (·.userData) ++ s.unhandled.map (·.userData) ++
      s.handled.map (·.userData)).Nodup :=
  h.tokens.nodup_iff.mpr h.nodup

theorem Counted.frame {ids : List Nat} {s t : State} (h : Counted ids s)
    (hnum : t.numFiles = s.numFiles) (hhandled : t.handled = s.handled)
    (htokens : (t.requests.map (·.userData) ++ t.unhandled.map (·.userData)).Perm
      (s.requests.map (·.userData) ++ s.unhandled.map (·.userData)))
    (hhere : t.pc = .seeing ∨ (∃ k, t.pc = .rearming k) → t.ring.cq ≠ [])
    (hdone : t.pc = .done → ¬ 0 < s.numFiles) : Counted ids t where
  nodup := h.nodup
  few := h.few
  tokens := by
    rw [hhandled]
    exact (htokens.append_right _).trans h.tokens
  count := by rw [hnum, hhandled]; exact h.count
  here := hhere
  done := by rw [hnum]; exact hdone

theorem Counted.handle {ids : List Nat} {s t : State} {c : Cqe} {rest : List Cqe}
    (h : Counted ids s) (hpc : s.pc = .peeked) (hcq : s.ring.cq = c :: rest)
    (hring : t.ring = s.ring) (hhandled : t.handled = s.handled ++ [c])
    (htpc : t.pc = .seeing ∨ ∃ k, t.pc = .rearming k)
    (hnum : t.numFiles = if c.res ≤ 0 then s.numFiles - 1 else s.numFiles) : Counted ids t := by
  have hun : s.unhandled = c :: rest := by rw [State.unhandled, hpc]; exact hcq
  have hun' : t.unhandled = rest := by
    rw [State.unhandled, hring, hcq]
    rcases htpc with hp | ⟨k, hp⟩ <;> rw [hp] <;> rfl
  have htokens := h.tokens
  rw [hun] at htokens
  have hmove : (t.requests.map (·.userData) ++ t.unhandled.map (·.userData) ++
      t.handled.map (·.userData)).Perm ids := by
    have hreq : t.requests = s.requests := by rw [State.requests, hring, State.requests]
    refine List.Perm.trans ?_ htokens
    rw [hreq, hun', hhandled, List.map_append, List.map_cons, List.append_assoc,
      List.append_assoc]
    refine List.Perm.append_left _ ?_
    rw [← List.append_assoc]
    exact List.perm_append_comm
  refine ⟨h.nodup, h.few, hmove, ?_, ?_, ?_⟩
  · have hlen := htokens.length_eq
    have hfilter : (s.handled.filter (·.res ≤ 0)).length ≤ s.handled.length :=
      List.length_filter_le _ _
    have hcount := h.count
    have hfew := h.few
    simp only [List.length_append, List.length_map, List.length_cons] at hlen
    rw [hnum, hhandled, List.filter_append, List.length_append]
    by_cases hres : c.res ≤ 0
    · have hone : (1 : Int32).toInt = 1 := rfl
      have hmore : ([c].filter (·.res ≤ 0)).length = 1 := by simp [hres]
      rw [if_pos hres, hmore, Int32.toInt_sub, hone, Int.bmod_eq_of_le] <;> omega
    · have hsame : ([c].filter (·.res ≤ 0)).length = 0 := by simp [hres]
      rw [if_neg hres, hsame, Nat.add_zero]
      exact hcount
  · intro _
    rw [hring, hcq]
    simp
  · intro he
    rcases htpc with hp | ⟨k, hp⟩ <;> rw [hp] at he <;> cases he

theorem State.unhandled_post {s t : State} {c : Cqe}
    (hhere : s.pc = .seeing ∨ (∃ k, s.pc = .rearming k) → s.ring.cq ≠ [])
    (h : t.pc = s.pc ∧ t.ring.cq = s.ring.cq ++ [c]) : t.unhandled = s.unhandled ++ [c] := by
  rw [State.unhandled, State.unhandled, h.1, h.2]
  split
  · rfl
  · rfl
  · rfl
  · next hp => exact List.tail_append_of_ne_nil (hhere (Or.inr ⟨_, hp⟩))
  · next hp => exact List.tail_append_of_ne_nil (hhere (Or.inl hp))

theorem requests_eraseIdx {s : State} {k : Nat} {sqe : Sqe} (hk : s.ring.inFlight[k]? = some sqe) :
    (sqe :: (s.ring.published ++ s.ring.inFlight.eraseIdx k)).Perm s.requests := by
  have herase := Runs.cons_eraseIdx_perm hk
  exact List.perm_middle.symm.trans (herase.append_left _)

theorem step_counted {contents : Nat → List UInt8} {ids : List Nat} {s t : State} {a : Action}
    (h : step contents s a = some t) (hs : Counted ids s) : Counted ids t := by
  cases a with
  | poll =>
    obtain ⟨hpc, h⟩ := Option.ite_none_right_eq_some.mp h
    have hun : s.unhandled = s.ring.cq := by rw [State.unhandled, hpc]
    split at h
    · split at h
      · cases h
        exact hs
      · cases h
        refine hs.frame rfl rfl ?_ (by simp) (by simp)
        rw [hun]
        exact List.Perm.refl _
    · next hnum =>
      cases h
      refine hs.frame rfl rfl ?_ (by simp) fun _ => hnum
      rw [hun]
      exact List.Perm.refl _
  | handle =>
    obtain ⟨hpc, h⟩ := Option.ite_none_right_eq_some.mp h
    split at h
    · cases h
    · next c rest hcq =>
      split at h
      · next hneg =>
        cases h
        exact hs.handle hpc hcq rfl rfl (Or.inl rfl) (if_pos (Int32.le_of_lt hneg)).symm
      · next hneg =>
        split at h
        · next hpos =>
          cases h
          exact hs.handle hpc hcq rfl rfl (Or.inr ⟨_, rfl⟩)
            (if_neg (Int32.not_le.mpr hpos)).symm
        · next hpos =>
          cases h
          exact hs.handle hpc hcq rfl rfl (Or.inl rfl) (if_pos (Int32.not_lt.mp hpos)).symm
  | rearm =>
    simp only [step] at h
    split at h
    · next k hpc =>
      cases h
      obtain ⟨reserved, hring⟩ := setupRead_eq s.ring k (s.files k)
      rw [hring]
      have hun : s.unhandled = s.ring.cq.tail := by rw [State.unhandled, hpc]
      refine hs.frame rfl rfl ?_ (fun _ => hs.here (Or.inr ⟨k, hpc⟩)) (by simp)
      rw [hun]
      exact List.Perm.refl _
    · cases h
  | seen =>
    obtain ⟨hpc, ⟨⟩⟩ := Option.ite_none_right_eq_some.mp h
    have hun : s.unhandled = s.ring.cq.tail := by rw [State.unhandled, hpc]
    refine hs.frame rfl rfl ?_ (by simp) (by simp)
    rw [hun]
    exact List.Perm.refl _
  | take =>
    simp only [step] at h
    split at h
    · cases h
    · next sqe rest hpub =>
      cases h
      refine hs.frame rfl rfl (List.Perm.append_right _ (List.Perm.map _ ?_)) hs.here hs.done
      simp only [State.requests, hpub, ← List.append_assoc]
      exact List.perm_append_singleton sqe (rest ++ s.ring.inFlight)
  | complete k res =>
    simp only [step] at h
    split at h
    · cases h
    · next sqe hk =>
      split at h
      · cases h
        refine hs.frame rfl rfl ?_ (by simp) hs.done
        rw [State.unhandled_post hs.here (by exact ⟨rfl, rfl⟩), List.map_append,
          ← List.append_assoc]
        refine List.perm_append_comm.trans ?_
        rw [← List.append_assoc]
        exact ((requests_eraseIdx hk).map (·.userData)).append_right _
      · cases h

/-- When the loop ends every file has been counted out. -/
theorem Counted.ended_of_done {ids : List Nat} {s : State} (h : Counted ids s)
    (hpc : s.pc = .done) {k : Nat} (hk : k ∈ ids) :
    ∃ c ∈ s.handled, c.userData = k ∧ c.res ≤ 0 := by
  have hcount := h.count
  have hle : s.numFiles.toInt ≤ 0 := Int32.le_iff_toInt_le.mp (Int32.not_lt.mp (h.done hpc))
  have hsub : ((s.handled.filter (·.res ≤ 0)).map (·.userData)).Nodup :=
    (h.distinct.of_append_right).sublist (List.filter_sublist.map _)
  have hsubset : (s.handled.filter (·.res ≤ 0)).map (·.userData) ⊆ ids := by
    intro x hx
    refine h.tokens.subset (List.mem_append_right _ ?_)
    exact (List.filter_sublist.map _).subset hx
  have hall : ((s.handled.filter (·.res ≤ 0)).map (·.userData)).Perm ids := by
    refine (List.subperm_of_subset hsub hsubset).perm_of_length_le ?_
    rw [List.length_map]
    omega
  obtain ⟨c, hc, rfl⟩ := List.mem_map.mp (hall.symm.subset hk)
  obtain ⟨hmem, hres⟩ := List.mem_filter.mp hc
  exact ⟨c, hmem, rfl, of_decide_eq_true hres⟩

/-- The files with a request that the kernel has and has not completed, or with a
completion not yet seen. -/
def State.working (s : State) : List Nat :=
  s.requests.map (·.userData) ++ s.ring.cq.map (·.userData)

def State.Law (s : State) : Prop := s.numFiles.toInt = s.working.toFinset.card

instance (s : State) : Decidable s.Law := inferInstanceAs (Decidable (_ = _))

/-- Every file that is counted has one request with the kernel. -/
structure Armed (s : State) : Prop where
  pc : s.pc = .loop
  distinct : s.working.Nodup
  law : s.Law
  handled : s.handled = []

theorem Armed.counted {s : State} (h : Armed s) : Counted s.working s := by
  have hun : s.unhandled = s.ring.cq := by rw [State.unhandled, h.pc]
  have hlaw := h.law
  have hmax := s.numFiles.toInt_lt
  rw [State.Law, List.toFinset_card_of_nodup h.distinct] at hlaw
  refine ⟨h.distinct, by omega, ?_, ?_, by simp [h.pc], by simp [h.pc]⟩
  · rw [hun, h.handled]
    simp [State.working]
  · rw [hlaw, h.handled]
    simp

/-- One file whose read, of one byte, is with the kernel. -/
def oneFile : State :=
  start 1 (setFile (fun _ => ⟨0, 0, Page.zero⟩) 0 ⟨3, 0, Page.zero⟩)
    ⟨[], [readSqe 0 ⟨3, 0, Page.zero⟩], [], []⟩

theorem oneFile_armed : Armed oneFile := by
  constructor <;> decide

theorem spins_for_ever :
    myFopen true [some 3] (fun _ => ⟨0, 0, Page.zero⟩) =
      some (oneFile.numFiles, oneFile.files, oneFile.ring) ∧
    ∃ t, Runs.Reach (step fun _ => [65]) Runs.Any oneFile t ∧ t.pc = .loop ∧ 0 < t.numFiles ∧
      t.working = [] ∧ ¬ t.Law := by
  have hreach := Runs.reach_of_run [.take, .complete 0 1, .poll, .handle, .rearm, .seen]
    (fun _ _ _ => trivial) (rfl : Runs.run (step fun _ => [65]) oneFile _ = some _)
  exact ⟨rfl, _, hreach, rfl, by decide, rfl, by decide⟩

/-- At the top of the loop the count is right just if no completion so far has
delivered data. -/
theorem law_iff {contents : Nat → List UInt8} {s t : State} (hs : Armed s)
    (h : Runs.Reach (step contents) Runs.Any s t) (hpc : t.pc = .loop) :
    (t.Law ↔ ∀ c ∈ t.handled, c.res ≤ 0) ∧ (t.Law → 0 < t.numFiles → t.working ≠ []) := by
  have ht : Counted s.working t := h.invariant hs.counted fun _ _ _ _ hstep hu =>
    step_counted hstep hu
  have hun : t.unhandled = t.ring.cq := by rw [State.unhandled, hpc]
  have hdistinct := ht.distinct
  have hlen := ht.tokens.length_eq
  have hcount := ht.count
  have hfilter : (t.handled.filter (·.res ≤ 0)).length ≤ t.handled.length :=
    List.length_filter_le _ _
  rw [hun] at hdistinct hlen
  have hworking : t.working.toFinset.card = t.working.length :=
    List.toFinset_card_of_nodup hdistinct.of_append_left
  have hsplit : t.working.length + t.handled.length = s.working.length := by
    simp only [State.working, List.length_append, List.length_map] at hlen ⊢
    exact hlen
  constructor
  · rw [State.Law, hworking]
    have hall : (t.handled.filter (·.res ≤ 0)).length = t.handled.length ↔
        ∀ c ∈ t.handled, c.res ≤ 0 := by
      rw [List.length_filter_eq_length_iff]
      simp
    rw [← hall]
    omega
  · intro hlaw hpos he
    rw [State.Law, he] at hlaw
    have hnum : 0 < t.numFiles.toInt := Int32.lt_iff_toInt_lt.mp hpos
    simp at hlaw
    omega

theorem law_one_file :
    ∃ t, Runs.Reach (step fun _ => []) Runs.Any oneFile t ∧ t.handled = [⟨0, 0⟩] ∧
      (t.Law ↔ ∀ c ∈ t.handled, c.res ≤ 0) ∧ (t.Law → 0 < t.numFiles → t.working ≠ []) := by
  have hreach := Runs.reach_of_run [.take, .complete 0 0, .poll, .handle, .seen]
    (fun _ _ _ => trivial) (rfl : Runs.run (step fun _ => []) oneFile _ = some _)
  exact ⟨_, hreach, rfl, law_iff oneFile_armed hreach rfl⟩

end Polling

end IoUring
