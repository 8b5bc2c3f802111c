import IoUring.Cp

/-! The submission ring of io_uring_cp.c. The program keeps the tail within the
number of entries while the head of the kernel runs freely, so the two differ by
the number of requests under way until the tail first comes round. -/

namespace IoUring

namespace Cp

/-- `tail - head` is what the kernel has not taken, and the ring holds that many. -/
def State.Law (job : Job) (s : State) : Prop :=
  (s.sqTail - s.sqHead).toNat = s.unconsumed ∧ s.unconsumed ≤ job.sqEntries.toNat

/-- The answers of the kernel are `rs`, in order. -/
def Answered (rs : Nat → Int32) (s : State) (a : Action) : Prop :=
  ∀ res, a = .execute res → res = rs s.executed

/-- No second request is made. -/
def First (job : Job) (s : State) : Prop :=
  match s.pc with
  | .loop =>
    s.sqTail = 0 ∧ s.sqHead = 0 ∧ s.unconsumed = 0 ∧ s.executed = 0 ∧ s.offset = 0 ∧
      s.cqTail = s.cqHead
  | .enterRead =>
    s.sqTail = 1 ∧ s.sqHead = 0 ∧ s.unconsumed = 1 ∧ s.executed = 0 ∧ 0 < job.fileSize ∧
      s.cqTail = s.cqHead
  | .waitRead => s.sqTail = 1 ∧ s.sqHead = 1 ∧ s.unconsumed = 0 ∧ (s.cqe job).res < 0
  | .done | .died _ => s.sqTail = s.sqHead ∧ s.unconsumed = 0
  | .prepareWrite | .enterWrite | .waitWrite => False

theorem First.law {job : Job} {s : State} (hentries : job.sqEntries = 2) (h : First job s) :
    s.Law job := by
  have htwo : job.sqEntries.toNat = 2 := by
    rw [hentries]
    rfl
  rw [First] at h
  rw [State.Law, htwo]
  split at h
  · obtain ⟨htail, hhead, hun, -⟩ := h
    simp [htail, hhead, hun]
  · obtain ⟨htail, hhead, hun, -⟩ := h
    simp [htail, hhead, hun]
  · obtain ⟨htail, hhead, hun, -⟩ := h
    simp [htail, hhead, hun]
  · simp [h.1, h.2]
  · simp [h.1, h.2]
  · exact h.elim
  · exact h.elim
  · exact h.elim

theorem First.step {job : Job} {rs : Nat → Int32} (hentries : job.sqEntries = 2)
    (hstop : job.fileSize ≤ 0 ∨ rs 0 < 0) {s t : State} {a : Action} (h : step job s a = some t)
    (hok : Answered rs s a) (hs : First job s) : First job t := by
  rw [First] at hs
  cases a with
  | submitRead =>
    obtain ⟨hc, ⟨⟩⟩ := Option.ite_none_right_eq_some.mp h
    rw [hc.1] at hs
    obtain ⟨htail, hhead, hun, hex, hoff, hcq⟩ := hs
    have hlt := hc.2
    rw [hoff] at hlt
    simp [First, publish, htail, hhead, hun, hex, hentries, hlt, hcq]
  | exit =>
    obtain ⟨hc, ⟨⟩⟩ := Option.ite_none_right_eq_some.mp h
    rw [hc.1] at hs
    exact ⟨hs.1.trans hs.2.1.symm, hs.2.2.1⟩
  | execute res =>
    simp only [Cp.step] at h
    split at h
    · next hpc =>
      rw [hpc] at hs
      obtain ⟨htail, hhead, hun, hex, hpos, hcq⟩ := hs
      have hres : res = rs 0 := hex ▸ hok res rfl
      have hneg : res < 0 := by
        rcases hstop with hle | hlt
        · rw [Int64.le_iff_toInt_le] at hle
          rw [Int64.lt_iff_toInt_lt] at hpos
          omega
        · exact hres ▸ hlt
      obtain ⟨u, hu, rfl⟩ := Option.map_eq_some_iff.mp h
      rw [execute] at hu
      simp only [if_pos hneg, Option.some.injEq] at hu
      subst hu
      have hcqe := congrArg Cqe.res (cqe_postCqe job res hcq)
      exact ⟨htail, by simp [postCqe, hhead], by simp [postCqe, hun], hcqe ▸ hneg⟩
    · split at h
      · next hpc =>
        rw [hpc] at hs
        exact hs.elim
      · cases h
  | reapRead =>
    obtain ⟨hc, h⟩ := Option.ite_none_right_eq_some.mp h
    rw [hc.1] at hs
    obtain ⟨htail, hhead, hun, hneg⟩ := hs
    rw [if_pos hneg] at h
    cases h
    exact ⟨htail.trans hhead.symm, hun⟩
  | submitWrite =>
    obtain ⟨hc, h⟩ := Option.ite_none_right_eq_some.mp h
    rw [hc] at hs
    exact hs.elim
  | reapWrite =>
    obtain ⟨hc, h⟩ := Option.ite_none_right_eq_some.mp h
    rw [hc.1] at hs
    exact hs.elim

theorem second_request (job : Job) (rs : Nat → Int32) (hentries : job.sqEntries = 2)
    (hpos : 0 < job.fileSize) (hread : ¬ rs 0 < 0)
    (hle : (rs 0).toInt ≤ min 4096 job.fileSize.toInt) (hsrc : (rs 0).toInt ≤ job.src.length)
    (buffer : Page) (cqes : UInt32 → Cqe) :
    ∃ s, Runs.Reach (step job) (Answered rs) (start buffer cqes) s ∧
      s.sqTail = 0 ∧ s.sqHead = 1 ∧ s.unconsumed = 1 := by
  have hother : ∀ s a, (∀ res, a ≠ .execute res) → Answered rs s a := fun s a ha res he =>
    absurd he (ha res)
  have hzero : (start buffer cqes).offset = 0 := rfl
  obtain ⟨s₁, h₁, hpc₁, hop, hoff, hiov, htail₁, hhead₁, hun₁, hex, hcq⟩ :
      ∃ s, step job (start buffer cqes) .submitRead = some s ∧ s.pc = .enterRead ∧
        s.sqe.opcode = .readv ∧ s.sqe.off = 0 ∧
        s.iovLen = (if job.fileSize - 0 > fileBlockSize then fileBlockSize else job.fileSize - 0) ∧
        s.sqTail = 1 ∧ s.sqHead = 0 ∧ s.unconsumed = 1 ∧ s.executed = 0 ∧ s.cqTail = s.cqHead := by
    refine ⟨_, if_pos ⟨rfl, hpos⟩, rfl, rfl, rfl, rfl, ?_, rfl, rfl, rfl, rfl⟩
    change (0 + 1) % job.sqEntries = 1
    rw [hentries]
    decide
  have hfit : (rs 0).toInt ≤ s₁.iovLen.toInt := by
    have h4096 : fileBlockSize.toInt = 4096 := rfl
    rw [hiov, Int64.sub_zero]
    split <;> omega
  obtain ⟨s₂, h₂, hpc₂, hres, htail₂, hhead₂, hun₂, hcq₂⟩ :
      ∃ s, step job s₁ (.execute (rs 0)) = some s ∧ s.pc = .waitRead ∧
        (s.cqe job).res = rs 0 ∧ s.sqTail = 1 ∧ s.sqHead = 1 ∧ s.unconsumed = 0 ∧
        s.cqTail = s.cqHead + 1 := by
    have hshort : s₁.sqe.off.toInt.toNat + (rs 0).toInt.toNat ≤ job.src.length := by
      rw [hoff, Int64.toInt_zero]
      omega
    have hcqe := congrArg Cqe.res (cqe_postCqe job (rs 0) hcq)
    have hstep : step job s₁ (.execute (rs 0)) =
        some { postCqe job (rs 0) s₁ with
          buffer := s₁.buffer.fill
            ((job.src.drop s₁.sqe.off.toInt.toNat).take (rs 0).toInt.toNat)
          pc := .waitRead } := by
      simp only [step, if_pos hpc₁, execute_readv hop hread hfit hshort, Option.map_some]
    refine ⟨_, hstep, rfl, hcqe, htail₁, ?_, ?_, ?_⟩
    · simp [postCqe, hhead₁]
    · simp [postCqe, hun₁]
    · simp [postCqe, hcq]
  obtain ⟨s₃, h₃, hpc₃, htail₃, hhead₃, hun₃⟩ :
      ∃ s, step job s₂ .reapRead = some s ∧ s.pc = .prepareWrite ∧ s.sqTail = 1 ∧ s.sqHead = 1 ∧
        s.unconsumed = 0 := by
    have hne : s₂.cqHead ≠ s₂.cqTail := by
      rw [hcq₂]
      grind
    have hstep : step job s₂ .reapRead =
        some { s₂ with pc := .prepareWrite, bytesRead := rs 0, cqHead := s₂.cqHead + 1 } := by
      simp only [step, if_pos (And.intro hpc₂ hne), hres, if_neg hread]
    exact ⟨_, hstep, rfl, htail₂, hhead₂, hun₂⟩
  obtain ⟨s₄, h₄, htail₄, hhead₄, hun₄⟩ :
      ∃ s, step job s₃ .submitWrite = some s ∧ s.sqTail = 0 ∧ s.sqHead = 1 ∧ s.unconsumed = 1 := by
    refine ⟨_, if_pos hpc₃, ?_, hhead₃, by simp [publish, hun₃]⟩
    simp only [publish, htail₃, hentries]
    decide
  refine ⟨s₄, ?_, htail₄, hhead₄, hun₄⟩
  have hexec : Answered rs s₁ (.execute (rs 0)) := by
    rintro res ⟨⟩
    rw [hex]
  exact (((Relation.ReflTransGen.single ⟨_, hother _ _ (by simp), h₁⟩).tail ⟨_, hexec, h₂⟩).tail
    ⟨_, hother _ _ (by simp), h₃⟩).tail ⟨_, hother _ _ (by simp), h₄⟩

/-- The write of a file of one byte. -/
theorem tail_behind_head :
    ∃ s, Runs.Reach (step ⟨[65], 1, 2, 4⟩) (Answered fun _ => 1)
      (start Page.zero fun _ => ⟨0, 0⟩) s ∧ ¬ s.Law ⟨[65], 1, 2, 4⟩ := by
  obtain ⟨s, hreach, htail, hhead, hun⟩ :=
    second_request ⟨[65], 1, 2, 4⟩ (fun _ => 1) rfl (by decide) (by decide)
      (by decide) (by decide) Page.zero fun _ => ⟨0, 0⟩
  refine ⟨s, hreach, ?_⟩
  rintro ⟨hdiff, -⟩
  rw [htail, hhead, hun] at hdiff
  exact absurd hdiff (by decide)

/-- The law holds in every state of the copy just if no second request is made,
because the file is empty or the first read fails. -/
theorem pending_law_iff (job : Job) (rs : Nat → Int32) (hentries : job.sqEntries = 2)
    (hfirst : 0 < job.fileSize →
      (rs 0).toInt ≤ min 4096 job.fileSize.toInt ∧ (rs 0).toInt ≤ job.src.length)
    (buffer : Page) (cqes : UInt32 → Cqe) :
    (∀ s, Runs.Reach (step job) (Answered rs) (start buffer cqes) s → s.Law job) ↔
      job.fileSize ≤ 0 ∨ rs 0 < 0 := by
  constructor
  · intro hlaw
    by_contra hnot
    obtain ⟨hsize, hread⟩ := not_or.mp hnot
    have hpos : 0 < job.fileSize := Int64.not_le.mp hsize
    obtain ⟨hle, hsrc⟩ := hfirst hpos
    obtain ⟨s, hreach, htail, hhead, hun⟩ :=
      second_request job rs hentries hpos hread hle hsrc buffer cqes
    have hdiff := (hlaw s hreach).1
    rw [htail, hhead, hun] at hdiff
    exact absurd hdiff (by decide)
  · intro hstop s hreach
    have hfirst : First job (start buffer cqes) := ⟨rfl, rfl, rfl, rfl, rfl, rfl⟩
    have hs : First job s := hreach.invariant hfirst fun _ _ _ hok hstep hu =>
      hu.step hentries hstop hstep hok
    exact hs.law hentries

theorem pending_law_one_byte :
    (∀ s, Runs.Reach (step ⟨[65], 1, 2, 4⟩) (Answered fun _ => -5)
      (start Page.zero fun _ => ⟨0, 0⟩) s → s.Law ⟨[65], 1, 2, 4⟩) ↔
        (1 : Int64) ≤ 0 ∨ (-5 : Int32) < 0 :=
  pending_law_iff ⟨[65], 1, 2, 4⟩ (fun _ => -5) rfl
    (fun _ => ⟨by decide, by decide⟩) _ _

end Cp

end IoUring
