import IoUring.CpRing
import IoUring.CpSpec
import IoUring.Poll

/-! Loops that are measured by the bytes still wanted, where the kernel decides how many
of them a turn brings: the copy loop of io_uring_cp.c and the read loop of
io_uring_poll.cpp. Results of 0 keep both going for ever. -/

namespace IoUring

namespace Cp

/-- Where turn `n` of the copy starts. The results of the reads stand at the even places of
`rs`, those of the writes at the odd ones. -/
def offsetAt (rs : Nat → Int32) (n : Nat) : Nat :=
  ∑ i ∈ Finset.range n, (rs (2 * i)).toInt.toNat

theorem offsetAt_succ (rs : Nat → Int32) (n : Nat) :
    offsetAt rs (n + 1) = offsetAt rs n + (rs (2 * n)).toInt.toNat := Finset.sum_range_succ _ _

/-- In turn `n` the kernel transfers no more than it is asked for, and a read no more than
the source has. -/
structure Possible (job : Job) (rs : Nat → Int32) (n : Nat) : Prop where
  read_le : (rs (2 * n)).toInt ≤ min 4096 (job.fileSize.toInt - offsetAt rs n)
  in_src : offsetAt rs n + (rs (2 * n)).toInt.toNat ≤ job.src.length
  write_le : (rs (2 * n + 1)).toInt ≤ min 4096 (job.fileSize.toInt - offsetAt rs n)

/-- Turn `n` is made, and both of its requests succeed. -/
structure Goes (job : Job) (rs : Nat → Int32) (n : Nat) : Prop where
  more : offsetAt rs n < job.fileSize.toInt
  read : ¬ rs (2 * n) < 0
  write : ¬ rs (2 * n + 1) < rs (2 * n)

structure Wants (job : Job) (rs : Nat → Int32) (k : Nat) (s : State) : Prop where
  more : offsetAt rs k < job.fileSize.toInt
  iovLen : s.iovLen.toInt = min 4096 (job.fileSize.toInt - offsetAt rs k)

/-- Where the state stands within turn `k`. -/
def Here (job : Job) (rs : Nat → Int32) (k : Nat) (s : State) : Prop :=
  match s.pc with
  | .loop => s.executed = 2 * k ∧ s.cqTail = s.cqHead
  | .enterRead =>
    Wants job rs k s ∧ s.executed = 2 * k ∧ s.cqTail = s.cqHead ∧ s.sqe.opcode = .readv ∧
      s.sqe.off = s.offset
  | .waitRead =>
    Wants job rs k s ∧ s.executed = 2 * k + 1 ∧ s.cqTail = s.cqHead + 1 ∧
      (s.cqe job).res = rs (2 * k)
  | .prepareWrite =>
    Wants job rs k s ∧ s.executed = 2 * k + 1 ∧ s.cqTail = s.cqHead ∧
      s.bytesRead = rs (2 * k) ∧ ¬ rs (2 * k) < 0
  | .enterWrite =>
    Wants job rs k s ∧ s.executed = 2 * k + 1 ∧ s.cqTail = s.cqHead ∧
      s.bytesRead = rs (2 * k) ∧ ¬ rs (2 * k) < 0 ∧ s.sqe.opcode = .writev
  | .waitWrite =>
    Wants job rs k s ∧ s.executed = 2 * k + 2 ∧ s.cqTail = s.cqHead + 1 ∧
      s.bytesRead = rs (2 * k) ∧ ¬ rs (2 * k) < 0 ∧ (s.cqe job).res = rs (2 * k + 1)
  | .done | .died _ => True

structure Tracks (job : Job) (rs : Nat → Int32) (k : Nat) (s : State) : Prop where
  offset : s.offset.toInt = offsetAt rs k
  here : Here job rs k s

theorem Possible.next {job : Job} {rs : Nat → Int32} {k : Nat} {s : State}
    (hp : Possible job rs k) (hoff : s.offset.toInt = offsetAt rs k) (hread : ¬ rs (2 * k) < 0) :
    (s.offset + (rs (2 * k)).toInt64).toInt = offsetAt rs (k + 1) := by
  have hle := hp.read_le
  have hmax := job.fileSize.toInt_lt
  have hnonneg : ¬ (rs (2 * k)).toInt < 0 := Int32.lt_iff_toInt_lt.not.mp hread
  rw [offsetAt_succ, Int64.toInt_add, Int32.toInt_toInt64, Int.bmod_eq_of_le] <;> omega

/-- One step comes closer to the end of the turn, or ends the copy, or ends a turn that
went well. -/
theorem Tracks.step {job : Job} {rs : Nat → Int32} {k : Nat} {s t : State} {a : Action}
    (h : step job s a = some t) (hok : Answered rs s a) (hs : Tracks job rs k s)
    (hp : offsetAt rs k < job.fileSize.toInt → Possible job rs k) :
    (Tracks job rs k t ∧ (t.pc.rank = 0 ∨ t.pc.rank + 1 = s.pc.rank)) ∨
      (Goes job rs k ∧ Tracks job rs (k + 1) t ∧ s.pc.rank = 1 ∧ t.pc.rank = 6) := by
  have hoff := hs.offset
  have hhere := hs.here
  rw [Here] at hhere
  cases a with
  | submitRead =>
    obtain ⟨hc, ⟨⟩⟩ := Option.ite_none_right_eq_some.mp h
    rw [hc.1] at hhere
    have hlt : s.offset.toInt < job.fileSize.toInt := Int64.lt_iff_toInt_lt.mp hc.2
    have hlen := chunk_toInt job (by omega) hlt
    rw [hoff] at hlen
    refine Or.inl ⟨⟨hoff, ⟨by omega, hlen⟩, hhere.1, hhere.2, rfl, rfl⟩, Or.inr ?_⟩
    rw [hc.1]
    rfl
  | exit =>
    obtain ⟨hc, ⟨⟩⟩ := Option.ite_none_right_eq_some.mp h
    exact Or.inl ⟨⟨hoff, trivial⟩, Or.inl rfl⟩
  | execute res =>
    simp only [Cp.step] at h
    split at h
    · next hpc =>
      rw [hpc] at hhere
      obtain ⟨hwants, hex, hempty, -, -⟩ := hhere
      obtain ⟨u, hu, rfl⟩ := Option.map_eq_some_iff.mp h
      obtain ⟨buffer, dst, rfl⟩ := execute_eq hu
      have hres : res = rs (2 * k) := hex ▸ hok res rfl
      have hcqe := congrArg Cqe.res (cqe_postCqe job res hempty)
      refine Or.inl ⟨⟨hoff, ⟨hwants.more, hwants.iovLen⟩, congrArg (· + 1) hex,
        congrArg (· + 1) hempty, hcqe.trans hres⟩, Or.inr ?_⟩
      rw [hpc]
      rfl
    · split at h
      · next hpc =>
        rw [hpc] at hhere
        obtain ⟨hwants, hex, hempty, hbytes, hread, -⟩ := hhere
        obtain ⟨u, hu, rfl⟩ := Option.map_eq_some_iff.mp h
        obtain ⟨buffer, dst, rfl⟩ := execute_eq hu
        have hres : res = rs (2 * k + 1) := hex ▸ hok res rfl
        have hcqe := congrArg Cqe.res (cqe_postCqe job res hempty)
        refine Or.inl ⟨⟨hoff, ⟨hwants.more, hwants.iovLen⟩, congrArg (· + 1) hex,
          congrArg (· + 1) hempty, hbytes, hread, hcqe.trans hres⟩, Or.inr ?_⟩
        rw [hpc]
        rfl
      · cases h
  | reapRead =>
    obtain ⟨hc, h⟩ := Option.ite_none_right_eq_some.mp h
    rw [hc.1] at hhere
    obtain ⟨hwants, hex, hposted, hres⟩ := hhere
    split at h
    · cases h
      exact Or.inl ⟨⟨hoff, trivial⟩, Or.inl rfl⟩
    · next hread =>
      cases h
      rw [hres] at hread
      refine Or.inl ⟨⟨hoff, ⟨hwants.more, hwants.iovLen⟩, hex, hposted, hres, hread⟩, Or.inr ?_⟩
      rw [hc.1]
      rfl
  | submitWrite =>
    obtain ⟨hc, ⟨⟩⟩ := Option.ite_none_right_eq_some.mp h
    rw [hc] at hhere
    obtain ⟨hwants, hex, hempty, hbytes, hread⟩ := hhere
    refine Or.inl ⟨⟨hoff, ⟨hwants.more, hwants.iovLen⟩, hex, hempty, hbytes, hread, rfl⟩,
      Or.inr ?_⟩
    rw [hc]
    rfl
  | reapWrite =>
    obtain ⟨hc, h⟩ := Option.ite_none_right_eq_some.mp h
    rw [hc.1] at hhere
    obtain ⟨hwants, hex, hposted, hbytes, hread, hres⟩ := hhere
    split at h
    · cases h
      exact Or.inl ⟨⟨hoff, trivial⟩, Or.inl rfl⟩
    · next hwrite =>
      cases h
      rw [hres, hbytes] at hwrite
      have hnext := (hp hwants.more).next hoff hread
      rw [← hbytes] at hnext
      refine Or.inr ⟨⟨hwants.more, hread, hwrite⟩, ⟨hnext, hex, hposted⟩, ?_, rfl⟩
      rw [hc.1]
      rfl

theorem Tracks.progress {job : Job} {rs : Nat → Int32} {k : Nat} {s : State}
    (hs : Tracks job rs k s) (hgoes : Goes job rs k) (hp : Possible job rs k)
    (hrank : s.pc.rank ≠ 0) :
    ∃ a t, Answered rs s a ∧ Cp.step job s a = some t ∧ t.pc.rank ≠ 0 := by
  have hoff := hs.offset
  have hhere := hs.here
  have hother : ∀ a, (∀ res, a ≠ .execute res) → Answered rs s a := fun a ha res he =>
    absurd he (ha res)
  have hne : ∀ x : UInt32, x ≠ x + 1 := fun x => by grind
  rw [Here] at hhere
  cases hpc : s.pc with
  | loop =>
    have hlt : s.offset < job.fileSize := by
      rw [Int64.lt_iff_toInt_lt, hoff]
      exact hgoes.more
    exact ⟨.submitRead, _, hother _ (by simp), if_pos ⟨hpc, hlt⟩, by simp [Pc.rank]⟩
  | enterRead =>
    rw [hpc] at hhere
    obtain ⟨hwants, hex, -, hop, hsqe⟩ := hhere
    have hanswer : Answered rs s (.execute (rs (2 * k))) := by
      rintro res ⟨⟩
      rw [hex]
    have hfit : (rs (2 * k)).toInt ≤ s.iovLen.toInt := by
      rw [hwants.iovLen]
      exact hp.read_le
    have hsrc : s.sqe.off.toInt.toNat + (rs (2 * k)).toInt.toNat ≤ job.src.length := by
      rw [hsqe, hoff]
      exact hp.in_src
    have hstep : Cp.step job s (.execute (rs (2 * k))) =
        (execute job (rs (2 * k)) s).map fun s => { s with pc := .waitRead } := if_pos hpc
    rw [execute_readv hop hgoes.read hfit hsrc] at hstep
    exact ⟨_, _, hanswer, hstep, by simp [Pc.rank]⟩
  | waitRead =>
    rw [hpc] at hhere
    obtain ⟨-, -, hposted, hres⟩ := hhere
    have hcq : s.cqHead ≠ s.cqTail := by
      rw [hposted]
      exact hne _
    have hread : ¬ (s.cqe job).res < 0 := by
      rw [hres]
      exact hgoes.read
    exact ⟨.reapRead, _, hother _ (by simp),
      by rw [Cp.step, if_pos ⟨hpc, hcq⟩, if_neg hread], by simp [Pc.rank]⟩
  | prepareWrite =>
    exact ⟨.submitWrite, _, hother _ (by simp), if_pos hpc, by simp [Pc.rank]⟩
  | enterWrite =>
    rw [hpc] at hhere
    obtain ⟨hwants, hex, -, -, -, hop⟩ := hhere
    have hanswer : Answered rs s (.execute (rs (2 * k + 1))) := by
      rintro res ⟨⟩
      rw [hex]
    have hfit : (rs (2 * k + 1)).toInt ≤ s.iovLen.toInt := by
      rw [hwants.iovLen]
      exact hp.write_le
    have hnonneg : ¬ rs (2 * k + 1) < 0 := by
      have hread := hgoes.read
      have hwrite := hgoes.write
      rw [Int32.lt_iff_toInt_lt] at *
      omega
    have hstep : Cp.step job s (.execute (rs (2 * k + 1))) =
        (execute job (rs (2 * k + 1)) s).map fun s => { s with pc := .waitWrite } := by
      simp only [Cp.step, hpc, reduceCtorEq, if_false, if_true]
    rw [execute_writev hop hnonneg hfit] at hstep
    exact ⟨_, _, hanswer, hstep, by simp [Pc.rank]⟩
  | waitWrite =>
    rw [hpc] at hhere
    obtain ⟨-, -, hposted, hbytes, -, hres⟩ := hhere
    have hcq : s.cqHead ≠ s.cqTail := by
      rw [hposted]
      exact hne _
    have hwrite : ¬ (s.cqe job).res < s.bytesRead := by
      rw [hres, hbytes]
      exact hgoes.write
    exact ⟨.reapWrite, _, hother _ (by simp),
      by rw [Cp.step, if_pos ⟨hpc, hcq⟩, if_neg hwrite], by simp [Pc.rank]⟩
  | done => exact absurd (congrArg Pc.rank hpc) hrank
  | died msg => exact absurd (congrArg Pc.rank hpc) hrank

theorem start_tracks {job : Job} {rs : Nat → Int32} (buffer : Page) (cqes : UInt32 → Cqe) :
    Tracks job rs 0 (start buffer cqes) := ⟨rfl, rfl, rfl⟩

theorem rank_ne_zero {job : Job} {s t : State} {a : Action} (h : step job s a = some t) :
    s.pc.rank ≠ 0 := by
  rcases step_rank h with ⟨-, hlt⟩ | ⟨hpc, -⟩
  · omega
  · simp [hpc, Pc.rank]

/-- The copy goes on for ever exactly when every turn goes well and leaves something to
copy. -/
theorem copy_halts_iff {job : Job} {rs : Nat → Int32} (buffer : Page) (cqes : UInt32 → Cqe)
    (hp : ∀ n, offsetAt rs n < job.fileSize.toInt → Possible job rs n) :
    Runs.Halts (step job) (Answered rs) (start buffer cqes) ↔ ∃ n, ¬ Goes job rs n := by
  constructor
  · intro hhalts
    by_contra hall
    push Not at hall
    refine Runs.not_halts_of_progress (I := fun s => (∃ k, Tracks job rs k s) ∧ s.pc.rank ≠ 0)
      ⟨⟨0, start_tracks buffer cqes⟩, by simp [start, Pc.rank]⟩ ?_ hhalts
    rintro s ⟨⟨k, hs⟩, hrank⟩
    obtain ⟨a, t, hok, hstep, hrank'⟩ := hs.progress (hall k) (hp k (hall k).more) hrank
    refine ⟨t, ⟨a, hok, hstep⟩, ?_, hrank'⟩
    rcases hs.step hstep hok (hp k) with ⟨ht, -⟩ | ⟨-, ht, -⟩
    · exact ⟨k, ht⟩
    · exact ⟨k + 1, ht⟩
  · rintro ⟨n, hn⟩ ⟨f, h0, hf⟩
    -- the number of steps taken gives the turn, and turn `n` is never passed
    have hsteps : ∀ j, ∃ k, Tracks job rs k (f j) ∧ k ≤ n ∧
        6 * k + 6 = j + (f j).pc.rank := by
      intro j
      induction j with
      | zero =>
        refine ⟨0, h0 ▸ start_tracks buffer cqes, Nat.zero_le _, ?_⟩
        rw [h0]
        rfl
      | succ j ih =>
        obtain ⟨k, hs, hle, hcount⟩ := ih
        obtain ⟨a, hok, hstep⟩ := hf j
        obtain ⟨b, -, hnext⟩ := hf (j + 1)
        have halive := rank_ne_zero hnext
        rcases hs.step hstep hok (hp k) with ⟨ht, hrank⟩ | ⟨hgoes, ht, hlast, hfirst⟩
        · exact ⟨k, ht, hle, by omega⟩
        · have hne : k ≠ n := fun he => hn (he ▸ hgoes)
          exact ⟨k + 1, ht, by omega, by omega⟩
    obtain ⟨k, -, hle, hcount⟩ := hsteps (6 * n + 6)
    obtain ⟨b, -, hnext⟩ := hf (6 * n + 6)
    have halive := rank_ne_zero hnext
    omega

theorem not_goes_iff {job : Job} {rs : Nat → Int32} {n : Nat} :
    ¬ Goes job rs n ↔
      job.fileSize.toInt ≤ offsetAt rs n ∨ rs (2 * n) < 0 ∨ rs (2 * n + 1) < rs (2 * n) := by
  rw [← not_lt, or_iff_not_imp_left, or_iff_not_imp_left, not_not]
  constructor
  · intro h hmore hread
    by_contra hwrite
    exact h ⟨hmore, hread, hwrite⟩
  · intro h hgoes
    exact hgoes.write (h hgoes.more hgoes.read)

end Cp

open SingleVec in
/-- Both loops end exactly when the results add up to what is wanted, or one is an error. -/
theorem loops_end_iff (answers : Nat → Answers) (h : Handle) (ptr : Nat → UInt8)
    (size count : UInt64) (job : Cp.Job) (rs : Nat → Int32) (buffer : Page)
    (cqes : UInt32 → Cp.Cqe) :
    ((∃ turns e, Poll.freadLoop turns answers (Poll.entry h ptr (size * count)) = some e) ↔
        ∃ n, ¬ (answers n).Succeeds ∨ (size * count).toNat ≤ Poll.brought answers n) ∧
      ((∀ n, Cp.offsetAt rs n < job.fileSize.toInt → Cp.Possible job rs n) →
        (Runs.Halts (Cp.step job) (Cp.Answered rs) (Cp.start buffer cqes) ↔
          ∃ n, job.fileSize.toInt ≤ Cp.offsetAt rs n ∨ rs (2 * n) < 0 ∨
            rs (2 * n + 1) < rs (2 * n))) := by
  refine ⟨Poll.freadLoop_ends_iff, ?_⟩
  intro hp
  rw [Cp.copy_halts_iff buffer cqes hp]
  exact exists_congr fun n => Cp.not_goes_iff

theorem possible_of_zero (src : List UInt8) (fileSize : Int64) (n : Nat) :
    Cp.offsetAt (fun _ => 0) n = 0 ∧
      (0 < fileSize.toInt → Cp.Possible ⟨src, fileSize, 2, 4⟩ (fun _ => 0) n) := by
  have hzero : Cp.offsetAt (fun _ => 0) n = 0 := by simp [Cp.offsetAt]
  refine ⟨hzero, fun hpos => ?_⟩
  have hnone : (0 : Int32).toInt = 0 := rfl
  refine ⟨?_, ?_, ?_⟩
  · rw [hzero, hnone]
    dsimp only
    omega
  · rw [hzero, hnone]
    exact Nat.zero_le _
  · rw [hzero, hnone]
    dsimp only
    omega

open SingleVec in
/-- An empty file for the one loop, and for the other a source cut to nothing after its
size was taken. -/
theorem nothing_for_ever :
    (¬ ∃ turns e, Poll.freadLoop turns (fun _ => serving [])
        (Poll.entry ⟨Buffer.zero, 0⟩ (fun _ => 0) (1 * 1)) = some e) ∧
      ¬ Runs.Halts (Cp.step ⟨[], 1, 2, 4⟩) (Cp.Answered fun _ => 0)
        (Cp.start Page.zero fun _ => ⟨0, 0⟩) := by
  constructor
  · rw [Poll.freadLoop_ends_iff]
    rintro ⟨n, hfail | hall⟩
    · exact hfail (serving_succeeds [])
    · have hcount : (serving []).count = 0 := rfl
      simp only [Poll.brought, hcount, Nat.zero_min, Finset.sum_const_zero] at hall
      revert hall
      decide
  · rw [Cp.copy_halts_iff _ _ fun n _ => (possible_of_zero [] 1 n).2 (by decide)]
    rintro ⟨n, hn⟩
    refine hn ⟨?_, by decide, by decide⟩
    rw [(possible_of_zero [] 1 n).1]
    decide

open SingleVec in
theorem one_byte_ends :
    ((∃ turns e, Poll.freadLoop turns (fun _ => serving [65])
        (Poll.entry ⟨Buffer.zero, 0⟩ (fun _ => 0) (1 * 1)) = some e) ↔
      ∃ n, ¬ (serving [65]).Succeeds ∨
        ((1 : UInt64) * 1).toNat ≤ Poll.brought (fun _ => serving [65]) n) ∧
    (Runs.Halts (Cp.step ⟨[], 1, 2, 4⟩) (Cp.Answered fun _ => 0)
        (Cp.start Page.zero fun _ => ⟨0, 0⟩) ↔
      ∃ n, (1 : Int64).toInt ≤ Cp.offsetAt (fun _ => 0) n ∨ (0 : Int32) < 0 ∨ (0 : Int32) < 0) :=
  have h := loops_end_iff (fun _ => serving [65]) ⟨Buffer.zero, 0⟩ (fun _ => 0) 1 1
    ⟨[], 1, 2, 4⟩ (fun _ => 0) Page.zero (fun _ => ⟨0, 0⟩)
  ⟨h.1, h.2 fun n _ => (possible_of_zero [] 1 n).2 (by decide)⟩

end IoUring
