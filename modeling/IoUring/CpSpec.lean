import IoUring.Cp

/-! The copy of io_uring_cp.c is exact although short reads let stale bytes reach
the destination: they lie within the source's length and are written over later. -/

namespace IoUring

namespace Cp

theorem pwrite_eq {dst data : List UInt8} {off : Nat} (h : off ≤ dst.length) :
    pwrite dst off data = dst.take off ++ data ++ dst.drop (off + data.length) := by
  rw [pwrite]
  split
  · next hnil => simp [hnil]
  · rw [Nat.sub_eq_zero_of_le h, List.replicate_zero, List.append_nil]

theorem length_pwrite {dst data : List UInt8} {off : Nat} (h : off ≤ dst.length) :
    (pwrite dst off data).length = max dst.length (off + data.length) := by
  simp only [pwrite_eq h, List.length_append, List.length_take, List.length_drop]
  omega

theorem take_pwrite {dst data : List UInt8} {off k : Nat} (h : off ≤ dst.length)
    (hk : k ≤ data.length) :
    (pwrite dst off data).take (off + k) = dst.take off ++ data.take k := by
  have hlen : (dst.take off).length = off := by
    rw [List.length_take]
    omega
  rw [pwrite_eq h, List.append_assoc, List.take_append, hlen, Nat.add_sub_cancel_left,
    List.take_of_length_le (by omega), List.take_append_of_le_length hk]

/-- The part of the destination before `offset` is final, and nothing lies behind
the end of the source. -/
structure Copied (job : Job) (offset : Nat) (dst : List UInt8) : Prop where
  eq : dst.take offset = job.src.take offset
  le_length : offset ≤ dst.length
  length_le : dst.length ≤ job.src.length

structure Asked (job : Job) (s : State) : Prop where
  more : s.offset.toInt < job.src.length
  iovLen : s.iovLen.toInt = min 4096 (job.src.length - s.offset.toInt)
  off : s.sqe.off = s.offset

/-- The buffer starts with `n` bytes of the source. -/
structure Loaded (job : Job) (s : State) (n : Int32) : Prop where
  pos : 1 ≤ n.toInt
  le : n.toInt ≤ s.iovLen.toInt
  eq : s.buffer.bytes.take n.toInt.toNat =
    (job.src.drop s.offset.toInt.toNat).take n.toInt.toNat

def At (job : Job) (s : State) : Prop :=
  match s.pc with
  | .loop => s.cqTail = s.cqHead
  | .enterRead => Asked job s ∧ s.sqe.opcode = .readv ∧ s.cqTail = s.cqHead
  | .waitRead => Asked job s ∧ Loaded job s (s.cqe job).res ∧ s.cqTail = s.cqHead + 1
  | .prepareWrite => Asked job s ∧ Loaded job s s.bytesRead ∧ s.cqTail = s.cqHead
  | .enterWrite =>
    Asked job s ∧ Loaded job s s.bytesRead ∧ s.sqe.opcode = .writev ∧ s.cqTail = s.cqHead
  | .waitWrite =>
    Asked job s ∧ Loaded job s s.bytesRead ∧ s.bytesRead.toInt ≤ (s.cqe job).res.toInt ∧
      Copied job (s.offset.toInt.toNat + s.bytesRead.toInt.toNat) s.dst ∧ s.cqTail = s.cqHead + 1
  | .done => s.offset.toInt = job.src.length
  | .died _ => False

structure Inv (job : Job) (s : State) : Prop where
  nonneg : 0 ≤ s.offset.toInt
  copied : Copied job s.offset.toInt.toNat s.dst
  here : At job s

/-- Reads return at least one byte and writes what was read, and neither more
than was asked for. -/
def InRange (s : State) (a : Action) : Prop :=
  ∀ res, a = .execute res →
    (s.pc = .enterRead → 1 ≤ res.toInt ∧ res.toInt ≤ s.iovLen.toInt) ∧
      (s.pc = .enterWrite → s.bytesRead.toInt ≤ res.toInt ∧ res.toInt ≤ s.iovLen.toInt)

theorem start_inv {job : Job} (buffer : Page) (cqes : UInt32 → Cqe) :
    Inv job (start buffer cqes) :=
  ⟨Int.le_refl _, ⟨rfl, Nat.le_refl _, Nat.zero_le _⟩, rfl⟩

theorem chunk_toInt (job : Job) {s : State} (h0 : 0 ≤ s.offset.toInt)
    (hlt : s.offset.toInt < job.fileSize.toInt) :
    (if job.fileSize - s.offset > fileBlockSize then fileBlockSize
      else job.fileSize - s.offset).toInt = min 4096 (job.fileSize.toInt - s.offset.toInt) := by
  have hmax := job.fileSize.toInt_lt
  have hsub : (job.fileSize - s.offset).toInt = job.fileSize.toInt - s.offset.toInt := by
    rw [Int64.toInt_sub, Int.bmod_eq_of_le] <;> omega
  have hchunk := (toInt_chunk (n := job.fileSize - s.offset) (Or.inr rfl) (by omega)).1
  rw [hsub, Int.min_comm] at hchunk
  exact hchunk

theorem execute_cases {job : Job} {res : Int32} {s t : State} (h : execute job res s = some t)
    (hres : 0 ≤ res.toInt) :
    res.toInt ≤ s.iovLen.toInt ∧
      ((s.sqe.opcode = .readv ∧ s.sqe.off.toInt.toNat + res.toInt.toNat ≤ job.src.length ∧
        t = { postCqe job res s with
          buffer := s.buffer.fill ((job.src.drop s.sqe.off.toInt.toNat).take res.toInt.toNat) }) ∨
      (s.sqe.opcode = .writev ∧
        t = { postCqe job res s with
          dst := pwrite s.dst s.sqe.off.toInt.toNat (s.buffer.bytes.take res.toInt.toNat) })) := by
  have hnot : ¬ res < 0 := by
    rw [Int32.lt_iff_toInt_lt]
    exact not_lt.mpr hres
  rw [execute] at h
  simp only [if_neg hnot] at h
  split at h
  · cases h
  · next hle =>
    refine ⟨by omega, ?_⟩
    cases hop : s.sqe.opcode with
    | readv =>
      simp only [hop] at h
      split at h
      · cases h
      · next hsrc =>
        cases h
        exact Or.inl ⟨rfl, by omega, rfl⟩
    | writev =>
      simp only [hop] at h
      cases h
      exact Or.inr ⟨rfl, rfl⟩

theorem Loaded.of_read {job : Job} {s : State} {n : Int32} (hpos : 1 ≤ n.toInt)
    (hle : n.toInt ≤ s.iovLen.toInt) (hlen : s.iovLen.toInt ≤ 4096)
    (hsrc : s.offset.toInt.toNat + n.toInt.toNat ≤ job.src.length) {t : State}
    (hiov : t.iovLen = s.iovLen) (hoff : t.offset = s.offset)
    (hbuf : t.buffer = s.buffer.fill ((job.src.drop s.offset.toInt.toNat).take n.toInt.toNat)) :
    Loaded job t n := by
  have hdata : ((job.src.drop s.offset.toInt.toNat).take n.toInt.toNat).length = n.toInt.toNat := by
    rw [List.length_take, List.length_drop]
    omega
  refine ⟨hpos, by rw [hiov]; exact hle, ?_⟩
  rw [hbuf, hoff]
  have hfill := Page.fill_take s.buffer (le_of_eq_of_le hdata (by omega))
  rwa [hdata] at hfill

/-- A write of at least what was read settles that much more of the destination. -/
theorem Copied.write {job : Job} {off n m : Nat} {dst : List UInt8} {buffer : Page}
    (h : Copied job off dst) (hn : buffer.bytes.take n = (job.src.drop off).take n) (hnm : n ≤ m)
    (hm : m ≤ 4096) (hsrc : off + m ≤ job.src.length) :
    Copied job (off + n) (pwrite dst off (buffer.bytes.take m)) := by
  have hdata : (buffer.bytes.take m).length = m := by
    rw [List.length_take, buffer.length_eq]
    omega
  have hlen : (pwrite dst off (buffer.bytes.take m)).length = max dst.length (off + m) := by
    rw [length_pwrite h.le_length, hdata]
  have := h.length_le
  refine ⟨?_, by omega, by omega⟩
  rw [take_pwrite h.le_length (by omega), List.take_take, Nat.min_eq_left hnm, h.eq, hn,
    ← List.take_add]

theorem Copied.mono {job : Job} {off off' : Nat} {dst : List UInt8} (h : Copied job off' dst)
    (hle : off ≤ off') : Copied job off dst := by
  refine ⟨?_, hle.trans h.le_length, h.length_le⟩
  have := congrArg (List.take off) h.eq
  rwa [List.take_take, List.take_take, Nat.min_eq_left hle] at this

theorem Asked.len_le {job : Job} {s : State} (h : Asked job s) : s.iovLen.toInt ≤ 4096 := by
  rw [h.iovLen]
  exact Int.min_le_left _ _

theorem Asked.end_le {job : Job} {s : State} (h : Asked job s) :
    s.offset.toInt + s.iovLen.toInt ≤ job.src.length := by
  rw [h.iovLen]
  omega

theorem Loaded.next_toInt {job : Job} {s : State} (h : Loaded job s s.bytesRead)
    (ha : Asked job s) (hsize : job.fileSize.toInt = job.src.length) (h0 : 0 ≤ s.offset.toInt) :
    (s.offset + s.bytesRead.toInt64).toInt = s.offset.toInt + s.bytesRead.toInt := by
  have hend := ha.end_le
  have hmax := job.fileSize.toInt_lt
  have hle := h.le
  have hpos := h.pos
  rw [Int64.toInt_add, Int32.toInt_toInt64, Int.bmod_eq_of_le] <;> omega

theorem step_inv {job : Job} (hsize : job.fileSize.toInt = job.src.length) {s t : State}
    {a : Action} (h : step job s a = some t) (hok : InRange s a) (hs : Inv job s) : Inv job t := by
  have hhere := hs.here
  rw [At] at hhere
  cases a with
  | submitRead =>
    obtain ⟨hc, ⟨⟩⟩ := Option.ite_none_right_eq_some.mp h
    rw [hc.1] at hhere
    have hlt : s.offset.toInt < job.src.length := by
      rw [← hsize]
      exact Int64.lt_iff_toInt_lt.mp hc.2
    have hlen := chunk_toInt job hs.nonneg (by rw [hsize]; exact hlt)
    rw [hsize] at hlen
    exact ⟨hs.nonneg, hs.copied, ⟨hlt, hlen, rfl⟩, rfl, hhere⟩
  | exit =>
    obtain ⟨hc, ⟨⟩⟩ := Option.ite_none_right_eq_some.mp h
    refine ⟨hs.nonneg, hs.copied, ?_⟩
    have hge : ¬ s.offset.toInt < job.fileSize.toInt := Int64.lt_iff_toInt_lt.not.mp hc.2
    have hle := hs.copied.le_length
    have hlen := hs.copied.length_le
    change s.offset.toInt = job.src.length
    omega
  | execute res =>
    simp only [step] at h
    split at h
    · next hpc =>
      rw [hpc] at hhere
      obtain ⟨hasked, hop, hempty⟩ := hhere
      obtain ⟨hpos, hle⟩ := (hok res rfl).1 hpc
      obtain ⟨u, hu, rfl⟩ := Option.map_eq_some_iff.mp h
      obtain ⟨-, ⟨-, hsrc, rfl⟩ | ⟨hop', -⟩⟩ := execute_cases hu (by omega)
      · rw [hasked.off] at hsrc ⊢
        have hload : ∀ u : State, u.iovLen = s.iovLen → u.offset = s.offset →
            u.buffer = s.buffer.fill ((job.src.drop s.offset.toInt.toNat).take res.toInt.toNat) →
              Loaded job u res := fun u =>
          Loaded.of_read hpos hle hasked.len_le hsrc
        refine ⟨hs.nonneg, hs.copied, ⟨hasked.more, hasked.iovLen, hasked.off⟩, ?_,
          congrArg (· + 1) hempty⟩
        have hres := congrArg Cqe.res (cqe_postCqe job res hempty)
        change Loaded job _ ((postCqe job res s).cqe job).res
        rw [hres]
        exact hload _ rfl rfl rfl
      · rw [hop] at hop'
        cases hop'
    · split at h
      · next hpc =>
        rw [hpc] at hhere
        obtain ⟨hasked, hload, hop, hempty⟩ := hhere
        obtain ⟨hge, hle⟩ := (hok res rfl).2 hpc
        have hpos := hload.pos
        have hlen := hasked.len_le
        have hend := hasked.end_le
        have h0 := hs.nonneg
        obtain ⟨u, hu, rfl⟩ := Option.map_eq_some_iff.mp h
        obtain ⟨-, ⟨hop', -⟩ | ⟨-, rfl⟩⟩ := execute_cases hu (by omega)
        · rw [hop] at hop'
          cases hop'
        · have hwrite := hs.copied.write (m := res.toInt.toNat) hload.eq (by omega) (by omega)
            (by omega)
          rw [hasked.off]
          refine ⟨hs.nonneg, hwrite.mono (Nat.le_add_right _ _),
            ⟨hasked.more, hasked.iovLen, hasked.off⟩, ⟨hload.pos, hload.le, hload.eq⟩, ?_, hwrite,
            congrArg (· + 1) hempty⟩
          have hres := congrArg Cqe.res (cqe_postCqe job res hempty)
          change _ ≤ ((postCqe job res s).cqe job).res.toInt
          rw [hres]
          exact hge
      · cases h
  | reapRead =>
    obtain ⟨hc, h⟩ := Option.ite_none_right_eq_some.mp h
    rw [hc.1] at hhere
    obtain ⟨hasked, hload, hposted⟩ := hhere
    split at h
    · next hneg =>
      have := Int32.lt_iff_toInt_lt.mp hneg
      have := hload.pos
      rw [Int32.toInt_zero] at *
      omega
    · cases h
      exact ⟨hs.nonneg, hs.copied, ⟨hasked.more, hasked.iovLen, hasked.off⟩,
        ⟨hload.pos, hload.le, hload.eq⟩, hposted⟩
  | submitWrite =>
    obtain ⟨hc, ⟨⟩⟩ := Option.ite_none_right_eq_some.mp h
    rw [hc] at hhere
    obtain ⟨hasked, hload, hempty⟩ := hhere
    exact ⟨hs.nonneg, hs.copied, ⟨hasked.more, hasked.iovLen, rfl⟩,
      ⟨hload.pos, hload.le, hload.eq⟩, rfl, hempty⟩
  | reapWrite =>
    obtain ⟨hc, h⟩ := Option.ite_none_right_eq_some.mp h
    rw [hc.1] at hhere
    obtain ⟨hasked, hload, hge, hcopied, hposted⟩ := hhere
    split at h
    · next hneg =>
      have := Int32.lt_iff_toInt_lt.mp hneg
      omega
    · cases h
      have hnext := hload.next_toInt hasked hsize hs.nonneg
      have h0 := hs.nonneg
      have hpos := hload.pos
      have hnat : (s.offset + s.bytesRead.toInt64).toInt.toNat =
          s.offset.toInt.toNat + s.bytesRead.toInt.toNat := by
        omega
      refine ⟨?_, ?_, hposted⟩
      · change 0 ≤ (s.offset + s.bytesRead.toInt64).toInt
        omega
      · change Copied job (s.offset + s.bytesRead.toInt64).toInt.toNat s.dst
        rw [hnat]
        exact hcopied

def Pc.rank : Pc → Nat
  | .loop => 6
  | .enterRead => 5
  | .waitRead => 4
  | .prepareWrite => 3
  | .enterWrite => 2
  | .waitWrite => 1
  | .done | .died _ => 0

/-- The kernel leaves everything but the two memories and the rings as it was. -/
theorem execute_eq {job : Job} {res : Int32} {s t : State} (h : execute job res s = some t) :
    ∃ buffer dst, t = { postCqe job res s with buffer := buffer, dst := dst } := by
  rw [execute] at h
  simp only at h
  split at h
  · cases h
    exact ⟨s.buffer, s.dst, rfl⟩
  · split at h
    · cases h
    · split at h
      · split at h
        · cases h
        · cases h
          exact ⟨_, s.dst, rfl⟩
      · cases h
        exact ⟨s.buffer, _, rfl⟩

theorem execute_offset {job : Job} {res : Int32} {s t : State} (h : execute job res s = some t) :
    t.offset = s.offset := by
  obtain ⟨buffer, dst, rfl⟩ := execute_eq h
  rfl

/-- Every step comes closer to the end of the turn, or ends it. -/
theorem step_rank {job : Job} {s t : State} {a : Action} (h : step job s a = some t) :
    (t.offset = s.offset ∧ t.pc.rank < s.pc.rank) ∨
      (s.pc = .waitWrite ∧ t.pc = .loop ∧ t.offset = s.offset + s.bytesRead.toInt64) := by
  cases a with
  | submitRead | exit | submitWrite =>
    obtain ⟨hc, ⟨⟩⟩ := Option.ite_none_right_eq_some.mp h
    exact Or.inl ⟨rfl, by simp [hc, Pc.rank]⟩
  | execute res =>
    simp only [step] at h
    split at h
    · next hc =>
      obtain ⟨u, hu, rfl⟩ := Option.map_eq_some_iff.mp h
      have hoff : u.offset = s.offset := execute_offset hu
      exact Or.inl ⟨hoff, by simp [hc, Pc.rank]⟩
    · split at h
      · next hc =>
        obtain ⟨u, hu, rfl⟩ := Option.map_eq_some_iff.mp h
        have hoff : u.offset = s.offset := execute_offset hu
        exact Or.inl ⟨hoff, by simp [hc, Pc.rank]⟩
      · cases h
  | reapRead =>
    obtain ⟨hc, h⟩ := Option.ite_none_right_eq_some.mp h
    split at h <;> cases h <;> exact Or.inl ⟨rfl, by simp [hc, Pc.rank]⟩
  | reapWrite =>
    obtain ⟨hc, h⟩ := Option.ite_none_right_eq_some.mp h
    split at h <;> cases h
    · exact Or.inl ⟨rfl, by simp [hc, Pc.rank]⟩
    · exact Or.inr ⟨hc.1, rfl, rfl⟩

def remaining (job : Job) (s : State) : Nat :=
  (job.src.length - s.offset.toInt).toNat * 6 + s.pc.rank

theorem step_remaining {job : Job} (hsize : job.fileSize.toInt = job.src.length) {s t : State}
    {a : Action} (h : step job s a = some t) (hs : Inv job s) :
    remaining job t < remaining job s := by
  rcases step_rank h with ⟨hoff, hrank⟩ | ⟨hpc, hpc', hoff⟩
  · simp only [remaining, hoff]
    omega
  · have hhere := hs.here
    rw [At, hpc] at hhere
    obtain ⟨hasked, hload, -⟩ := hhere
    have hnext := hload.next_toInt hasked hsize hs.nonneg
    have hpos := hload.pos
    have hmore := hasked.more
    simp only [remaining, hoff, hnext, hpc, hpc', Pc.rank]
    omega

/-- Until the loop is left there is a step to take. -/
theorem progress {job : Job} {s : State} (hs : Inv job s) (hpc : s.pc ≠ .done) :
    ∃ a, InRange s a ∧ (step job s a).isSome := by
  have hhere := hs.here
  have hother : ∀ a, (∀ res, a ≠ .execute res) → InRange s a := fun a ha res he =>
    absurd he (ha res)
  have hne : ∀ x : UInt32, x ≠ x + 1 := fun x => by grind
  rw [At] at hhere
  cases hp : s.pc with
  | loop =>
    by_cases hlt : s.offset < job.fileSize
    · exact ⟨.submitRead, hother _ (by simp), by simp [step, hp, hlt]⟩
    · exact ⟨.exit, hother _ (by simp), by simp [step, hp, hlt]⟩
  | enterRead =>
    rw [hp] at hhere
    obtain ⟨hasked, hop, -⟩ := hhere
    have hmore := hasked.more
    have hiov := hasked.iovLen
    have h0 := hs.nonneg
    have hone : (1 : Int32).toInt = 1 := rfl
    refine ⟨.execute 1, ?_, ?_⟩
    · rintro res ⟨⟩
      exact ⟨fun _ => ⟨Int.le_refl _, by omega⟩, fun he => by rw [hp] at he; cases he⟩
    · have hneg : ¬ (1 : Int32) < 0 := by decide
      have hfit : (1 : Int32).toInt ≤ s.iovLen.toInt := by omega
      have hsrc : s.sqe.off.toInt.toNat + (1 : Int32).toInt.toNat ≤ job.src.length := by
        rw [hasked.off]
        omega
      simp only [step, hp, if_true, execute_readv hop hneg hfit hsrc, Option.map_some,
        Option.isSome_some]
  | waitRead =>
    rw [hp] at hhere
    obtain ⟨-, hload, hposted⟩ := hhere
    have hpos := hload.pos
    have hneg : ¬ (s.cqe job).res < 0 := by
      rw [Int32.lt_iff_toInt_lt, Int32.toInt_zero]
      omega
    have hcq : s.cqHead ≠ s.cqTail := by
      rw [hposted]
      exact hne _
    exact ⟨.reapRead, hother _ (by simp), by simp [step, hp, hcq, hneg]⟩
  | prepareWrite =>
    exact ⟨.submitWrite, hother _ (by simp), by simp [step, hp]⟩
  | enterWrite =>
    rw [hp] at hhere
    obtain ⟨hasked, hload, hop, -⟩ := hhere
    have hpos := hload.pos
    have hle := hload.le
    refine ⟨.execute s.bytesRead, ?_, ?_⟩
    · rintro res ⟨⟩
      exact ⟨fun he => (by rw [hp] at he; cases he), fun _ => ⟨Int.le_refl _, hle⟩⟩
    · have hneg : ¬ s.bytesRead < 0 := by
        rw [Int32.lt_iff_toInt_lt, Int32.toInt_zero]
        omega
      simp only [step, hp, reduceCtorEq, if_false, if_true, execute_writev hop hneg hle,
        Option.map_some, Option.isSome_some]
  | waitWrite =>
    rw [hp] at hhere
    obtain ⟨-, -, hge, -, hposted⟩ := hhere
    have hneg : ¬ (s.cqe job).res < s.bytesRead := by
      rw [Int32.lt_iff_toInt_lt]
      omega
    have hcq : s.cqHead ≠ s.cqTail := by
      rw [hposted]
      exact hne _
    exact ⟨.reapWrite, hother _ (by simp), by simp [step, hp, hcq, hneg]⟩
  | done => exact absurd hp hpc
  | died msg =>
    rw [hp] at hhere
    exact hhere.elim

/-- Whatever short reads and writes there are, the loop ends, and then the
destination is the source. -/
theorem copies_exactly {job : Job} (hsize : job.fileSize.toInt = job.src.length) (buffer : Page)
    (cqes : UInt32 → Cqe) :
    Runs.Halts (step job) InRange (start buffer cqes) ∧
      ∀ s, Runs.Reach (step job) InRange (start buffer cqes) s →
        (s.pc ≠ .done → ∃ a t, InRange s a ∧ step job s a = some t) ∧
          (s.pc = .done → s.dst = job.src) := by
  have hstart : Inv job (start buffer cqes) := start_inv buffer cqes
  constructor
  · refine Runs.halts_of_measure (I := Inv job) (remaining job) hstart ?_
    intro u a v hok hstep hu
    exact ⟨step_inv hsize hstep hok hu, step_remaining hsize hstep hu⟩
  · intro s hreach
    have hs : Inv job s := hreach.invariant hstart fun u a v hok hstep hu =>
      step_inv hsize hstep hok hu
    refine ⟨?_, ?_⟩
    · intro hpc
      obtain ⟨a, hok, hstep⟩ := progress hs hpc
      obtain ⟨t, ht⟩ := Option.isSome_iff_exists.mp hstep
      exact ⟨a, t, hok, ht⟩
    intro hpc
    have hhere := hs.here
    rw [At, hpc] at hhere
    have hoff : s.offset.toInt.toNat = job.src.length := by
      have : s.offset.toInt = job.src.length := hhere
      omega
    have hcopied := hs.copied
    rw [hoff] at hcopied
    have hle := hcopied.le_length
    have heq := hcopied.eq
    rwa [List.take_of_length_le hcopied.length_le, List.take_length] at heq

instance (s : State) (a : Action) : Decidable (InRange s a) :=
  match a with
  | .execute res =>
    decidable_of_iff ((s.pc = .enterRead → 1 ≤ res.toInt ∧ res.toInt ≤ s.iovLen.toInt) ∧
        (s.pc = .enterWrite → s.bytesRead.toInt ≤ res.toInt ∧ res.toInt ≤ s.iovLen.toInt))
      (by simp [InRange])
  | .submitRead | .reapRead | .submitWrite | .reapWrite | .exit => .isTrue (by simp [InRange])

def threeBytes : Job := ⟨[65, 66, 67], 3, 2, 4⟩

/-- The first read and the first write return two of the three bytes. -/
theorem copies_exactly_in_parts :
    Runs.Halts (step threeBytes) InRange (start Page.zero fun _ => ⟨0, 0⟩) ∧
      ∃ s, Runs.Reach (step threeBytes) InRange (start Page.zero fun _ => ⟨0, 0⟩) s ∧
        s.executed = 4 ∧ s.pc = .done ∧ s.dst = [65, 66, 67] := by
  have hrun : Runs.run (fun s a => if InRange s a then step threeBytes s a else none)
      (start Page.zero fun _ => ⟨0, 0⟩)
      [.submitRead, .execute 2, .reapRead, .submitWrite, .execute 2, .reapWrite, .submitRead,
        .execute 1, .reapRead, .submitWrite, .execute 1, .reapWrite, .exit] = some _ := rfl
  have hreach := Runs.reach_of_guarded _ hrun
  obtain ⟨hhalts, hruns⟩ := copies_exactly
    (show threeBytes.fileSize.toInt = threeBytes.src.length from rfl) Page.zero fun _ => ⟨0, 0⟩
  exact ⟨hhalts, _, hreach, rfl, rfl, (hruns _ hreach).2 rfl⟩

end Cp

end IoUring
