import IoUring.Chunking

/-! When a call returns 0, and how soon a loop of calls that stops there does so. -/

namespace IoUring

theorem MyFile.Sound.length_padded {mf : MyFile} (h : mf.Sound) :
    mf.fi.padded.length = mf.blocks.toInt.toNat * 4096 := by
  rw [h.toInt_blocks, mf.fi.length_padded, Int.toNat_natCast]

theorem MyFile.Sound.at_last_iff {mf : MyFile} (h : mf.Sound) :
    mf.currentBlock = mf.blocks ↔ mf.pos = mf.fi.padded.length := by
  have hblocks := h.blocks
  have hlt := h.offset_lt
  rw [mf.fi.length_padded, MyFile.pos]
  constructor
  · intro he
    have hcur : mf.currentBlock.toUInt32.toNat = mf.fi.iovecs.length := by rw [he, hblocks]
    have hoff := h.at_end hcur
    rw [hcur, hoff, UInt64.toNat_zero, Nat.add_zero]
  · intro hpos
    have hle := h.block_le
    have hcur : mf.currentBlock.toUInt32.toNat = mf.blocks.toUInt32.toNat := by omega
    exact congrArg UInt32.toInt32 (UInt32.toNat_inj.mp hcur)

theorem Served.ret_eq_zero_iff {mf : MyFile} {q : Request} {r : FreadResult} (h : mf.Ready)
    (hr : Served mf q r) : r.ret = 0 ↔ q.bytes = 0 ∨ mf.pos = mf.fi.padded.length := by
  have hle := h.toSound.pos_le
  rw [hr.ret_eq_zero, Cursor.read_eq_nil_iff]
  omega

theorem Served.pos {mf : MyFile} {q : Request} {r : FreadResult} (h : mf.Ready)
    (hr : Served mf q r) : r.mf.pos = mf.pos + r.ret.toNat := by
  rw [hr.mf, h.toSound.after_pos, Cursor.seek_eq_add_length h.toSound.pos_le, hr.ret]

/-- A call that returns 0 only behind the last block, and moves on everywhere else. -/
def MyFile.ZeroMeansEnd (mf : MyFile) (q : Request) : Prop :=
  ∃ r, myFread q.ptr q.size q.count mf = some r ∧ (r.ret = 0 → mf.currentBlock = mf.blocks) ∧
    (mf.currentBlock ≠ mf.blocks → 1 ≤ r.ret ∧ mf.pos < r.mf.pos)

theorem MyFile.Ready.zeroMeansEnd_iff {mf : MyFile} (h : mf.Ready) (q : Request) :
    mf.ZeroMeansEnd q ↔ q.bytes ≠ 0 ∨ mf.currentBlock = mf.blocks := by
  obtain ⟨r, hcall, hr⟩ := myFread_served h q
  have hzero := hr.ret_eq_zero_iff h
  rw [← h.toSound.at_last_iff] at hzero
  constructor
  · rintro ⟨r', hcall', hend, -⟩
    obtain rfl := Option.some_inj.mp (hcall.symm.trans hcall')
    by_cases hbytes : q.bytes = 0
    · exact Or.inr (hend (hzero.mpr (Or.inl hbytes)))
    · exact Or.inl hbytes
  · intro hq
    refine ⟨r, hcall, ?_, ?_⟩
    · intro h0
      exact (hzero.mp h0).elim (fun hbytes => hq.resolve_left (not_not.mpr hbytes)) id
    · intro hlast
      have hret : r.ret ≠ 0 := fun h0 =>
        (hzero.mp h0).elim (hq.resolve_right hlast) hlast
      have hpos : 0 < r.ret.toNat := UInt64.pos_iff_ne_zero.mpr hret
      have hmoved := hr.pos h
      exact ⟨UInt64.le_iff_toNat_le.mpr hpos, by omega⟩

/-- In every state that calls can reach, 0 means the end unless the product of the sizes
wraps to 0. -/
theorem zero_means_end_iff {o : Outcomes} {mode : String} {w w' : World} {mf mf₁ : MyFile}
    {pre : List Request} {rs : List FreadResult} (hopen : myFopen o mode w = .ok mf w')
    (hres : 0 ≤ (o.kernel mf.request).res) (hpre : freadRun mf pre = some (rs, mf₁))
    (ptr : Nat → UInt8) (size count : UInt64) :
    mf₁.ZeroMeansEnd ⟨ptr, size, count⟩ ↔ size * count ≠ 0 ∨ mf₁.currentBlock = mf₁.blocks := by
  obtain ⟨n, -, -, ho⟩ := myFopen_opened hopen
  have hready := (ho.ready (Int32.not_lt.mpr hres)).run hpre
  have hbytes : (⟨ptr, size, count⟩ : Request).bytes = 0 ↔ size * count = 0 :=
    UInt64.toNat_inj (b := 0)
  rw [hready.zeroMeansEnd_iff, Ne, hbytes]

theorem zero_means_end_one_byte :
    ∃ mf w', myFopen (.smooth 1 fun _ => ⟨1, [65]⟩) "r" World.start = .ok mf w' ∧
      (mf.ZeroMeansEnd ⟨fun _ => 0, 1, 8⟩ ↔
        (1 : UInt64) * 8 ≠ 0 ∨ mf.currentBlock = mf.blocks) := by
  obtain ⟨mf, w', h, -⟩ := smooth_opened 1 (by decide) "r" fun _ => ⟨1, [65]⟩
  exact ⟨mf, w', h, zero_means_end_iff h (show (0 : Int32) ≤ 1 by decide)
    (show freadRun mf [] = _ from rfl) (fun _ => 0) 1 8⟩

/-- 2^32 items of 2^32 bytes are no bytes, and the file is not over. -/
theorem wrapped_product_returns_zero :
    ∃ mf w', myFopen (.smooth 1 fun _ => ⟨1, [65]⟩) "r" World.start = .ok mf w' ∧
      ¬ mf.ZeroMeansEnd ⟨fun _ => 0, 4294967296, 4294967296⟩ := by
  obtain ⟨mf, w', h, ho⟩ := smooth_opened 1 (by decide) "r" fun _ => ⟨1, [65]⟩
  refine ⟨mf, w', h, ?_⟩
  have hres : ¬ ((1 : Int32) < 0) := by decide
  rw [(ho.ready hres).zeroMeansEnd_iff, ho.sound.at_last_iff, ho.pos, mf.fi.length_padded, ho.count]
  decide

theorem MyFile.Ready.reads_out {mf : MyFile} (h : mf.Ready) {k : Nat} (hk : 1 ≤ k)
    {qs : Nat → Request} (hq : ∀ i, (qs i).bytes = k) :
    ∃ calls rs last, freadRun mf ((List.range calls).map qs) = some (rs, last) ∧
      calls * k < mf.fi.padded.length - mf.pos + k ∧ (∀ r ∈ rs, r.ret ≠ 0) ∧ last.Sound ∧
      last.pos = last.fi.padded.length := by
  induction hleft : mf.fi.padded.length - mf.pos using Nat.strong_induction_on
    generalizing mf qs with
  | _ left ih =>
    have hle := h.toSound.pos_le
    by_cases hend : mf.pos = mf.fi.padded.length
    · exact ⟨0, [], mf, rfl, by omega, by simp, h.toSound, hend⟩
    · obtain ⟨r, hcall, hr⟩ := myFread_served h (qs 0)
      have hret : r.ret ≠ 0 := by
        rw [Ne, hr.ret_eq_zero_iff h, hq]
        omega
      have hnext : r.mf.Ready := by
        rw [hr.mf]
        exact h.after _
      have hleft' : r.mf.fi.padded.length - r.mf.pos = left - k := by
        rw [hr.pos h, hr.ret, Cursor.length_read, hq, hr.mf, mf.after_fi]
        omega
      obtain ⟨calls, rs, last, hrun, hbound, hrets, hsound, hlast⟩ :=
        ih (left - k) (by omega) hnext (fun i => hq (i + 1)) hleft'
      refine ⟨calls + 1, r :: rs, last, ?_, ?_, ?_, hsound, hlast⟩
      · rw [List.range_succ_eq_map, List.map_cons, List.map_map]
        exact (freadRun_cons hcall).mpr ⟨rs, hrun, rfl⟩
      · -- fewer than `k` bytes left are one call
        by_cases hshort : left < k
        · have hnone : calls < 1 := Nat.lt_of_mul_lt_mul_right (a := k) (by omega)
          have hcalls : calls = 0 := by omega
          rw [hcalls]
          omega
        · rw [Nat.succ_mul]
          omega
      · exact List.forall_mem_cons.mpr ⟨hret, hrets⟩

theorem readLoop_of_freadRun {mf last : MyFile} {qs : Nat → Request} {calls : Nat}
    {rs : List FreadResult} (hrun : freadRun mf ((List.range calls).map qs) = some (rs, last))
    (hrets : ∀ r ∈ rs, r.ret ≠ 0) {r : FreadResult}
    (hcall : myFread (qs calls).ptr (qs calls).size (qs calls).count last = some r)
    (hr : r.ret = 0) : readLoop (calls + 1) mf qs = some (rs.flatMap FreadResult.bytes) := by
  induction calls generalizing mf qs rs with
  | zero =>
    cases hrun
    simp only [readLoop, hcall, if_pos hr]
    rfl
  | succ calls ih =>
    rw [List.range_succ_eq_map, List.map_cons, List.map_map, freadRun] at hrun
    rw [readLoop]
    cases hfirst : myFread (qs 0).ptr (qs 0).size (qs 0).count mf with
    | none =>
      rw [hfirst] at hrun
      cases hrun
    | some s =>
      simp only [hfirst, Option.map_eq_some_iff] at hrun
      obtain ⟨⟨rest, last'⟩, hrest, heq⟩ := hrun
      cases heq
      obtain ⟨hs, hrets'⟩ := List.forall_mem_cons.mp hrets
      have hloop : readLoop (calls + 1) s.mf (fun i => qs (i + 1)) =
          some (rest.flatMap FreadResult.bytes) := ih hrest hrets' hcall
      simp only [if_neg hs, hloop, Option.map_some, List.flatMap_cons]

/-- Each call returns, and from each state that calls can reach a loop of calls for `k`
bytes ends behind the last block, where nothing changes any more. -/
theorem read_loops_end {o : Outcomes} {mode : String} {w w' : World} {mf : MyFile}
    (hopen : myFopen o mode w = .ok mf w') (hres : 0 ≤ (o.kernel mf.request).res)
    (pre : List Request) :
    ∃ rs mf₁, freadRun mf pre = some (rs, mf₁) ∧
      (∀ q : Request, ∃ r, myFread q.ptr q.size q.count mf₁ = some r) ∧
      ∀ (k : Nat) (qs : Nat → Request), 1 ≤ k → (∀ i, (qs i).bytes = k) →
        ∃ calls rs' last, calls + 1 ≤ mf.blocks.toInt.toNat * 4096 / k + 2 ∧
          freadRun mf₁ ((List.range calls).map qs) = some (rs', last) ∧
          (∀ r ∈ rs', r.ret ≠ 0) ∧
          readLoop (calls + 1) mf₁ qs = some (rs'.flatMap FreadResult.bytes) ∧
          ∀ more, freadRun last more = some (more.map fun q => ⟨0, q.ptr, last, []⟩, last) := by
  obtain ⟨n, -, -, ho⟩ := myFopen_opened hopen
  obtain ⟨rs, mf₁, hrun, -, hsame⟩ := freadRun_sound ho.sound pre
  have hready := (ho.ready (Int32.not_lt.mpr hres)).run hrun
  refine ⟨rs, mf₁, hrun, ?_, ?_⟩
  · intro q
    obtain ⟨r, hcall, -⟩ := myFread_served hready q
    exact ⟨r, hcall⟩
  · intro k qs hk hq
    obtain ⟨calls, rs', last, hcalls, hbound, hrets, hsound, hend⟩ := hready.reads_out hk hq
    have hlen : mf₁.fi.padded.length = mf.blocks.toInt.toNat * 4096 := by
      rw [hsame.fi, ho.sound.length_padded]
    rw [hlen] at hbound
    have hle : calls ≤ mf.blocks.toInt.toNat * 4096 / k + 1 := by
      cases calls with
      | zero => exact Nat.zero_le _
      | succ j =>
        have hj : j ≤ mf.blocks.toInt.toNat * 4096 / k := by
          rw [Nat.le_div_iff_mul_le hk]
          rw [Nat.succ_mul] at hbound
          omega
        exact Nat.succ_le_succ hj
    exact ⟨calls, rs', last, Nat.succ_le_succ hle, hcalls, hrets,
      readLoop_of_freadRun hcalls hrets (myFread_at_end hsound hend _ _ _) rfl,
      freadRun_at_end hsound hend⟩

theorem read_loops_end_two_blocks :
    ∃ mf w', myFopen (.smooth 8192 fun _ => ⟨8192, twoBlocks⟩) "r" World.start = .ok mf w' ∧
      ∃ calls rs last, calls + 1 ≤ mf.blocks.toInt.toNat * 4096 / 5000 + 2 ∧
        freadRun mf ((List.range calls).map fun _ => .ofSize 5000) = some (rs, last) ∧
        rs.flatMap FreadResult.bytes = twoBlocks ∧
        freadRun last [.ofSize 5000] =
          some ([Request.ofSize 5000].map fun q => ⟨0, q.ptr, last, []⟩, last) := by
  obtain ⟨mf, w', h, hready, hpos, hpadded⟩ := twoBlocks_opened
  obtain ⟨rs, mf₁, hrun, -, hloop⟩ :=
    read_loops_end h (show (0 : Int32) ≤ 8192 by decide) []
  cases hrun
  obtain ⟨calls, rs', last, hle, hcalls, -, hread, hmore⟩ :=
    hloop 5000 (fun _ => .ofSize 5000) (by decide) (fun _ => rfl)
  have hdelivers : mf.Delivers (fun _ => .ofSize 5000) (rs'.flatMap FreadResult.bytes) :=
    ⟨calls + 1, hread⟩
  rw [mf.delivers_iff_padded hready hpos fun _ => by decide, hpadded] at hdelivers
  exact ⟨mf, w', h, calls, rs', last, hle, hcalls, hdelivers, hmore _⟩

end IoUring
