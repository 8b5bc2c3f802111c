import IoUring.Blocks
import IoUring.OpenSpec
import Mathlib.Data.List.SplitLengths

/-! The loop that fills the iovecs against the number of blocks counted before it, and the
file put together again from the buffers that the loop sized. -/

namespace IoUring

open EarlyExit

theorem Fills.sum {n : Nat} {vs : List Iovc} (h : Fills n vs) :
    (vs.map fun v => v.bufferSize.toNat).sum = n := by
  induction vs generalizing n with
  | nil => exact (show n = 0 from h).symm
  | cons v vs ih =>
    have hrest := ih h.2.2
    have hv := h.2.1
    rw [List.map_cons, List.sum_cons, hrest]
    omega

theorem Fills.full {n i : Nat} {vs : List Iovc} (h : Fills n vs) {v : Iovc} (hv : vs[i]? = some v)
    (hi : i + 1 < vs.length) : v.bufferSize.toNat = 4096 := by
  induction vs generalizing n i with
  | nil => simp at hv
  | cons w vs ih =>
    have hlen := h.2.2.length
    cases i with
    | zero =>
      obtain rfl : w = v := by simpa using hv
      have hw := h.2.1
      simp only [List.length_cons] at hi
      omega
    | succ i => exact ih h.2.2 (by simpa using hv) (by simpa using hi)

/-- What the buffers hold behind a complete `readv` is the file, cut at their sizes. -/
theorem Fills.gather {f : List UInt8} {vs : List Iovc} (h : Fills f.length vs) :
    (scatter vs.length vs f).map (fun v => v.page.bytes.take v.bufferSize.toNat) =
      (vs.map fun v => v.bufferSize.toNat).splitLengths f := by
  induction vs generalizing f with
  | nil => rfl
  | cons v vs ih =>
    obtain ⟨-, hv, hrest⟩ := h
    have hlen : (f.take v.bufferSize.toNat).length = v.bufferSize.toNat :=
      List.length_take_of_le (by omega)
    have hdrop : Fills (f.drop v.bufferSize.toNat).length vs := by
      rw [List.length_drop, hv]
      have heq : f.length - min f.length 4096 = f.length - 4096 := by omega
      rwa [heq]
    have hfit : (f.take v.bufferSize.toNat).length ≤ 4096 := by omega
    have hfill := v.page.fill_take hfit
    rw [hlen] at hfill
    rw [List.length_cons, scatter, List.map_cons, List.map_cons, List.splitLengths_cons, ih hdrop,
      hfill]

theorem Fills.gather_flatMap {f : List UInt8} {vs : List Iovc} (h : Fills f.length vs) :
    (scatter vs.length vs f).flatMap (fun v => v.page.bytes.take v.bufferSize.toNat) = f := by
  rw [List.flatMap_def, h.gather]
  exact List.flatten_splitLengths _ _ (Nat.le_of_eq h.sum.symm)

/-- A loop that ends has made one turn for each block, and the last test. -/
theorem fillIovecs_turns {o : Outcomes} {size : UInt64} {turns : Nat} {rem : Int64} {cur : UInt32}
    {acc vs : List Iovc} {w w' : World} (hrem : 0 ≤ rem.toInt)
    (h : fillIovecs o size turns rem cur acc w = .ok vs w') :
    (rem.toInt.toNat + 4095) / 4096 < turns := by
  induction turns generalizing rem cur acc w with
  | zero => cases h
  | succ turns ih =>
    rw [fillIovecs] at h
    by_cases hz : rem = 0
    · rw [hz]
      exact Nat.succ_pos turns
    · rw [if_neg hz] at h
      obtain ⟨-, hleft⟩ := fillIovecs_step_toInt hrem
      split at h
      · cases h
      · cases hm : o.memalign cur.toNat with
        | none =>
          rw [hm] at h
          exact absurd h fail_ne_ok
        | some page =>
          rw [hm] at h
          obtain ⟨buf, w1, -, hrest⟩ := bind_eq_ok.mp h
          have hturns := ih (by omega) hrest
          rw [hleft] at hturns
          omega

theorem fillIovecs_fills {o : Outcomes} {n : Int64} {turns : Nat} {vs : List Iovc} {w w' : World}
    (h : 0 ≤ n.toInt) (hcount : 0 ≤ (blockCount n).toInt)
    (hfill : fillIovecs o (fileInfoSize (blockCount n)) turns n 0 [] w = .ok vs w') :
    Fills n.toInt.toNat vs := by
  have hbytes := fileInfoSize_toNat (blockCount n)
  have hbounds := blockCount_bounds h
  obtain ⟨new, rfl, hfills, -⟩ := fillIovecs_ok (by omega) h (by rfl) hfill
  exact hfills

theorem fillIovecs_start_iff {o : Outcomes} (pages : ∀ i, (o.memalign i).isSome) {n : Int64}
    (h : 0 ≤ n.toInt) (hn : n.toInt < 2 ^ 31) (turns : Nat) (w : World) :
    (∃ vs w', fillIovecs o (fileInfoSize (blockCount n)) turns n 0 [] w = .ok vs w') ↔
      (blockCount n).toInt.toNat < turns := by
  have hcount := blockCount_of_lt h hn
  have hbytes := fileInfoSize_toNat (blockCount n)
  constructor
  · rintro ⟨vs, w', hfill⟩
    have hturns := fillIovecs_turns h hfill
    omega
  · intro ht
    have hsize : (fileInfoSize (blockCount n)).toNat ≤ 8 + 16 * 2 ^ 31 := by omega
    have hroom : 8 + 16 * ((0 : UInt32).toNat + (n.toInt.toNat + 4095) / 4096) ≤
        (fileInfoSize (blockCount n)).toNat := by
      rw [UInt32.toNat_zero]
      omega
    have hturns : (n.toInt.toNat + 4095) / 4096 < turns := by omega
    obtain ⟨vs, w', hfill, -⟩ := fillIovecs_ends hsize pages h hroom hturns w
    exact ⟨vs, w', hfill⟩

/-- For each file below 2^31 bytes the loop makes as many turns as blocks were counted, and
the buffers it sized hold, after a complete `readv`, the file and nothing else. -/
theorem scatter_gather_identity {o : Outcomes} (pages : ∀ i, (o.memalign i).isSome)
    (f : List UInt8) (hf : f.length < 2 ^ 31) (w : World) :
    let n := Int64.ofNat f.length
    let blocks := (blockCount n).toInt.toNat
    (∀ turns, (∃ vs w', fillIovecs o (fileInfoSize (blockCount n)) turns n 0 [] w = .ok vs w') ↔
      blocks < turns) ∧
    ∀ turns vs w', fillIovecs o (fileInfoSize (blockCount n)) turns n 0 [] w = .ok vs w' →
      vs.length = blocks ∧
      (∀ i v, vs[i]? = some v → (i + 1 < vs.length → v.bufferSize.toNat = 4096) ∧
        1 ≤ v.bufferSize.toNat ∧ v.bufferSize.toNat ≤ 4096) ∧
      (vs.map fun v => v.bufferSize.toNat).sum = f.length ∧
      ((scatter blocks vs f).take blocks).flatMap
        (fun v => v.page.bytes.take v.bufferSize.toNat) = f := by
  intro n blocks
  have hn : n.toInt = f.length := Int64.toInt_ofNat_of_lt (by omega)
  have h0 : 0 ≤ n.toInt := by omega
  have hlt : n.toInt < 2 ^ 31 := by omega
  refine ⟨fun turns => fillIovecs_start_iff pages h0 hlt turns w, ?_⟩
  intro turns vs w' hfill
  have hcount := blockCount_of_lt h0 hlt
  have hfills := fillIovecs_fills h0 (by omega) hfill
  rw [hn, Int.toNat_natCast] at hfills
  have hlen : vs.length = blocks := by
    have := hfills.length
    omega
  refine ⟨hlen, ?_, hfills.sum, ?_⟩
  · intro i v hv
    exact ⟨hfills.full hv, hfills.sized v (List.mem_of_getElem? hv)⟩
  · rw [← hlen, List.take_of_length_le (Nat.le_of_eq (length_scatter _ _ _))]
    exact hfills.gather_flatMap

/-- One full block, and one byte in the next. -/
def blockAndByte : List UInt8 := List.replicate 4096 65 ++ [66]

theorem length_blockAndByte : blockAndByte.length = 4097 := by
  rw [blockAndByte, List.length_append, List.length_replicate]
  rfl

theorem scatter_gather_block_and_byte :
    ∃ vs w', fillIovecs (.smooth 4097 fun _ => ⟨4097, blockAndByte⟩)
        (fileInfoSize (blockCount 4097)) 3 4097 0 [] World.start = .ok vs w' ∧
      vs.map (fun v => v.bufferSize.toNat) = [4096, 1] ∧
      ((scatter 2 vs blockAndByte).take 2).flatMap
        (fun v => v.page.bytes.take v.bufferSize.toNat) = blockAndByte := by
  obtain ⟨hturns, hall⟩ := scatter_gather_identity
    (o := .smooth 4097 fun _ => ⟨4097, blockAndByte⟩) (fun _ => rfl) blockAndByte
    (by rw [length_blockAndByte]; decide) World.start
  rw [length_blockAndByte] at hturns hall
  obtain ⟨vs, w', hfill⟩ := (hturns 3).mpr (by decide)
  obtain ⟨hlen, hsizes, hsum, hgather⟩ := hall 3 vs w' hfill
  refine ⟨vs, w', hfill, ?_, hgather⟩
  match vs, hlen with
  | [v, v'], _ =>
    have hfull : v.bufferSize.toNat = 4096 := (hsizes 0 v rfl).1 (Nat.le_refl 2)
    simp only [List.map_cons, List.map_nil, List.sum_cons, List.sum_nil] at hsum
    have hrest : v'.bufferSize.toNat = 1 := by omega
    rw [List.map_cons, List.map_singleton, hfull, hrest]

/-- Each store of the loop is within the array, as many entries are stored as blocks were
counted, and `sqe->len` is their number. -/
def CountAgrees (o : Outcomes) (n : Int64) (w : World) : Prop :=
  ∃ turns vs w', fillIovecs o (fileInfoSize (blockCount n)) turns n 0 [] w = .ok vs w' ∧
    (vs.length : Int) = (blockCount n).toInt ∧ (blockCount n).toUInt32.toNat = vs.length

theorem countAgrees_iff {o : Outcomes} (pages : ∀ i, (o.memalign i).isSome) {n : Int64}
    (h : 0 ≤ n.toInt) (w : World) : CountAgrees o n w ↔ n.toInt < 2 ^ 31 := by
  have hunsigned := toNat_toUInt32 (blockCount n)
  constructor
  · rintro ⟨turns, vs, w', hfill, hlen, -⟩
    have hcount := (fillIovecs_fills h (by omega) hfill).length
    exact lt_of_le_blockCount h (by omega)
  · intro hn
    have hcount := blockCount_of_lt h hn
    obtain ⟨vs, w', hfill⟩ := (fillIovecs_start_iff pages h hn _ w).mpr (Nat.lt_succ_self _)
    have hlen := (fillIovecs_fills h (by omega) hfill).length
    exact ⟨_, vs, w', hfill, by omega, by omega⟩

namespace Blocks

/-- The same for `submit_to_sq` of omp_io_uring_manual.c. -/
def CountAgrees (memalign : Nat → Bool) (fi : Nat) (n : Int64) : Prop :=
  ∃ turns vs, fillIovecs memalign (fileInfoSize (blockCount n)) fi turns n 0 [] = .ok vs ∧
    (vs.length : Int) = (blockCount n).toInt ∧ (blockCount n).toUInt32.toNat = vs.length

theorem fillIovecs_ends {memalign : Nat → Bool} {size : UInt64} {fi turns cur : Nat}
    {rem : Int64} {acc : List Iovec} (buffers : ∀ i, memalign i = true) (hrem : 0 ≤ rem.toInt)
    (hroom : 8 + 16 * (cur + (rem.toInt.toNat + 1023) / 1024) ≤ size.toNat)
    (ht : (rem.toInt.toNat + 1023) / 1024 < turns) :
    ∃ vs, fillIovecs memalign size fi turns rem cur acc = .ok vs := by
  induction turns generalizing rem cur acc with
  | zero => omega
  | succ turns ih =>
    rw [fillIovecs]
    by_cases hz : rem = 0
    · exact ⟨acc, if_pos hz⟩
    · have hne : rem.toInt ≠ 0 := fun he => hz (Int64.toInt_inj.mp he)
      have hleft : (rem - if rem > blockSz then blockSz else rem).toInt =
          rem.toInt - min rem.toInt 1024 := (toInt_chunk (Or.inl rfl) hrem).2
      have hstore : ¬ 8 + 16 * (cur + 1) > size.toNat := by omega
      simp only [if_neg hz, if_neg hstore, buffers cur, if_true]
      exact ih (by omega) (by rw [hleft]; omega) (by rw [hleft]; omega)

theorem countAgrees_iff {memalign : Nat → Bool} (buffers : ∀ i, memalign i = true) (fi : Nat)
    {n : Int64} (h : 0 ≤ n.toInt) : CountAgrees memalign fi n ↔ n.toInt < 2 ^ 31 := by
  have hbytes := fileInfoSize_toNat (blockCount n)
  have hbounds : -2 ^ 21 ≤ (blockCount n).toInt ∧ (blockCount n).toInt ≤ 2 ^ 21 :=
    blocksOf_bounds (Or.inl rfl) h
  have hunsigned := toNat_toUInt32 (blockCount n)
  constructor
  · rintro ⟨turns, vs, hfill, hlen, -⟩
    have hcount := (fillIovecs_ok h (by rfl) (by rfl) hfill).1
    rw [List.length_nil] at hcount
    have hle : (n.toInt + ((1024 : Nat) - 1)) / (1024 : Nat) ≤ (blockCount n).toInt := by omega
    exact lt_of_le_blocksOf (Or.inl rfl) h hle
  · intro hn
    have hcount : (blockCount n).toInt = (n.toInt + ((1024 : Nat) - 1)) / (1024 : Nat) :=
      blocksOf_of_lt (Or.inl rfl) h hn
    have hroom : 8 + 16 * (0 + (n.toInt.toNat + 1023) / 1024) ≤
        (fileInfoSize (blockCount n)).toNat := by
      omega
    obtain ⟨vs, hfill⟩ : ∃ vs, fillIovecs memalign (fileInfoSize (blockCount n)) fi _ n 0 [] =
        .ok vs := fillIovecs_ends buffers h hroom (Nat.lt_succ_self _)
    have hlen := (fillIovecs_ok h (by rfl) (by rfl) hfill).1
    rw [List.length_nil] at hlen
    exact ⟨_, vs, hfill, by omega, by omega⟩

end Blocks

namespace MyRead

/-- `int blocks = file_sz / BLOCK_SZ + (file_sz % BLOCK_SZ ? 1 : 0);` of My_read.cpp, where
the quotient is taken in 64 bits. -/
def blockCount (fileSz : Int64) : Int32 :=
  (fileSz / blockSz + if fileSz % blockSz ≠ 0 then 1 else 0).toInt32

/-- `for (int i = 0; i < blocks; ++i)`: the sizes stored and the bytes left over. `none` is
a failed `posix_memalign`. -/
def fillIovecs (memalign : Nat → Bool) : Nat → Nat → Int64 → Option (List UInt64 × Int64)
  | 0, _, bytesRemaining => some ([], bytesRemaining)
  | blocks + 1, i, bytesRemaining =>
    let bytesToRead := if bytesRemaining > blockSz then (blockSz : Int64) else bytesRemaining
    if memalign i then
      (fillIovecs memalign blocks (i + 1) (bytesRemaining - bytesToRead)).map fun r =>
        (bytesToRead.toUInt64 :: r.1, r.2)
    else none

/-- The same for `my_fopen` of My_read.cpp, whose loop is ended by the count: it leaves no
bytes over. A negative count is no size for `resize`. -/
def CountAgrees (memalign : Nat → Bool) (n : Int64) : Prop :=
  0 ≤ (blockCount n).toInt ∧
    ∃ sizes, fillIovecs memalign (blockCount n).toInt.toNat 0 n = some (sizes, 0) ∧
      (sizes.length : Int) = (blockCount n).toInt ∧ (blockCount n).toUInt32.toNat = sizes.length

theorem fillIovecs_eq {memalign : Nat → Bool} (buffers : ∀ i, memalign i = true) (blocks i : Nat)
    {rem : Int64} (h : 0 ≤ rem.toInt) :
    ∃ sizes left, fillIovecs memalign blocks i rem = some (sizes, left) ∧
      sizes.length = blocks ∧ left.toInt = max 0 (rem.toInt - blocks * 4096) := by
  induction blocks generalizing i rem with
  | zero => exact ⟨[], rem, rfl, rfl, by omega⟩
  | succ blocks ih =>
    obtain ⟨-, hleft⟩ := fillIovecs_step_toInt h
    have hnext : 0 ≤ (rem - if rem > blockSz then blockSz else rem).toInt := by omega
    obtain ⟨sizes, left, hfill, hlen, hrest⟩ := ih (i + 1) hnext
    refine ⟨(if rem > blockSz then (blockSz : Int64) else rem).toUInt64 :: sizes, left, ?_,
      congrArg (· + 1) hlen, ?_⟩
    · rw [fillIovecs]
      simp only [buffers i, if_true, hfill]
      rfl
    · rw [hrest, hleft]
      omega

theorem toInt_blockCount {n : Int64} (h : 0 ≤ n.toInt) :
    (blockCount n).toInt = ((n.toInt + 4095) / 4096).bmod (2 ^ 32) := by
  have hlt := n.toInt_lt
  have hb : (blockSz : Int64).toInt = 4096 := rfl
  have hq : (n / blockSz).toInt = n.toInt / 4096 := by
    rw [Int64.toInt_div, hb, Int.tdiv_eq_ediv_of_nonneg h, Int.bmod_eq_of_le] <;> omega
  have hmod : n % blockSz ≠ 0 ↔ ¬ n.toInt % 4096 = 0 := by
    rw [Ne, ← Int64.toInt_inj, Int64.toInt_mod, hb, Int.tmod_eq_emod_of_nonneg h]
    rfl
  rw [blockCount, Int64.toInt_toInt32]
  congr 1
  by_cases hm : n.toInt % 4096 = 0
  · rw [if_neg (hmod.not.mpr (not_not.mpr hm)), Int64.add_zero, hq]
    omega
  · rw [if_pos (hmod.mpr hm), Int64.toInt_add, hq]
    change (n.toInt / 4096 + 1).bmod (2 ^ 64) = _
    rw [Int.bmod_eq_of_le] <;> omega

theorem countAgrees_iff {memalign : Nat → Bool} (buffers : ∀ i, memalign i = true) {n : Int64}
    (h : 0 ≤ n.toInt) : CountAgrees memalign n ↔ n.toInt ≤ 2 ^ 43 - 4096 := by
  have hcount := toInt_blockCount h
  have hlt := (blockCount n).toInt_lt
  have hunsigned := toNat_toUInt32 (blockCount n)
  obtain ⟨sizes, left, hfill, hlen, hleft⟩ :=
    fillIovecs_eq buffers (blockCount n).toInt.toNat 0 h
  constructor
  · rintro ⟨hnonneg, sizes', hfill', -, -⟩
    rw [hfill, Option.some_inj, Prod.mk.injEq] at hfill'
    have hzero : left.toInt = 0 := by
      rw [hfill'.2]
      rfl
    omega
  · intro hn
    have hceil : (blockCount n).toInt = (n.toInt + 4095) / 4096 := by
      rw [hcount, Int.bmod_eq_of_le] <;> omega
    have hzero : left = 0 := by
      rw [← Int64.toInt_inj, Int64.toInt_zero]
      omega
    rw [hzero] at hfill
    exact ⟨by omega, sizes, hfill, by omega, by omega⟩

end MyRead

/-- The count taken in 32 bits agrees with the loop exactly below 2^31 bytes, the one taken
in 64 bits as long as it is an `int`. -/
theorem counts_agree_iff {o : Outcomes} (pages : ∀ i, (o.memalign i).isSome)
    {memalign : Nat → Bool} (buffers : ∀ i, memalign i = true) (fi : Nat) {n : Int64}
    (h : 0 ≤ n.toInt) (w : World) :
    (CountAgrees o n w ↔ n.toInt < 2 ^ 31) ∧
      (Blocks.CountAgrees memalign fi n ↔ n.toInt < 2 ^ 31) ∧
      (MyRead.CountAgrees memalign n ↔ n.toInt ≤ 2 ^ 43 - 4096) :=
  ⟨countAgrees_iff pages h w, Blocks.countAgrees_iff buffers fi h, MyRead.countAgrees_iff buffers h⟩

/-- One block is counted, 2^20 are stored. -/
theorem one_block_counted :
    (blockCount 4294967295).toInt = 1 ∧
      ¬ CountAgrees (.smooth 4294967295 fun _ => ⟨0, []⟩) 4294967295 World.start := by
  refine ⟨by decide, ?_⟩
  rw [countAgrees_iff (fun _ => rfl) (by decide)]
  decide

theorem one_byte_counted :
    (CountAgrees (.smooth 1 fun _ => ⟨1, [65]⟩) 1 World.start ↔ (1 : Int64).toInt < 2 ^ 31) ∧
      (Blocks.CountAgrees (fun _ => true) 0 1 ↔ (1 : Int64).toInt < 2 ^ 31) ∧
      (MyRead.CountAgrees (fun _ => true) 1 ↔ (1 : Int64).toInt ≤ 2 ^ 43 - 4096) :=
  counts_agree_iff (fun _ => rfl) (fun _ => rfl) 0 (by decide) World.start

end IoUring
