import IoUring.BlockCount

/-! The `file_info` of omp_io_uring_manual.c and omp_io_uring_polling.c: one iovec
for each block of the file, filled before the read is submitted and gone through
again when its completion arrives. -/

namespace IoUring

namespace Blocks

/-- `#define BLOCK_SZ 1024`. -/
abbrev blockSz : Int64 := 1024

/-- What `posix_memalign` returns for one block of one `file_info`. -/
structure Buffer where
  fi : Nat
  block : Nat
deriving DecidableEq

structure Iovec where
  iovBase : Buffer
  iovLen : UInt64
deriving DecidableEq

def blockCount (fileSz : Int64) : Int32 := blocksOf 1024 fileSz

/-- The array has an entry for each block that the reader counts. -/
structure FileInfo where
  fileSz : Int64
  iovecs : List Iovec
  length_iovecs : (iovecs.length : Int) = (blockCount fileSz).toInt

def FileInfo.empty : FileInfo := ⟨0, [], rfl⟩

/-- Why a file is not read: `return 1`, or undefined behaviour. -/
inductive Ended where
  | failed
  | fault (f : Fault)
deriving DecidableEq

/-- The `while (bytes_remaining)` loop, in at most the given number of turns. -/
def fillIovecs (memalign : Nat → Bool) (size : UInt64) (fi : Nat) :
    Nat → Int64 → Nat → List Iovec → Except Ended (List Iovec)
  | 0, _, _, _ => .error (.fault .diverged)
  | turns + 1, bytesRemaining, currentBlock, iovecs =>
    if bytesRemaining = 0 then .ok iovecs
    else
      let bytesToRead := if bytesRemaining > blockSz then blockSz else bytesRemaining
      if 8 + 16 * (currentBlock + 1) > size.toNat then .error (.fault .outOfBounds)
      else if memalign currentBlock then
        fillIovecs memalign size fi turns (bytesRemaining - bytesToRead) (currentBlock + 1)
          (iovecs ++ [⟨⟨fi, currentBlock⟩, bytesToRead.toUInt64⟩])
      else .error .failed

/-- One entry for each block begun, within the allocation, each with a buffer of
its own. -/
theorem fillIovecs_ok {memalign : Nat → Bool} {size : UInt64} {fi turns cur : Nat} {rem : Int64}
    {acc vs : List Iovec} (hrem : 0 ≤ rem.toInt) (hcur : cur = acc.length)
    (hacc : acc.map (·.iovBase) = (List.range cur).map (Buffer.mk fi))
    (h : fillIovecs memalign size fi turns rem cur acc = .ok vs) :
    (vs.length : Int) = acc.length + (rem.toInt + 1023) / 1024 ∧
      (rem.toInt ≠ 0 → 8 + 16 * vs.length ≤ size.toNat) ∧
      vs.map (·.iovBase) = (List.range vs.length).map (Buffer.mk fi) := by
  induction turns generalizing rem cur acc with
  | zero => cases h
  | succ turns ih =>
    rw [fillIovecs] at h
    by_cases hz : rem = 0
    · rw [if_pos hz] at h
      cases h
      have hzero : rem.toInt = 0 := by
        rw [hz]
        rfl
      exact ⟨by omega, fun hne => absurd hzero hne, hcur ▸ hacc⟩
    · rw [if_neg hz] at h
      have hne : rem.toInt ≠ 0 := fun he => hz (Int64.toInt_inj.mp he)
      have hleft : (rem - if rem > blockSz then blockSz else rem).toInt =
          rem.toInt - min rem.toInt 1024 := (toInt_chunk (Or.inl rfl) hrem).2
      simp only at h
      split at h
      · cases h
      · next hroom =>
        split at h
        · have hacc' : ∀ len, (acc ++ [(⟨⟨fi, cur⟩, len⟩ : Iovec)]).map (·.iovBase) =
              (List.range (cur + 1)).map (Buffer.mk fi) := by
            intro len
            rw [List.map_append, hacc, List.range_succ, List.map_append]
            rfl
          obtain ⟨hlen, hfit, hbases⟩ := ih (by omega) (by simp [hcur]) (hacc' _) h
          rw [List.length_append, List.length_singleton, hleft] at hlen
          rw [hleft] at hfit
          refine ⟨by omega, fun _ => ?_, hbases⟩
          by_cases hlast : rem.toInt - min rem.toInt 1024 = 0
          · omega
          · exact hfit hlast
        · cases h

theorem length_fillIovecs {memalign : Nat → Bool} {fi turns : Nat} {n : Int64} {vs : List Iovec}
    (hn : 0 ≤ n.toInt) (hsize : (fileInfoSize (blockCount n)).toNat < 2 ^ 63)
    (h : fillIovecs memalign (fileInfoSize (blockCount n)) fi turns n 0 [] = .ok vs) :
    (vs.length : Int) = (blockCount n).toInt := by
  obtain ⟨hlen, hfit, -⟩ := fillIovecs_ok hn (by rfl) (by rfl) h
  obtain ⟨hb, hbytes⟩ : 0 ≤ (blockCount n).toInt ∧
      ((fileInfoSize (blockCount n)).toNat : Int) = 8 + 16 * (blockCount n).toInt :=
    fileInfoSize_blocksOf (Or.inl rfl) hn hsize
  rw [List.length_nil] at hlen
  have hle : (n.toInt + ((1024 : Nat) - 1)) / (1024 : Nat) ≤ (blockCount n).toInt := by
    by_cases hz : n.toInt = 0
    · rw [hz]
      exact hb
    · have := hfit hz
      omega
  have hcount : (blockCount n).toInt = (n.toInt + ((1024 : Nat) - 1)) / (1024 : Nat) :=
    blocksOf_of_lt (Or.inl rfl) hn (lt_of_le_blocksOf (Or.inl rfl) hn hle)
  omega

/-- The answers to the calls made for one file. -/
structure Outcomes where
  openFile : Bool
  fileSize : Int64
  fileInfoAlloc : Bool
  memalign : Nat → Bool

/-- The `malloc` and the loop. `null` is what a null pointer leads to. -/
def fileInfo (o : Outcomes) (fi : Nat) (null : Ended) (hn : 0 ≤ o.fileSize.toInt) :
    Except Ended FileInfo :=
  if h : o.fileInfoAlloc ∧ (fileInfoSize (blockCount o.fileSize)).toNat < 2 ^ 63 then
    match hfill : fillIovecs o.memalign (fileInfoSize (blockCount o.fileSize)) fi
        (o.fileSize.toInt.toNat / 1024 + 2) o.fileSize 0 [] with
    | .error e => .error e
    | .ok iovecs => .ok ⟨o.fileSize, iovecs, length_fillIovecs hn h.2 hfill⟩
  else .error null

/-- `for (int i = 0; i < blocks; i++)`, over the block count taken again from the
file size. -/
def FileInfo.printed (fi : FileInfo) : List Iovec :=
  fi.iovecs.take (blockCount fi.fileSz).toInt.toNat

@[simp] theorem FileInfo.printed_eq (fi : FileInfo) : fi.printed = fi.iovecs := by
  have h := fi.length_iovecs
  exact List.take_of_length_le (by omega)

/-- The buffers of `fi` are those allocated for file `k`. -/
def Own (k : Nat) (fi : FileInfo) : Prop :=
  fi.iovecs.map (·.iovBase) = (List.range fi.iovecs.length).map (Buffer.mk k)

theorem fileInfo_own {o : Outcomes} {i : Nat} {null : Ended} {hn : 0 ≤ o.fileSize.toInt}
    {fi : FileInfo} (h : fileInfo o i null hn = .ok fi) : Own i fi := by
  rw [fileInfo] at h
  split at h
  · split at h
    · cases h
    · next hfill =>
      cases h
      exact (fillIovecs_ok hn (by rfl) (by rfl) hfill).2.2
  · cases h

theorem Own.nodup {k : Nat} {fi : FileInfo} (h : Own k fi) : fi.iovecs.Nodup := by
  have hmap : (fi.iovecs.map (·.iovBase)).Nodup := by
    rw [h]
    exact List.nodup_range.map fun _ _ he => (Buffer.mk.inj he).2
  exact hmap.of_map

theorem Own.fi_eq {k : Nat} {fi : FileInfo} (h : Own k fi) {v : Iovec}
    (hv : v ∈ fi.iovecs) : v.iovBase.fi = k := by
  have hmem := List.mem_map_of_mem (f := Iovec.iovBase) hv
  rw [h] at hmem
  obtain ⟨_, -, he⟩ := List.mem_map.mp hmem
  rw [← he]

/-- A block is printed as often as its file is handled. -/
theorem count_flatMap {fis : Nat → FileInfo} {k : Nat} {v : Iovec} (hk : Own k (fis k))
    (hv : v ∈ (fis k).iovecs) (ks : List Nat) (hks : ∀ j ∈ ks, Own j (fis j)) :
    (ks.flatMap fun j => (fis j).iovecs).count v = ks.count k := by
  induction ks with
  | nil => rfl
  | cons j ks ih =>
    obtain ⟨hj, hrest⟩ := List.forall_mem_cons.mp hks
    rw [List.flatMap_cons, List.count_append, ih hrest, List.count_cons]
    by_cases he : j = k
    · subst he
      rw [List.count_eq_one_of_mem hk.nodup hv]
      simp [Nat.add_comm]
    · have hnot : v ∉ (fis j).iovecs := fun hm => he ((hj.fi_eq hm).symm.trans (hk.fi_eq hv))
      rw [List.count_eq_zero_of_not_mem hnot]
      simp [he]

end Blocks

end IoUring
