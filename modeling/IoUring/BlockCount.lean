import IoUring.Open

/-! The block count that `my_fopen` computes in 32 bits, and the size of the
`file_info` allocated for it. For sizes from 2^31 on the count is wrong, and
then either the allocation or the filling of the array fails. The examples count
blocks the same way, but of 1024 bytes. -/

namespace IoUring

theorem toNat_toUInt32 (x : Int32) : (x.toUInt32.toNat : Int) = x.toInt % 2 ^ 32 := by
  have hlt := x.toUInt32.toNat_lt
  have h : x.toInt = if 2 * x.toUInt32.toNat < 2 ^ 32 then (x.toUInt32.toNat : Int)
      else (x.toUInt32.toNat : Int) - (2 ^ 32 : Nat) := BitVec.toInt_eq_toNat_cond x.toBitVec
  rw [h]
  split <;> omega

theorem toNat_toUInt64 (x : Int64) : (x.toUInt64.toNat : Int) = x.toInt % 2 ^ 64 := by
  have hlt := x.toUInt64.toNat_lt
  have h : x.toInt = if 2 * x.toUInt64.toNat < 2 ^ 64 then (x.toUInt64.toNat : Int)
      else (x.toUInt64.toNat : Int) - (2 ^ 64 : Nat) := BitVec.toInt_eq_toNat_cond x.toBitVec
  rw [h]
  split <;> omega

theorem tdiv_eq_ite (a : Int) (b : Nat) :
    a.tdiv b = if 0 ≤ a then a / b else -((-a) / b) := by
  split
  · next h => exact Int.tdiv_eq_ediv_of_nonneg h
  · next h =>
    rw [← Int.neg_neg a, Int.neg_tdiv, Int.tdiv_eq_ediv_of_nonneg (by omega)]
    simp

theorem bmod_eq_self {q : Int} (h : -2 ^ 31 ≤ q) (h' : q < 2 ^ 31) : q.bmod (2 ^ 32) = q :=
  Int.bmod_eq_of_le (by omega) (by omega)

theorem toInt32_emod (n : Int64) : n.toInt32.toInt % 2 ^ 32 = n.toInt % 2 ^ 32 := by
  rw [Int64.toInt_toInt32]
  exact Int.bmod_emod

/-- `int blocks = (int)file_sz / BLOCK_SZ; if (file_sz % BLOCK_SZ) blocks++;` -/
def blocksOf (b : Nat) (fileSz : Int64) : Int32 :=
  let blocks := fileSz.toInt32 / Int32.ofNat b
  if fileSz % Int64.ofNat b ≠ 0 then blocks + 1 else blocks

/-- `my_fopen` of host.cpp counts blocks of 4096 bytes. -/
theorem blockCount_eq_blocksOf (n : Int64) : blockCount n = blocksOf 4096 n := rfl

section

variable {b : Nat} {n : Int64}

theorem toInt_blocksOf (hb : b = 1024 ∨ b = 4096) (h : 0 ≤ n.toInt) :
    (blocksOf b n).toInt = n.toInt32.toInt.tdiv b + if n.toInt % b = 0 then 0 else 1 := by
  have hlo := n.toInt32.le_toInt
  have hhi := n.toInt32.toInt_lt
  have hb32 : (Int32.ofNat b).toInt = b := by rcases hb with rfl | rfl <;> rfl
  have hb64 : (Int64.ofNat b).toInt = b := by rcases hb with rfl | rfl <;> rfl
  have hlt : -2 ^ 31 ≤ n.toInt32.toInt.tdiv b ∧ n.toInt32.toInt.tdiv b + 1 < 2 ^ 31 := by
    rw [tdiv_eq_ite]
    rcases hb with rfl | rfl <;> constructor <;> split <;> omega
  have hq : (n.toInt32 / Int32.ofNat b).toInt = n.toInt32.toInt.tdiv b := by
    rw [Int32.toInt_div, hb32]
    exact bmod_eq_self hlt.1 (by omega)
  have hmod : n % Int64.ofNat b ≠ 0 ↔ ¬ n.toInt % b = 0 := by
    rw [Ne, ← Int64.toInt_inj, Int64.toInt_mod, hb64, Int.tmod_eq_emod_of_nonneg h]
    rfl
  by_cases hm : n.toInt % b = 0
  · rw [blocksOf, if_neg (hmod.not.mpr (not_not.mpr hm)), if_pos hm, Int.add_zero]
    exact hq
  · rw [blocksOf, if_pos (hmod.mpr hm), if_neg hm, Int32.toInt_add]
    change ((n.toInt32 / Int32.ofNat b).toInt + 1).bmod (2 ^ 32) = _
    rw [hq, bmod_eq_self (by omega) hlt.2]

theorem blocksOf_of_lt (hb : b = 1024 ∨ b = 4096) (h : 0 ≤ n.toInt) (hn : n.toInt < 2 ^ 31) :
    (blocksOf b n).toInt = (n.toInt + (b - 1)) / b := by
  have hlo := n.toInt32.le_toInt
  have hhi := n.toInt32.toInt_lt
  have hmod := toInt32_emod n
  rw [toInt_blocksOf hb h, tdiv_eq_ite]
  rcases hb with rfl | rfl <;> split <;> split <;> omega

theorem lt_of_le_blocksOf (hb : b = 1024 ∨ b = 4096) (h : 0 ≤ n.toInt)
    (hle : (n.toInt + (b - 1)) / b ≤ (blocksOf b n).toInt) : n.toInt < 2 ^ 31 := by
  have hlo := n.toInt32.le_toInt
  have hhi := n.toInt32.toInt_lt
  have hmod := toInt32_emod n
  rw [toInt_blocksOf hb h, tdiv_eq_ite] at hle
  rcases hb with rfl | rfl <;> split at hle <;> split at hle <;> omega

theorem blocksOf_bounds (hb : b = 1024 ∨ b = 4096) (h : 0 ≤ n.toInt) :
    -2 ^ 21 ≤ (blocksOf b n).toInt ∧ (blocksOf b n).toInt ≤ 2 ^ 21 := by
  have hlo := n.toInt32.le_toInt
  have hhi := n.toInt32.toInt_lt
  rw [toInt_blocksOf hb h, tdiv_eq_ite]
  rcases hb with rfl | rfl <;> constructor <;> split <;> split <;> omega

theorem fileInfoSize_toNat (blocks : Int32) :
    (fileInfoSize blocks).toNat = (8 + 16 * (blocks.toInt % 2 ^ 64).toNat) % 2 ^ 64 := by
  have h := toNat_toUInt64 blocks.toInt64
  rw [Int32.toInt_toInt64] at h
  simp only [fileInfoSize, UInt64.toNat_add, UInt64.toNat_mul, UInt64.toNat_ofNat]
  omega

theorem fileInfoSize_blocksOf (hb : b = 1024 ∨ b = 4096) (h : 0 ≤ n.toInt)
    (hlt : (fileInfoSize (blocksOf b n)).toNat < 2 ^ 63) :
    0 ≤ (blocksOf b n).toInt ∧
      ((fileInfoSize (blocksOf b n)).toNat : Int) = 8 + 16 * (blocksOf b n).toInt := by
  have hbounds := blocksOf_bounds hb h
  have hs := fileInfoSize_toNat (blocksOf b n)
  omega

/-- One turn of a loop that takes at most a block. -/
theorem toInt_chunk (hb : b = 1024 ∨ b = 4096) (h : 0 ≤ n.toInt) :
    (if n > Int64.ofNat b then Int64.ofNat b else n).toInt = min n.toInt b ∧
      (n - if n > Int64.ofNat b then Int64.ofNat b else n).toInt = n.toInt - min n.toInt b := by
  have hlt := n.toInt_lt
  have hb64 : (Int64.ofNat b).toInt = b := by rcases hb with rfl | rfl <;> rfl
  have hmin : (if n > Int64.ofNat b then Int64.ofNat b else n).toInt = min n.toInt b := by
    split
    · next hgt =>
      have : (Int64.ofNat b).toInt < n.toInt := Int64.lt_iff_toInt_lt.mp hgt
      omega
    · next hgt =>
      have : ¬ (Int64.ofNat b).toInt < n.toInt := Int64.lt_iff_toInt_lt.not.mp hgt
      omega
  refine ⟨hmin, ?_⟩
  rw [Int64.toInt_sub, hmin, Int.bmod_eq_of_le] <;> omega

end

theorem blockCount_of_lt {n : Int64} (h : 0 ≤ n.toInt) (hn : n.toInt < 2 ^ 31) :
    (blockCount n).toInt = (n.toInt + 4095) / 4096 := by
  rw [blockCount_eq_blocksOf]
  exact blocksOf_of_lt (Or.inr rfl) h hn

theorem lt_of_le_blockCount {n : Int64} (h : 0 ≤ n.toInt)
    (hb : (n.toInt + 4095) / 4096 ≤ (blockCount n).toInt) : n.toInt < 2 ^ 31 := by
  rw [blockCount_eq_blocksOf] at hb
  exact lt_of_le_blocksOf (Or.inr rfl) h hb

theorem blockCount_bounds {n : Int64} (h : 0 ≤ n.toInt) :
    -2 ^ 21 ≤ (blockCount n).toInt ∧ (blockCount n).toInt ≤ 2 ^ 21 := by
  rw [blockCount_eq_blocksOf]
  exact blocksOf_bounds (Or.inr rfl) h

theorem fileInfoSize_of_lt {n : Int64} (h : 0 ≤ n.toInt)
    (hlt : (fileInfoSize (blockCount n)).toNat < 2 ^ 63) :
    0 ≤ (blockCount n).toInt ∧
      ((fileInfoSize (blockCount n)).toNat : Int) = 8 + 16 * (blockCount n).toInt := by
  rw [blockCount_eq_blocksOf] at hlt ⊢
  exact fileInfoSize_blocksOf (Or.inr rfl) h hlt

end IoUring
