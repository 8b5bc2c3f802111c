import IoUring.OpenSpec
import IoUring.Session

/-! What the read loop delivers of a file: the block buffers in full, whatever
the length of the file and whatever the completion says. -/

namespace IoUring

theorem MyFile.delivers_iff_padded {mf : MyFile} (h : mf.Ready) (h0 : mf.pos = 0)
    {qs : Nat → Request} (hqs : ∀ i, 0 < (qs i).bytes) (out : List UInt8) :
    mf.Delivers qs out ↔ out = mf.fi.padded := by
  constructor
  · rintro ⟨turns, hout⟩
    rw [readLoop_eq_drain h, h0] at hout
    obtain ⟨n, -, rfl, hstop⟩ := Cursor.drain_some hout
    have hne : (qs n).bytes ≠ 0 := Nat.ne_of_gt (hqs n)
    exact Cursor.read_all (by omega)
  · rintro rfl
    refine ⟨mf.fi.padded.length + 1, ?_⟩
    rw [readLoop_eq_drain h, h0, Cursor.drain_of_pos hqs (by omega), List.drop_zero]

theorem Opened.ready {o : Outcomes} {mf : MyFile} {n : Nat} (h : Opened o mf n)
    (hres : ¬ (o.kernel mf.request).res < 0) : mf.Ready where
  toSound := h.sound
  success := fun _ => by rwa [h.res]

theorem Opened.length_padded {o : Outcomes} {mf : MyFile} {n : Nat} (h : Opened o mf n) :
    mf.fi.padded.length = (n + 4095) / 4096 * 4096 := by
  rw [mf.fi.length_padded, h.count]

theorem not_neg_of_lt {n : Nat} (h : n < 2 ^ 31) : ¬ Int32.ofNat n < 0 := by
  rw [Int32.lt_iff_toInt_lt, Int32.toInt_ofNat_of_lt h]
  exact not_lt.mpr (Int.natCast_nonneg n)

theorem toNat_toInt_ofNat {n : Nat} (h : n < 2 ^ 63) : (Int64.ofNat n).toInt.toNat = n := by
  rw [Int64.toInt_ofNat_of_lt h, Int.toNat_natCast]

theorem opened_of_stat {o : Outcomes} {mode : String} {w w' : World} {mf : MyFile} {n : Nat}
    (hopen : myFopen o mode w = .ok mf w') (hstat : o.fstat = some (Int64.ofNat n))
    (hn : n < 2 ^ 31) : Opened o mf n := by
  obtain ⟨size, hsize, -, h⟩ := myFopen_opened hopen
  rw [hstat, Option.some_inj] at hsize
  rwa [← hsize, toNat_toInt_ofNat (by omega)] at h

theorem smooth_opened (n : Nat) (hn : n < 2 ^ 31) (mode : String) (kernel : Sqe → Completion) :
    ∃ mf w', myFopen (.smooth (Int64.ofNat n) kernel) mode World.start = .ok mf w' ∧
      Opened (.smooth (Int64.ofNat n) kernel) mf n := by
  obtain ⟨mf, w', h⟩ := smooth_opens hn mode kernel
  exact ⟨mf, w', h, opened_of_stat h rfl hn⟩

/-- Read completely, a file comes out exactly when it fills its last block. -/
theorem delivers_file_iff {o : Outcomes} {w w' : World} {mf : MyFile} {f : List UInt8}
    {qs : Nat → Request} (hopen : myFopen o "r" w = .ok mf w')
    (hstat : o.fstat = some (Int64.ofNat f.length)) (hlen : f.length ≤ uioMaxiov * 4096)
    (hread : o.kernel mf.request = ⟨Int32.ofNat f.length, f⟩) (hqs : ∀ i, 0 < (qs i).bytes) :
    mf.Delivers qs f ↔ f.length % 4096 = 0 := by
  have hlt : f.length < 2 ^ 31 := Nat.lt_of_le_of_lt hlen (by decide)
  have ho := opened_of_stat hopen hstat hlt
  have hready : mf.Ready := ho.ready (by rw [hread]; exact not_neg_of_lt hlt)
  have hdata := ho.data
  rw [hread] at hdata
  have htake : mf.fi.padded.take f.length = f := hdata (Nat.le_refl _)
  have hpadded := ho.length_padded
  rw [mf.delivers_iff_padded hready ho.pos hqs]
  constructor
  · intro h
    have := congrArg List.length h
    omega
  · intro h
    rw [List.take_of_length_le (by omega)] at htake
    exact htake.symm

def Request.ofSize (n : UInt64) : Request := ⟨fun _ => 0, 1, n⟩

theorem Request.bytes_ofSize (n : UInt64) : (Request.ofSize n).bytes = n.toNat := by
  simp [Request.bytes, Request.ofSize]

theorem Request.ofSize_pos : 0 < (Request.ofSize 8).bytes := by
  rw [Request.bytes_ofSize]
  decide

theorem one_byte_file_is_padded :
    ∃ mf w', myFopen (.smooth 1 fun _ => ⟨1, [65]⟩) "r" World.start = .ok mf w' ∧
      ¬ mf.Delivers (fun _ => .ofSize 8) [65] ∧
      ∃ out, mf.Delivers (fun _ => .ofSize 8) out ∧ out.length = 4096 ∧ out.take 1 = [65] := by
  obtain ⟨mf, w', h, ho⟩ := smooth_opened 1 (by decide) "r" fun _ => ⟨1, [65]⟩
  have hready : mf.Ready := ho.ready (not_neg_of_lt (n := 1) (by decide))
  have hlen : mf.fi.padded.length = 4096 := ho.length_padded
  have hiff := mf.delivers_iff_padded hready ho.pos fun _ => Request.ofSize_pos
  refine ⟨mf, w', h, ?_, mf.fi.padded, (hiff _).mpr rfl, hlen, ho.data (Nat.le_refl 1)⟩
  intro hd
  have := congrArg List.length ((hiff _).mp hd)
  rw [hlen] at this
  exact absurd this (by decide)

theorem delivers_file_block :
    ∃ mf w', myFopen (.smooth 4096 fun _ => ⟨4096, List.replicate 4096 65⟩) "r" World.start =
        .ok mf w' ∧
      (mf.Delivers (fun _ => .ofSize 8) (List.replicate 4096 65) ↔
        (List.replicate 4096 (65 : UInt8)).length % 4096 = 0) := by
  obtain ⟨mf, w', h, -⟩ := smooth_opened 4096 (by decide) "r"
    fun _ => ⟨4096, List.replicate 4096 65⟩
  have hlen : (List.replicate 4096 (65 : UInt8)).length = 4096 := List.length_replicate
  refine ⟨mf, w', h, delivers_file_iff h ?_ ?_ ?_ fun _ => Request.ofSize_pos⟩
  · rw [hlen]
    rfl
  · rw [hlen]
    decide
  · rw [hlen]
    rfl

/-- Two blocks that differ. -/
def twoBlocks : List UInt8 := List.replicate 4096 65 ++ List.replicate 4096 66

theorem length_twoBlocks : twoBlocks.length = 8192 := by
  rw [twoBlocks, List.length_append, List.length_replicate, List.length_replicate]

theorem twoBlocks_opened :
    ∃ mf w', myFopen (.smooth 8192 fun _ => ⟨8192, twoBlocks⟩) "r" World.start = .ok mf w' ∧
      mf.Ready ∧ mf.pos = 0 ∧ mf.fi.padded = twoBlocks := by
  obtain ⟨mf, w', h, ho⟩ := smooth_opened 8192 (by decide) "r" fun _ => ⟨8192, twoBlocks⟩
  have hlen : mf.fi.padded.length = 8192 := ho.length_padded
  have htake := ho.data (Nat.le_of_eq length_twoBlocks)
  change mf.fi.padded.take twoBlocks.length = twoBlocks at htake
  rw [length_twoBlocks, List.take_of_length_le (Nat.le_of_eq hlen)] at htake
  exact ⟨mf, w', h, ho.ready (not_neg_of_lt (n := 8192) (by decide)), ho.pos, htake⟩

/-- The kernel's rule for a vectored read of the file `f`. -/
def readvRule (f : List UInt8) (sqe : Sqe) : Completion :=
  if sqe.len.toNat > uioMaxiov then ⟨-22, []⟩ else ⟨Int32.ofNat f.length, f⟩

theorem delivers_nil_of_failed {mf : MyFile} (h : mf.Sound) (h0 : mf.isfirst = 0)
    (hp : mf.pos < mf.fi.padded.length) (hres : mf.cqe.res < 0) {qs : Nat → Request}
    {out : List UInt8} (hout : mf.Delivers qs out) : out = [] := by
  obtain ⟨turns, hturns⟩ := hout
  cases turns with
  | zero => cases hturns
  | succ turns =>
    rw [readLoop, myFread_failed h h0 hres hp] at hturns
    simpa using hturns.symm

theorem delivers_nil_of_long {o : Outcomes} {w w' : World} {mf : MyFile} {f : List UInt8}
    {qs : Nat → Request} (hopen : myFopen o "r" w = .ok mf w')
    (hstat : o.fstat = some (Int64.ofNat f.length)) (hlong : uioMaxiov * 4096 < f.length)
    (hlt : f.length < 2 ^ 31) (hkernel : o.kernel = readvRule f) {out : List UInt8}
    (hout : mf.Delivers qs out) : out = [] := by
  have ho := opened_of_stat hopen hstat hlt
  have hlen := ho.request_len
  have hpadded := ho.length_padded
  have hmax : uioMaxiov = 1024 := rfl
  have hres : o.kernel mf.request = ⟨-22, []⟩ := by
    rw [hkernel, readvRule, if_pos (by omega)]
  have hcqe : mf.cqe.res < 0 := by
    rw [ho.res, hres]
    decide
  exact delivers_nil_of_failed ho.sound ho.isfirst (by rw [ho.pos]; omega) hcqe hout

/-- The loop of `cat` delivers the file exactly when one request can name all
its blocks. -/
theorem cat_delivers_iff {o : Outcomes} {w w' : World} {mf : MyFile} {f : List UInt8}
    {k : Nat} {qs : Nat → Request} (hopen : myFopen o "r" w = .ok mf w')
    (hstat : o.fstat = some (Int64.ofNat f.length)) (hpos : 1 ≤ f.length)
    (hlt : f.length < 2 ^ 31) (hkernel : o.kernel = readvRule f) (hk : 0 < k)
    (hqs : ∀ i, (qs i).bytes = k) :
    (∃ out, mf.Delivers qs out ∧ f.length ≤ out.length ∧ out.take f.length = f) ↔
      f.length ≤ uioMaxiov * 4096 := by
  constructor
  · rintro ⟨out, hout, hle, -⟩
    by_contra hbig
    have hnil := delivers_nil_of_long hopen hstat (Nat.lt_of_not_le hbig) hlt hkernel hout
    rw [hnil, List.length_nil] at hle
    omega
  · intro hle
    have ho := opened_of_stat hopen hstat hlt
    have hlen := ho.request_len
    have hpadded := ho.length_padded
    have hmax : uioMaxiov = 1024 := rfl
    have hfull : o.kernel mf.request = ⟨Int32.ofNat f.length, f⟩ := by
      rw [hkernel, readvRule, if_neg (by omega)]
    have hready : mf.Ready := ho.ready (by rw [hfull]; exact not_neg_of_lt hlt)
    have hdata := ho.data
    rw [hfull] at hdata
    refine ⟨mf.fi.padded, ?_, by omega, hdata (Nat.le_refl _)⟩
    rw [mf.delivers_iff_padded hready ho.pos fun i => by rw [hqs i]; exact hk]

theorem four_mebibyte_file_is_lost :
    ∃ f : List UInt8, f.length = 4194305 ∧ ∃ mf w',
      myFopen (.smooth (Int64.ofNat 4194305) (readvRule f)) "r" World.start = .ok mf w' ∧
      ¬ ∃ out, mf.Delivers (fun _ => .ofSize 8) out ∧ f.length ≤ out.length ∧
        out.take f.length = f := by
  obtain ⟨f, hf⟩ : ∃ f : List UInt8, f.length = 4194305 :=
    ⟨List.replicate 4194305 65, List.length_replicate⟩
  obtain ⟨mf, w', h, -⟩ := smooth_opened 4194305 (by decide) "r" (readvRule f)
  refine ⟨f, hf, mf, w', h, ?_⟩
  rintro ⟨out, hout, hle, -⟩
  have hnil := delivers_nil_of_long h (by rw [hf]; rfl) (by rw [hf]; decide)
    (by rw [hf]; decide) rfl hout
  rw [hnil, hf, List.length_nil] at hle
  omega

theorem cat_delivers_one_byte :
    ∃ mf w', myFopen (.smooth 1 (readvRule [65])) "r" World.start = .ok mf w' ∧
      ((∃ out, mf.Delivers (fun _ => .ofSize 8) out ∧ [(65 : UInt8)].length ≤ out.length ∧
          out.take [(65 : UInt8)].length = [65]) ↔
        [(65 : UInt8)].length ≤ uioMaxiov * 4096) := by
  obtain ⟨mf, w', h, -⟩ := smooth_opened 1 (by decide) "r" (readvRule [65])
  exact ⟨mf, w', h, cat_delivers_iff (k := 8) h rfl (by decide) (by decide) rfl (by decide)
    fun _ => Request.bytes_ofSize 8⟩

end IoUring
