import IoUring.FreadSpec

/-! Runs of `my_fread` calls on one handle, with any destinations and sizes. -/

namespace IoUring

structure Request where
  ptr : Nat → UInt8
  size : UInt64
  count : UInt64

/-- The number of bytes asked for, modulo 2^64 as in the code. -/
def Request.bytes (q : Request) : Nat := (q.size * q.count).toNat

def freadRun : MyFile → List Request → Option (List FreadResult × MyFile)
  | mf, [] => some ([], mf)
  | mf, q :: qs =>
    match myFread q.ptr q.size q.count mf with
    | none => none
    | some r => (freadRun r.mf qs).map fun rest => (r :: rest.1, rest.2)

theorem freadRun_cons {mf mf' : MyFile} {q : Request} {qs : List Request} {r : FreadResult}
    {rs : List FreadResult} (hcall : myFread q.ptr q.size q.count mf = some r) :
    freadRun mf (q :: qs) = some (rs, mf') ↔
      ∃ rest, freadRun r.mf qs = some (rest, mf') ∧ rs = r :: rest := by
  rw [freadRun, hcall]
  simp only [Option.map_eq_some_iff, Prod.mk.injEq]
  constructor
  · rintro ⟨⟨rest, last⟩, hrest, rfl, rfl⟩
    exact ⟨rest, hrest, rfl⟩
  · rintro ⟨rest, hrest, rfl⟩
    exact ⟨(rest, mf'), hrest, rfl, rfl⟩

theorem freadRun_at_end {mf : MyFile} (h : mf.Sound) (hend : mf.pos = mf.fi.padded.length)
    (qs : List Request) :
    freadRun mf qs = some (qs.map fun q => ⟨0, q.ptr, mf, []⟩, mf) := by
  induction qs with
  | nil => rfl
  | cons q qs ih =>
    exact (freadRun_cons (myFread_at_end h hend q.ptr q.size q.count)).mpr ⟨_, ih, rfl⟩

/-- `while ((n = my_fread(...)) > 0)`: what was copied out until a call returned
0, if that happened within the given number of turns. -/
def readLoop : Nat → MyFile → (Nat → Request) → Option (List UInt8)
  | 0, _, _ => none
  | turns + 1, mf, qs =>
    match myFread (qs 0).ptr (qs 0).size (qs 0).count mf with
    | none => none
    | some r =>
      if r.ret = 0 then some []
      else (readLoop turns r.mf (fun i => qs (i + 1))).map (r.bytes ++ ·)

def MyFile.Delivers (mf : MyFile) (qs : Nat → Request) (out : List UInt8) : Prop :=
  ∃ turns, readLoop turns mf qs = some out

/-- A sound handle on which no failed completion is waiting to be fetched. -/
structure MyFile.Ready (mf : MyFile) : Prop extends mf.Sound where
  success : mf.isfirst = 0 → ¬ mf.cqe.res < 0

def MyFile.after (mf : MyFile) (k : Nat) : MyFile :=
  mf.visited.moveTo (Cursor.seek mf.fi.padded mf.pos k)

theorem MyFile.Sound.after_at_end {mf : MyFile} (h : mf.Sound)
    (hend : mf.pos = mf.fi.padded.length) (k : Nat) : mf.after k = mf := by
  have hseek : Cursor.seek mf.fi.padded mf.pos k = mf.pos := by
    simp only [Cursor.seek]
    omega
  rw [MyFile.after, hseek, MyFile.visited_eq_self (Or.inr hend), h.moveTo_pos]

theorem MyFile.after_fi (mf : MyFile) (k : Nat) : (mf.after k).fi = mf.fi := mf.visited_fi

theorem MyFile.Sound.after_pos {mf : MyFile} (h : mf.Sound) (k : Nat) :
    (mf.after k).pos = Cursor.seek mf.fi.padded mf.pos k :=
  MyFile.pos_moveTo (h.div_lt (Cursor.seek_le _ _ _)).2

theorem MyFile.Sound.after_isfirst {mf : MyFile} (h : mf.Sound) (k : Nat) :
    (mf.after k).isfirst ≠ 0 ∨ (mf.after k).pos = (mf.after k).fi.padded.length := by
  rcases Nat.lt_or_ge mf.pos mf.fi.padded.length with hp | hp
  · exact Or.inl (MyFile.visited_isfirst hp)
  · have hend : mf.pos = mf.fi.padded.length := Nat.le_antisymm h.pos_le hp
    rw [h.after_at_end hend]
    exact Or.inr hend

theorem MyFile.Sound.after {mf : MyFile} (h : mf.Sound) (k : Nat) : (mf.after k).Sound := by
  rcases Nat.lt_or_ge mf.pos mf.fi.padded.length with hp | hp
  · refine h.visited.moveTo (MyFile.visited_isfirst hp) ?_
    rw [mf.visited_fi]
    exact Cursor.seek_le _ _ _
  · rw [h.after_at_end (Nat.le_antisymm h.pos_le hp)]
    exact h

theorem MyFile.Ready.after {mf : MyFile} (h : mf.Ready) (k : Nat) : (mf.after k).Ready where
  toSound := h.toSound.after k
  success := by
    rcases Nat.lt_or_ge mf.pos mf.fi.padded.length with hp | hp
    · exact fun h0 => absurd h0 (MyFile.visited_isfirst hp)
    · rw [h.toSound.after_at_end (Nat.le_antisymm h.toSound.pos_le hp)]
      exact h.success

theorem MyFile.Sound.after_after {mf : MyFile} (h : mf.Sound) (a b : Nat) :
    (mf.after a).after b = mf.after (a + b) := by
  have hv : (mf.after a).visited = mf.after a := MyFile.visited_eq_self (h.after_isfirst a)
  rw [MyFile.after, hv, h.after_pos, mf.after_fi, ← Cursor.seek_add]
  exact MyFile.moveTo_moveTo _ _ _

/-- What one call on a ready handle returns, stores and leaves behind. -/
structure Served (mf : MyFile) (q : Request) (r : FreadResult) : Prop where
  ret : r.ret.toNat = (Cursor.read mf.fi.padded mf.pos q.bytes).length
  bytes : r.bytes = Cursor.read mf.fi.padded mf.pos q.bytes
  ptr : r.ptr = memcpy q.ptr 0 (Cursor.read mf.fi.padded mf.pos q.bytes)
  copies : CopyChain mf.fi.iovecs.length 0 r.copies r.ret.toNat
  mf : r.mf = mf.after q.bytes

theorem myFread_served {mf : MyFile} (h : mf.Ready) (q : Request) :
    ∃ r, myFread q.ptr q.size q.count mf = some r ∧ Served mf q r := by
  obtain ⟨copies, hchain, hcall⟩ :=
    myFread_spec h.toSound h.success q.ptr q.size q.count
  have hlt : (Cursor.read mf.fi.padded mf.pos q.bytes).length < 2 ^ 64 := by
    have := (q.size * q.count).toNat_lt
    rw [Cursor.length_read, Request.bytes]
    omega
  have hret : (UInt64.ofNat (Cursor.read mf.fi.padded mf.pos q.bytes).length).toNat =
      (Cursor.read mf.fi.padded mf.pos q.bytes).length := by
    rw [UInt64.toNat_ofNat', Nat.mod_eq_of_lt hlt]
  refine ⟨_, hcall, hret, ?_, rfl, ?_, rfl⟩
  · simp only [FreadResult.bytes]
    change (List.range (UInt64.ofNat (Cursor.read mf.fi.padded mf.pos q.bytes).length).toNat).map _ = _
    rw [hret]
    exact range_map_memcpy _ _
  · change CopyChain _ 0 copies
      (UInt64.ofNat (Cursor.read mf.fi.padded mf.pos q.bytes).length).toNat
    rw [hret]
    exact hchain

theorem Served.ret_eq_zero {mf : MyFile} {q : Request} {r : FreadResult} (h : Served mf q r) :
    r.ret = 0 ↔ Cursor.read mf.fi.padded mf.pos q.bytes = [] := by
  rw [← List.length_eq_zero_iff, ← h.ret, ← UInt64.toNat_inj, UInt64.toNat_zero]

/-- A run of calls reads what one call for all of it would read. -/
theorem freadRun_served {mf : MyFile} (h : mf.Ready) (qs : List Request) :
    ∃ rs, freadRun mf qs =
        some (rs, if qs = [] then mf else mf.after (qs.map Request.bytes).sum) ∧
      rs.flatMap FreadResult.bytes =
        Cursor.read mf.fi.padded mf.pos (qs.map Request.bytes).sum ∧
      (rs.map fun r => r.ret.toNat).sum =
        (Cursor.read mf.fi.padded mf.pos (qs.map Request.bytes).sum).length := by
  induction qs generalizing mf with
  | nil => exact ⟨[], by simp [freadRun], by simp, by simp⟩
  | cons q qs ih =>
    obtain ⟨r, hcall, hr⟩ := myFread_served h q
    have hnext : r.mf.Ready := by
      rw [hr.mf]
      exact h.after _
    obtain ⟨rs, hrun, hbytes, hsum⟩ := ih hnext
    have hread : Cursor.read r.mf.fi.padded r.mf.pos (qs.map Request.bytes).sum =
        Cursor.read mf.fi.padded (Cursor.seek mf.fi.padded mf.pos q.bytes)
          (qs.map Request.bytes).sum := by
      rw [hr.mf, h.toSound.after_pos, mf.after_fi]
    rw [hread] at hbytes hsum
    refine ⟨r :: rs, ?_, ?_, ?_⟩
    · have hmf : (if qs = [] then r.mf else r.mf.after (qs.map Request.bytes).sum) =
          mf.after ((q :: qs).map Request.bytes).sum := by
        split
        · next hnil => simp [hnil, hr.mf]
        · rw [hr.mf, h.toSound.after_after, List.map_cons, List.sum_cons]
      simp only [freadRun, hcall, hrun, Option.map_some, hmf, if_neg (List.cons_ne_nil q qs)]
    · rw [List.flatMap_cons, hr.bytes, hbytes, List.map_cons, List.sum_cons, Cursor.read_add]
    · rw [List.map_cons, List.sum_cons, hr.ret, hsum, List.map_cons, List.sum_cons,
        Cursor.read_add, List.length_append]

theorem readLoop_eq_drain {mf : MyFile} (h : mf.Ready) (turns : Nat) (qs : Nat → Request) :
    readLoop turns mf qs =
      Cursor.drain mf.fi.padded turns mf.pos (fun i => (qs i).bytes) := by
  induction turns generalizing mf qs with
  | zero => rfl
  | succ turns ih =>
    obtain ⟨r, hcall, hr⟩ := myFread_served h (qs 0)
    have hnext : r.mf.Ready := by
      rw [hr.mf]
      exact h.after _
    rw [readLoop, hcall, Cursor.drain]
    by_cases hz : r.ret = 0
    · simp only [if_pos hz, if_pos (hr.ret_eq_zero.mp hz)]
    · have hz' := hr.ret_eq_zero.not.mp hz
      simp only [if_neg hz, if_neg hz', ih hnext, hr.bytes]
      rw [hr.mf, h.toSound.after_pos, mf.after_fi]

end IoUring
