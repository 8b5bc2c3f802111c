import IoUring.FreadLoop

/-! What one call of `my_fread` does: it is one read from the padded stream,
except that the call which finds a failed completion reads nothing. -/

namespace IoUring

/-- The completion that the first call fetches. -/
def MyFile.cqe (mf : MyFile) : Cqe :=
  mf.s.cqRing.cqes (mf.s.cqRing.head &&& mf.s.cqRing.ringMask)

def MyFile.pos (mf : MyFile) : Nat :=
  mf.currentBlock.toUInt32.toNat * 4096 + mf.currentOffset.toNat

def MyFile.fetch (mf : MyFile) : MyFile :=
  { mf with fiRead := some mf.cqe.userData, isfirst := 1 }

/-- A call fetches the completion when it is the first one and not at the end. -/
def MyFile.visited (mf : MyFile) : MyFile :=
  if mf.isfirst = 0 ∧ mf.pos < mf.fi.padded.length then mf.fetch else mf

/-- The handle with its cursor at `pos`. The completion head is advanced by the
number of blocks passed. -/
def MyFile.moveTo (mf : MyFile) (pos : Nat) : MyFile :=
  { mf.setHead (mf.s.cqRing.head + (UInt32.ofNat (pos / 4096) - mf.currentBlock.toUInt32)) with
    currentBlock := (UInt32.ofNat (pos / 4096)).toInt32
    currentOffset := UInt64.ofNat (pos % 4096) }

/-- The invariant of an open handle. -/
structure MyFile.Sound (mf : MyFile) : Prop where
  blocks : mf.blocks.toUInt32.toNat = mf.fi.iovecs.length
  blocks_lt : mf.fi.iovecs.length < 2 ^ 31
  sized : mf.fi.Sized
  block_le : mf.currentBlock.toUInt32.toNat ≤ mf.fi.iovecs.length
  offset_lt : mf.currentOffset.toNat < 4096
  at_end : mf.currentBlock.toUInt32.toNat = mf.fi.iovecs.length → mf.currentOffset = 0
  posted : mf.isfirst = 0 → mf.s.cqRing.head ≠ mf.s.cqRing.tail
  user_data : mf.isfirst = 0 → mf.cqe.userData = mf.fi.addr
  fetched : mf.isfirst ≠ 0 → mf.fiRead = some mf.fi.addr

theorem MyFile.deref_self (mf : MyFile) : mf.deref mf.fi.addr = some mf.fi := by
  simp [MyFile.deref]

theorem MyFile.Sound.pos_le {mf : MyFile} (h : mf.Sound) : mf.pos ≤ mf.fi.padded.length := by
  rw [mf.fi.length_padded, MyFile.pos]
  by_cases he : mf.currentBlock.toUInt32.toNat = mf.fi.iovecs.length
  · simp [he, h.at_end he]
  · have := h.block_le
    have := h.offset_lt
    omega

theorem MyFile.Sound.pos_div {mf : MyFile} (h : mf.Sound) :
    mf.pos / 4096 = mf.currentBlock.toUInt32.toNat := by
  have := h.offset_lt
  rw [MyFile.pos]
  omega

theorem MyFile.Sound.pos_mod {mf : MyFile} (h : mf.Sound) :
    mf.pos % 4096 = mf.currentOffset.toNat := by
  have := h.offset_lt
  rw [MyFile.pos]
  omega

theorem MyFile.Sound.at_end_iff {mf : MyFile} (h : mf.Sound) :
    mf.currentBlock.toUInt32 ≥ mf.blocks.toUInt32 ↔ mf.pos = mf.fi.padded.length := by
  have hle := h.block_le
  have hlt := h.offset_lt
  rw [ge_iff_le, UInt32.le_iff_toNat_le, h.blocks, mf.fi.length_padded, MyFile.pos]
  constructor
  · intro hge
    have he : mf.currentBlock.toUInt32.toNat = mf.fi.iovecs.length := by omega
    simp [he, h.at_end he]
  · intro hpos
    omega

theorem MyFile.Sound.moveTo_pos {mf : MyFile} (h : mf.Sound) : mf.moveTo mf.pos = mf := by
  rw [MyFile.moveTo, h.pos_div, h.pos_mod]
  simp [MyFile.setHead]

theorem MyFile.moveTo_moveTo (mf : MyFile) (p q : Nat) :
    (mf.moveTo p).moveTo q = mf.moveTo q := by
  have hhead : ∀ a b c d : UInt32, a + (b - c) + (d - b) = a + (d - c) := by
    intro a b c d
    grind
  simp [MyFile.moveTo, MyFile.setHead, hhead]

theorem MyFile.pos_moveTo {mf : MyFile} {p : Nat} (hp : p / 4096 < 2 ^ 32) :
    (mf.moveTo p).pos = p := by
  simp only [MyFile.pos, MyFile.moveTo, UInt32.toUInt32_toInt32, UInt32.toNat_ofNat',
    UInt64.toNat_ofNat']
  omega

theorem MyFile.Sound.div_lt {mf : MyFile} (h : mf.Sound) {p : Nat}
    (hp : p ≤ mf.fi.padded.length) : p / 4096 ≤ mf.fi.iovecs.length ∧ p / 4096 < 2 ^ 32 := by
  have := h.blocks_lt
  rw [mf.fi.length_padded] at hp
  omega

theorem MyFile.Sound.fetch {mf : MyFile} (h : mf.Sound) (h0 : mf.isfirst = 0) :
    mf.fetch.Sound where
  blocks := h.blocks
  blocks_lt := h.blocks_lt
  sized := h.sized
  block_le := h.block_le
  offset_lt := h.offset_lt
  at_end := h.at_end
  posted := fun h1 => absurd h1 (by simp [MyFile.fetch])
  user_data := fun h1 => absurd h1 (by simp [MyFile.fetch])
  fetched := fun _ => congrArg some (h.user_data h0)

theorem MyFile.Sound.visited {mf : MyFile} (h : mf.Sound) : mf.visited.Sound := by
  rw [MyFile.visited]
  split
  · next hv => exact h.fetch hv.1
  · exact h

theorem MyFile.Sound.moveTo {mf : MyFile} (h : mf.Sound) (h1 : mf.isfirst ≠ 0) {p : Nat}
    (hp : p ≤ mf.fi.padded.length) : (mf.moveTo p).Sound := by
  obtain ⟨hdiv, hdiv'⟩ := h.div_lt hp
  have hblock : (mf.moveTo p).currentBlock.toUInt32.toNat = p / 4096 := by
    simp only [MyFile.moveTo, UInt32.toUInt32_toInt32, UInt32.toNat_ofNat']
    omega
  have hoffset : (mf.moveTo p).currentOffset.toNat = p % 4096 := by
    simp only [MyFile.moveTo, UInt64.toNat_ofNat']
    omega
  refine ⟨h.blocks, h.blocks_lt, h.sized, ?_, ?_, ?_, ?_, ?_, ?_⟩
  · rw [hblock]
    exact hdiv
  · rw [hoffset]
    omega
  · rw [hblock]
    intro he
    change p / 4096 = mf.fi.iovecs.length at he
    rw [mf.fi.length_padded] at hp
    apply UInt64.toNat_inj.mp
    rw [hoffset, UInt64.toNat_zero]
    omega
  · exact fun h0 => absurd h0 h1
  · exact fun h0 => absurd h0 h1
  · exact fun _ => h.fetched h1

theorem MyFile.visited_pos (mf : MyFile) : mf.visited.pos = mf.pos := by
  rw [MyFile.visited]
  split <;> rfl

theorem MyFile.visited_fi (mf : MyFile) : mf.visited.fi = mf.fi := by
  rw [MyFile.visited]
  split <;> rfl

theorem MyFile.visited_isfirst {mf : MyFile} (hp : mf.pos < mf.fi.padded.length) :
    mf.visited.isfirst ≠ 0 := by
  rw [MyFile.visited]
  split
  · simp [MyFile.fetch]
  · next hv => exact fun h0 => hv ⟨h0, hp⟩

theorem MyFile.visited_eq_self {mf : MyFile} (h : mf.isfirst ≠ 0 ∨ mf.pos = mf.fi.padded.length) :
    mf.visited = mf := by
  rw [MyFile.visited]
  rw [if_neg]
  rintro ⟨h0, hp⟩
  rcases h with h | h
  · exact h h0
  · omega

/-- The state in which a call enters its loop. -/
def MyFile.entry (mf : MyFile) (ptr : Nat → UInt8) : FreadState :=
  ⟨mf, mf.s.cqRing.head, mf.currentBlock.toUInt32, mf.currentOffset, 0, ptr, []⟩

/-- What a call returns and leaves behind after its loop. -/
def FreadState.result (st : FreadState) : FreadResult where
  ret := st.bytesRead
  ptr := st.ptr
  mf := { st.mf.setHead st.head with
    currentBlock := st.index.toInt32
    currentOffset := st.offset }
  copies := st.copies

theorem myFread_eq_map {mf : MyFile} (hend : ¬ mf.currentBlock.toUInt32 ≥ mf.blocks.toUInt32)
    (ptr : Nat → UInt8) (size count : UInt64) :
    myFread ptr size count mf =
      (freadLoop (size * count) ((size * count).toNat + 1) (mf.entry ptr)).map
        FreadState.result := by
  rw [myFread, if_neg hend, MyFile.entry]
  cases freadLoop (size * count) ((size * count).toNat + 1)
    ⟨mf, mf.s.cqRing.head, mf.currentBlock.toUInt32, mf.currentOffset, 0, ptr, []⟩ <;> rfl

theorem freadTurn_fetched {total : UInt64} {st : FreadState} {p : Ptr}
    (h1 : st.mf.isfirst ≠ 0) (hp : st.mf.fiRead = some p) :
    freadTurn total st = freadCopy total p st := by
  simp only [freadTurn, h1, false_and, if_false, hp]

theorem freadTurn_first {total : UInt64} {st : FreadState} (h0 : st.mf.isfirst = 0)
    (hhead : st.head = st.mf.s.cqRing.head) (hne : st.mf.s.cqRing.head ≠ st.mf.s.cqRing.tail)
    (hres : ¬ st.mf.cqe.res < 0) :
    freadTurn total st = freadTurn total { st with mf := st.mf.fetch } := by
  have hfetch : freadTurn total { st with mf := st.mf.fetch } =
      freadCopy total st.mf.cqe.userData { st with mf := st.mf.fetch } :=
    freadTurn_fetched (by simp [MyFile.fetch]) rfl
  have hres' : ¬ (st.mf.s.cqRing.cqes (st.mf.s.cqRing.head &&& st.mf.s.cqRing.ringMask)).res < 0 :=
    hres
  rw [hfetch]
  simp only [freadTurn, h0, hhead, hne, and_false, if_false, if_true, hres']
  rfl

theorem freadLoop_copied (total : UInt64) (turns : Nat) (st : FreadState)
    (h1 : st.mf.isfirst ≠ 0) (hp : st.mf.fiRead = some st.mf.fi.addr)
    (hblocks : st.mf.blocks.toUInt32.toNat = st.mf.fi.iovecs.length)
    (hs : st.mf.fi.Sized) (hn : st.mf.fi.iovecs.length < 2 ^ 31)
    (hf : st.InFile st.mf.fi) (hi : st.index.toNat < st.mf.fi.iovecs.length)
    (hb : st.bytesRead.toNat ≤ total.toNat)
    (ht : total.toNat - st.bytesRead.toNat < turns) :
    ∃ st' c, freadLoop total turns st = some st' ∧ Copied st.mf.fi st st' c ∧
      st'.bytesRead.toNat ≤ total.toNat ∧
      (st'.bytesRead.toNat = total.toNat ∨ st'.index.toNat = st.mf.fi.iovecs.length) := by
  induction turns generalizing st with
  | zero => omega
  | succ turns ih =>
    obtain ⟨st', c, hc, hle, hprog, hcopy⟩ := freadCopy_spec st.mf.deref_self hs hn hf hi hb
    have hturn := (freadTurn_fetched h1 hp).trans hcopy
    by_cases hdone : st'.bytesRead.toNat = total.toNat
    · refine ⟨st', c, ?_, hc, hle, Or.inl hdone⟩
      rw [freadLoop, hturn, if_pos hdone]
    · have hlt : st'.index < st'.mf.blocks.toUInt32 ↔
          st'.index.toNat < st.mf.fi.iovecs.length := by
        rw [UInt32.lt_iff_toNat_lt, hc.mf, hblocks]
      have hloop : freadLoop total (turns + 1) st =
          if st'.index < st'.mf.blocks.toUInt32 then freadLoop total turns st' else some st' := by
        rw [freadLoop, hturn, if_neg hdone]
      by_cases hmore : st'.index.toNat < st.mf.fi.iovecs.length
      · have hread := hc.bytesRead
        have hmf := hc.mf
        obtain ⟨st'', c', hrun, hc', hle', hend⟩ :=
          ih st' (by rw [hmf]; exact h1) (by rw [hmf]; exact hp) (by rw [hmf]; exact hblocks)
            (by rw [hmf]; exact hs) (by rw [hmf]; exact hn) (by rw [hmf]; exact hc.inFile)
            (by rw [hmf]; exact hmore) hle (by omega)
        rw [hmf] at hc' hend
        refine ⟨st'', c + c', ?_, hc.trans hc', hle', hend⟩
        rw [hloop, if_pos (hlt.mpr hmore), hrun]
      · refine ⟨st', c, ?_, hc, hle, Or.inr ?_⟩
        · rw [hloop, if_neg (hlt.not.mpr hmore)]
        · have := hc.inFile.index_le
          omega

/-- The call that fetches a successful completion reads as if it had been
fetched before. -/
theorem myFread_visited {mf : MyFile} (h : mf.Sound) (hok : mf.isfirst = 0 → ¬ mf.cqe.res < 0)
    (ptr : Nat → UInt8) (size count : UInt64) :
    myFread ptr size count mf = myFread ptr size count mf.visited := by
  by_cases hv : mf.isfirst = 0 ∧ mf.pos < mf.fi.padded.length
  · have heq : mf.visited = mf.fetch := if_pos hv
    have hturn : freadTurn (size * count) (mf.entry ptr) =
        freadTurn (size * count) (mf.fetch.entry ptr) :=
      freadTurn_first hv.1 rfl (h.posted hv.1) (hok hv.1)
    have hloop : freadLoop (size * count) ((size * count).toNat + 1) (mf.entry ptr) =
        freadLoop (size * count) ((size * count).toNat + 1) (mf.fetch.entry ptr) := by
      rw [freadLoop, freadLoop, hturn]
    have hend : ¬ mf.currentBlock.toUInt32 ≥ mf.blocks.toUInt32 := by
      rw [h.at_end_iff]
      omega
    have hend' : ¬ mf.fetch.currentBlock.toUInt32 ≥ mf.fetch.blocks.toUInt32 := hend
    rw [heq, myFread_eq_map hend, myFread_eq_map hend', hloop]
  · have heq : mf.visited = mf := if_neg hv
    rw [heq]

theorem myFread_at_end {mf : MyFile} (h : mf.Sound) (hend : mf.pos = mf.fi.padded.length)
    (ptr : Nat → UInt8) (size count : UInt64) :
    myFread ptr size count mf = some ⟨0, ptr, mf, []⟩ := by
  rw [myFread, if_pos (h.at_end_iff.mpr hend)]

theorem myFread_fetched {mf : MyFile} (h : mf.Sound) (h1 : mf.isfirst ≠ 0)
    (ptr : Nat → UInt8) (size count : UInt64) :
    let total := (size * count).toNat
    let xs := Cursor.read mf.fi.padded mf.pos total
    ∃ copies, CopyChain mf.fi.iovecs.length 0 copies xs.length ∧
      myFread ptr size count mf = some
        ⟨UInt64.ofNat xs.length, memcpy ptr 0 xs,
          mf.moveTo (Cursor.seek mf.fi.padded mf.pos total), copies⟩ := by
  intro total xs
  have hpos := h.pos_le
  have hlen : xs.length = min total (mf.fi.padded.length - mf.pos) := Cursor.length_read _ _ _
  by_cases hend : mf.pos = mf.fi.padded.length
  · have hnil : xs = [] := Cursor.read_eq_nil_iff.mpr (Or.inr (by omega))
    have hseek : Cursor.seek mf.fi.padded mf.pos total = mf.pos := by
      simp only [Cursor.seek]
      omega
    refine ⟨[], ?_, ?_⟩
    · rw [hnil]
      exact rfl
    · rw [myFread_at_end h hend, hnil, hseek, h.moveTo_pos, memcpy_nil]
      rfl
  · have hindex : mf.currentBlock.toUInt32.toNat < mf.fi.iovecs.length := by
      have := h.pos_div
      rw [mf.fi.length_padded] at hend hpos
      omega
    obtain ⟨st, c, hrun, hc, hle, hstop⟩ :=
      freadLoop_copied (size * count) ((size * count).toNat + 1) (mf.entry ptr) h1
        (h.fetched h1) h.blocks h.sized h.blocks_lt
        ⟨h.offset_lt, h.block_le, h.at_end⟩ hindex (Nat.zero_le _)
        (Nat.lt_succ_of_le (Nat.sub_le _ _))
    have hread : st.bytesRead.toNat = c := hc.bytesRead.trans (Nat.zero_add c)
    have hstpos : st.pos = mf.pos + c := hc.pos
    have hstle : st.pos ≤ mf.fi.padded.length := hc.inFile.pos_le
    -- the loop stopped because one of the two limits of a read was reached
    have hcount : c = xs.length := by
      rcases hstop with hstop | hstop
      · have : c = total := hread.symm.trans hstop
        omega
      · have hoff : st.offset = 0 := hc.inFile.at_end hstop
        have : st.pos = mf.fi.padded.length := by
          simp only [FreadState.pos, hoff, hstop, mf.fi.length_padded, UInt64.toNat_zero,
            Nat.add_zero, MyFile.entry]
        have : c ≤ total := by omega
        omega
    have hseek : Cursor.seek mf.fi.padded mf.pos total = st.pos := by
      simp only [Cursor.seek]
      omega
    have hxs : Cursor.read mf.fi.padded mf.pos c = xs := by
      rw [hcount]
      exact Cursor.read_length _ _ _
    obtain ⟨cs, hcs, hchain⟩ := hc.copies
    obtain ⟨hix, hox⟩ := hc.inFile.index_eq
    have hhead : st.head = mf.s.cqRing.head + (st.index - mf.currentBlock.toUInt32) := by
      have hh : st.head - st.index = mf.s.cqRing.head - mf.currentBlock.toUInt32 := hc.head
      grind
    refine ⟨cs, ?_, ?_⟩
    · rw [← hcount, ← hread]
      exact hchain
    · have hnot : ¬ mf.currentBlock.toUInt32 ≥ mf.blocks.toUInt32 := h.at_end_iff.not.mpr hend
      have hcopies : st.copies = cs := hcs
      have hptr : st.ptr = memcpy ptr 0 xs := by
        rw [← hxs]
        exact hc.ptr
      have hret : st.bytesRead = UInt64.ofNat xs.length := by
        rw [← hcount, ← hread, UInt64.ofNat_toNat]
      rw [myFread_eq_map hnot, hrun, Option.map_some]
      simp only [FreadState.result, hret, hptr, hcopies, hc.mf, MyFile.entry, hseek,
        MyFile.moveTo, ← hix, ← hox, hhead]

/-- A call reads from the padded stream: the value returned, the bytes stored and
the cursor are those of one read of `size * count` bytes, and the loop ends. -/
theorem myFread_spec {mf : MyFile} (h : mf.Sound) (hok : mf.isfirst = 0 → ¬ mf.cqe.res < 0)
    (ptr : Nat → UInt8) (size count : UInt64) :
    let total := (size * count).toNat
    let xs := Cursor.read mf.fi.padded mf.pos total
    ∃ copies, CopyChain mf.fi.iovecs.length 0 copies xs.length ∧
      myFread ptr size count mf = some
        ⟨UInt64.ofNat xs.length, memcpy ptr 0 xs,
          mf.visited.moveTo (Cursor.seek mf.fi.padded mf.pos total), copies⟩ := by
  by_cases hlt : mf.pos < mf.fi.padded.length
  · have hspec := myFread_fetched h.visited (MyFile.visited_isfirst hlt) ptr size count
    rw [mf.visited_fi, mf.visited_pos] at hspec
    rw [myFread_visited h hok]
    exact hspec
  · have hpos := h.pos_le
    have hend : mf.pos = mf.fi.padded.length := by omega
    have hnil : Cursor.read mf.fi.padded mf.pos (size * count).toNat = [] :=
      Cursor.read_eq_nil_iff.mpr (Or.inr (by omega))
    have hseek : Cursor.seek mf.fi.padded mf.pos (size * count).toNat = mf.pos := by
      simp only [Cursor.seek]
      omega
    refine ⟨[], ?_, ?_⟩
    · rw [hnil]
      exact rfl
    · rw [myFread_at_end h hend, hnil, hseek, MyFile.visited_eq_self (Or.inr hend),
        h.moveTo_pos, memcpy_nil]
      rfl

/-- The call that fetches a failed completion returns 0 and keeps the cursor,
but the handle no longer looks like one whose completion is to be fetched. -/
theorem myFread_failed {mf : MyFile} (h : mf.Sound) (h0 : mf.isfirst = 0)
    (hres : mf.cqe.res < 0) (hp : mf.pos < mf.fi.padded.length)
    (ptr : Nat → UInt8) (size count : UInt64) :
    myFread ptr size count mf = some ⟨0, ptr, mf.fetch, []⟩ := by
  have hend : ¬ mf.currentBlock.toUInt32 ≥ mf.blocks.toUInt32 := by
    rw [h.at_end_iff]
    omega
  have hres' : (mf.s.cqRing.cqes (mf.s.cqRing.head &&& mf.s.cqRing.ringMask)).res < 0 := hres
  have hturn : freadTurn (size * count) (mf.entry ptr) =
      some (.brk { mf.entry ptr with mf := mf.fetch }) := by
    simp only [freadTurn, MyFile.entry, h0, h.posted h0, and_false, if_false, if_true, hres']
    rfl
  rw [myFread_eq_map hend, freadLoop, hturn]
  simp [FreadState.result, MyFile.entry, MyFile.fetch, MyFile.setHead]

end IoUring
