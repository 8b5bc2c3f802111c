import IoUring.Delivery

/-! Any run of calls on an open handle: how a request is cut into calls does not
matter, and no call leaves the blocks or the destination. -/

namespace IoUring

theorem MyFile.Ready.run {mf mf' : MyFile} {qs : List Request} {rs : List FreadResult}
    (h : mf.Ready) (hrun : freadRun mf qs = some (rs, mf')) : mf'.Ready := by
  obtain ⟨rs', hrun', -⟩ := freadRun_served h qs
  rw [hrun', Option.some_inj] at hrun
  cases hrun
  split
  · exact h
  · exact h.after _

theorem freadRun_eq_of_sum {mf : MyFile} (h : mf.Ready) {as bs : List Request} (ha : as ≠ [])
    (hb : bs ≠ []) (hsum : (as.map Request.bytes).sum = (bs.map Request.bytes).sum) :
    ∃ ra rb last, freadRun mf as = some (ra, last) ∧ freadRun mf bs = some (rb, last) ∧
      ra.flatMap FreadResult.bytes = rb.flatMap FreadResult.bytes ∧
      (ra.map fun r => r.ret.toNat).sum = (rb.map fun r => r.ret.toNat).sum := by
  obtain ⟨ra, hra, hbytes, hret⟩ := freadRun_served h as
  obtain ⟨rb, hrb, hbytes', hret'⟩ := freadRun_served h bs
  rw [if_neg ha, hsum] at hra
  rw [if_neg hb] at hrb
  rw [hsum] at hbytes hret
  exact ⟨ra, rb, _, hra, hrb, hbytes.trans hbytes'.symm, hret.trans hret'.symm⟩

theorem myFread_split {mf : MyFile} (h : mf.Ready) {q q' t : Request}
    (ht : t.bytes = q.bytes + q'.bytes) :
    ∃ r r' s, myFread q.ptr q.size q.count mf = some r ∧
      myFread q'.ptr q'.size q'.count r.mf = some r' ∧
      myFread t.ptr t.size t.count mf = some s ∧
      s.mf = r'.mf ∧ s.bytes = r.bytes ++ r'.bytes ∧
      s.ret.toNat = r.ret.toNat + r'.ret.toNat := by
  obtain ⟨r, hcall, hr⟩ := myFread_served h q
  have hnext : r.mf.Ready := by
    rw [hr.mf]
    exact h.after _
  obtain ⟨r', hcall', hr'⟩ := myFread_served hnext q'
  obtain ⟨s, hs, hserved⟩ := myFread_served h t
  have hread : Cursor.read mf.fi.padded mf.pos t.bytes =
      Cursor.read mf.fi.padded mf.pos q.bytes ++
        Cursor.read r.mf.fi.padded r.mf.pos q'.bytes := by
    rw [ht, Cursor.read_add, hr.mf, h.toSound.after_pos, mf.after_fi]
  refine ⟨r, r', s, hcall, hcall', hs, ?_, ?_, ?_⟩
  · rw [hserved.mf, hr'.mf, hr.mf, h.toSound.after_after, ht]
  · rw [hserved.bytes, hr.bytes, hr'.bytes, hread]
  · rw [hserved.ret, hr.ret, hr'.ret, hread, List.length_append]

/-- From every state that calls can reach, only the total of what is asked for
decides what is delivered and where the handle ends up. -/
theorem chunking_irrelevant {o : Outcomes} {mode : String} {w w' : World} {mf mf₁ : MyFile}
    {pre : List Request} {rs : List FreadResult} (hopen : myFopen o mode w = .ok mf w')
    (hres : 0 ≤ (o.kernel mf.request).res) (hpre : freadRun mf pre = some (rs, mf₁)) :
    (∀ as bs : List Request, as ≠ [] → bs ≠ [] →
      (as.map Request.bytes).sum = (bs.map Request.bytes).sum →
        ∃ ra rb last, freadRun mf₁ as = some (ra, last) ∧ freadRun mf₁ bs = some (rb, last) ∧
          ra.flatMap FreadResult.bytes = rb.flatMap FreadResult.bytes ∧
          (ra.map fun r => r.ret.toNat).sum = (rb.map fun r => r.ret.toNat).sum) ∧
    ∀ (p p' s : Nat → UInt8) (a b : UInt64), a.toNat + b.toNat < 2 ^ 64 →
      ∃ r r' t, myFread p 1 a mf₁ = some r ∧ myFread p' 1 b r.mf = some r' ∧
        myFread s 1 (a + b) mf₁ = some t ∧ t.mf = r'.mf ∧ t.bytes = r.bytes ++ r'.bytes ∧
        t.ret.toNat = r.ret.toNat + r'.ret.toNat := by
  obtain ⟨n, -, -, ho⟩ := myFopen_opened hopen
  have hready := (ho.ready (Int32.not_lt.mpr hres)).run hpre
  constructor
  · intro as bs ha hb hsum
    exact freadRun_eq_of_sum hready ha hb hsum
  · intro p p' s a b hab
    have ht : (⟨s, 1, a + b⟩ : Request).bytes =
        (⟨p, 1, a⟩ : Request).bytes + (⟨p', 1, b⟩ : Request).bytes := by
      simp only [Request.bytes, UInt64.one_mul, UInt64.toNat_add]
      exact Nat.mod_eq_of_lt hab
    have hsplit := myFread_split hready ht
    exact hsplit

/-- Two calls, the first of which ends in the second block, and one for all of it. -/
theorem chunking_two_blocks :
    ∃ mf w', myFopen (.smooth 8192 fun _ => ⟨8192, twoBlocks⟩) "r" World.start = .ok mf w' ∧
      ∃ ra rb last, freadRun mf [.ofSize 5000, .ofSize 3192] = some (ra, last) ∧
        freadRun mf [.ofSize 8192] = some (rb, last) ∧
        ra.flatMap FreadResult.bytes = twoBlocks ∧ rb.flatMap FreadResult.bytes = twoBlocks := by
  obtain ⟨mf, w', h, hready, hpos, hpadded⟩ := twoBlocks_opened
  obtain ⟨ra, rb, last, hra, hrb, hbytes, -⟩ :=
    (chunking_irrelevant h (show (0 : Int32) ≤ 8192 by decide)
      (show freadRun mf [] = _ from rfl)).1 [.ofSize 5000, .ofSize 3192] [.ofSize 8192]
      (List.cons_ne_nil _ _) (List.cons_ne_nil _ _) (by decide)
  obtain ⟨rs, hrs, hall, -⟩ := freadRun_served hready [.ofSize 8192]
  rw [hrb] at hrs
  cases hrs
  rw [hpadded, hpos, Cursor.read_all (by rw [length_twoBlocks]; decide)] at hall
  exact ⟨mf, w', h, ra, rb, _, hra, hrb, hbytes.trans hall, hall⟩

structure MyFile.CursorOk (mf : MyFile) : Prop where
  nonneg : 0 ≤ mf.currentBlock.toInt
  le_blocks : mf.currentBlock.toInt ≤ mf.blocks.toInt
  offset_lt : mf.currentOffset.toNat < blockSz
  at_end : mf.currentBlock = mf.blocks → mf.currentOffset = 0

/-- A call that stays in the blocks and in the destination it was given. -/
structure FreadResult.Bounded (mf : MyFile) (q : Request) (r : FreadResult) : Prop where
  source : ∀ c ∈ r.copies, c.block < mf.blocks.toInt ∧ c.src + c.len ≤ blockSz
  dest : ∀ c ∈ r.copies, c.dst + c.len ≤ (q.size * q.count).toNat
  disjoint : r.copies.Pairwise fun c d => c.dst + c.len ≤ d.dst
  ret_le : r.ret ≤ q.size * q.count
  untouched : ∀ i, r.ret.toNat ≤ i → r.ptr i = q.ptr i

theorem toInt_eq_toNat {x : Int32} (h : x.toUInt32.toNat < 2 ^ 31) :
    x.toInt = x.toUInt32.toNat := by
  have := toNat_toUInt32 x
  have := x.le_toInt
  have := x.toInt_lt
  omega

theorem MyFile.Sound.toInt_blocks {mf : MyFile} (h : mf.Sound) :
    mf.blocks.toInt = mf.fi.iovecs.length := by
  have hlt := h.blocks_lt
  rw [toInt_eq_toNat (by rw [h.blocks]; exact hlt), h.blocks]

theorem MyFile.Sound.cursorOk {mf : MyFile} (h : mf.Sound) : mf.CursorOk := by
  have hlt := h.blocks_lt
  have hle := h.block_le
  have hblocks := h.blocks
  have hb := h.toInt_blocks
  have hc : mf.currentBlock.toInt = mf.currentBlock.toUInt32.toNat := toInt_eq_toNat (by omega)
  refine ⟨by omega, by omega, h.offset_lt, ?_⟩
  intro he
  exact h.at_end (by rw [he, hblocks])

structure MyFile.SameFile (mf mf' : MyFile) : Prop where
  addr : mf'.addr = mf.addr
  fd : mf'.fd = mf.fd
  fi : mf'.fi = mf.fi
  s_addr : mf'.s.addr = mf.s.addr

theorem MyFile.SameFile.refl (mf : MyFile) : mf.SameFile mf := ⟨rfl, rfl, rfl, rfl⟩

theorem MyFile.SameFile.trans {mf mf' mf'' : MyFile} (h : mf.SameFile mf')
    (h' : mf'.SameFile mf'') : mf.SameFile mf'' :=
  ⟨h'.addr.trans h.addr, h'.fd.trans h.fd, h'.fi.trans h.fi, h'.s_addr.trans h.s_addr⟩

theorem MyFile.after_same (mf : MyFile) (k : Nat) : mf.SameFile (mf.after k) := by
  rw [MyFile.after, MyFile.visited]
  split <;> exact ⟨rfl, rfl, rfl, rfl⟩

/-- What a call on a sound handle does, whether or not it finds a failed
completion. -/
structure Called (mf : MyFile) (q : Request) (r : FreadResult) : Prop where
  bounded : r.Bounded mf q
  sound : r.mf.Sound
  same : mf.SameFile r.mf
  pos : r.mf.pos = mf.pos + r.ret.toNat

theorem myFread_called {mf : MyFile} (h : mf.Sound) (q : Request) :
    ∃ r, myFread q.ptr q.size q.count mf = some r ∧ Called mf q r := by
  have hblocks := h.toInt_blocks
  by_cases hok : mf.isfirst = 0 → ¬ mf.cqe.res < 0
  · obtain ⟨r, hcall, hr⟩ := myFread_served ⟨h, hok⟩ q
    have hle : r.ret.toNat ≤ (q.size * q.count).toNat := by
      rw [hr.ret, Cursor.length_read]
      exact Nat.min_le_left _ _
    have hsame := mf.after_same q.bytes
    have hsound := h.after q.bytes
    have hpos := h.after_pos q.bytes
    rw [← hr.mf] at hsame hsound hpos
    rw [Cursor.seek_eq_add_length h.pos_le, ← hr.ret] at hpos
    refine ⟨r, hcall, ⟨?_, ?_, hr.copies.pairwise, UInt64.le_iff_toNat_le.mpr hle, ?_⟩, hsound,
      hsame, hpos⟩
    · intro c hc
      obtain ⟨hblock, hsrc, -⟩ := hr.copies.mem c hc
      exact ⟨by omega, hsrc⟩
    · intro c hc
      have := (hr.copies.mem c hc).2.2.2
      omega
    · intro i hi
      rw [hr.ret] at hi
      rw [hr.ptr]
      exact memcpy_ge hi
  · have h0 : mf.isfirst = 0 := by
      by_contra h1
      exact hok fun he => absurd he h1
    have hres : mf.cqe.res < 0 := by
      by_contra hneg
      exact hok fun _ => hneg
    have hempty : ∀ mf' : MyFile, FreadResult.Bounded mf q ⟨0, q.ptr, mf', []⟩ :=
      fun _ => ⟨by simp, by simp, List.Pairwise.nil, UInt64.zero_le, fun _ _ => rfl⟩
    have hzero : ∀ n : Nat, n = n + (0 : UInt64).toNat := by simp
    rcases Nat.lt_or_ge mf.pos mf.fi.padded.length with hp | hp
    · exact ⟨_, myFread_failed h h0 hres hp q.ptr q.size q.count, hempty _, h.fetch h0,
        ⟨rfl, rfl, rfl, rfl⟩, hzero mf.pos⟩
    · have hend := Nat.le_antisymm h.pos_le hp
      exact ⟨_, myFread_at_end h hend q.ptr q.size q.count, hempty _, h, .refl _,
        hzero mf.pos⟩

theorem freadRun_sound {mf : MyFile} (h : mf.Sound) (qs : List Request) :
    ∃ rs last, freadRun mf qs = some (rs, last) ∧ last.Sound ∧ mf.SameFile last := by
  induction qs generalizing mf with
  | nil => exact ⟨[], mf, rfl, h, .refl _⟩
  | cons q qs ih =>
    obtain ⟨r, hcall, hr⟩ := myFread_called h q
    obtain ⟨rs, last, hrun, hlast, hsame⟩ := ih hr.sound
    exact ⟨r :: rs, last, (freadRun_cons hcall).mpr ⟨rs, hrun, rfl⟩, hlast, hr.same.trans hsame⟩

/-- Whatever was called before on an open handle, its cursor is in the file and
the next call is bounded. -/
theorem reachable_bounded {o : Outcomes} {mode : String} {w w' : World} {mf : MyFile}
    (hopen : myFopen o mode w = .ok mf w') (qs : List Request) :
    ∃ rs last, freadRun mf qs = some (rs, last) ∧ last.CursorOk ∧
      ∀ q : Request, ∃ r, myFread q.ptr q.size q.count last = some r ∧ r.Bounded last q := by
  obtain ⟨n, -, -, ho⟩ := myFopen_opened hopen
  obtain ⟨rs, last, hrun, hlast, -⟩ := freadRun_sound ho.sound qs
  refine ⟨rs, last, hrun, hlast.cursorOk, ?_⟩
  intro q
  obtain ⟨r, hcall, hr⟩ := myFread_called hlast q
  exact ⟨r, hcall, hr.bounded⟩

/-- The first call ends in the second block, and the next one asks for more than is left. -/
theorem reachable_bounded_two_blocks :
    ∃ mf w', myFopen (.smooth 8192 fun _ => ⟨8192, twoBlocks⟩) "r" World.start = .ok mf w' ∧
      ∃ rs last, freadRun mf [.ofSize 5000] = some (rs, last) ∧ last.CursorOk ∧
        rs.flatMap FreadResult.bytes = twoBlocks.take 5000 ∧
        ∃ r, myFread (fun _ => 0) 1 5000 last = some r ∧ r.Bounded last (.ofSize 5000) := by
  obtain ⟨mf, w', h, hready, hpos, hpadded⟩ := twoBlocks_opened
  obtain ⟨rs, last, hrun, hlast, hnext⟩ := reachable_bounded h [.ofSize 5000]
  obtain ⟨rs', hrun', hbytes, -⟩ := freadRun_served hready [.ofSize 5000]
  rw [hrun] at hrun'
  cases hrun'
  rw [hpadded, hpos] at hbytes
  exact ⟨mf, w', h, rs, _, hrun, hlast, hbytes, hnext (.ofSize 5000)⟩

end IoUring
