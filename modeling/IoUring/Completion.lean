import IoUring.Delivery

/-! What becomes of a completion that reports an error or fewer bytes than the
file had. The result is looked at once, for its sign, and never again. -/

namespace IoUring

/-- The call returned 0 and left the destination as it was. -/
structure FreadResult.Silent (q : Request) (r : FreadResult) : Prop where
  ret : r.ret = 0
  ptr : r.ptr = q.ptr
  copies : ∀ c ∈ r.copies, c.len = 0

theorem Served.silent_iff {mf : MyFile} {q : Request} {r : FreadResult} (h : Served mf q r)
    (hp : mf.pos < mf.fi.padded.length) : r.Silent q ↔ q.bytes = 0 := by
  have hret := h.ret_eq_zero
  rw [Cursor.read_eq_nil_iff] at hret
  constructor
  · intro hs
    have := hret.mp hs.ret
    omega
  · intro hq
    have hr : r.ret = 0 := hret.mpr (Or.inl hq)
    have hchain := h.copies
    rw [hr] at hchain
    refine ⟨hr, ?_, ?_⟩
    · rw [h.ptr, hq, Cursor.read_zero, memcpy_nil]
    · intro c hc
      have := (hchain.mem c hc).2.2.2
      rw [UInt64.toNat_zero] at this
      omega

theorem freadRun_silent_iff {mf : MyFile} (h : mf.Ready) (hp : mf.pos < mf.fi.padded.length)
    (qs : List Request) :
    (∃ rs mf', freadRun mf qs = some (rs, mf') ∧ List.Forall₂ FreadResult.Silent qs rs) ↔
      ∀ q ∈ qs, q.bytes = 0 := by
  induction qs generalizing mf with
  | nil => simp [freadRun]
  | cons q qs ih =>
    obtain ⟨r, hcall, hr⟩ := myFread_served h q
    have hhead := hr.silent_iff hp
    have hnext : r.mf.Ready := by
      rw [hr.mf]
      exact h.after _
    have hpos : q.bytes = 0 → r.mf.pos < r.mf.fi.padded.length := by
      intro hq
      have hpos' := h.toSound.after_pos q.bytes
      rw [hr.mf, hpos', mf.after_fi, hq, Cursor.seek]
      omega
    rw [List.forall_mem_cons]
    constructor
    · rintro ⟨rs, last, hrun, hall⟩
      obtain ⟨rest, hrest, rfl⟩ := (freadRun_cons hcall).mp hrun
      obtain ⟨hs, hall⟩ := List.forall₂_cons.mp hall
      have hq := hhead.mp hs
      exact ⟨hq, (ih hnext (hpos hq)).mp ⟨rest, last, hrest, hall⟩⟩
    · rintro ⟨hq, hqs⟩
      obtain ⟨rest, last, hrest, hall⟩ := (ih hnext (hpos hq)).mpr hqs
      exact ⟨r :: rest, last, (freadRun_cons hcall).mpr ⟨rest, hrest, rfl⟩,
        List.Forall₂.cons (hhead.mpr hq) hall⟩

theorem silent_at_end {mf : MyFile} (h : mf.Sound) (hend : mf.pos = mf.fi.padded.length)
    (qs : List Request) :
    ∃ rs, freadRun mf qs = some (rs, mf) ∧ List.Forall₂ FreadResult.Silent qs rs := by
  refine ⟨_, freadRun_at_end h hend qs, ?_⟩
  rw [List.forall₂_map_right_iff, List.forall₂_same]
  exact fun q _ => ⟨rfl, rfl, by simp⟩

theorem MyFile.Sound.fetch_ready {mf : MyFile} (h : mf.Sound) (h0 : mf.isfirst = 0) :
    mf.fetch.Ready where
  toSound := h.fetch h0
  success := fun h1 => absurd h1 (by simp [MyFile.fetch])

/-- After a failed read the calls stay silent exactly when the file is empty or
all calls but the first ask for nothing. -/
theorem failed_read_silent_iff {o : Outcomes} {mode : String} {w w' : World} {mf : MyFile}
    {n : Int64} (hopen : myFopen o mode w = .ok mf w') (hstat : o.fstat = some n)
    (hfail : (o.kernel mf.request).res < 0) (qs : List Request) :
    (∃ rs mf', freadRun mf qs = some (rs, mf') ∧ List.Forall₂ FreadResult.Silent qs rs) ↔
      n = 0 ∨ ∀ q ∈ qs.tail, q.bytes = 0 := by
  obtain ⟨size, hsize, hnn, ho⟩ := myFopen_opened hopen
  rw [hstat, Option.some_inj] at hsize
  subst hsize
  have hpadded := ho.length_padded
  by_cases hz : n = 0
  · have hlen : mf.fi.padded.length = 0 := by rw [hpadded, hz]; rfl
    obtain ⟨rs, hrun, hall⟩ := silent_at_end ho.sound (by rw [ho.pos, hlen]) qs
    exact iff_of_true ⟨rs, mf, hrun, hall⟩ (Or.inl hz)
  · have hpos : n.toInt ≠ 0 := fun he => hz (Int64.toInt_inj.mp he)
    have hp : mf.pos < mf.fi.padded.length := by
      rw [ho.pos]
      omega
    have hres : mf.cqe.res < 0 := by rwa [ho.res]
    cases qs with
    | nil => exact iff_of_true ⟨[], mf, rfl, List.Forall₂.nil⟩ (Or.inr (by simp))
    | cons q qs =>
      have hcall := myFread_failed ho.sound ho.isfirst hres hp q.ptr q.size q.count
      have hrest := freadRun_silent_iff (ho.sound.fetch_ready ho.isfirst) hp qs
      have hfirst : FreadResult.Silent q ⟨0, q.ptr, mf.fetch, []⟩ := by
        refine ⟨rfl, rfl, ?_⟩
        intro c hc
        cases hc
      simp only [hz, false_or, List.tail_cons]
      rw [← hrest]
      constructor
      · rintro ⟨rs, last, hrun, hall⟩
        obtain ⟨rest, hr, rfl⟩ := (freadRun_cons hcall).mp hrun
        exact ⟨rest, last, hr, (List.forall₂_cons.mp hall).2⟩
      · rintro ⟨rest, last, hr, hall⟩
        exact ⟨⟨0, q.ptr, mf.fetch, []⟩ :: rest, last, (freadRun_cons hcall).mpr ⟨rest, hr, rfl⟩,
          List.Forall₂.cons hfirst hall⟩

theorem failed_read_delivers_buffer :
    ∃ mf w', myFopen (.smooth 1 fun _ => ⟨-5, []⟩) "r" World.start = .ok mf w' ∧
      mf.cqe.res = -5 ∧
      ∃ r₁ r₂ last, freadRun mf [.ofSize 8, .ofSize 8] = some ([r₁, r₂], last) ∧
        r₁.ret = 0 ∧ r₂.ret = 8 := by
  obtain ⟨mf, w', h, ho⟩ := smooth_opened 1 (by decide) "r" fun _ => ⟨-5, []⟩
  have hres : mf.cqe.res = -5 := ho.res
  have hlen : mf.fi.padded.length = 4096 := ho.length_padded
  have hfirst := myFread_failed ho.sound ho.isfirst (by rw [hres]; decide)
    (by rw [ho.pos, hlen]; decide) (Request.ofSize 8).ptr (Request.ofSize 8).size
    (Request.ofSize 8).count
  obtain ⟨r, hsecond, hr⟩ := myFread_served (ho.sound.fetch_ready ho.isfirst) (.ofSize 8)
  have hpos : mf.fetch.pos = 0 := ho.pos
  have hret : r.ret.toNat = 8 := by
    rw [hr.ret, Cursor.length_read, Request.bytes_ofSize, hpos]
    change min _ (mf.fi.padded.length - 0) = 8
    rw [hlen]
    rfl
  refine ⟨mf, w', h, hres, ⟨0, (Request.ofSize 8).ptr, mf.fetch, []⟩, r, r.mf, ?_, rfl,
    UInt64.toNat_inj.mp hret⟩
  have hrest : freadRun mf.fetch [.ofSize 8] = some ([r], r.mf) :=
    (freadRun_cons hsecond).mpr ⟨[], rfl, rfl⟩
  exact (freadRun_cons hfirst).mpr ⟨[r], hrest, rfl⟩

theorem failed_read_silent_once :
    ∃ mf w', myFopen (.smooth 1 fun _ => ⟨-5, []⟩) "r" World.start = .ok mf w' ∧
      ((∃ rs mf', freadRun mf [.ofSize 8] = some (rs, mf') ∧
          List.Forall₂ FreadResult.Silent [.ofSize 8] rs) ↔
        (1 : Int64) = 0 ∨ ∀ q ∈ [Request.ofSize 8].tail, q.bytes = 0) := by
  obtain ⟨mf, w', h, -⟩ := smooth_opened 1 (by decide) "r" fun _ => ⟨-5, []⟩
  exact ⟨mf, w', h, failed_read_silent_iff h rfl (show (-5 : Int32) < 0 by decide) _⟩

/-- After a short read the loop delivers what the kernel wrote exactly when the
requests before the first empty one add up to it. -/
theorem short_read_delivers_iff {o : Outcomes} {mode : String} {w w' : World} {mf : MyFile}
    {n : Int64} {data : List UInt8} {qs : Nat → Request}
    (hopen : myFopen o mode w = .ok mf w') (hstat : o.fstat = some n) (hpos : 0 < n.toInt)
    (hblock : n.toInt % 4096 = 0) (hshort : data.length < n.toInt)
    (hread : o.kernel mf.request = ⟨Int32.ofNat data.length, data⟩) :
    mf.Delivers qs data ↔
      ∃ i, (qs i).bytes = 0 ∧ (∀ j < i, 0 < (qs j).bytes) ∧
        ∑ j ∈ Finset.range i, (qs j).bytes = data.length := by
  obtain ⟨size, hsize, hnn, ho⟩ := myFopen_opened hopen
  rw [hstat, Option.some_inj] at hsize
  subst hsize
  have hlt := ho.size_lt
  have hready : mf.Ready := ho.ready (by rw [hread]; exact not_neg_of_lt (by omega))
  have hpadded : mf.fi.padded.length = n.toInt.toNat := by
    rw [ho.length_padded]
    omega
  have hdata := ho.data
  rw [hread] at hdata
  have htake : mf.fi.padded.take data.length = data := hdata (by change data.length ≤ _; omega)
  constructor
  · rintro ⟨turns, hout⟩
    rw [readLoop_eq_drain hready, ho.pos] at hout
    obtain ⟨i, hbefore, hsum, hstop⟩ := Cursor.drain_some hout
    have hlen := congrArg List.length hsum
    rw [Cursor.length_read] at hlen
    exact ⟨i, by omega, hbefore, by omega⟩
  · rintro ⟨i, hzero, hbefore, hsum⟩
    refine ⟨i + 1, ?_⟩
    rw [readLoop_eq_drain hready, ho.pos,
      Cursor.drain_of_stop (Nat.lt_succ_self i) hbefore (Or.inl hzero), hsum]
    exact congrArg some htake

theorem short_read_delivers_block :
    ∃ mf w', myFopen (.smooth 4096 fun _ => ⟨1, [65]⟩) "r" World.start = .ok mf w' ∧
      ¬ mf.Delivers (fun _ => .ofSize 8) [65] ∧
      ∃ out, mf.Delivers (fun _ => .ofSize 8) out ∧ out.length = 4096 := by
  obtain ⟨mf, w', h, ho⟩ := smooth_opened 4096 (by decide) "r" fun _ => ⟨1, [65]⟩
  have hready : mf.Ready := ho.ready (not_neg_of_lt (n := 1) (by decide))
  have hlen : mf.fi.padded.length = 4096 := ho.length_padded
  have hiff := mf.delivers_iff_padded hready ho.pos fun _ => Request.ofSize_pos
  refine ⟨mf, w', h, ?_, mf.fi.padded, (hiff _).mpr rfl, hlen⟩
  intro hd
  have := congrArg List.length ((hiff _).mp hd)
  rw [hlen] at this
  exact absurd this (by decide)

theorem short_read_stops_there :
    ∃ mf w', myFopen (.smooth 4096 fun _ => ⟨1, [65]⟩) "r" World.start = .ok mf w' ∧
      (mf.Delivers (fun i => if i = 0 then .ofSize 1 else .ofSize 0) [65] ↔
        ∃ i, (if i = 0 then Request.ofSize 1 else .ofSize 0).bytes = 0 ∧
          (∀ j < i, 0 < (if j = 0 then Request.ofSize 1 else .ofSize 0).bytes) ∧
          ∑ j ∈ Finset.range i, (if j = 0 then Request.ofSize 1 else .ofSize 0).bytes =
            [(65 : UInt8)].length) := by
  obtain ⟨mf, w', h, -⟩ := smooth_opened 4096 (by decide) "r" fun _ => ⟨1, [65]⟩
  exact ⟨mf, w', h, short_read_delivers_iff h rfl (by decide) (by decide) (by decide) rfl⟩

end IoUring
