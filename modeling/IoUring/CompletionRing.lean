import IoUring.Completion

/-! The completion queue under a run of calls. Its head counts the blocks that
the cursor passed, while only one completion was ever posted. -/

namespace IoUring

/-- The index law of the completion queue, for a handle that was `mf₀` when it
was opened. -/
structure MyFile.CqLaw (mf₀ mf : MyFile) : Prop where
  bounded : (mf.s.cqRing.tail - mf.s.cqRing.head).toNat ≤ mf.s.cqRing.ringEntries.toNat
  released : mf.s.cqRing.head = mf₀.s.cqRing.head + if mf.isfirst = 0 then 0 else 1

theorem MyFile.currentBlock_of_pos {mf : MyFile} (h : mf.pos = 0) :
    mf.currentBlock.toUInt32 = 0 := by
  apply UInt32.toNat_inj.mp
  rw [UInt32.toNat_zero]
  rw [MyFile.pos] at h
  omega

theorem MyFile.after_head {mf : MyFile} (h0 : mf.isfirst = 0) (hpos : mf.pos = 0)
    (hp : mf.pos < mf.fi.padded.length) (k : Nat) :
    (mf.after k).s.cqRing.head =
        mf.s.cqRing.head + UInt32.ofNat (min k mf.fi.padded.length / 4096) ∧
      (mf.after k).isfirst = 1 := by
  have hv : mf.visited = mf.fetch := if_pos ⟨h0, hp⟩
  have hblock := MyFile.currentBlock_of_pos hpos
  rw [MyFile.after, hv, hpos, Cursor.seek, Nat.zero_add]
  refine ⟨?_, rfl⟩
  change mf.s.cqRing.head + (UInt32.ofNat _ - mf.currentBlock.toUInt32) = _
  rw [hblock, UInt32.sub_zero]

theorem MyFile.after_tail (mf : MyFile) (k : Nat) :
    (mf.after k).s.cqRing.tail = mf.s.cqRing.tail ∧
      (mf.after k).s.cqRing.ringEntries = mf.s.cqRing.ringEntries := by
  rw [MyFile.after, MyFile.visited]
  split <;> exact ⟨rfl, rfl⟩

theorem ofNat_eq_one_iff {b : Nat} (hb : b < 2 ^ 32) : UInt32.ofNat b = 1 ↔ b = 1 := by
  rw [← UInt32.toNat_inj, UInt32.toNat_ofNat_of_lt' hb, UInt32.toNat_one]

theorem MyFile.cqLaw_after_iff {mf : MyFile} (h : mf.Sound) (h0 : mf.isfirst = 0)
    (hpos : mf.pos = 0) (hp : mf.pos < mf.fi.padded.length)
    (htail : mf.s.cqRing.tail = mf.s.cqRing.head + 1) (k : Nat) :
    mf.CqLaw (mf.after k) ↔ 4096 ≤ k ∧ (mf.fi.padded.length = 4096 ∨ k < 8192) := by
  obtain ⟨hhead, hfirst⟩ := MyFile.after_head h0 hpos hp k
  obtain ⟨htail', -⟩ := mf.after_tail k
  have hlen := mf.fi.length_padded
  have hcount := h.blocks_lt
  have hone : mf.s.cqRing.head + UInt32.ofNat (min k mf.fi.padded.length / 4096) =
      mf.s.cqRing.head + 1 ↔ min k mf.fi.padded.length / 4096 = 1 := by
    rw [← ofNat_eq_one_iff (by omega)]
    exact ⟨fun he => by grind, fun he => by rw [he]⟩
  have hmin : min k mf.fi.padded.length / 4096 = 1 ↔
      4096 ≤ k ∧ (mf.fi.padded.length = 4096 ∨ k < 8192) := by
    omega
  rw [← hmin, ← hone]
  constructor
  · intro hlaw
    have := hlaw.released
    rw [hhead, hfirst] at this
    exact this
  · intro he
    refine ⟨?_, ?_⟩
    · rw [htail', hhead, he, htail, UInt32.sub_self]
      exact Nat.zero_le _
    · rw [hhead, hfirst]
      exact he

theorem sum_le_of_prefix {pre qs : List Request} (h : pre <+: qs) :
    (pre.map Request.bytes).sum ≤ (qs.map Request.bytes).sum := by
  obtain ⟨rest, rfl⟩ := h
  rw [List.map_append, List.sum_append]
  exact Nat.le_add_right _ _

theorem head_le_sum_of_prefix {q : Request} {pre qs : List Request} (h : pre <+: q :: qs)
    (hne : pre ≠ []) : q.bytes ≤ (pre.map Request.bytes).sum := by
  cases pre with
  | nil => exact absurd rfl hne
  | cons r pre =>
    obtain ⟨rfl, -⟩ := List.cons_prefix_cons.mp h
    rw [List.map_cons, List.sum_cons]
    exact Nat.le_add_right _ _

theorem Opened.cqLaw {o : Outcomes} {mf : MyFile} {n : Nat} (h : Opened o mf n)
    (hentries : ∀ p, o.ringSetup = some p → 0 < p.cqEntries) : mf.CqLaw mf where
  bounded := by
    obtain ⟨p, hp, hring⟩ := h.entries
    have hpos : 0 < p.cqEntries.toNat := UInt32.lt_iff_toNat_lt.mp (hentries p hp)
    have hone : mf.s.cqRing.tail - mf.s.cqRing.head = 1 := by
      rw [h.tail]
      grind
    rw [hone, hring, UInt32.toNat_one]
    exact hpos
  released := by rw [if_pos h.isfirst, UInt32.add_zero]

theorem Opened.cqLaw_of_empty {o : Outcomes} {mf : MyFile} {n : Nat} (h : Opened o mf n)
    (hlaw : mf.CqLaw mf) (hend : mf.pos = mf.fi.padded.length) {qs : List Request}
    {rs : List FreadResult} {last : MyFile} (hrun : freadRun mf qs = some (rs, last)) :
    mf.CqLaw last := by
  rw [freadRun_at_end h.sound hend, Option.some_inj] at hrun
  cases hrun
  exact hlaw

/-- The completion of a failed read is fetched and never released. -/
theorem Opened.not_cqLaw_of_failed {o : Outcomes} {mf : MyFile} {n : Nat} (h : Opened o mf n)
    (hp : mf.pos < mf.fi.padded.length) (hres : (o.kernel mf.request).res < 0) (q : Request) :
    ∃ rs last, freadRun mf [q] = some (rs, last) ∧ ¬ mf.CqLaw last := by
  have hcall := myFread_failed h.sound h.isfirst (by rwa [h.res]) hp q.ptr q.size q.count
  refine ⟨_, mf.fetch, (freadRun_cons hcall).mpr ⟨[], rfl, rfl⟩, ?_⟩
  intro hlaw
  have hreleased := hlaw.released
  change mf.s.cqRing.head = mf.s.cqRing.head + 1 at hreleased
  grind

theorem Opened.cqLaw_run_iff {o : Outcomes} {mf : MyFile} {n : Nat} (h : Opened o mf n)
    (hlaw : mf.CqLaw mf) (hready : mf.Ready) (hp : mf.pos < mf.fi.padded.length) (q : Request)
    (qs : List Request) :
    (∀ pre rs last, pre <+: q :: qs → freadRun mf pre = some (rs, last) → mf.CqLaw last) ↔
      4096 ≤ q.bytes ∧
        (mf.fi.padded.length = 4096 ∨ ((q :: qs).map Request.bytes).sum < 8192) := by
  have hstate : ∀ pre, pre ≠ [] → ∃ rs, freadRun mf pre =
      some (rs, mf.after (pre.map Request.bytes).sum) := by
    intro pre hne
    obtain ⟨rs, hrun, -⟩ := freadRun_served hready pre
    rw [if_neg hne] at hrun
    exact ⟨rs, hrun⟩
  have hiff := MyFile.cqLaw_after_iff h.sound h.isfirst h.pos hp h.tail
  constructor
  · intro hall
    obtain ⟨rs, hrun⟩ := hstate [q] (List.cons_ne_nil _ _)
    have hfirst := (hiff _).mp (hall _ _ _ ⟨qs, rfl⟩ hrun)
    obtain ⟨rs', hrun'⟩ := hstate (q :: qs) (List.cons_ne_nil _ _)
    have hlast := (hiff _).mp (hall _ _ _ (List.prefix_refl _) hrun')
    rw [List.map_singleton, List.sum_singleton] at hfirst
    exact ⟨hfirst.1, hlast.2⟩
  · rintro ⟨hfirst, hlast⟩ pre rs last hpre hrun
    by_cases hne : pre = []
    · rw [hne] at hrun
      cases hrun
      exact hlaw
    · obtain ⟨rs', hrun'⟩ := hstate pre hne
      rw [hrun', Option.some_inj] at hrun
      cases hrun
      -- the sums of the prefixes lie between the first request and all of them
      have hlo := head_le_sum_of_prefix hpre hne
      have hhi := sum_le_of_prefix hpre
      exact (hiff _).mpr ⟨by omega, by omega⟩

/-- The law holds in every state of a run exactly when the file is empty, nothing
is called, or the read succeeded, the first call takes a whole block and no
later one finishes a second block. -/
theorem cq_law_iff {o : Outcomes} {mode : String} {w w' : World} {mf : MyFile} {n : Int64}
    (hopen : myFopen o mode w = .ok mf w') (hstat : o.fstat = some n)
    (hentries : ∀ p, o.ringSetup = some p → 0 < p.cqEntries) (qs : List Request) :
    (∀ pre rs last, pre <+: qs → freadRun mf pre = some (rs, last) → mf.CqLaw last) ↔
      n = 0 ∨ qs = [] ∨
        (¬ (o.kernel mf.request).res < 0 ∧ (∀ q ∈ qs.head?, 4096 ≤ q.bytes) ∧
          (n.toInt ≤ 4096 ∨ (qs.map Request.bytes).sum < 8192)) := by
  obtain ⟨size, hsize, hnn, ho⟩ := myFopen_opened hopen
  rw [hstat, Option.some_inj] at hsize
  subst hsize
  have hpadded := ho.length_padded
  have hlaw := ho.cqLaw hentries
  have hlt := ho.size_lt
  by_cases hz : n = 0
  · have hlen : mf.fi.padded.length = 0 := by rw [hpadded, hz]; rfl
    refine iff_of_true ?_ (Or.inl hz)
    intro pre rs last _ hrun
    exact ho.cqLaw_of_empty hlaw (by rw [ho.pos, hlen]) hrun
  · have hpos : n.toInt ≠ 0 := fun he => hz (Int64.toInt_inj.mp he)
    have hp : mf.pos < mf.fi.padded.length := by
      rw [ho.pos]
      omega
    have hone : mf.fi.padded.length = 4096 ↔ n.toInt ≤ 4096 := by omega
    cases qs with
    | nil =>
      refine iff_of_true ?_ (Or.inr (Or.inl rfl))
      intro pre rs last hpre hrun
      rw [List.prefix_nil.mp hpre] at hrun
      cases hrun
      exact hlaw
    | cons q qs =>
      simp only [hz, false_or, reduceCtorEq, List.head?_cons, Option.mem_some_iff, forall_eq']
      by_cases hres : (o.kernel mf.request).res < 0
      · refine iff_of_false ?_ fun h => h.1 hres
        intro h
        obtain ⟨rs, last, hrun, hnot⟩ := ho.not_cqLaw_of_failed hp hres q
        exact hnot (h [q] rs last ⟨qs, rfl⟩ hrun)
      · rw [ho.cqLaw_run_iff hlaw (ho.ready hres) hp q qs, hone]
        exact ⟨fun h => ⟨hres, h⟩, fun h => h.2⟩

theorem two_blocks_pass_tail :
    ∃ mf w', myFopen (.smooth 8192 fun _ => ⟨8192, List.replicate 8192 65⟩) "r" World.start =
        .ok mf w' ∧
      ∃ rs last, freadRun mf [.ofSize 8192] = some (rs, last) ∧
        last.s.cqRing.head = mf.s.cqRing.head + 2 ∧
        last.s.cqRing.tail = mf.s.cqRing.head + 1 ∧ ¬ mf.CqLaw last := by
  obtain ⟨mf, w', h, ho⟩ := smooth_opened 8192 (by decide) "r"
    fun _ => ⟨8192, List.replicate 8192 65⟩
  have hready : mf.Ready := ho.ready (not_neg_of_lt (n := 8192) (by decide))
  have hlen : mf.fi.padded.length = 8192 := ho.length_padded
  obtain ⟨rs, hrun, -⟩ := freadRun_served hready [.ofSize 8192]
  have hbytes : ([Request.ofSize 8192].map Request.bytes).sum = 8192 := by
    rw [List.map_singleton, List.sum_singleton, Request.bytes_ofSize]
    rfl
  rw [if_neg (List.cons_ne_nil _ _), hbytes] at hrun
  obtain ⟨hhead, hfirst⟩ := MyFile.after_head ho.isfirst ho.pos (by rw [ho.pos, hlen]; decide) 8192
  rw [hlen] at hhead
  refine ⟨mf, w', h, rs, mf.after 8192, hrun, hhead, (mf.after_tail _).1.trans ho.tail, ?_⟩
  intro hlaw
  have hreleased := hlaw.released
  rw [hhead, hfirst] at hreleased
  change mf.s.cqRing.head + 2 = mf.s.cqRing.head + 1 at hreleased
  grind

theorem cq_law_one_block :
    ∃ mf w', myFopen (.smooth 4096 fun _ => ⟨4096, List.replicate 4096 65⟩) "r" World.start =
        .ok mf w' ∧
      ((∀ pre rs last, pre <+: [Request.ofSize 4096] → freadRun mf pre = some (rs, last) →
          mf.CqLaw last) ↔
        (4096 : Int64) = 0 ∨ [Request.ofSize 4096] = [] ∨
          (¬ (4096 : Int32) < 0 ∧ (∀ q ∈ [Request.ofSize 4096].head?, 4096 ≤ q.bytes) ∧
            ((4096 : Int64).toInt ≤ 4096 ∨
              ([Request.ofSize 4096].map Request.bytes).sum < 8192))) := by
  obtain ⟨mf, w', h, -⟩ := smooth_opened 4096 (by decide) "r"
    fun _ => ⟨4096, List.replicate 4096 65⟩
  refine ⟨mf, w', h, cq_law_iff h rfl ?_ _⟩
  intro p hp
  cases hp
  decide

end IoUring
