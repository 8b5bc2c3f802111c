import IoUring.Resources

/-! What is left of a file after `my_fclose`: the ring descriptor, its mappings
and the block buffers. -/

namespace IoUring

open EarlyExit

/-- The resources behind a handle that was opened between two states. -/
structure Acquired (w w' : World) (mf : MyFile) : Prop where
  grown : w.ledger.Grown w'.ledger mf.resources
  card : 7 + mf.fi.iovecs.length ≤ mf.resources.card
  kept : ∀ r ∈ mf.s.resources ∪ mf.buffers, r.kind ≠ .file ∧ r.kind ≠ .shared
  freed : mf.fd.kind = .file ∧ mf.fi.addr.kind = .shared ∧ mf.s.addr.kind = .shared ∧
    mf.addr.kind = .shared

theorem myFopen_acquired {o : Outcomes} {mode : String} {w w' : World} {mf : MyFile}
    (h : myFopen o mode w = .ok mf w') : Acquired w w' mf := by
  obtain ⟨p, n, mf₀, hf, rfl⟩ := myFopen_ok h
  obtain ⟨hiovecs, -⟩ := completeReadv_submitReadv mf₀ o.kernel hf.sq_empty
  have hbuffers : (completeReadv o.kernel (submitReadv mf₀)).buffers = mf₀.buffers := by
    rw [MyFile.buffers, hiovecs, scatter_buffers]
    rfl
  have hlen : (completeReadv o.kernel (submitReadv mf₀)).fi.iovecs.length =
      mf₀.fi.iovecs.length := by
    rw [hiovecs, length_scatter]
  have hres : (completeReadv o.kernel (submitReadv mf₀)).resources = mf₀.resources := by
    rw [MyFile.resources, hbuffers]
    rfl
  refine ⟨?_, ?_, ?_, hf.freed⟩
  · rw [hres]
    exact hf.grown
  · rw [hres, hlen, hf.card]
    split <;> omega
  · rw [hbuffers]
    exact hf.kept

def MyFile.leaked (mf : MyFile) : Finset Resource := mf.s.resources ∪ mf.buffers

def closed (l : Ledger Kind Deallocator) (mf : MyFile) : Ledger Kind Deallocator :=
  (((l.release mf.fd .close).release mf.fi.addr .ompFree).release mf.s.addr .ompFree).release
    mf.addr .ompFree

theorem myFclose_ok (mf : MyFile) (w : World) :
    ∃ w', myFclose (some mf) w = .ok () w' ∧ w'.ledger = closed w.ledger mf :=
  ⟨_, rfl, rfl⟩

theorem MyFile.SameFile.closed {mf mf' : MyFile} (h : mf.SameFile mf')
    (l : Ledger Kind Deallocator) : closed l mf' = closed l mf := by
  simp only [IoUring.closed, h.addr, h.fd, h.fi, h.s_addr]

theorem MyFile.mem_resources {mf : MyFile} {r : Resource} :
    r ∈ mf.resources ↔
      r ∈ mf.leaked ∨ r = mf.fd ∨ r = mf.fi.addr ∨ r = mf.s.addr ∨ r = mf.addr := by
  simp only [MyFile.resources, MyFile.leaked, Finset.mem_union, Finset.mem_singleton]
  tauto

theorem Acquired.not_freed {w w' : World} {mf : MyFile} (h : Acquired w w' mf) {r : Resource}
    (hr : r ∈ mf.leaked) : r ≠ mf.fd ∧ r ≠ mf.fi.addr ∧ r ≠ mf.s.addr ∧ r ≠ mf.addr := by
  obtain ⟨hfile, hshared⟩ := h.kept r hr
  obtain ⟨hfd, hfi, hs, ha⟩ := h.freed
  refine ⟨?_, ?_, ?_, ?_⟩
  · rintro rfl
    exact hfile hfd
  · rintro rfl
    exact hshared hfi
  · rintro rfl
    exact hshared hs
  · rintro rfl
    exact hshared ha

theorem Acquired.closed_live {w w' : World} {mf : MyFile} (h : Acquired w w' mf) :
    (closed w'.ledger mf).live = w.ledger.live ∪ mf.leaked := by
  have hold : ∀ r ∈ w.ledger.live, r ∉ mf.resources := fun r hr =>
    Finset.disjoint_left.mp h.grown.disjoint hr
  ext r
  simp only [closed, Ledger.release_live, Finset.mem_erase, h.grown.live, Finset.mem_union]
  constructor
  · rintro ⟨ha, hs, hfi, hfd, hr | hr⟩
    · exact Or.inl hr
    · rcases MyFile.mem_resources.mp hr with hr | hr | hr | hr | hr
      · exact Or.inr hr
      · exact absurd hr hfd
      · exact absurd hr hfi
      · exact absurd hr hs
      · exact absurd hr ha
  · rintro (hr | hr)
    · have hnot := hold r hr
      simp only [MyFile.mem_resources, not_or] at hnot
      exact ⟨hnot.2.2.2.2, hnot.2.2.2.1, hnot.2.2.1, hnot.2.1, Or.inl hr⟩
    · obtain ⟨hfd, hfi, hs, ha⟩ := h.not_freed hr
      exact ⟨ha, hs, hfi, hfd, Or.inr (MyFile.mem_resources.mpr (Or.inl hr))⟩

theorem Acquired.card_leaked {w w' : World} {mf : MyFile} (h : Acquired w w' mf) :
    3 + mf.fi.iovecs.length ≤ mf.leaked.card := by
  have hsub : mf.resources ⊆ mf.leaked ∪ {mf.fd, mf.fi.addr, mf.s.addr, mf.addr} := by
    intro r hr
    have := MyFile.mem_resources.mp hr
    simpa only [Finset.mem_union, Finset.mem_insert, Finset.mem_singleton] using this
  have hcard := Finset.card_le_card hsub
  have hunion := Finset.card_union_le mf.leaked {mf.fd, mf.fi.addr, mf.s.addr, mf.addr}
  have hfour : ({mf.fd, mf.fi.addr, mf.s.addr, mf.addr} : Finset Resource).card ≤ 4 :=
    Finset.card_le_four
  have := h.card
  omega

theorem Acquired.card_closed {w w' : World} {mf : MyFile} (h : Acquired w w' mf) :
    w.ledger.live.card + 3 + mf.fi.iovecs.length ≤ (closed w'.ledger mf).live.card := by
  have hdisj : Disjoint w.ledger.live mf.leaked := by
    refine Finset.disjoint_left.mpr fun r hr hr' => ?_
    have hnot := Finset.disjoint_left.mp h.grown.disjoint hr
    exact hnot (MyFile.mem_resources.mpr (Or.inl hr'))
  have := h.card_leaked
  rw [h.closed_live, Finset.card_union_of_disjoint hdisj]
  omega

theorem catLoop_ok {turns : Nat} {mf : MyFile} (buffer : Nat → UInt8) (h : mf.Sound)
    (ht : mf.fi.padded.length - mf.pos < turns) (w : World) :
    ∃ last w', catLoop turns buffer mf w = .ok last w' ∧ mf.SameFile last ∧
      w'.ledger = w.ledger := by
  induction turns generalizing buffer mf w with
  | zero => omega
  | succ turns ih =>
    obtain ⟨r, hcall, hr⟩ := myFread_called h ⟨buffer, 1, 8⟩
    have hcall' : myFread buffer 1 8 mf = some r := hcall
    by_cases hpos : r.ret > 0
    · have hret : 0 < r.ret.toNat := UInt64.lt_iff_toNat_lt.mp hpos
      have hle := hr.sound.pos_le
      have hnext := hr.pos
      have hfi := hr.same.fi
      rw [hfi] at hle
      obtain ⟨last, w', hloop, hsame, hledger⟩ := ih r.ptr hr.sound (by rw [hfi]; omega)
        { w with out := w.out ++ r.bytes }
      refine ⟨last, w', ?_, hr.same.trans hsame, hledger⟩
      rw [catLoop, hcall']
      simp only [if_pos hpos]
      exact bind_eq_ok.mpr ⟨(), _, rfl, hloop⟩
    · refine ⟨r.mf, w, ?_, hr.same, rfl⟩
      rw [catLoop, hcall']
      simp only [if_neg hpos]
      rfl

theorem cat_leaks {o : Outcomes} {w w₁ : World} {mf : MyFile} (buffer : Nat → UInt8)
    (h : myFopen o "r" w = .ok mf w₁) :
    ∃ w', cat o buffer w = .ok () w' ∧ w.ledger.live.card + 3 ≤ w'.ledger.live.card := by
  obtain ⟨n, -, -, ho⟩ := myFopen_opened h
  have hfuel : mf.fi.padded.length - mf.pos < mf.blocks.toUInt32.toNat * 4096 + 1 := by
    rw [mf.fi.length_padded, ho.sound.blocks]
    omega
  obtain ⟨last, w₂, hloop, hsame, hledger⟩ := catLoop_ok buffer ho.sound hfuel w₁
  let w₂' : World := { w₂ with log := w₂.log ++ [o.completed last.fi.fileSz] }
  obtain ⟨w₃, hclose, hclosed⟩ := myFclose_ok last w₂'
  have hopen : orNull (myFopen o "r") w = .ok (some mf) w₁ := by
    rw [orNull]
    rw [h]
  have hrest : (report (o.completed last.fi.fileSz) >>= fun _ => myFclose (some last)) w₂ =
      .ok () w₃ := bind_eq_ok.mpr ⟨(), w₂', rfl, hclose⟩
  refine ⟨w₃, ?_, ?_⟩
  · exact bind_eq_ok.mpr ⟨some mf, w₁, hopen, bind_eq_ok.mpr ⟨last, w₂, hloop, hrest⟩⟩
  · rw [hclosed, hledger, hsame.closed]
    have := (myFopen_acquired h).card_closed
    omega

theorem catAll_leaks {files : List (Outcomes × (Nat → UInt8))}
    (h : ∀ x ∈ files, ∀ w, ∃ mf w', myFopen x.1 "r" w = .ok mf w') (w : World) :
    ∃ w', catAll files w = .ok () w' ∧
      w.ledger.live.card + 3 * files.length ≤ w'.ledger.live.card := by
  induction files generalizing w with
  | nil => exact ⟨w, rfl, Nat.le_refl _⟩
  | cons x files ih =>
    obtain ⟨hx, hfiles⟩ := List.forall_mem_cons.mp h
    obtain ⟨mf, w₁, hopen⟩ := hx w
    obtain ⟨w₂, hcat, hcard⟩ := cat_leaks x.2 hopen
    obtain ⟨w₃, hall, hcard'⟩ := ih hfiles w₂
    refine ⟨w₃, bind_eq_ok.mpr ⟨(), w₂, hcat, hall⟩, ?_⟩
    rw [List.length_cons]
    omega

/-- Opening, reading and closing a file never balances, and the files that `cat`
processes leave at least three resources each. -/
theorem close_never_balances (w : World) :
    (∀ (o : Outcomes) (mode : String) (w' : World) (mf : MyFile) (qs : List Request),
      myFopen o mode w = .ok mf w' →
        ∃ rs last w'', freadRun mf qs = some (rs, last) ∧
          myFclose (some last) w' = .ok () w'' ∧
          w''.ledger.live = w.ledger.live ∪ mf.leaked ∧
          w''.ledger.live ≠ w.ledger.live) ∧
    ∀ files : List (Outcomes × (Nat → UInt8)),
      (∀ x ∈ files, ∀ w, ∃ mf w', myFopen x.1 "r" w = .ok mf w') →
        ∃ w', catAll files w = .ok () w' ∧
          w.ledger.live.card + 3 * files.length ≤ w'.ledger.live.card := by
  constructor
  · intro o mode w' mf qs hopen
    obtain ⟨n, -, -, ho⟩ := myFopen_opened hopen
    obtain ⟨rs, last, hrun, -, hsame⟩ := freadRun_sound ho.sound qs
    obtain ⟨w'', hclose, hclosed⟩ := myFclose_ok last w'
    have hacq := myFopen_acquired hopen
    have hledger : w''.ledger = closed w'.ledger mf := hclosed.trans (hsame.closed _)
    refine ⟨rs, last, w'', hrun, hclose, by rw [hledger, hacq.closed_live], ?_⟩
    intro hlive
    have hcard := hacq.card_closed
    rw [← hledger, hlive] at hcard
    omega
  · intro files hfiles
    exact catAll_leaks hfiles w

theorem closed_file_leaks :
    ∃ mf w' w'', myFopen (.smooth 1 fun _ => ⟨1, [65]⟩) "r" World.start = .ok mf w' ∧
      myFclose (some mf) w' = .ok () w'' ∧ World.start.ledger.live = ∅ ∧
      3 ≤ w''.ledger.live.card := by
  obtain ⟨mf, w', h, ho⟩ := smooth_opened 1 (by decide) "r" fun _ => ⟨1, [65]⟩
  obtain ⟨w'', hclose, hclosed⟩ := myFclose_ok mf w'
  have hcard := (myFopen_acquired h).card_closed
  rw [← hclosed] at hcard
  exact ⟨mf, w', w'', h, hclose, rfl, by omega⟩

theorem two_files_leak_six :
    ∃ w', catAll [(.smooth 1 fun _ => ⟨1, [65]⟩, fun _ => 0),
        (.smooth 1 fun _ => ⟨1, [65]⟩, fun _ => 0)] World.start = .ok () w' ∧
      World.start.ledger.live.card + 3 * 2 ≤ w'.ledger.live.card := by
  have hopens : ∀ w, ∃ mf w', myFopen (.smooth 1 fun _ => ⟨1, [65]⟩) "r" w = .ok mf w' := by
    intro w
    obtain ⟨mf, w', h, -⟩ :=
      myFopen_ends (Outcomes.smooth_succeeds "r" 1 fun _ => ⟨1, [65]⟩) (by decide) w
    exact ⟨mf, w', h⟩
  refine (close_never_balances World.start).2 _ ?_
  intro x hx
  simp only [List.mem_cons, List.not_mem_nil, or_false, or_self] at hx
  rw [hx]
  exact hopens

end IoUring
