import IoUring.Manual

/-! The submission ring of omp_io_uring_manual.c. `submit_to_sq` writes the entry at
the tail without a look at the head, so the kernel gets every request once and in
order only where the entry happens to be free. -/

namespace IoUring

namespace Manual

open MaskedRing

/-- What the kernel finds through the index array, where that names its own slot. -/
def State.entry (s : State) (k : UInt32) : Option Sqe :=
  if s.sq.array k = k then some (s.sqes k) else none

theorem State.sqe_of_entry {s : State} {k : UInt32} {sqe : Sqe} (h : s.entry k = some sqe) :
    s.sqes (s.sq.array k) = sqe := by
  rw [State.entry] at h
  split at h
  · next he =>
    rw [he]
    exact Option.some.inj h
  · cases h

def At (s : State) : Prop :=
  match s.pc with
  | .top | .prepared => s.submitted.length = s.i
  | .filled tail =>
    s.submitted.length = s.i ∧ tail = s.sq.tail ∧ s.sq.tail - s.sq.head < s.sq.ringEntries ∧
      s.sqes (tail &&& s.sq.ringMask) = request s.i (s.fis s.i)
  | .linked tail =>
    s.submitted.length = s.i ∧ tail = s.sq.tail ∧ s.sq.tail - s.sq.head < s.sq.ringEntries ∧
      s.entry (tail &&& s.sq.ringMask) = some (request s.i (s.fis s.i))
  | .published | .sleeping | .reading => s.submitted.length = s.i + 1
  | .exited _ | .fault _ => True

/-- The ring holds the requests that are `pending`. -/
structure Queued (s : State) (pending : List Sqe) : Prop where
  sized : Sized s.sq.ringMask s.sq.ringEntries
  window : Window s.entry s.sq.ringMask s.sq.ringEntries s.sq.head s.sq.head s.sq.tail
    (pending.map some)
  submitted : s.submitted = s.taken ++ pending
  numbered : s.submitted.map (·.userData) = List.range s.submitted.length
  here : At s

theorem start_queued (rings : Rings) : Queued (start rings) [] where
  sized := rings.sqSized
  window := by
    have h := Window.empty (start rings).entry rings.sq.ringMask rings.sq.ringEntries
      rings.sq.head
    change Window _ _ _ rings.sq.head rings.sq.head rings.sq.tail []
    rwa [← rings.sqEmpty]
  submitted := rfl
  numbered := rfl
  here := rfl

theorem Queued.frame {s t : State} {pending : List Sqe} (h : Queued s pending) (hsq : t.sq = s.sq)
    (hsqes : t.sqes = s.sqes) (hsubmitted : t.submitted = s.submitted) (htaken : t.taken = s.taken)
    (hat : At t) : Queued t pending where
  sized := hsq ▸ h.sized
  window := by
    have hentry : t.entry = s.entry := by
      funext k
      simp only [State.entry, hsq, hsqes]
    rw [hentry, hsq]
    exact h.window
  submitted := by rw [hsubmitted, htaken, h.submitted]
  numbered := by rw [hsubmitted, h.numbered]
  here := hat

theorem Queued.fill {s : State} {pending : List Sqe} (h : Queued s pending)
    (hpc : s.pc = .prepared) (hroom : s.sq.tail - s.sq.head < s.sq.ringEntries) :
    Queued { s with
      pc := .filled s.sq.tail
      sqes := fun k =>
        if k = s.sq.tail &&& s.sq.ringMask then request s.i (s.fis s.i) else s.sqes k }
      pending where
  sized := h.sized
  window := by
    refine h.window.frame h.sized hroom ?_
    intro k hk
    simp only [State.entry, if_neg hk]
  submitted := h.submitted
  numbered := h.numbered
  here := by
    have hhere := h.here
    rw [At, hpc] at hhere
    exact ⟨hhere, rfl, hroom, if_pos rfl⟩

theorem Queued.link {s : State} {pending : List Sqe} (h : Queued s pending) {tail : UInt32}
    (hpc : s.pc = .filled tail) :
    Queued { s with
      pc := .linked tail
      sq := { s.sq with
        array := fun k =>
          if k = tail &&& s.sq.ringMask then tail &&& s.sq.ringMask else s.sq.array k } }
      pending := by
  have hhere := h.here
  rw [At, hpc] at hhere
  obtain ⟨hlen, rfl, hroom, hsqe⟩ := hhere
  refine ⟨h.sized, ?_, h.submitted, h.numbered, hlen, rfl, hroom, ?_⟩
  · refine h.window.frame h.sized hroom ?_
    intro k hk
    simp only [State.entry, if_neg hk]
  · simp only [State.entry, if_true]
    exact congrArg some hsqe

theorem Queued.publish {s : State} {pending : List Sqe} (h : Queued s pending) {tail : UInt32}
    (hpc : s.pc = .linked tail) :
    Queued { s with
      pc := .published
      sq := { s.sq with tail := tail + 1 }
      submitted := s.submitted ++ [request s.i (s.fis s.i)] }
      (pending ++ [request s.i (s.fis s.i)]) := by
  have hhere := h.here
  rw [At, hpc] at hhere
  obtain ⟨hlen, rfl, hroom, hentry⟩ := hhere
  have hpush := h.window.push h.sized hroom
  rw [hentry] at hpush
  refine ⟨h.sized, ?_, ?_, ?_, ?_⟩
  · rw [List.map_append]
    exact hpush
  · rw [h.submitted, List.append_assoc]
  · rw [List.map_append, h.numbered, List.length_append, List.length_singleton, List.range_succ,
      hlen]
    rfl
  · change (s.submitted ++ [_]).length = s.i + 1
    rw [List.length_append, hlen]
    rfl

theorem Queued.take {s : State} {pending : List Sqe} (h : Queued s pending)
    (hne : s.sq.head ≠ s.sq.tail) :
    ∃ sqe rest, pending = sqe :: rest ∧
      s.sqes (s.sq.array (s.sq.head &&& s.sq.ringMask)) = sqe ∧
      Queued { s with
        sq := { s.sq with head := s.sq.head + 1 }
        inFlight := s.inFlight ++ [sqe]
        taken := s.taken ++ [sqe] } rest := by
  cases pending with
  | nil => exact absurd ((h.window.eq_tail_iff h.sized).mpr rfl) hne
  | cons sqe rest =>
    have hw := h.window
    rw [List.map_cons] at hw
    obtain ⟨hread, hrest⟩ := hw.pop h.sized
    have hpub := hrest.publish
    have hsqe := State.sqe_of_entry hread
    refine ⟨sqe, rest, rfl, hsqe, h.sized, hpub, ?_, h.numbered, ?_⟩
    · rw [h.submitted, List.append_assoc]
      rfl
    · have hhere := h.here
      have hless : s.sq.tail - s.sq.head < s.sq.ringEntries →
          s.sq.tail - (s.sq.head + 1) < s.sq.ringEntries := by
        intro hroom
        have hsub := hw.tail_sub h.sized
        have hsub' := hpub.tail_sub h.sized
        rw [UInt32.sub_self, UInt32.toNat_zero] at hsub hsub'
        rw [UInt32.lt_iff_toNat_lt] at hroom ⊢
        rw [List.length_cons] at hsub
        omega
      rw [At] at hhere ⊢
      cases hpc : s.pc with
      | filled tail | linked tail =>
        rw [hpc] at hhere
        obtain ⟨hlen, htail, hroom, hslot⟩ := hhere
        exact ⟨hlen, htail, hless hroom, hslot⟩
      | top | prepared | published | sleeping | reading =>
        rw [hpc] at hhere
        exact hhere
      | exited | fault => trivial

theorem step_queued {argv : List Blocks.Outcomes} {s t : State} {a : Action} {pending : List Sqe}
    (h : step argv s a = some t) (hok : Room s a) (hs : Queued s pending) :
    ∃ pending', Queued t pending' := by
  have hhere := hs.here
  rw [At] at hhere
  cases a with
  | prepare =>
    obtain ⟨hpc, h⟩ := Option.ite_none_right_eq_some.mp h
    rw [hpc] at hhere
    split at h
    · cases h
    · split at h
      · cases h
        exact ⟨pending, hs.frame rfl rfl rfl rfl hhere⟩
      · cases h
        exact ⟨pending, hs.frame rfl rfl rfl rfl trivial⟩
      · cases h
        exact ⟨pending, hs.frame rfl rfl rfl rfl trivial⟩
  | fill =>
    obtain ⟨hpc, ⟨⟩⟩ := Option.ite_none_right_eq_some.mp h
    exact ⟨pending, hs.fill hpc (hok rfl)⟩
  | link =>
    simp only [step] at h
    split at h
    · next hpc =>
      cases h
      exact ⟨pending, hs.link hpc⟩
    · cases h
  | publish =>
    simp only [step] at h
    split at h
    · next hpc =>
      cases h
      exact ⟨_, hs.publish hpc⟩
    · cases h
  | enter ok =>
    obtain ⟨hpc, ⟨⟩⟩ := Option.ite_none_right_eq_some.mp h
    rw [hpc] at hhere
    cases ok with
    | true => exact ⟨pending, hs.frame rfl rfl rfl rfl hhere⟩
    | false => exact ⟨pending, hs.frame rfl rfl rfl rfl trivial⟩
  | call =>
    obtain ⟨hpc, h⟩ := Option.ite_none_right_eq_some.mp h
    obtain ⟨d, -, rfl⟩ := Option.map_eq_some_iff.mp h
    rw [hpc] at hhere
    exact ⟨pending, hs.frame rfl rfl rfl rfl hhere⟩
  | read a =>
    obtain ⟨-, h⟩ := Option.ite_none_right_eq_some.mp h
    obtain ⟨d, -, rfl⟩ := Option.map_eq_some_iff.mp h
    exact ⟨pending, hs.frame rfl rfl rfl rfl hs.here⟩
  | leave =>
    obtain ⟨hpc, h⟩ := Option.ite_none_right_eq_some.mp h
    obtain ⟨d, -, rfl⟩ := Option.map_eq_some_iff.mp h
    rw [hpc] at hhere
    exact ⟨pending, hs.frame rfl rfl rfl rfl hhere⟩
  | finish =>
    obtain ⟨-, ⟨⟩⟩ := Option.ite_none_right_eq_some.mp h
    exact ⟨pending, hs.frame rfl rfl rfl rfl trivial⟩
  | take =>
    obtain ⟨hne, ⟨⟩⟩ := Option.ite_none_right_eq_some.mp h
    obtain ⟨sqe, rest, -, hread, hrest⟩ := hs.take hne
    rw [hread]
    exact ⟨rest, hrest⟩
  | complete k res =>
    simp only [step] at h
    split at h
    · obtain ⟨d, -, rfl⟩ := Option.map_eq_some_iff.mp h
      exact ⟨pending, hs.frame rfl rfl rfl rfl hs.here⟩
    · cases h
  | post =>
    obtain ⟨d, -, rfl⟩ := Option.map_eq_some_iff.mp h
    exact ⟨pending, hs.frame rfl rfl rfl rfl hs.here⟩

theorem reach_queued {argv : List Blocks.Outcomes} {rings : Rings} {s : State}
    (h : Runs.Reach (step argv) Room (start rings) s) : ∃ pending, Queued s pending :=
  h.invariant (I := fun s => ∃ pending, Queued s pending) ⟨[], start_queued rings⟩
    fun _ _ _ hok hstep ⟨_, hu⟩ => step_queued hstep hok hu

/-- The kernel has taken the first of the requests, each once and in order, and the
others fit in the ring. -/
def State.Law (s : State) : Prop :=
  s.taken <+: s.submitted ∧
    s.submitted.length = s.taken.length + (s.sq.tail - s.sq.head).toNat ∧
    s.sq.tail - s.sq.head ≤ s.sq.ringEntries

theorem Queued.law {s : State} {pending : List Sqe} (h : Queued s pending) : s.Law := by
  have hsub := h.window.tail_sub h.sized
  rw [UInt32.sub_self, UInt32.toNat_zero, List.length_map] at hsub
  have hlen := congrArg List.length h.submitted
  rw [List.length_append] at hlen
  refine ⟨?_, by omega, h.window.tail_le h.sized⟩
  rw [h.submitted]
  exact List.prefix_append _ _

/-- A request that is not taken has been written over, and the tail does not show
it yet. -/
structure Overwritten (s : State) (u : State) : Prop where
  pc : u.pc = .filled s.sq.tail ∨ u.pc = .linked s.sq.tail
  head : u.sq.head = s.sq.head
  mask : u.sq.ringMask = s.sq.ringMask
  entries : u.sq.ringEntries = s.sq.ringEntries
  tail : u.sq.tail = s.sq.tail
  slot : u.sqes (u.sq.array (s.sq.head &&& s.sq.ringMask)) = request s.i (s.fis s.i)
  linked : u.sq.array (s.sq.head &&& s.sq.ringMask) = s.sq.head &&& s.sq.ringMask
  submitted : u.submitted = s.submitted
  taken : u.taken = s.taken

theorem Queued.overwritten {s : State} {pending : List Sqe} (h : Queued s pending)
    (hfull : pending.length = s.sq.ringEntries.toNat) :
    Overwritten s { s with
      pc := .filled s.sq.tail
      sqes := fun k =>
        if k = s.sq.tail &&& s.sq.ringMask then request s.i (s.fis s.i) else s.sqes k } := by
  have hslot := h.window.slot_of_full h.sized (by rw [List.length_map, hfull])
  have hlinked : s.sq.array (s.sq.head &&& s.sq.ringMask) = s.sq.head &&& s.sq.ringMask := by
    cases pending with
    | nil =>
      have := h.sized.pos
      rw [List.length_nil] at hfull
      omega
    | cons sqe rest =>
      have hread := h.window.holds.1
      rw [State.entry] at hread
      split at hread
      · next he => exact he
      · cases hread
  refine ⟨Or.inl rfl, rfl, rfl, rfl, rfl, ?_, hlinked, rfl, rfl⟩
  change (if _ = s.sq.tail &&& s.sq.ringMask then _ else _) = _
  rw [hlinked, hslot, if_pos rfl]

/-- Requests are numbered in the order of their files, so the new one is not the one
that it replaces. -/
theorem Queued.not_prefix {s : State} {pending : List Sqe} (h : Queued s pending)
    (hpc : s.pc = .prepared) (hne : pending ≠ []) :
    ¬ s.taken ++ [request s.i (s.fis s.i)] <+: s.submitted := by
  have hhere := h.here
  rw [At, hpc] at hhere
  intro hpre
  have hmap := hpre.map (·.userData)
  rw [h.numbered, List.map_append] at hmap
  have hlen : s.taken.length < s.submitted.length := by
    have := List.length_pos_iff.mpr hne
    rw [h.submitted, List.length_append]
    omega
  have hlast : (s.taken.map (·.userData) ++ [s.i])[s.taken.length]? = some s.i := by
    rw [List.getElem?_append_right (by rw [List.length_map]), List.length_map, Nat.sub_self]
    rfl
  obtain ⟨rest, hrest⟩ := hmap
  have hget := congrArg (·[s.taken.length]?) hrest
  simp only [List.getElem?_range hlen] at hget
  rw [List.getElem?_append_left (by simp)] at hget
  rw [show List.map (·.userData) [request s.i (s.fis s.i)] = [s.i] from rfl, hlast] at hget
  have := Option.some.inj hget
  omega

/-- The next request that the kernel takes is then the wrong one, and the next one
submitted is one too many. -/
theorem Overwritten.step {argv : List Blocks.Outcomes} {s u v : State} {a : Action}
    {pending : List Sqe} (hs : Queued s pending) (hpc : s.pc = .prepared)
    (hfull : pending.length = s.sq.ringEntries.toNat) (hu : Overwritten s u)
    (h : step argv u a = some v) : Overwritten s v ∨ ¬ v.Law := by
  have hpos := hs.sized.pos
  have hslot := hs.window.slot_of_full hs.sized (by rw [List.length_map, hfull])
  have hstay : v.pc = u.pc → v.sq = u.sq → v.sqes = u.sqes → v.submitted = u.submitted →
      v.taken = u.taken → Overwritten s v := by
    intro hp hsq hsqes hsub htaken
    exact ⟨hp ▸ hu.pc, hsq ▸ hu.head, hsq ▸ hu.mask, hsq ▸ hu.entries, hsq ▸ hu.tail,
      by rw [hsq, hsqes, hu.slot], hsq ▸ hu.linked, hsub ▸ hu.submitted, htaken ▸ hu.taken⟩
  have hno : ∀ pc : Pc, u.pc = pc → (∀ c, pc ≠ .filled c) → (∀ c, pc ≠ .linked c) → False := by
    rintro pc rfl hf hl
    rcases hu.pc with he | he
    · exact hf _ he
    · exact hl _ he
  cases a with
  | prepare | fill | enter | call | leave =>
    have hp := (Option.ite_none_right_eq_some.mp h).1
    exact (hno _ hp (by simp) (by simp)).elim
  | read | finish =>
    have hp := (Option.ite_none_right_eq_some.mp h).1
    exact (hno _ hp.1 (by simp) (by simp)).elim
  | link =>
    simp only [Manual.step] at h
    split at h
    · next tail hp =>
      cases h
      have htail : tail = s.sq.tail := by
        rcases hu.pc with he | he
        · rw [hp] at he
          exact Pc.filled.inj he
        · rw [hp] at he
          cases he
      have harray : (if s.sq.head &&& s.sq.ringMask = tail &&& u.sq.ringMask
          then tail &&& u.sq.ringMask
          else u.sq.array (s.sq.head &&& s.sq.ringMask)) = s.sq.head &&& s.sq.ringMask := by
        rw [htail, hu.mask, hslot, if_pos rfl]
      have hsame := hu.slot
      rw [hu.linked] at hsame
      refine Or.inl ⟨Or.inr (congrArg _ htail), hu.head, hu.mask, hu.entries, hu.tail, ?_, harray,
        hu.submitted, hu.taken⟩
      simp only [harray, hsame]
    · cases h
  | publish =>
    simp only [Manual.step] at h
    split at h
    · next tail hp =>
      cases h
      refine Or.inr ?_
      rintro ⟨-, -, hle⟩
      have htail : tail = s.sq.tail := by
        rcases hu.pc with he | he
        · rw [hp] at he
          cases he
        · rw [hp] at he
          exact Pc.linked.inj he
      have hsub := hs.window.tail_sub hs.sized
      rw [UInt32.sub_self, UInt32.toNat_zero, List.length_map, hfull] at hsub
      have hmax := hs.sized.le
      have hmore : tail + 1 - u.sq.head = s.sq.tail - s.sq.head + 1 := by
        rw [htail, hu.head]
        grind
      simp only [hmore, hu.entries, UInt32.le_iff_toNat_le, UInt32.toNat_add,
        UInt32.toNat_one] at hle
      omega
    · cases h
  | take =>
    obtain ⟨-, ⟨⟩⟩ := Option.ite_none_right_eq_some.mp h
    refine Or.inr ?_
    rintro ⟨hpre, -⟩
    have hread := hu.slot
    rw [← hu.head, ← hu.mask] at hread
    simp only [hread, hu.taken, hu.submitted] at hpre
    exact hs.not_prefix hpc (List.length_pos_iff.mp (by omega)) hpre
  | complete k res =>
    simp only [Manual.step] at h
    split at h
    · obtain ⟨d, -, rfl⟩ := Option.map_eq_some_iff.mp h
      exact Or.inl (hstay rfl rfl rfl rfl rfl)
    · cases h
  | post =>
    obtain ⟨d, -, rfl⟩ := Option.map_eq_some_iff.mp h
    exact Or.inl (hstay rfl rfl rfl rfl rfl)

/-- A run that goes on from there to submit the request breaks the law. -/
theorem Overwritten.breaks {argv : List Blocks.Outcomes} {s t u : State} {pending : List Sqe}
    (hs : Queued s pending) (hpc : s.pc = .prepared)
    (hfull : pending.length = s.sq.ringEntries.toNat) (ht : Overwritten s t)
    (h : Runs.Reach (Manual.step argv) Runs.Any t u) :
    Overwritten s u ∨ ∃ v, Runs.Reach (Manual.step argv) Runs.Any t v ∧
      Runs.Reach (Manual.step argv) Runs.Any v u ∧ ¬ v.Law := by
  induction h with
  | refl => exact Or.inl ht
  | tail hreach hlast ih =>
    rcases ih with hu | ⟨v, htv, hvu, hbad⟩
    · obtain ⟨a, hok, ha⟩ := hlast
      rcases hu.step hs hpc hfull ha with hw | hbad
      · exact Or.inl hw
      · exact Or.inr ⟨_, hreach.tail ⟨a, hok, ha⟩, Relation.ReflTransGen.refl, hbad⟩
    · exact Or.inr ⟨v, htv, hvu.tail hlast, hbad⟩

/-- Two files of one byte, the first request still in the ring of one entry when the
second is written. -/
def oneEntry : Rings where
  sq := ⟨0, 0, 0, 1, 0, fun _ => 0⟩
  sqes := fun _ => ⟨0, 0, .nop, 0, 0, 0, 0⟩
  cq := ⟨0, 0, 1, 2, fun _ => ⟨0, 0⟩⟩
  sqSized := ⟨0, by decide, rfl, rfl⟩
  sqEmpty := rfl
  cqSized := ⟨1, by decide, rfl, rfl⟩
  cqEmpty := rfl

def oneByte : Blocks.Outcomes := ⟨true, 1, true, fun _ => true⟩

theorem overrun :
    ∃ s, Runs.Reach (step [oneByte, oneByte]) Runs.Any (start oneEntry) s ∧ ¬ s.Law := by
  have hreach := Runs.reach_of_run
    [.prepare, .fill, .link, .publish, .enter true, .call, .read .look, .read .check, .leave,
      .prepare, .fill, .link, .publish]
    (fun _ _ _ => trivial)
    (rfl : Runs.run (step [oneByte, oneByte]) (start oneEntry) _ = some _)
  refine ⟨_, hreach, ?_⟩
  rintro ⟨-, -, hle⟩
  exact absurd hle (by decide)

/-- The requests are taken once and in order wherever each entry is written with
room for it, and a run that submits one written without room breaks that. -/
theorem taken_once {argv : List Blocks.Outcomes} {rings : Rings} {s : State}
    (h : Runs.Reach (step argv) Room (start rings) s) :
    s.Law ∧ ∀ t u, step argv s .fill = some t → ¬ Room s .fill →
      Runs.Reach (step argv) Runs.Any t u → t.submitted.length < u.submitted.length →
        ∃ v, Runs.Reach (step argv) Runs.Any t v ∧ Runs.Reach (step argv) Runs.Any v u ∧
          ¬ v.Law := by
  obtain ⟨pending, hs⟩ := reach_queued h
  refine ⟨hs.law, ?_⟩
  intro t u hfill hroom hreach hlen
  simp only [step] at hfill
  split at hfill
  · next hpc =>
    cases hfill
    have hfull : pending.length = s.sq.ringEntries.toNat := by
      have hsub := hs.window.tail_sub hs.sized
      have hle := hs.window.tail_le hs.sized
      have hnot : ¬ s.sq.tail - s.sq.head < s.sq.ringEntries := fun hlt => hroom fun _ => hlt
      rw [UInt32.sub_self, UInt32.toNat_zero, List.length_map] at hsub
      rw [UInt32.le_iff_toNat_le] at hle
      rw [UInt32.lt_iff_toNat_lt] at hnot
      omega
    rcases (hs.overwritten hfull).breaks hs hpc hfull hreach with hu | hbad
    · rw [hu.submitted] at hlen
      exact absurd hlen (Nat.lt_irrefl _)
    · exact hbad
  · cases hfill

/-- A ring that has room for the requests of two files. -/
def twoEntries : Rings where
  sq := ⟨0, 0, 1, 2, 0, fun _ => 0⟩
  sqes := fun _ => ⟨0, 0, .nop, 0, 0, 0, 0⟩
  cq := ⟨0, 0, 3, 4, fun _ => ⟨0, 0⟩⟩
  sqSized := ⟨1, by decide, rfl, rfl⟩
  sqEmpty := rfl
  cqSized := ⟨2, by decide, rfl, rfl⟩
  cqEmpty := rfl

instance (s : State) (a : Action) : Decidable (Room s a) :=
  match a with
  | .fill => decidable_of_iff (s.sq.tail - s.sq.head < s.sq.ringEntries) (by simp [Room])
  | .prepare | .link | .publish | .enter _ | .call | .read _ | .leave | .finish | .take
  | .complete _ _ | .post => .isTrue (by simp [Room])

/-- Both requests are in the ring when the kernel takes the first. -/
theorem taken_once_two_files :
    ∃ s, Runs.Reach (step [oneByte, oneByte]) Room (start twoEntries) s ∧
      s.taken.map (·.userData) = [0, 1] ∧ s.Law := by
  have hrun : Runs.run (fun s a => if Room s a then step [oneByte, oneByte] s a else none)
      (start twoEntries)
      [.prepare, .fill, .link, .publish, .enter true, .call, .read .look, .read .check, .leave,
        .prepare, .fill, .link, .publish, .take, .take] = some _ := rfl
  have hreach := Runs.reach_of_guarded _ hrun
  exact ⟨_, hreach, rfl, (taken_once hreach).1⟩

end Manual

end IoUring
