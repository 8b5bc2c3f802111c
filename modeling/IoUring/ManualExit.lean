import IoUring.ManualRing

/-! What omp_io_uring_manual.c has printed when its read command ends: the files whose
completions were there when `read_from_cq` looked for the last time. -/

namespace IoUring

namespace Manual

open Blocks (Iovec Own)

def chunks (out : List Drain.Line) : List Iovec :=
  out.filterMap fun
    | .chunk v => some v
    | .text _ | .error _ | .result _ => none

theorem chunks_append (out more : List Drain.Line) :
    chunks (out ++ more) = chunks out ++ chunks more :=
  List.filterMap_append

theorem chunks_printed (fi : Blocks.FileInfo) (res : Int32) :
    chunks (Drain.printed fi res) = fi.iovecs := by
  have hmap : ∀ vs : List Iovec, chunks (vs.map Drain.Line.chunk) = vs := by
    intro vs
    induction vs with
    | nil => rfl
    | cons v vs ih => exact congrArg (v :: ·) ih
  rw [Drain.printed, fi.printed_eq]
  split <;> exact hmap fi.iovecs

/-- Every block of every file, for the completions in the order of their handling. -/
def Shown (fis : Nat → Blocks.FileInfo) (d : Drain.State) : Prop :=
  chunks d.out = (d.handled.map (·.userData)).flatMap fun k => (fis k).iovecs

theorem Shown.step {fis : Nat → Blocks.FileInfo} {d e : Drain.State} {a : Drain.Action}
    (h : Drain.step fis d a = some e) (hd : Shown fis d) : Shown fis e := by
  have hkeep : chunks e.out = chunks d.out → e.handled = d.handled → Shown fis e := by
    intro hout hhandled
    rw [Shown, hout, hhandled]
    exact hd
  cases a with
  | call =>
    simp only [Drain.step] at h
    split at h
    · cases h
      refine hkeep ?_ rfl
      rw [chunks_append]
      exact List.append_nil _
    · cases h
  | look =>
    simp only [Drain.step] at h
    split at h
    · cases h
      refine hkeep ?_ rfl
      dsimp only
      split
      · rw [chunks_append]
        exact List.append_nil _
      · rfl
    · cases h
  | check | fetch | publish | advance =>
    simp only [Drain.step] at h
    split at h
    · cases h
      exact hkeep rfl rfl
    · cases h
  | handle =>
    simp only [Drain.step] at h
    split at h
    · cases h
      have hout : chunks d.out = _ := hd
      rw [Shown, chunks_append, chunks_printed, hout, List.map_append, List.flatMap_append]
      simp
    · cases h
  | store c =>
    obtain ⟨-, ⟨⟩⟩ := Option.ite_none_right_eq_some.mp h
    exact hkeep rfl rfl

/-- The completions that the kernel has posted or is about to post. -/
def answered (d : Drain.State) : List Nat :=
  (d.posted ++ d.storing.toList).map (·.userData)

theorem answered_of_call {fis : Nat → Blocks.FileInfo} {d e : Drain.State} {a : Drain.Action}
    (h : Drain.step fis d a = some e) (ha : inLoop a = true ∨ a = .call ∨ a = .publish) :
    answered e = answered d := by
  cases a with
  | store | advance => simp [inLoop] at ha
  | call | look | check | fetch | handle | publish =>
    simp only [Drain.step] at h
    split at h
    · cases h
      rfl
    · cases h

theorem answered_store {fis : Nat → Blocks.FileInfo} {d e : Drain.State} {c : Drain.Cqe}
    (h : Drain.step fis d (.store c) = some e) : answered e = answered d ++ [c.userData] := by
  obtain ⟨hc, ⟨⟩⟩ := Option.ite_none_right_eq_some.mp h
  simp [answered, hc.1]

theorem answered_advance {fis : Nat → Blocks.FileInfo} {d e : Drain.State}
    (h : Drain.step fis d .advance = some e) : answered e = answered d := by
  simp only [Drain.step] at h
  split at h
  · next c hc =>
    cases h
    simp [answered, hc]
  · cases h

theorem prepare_own {o : Blocks.Outcomes} {k : Nat} {fi : Blocks.FileInfo}
    (h : prepare o k = .ok fi) : Own k fi := by
  rw [prepare] at h
  split at h
  · split at h
    · exact Blocks.fileInfo_own h
    · cases h
  · cases h

def AtFile (argv : List Blocks.Outcomes) (s : State) : Prop :=
  match s.pc with
  | .top => s.i ≤ argv.length ∧ s.drain.pc = .idle
  | .prepared | .filled _ | .linked _ =>
    s.i < argv.length ∧ s.drain.pc = .idle ∧ Own s.i (s.fis s.i)
  | .published | .sleeping => s.i < argv.length ∧ s.drain.pc = .idle
  | .reading => s.i < argv.length
  | .exited status => status = 0 → s.submitted.length = argv.length ∧ s.drain.pc = .idle
  | .fault _ => True

/-- Each request that was taken is in flight or answered, and what was answered and
handled is printed. -/
structure Flow (argv : List Blocks.Outcomes) (s : State) : Prop where
  answered : (answered s.drain ++ s.inFlight.map (·.userData)).Perm (s.taken.map (·.userData))
  shown : Shown s.fis s.drain
  own : ∀ k < s.submitted.length, Own k (s.fis k)
  here : AtFile argv s

theorem start_flow (argv : List Blocks.Outcomes) (rings : Rings) : Flow argv (start rings) where
  answered := List.Perm.refl _
  shown := rfl
  own := fun k hk => absurd hk (Nat.not_lt_zero k)
  here := ⟨Nat.zero_le _, rfl⟩

theorem Flow.lt_length {argv : List Blocks.Outcomes} {s : State} {pending : List Sqe}
    (h : Flow argv s) (hq : Queued s pending) {k : Nat}
    (hk : k ∈ s.drain.posted.map (·.userData)) : k < s.submitted.length := by
  have hmem : k ∈ s.taken.map (·.userData) := by
    refine h.answered.subset (List.mem_append_left _ ?_)
    rw [Manual.answered, List.map_append]
    exact List.mem_append_left _ hk
  have hsub : k ∈ s.submitted.map (·.userData) := by
    rw [hq.submitted, List.map_append]
    exact List.mem_append_left _ hmem
  rwa [hq.numbered, List.mem_range] at hsub

theorem Flow.nodup {argv : List Blocks.Outcomes} {s : State} {pending : List Sqe}
    (h : Flow argv s) (hq : Queued s pending) : (s.drain.posted.map (·.userData)).Nodup := by
  have hall : (s.submitted.map (·.userData)).Nodup := by
    rw [hq.numbered]
    exact List.nodup_range
  rw [hq.submitted, List.map_append] at hall
  have hanswered := (h.answered.nodup_iff.mpr hall.of_append_left).of_append_left
  rw [Manual.answered, List.map_append] at hanswered
  exact hanswered.of_append_left

theorem Shown.congr {fis fis' : Nat → Blocks.FileInfo} {d : Drain.State} (h : Shown fis d)
    (heq : ∀ k ∈ d.handled.map (·.userData), fis' k = fis k) : Shown fis' d := by
  have hout : chunks d.out = _ := h
  rw [Shown, hout]
  exact List.flatMap_congr fun k hk => by rw [heq k hk]

theorem AtFile.congr {argv : List Blocks.Outcomes} {s t : State} (h : AtFile argv s)
    (hpc : t.pc = s.pc) (hi : t.i = s.i) (hfis : t.fis = s.fis)
    (hsub : t.submitted = s.submitted) (hdrain : t.drain.pc = s.drain.pc) : AtFile argv t := by
  rw [AtFile, hpc, hi, hfis, hsub, hdrain]
  exact h

theorem step_flow {argv : List Blocks.Outcomes} {s t : State} {a : Action} {pending : List Sqe}
    {seen : List Drain.Cqe} (h : step argv s a = some t) (hq : Queued s pending)
    (hd : Drain.Inv s.drain seen) (hs : Flow argv s) : Flow argv t := by
  have hhere := hs.here
  rw [AtFile] at hhere
  have hat := hq.here
  rw [At] at hat
  cases a with
  | prepare =>
    obtain ⟨hpc, h⟩ := Option.ite_none_right_eq_some.mp h
    rw [hpc] at hhere hat
    split at h
    · cases h
    · next o ho =>
      split at h
      · next fi hfi =>
        cases h
        have hlt : s.i < argv.length := (List.getElem?_eq_some_iff.mp ho).1
        have hother : ∀ k < s.submitted.length, (if k = s.i then fi else s.fis k) = s.fis k := by
          intro k hk
          have hne : k ≠ s.i := by omega
          exact if_neg hne
        refine ⟨hs.answered, hs.shown.congr ?_, ?_, hlt, hhere.2, ?_⟩
        · intro k hk
          refine hother k (hs.lt_length hq ?_)
          rw [hd.posted, List.map_append]
          exact List.mem_append_left _ hk
        · intro k hk
          change Own k (if k = s.i then fi else s.fis k)
          rw [hother k hk]
          exact hs.own k hk
        · change Own s.i (if s.i = s.i then fi else s.fis s.i)
          rw [if_pos rfl]
          exact prepare_own hfi
      · cases h
        exact ⟨hs.answered, hs.shown, hs.own, fun he => by cases he⟩
      · cases h
        exact ⟨hs.answered, hs.shown, hs.own, trivial⟩
  | fill =>
    obtain ⟨hpc, ⟨⟩⟩ := Option.ite_none_right_eq_some.mp h
    rw [hpc] at hhere
    exact ⟨hs.answered, hs.shown, hs.own, hhere⟩
  | link =>
    simp only [step] at h
    split at h
    · next hpc =>
      cases h
      rw [hpc] at hhere
      exact ⟨hs.answered, hs.shown, hs.own, hhere⟩
    · cases h
  | publish =>
    simp only [step] at h
    split at h
    · next tail hpc =>
      cases h
      rw [hpc] at hhere hat
      refine ⟨hs.answered, hs.shown, ?_, hhere.1, hhere.2.1⟩
      intro k hk
      rw [List.length_append, List.length_singleton] at hk
      by_cases he : k = s.i
      · rw [he]
        exact hhere.2.2
      · exact hs.own k (by omega)
    · cases h
  | enter ok =>
    obtain ⟨hpc, ⟨⟩⟩ := Option.ite_none_right_eq_some.mp h
    rw [hpc] at hhere
    cases ok with
    | true => exact ⟨hs.answered, hs.shown, hs.own, hhere⟩
    | false => exact ⟨hs.answered, hs.shown, hs.own, fun he => by cases he⟩
  | call =>
    obtain ⟨hpc, h⟩ := Option.ite_none_right_eq_some.mp h
    obtain ⟨d, hcall, rfl⟩ := Option.map_eq_some_iff.mp h
    rw [hpc] at hhere
    refine ⟨?_, hs.shown.step hcall, hs.own, hhere.1⟩
    have hanswered := hs.answered
    rwa [← answered_of_call hcall (Or.inr (Or.inl rfl))] at hanswered
  | read a =>
    obtain ⟨hc, h⟩ := Option.ite_none_right_eq_some.mp h
    obtain ⟨d, hread, rfl⟩ := Option.map_eq_some_iff.mp h
    rw [hc.1] at hhere
    have hanswered := hs.answered
    rw [← answered_of_call hread (Or.inl hc.2)] at hanswered
    refine ⟨hanswered, hs.shown.step hread, hs.own, ?_⟩
    rw [AtFile]
    simp only [hc.1]
    exact hhere
  | leave =>
    obtain ⟨hpc, h⟩ := Option.ite_none_right_eq_some.mp h
    obtain ⟨d, hpub, rfl⟩ := Option.map_eq_some_iff.mp h
    rw [hpc] at hhere
    have hanswered := hs.answered
    rw [← answered_of_call hpub (Or.inr (Or.inr rfl))] at hanswered
    exact ⟨hanswered, hs.shown.step hpub, hs.own, hhere, Drain.publish_pc hpub⟩
  | finish =>
    obtain ⟨hc, ⟨⟩⟩ := Option.ite_none_right_eq_some.mp h
    rw [hc.1] at hhere hat
    have hi : s.submitted.length = argv.length := by
      have hle : s.i ≤ argv.length := hhere.1
      have hge := hc.2
      omega
    exact ⟨hs.answered, hs.shown, hs.own, fun _ => ⟨hi, hhere.2⟩⟩
  | take =>
    obtain ⟨-, ⟨⟩⟩ := Option.ite_none_right_eq_some.mp h
    refine ⟨?_, hs.shown, hs.own, hs.here.congr rfl rfl rfl rfl rfl⟩
    simp only [List.map_append]
    rw [← List.append_assoc]
    exact hs.answered.append_right _
  | complete k res =>
    simp only [step] at h
    split at h
    · next sqe hk =>
      obtain ⟨d, hstore, rfl⟩ := Option.map_eq_some_iff.mp h
      refine ⟨?_, hs.shown.step hstore, hs.own,
        hs.here.congr rfl rfl rfl rfl (Drain.store_pc hstore)⟩
      have herase := (Runs.cons_eraseIdx_perm hk).map (·.userData)
      rw [List.map_cons] at herase
      rw [answered_store hstore, List.append_assoc]
      exact (herase.append_left (answered s.drain)).trans hs.answered
    · cases h
  | post =>
    obtain ⟨d, hpost, rfl⟩ := Option.map_eq_some_iff.mp h
    have hanswered := hs.answered
    rw [← answered_advance hpost] at hanswered
    exact ⟨hanswered, hs.shown.step hpost, hs.own,
      hs.here.congr rfl rfl rfl rfl (Drain.advance_pc hpost)⟩

/-- Seen from the completion ring, the whole command is a run of `read_from_cq`. -/
theorem step_drain {argv : List Blocks.Outcomes} {s t : State} {a : Action}
    (h : step argv s a = some t) :
    t.drain = s.drain ∨ ∃ b, Drain.step s.fis s.drain b = some t.drain := by
  cases a with
  | prepare =>
    obtain ⟨-, h⟩ := Option.ite_none_right_eq_some.mp h
    split at h
    · cases h
    · split at h <;> cases h <;> exact Or.inl rfl
  | fill | enter | finish | take =>
    obtain ⟨-, ⟨⟩⟩ := Option.ite_none_right_eq_some.mp h
    exact Or.inl rfl
  | link | publish =>
    simp only [step] at h
    split at h
    · cases h
      exact Or.inl rfl
    · cases h
  | call | read | leave =>
    obtain ⟨-, h⟩ := Option.ite_none_right_eq_some.mp h
    obtain ⟨d, hd, rfl⟩ := Option.map_eq_some_iff.mp h
    exact Or.inr ⟨_, hd⟩
  | complete =>
    simp only [step] at h
    split at h
    · obtain ⟨d, hd, rfl⟩ := Option.map_eq_some_iff.mp h
      exact Or.inr ⟨_, hd⟩
    · cases h
  | post =>
    obtain ⟨d, hd, rfl⟩ := Option.map_eq_some_iff.mp h
    exact Or.inr ⟨_, hd⟩

structure Sound (argv : List Blocks.Outcomes) (s : State) (pending : List Sqe)
    (seen : List Drain.Cqe) : Prop where
  queued : Queued s pending
  drain : Drain.Inv s.drain seen
  flow : Flow argv s

theorem reach_sound {argv : List Blocks.Outcomes} {rings : Rings} {s : State}
    (h : Runs.Reach (step argv) Room (start rings) s) :
    ∃ pending seen, Sound argv s pending seen := by
  have hstart : Sound argv (start rings) [] [] :=
    ⟨start_queued rings, Drain.start_inv rings.cqSized rings.cqEmpty, start_flow argv rings⟩
  refine h.invariant (I := fun s => ∃ pending seen, Sound argv s pending seen)
    ⟨[], [], hstart⟩ ?_
  rintro u a v hok hstep ⟨pending, seen, hu⟩
  obtain ⟨pending', hqueued⟩ := step_queued hstep hok hu.queued
  have hflow := step_flow hstep hu.queued hu.drain hu.flow
  rcases step_drain hstep with hsame | ⟨b, hb⟩
  · exact ⟨pending', seen, hqueued, hsame ▸ hu.drain, hflow⟩
  · obtain ⟨seen', hseen⟩ := Drain.step_inv hb hu.drain
    exact ⟨pending', seen', hqueued, hseen, hflow⟩

/-- Every buffer of every file has been printed exactly once. -/
def State.Printed (argv : List Blocks.Outcomes) (s : State) : Prop :=
  ∀ k < argv.length, ∀ v ∈ (s.fis k).iovecs, (chunks s.drain.out).count v = 1

/-- A run that ends with status 0 has printed everything just if the completion of
each file that has any blocks was posted when the tail was last read. -/
theorem printed_iff {argv : List Blocks.Outcomes} {rings : Rings} {s : State}
    (h : Runs.Reach (step argv) Room (start rings) s) (hpc : s.pc = .exited 0) :
    s.Printed argv ↔ ∀ k < argv.length, (s.fis k).iovecs ≠ [] →
      k ∈ (s.drain.posted.take s.drain.observed).map (·.userData) := by
  obtain ⟨pending, seen, hs⟩ := reach_sound h
  have hhere := hs.flow.here
  rw [AtFile, hpc] at hhere
  obtain ⟨hlen, hidle⟩ := hhere rfl
  have hhandled := hs.drain.eq_of_idle hidle
  have hshown : chunks s.drain.out = _ := hs.flow.shown
  have hposted : (s.drain.handled.map (·.userData)).Sublist
      (s.drain.posted.map (·.userData)) := by
    rw [hhandled]
    exact (List.take_sublist _ _).map _
  have hnodup := (hs.flow.nodup hs.queued).sublist hposted
  have hcount : ∀ k < argv.length, ∀ v ∈ (s.fis k).iovecs,
      (chunks s.drain.out).count v = (s.drain.handled.map (·.userData)).count k := by
    intro k hk v hv
    rw [hshown]
    refine Blocks.count_flatMap (hs.flow.own k (by omega)) hv _ ?_
    intro j hj
    exact hs.flow.own j (hs.flow.lt_length hs.queued (hposted.subset hj))
  rw [← hhandled]
  constructor
  · intro hprinted k hk hne
    obtain ⟨v, hv⟩ := List.exists_mem_of_ne_nil _ hne
    have hone := hprinted k hk v hv
    rw [hcount k hk v hv] at hone
    exact List.count_pos_iff.mp (by omega)
  · intro hall k hk v hv
    rw [hcount k hk v hv]
    exact List.count_eq_one_of_mem hnodup (hall k hk (List.ne_nil_of_mem hv))

theorem file_lost :
    ∃ s, Runs.Reach (step [oneByte]) Room (start oneEntry) s ∧ s.pc = .exited 0 ∧
      ¬ s.Printed [oneByte] := by
  have hrun : Runs.run (fun s a => if Room s a then step [oneByte] s a else none)
      (start oneEntry)
      [.prepare, .fill, .link, .publish, .enter true, .call, .read .look, .read .check, .leave,
        .finish] = some _ := rfl
  have hreach := Runs.reach_of_guarded _ hrun
  refine ⟨_, hreach, rfl, ?_⟩
  intro hprinted
  have hone := hprinted 0 (by decide) ⟨⟨0, 0⟩, 1⟩ (List.mem_singleton.mpr rfl)
  exact absurd hone (by decide)

/-- The second file completes first, and both are printed by the second call. -/
theorem printed_two_files :
    ∃ s, Runs.Reach (step [oneByte, oneByte]) Room (start twoEntries) s ∧ s.pc = .exited 0 ∧
      chunks s.drain.out = [⟨⟨1, 0⟩, 1⟩, ⟨⟨0, 0⟩, 1⟩] ∧
      (s.Printed [oneByte, oneByte] ↔ ∀ k < 2, (s.fis k).iovecs ≠ [] →
        k ∈ (s.drain.posted.take s.drain.observed).map (·.userData)) ∧
      s.Printed [oneByte, oneByte] := by
  have hrun : Runs.run (fun s a => if Room s a then step [oneByte, oneByte] s a else none)
      (start twoEntries)
      [.prepare, .fill, .link, .publish, .enter true, .take, .call, .read .look, .read .check,
        .leave, .prepare, .fill, .link, .publish, .enter true, .take, .complete 1 1, .post,
        .complete 0 1, .post, .call, .read .look, .read .check, .read .fetch, .read .handle,
        .read .check, .read .fetch, .read .handle, .read .check, .leave, .finish] = some _ := rfl
  have hreach := Runs.reach_of_guarded _ hrun
  have hiff := printed_iff hreach rfl
  refine ⟨_, hreach, rfl, rfl, hiff, hiff.mpr ?_⟩
  intro k hk _
  have hcases : k = 0 ∨ k = 1 := by
    change k < 2 at hk
    omega
  rcases hcases with rfl | rfl <;> decide

end Manual

end IoUring
