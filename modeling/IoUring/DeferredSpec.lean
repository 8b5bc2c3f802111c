import IoUring.Deferred
import Mathlib.Order.Lattice.Nat

/-! In every order of the steps of io_uring_read.c the calls are answered as on
the handle of host.cpp, whose `my_fopen` waits. The kernel's steps are invisible:
they do not change the memory that the kernel will leave in the end. -/

namespace IoUring.Deferred

open Interleaved (Posted posted_of_built)

/-- The memory when the kernel has made its remaining steps. -/
def finish (kernel : Sqe → Completion) : Phase → MyFile → MyFile
  | .idle, m => completeReadv kernel m
  | .taken sqe, m =>
    advanceTail (storeCqe ⟨sqe.userData, (kernel sqe).res⟩ (fillBuffers sqe (kernel sqe).data m))
  | .filled sqe, m => advanceTail (storeCqe ⟨sqe.userData, (kernel sqe).res⟩ m)
  | .stored, m => advanceTail m
  | .done, m => m

section Finish

variable (kernel : Sqe → Completion) (phase : Phase) (m : MyFile)

@[simp] theorem finish_blocks : (finish kernel phase m).blocks = m.blocks := by
  cases phase <;> rfl

@[simp] theorem finish_currentBlock :
    (finish kernel phase m).currentBlock = m.currentBlock := by
  cases phase <;> rfl

end Finish

/-- What a step of the kernel leaves as it is, and what it does to the completion tail. -/
structure Next (kernel : Sqe → Completion) (phase phase' : Phase) (m m' : MyFile) : Prop where
  outstanding : phase ≠ .done
  taken : phase' ≠ .idle
  posted : Posted phase m → Posted phase' m'
  finish : finish kernel phase' m' = finish kernel phase m
  isfirst : m'.isfirst = m.isfirst
  blocks : m'.blocks = m.blocks
  currentBlock : m'.currentBlock = m.currentBlock
  entry : ∀ ptr, m'.entry ptr = { m.entry ptr with mf := m' }

theorem next_spec {kernel : Sqe → Completion} {thread : Thread} {phase phase' : Phase}
    {m : MyFile} {f : MyFile → MyFile} (h : next kernel thread m phase = some (phase', f)) :
    Next kernel phase phase' m (f m) := by
  cases phase with
  | idle =>
    obtain ⟨-, ⟨⟩⟩ := Option.ite_none_right_eq_some.mp h
    exact ⟨by simp, by simp, fun hp => ⟨fun _ => hp.before (by simp), by simp⟩,
      (Interleaved.completeReadv_eq kernel m).symm, rfl, rfl, rfl, fun _ => rfl⟩
  | taken sqe =>
    cases h
    exact ⟨by simp, by simp, fun hp => ⟨fun _ => hp.before (by simp), by simp⟩, rfl, rfl, rfl, rfl,
      fun _ => rfl⟩
  | filled sqe =>
    cases h
    exact ⟨by simp, by simp, fun hp => ⟨fun _ => hp.before (by simp), by simp⟩, rfl, rfl, rfl, rfl,
      fun _ => rfl⟩
  | stored =>
    cases h
    exact ⟨by simp, by simp, fun hp => ⟨by simp, fun _ => congrArg (· + 1) (hp.before (by simp))⟩,
      rfl, rfl, rfl, rfl, fun _ => rfl⟩
  | done => cases h

/-- The completion has not been fetched: the handle is as `my_fopen` left it. -/
structure Unfetched (kernel : Sqe → Completion) (opened : MyFile) (phase : Phase)
    (errors : List Int32) (m : MyFile) : Prop where
  finish : finish kernel phase m = opened
  posted : Posted phase m
  queued : phase = .idle → m.s.sqRing.head ≠ m.s.sqRing.tail
  errors : errors = []

structure Fetched (opened : MyFile) (phase : Phase) (errors : List Int32) : Prop where
  done : phase = .done
  errors : errors = failure opened.cqe

structure Stage (kernel : Sqe → Completion) (opened : MyFile) (phase : Phase)
    (errors : List Int32) (m : MyFile) : Prop where
  unfetched : m.isfirst = 0 → Unfetched kernel opened phase errors m
  fetched : m.isfirst ≠ 0 → Fetched opened phase errors

/-- The calls so far are answered as in a run on the opened handle. -/
def Replied (opened : MyFile) (replies : List (Request × Reply)) (m : MyFile) : Prop :=
  ∃ rs, freadRun opened (replies.map Prod.fst) = some (rs, m) ∧
    replies.map Prod.snd = rs.map FreadResult.reply

/-- A call on the handle `m` that has come as far as `st`. -/
structure Came (m : MyFile) (q : Request) (st : FreadState) : Prop where
  inside : ¬ m.currentBlock.toUInt32 ≥ m.blocks.toUInt32
  turns : ∃ k, ∀ n, freadLoop (q.size * q.count) (k + n) (m.entry q.ptr) =
    freadLoop (q.size * q.count) n st

def Inv (kernel : Sqe → Completion) (mf : MyFile) (s : State) : Prop :=
  let opened := completeReadv kernel (submitReadv mf)
  match s.app with
  | .submitting m => m = mf ∧ s.phase = .idle ∧ s.replies = [] ∧ s.errors = []
  | .submitted m | .entering m | .failed m =>
    s.replies = [] ∧ m.isfirst = 0 ∧ Stage kernel opened s.phase s.errors m
  | .idle m =>
    Stage kernel opened s.phase s.errors m ∧ Replied opened s.replies (finish kernel s.phase m)
  | .waiting q st =>
    st = st.mf.entry q.ptr ∧ ¬ st.mf.currentBlock.toUInt32 ≥ st.mf.blocks.toUInt32 ∧
      Stage kernel opened s.phase s.errors st.mf ∧
        Replied opened s.replies (finish kernel s.phase st.mf)
  | .reading q st =>
    s.phase = .done ∧ (st.mf.isfirst = 0 → st.head = st.mf.s.cqRing.head) ∧
      Stage kernel opened s.phase s.errors st.mf ∧ ∃ m, Replied opened s.replies m ∧ Came m q st

theorem freadRun_snoc {mf m : MyFile} {qs : List Request} {rs : List FreadResult} {q : Request}
    {r : FreadResult} (hrun : freadRun mf qs = some (rs, m))
    (hcall : myFread q.ptr q.size q.count m = some r) :
    freadRun mf (qs ++ [q]) = some (rs ++ [r], r.mf) := by
  induction qs generalizing mf rs with
  | nil =>
    cases hrun
    exact (freadRun_cons hcall).mpr ⟨[], rfl, rfl⟩
  | cons p qs ih =>
    cases hp : myFread p.ptr p.size p.count mf with
    | none => simp [freadRun, hp] at hrun
    | some v =>
      obtain ⟨rest, hrest, rfl⟩ := (freadRun_cons hp).mp hrun
      exact (freadRun_cons hp).mpr ⟨rest ++ [r], ih hrest, rfl⟩

theorem Replied.snoc {opened m : MyFile} {replies : List (Request × Reply)} {q : Request}
    {r : FreadResult} (h : Replied opened replies m)
    (hcall : myFread q.ptr q.size q.count m = some r) :
    Replied opened (replies ++ [(q, FreadResult.reply r)]) r.mf := by
  obtain ⟨rs, hrun, hreplies⟩ := h
  refine ⟨rs ++ [r], ?_, by simp [hreplies]⟩
  rw [List.map_append]
  exact freadRun_snoc hrun hcall

theorem Replied.sound {opened m : MyFile} {replies : List (Request × Reply)}
    (hsound : opened.Sound) (h : Replied opened replies m) : m.Sound := by
  obtain ⟨rs, hrun, -⟩ := h
  obtain ⟨rs', last, hrun', hlast, -⟩ := freadRun_sound hsound (replies.map Prod.fst)
  rw [hrun', Option.some_inj] at hrun
  cases hrun
  exact hlast

/-- A call on a sound handle has turns left that end it. -/
theorem Came.ends {m : MyFile} {q : Request} {st : FreadState} (hm : m.Sound) (h : Came m q st) :
    ∃ n st', freadLoop (q.size * q.count) n st = some st' ∧
      myFread q.ptr q.size q.count m = some st'.result := by
  obtain ⟨k, hk⟩ := h.turns
  obtain ⟨r, hcall, -⟩ := myFread_called hm q
  have hmap := hcall
  rw [myFread_eq_map h.inside] at hmap
  obtain ⟨st', hst', rfl⟩ := Option.map_eq_some_iff.mp hmap
  refine ⟨(q.size * q.count).toNat + 1, st', ?_, hcall⟩
  rw [← hk, Nat.add_comm]
  exact Interleaved.freadLoop_mono k hst'

theorem Came.next {m : MyFile} {q : Request} {st st' : FreadState} (h : Came m q st)
    (hturn : freadTurn (q.size * q.count) st = some (.next st'))
    (hlt : st'.index < st'.mf.blocks.toUInt32) : Came m q st' := by
  obtain ⟨k, hk⟩ := h.turns
  refine ⟨h.inside, k + 1, ?_⟩
  intro n
  rw [Nat.add_assoc, Nat.add_comm 1 n, hk, freadLoop, hturn]
  simp only [if_pos hlt]

/-- The number of turns that the loop of `my_fread` still takes. -/
noncomputable def turnsLeft (q : Request) (st : FreadState) : Nat :=
  sInf {n | (freadLoop (q.size * q.count) n st).isSome}

theorem turnsLeft_next {m : MyFile} {q : Request} {st st' : FreadState} (hm : m.Sound)
    (h : Came m q st) (hturn : freadTurn (q.size * q.count) st = some (.next st'))
    (hlt : st'.index < st'.mf.blocks.toUInt32) : turnsLeft q st' < turnsLeft q st := by
  obtain ⟨n, last, hloop, -⟩ := h.ends hm
  have hmem : turnsLeft q st ∈ {n | (freadLoop (q.size * q.count) n st).isSome} :=
    Nat.sInf_mem ⟨n, by simp [hloop]⟩
  cases hleft : turnsLeft q st with
  | zero =>
    rw [hleft] at hmem
    simp [freadLoop] at hmem
  | succ k =>
    rw [hleft] at hmem
    change (freadLoop (q.size * q.count) (k + 1) st).isSome at hmem
    rw [freadLoop, hturn] at hmem
    simp only [if_pos hlt] at hmem
    exact Nat.lt_succ_of_le (Nat.sInf_le hmem)

/-- The three ways in which a turn goes on. -/
theorem turn_cases {m : MyFile} {q : Request} {st : FreadState} (s : State) (hm : m.Sound)
    (h : Came m q st) :
    ∃ t, freadTurn (q.size * q.count) st = some t ∧
      (s.turn q st =
            some (State.reply { s with errors := s.errors ++ printed st } q t.state.result) ∧
          myFread q.ptr q.size q.count m = some t.state.result ∨
        s.turn q st = some { s with errors := s.errors ++ printed st, app := .reading q t.state } ∧
          Came m q t.state ∧ turnsLeft q t.state < turnsLeft q st) := by
  obtain ⟨n, last, hloop, hcall⟩ := h.ends hm
  cases n with
  | zero => cases hloop
  | succ n =>
    rw [freadLoop] at hloop
    cases hturn : freadTurn (q.size * q.count) st with
    | none => simp [hturn] at hloop
    | some t =>
      refine ⟨t, rfl, ?_⟩
      rw [hturn] at hloop
      cases t with
      | brk st' =>
        cases hloop
        exact Or.inl ⟨by simp only [State.turn, hturn, Turn.state], hcall⟩
      | next st' =>
        by_cases hlt : st'.index < st'.mf.blocks.toUInt32
        · exact Or.inr ⟨by simp only [State.turn, hturn, if_pos hlt, Turn.state], h.next hturn hlt,
            turnsLeft_next hm h hturn hlt⟩
        · simp only [if_neg hlt, Option.some.injEq] at hloop
          subst hloop
          exact Or.inl ⟨by simp only [State.turn, hturn, if_neg hlt, Turn.state], hcall⟩

theorem Stage.kernel {kernel : Sqe → Completion} {opened m m' : MyFile} {phase phase' : Phase}
    {errors : List Int32} (h : Stage kernel opened phase errors m)
    (hn : Next kernel phase phase' m m') : Stage kernel opened phase' errors m' where
  unfetched := by
    intro h0
    have hu := h.unfetched (hn.isfirst ▸ h0)
    exact ⟨hn.finish.trans hu.finish, hn.posted hu.posted, fun hidle => absurd hidle hn.taken,
      hu.errors⟩
  fetched := by
    intro h1
    exact absurd (h.fetched (hn.isfirst ▸ h1)).done hn.outstanding

/-- A turn that finds the completion fetches it and prints its failure. -/
theorem Stage.turn {kernel : Sqe → Completion} {opened : MyFile} {errors : List Int32} {q : Request}
    {st : FreadState} {t : Turn} (h : Stage kernel opened .done errors st.mf)
    (hhead : st.mf.isfirst = 0 → st.head = st.mf.s.cqRing.head)
    (hturn : freadTurn (q.size * q.count) st = some t) :
    t.state.mf.isfirst ≠ 0 ∧ errors ++ printed st = failure opened.cqe := by
  have hne : ∀ x : UInt32, x ≠ x + 1 := fun x => by grind
  by_cases h0 : st.mf.isfirst = 0
  · have hu := h.unfetched h0
    have hmf : st.mf = opened := hu.finish
    have htail : st.head ≠ st.mf.s.cqRing.tail := by
      rw [hhead h0, hu.posted.after rfl]
      exact hne _
    have hprinted : printed st = failure opened.cqe := by
      rw [printed, if_pos ⟨h0, htail⟩, hhead h0, hmf, MyFile.cqe]
    refine ⟨freadTurn_isfirst (fun _ => htail) hturn, ?_⟩
    rw [hprinted, hu.errors, List.nil_append]
  · have hprinted : printed st = [] := if_neg fun hc => h0 hc.1
    refine ⟨freadTurn_isfirst (fun hz => absurd hz h0) hturn, ?_⟩
    rw [hprinted, List.append_nil, (h.fetched h0).errors]

theorem start_inv (kernel : Sqe → Completion) (mf : MyFile) : Inv kernel mf (start mf) :=
  ⟨rfl, rfl, rfl, rfl⟩

theorem submitted_stage {kernel : Sqe → Completion} {mf : MyFile} (hbuilt : Built mf) :
    Stage kernel (completeReadv kernel (submitReadv mf)) .idle [] (submitReadv mf) where
  unfetched := by
    have hne : ∀ x : UInt32, x ≠ x + 1 := fun x => by grind
    refine fun _ => ⟨rfl, posted_of_built hbuilt, fun _ => ?_, rfl⟩
    simp only [submitReadv, hbuilt.sq_empty, if_pos (hne _)]
    exact hne _
  fetched := fun h => absurd hbuilt.isfirst h

/-- Nothing has been fetched, so no call has been made. -/
theorem Stage.replied {kernel : Sqe → Completion} {opened m : MyFile} {phase : Phase}
    {errors : List Int32} (h : Stage kernel opened phase errors m) (h0 : m.isfirst = 0) :
    Replied opened [] (finish kernel phase m) := by
  refine ⟨[], ?_, rfl⟩
  rw [(h.unfetched h0).finish]
  rfl

theorem thread_step {kernel : Sqe → Completion} {s t : State} {m : Move}
    (h : step kernel s (.thread m) = some t) :
    ∃ thread, s.thread.step s.sees m = some thread ∧ t = { s with thread := thread } := by
  simp only [step] at h
  cases hm : s.thread.step s.sees m with
  | none => simp [hm] at h
  | some thread =>
    simp only [hm, Option.some.injEq] at h
    exact ⟨thread, rfl, h.symm⟩

theorem step_inv {kernel : Sqe → Completion} {mf : MyFile} {s t : State} {a : Action}
    (hbuilt : Built mf) (hsound : (completeReadv kernel (submitReadv mf)).Sound)
    (h : step kernel s a = some t) (hs : Inv kernel mf s) : Inv kernel mf t := by
  obtain ⟨app, phase, thread, replies, errors⟩ := s
  cases a with
  | submit =>
    cases app <;> simp only [step, reduceCtorEq, Option.some.injEq] at h
    case submitting m =>
      obtain ⟨rfl, rfl, rfl, rfl⟩ := hs
      subst h
      exact ⟨rfl, hbuilt.isfirst, submitted_stage hbuilt⟩
  | loadFlags =>
    cases app <;> simp only [step, reduceCtorEq, Option.some.injEq] at h
    case submitted m =>
      subst h
      obtain ⟨rfl, h0, hstage⟩ := hs
      by_cases hneed : thread.needWakeup = true
      · simp only [if_pos hneed]
        exact ⟨rfl, h0, hstage⟩
      · simp only [if_neg hneed]
        exact ⟨hstage, hstage.replied h0⟩
  | enter entered =>
    cases app <;> simp only [step, reduceCtorEq] at h
    case entering m =>
      obtain ⟨rfl, h0, hstage⟩ := hs
      cases entered <;> cases h
      · exact ⟨rfl, h0, hstage⟩
      · exact ⟨hstage, hstage.replied h0⟩
  | call q =>
    cases app <;> simp only [step, reduceCtorEq] at h
    case idle m =>
      obtain ⟨hstage, hreplied⟩ := hs
      split at h
      · next hend =>
        cases h
        have hcall : myFread q.ptr q.size q.count (finish kernel phase m) =
            some ⟨0, q.ptr, finish kernel phase m, []⟩ := by
          simp only [myFread, finish_blocks, finish_currentBlock, if_pos hend]
        exact ⟨hstage, hreplied.snoc hcall⟩
      · next hend =>
        cases h
        exact ⟨rfl, hend, hstage, hreplied⟩
  | seeTail =>
    cases app <;> simp only [step, reduceCtorEq] at h
    case waiting q st =>
      obtain ⟨hst, hend, hstage, hreplied⟩ := hs
      have hhead : st.head = st.mf.s.cqRing.head := congrArg FreadState.head hst
      split at h
      · cases h
      · next hmoved =>
        cases h
        have hdone : phase = .done := by
          by_contra hout
          by_cases h0 : st.mf.isfirst = 0
          · have hempty := (hstage.unfetched h0).posted.before hout
            exact hmoved ⟨h0, hhead.trans hempty.symm⟩
          · exact hout (hstage.fetched h0).done
        subst hdone
        refine ⟨rfl, fun _ => hhead, hstage, st.mf, hreplied, hend, 0, ?_⟩
        intro n
        rw [Nat.zero_add, ← hst]
  | turn =>
    cases app <;> simp only [step, reduceCtorEq] at h
    case reading q st =>
      obtain ⟨rfl, hhead, hstage, m, hreplied, hcame⟩ := hs
      obtain ⟨r, hturn, hnext⟩ :=
        turn_cases ⟨.reading q st, .done, thread, replies, errors⟩ (hreplied.sound hsound) hcame
      obtain ⟨hfirst, herrors⟩ := hstage.turn hhead hturn
      rcases hnext with ⟨hreply, hcall⟩ | ⟨hmore, hcame', -⟩
      · rw [hreply] at h
        cases h
        exact ⟨⟨fun h0 => absurd h0 hfirst, fun _ => ⟨rfl, herrors⟩⟩, hreplied.snoc hcall⟩
      · rw [hmore] at h
        cases h
        exact ⟨rfl, fun h0 => absurd h0 hfirst,
          ⟨fun h0 => absurd h0 hfirst, fun _ => ⟨rfl, herrors⟩⟩, m, hreplied, hcame'⟩
  | thread move =>
    obtain ⟨_, -, rfl⟩ := thread_step h
    exact hs
  | kernel =>
    simp only [step] at h
    cases hnext : next kernel thread app.mem phase with
    | none => simp [hnext] at h
    | some r =>
      obtain ⟨phase', f⟩ := r
      rw [hnext] at h
      cases h
      cases app with
      | submitting m =>
        obtain ⟨rfl, rfl, -⟩ := hs
        exact absurd hnext (by simp [next, App.mem, hbuilt.sq_empty])
      | submitted m | entering m | failed m =>
        have hn : Next kernel phase phase' m (f m) := next_spec hnext
        obtain ⟨rfl, h0, hstage⟩ := hs
        exact ⟨rfl, hn.isfirst.trans h0, hstage.kernel hn⟩
      | idle m =>
        have hn : Next kernel phase phase' m (f m) := next_spec hnext
        obtain ⟨hstage, hreplied⟩ := hs
        refine ⟨hstage.kernel hn, ?_⟩
        change Replied _ _ (finish kernel phase' (f m))
        rw [hn.finish]
        exact hreplied
      | waiting q st =>
        have hn : Next kernel phase phase' st.mf (f st.mf) := next_spec hnext
        obtain ⟨hst, hend, hstage, hreplied⟩ := hs
        refine ⟨?_, ?_, hstage.kernel hn, ?_⟩
        · change { st with mf := f st.mf } = (f st.mf).entry q.ptr
          rw [hn.entry, ← hst]
        · change ¬ (f st.mf).currentBlock.toUInt32 ≥ (f st.mf).blocks.toUInt32
          rw [hn.blocks, hn.currentBlock]
          exact hend
        · change Replied _ _ (finish kernel phase' (f st.mf))
          rw [hn.finish]
          exact hreplied
      | reading q st => exact absurd hs.1 (next_spec hnext).outstanding

theorem buildFile_built {a : Answers} {w w' : World} {mf : MyFile}
    (h : buildFile a w = .ok mf w') : Built mf :=
  IoUring.buildFile_built (buildFile_host h)

theorem reach_inv {a : Answers} {w w' : World} {mf : MyFile} (h : buildFile a w = .ok mf w')
    {s : State} (hs : Runs.Reach (step a.kernel) Runs.Any (start mf) s) :
    Inv a.kernel mf s ∧ (completeReadv a.kernel (submitReadv mf)).Sound := by
  obtain ⟨n, -, -, ho⟩ := myFopen_opened (Interleaved.buildFile_opens (buildFile_host h))
  have hsound : (completeReadv a.kernel (submitReadv mf)).Sound := ho.sound
  refine ⟨hs.invariant (start_inv a.kernel mf) ?_, hsound⟩
  intro u act v _ hstep hu
  exact step_inv (buildFile_built h) hsound hstep hu

/-- Whatever the order of the steps, no block is read before the completion is
posted, the calls are answered as those on the handle that host.cpp returns, and
a failure of the read is printed by the call that fetches it and no other. -/
theorem replies_sequential {a : Answers} {w w' : World} {mf : MyFile}
    (h : buildFile a w = .ok mf w') :
    ∃ opened, IoUring.myFopen { a.host with sqFlags := 0 } "r" w = .ok opened w' ∧
      ∀ s, Runs.Reach (step a.kernel) Runs.Any (start mf) s →
        (∀ q st, s.app = .reading q st → s.phase = .done) ∧
        ∀ m, s.app = .idle m →
          (∃ rs, freadRun opened (s.replies.map Prod.fst) = some (rs, finish a.kernel s.phase m) ∧
            s.replies.map Prod.snd = rs.map FreadResult.reply) ∧
          s.errors = if m.isfirst = 0 then [] else failure opened.cqe := by
  refine ⟨_, Interleaved.buildFile_opens (buildFile_host h), ?_⟩
  intro s hs
  obtain ⟨hinv, -⟩ := reach_inv h hs
  obtain ⟨app, phase, thread, replies, errors⟩ := s
  constructor
  · rintro q st rfl
    exact hinv.1
  · rintro m rfl
    obtain ⟨hstage, hreplied⟩ := hinv
    refine ⟨hreplied, ?_⟩
    by_cases h0 : m.isfirst = 0
    · rw [if_pos h0]
      exact (hstage.unfetched h0).errors
    · rw [if_neg h0]
      exact (hstage.fetched h0).errors

/-- The order in which the call waits until the kernel has made its four steps. -/
def late (q : Request) : List Action :=
  [.submit, .loadFlags, .call q, .thread .deliverTail, .kernel, .kernel, .kernel, .kernel, .seeTail,
    .turn]

theorem replies_one_block :
    ∃ mf w' opened m s, buildFile (.smooth 4096 fun _ => ⟨2, [65, 66]⟩) World.start = .ok mf w' ∧
      Runs.run (step fun _ => ⟨2, [65, 66]⟩) (start mf) (late (.ofSize 4096)) = some s ∧
      s.app = .idle m ∧ s.replies.length = 1 ∧
      ∃ rs, freadRun opened (s.replies.map Prod.fst) =
        some (rs, finish (fun _ => ⟨2, [65, 66]⟩) s.phase m) ∧
          s.replies.map Prod.snd = rs.map FreadResult.reply := by
  have hbuild : ∃ mf w', buildFile (.smooth 4096 fun _ => ⟨2, [65, 66]⟩) World.start = .ok mf w' ∧
      ∃ s m, Runs.run (step fun _ => ⟨2, [65, 66]⟩) (start mf) (late (.ofSize 4096)) = some s ∧
        s.app = .idle m ∧ s.replies.length = 1 := ⟨_, _, rfl, _, _, rfl, rfl, rfl⟩
  obtain ⟨mf, w', hbuild, s, m, hrun, hidle, hlen⟩ := hbuild
  obtain ⟨opened, -, hall⟩ := replies_sequential hbuild
  have hreach := Runs.reach_of_run _ (fun _ _ _ => trivial) hrun
  exact ⟨mf, w', opened, m, s, hbuild, hrun, hidle, hlen, ((hall s hreach).2 m hidle).1⟩

theorem bytes_of_replied {opened m : MyFile} {replies : List (Request × Reply)}
    (hready : opened.Ready) (h : Replied opened replies m) :
    (replies.flatMap fun p => p.2.bytes) =
      Cursor.read opened.fi.padded opened.pos (replies.map fun p => p.1.bytes).sum := by
  obtain ⟨rs, hrun, hreplies⟩ := h
  obtain ⟨rs', hrun', hbytes, -⟩ := freadRun_served hready (replies.map Prod.fst)
  rw [hrun, Option.some_inj] at hrun'
  cases hrun'
  have hout : (replies.flatMap fun p => p.2.bytes) = (replies.map Prod.snd).flatMap Reply.bytes := by
    rw [List.flatMap_map]
  have hrs : (rs.map FreadResult.reply).flatMap Reply.bytes = rs.flatMap (·.bytes) := by
    rw [List.flatMap_map]
    rfl
  rw [hout, hreplies, hrs, hbytes, List.map_map]
  rfl

/-- The replies before the last one are those of a run of their own. -/
theorem Replied.before {opened m : MyFile} {replies : List (Request × Reply)} {p : Request × Reply}
    (hsound : opened.Sound) (h : Replied opened (replies ++ [p]) m) :
    ∃ m', Replied opened replies m' := by
  obtain ⟨rs, hrun, hreplies⟩ := h
  obtain ⟨rs', m', hrun', hm', -⟩ := freadRun_sound hsound (replies.map Prod.fst)
  obtain ⟨r, hcall, -⟩ := myFread_called hm' p.1
  have hsnoc := freadRun_snoc hrun' hcall
  rw [List.map_append, List.map_singleton, hsnoc, Option.some_inj] at hrun
  cases hrun
  rw [List.map_append, List.map_append] at hreplies
  exact ⟨m', rs', hrun', (List.append_inj' hreplies rfl).1⟩

/-- Once a call that asks for bytes is answered 0, the replies add up to all the
blocks of the file, and they begin with what the kernel has read. -/
theorem read_to_end {a : Answers} {w w' : World} {mf m : MyFile} (h : buildFile a w = .ok mf w')
    (hres : 0 ≤ (a.kernel mf.request).res) {s : State}
    (hs : Runs.Reach (step a.kernel) Runs.Any (start mf) s) (hidle : s.app = .idle m)
    {before : List (Request × Reply)} {q : Request} {r : Reply}
    (hlast : s.replies = before ++ [(q, r)]) (hq : 0 < q.bytes) (hr : r.ret = 0) :
    (s.replies.flatMap fun p => p.2.bytes) =
        (completeReadv a.kernel (submitReadv mf)).fi.padded ∧
      ∀ n, a.fstat.bind Stat.size = some n →
        (a.kernel mf.request).data.length ≤ n.toInt.toNat →
          (a.kernel mf.request).data <+: s.replies.flatMap fun p => p.2.bytes := by
  obtain ⟨hinv, hsound⟩ := reach_inv h hs
  obtain ⟨n, hstat, -, ho⟩ := myFopen_opened (Interleaved.buildFile_opens (buildFile_host h))
  have hready : (completeReadv a.kernel (submitReadv mf)).Ready := ho.ready (Int32.not_lt.mpr hres)
  have hpos : (completeReadv a.kernel (submitReadv mf)).pos = 0 := ho.pos
  rw [Inv, hidle] at hinv
  obtain ⟨-, hreplied⟩ := hinv
  have hall := bytes_of_replied hready hreplied
  rw [hlast] at hreplied
  obtain ⟨m', hbefore⟩ := hreplied.before hsound
  have hpart := bytes_of_replied hready hbefore
  have hnil : r.bytes = [] := by simp [Reply.bytes, hr]
  have hend : (completeReadv a.kernel (submitReadv mf)).fi.padded.length ≤
      (before.map fun p => p.1.bytes).sum := by
    have hlen := congrArg List.length hall
    rw [hlast, List.flatMap_append, List.length_append, hpart] at hlen
    simp only [List.map_append, List.sum_append, List.map_singleton, List.sum_singleton, hnil,
      List.flatMap_singleton, Cursor.length_read, hpos, List.length_nil] at hlen
    omega
  have hpadded : (s.replies.flatMap fun p => p.2.bytes) =
      (completeReadv a.kernel (submitReadv mf)).fi.padded := by
    rw [hall, hpos]
    apply Cursor.read_all
    rw [hlast, List.map_append, List.sum_append]
    omega
  refine ⟨hpadded, ?_⟩
  intro k hk hle
  rw [show a.host.fstat = some k from hk, Option.some_inj] at hstat
  subst hstat
  have hdata : (completeReadv a.kernel (submitReadv mf)).fi.padded.take
      (a.kernel mf.request).data.length = (a.kernel mf.request).data := ho.data hle
  rw [hpadded, ← hdata]
  exact List.take_prefix _ _

theorem read_to_end_one_block :
    ∃ mf w' s, buildFile (.smooth 4096 fun _ => ⟨2, [65, 66]⟩) World.start = .ok mf w' ∧
      Runs.Reach (step fun _ => ⟨2, [65, 66]⟩) Runs.Any (start mf) s ∧
      [65, 66] <+: s.replies.flatMap fun p => p.2.bytes := by
  have hbuild : ∃ mf w', buildFile (.smooth 4096 fun _ => ⟨2, [65, 66]⟩) World.start = .ok mf w' ∧
      ∃ s m p r, Runs.run (step fun _ => ⟨2, [65, 66]⟩) (start mf)
          (late (.ofSize 4096) ++ [.call (.ofSize 8)]) = some s ∧
        s.app = .idle m ∧ s.replies = [p] ++ [(.ofSize 8, r)] ∧ r.ret = 0 :=
    ⟨_, _, rfl, _, _, _, _, rfl, rfl, rfl, rfl⟩
  obtain ⟨mf, w', hbuild, s, m, p, r, hrun, hidle, hlast, hr⟩ := hbuild
  have hreach := Runs.reach_of_run _ (fun _ _ _ => trivial) hrun
  have hbytes := read_to_end hbuild (show (0 : Int32) ≤ 2 by decide) hreach hidle hlast
    (show 0 < 8 by decide) hr
  exact ⟨mf, w', s, hbuild, hreach, hbytes.2 4096 rfl (show 2 ≤ 4096 by decide)⟩

end IoUring.Deferred
