import IoUring.DeferredSpec

/-! Where the runs of io_uring_read.c end. Without a new call they come to rest,
with every call answered or with the request unseen by a thread that sleeps. The
second happens only in the order that loses the wake-up of the handshake. -/

namespace IoUring.Deferred

def App.opener : App → Opener
  | .submitting _ => .storeTail
  | .submitted _ => .loadFlags
  | .entering _ | .failed _ => .enter
  | .idle _ | .waiting _ _ | .reading _ _ => .waitCompletion

def taken : Phase → Bool
  | .idle => false
  | _ => true

def Thread.hand (thread : Thread) (opener : Opener) (taken : Bool) : Handshake where
  opener := opener
  poller := thread.poller
  sqHead := if taken then 1 else 0
  sqTail := if opener = .storeTail ∨ thread.tailInFlight = true then 0 else 1
  tailInFlight := if thread.tailInFlight then some 1 else none
  needWakeup := thread.needWakeup
  flagInFlight := thread.flagInFlight
  wakeSent := thread.wakeSent
  cqHead := 0
  cqTail := if taken then 1 else 0

/-- The handshake that the run goes through. It counts its one request as
completed when the thread takes it. -/
def State.hand (s : State) : Handshake := s.thread.hand s.app.opener (taken s.phase)

def Move.action : Move → IoUring.Action
  | .deliverTail => .deliverTail
  | .deliverFlag => .deliverFlag
  | .setFlag => .setFlag
  | .fence => .fence
  | .rereadTail => .rereadTail
  | .sleep => .sleep
  | .wake => .wake

/-- The step keeps the order of the handshake. -/
def Ordered (s : State) (a : Action) : Prop :=
  ∀ m, a = .thread m → s.hand.Ordered m.action

/-- The tail is on its way only between the submission and the taking. -/
def Flying (s : State) : Prop :=
  s.thread.tailInFlight = true → s.phase = .idle ∧ s.app.opener ≠ .storeTail

theorem Stage.unserved_eq {kernel : Sqe → Completion} {opened m : MyFile} {phase : Phase}
    {errors : List Int32} (h : Stage kernel opened phase errors m) :
    unserved m phase = !taken phase := by
  cases phase with
  | idle =>
    have h0 : m.isfirst = 0 := by
      by_contra h1
      cases (h.fetched h1).done
    simpa [unserved, taken] using (h.unfetched h0).queued rfl
  | taken sqe | filled sqe | stored | done => rfl

/-- After the submission the memory is at some stage of the one read. -/
theorem Inv.stage {kernel : Sqe → Completion} {mf : MyFile} {s : State} (hs : Inv kernel mf s)
    (hsub : s.app.opener ≠ .storeTail) :
    Stage kernel (completeReadv kernel (submitReadv mf)) s.phase s.errors s.app.mem := by
  obtain ⟨app, phase, thread, replies, errors⟩ := s
  cases app with
  | submitting m => exact absurd rfl hsub
  | submitted m | entering m | failed m => exact hs.2.2
  | idle m => exact hs.1
  | waiting q st => exact hs.2.2.1
  | reading q st => exact hs.2.2.1

theorem Inv.phase_idle {kernel : Sqe → Completion} {mf : MyFile} {s : State} (hs : Inv kernel mf s)
    (hsub : s.app.opener = .storeTail) : s.phase = .idle ∧ s.app.mem = mf := by
  obtain ⟨app, phase, thread, replies, errors⟩ := s
  cases app <;> simp only [App.opener, reduceCtorEq] at hsub
  exact ⟨hs.2.1, hs.1⟩

/-- The thread finds the request just if the handshake's thread does. -/
theorem sees_iff {kernel : Sqe → Completion} {mf : MyFile} {s : State} (hbuilt : Built mf)
    (hs : Inv kernel mf s) (hfly : Flying s) :
    s.sees = true ↔ s.hand.sqHead ≠ s.hand.sqTail := by
  by_cases hsub : s.app.opener = .storeTail
  · obtain ⟨hidle, hmem⟩ := hs.phase_idle hsub
    simp [State.sees, State.hand, Thread.hand, hidle, hmem, hsub, taken, unserved, hbuilt.sq_empty]
  · by_cases hflight : s.thread.tailInFlight = true
    · simp [State.sees, State.hand, Thread.hand, hflight, (hfly hflight).1, taken]
    · rw [State.sees, (hs.stage hsub).unserved_eq]
      cases htaken : taken s.phase <;> simp [State.hand, Thread.hand, hflight, hsub, htaken]

/-- What a step does to the opening, the thread and the phase of the read. -/
def Effect (s t : State) : Action → Prop
  | .submit =>
    s.app.opener = .storeTail ∧ t.app.opener = .loadFlags ∧
      t.thread = { s.thread with tailInFlight := true } ∧ t.phase = s.phase
  | .loadFlags =>
    s.app.opener = .loadFlags ∧
      t.app.opener = (if s.thread.needWakeup then .enter else .waitCompletion) ∧
      t.thread = s.thread ∧ t.phase = s.phase
  | .enter true =>
    s.app.opener = .enter ∧ t.app.opener = .waitCompletion ∧
      t.thread = { s.thread with wakeSent := true } ∧ t.phase = s.phase
  | .enter false | .call _ | .seeTail | .turn =>
    t.app.opener = s.app.opener ∧ t.thread = s.thread ∧ t.phase = s.phase
  | .thread m => s.thread.step s.sees m = some t.thread ∧ t.app = s.app ∧ t.phase = s.phase
  | .kernel =>
    t.app.opener = s.app.opener ∧ t.thread = s.thread ∧ taken t.phase = true ∧
      (s.phase = .idle → s.thread.poller = .polling ∧ s.thread.tailInFlight = false ∧
        s.app.mem.s.sqRing.head ≠ s.app.mem.s.sqRing.tail)

theorem turn_effect {s t : State} {q : Request} {st : FreadState} (h : s.turn q st = some t) :
    t.app.opener = .waitCompletion ∧ t.thread = s.thread ∧ t.phase = s.phase := by
  simp only [State.turn] at h
  split at h
  · cases h
  · cases h
    exact ⟨rfl, rfl, rfl⟩
  · split at h <;> cases h <;> exact ⟨rfl, rfl, rfl⟩

theorem next_effect {kernel : Sqe → Completion} {thread : Thread} {phase phase' : Phase}
    {m : MyFile} {f : MyFile → MyFile} (h : next kernel thread m phase = some (phase', f)) :
    taken phase' = true ∧ (phase = .idle → thread.poller = .polling ∧
      thread.tailInFlight = false ∧ m.s.sqRing.head ≠ m.s.sqRing.tail) := by
  cases phase with
  | idle =>
    obtain ⟨hpolls, ⟨⟩⟩ := Option.ite_none_right_eq_some.mp h
    exact ⟨rfl, fun _ => hpolls⟩
  | taken sqe | filled sqe | stored =>
    cases h
    exact ⟨rfl, fun hidle => nomatch hidle⟩
  | done => cases h

theorem step_effect {kernel : Sqe → Completion} {s t : State} {a : Action}
    (h : step kernel s a = some t) : Effect s t a := by
  obtain ⟨app, phase, thread, replies, errors⟩ := s
  cases a with
  | submit =>
    cases app <;> simp only [step, reduceCtorEq, Option.some.injEq] at h
    subst h
    exact ⟨rfl, rfl, rfl, rfl⟩
  | loadFlags =>
    cases app <;> simp only [step, reduceCtorEq, Option.some.injEq] at h
    subst h
    refine ⟨rfl, ?_, rfl, rfl⟩
    cases hneed : thread.needWakeup <;> simp [App.opener]
  | enter entered =>
    cases app <;> simp only [step, reduceCtorEq] at h
    cases entered <;> cases h
    · exact ⟨rfl, rfl, rfl⟩
    · exact ⟨rfl, rfl, rfl, rfl⟩
  | call q =>
    cases app <;> simp only [step, reduceCtorEq] at h
    split at h <;> cases h <;> exact ⟨rfl, rfl, rfl⟩
  | seeTail =>
    cases app <;> simp only [step, reduceCtorEq] at h
    obtain ⟨-, ⟨⟩⟩ := Option.ite_none_left_eq_some.mp h
    exact ⟨rfl, rfl, rfl⟩
  | turn =>
    cases app <;> simp only [step, reduceCtorEq] at h
    exact turn_effect h
  | thread m =>
    obtain ⟨thread', hm, rfl⟩ := thread_step h
    exact ⟨hm, rfl, rfl⟩
  | kernel =>
    simp only [step] at h
    cases hnext : next kernel thread app.mem phase with
    | none => simp [hnext] at h
    | some r =>
      rw [hnext] at h
      cases h
      refine ⟨?_, rfl, next_effect hnext⟩
      cases app <;> rfl

theorem start_flying (mf : MyFile) : Flying (start mf) := by
  simp [Flying, start, Thread.start]

theorem thread_tailInFlight {thread thread' : Thread} {sees : Bool} {m : Move}
    (h : thread.step sees m = some thread') :
    thread'.tailInFlight = thread.tailInFlight ∨
      m = .deliverTail ∧ thread'.tailInFlight = false := by
  cases m <;> simp only [Thread.step] at h <;> grind

theorem step_flying {kernel : Sqe → Completion} {mf : MyFile} {s t : State} {a : Action}
    (hs : Inv kernel mf s) (h : step kernel s a = some t) (hfly : Flying s) : Flying t := by
  have he := step_effect h
  intro hflight
  cases a with
  | submit =>
    obtain ⟨hsub, hload, -, hphase⟩ := he
    rw [hphase, hload]
    exact ⟨(hs.phase_idle hsub).1, by simp⟩
  | loadFlags =>
    obtain ⟨-, hload, hthread, hphase⟩ := he
    rw [hthread] at hflight
    rw [hphase, hload]
    refine ⟨(hfly hflight).1, ?_⟩
    split <;> simp
  | enter entered =>
    cases entered with
    | false =>
      obtain ⟨hopener, hthread, hphase⟩ := he
      rw [hthread] at hflight
      rw [hphase, hopener]
      exact hfly hflight
    | true =>
      obtain ⟨-, hopener, hthread, hphase⟩ := he
      rw [hthread] at hflight
      rw [hphase, hopener]
      exact ⟨(hfly hflight).1, by simp⟩
  | call q | seeTail | turn =>
    obtain ⟨hopener, hthread, hphase⟩ := he
    rw [hthread] at hflight
    rw [hphase, hopener]
    exact hfly hflight
  | thread m =>
    obtain ⟨hm, happ, hphase⟩ := he
    rw [hphase, happ]
    rcases thread_tailInFlight hm with hsame | ⟨-, hlanded⟩
    · exact hfly (hsame ▸ hflight)
    · rw [hflight] at hlanded
      cases hlanded
  | kernel =>
    obtain ⟨-, hthread, -, hpolls⟩ := he
    rw [hthread] at hflight
    have hlanded := (hpolls (hfly hflight).1).2.1
    rw [hflight] at hlanded
    cases hlanded

/-- A move of the thread is the step of the handshake of the same name. -/
theorem thread_hand {thread thread' : Thread} {opener : Opener} {done sees : Bool} {m : Move}
    (h : thread.step sees m = some thread')
    (hsees : sees = true ↔ (thread.hand opener done).sqHead ≠ (thread.hand opener done).sqTail)
    (hsub : thread.tailInFlight = true → opener ≠ .storeTail) :
    (thread.hand opener done).step m.action = some (thread'.hand opener done) := by
  cases m with
  | deliverTail =>
    obtain ⟨hflight, ⟨⟩⟩ := Option.ite_none_right_eq_some.mp h
    simp [Handshake.step, Move.action, Thread.hand, hflight, hsub hflight]
  | deliverFlag =>
    obtain ⟨hflight, ⟨⟩⟩ := Option.ite_none_right_eq_some.mp h
    simp [Handshake.step, Move.action, Thread.hand, hflight]
  | setFlag =>
    obtain ⟨hpolls, ⟨⟩⟩ := Option.ite_none_right_eq_some.mp h
    simp [Handshake.step, Move.action, Thread.hand, hpolls]
  | fence =>
    obtain ⟨hflagged, ⟨⟩⟩ := Option.ite_none_right_eq_some.mp h
    simp [Handshake.step, Move.action, Thread.hand, hflagged]
  | rereadTail =>
    obtain ⟨hfenced, h⟩ := Option.ite_none_right_eq_some.mp h
    have hfenced' : (thread.hand opener done).poller = .fenced := hfenced
    simp only [Handshake.step, Move.action, if_pos hfenced']
    by_cases hfound : sees = true
    · simp only [if_pos hfound, Option.some.injEq] at h
      subst h
      rw [if_neg (hsees.mp hfound)]
      rfl
    · simp only [if_neg hfound, Option.some.injEq] at h
      subst h
      rw [if_pos (not_not.mp (mt hsees.mpr hfound))]
      rfl
  | sleep =>
    obtain ⟨hleaving, ⟨⟩⟩ := Option.ite_none_right_eq_some.mp h
    simp [Handshake.step, Move.action, Thread.hand, hleaving]
  | wake =>
    obtain ⟨hasleep, ⟨⟩⟩ := Option.ite_none_right_eq_some.mp h
    simp [Handshake.step, Move.action, Thread.hand, hasleep]

theorem ordered_of_ne {u : Handshake} {b : IoUring.Action} (h : b ≠ .rereadTail) : u.Ordered b :=
  fun hreread => absurd hreread h

/-- An ordered step is a run of ordered steps of the handshake. -/
theorem step_hand {kernel : Sqe → Completion} {mf : MyFile} {s t : State} {a : Action}
    (hbuilt : Built mf) (hs : Inv kernel mf s) (hfly : Flying s) (hok : Ordered s a)
    (h : step kernel s a = some t) :
    Runs.Reach Handshake.step Handshake.Ordered s.hand t.hand := by
  have he := step_effect h
  cases a with
  | submit =>
    obtain ⟨hsub, hload, hthread, hphase⟩ := he
    apply Runs.reach_of_run [.storeTail, .writeBarrier] fun u b hb => ordered_of_ne (by grind)
    simp [Runs.run, Handshake.step, State.hand, Thread.hand, hsub, hload, hthread, hphase]
  | loadFlags =>
    obtain ⟨hsub, hload, hthread, hphase⟩ := he
    apply Runs.reach_of_run [.loadFlags] fun u b hb => ordered_of_ne (by grind)
    cases hneed : s.thread.needWakeup <;>
      simp [Runs.run, Handshake.step, State.hand, Thread.hand, hsub, hload, hthread, hphase, hneed]
  | enter entered =>
    cases entered with
    | false =>
      obtain ⟨hopener, hthread, hphase⟩ := he
      rw [State.hand, State.hand, hopener, hthread, hphase]
    | true =>
      obtain ⟨hsub, hopener, hthread, hphase⟩ := he
      apply Runs.reach_of_run [.enter] fun u b hb => ordered_of_ne (by grind)
      simp [Runs.run, Handshake.step, State.hand, Thread.hand, hsub, hopener, hthread, hphase]
  | call q | seeTail | turn =>
    obtain ⟨hopener, hthread, hphase⟩ := he
    rw [State.hand, State.hand, hopener, hthread, hphase]
  | thread m =>
    obtain ⟨hm, happ, hphase⟩ := he
    have hhand := thread_hand hm (sees_iff hbuilt hs hfly) fun hflight => (hfly hflight).2
    refine .single ⟨m.action, hok m rfl, ?_⟩
    rw [State.hand, hhand, State.hand, happ, hphase]
  | kernel =>
    obtain ⟨hopener, hthread, htaken, hpolls⟩ := he
    cases hbefore : taken s.phase with
    | true => rw [State.hand, State.hand, hopener, hthread, htaken, hbefore]
    | false =>
      have hidle : s.phase = .idle := by
        cases hphase : s.phase <;> simp [hphase, taken] at hbefore
        rfl
      obtain ⟨hpolling, hlanded, hqueued⟩ := hpolls hidle
      have hsub : s.app.opener ≠ .storeTail := by
        intro hsub
        rw [(hs.phase_idle hsub).2] at hqueued
        exact hqueued hbuilt.sq_empty.symm
      apply Runs.reach_of_run [.poll] fun u b hb => ordered_of_ne (by grind)
      simp [Runs.run, Handshake.step, State.hand, Thread.hand, hopener, hthread, htaken, hbefore,
        hpolling, hlanded, hsub]

theorem reach_flying {kernel : Sqe → Completion} {mf : MyFile} {ok : State → Action → Prop}
    {s : State} (hbuilt : Built mf) (hsound : (completeReadv kernel (submitReadv mf)).Sound)
    (hs : Runs.Reach (step kernel) ok (start mf) s) : Inv kernel mf s ∧ Flying s := by
  refine hs.invariant (I := fun s => Inv kernel mf s ∧ Flying s)
    ⟨start_inv kernel mf, start_flying mf⟩ ?_
  rintro u a v - hstep ⟨hu, hfly⟩
  exact ⟨step_inv hbuilt hsound hstep hu, step_flying hu hstep hfly⟩

theorem reach_hand {kernel : Sqe → Completion} {mf : MyFile} {s : State} (hbuilt : Built mf)
    (hsound : (completeReadv kernel (submitReadv mf)).Sound)
    (hs : Runs.Reach (step kernel) Ordered (start mf) s) :
    Runs.Reach Handshake.step Handshake.Ordered (Handshake.start 0 0) s.hand := by
  induction hs with
  | refl => exact .refl
  | tail hreach hlast ih =>
    obtain ⟨a, hok, hstep⟩ := hlast
    obtain ⟨hu, hfly⟩ := reach_flying hbuilt hsound hreach
    exact ih.trans (step_hand hbuilt hu hfly hok hstep)

theorem not_lost_of_ordered {kernel : Sqe → Completion} {mf : MyFile} {s : State}
    (hbuilt : Built mf) (hsound : (completeReadv kernel (submitReadv mf)).Sound)
    (hs : Runs.Reach (step kernel) Ordered (start mf) s) : ¬ s.hand.Lost := by
  obtain ⟨hi, hq⟩ := Handshake.reach_quiet (reach_hand hbuilt hsound hs)
  exact Handshake.not_lost hi hq

def phaseRank : Phase → Nat
  | .idle => 4
  | .taken _ => 3
  | .filled _ => 2
  | .stored => 1
  | .done => 0

def pollerRank : Poller → Nat
  | .polling => 5
  | .flagged => 3
  | .fenced => 2
  | .leaving => 1
  | .asleep => 0

/-- The moves left to the thread. A wake-up and a request that is found at the
second look each give it one more round. -/
def threadLeft (sees : Bool) (t : Thread) : Nat :=
  pollerRank t.poller + (if t.flagInFlight then 1 else 0) + (if t.wakeSent then 6 else 0) +
    if t.tailInFlight then 5
    else if sees = true ∧ (t.poller = .flagged ∨ t.poller = .fenced) then 4 else 0

/-- The steps left to both sides before the next call. -/
noncomputable def stepsLeft (kernel : Sqe → Completion) (s : State) : Nat :=
  phaseRank s.phase + threadLeft s.sees s.thread +
    match s.app with
    | .submitting _ => 14
    | .submitted _ => 8
    | .entering _ => 7
    | .failed _ | .idle _ => 0
    | .waiting q st => turnsLeft q ((finish kernel s.phase st.mf).entry q.ptr) + 2
    | .reading q st => turnsLeft q st + 1

theorem threadLeft_lt {thread thread' : Thread} {sees sees' : Bool} {m : Move}
    (h : thread.step sees m = some thread') (hsees : m ≠ .deliverTail → sees' = sees)
    (hlanded : sees = true → thread.tailInFlight = false) :
    threadLeft sees' thread' < threadLeft sees thread := by
  cases m <;> simp only [Thread.step] at h <;> grind [threadLeft, pollerRank]

theorem next_phaseRank {kernel : Sqe → Completion} {thread : Thread} {phase phase' : Phase}
    {m : MyFile} {f : MyFile → MyFile} (h : next kernel thread m phase = some (phase', f)) :
    phaseRank phase' < phaseRank phase := by
  cases phase with
  | idle =>
    obtain ⟨-, ⟨⟩⟩ := Option.ite_none_right_eq_some.mp h
    simp [phaseRank]
  | taken sqe | filled sqe | stored =>
    cases h
    simp [phaseRank]
  | done => cases h

theorem threadLeft_unseen (sees : Bool) (thread : Thread) :
    threadLeft false thread ≤ threadLeft sees thread := by
  grind [threadLeft]

theorem step_stepsLeft {kernel : Sqe → Completion} {mf : MyFile} {s t : State} {a : Action}
    (hbuilt : Built mf) (hsound : (completeReadv kernel (submitReadv mf)).Sound)
    (hcall : ∀ q, a ≠ .call q) (h : step kernel s a = some t) (hs : Inv kernel mf s) :
    stepsLeft kernel t < stepsLeft kernel s := by
  have ht := step_inv hbuilt hsound h hs
  obtain ⟨app, phase, thread, replies, errors⟩ := s
  cases a with
  | submit =>
    cases app <;> simp only [step, reduceCtorEq, Option.some.injEq] at h
    subst h
    simp only [stepsLeft, State.sees, threadLeft]
    grind
  | loadFlags =>
    cases app <;> simp only [step, reduceCtorEq, Option.some.injEq] at h
    case submitted m =>
      subst h
      cases hneed : thread.needWakeup <;>
        simp [stepsLeft, State.sees, App.mem]
  | enter entered =>
    cases app <;> simp only [step, reduceCtorEq] at h
    cases entered <;> cases h
    · simp [stepsLeft, State.sees, App.mem]
    · simp only [stepsLeft, State.sees, App.mem, threadLeft]
      grind
  | call q => exact absurd rfl (hcall q)
  | seeTail =>
    cases app <;> simp only [step, reduceCtorEq] at h
    case waiting q st =>
      obtain ⟨-, ⟨⟩⟩ := Option.ite_none_left_eq_some.mp h
      obtain rfl : phase = .done := ht.1
      have hst : st.mf.entry q.ptr = st := hs.1.symm
      simp only [stepsLeft, State.sees, App.mem, finish, hst]
      omega
  | turn =>
    cases app <;> simp only [step, reduceCtorEq] at h
    case reading q st =>
      obtain ⟨rfl, -, -, m, hreplied, hcame⟩ := hs
      obtain ⟨r, -, ⟨hreply, -⟩ | ⟨hmore, -, hleft⟩⟩ :=
        turn_cases ⟨.reading q st, .done, thread, replies, errors⟩ (hreplied.sound hsound) hcame
      · rw [hreply] at h
        cases h
        simp only [stepsLeft, State.sees, unserved, State.reply]
        omega
      · rw [hmore] at h
        cases h
        simp only [stepsLeft, State.sees, unserved]
        omega
  | thread m =>
    obtain ⟨thread', hm, rfl⟩ := thread_step h
    have hlt : threadLeft (State.sees ⟨app, phase, thread', replies, errors⟩) thread' <
        threadLeft (State.sees ⟨app, phase, thread, replies, errors⟩) thread := by
      refine threadLeft_lt hm (fun hne => ?_) (by simp +contextual [State.sees])
      rcases thread_tailInFlight hm with hsame | ⟨heq, -⟩
      · rw [State.sees, State.sees, hsame]
      · exact absurd heq hne
    simp only [stepsLeft]
    omega
  | kernel =>
    have hunseen : t.sees = false := by
      obtain ⟨-, -, htaken, -⟩ := step_effect h
      cases hphase : t.phase <;> simp [State.sees, hphase, unserved, taken] at htaken ⊢
    simp only [step] at h
    cases hnext : next kernel thread app.mem phase with
    | none => simp [hnext] at h
    | some r =>
      obtain ⟨phase', f⟩ := r
      rw [hnext] at h
      cases h
      have hrank := next_phaseRank hnext
      have hthread := threadLeft_unseen (State.sees ⟨app, phase, thread, replies, errors⟩) thread
      rw [stepsLeft, hunseen]
      cases app with
      | submitting m | submitted m | entering m | failed m | idle m =>
        simp only [stepsLeft, App.update]
        omega
      | waiting q st =>
        have hn : Next kernel phase phase' st.mf (f st.mf) := next_spec hnext
        simp only [stepsLeft, App.update, hn.finish]
        omega
      | reading q st => exact absurd hs.1 (next_spec hnext).outstanding

/-- No step but a new call is left. -/
def Stuck (kernel : Sqe → Completion) (s : State) : Prop :=
  ∀ a t, (∀ q, a ≠ .call q) → step kernel s a ≠ some t

/-- The request is in the queue, and the thread sleeps with no wake-up on its way. -/
structure Overslept (s : State) : Prop where
  untaken : s.phase = .idle
  delivered : s.thread.tailInFlight = false
  asleep : s.thread.poller = .asleep
  unsent : s.thread.wakeSent = false

/-- A thread without a move to make sleeps, and both stores have arrived. -/
theorem thread_stuck {thread : Thread} {sees : Bool} (h : ∀ m, thread.step sees m = none)
    (hpoll : sees = false ∨ thread.poller ≠ .polling) :
    thread.poller = .asleep ∧ thread.wakeSent = false ∧ thread.tailInFlight = false := by
  have hland := h .deliverTail
  have hflag := h .deliverFlag
  have hset := h .setFlag
  have hfence := h .fence
  have hreread := h .rereadTail
  have hsleep := h .sleep
  have hwake := h .wake
  simp only [Thread.step] at hland hflag hset hfence hreread hsleep hwake
  cases hp : thread.poller <;> grind

theorem Stuck.next_none {kernel : Sqe → Completion} {s : State} (h : Stuck kernel s) :
    next kernel s.thread s.app.mem s.phase = none := by
  cases hnext : next kernel s.thread s.app.mem s.phase with
  | none => rfl
  | some r => exact absurd (by simp [step, hnext]; rfl) (h .kernel _ (by simp))

theorem Stuck.thread {kernel : Sqe → Completion} {s : State} (h : Stuck kernel s) (m : Move) :
    s.thread.step s.sees m = none := by
  cases hm : s.thread.step s.sees m with
  | none => rfl
  | some thread => exact absurd (by simp [step, hm]; rfl) (h (.thread m) _ (by simp))

/-- The application has returned or it waits for the completion. -/
theorem Stuck.app {kernel : Sqe → Completion} {mf : MyFile} {s : State}
    (hsound : (completeReadv kernel (submitReadv mf)).Sound) (hs : Inv kernel mf s)
    (h : Stuck kernel s) :
    (∃ m, s.app = .idle m ∨ s.app = .failed m) ∨
      s.phase ≠ .done ∧ ∃ q st, s.app = .waiting q st := by
  obtain ⟨app, phase, thread, replies, errors⟩ := s
  cases app with
  | submitting m => exact absurd rfl (h .submit _ (by simp))
  | submitted m => exact absurd rfl (h .loadFlags _ (by simp))
  | entering m => exact absurd rfl (h (.enter true) _ (by simp))
  | failed m => exact Or.inl ⟨m, Or.inr rfl⟩
  | idle m => exact Or.inl ⟨m, Or.inl rfl⟩
  | waiting q st =>
    refine Or.inr ⟨?_, q, st, rfl⟩
    intro hdone
    obtain ⟨hst, -, hstage, -⟩ := hs
    have hne : ∀ x : UInt32, x ≠ x + 1 := fun x => by grind
    have hmoved : ¬ (st.mf.isfirst = 0 ∧ st.head = st.mf.s.cqRing.tail) := by
      rintro ⟨h0, hempty⟩
      have hhead : st.head = st.mf.s.cqRing.head := congrArg FreadState.head hst
      rw [hhead, (hstage.unfetched h0).posted.after hdone] at hempty
      exact hne _ hempty
    exact h .seeTail _ (by simp) (if_neg hmoved)
  | reading q st =>
    obtain ⟨-, -, -, m, hreplied, hcame⟩ := hs
    obtain ⟨r, -, ⟨hreply, -⟩ | ⟨hmore, -⟩⟩ :=
      turn_cases ⟨.reading q st, phase, thread, replies, errors⟩ (hreplied.sound hsound) hcame
    · exact absurd hreply (h .turn _ (by simp))
    · exact absurd hmore (h .turn _ (by simp))

/-- A read that no step moves on is done, or the thread has overslept it. -/
theorem Stuck.phase {kernel : Sqe → Completion} {s : State} (h : Stuck kernel s) :
    s.phase = .done ∨ Overslept s := by
  have hnext := h.next_none
  cases hphase : s.phase with
  | taken sqe | filled sqe | stored => simp [hphase, next] at hnext
  | done => exact Or.inl rfl
  | idle =>
    have hpoll : s.sees = false ∨ s.thread.poller ≠ .polling := by
      by_contra hboth
      obtain ⟨hsees, hpolling⟩ := not_or.mp hboth
      simp only [hphase, next] at hnext
      simp [State.sees, hphase, unserved] at hsees
      simp [hsees, not_not.mp hpolling] at hnext
    obtain ⟨hasleep, hunsent, hlanded⟩ := thread_stuck h.thread hpoll
    exact Or.inr ⟨hphase, hlanded, hasleep, hunsent⟩

theorem Overslept.lost {s : State} (h : Overslept s) (hwait : s.app.opener = .waitCompletion) :
    s.hand.Lost where
  delivered := by simp [State.hand, Thread.hand, h.delivered]
  waiting := hwait
  empty := by simp [State.hand, Thread.hand, h.untaken, taken]
  asleep := h.asleep
  unsent := h.unsent

/-- The order in which the wake-up is lost: the flags are loaded before the thread
sets its flag, and the tail arrives after its second look. -/
def losing (q : Request) : List Action :=
  [.submit, .loadFlags, .call q, .thread .setFlag, .thread .deliverFlag, .thread .fence,
    .thread .rereadTail, .thread .sleep, .thread .deliverTail]

theorem stuck_of_losing (kernel : Sqe → Completion) {mf : MyFile} (hbuilt : Built mf) {q : Request}
    (hblocks : ¬ mf.currentBlock.toUInt32 ≥ mf.blocks.toUInt32) :
    ∃ s st, Runs.run (step kernel) (start mf) (losing q) = some s ∧ s.app = .waiting q st ∧
      Stuck kernel s := by
  have hinside : ¬ (submitReadv mf).blocks.toUInt32 ≤ (submitReadv mf).currentBlock.toUInt32 :=
    hblocks
  have hfirst : ((submitReadv mf).entry q.ptr).mf.isfirst = 0 := hbuilt.isfirst
  have hempty : ((submitReadv mf).entry q.ptr).head =
      ((submitReadv mf).entry q.ptr).mf.s.cqRing.tail := hbuilt.cq_empty.symm
  refine ⟨⟨.waiting q ((submitReadv mf).entry q.ptr), .idle, ⟨.asleep, false, true, false, false⟩,
    [], []⟩, _, ?_, rfl, ?_⟩
  · simp [losing, Runs.run, step, start, Thread.start, Thread.step, State.sees, hinside]
  · intro a t hcall h
    cases a with
    | call q => exact absurd rfl (hcall q)
    | thread m => cases m <;> simp [step, Thread.step] at h
    | seeTail => simp [step, hfirst, hempty] at h
    | submit | loadFlags | enter entered | turn | kernel => simp [step, next] at h

/-- From every reachable state the two sides come to rest unless a new call is
made. They rest where every call has returned, or with the request overslept; in
a run that keeps the order of the handshake only a failed `io_uring_enter` leaves
it so, and otherwise a call can be left waiting for ever. -/
theorem calls_return {a : Answers} {w w' : World} {mf : MyFile} (h : buildFile a w = .ok mf w') :
    (∀ s, Runs.Reach (step a.kernel) Runs.Any (start mf) s →
      Runs.Halts (step a.kernel) (fun _ act => ∀ q, act ≠ .call q) s ∧
        (Stuck a.kernel s →
          Overslept s ∨ s.phase = .done ∧ ∃ m, s.app = .idle m ∨ s.app = .failed m)) ∧
    (∀ s, Runs.Reach (step a.kernel) Ordered (start mf) s → Stuck a.kernel s →
      (s.phase = .done ∧ ∃ m, s.app = .idle m) ∨ ∃ m, s.app = .failed m) ∧
    ∀ q, mf.currentBlock.toUInt32 < mf.blocks.toUInt32 →
      ∃ s st, Runs.Reach (step a.kernel) Runs.Any (start mf) s ∧ s.app = .waiting q st ∧
        Stuck a.kernel s := by
  have hbuilt := buildFile_built h
  have hsound : (completeReadv a.kernel (submitReadv mf)).Sound := (reach_inv h .refl).2
  refine ⟨?_, ?_, ?_⟩
  · intro s hs
    have hinv := (reach_inv h hs).1
    constructor
    · refine Runs.halts_of_measure (I := Inv a.kernel mf) (stepsLeft a.kernel) hinv ?_
      intro u act v hcall hstep hu
      exact ⟨step_inv hbuilt hsound hstep hu, step_stepsLeft hbuilt hsound hcall hstep hu⟩
    · intro hstuck
      rcases hstuck.phase with hdone | hslept
      · rcases hstuck.app hsound hinv with hret | ⟨hout, -⟩
        · exact Or.inr ⟨hdone, hret⟩
        · exact absurd hdone hout
      · exact Or.inl hslept
  · intro s hs hstuck
    have hinv := (reach_flying hbuilt hsound hs).1
    rcases hstuck.app hsound hinv with ⟨m, hidle | hfailed⟩ | ⟨hout, q, st, hwait⟩
    · rcases hstuck.phase with hdone | hslept
      · exact Or.inl ⟨hdone, m, hidle⟩
      · exact absurd (hslept.lost (by rw [hidle]; rfl)) (not_lost_of_ordered hbuilt hsound hs)
    · exact Or.inr ⟨m, hfailed⟩
    · have hslept := hstuck.phase.resolve_left hout
      exact absurd (hslept.lost (by rw [hwait]; rfl)) (not_lost_of_ordered hbuilt hsound hs)
  · intro q hq
    obtain ⟨s, st, hrun, hwait, hstuck⟩ := stuck_of_losing a.kernel hbuilt (q := q)
      (UInt32.not_le.mpr hq)
    exact ⟨s, st, Runs.reach_of_run (losing q) (fun _ _ _ => trivial) hrun, hwait, hstuck⟩

/-- A one-block file: the order that is kept, and the one that loses the wake-up. -/
theorem calls_return_one_block :
    ∃ mf w', buildFile (.smooth 4096 fun _ => ⟨2, [65, 66]⟩) World.start = .ok mf w' ∧
      Runs.Halts (step fun _ => ⟨2, [65, 66]⟩) (fun _ act => ∀ q, act ≠ .call q) (start mf) ∧
      ∃ s st, Runs.Reach (step fun _ => ⟨2, [65, 66]⟩) Runs.Any (start mf) s ∧
        s.app = .waiting (.ofSize 8) st ∧ Stuck (fun _ => ⟨2, [65, 66]⟩) s := by
  obtain ⟨mf, w', hbuild, hblocks⟩ : ∃ mf w',
      buildFile (.smooth 4096 fun _ => ⟨2, [65, 66]⟩) World.start = .ok mf w' ∧
        mf.currentBlock.toUInt32 < mf.blocks.toUInt32 := ⟨_, _, rfl, by decide⟩
  obtain ⟨hall, -, hlost⟩ := calls_return hbuild
  exact ⟨mf, w', hbuild, (hall _ .refl).1, hlost (.ofSize 8) hblocks⟩

end IoUring.Deferred
