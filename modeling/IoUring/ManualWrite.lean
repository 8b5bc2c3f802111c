import IoUring.Model
import IoUring.Runs

/-! `submit_write_request` of omp_io_uring_manual.c beside the kernel's polling
thread. The ring has one entry, which is why the array of the submission ring
need not be stored to. The call asks for a completion but never to wake the thread,
and it takes the end of its wait for the end of the write. -/

namespace IoUring.ManualWrite

inductive Opcode where
  | nop | writev
deriving DecidableEq

/-- `iov` is the one buffer that `addr` leads to. -/
structure Sqe where
  fd : Nat
  opcode : Opcode
  flags : UInt8
  off : UInt64
  iov : List UInt8
  len : UInt32
  userData : Nat
deriving DecidableEq

inductive Pc where
  | top | opened | filled | waiting
  | exited (status : Nat)
deriving DecidableEq

/-- A request is in flight together with whether its descriptor was open when the
thread took it. `posted` are the results in the completion ring. -/
structure State where
  pc : Pc
  fdOpen : Bool
  sq : SqRing
  sqes : UInt32 → Sqe
  asleep : Bool
  inFlight : Option (Sqe × Bool)
  posted : List Int32
  file : List UInt8

inductive Action where
  | openFile (ok : Bool) | fill | publish
  | enter (ok : Bool) | interrupt
  | sleep | wake | take
  | complete (res : Int32)

/-- `IORING_ENTER_GETEVENTS` -/
def getevents : UInt32 := 1

/-- `IORING_ENTER_SQ_WAKEUP` -/
def sqWakeup : UInt32 := 2

def request (fd : Nat) (data : List UInt8) : Sqe where
  fd := fd
  opcode := .writev
  flags := 0
  off := 0
  iov := data
  len := 1
  userData := fd

/-- The file is opened without `O_TRUNC`: what lies behind the data stays. -/
def overwrite (old : List UInt8) (off : Nat) (data : List UInt8) : List UInt8 :=
  old.take off ++ List.replicate (off - old.length) 0 ++ data ++ old.drop (off + data.length)

/-- What the kernel does with a request that it ends with the result `res`. -/
def execute (sqe : Sqe) (res : Int32) (file : List UInt8) : List UInt8 :=
  match sqe.opcode with
  | .nop => file
  | .writev =>
    if res < 0 then file else overwrite file sqe.off.toNat (sqe.iov.take res.toInt.toNat)

/-- The kernel does `sleep`, `wake`, `take` and `complete`. -/
def step (fd : Nat) (data : List UInt8) (flags : UInt32) (s : State) : Action → Option State
  | .openFile ok =>
    if s.pc = .top then
      some (if ok then { s with pc := .opened, fdOpen := true } else { s with pc := .exited 1 })
    else none
  | .fill =>
    if s.pc = .opened then
      let index := s.sq.tail &&& s.sq.ringMask
      some { s with
        pc := .filled
        sqes := fun i => if i = index then request fd data else s.sqes i }
    else none
  | .publish =>
    if s.pc = .filled then
      some { s with pc := .waiting, sq := { s.sq with tail := s.sq.tail + 1 } }
    else none
  | .enter ok =>
    -- `min_complete` is 1: the call returns when a completion is there
    if s.pc = .waiting ∧ (ok = true → s.posted ≠ []) then
      some { s with pc := .exited (if ok then 0 else 1), fdOpen := false }
    else none
  | .interrupt =>
    -- with a polling thread the call returns `to_submit`, also where a signal ends its wait
    if s.pc = .waiting then some { s with pc := .exited 0, fdOpen := false } else none
  | .sleep =>
    if s.asleep = false ∧ s.sq.head = s.sq.tail then some { s with asleep := true } else none
  | .wake =>
    if s.asleep = true ∧ s.pc = .waiting ∧ flags &&& sqWakeup ≠ 0 then
      some { s with asleep := false }
    else none
  | .take =>
    if s.asleep = false ∧ s.sq.head ≠ s.sq.tail ∧ s.inFlight = none then
      some { s with
        sq := { s.sq with head := s.sq.head + 1 }
        inFlight := some (s.sqes (s.sq.array (s.sq.head &&& s.sq.ringMask)), s.fdOpen) }
    else none
  | .complete res =>
    match s.inFlight with
    | none => none
    | some (sqe, fdOpen) =>
      if (fdOpen = false → res < 0) ∧ res.toInt ≤ sqe.iov.length then
        some { s with
          inFlight := none
          posted := s.posted ++ [res]
          file := execute sqe res s.file }
      else none

/-- A ring of `QUEUE_DEPTH` 1 as the kernel creates it. -/
def start (sqes : UInt32 → Sqe) (asleep : Bool) (old : List UInt8) : State where
  pc := .top
  fdOpen := false
  sq := ⟨0, 0, 0, 1, 0, fun _ => 0⟩
  sqes := sqes
  asleep := asleep
  inFlight := none
  posted := []
  file := old

/-- Where the one request is. -/
inductive Stage where
  | absent | queued | taken | done
deriving DecidableEq

/-- How far the request has got, with nothing else on its way. -/
def At (fd : Nat) (data old : List UInt8) (s : State) : Stage → Prop
  | .absent => s.sq.head = 0 ∧ s.sq.tail = 0 ∧ s.inFlight = none ∧ s.posted = [] ∧ s.file = old
  | .queued =>
    s.sq.head = 0 ∧ s.sq.tail = 1 ∧ s.inFlight = none ∧ s.posted = [] ∧ s.file = old ∧
      s.sqes 0 = request fd data
  | .taken =>
    s.sq.head = 1 ∧ s.sq.tail = 1 ∧ (∃ ok, s.inFlight = some (request fd data, ok)) ∧
      s.posted = [] ∧ s.file = old
  | .done =>
    s.sq.head = 1 ∧ s.sq.tail = 1 ∧ s.inFlight = none ∧
      ∃ res : Int32, s.posted = [res] ∧ res.toInt ≤ data.length ∧
        s.file = execute (request fd data) res old

/-- Which stages go with which place in the call. -/
def Fits (fd : Nat) (data : List UInt8) (s : State) : Stage → Prop
  | .absent =>
    s.pc ≠ .waiting ∧ s.pc ≠ .exited 0 ∧ (s.pc = .filled → s.sqes 0 = request fd data)
  | .queued | .taken | .done => s.pc = .waiting ∨ ∃ status, s.pc = .exited status

structure Inv (fd : Nat) (data old : List UInt8) (s : State) : Prop where
  ring : s.sq.ringMask = 0 ∧ s.sq.array = fun _ => 0
  closed : s.pc = .top ∨ (∃ status, s.pc = .exited status) → s.fdOpen = false
  stage : ∃ stage, At fd data old s stage ∧ Fits fd data s stage

variable {fd : Nat} {data old : List UInt8} {flags : UInt32} {s t : State}

theorem start_inv (sqes : UInt32 → Sqe) (asleep : Bool) :
    Inv fd data old (start sqes asleep old) where
  ring := ⟨rfl, rfl⟩
  closed := fun _ => rfl
  stage := ⟨.absent, ⟨rfl, rfl, rfl, rfl, rfl⟩, by simp [Fits, start]⟩

theorem step_closed {a : Action} (h : step fd data flags s a = some t)
    (hs : s.pc = .top ∨ (∃ status, s.pc = .exited status) → s.fdOpen = false) :
    t.pc = .top ∨ (∃ status, t.pc = .exited status) → t.fdOpen = false := by
  intro ht
  cases a with
  | openFile ok =>
    obtain ⟨hpc, h⟩ := Option.ite_none_right_eq_some.mp h
    cases ok <;> cases h
    · exact hs (Or.inl hpc)
    · simp at ht
  | fill | publish =>
    obtain ⟨-, ⟨⟩⟩ := Option.ite_none_right_eq_some.mp h
    simp at ht
  | enter ok | interrupt =>
    obtain ⟨-, ⟨⟩⟩ := Option.ite_none_right_eq_some.mp h
    rfl
  | sleep | wake | take =>
    obtain ⟨-, ⟨⟩⟩ := Option.ite_none_right_eq_some.mp h
    exact hs ht
  | complete res =>
    simp only [step] at h
    split at h
    · cases h
    · obtain ⟨-, ⟨⟩⟩ := Option.ite_none_right_eq_some.mp h
      exact hs ht

theorem step_stage {a : Action} (h : step fd data flags s a = some t) (hs : Inv fd data old s) :
    (t.sq.ringMask = 0 ∧ t.sq.array = fun _ => 0) ∧
      ∃ stage, At fd data old t stage ∧ Fits fd data t stage := by
  obtain ⟨⟨hmask, harray⟩, -, stage, hat, hfits⟩ := hs
  cases a with
  | openFile ok =>
    obtain ⟨hpc, h⟩ := Option.ite_none_right_eq_some.mp h
    cases stage <;> simp only [Fits, hpc, reduceCtorEq, false_or, exists_false] at hfits
    cases ok <;> cases h
    · exact ⟨⟨hmask, harray⟩, .absent, hat, by simp [Fits]⟩
    · exact ⟨⟨hmask, harray⟩, .absent, hat, by simp [Fits]⟩
  | fill =>
    obtain ⟨hpc, h⟩ := Option.ite_none_right_eq_some.mp h
    cases stage <;> simp only [Fits, hpc, reduceCtorEq, false_or, exists_false] at hfits
    cases h
    exact ⟨⟨hmask, harray⟩, .absent, hat, by simp [Fits, hmask]⟩
  | publish =>
    obtain ⟨hpc, h⟩ := Option.ite_none_right_eq_some.mp h
    cases stage <;> simp only [Fits, hpc, reduceCtorEq, false_or, exists_false] at hfits
    cases h
    obtain ⟨hhead, htail, hflight, hposted, hfile⟩ := hat
    refine ⟨⟨hmask, harray⟩, .queued, ⟨hhead, ?_, hflight, hposted, hfile, ?_⟩, Or.inl rfl⟩
    · simp [htail]
    · exact hfits.2.2 trivial
  | enter ok =>
    obtain ⟨⟨hpc, -⟩, h⟩ := Option.ite_none_right_eq_some.mp h
    cases h
    refine ⟨⟨hmask, harray⟩, stage, ?_, ?_⟩
    · cases stage <;> exact hat
    · cases stage with
      | absent => exact absurd hpc hfits.1
      | queued | taken | done => exact Or.inr ⟨_, rfl⟩
  | interrupt =>
    obtain ⟨hpc, h⟩ := Option.ite_none_right_eq_some.mp h
    cases h
    refine ⟨⟨hmask, harray⟩, stage, ?_, ?_⟩
    · cases stage <;> exact hat
    · cases stage with
      | absent => exact absurd hpc hfits.1
      | queued | taken | done => exact Or.inr ⟨_, rfl⟩
  | sleep | wake =>
    obtain ⟨-, h⟩ := Option.ite_none_right_eq_some.mp h
    cases h
    exact ⟨⟨hmask, harray⟩, stage, by cases stage <;> exact hat, by cases stage <;> exact hfits⟩
  | take =>
    obtain ⟨⟨-, hne, -⟩, h⟩ := Option.ite_none_right_eq_some.mp h
    cases h
    cases stage with
    | absent => exact absurd (hat.1.trans hat.2.1.symm) hne
    | queued =>
      obtain ⟨hhead, htail, hflight, hposted, hfile, hsqe⟩ := hat
      refine ⟨⟨hmask, harray⟩, .taken, ⟨?_, htail, ⟨s.fdOpen, ?_⟩, hposted, hfile⟩, hfits⟩
      · simp [hhead]
      · simp only [harray, hsqe]
    | taken | done => exact absurd (hat.1.trans hat.2.1.symm) hne
  | complete res =>
    simp only [step] at h
    cases hflight : s.inFlight with
    | none => simp [hflight] at h
    | some r =>
      obtain ⟨sqe, ok⟩ := r
      rw [hflight] at h
      obtain ⟨⟨-, hle⟩, ⟨⟩⟩ := Option.ite_none_right_eq_some.mp h
      cases stage with
      | absent | queued => simp [hat.2.2.1] at hflight
      | taken =>
        obtain ⟨hhead, htail, ⟨ok', hreq⟩, hposted, hfile⟩ := hat
        rw [hreq] at hflight
        cases hflight
        refine ⟨⟨hmask, harray⟩, .done, ⟨hhead, htail, rfl, res, ?_, hle, ?_⟩, ?_⟩
        · simp [hposted]
        · simp only [hfile]
        · exact hfits
      | done => simp [hat.2.2.1] at hflight

theorem step_inv {a : Action} (h : step fd data flags s a = some t) (hs : Inv fd data old s) :
    Inv fd data old t :=
  ⟨(step_stage h hs).1, step_closed h hs.closed, (step_stage h hs).2⟩

theorem reach_inv {sqes : UInt32 → Sqe} {asleep : Bool}
    (hs : Runs.Reach (step fd data flags) Runs.Any (start sqes asleep old) s) :
    Inv fd data old s :=
  hs.invariant (start_inv sqes asleep) fun _ _ _ _ hstep hu => step_inv hstep hu

/-- No signal ends the wait of the call. -/
def Undisturbed (_ : State) (a : Action) : Prop := a ≠ .interrupt

theorem step_answered {a : Action} (hok : Undisturbed s a) (h : step fd data flags s a = some t)
    (hs : s.pc = .exited 0 → s.posted ≠ []) : t.pc = .exited 0 → t.posted ≠ [] := by
  intro ht
  cases a with
  | openFile ok =>
    obtain ⟨-, h⟩ := Option.ite_none_right_eq_some.mp h
    cases ok <;> cases h <;> cases ht
  | fill | publish =>
    obtain ⟨-, ⟨⟩⟩ := Option.ite_none_right_eq_some.mp h
    cases ht
  | enter ok =>
    obtain ⟨⟨-, hposted⟩, ⟨⟩⟩ := Option.ite_none_right_eq_some.mp h
    cases ok with
    | false => cases ht
    | true => exact hposted rfl
  | interrupt => exact absurd rfl hok
  | sleep | wake | take =>
    obtain ⟨-, ⟨⟩⟩ := Option.ite_none_right_eq_some.mp h
    exact hs ht
  | complete res =>
    simp only [step] at h
    split at h
    · cases h
    · obtain ⟨-, ⟨⟩⟩ := Option.ite_none_right_eq_some.mp h
      simp

/-- The call has returned, and what is in flight was taken without its descriptor. -/
structure Abandoned (old : List UInt8) (s : State) : Prop where
  returned : ∃ status, s.pc = .exited status
  closed : s.fdOpen = false
  flight : ∀ sqe ok, s.inFlight = some (sqe, ok) → ok = false
  file : s.file = old

theorem step_abandoned {a : Action} (h : step fd data flags s a = some t) (hs : Abandoned old s) :
    Abandoned old t := by
  obtain ⟨⟨status, hpc⟩, hclosed, hflight, hfile⟩ := hs
  cases a with
  | openFile ok | fill | publish | interrupt =>
    obtain ⟨hat, -⟩ := Option.ite_none_right_eq_some.mp h
    rw [hpc] at hat
    cases hat
  | enter ok | wake =>
    obtain ⟨hat, -⟩ := Option.ite_none_right_eq_some.mp h
    simp [hpc] at hat
  | sleep =>
    obtain ⟨-, ⟨⟩⟩ := Option.ite_none_right_eq_some.mp h
    exact ⟨⟨status, hpc⟩, hclosed, hflight, hfile⟩
  | take =>
    obtain ⟨-, ⟨⟩⟩ := Option.ite_none_right_eq_some.mp h
    refine ⟨⟨status, hpc⟩, hclosed, ?_, hfile⟩
    intro sqe ok htaken
    cases htaken
    exact hclosed
  | complete res =>
    simp only [step] at h
    cases hf : s.inFlight with
    | none => simp [hf] at h
    | some r =>
      obtain ⟨sqe, ok⟩ := r
      rw [hf] at h
      obtain ⟨⟨hneg, -⟩, ⟨⟩⟩ := Option.ite_none_right_eq_some.mp h
      have hres : res < 0 := hneg (hflight sqe ok hf)
      refine ⟨⟨status, hpc⟩, hclosed, by simp, ?_⟩
      rw [execute, hfile]
      cases sqe.opcode
      · rfl
      · exact if_pos hres

/-- At every moment the file is as it was or has the bytes of one write over its first
bytes, and a request that the call leaves behind in the queue writes nothing. Unless a
signal ends its wait the call returns 0 only when the write has ended, well or not. -/
theorem written_once {sqes : UInt32 → Sqe} {asleep : Bool} :
    (∀ s, Runs.Reach (step fd data flags) Runs.Any (start sqes asleep old) s →
      (s.file = old ∨ ∃ k ≤ data.length, s.file = overwrite old 0 (data.take k)) ∧
        ((∃ status, s.pc = .exited status) → s.sq.head ≠ s.sq.tail →
          ∀ t, Runs.Reach (step fd data flags) Runs.Any s t → t.file = old)) ∧
    ∀ s, Runs.Reach (step fd data flags) Undisturbed (start sqes asleep old) s →
      s.pc = .exited 0 → s.inFlight = none ∧ ∃ res : Int32, s.posted = [res] ∧
        s.file = if res < 0 then old else overwrite old 0 (data.take res.toInt.toNat) := by
  constructor
  · intro s hs
    obtain ⟨-, hclosed, stage, hat, -⟩ := reach_inv hs
    constructor
    · cases stage with
      | absent => exact Or.inl hat.2.2.2.2
      | queued => exact Or.inl hat.2.2.2.2.1
      | taken => exact Or.inl hat.2.2.2.2
      | done =>
        obtain ⟨-, -, -, res, -, hle, hfile⟩ := hat
        by_cases hres : res < 0
        · exact Or.inl (hfile.trans (if_pos hres))
        · exact Or.inr ⟨res.toInt.toNat, by omega, hfile.trans (if_neg hres)⟩
    · intro hret hne t ht
      have habandoned : Abandoned old s := by
        cases stage with
        | queued =>
          obtain ⟨-, -, hflight, -, hfile, -⟩ := hat
          exact ⟨hret, hclosed (Or.inr hret), by simp [hflight], hfile⟩
        | absent | taken | done => exact absurd (hat.1.trans hat.2.1.symm) hne
      exact (ht.invariant habandoned fun _ _ _ _ hstep hu => step_abandoned hstep hu).file
  · intro s hs hpc
    have hboth : Inv fd data old s ∧ (s.pc = .exited 0 → s.posted ≠ []) := by
      refine hs.invariant (I := fun s => Inv fd data old s ∧ (s.pc = .exited 0 → s.posted ≠ []))
        ⟨start_inv sqes asleep, by simp [start]⟩ ?_
      rintro u a v hok hstep ⟨hu, hanswered⟩
      exact ⟨step_inv hstep hu, step_answered hok hstep hanswered⟩
    obtain ⟨⟨-, -, stage, hat, -⟩, hanswered⟩ := hboth
    have hposted := hanswered hpc
    cases stage with
    | absent | queued | taken => exact absurd hat.2.2.2.1 hposted
    | done =>
      obtain ⟨-, -, hflight, res, hres, -, hfile⟩ := hat
      exact ⟨hflight, res, hres, hfile⟩

/-- One call that waits for its write, and one whose wait a signal ends. -/
theorem written_once_hello :
    (∃ s, Runs.Reach (step 3 [72, 105] getevents) Undisturbed
        (start (fun _ => request 0 []) false [1, 2, 3]) s ∧
      s.pc = .exited 0 ∧ ∃ res : Int32, s.posted = [res] ∧
        s.file = if res < 0 then [1, 2, 3] else
          overwrite [1, 2, 3] 0 (([72, 105] : List UInt8).take res.toInt.toNat)) ∧
    ∃ s, Runs.Reach (step 3 [72, 105] getevents) Runs.Any
        (start (fun _ => request 0 []) true [1, 2, 3]) s ∧
      s.pc = .exited 0 ∧ s.sq.head ≠ s.sq.tail ∧ s.file = [1, 2, 3] := by
  constructor
  · obtain ⟨s, hrun, hpc⟩ : ∃ s, Runs.run (step 3 [72, 105] getevents)
        (start (fun _ => request 0 []) false [1, 2, 3])
        [.openFile true, .fill, .publish, .take, .complete 2, .enter true] = some s ∧
          s.pc = .exited 0 := ⟨_, rfl, rfl⟩
    have hreach : Runs.Reach _ Undisturbed _ s := Runs.reach_of_run _ (by simp [Undisturbed]) hrun
    obtain ⟨res, hposted, hfile⟩ := (written_once.2 s hreach hpc).2
    exact ⟨s, hreach, hpc, res, hposted, hfile⟩
  · obtain ⟨s, hrun, hpc, hne⟩ : ∃ s, Runs.run (step 3 [72, 105] getevents)
        (start (fun _ => request 0 []) true [1, 2, 3])
        [.openFile true, .fill, .publish, .interrupt] = some s ∧ s.pc = .exited 0 ∧
          s.sq.head ≠ s.sq.tail := ⟨_, rfl, rfl, by decide⟩
    have hreach : Runs.Reach _ Runs.Any _ s := Runs.reach_of_run _ (fun _ _ _ => trivial) hrun
    exact ⟨s, hreach, hpc, hne, (written_once.1 s hreach).2 ⟨0, hpc⟩ hne s .refl⟩

/-- The thread sleeps and has not seen the request. -/
def Overslept (s : State) : Prop := s.asleep = true ∧ s.sq.head ≠ s.sq.tail

/-- A request that nobody wakes the thread for stays where it is. -/
theorem step_overslept {a : Action} (hflags : flags &&& sqWakeup = 0) (hok : Undisturbed s a)
    (h : step fd data flags s a = some t) (hinv : Inv fd data old s)
    (hs : Overslept s ∧ (s.pc = .waiting ∨ s.pc = .exited 1)) :
    Overslept t ∧ (t.pc = .waiting ∨ t.pc = .exited 1) := by
  obtain ⟨⟨hasleep, hne⟩, hpc⟩ := hs
  obtain ⟨hflight, hposted⟩ : s.inFlight = none ∧ s.posted = [] := by
    obtain ⟨-, -, stage, hat, -⟩ := hinv
    cases stage with
    | absent => exact ⟨hat.2.2.1, hat.2.2.2.1⟩
    | queued => exact ⟨hat.2.2.1, hat.2.2.2.1⟩
    | taken | done => exact absurd (hat.1.trans hat.2.1.symm) hne
  cases a with
  | openFile ok | fill | publish =>
    obtain ⟨hat, -⟩ := Option.ite_none_right_eq_some.mp h
    rcases hpc with hpc | hpc <;> rw [hpc] at hat <;> cases hat
  | enter ok =>
    obtain ⟨⟨-, hseen⟩, ⟨⟩⟩ := Option.ite_none_right_eq_some.mp h
    cases ok with
    | false => exact ⟨⟨hasleep, hne⟩, Or.inr rfl⟩
    | true => exact absurd hposted (hseen rfl)
  | interrupt => exact absurd rfl hok
  | sleep | take =>
    obtain ⟨hat, -⟩ := Option.ite_none_right_eq_some.mp h
    rw [hat.1] at hasleep
    cases hasleep
  | wake =>
    obtain ⟨hat, -⟩ := Option.ite_none_right_eq_some.mp h
    exact absurd hflags hat.2.2
  | complete res => simp [step, hflight] at h

/-- From a call that waits, unless its request is overslept, some run returns 0. -/
theorem can_return (hinv : Inv fd data old s) (hwait : s.pc = .waiting)
    (h : flags &&& sqWakeup ≠ 0 ∨ ¬ Overslept s) :
    ∃ t, Runs.Reach (step fd data flags) Undisturbed s t ∧ t.pc = .exited 0 := by
  obtain ⟨⟨hmask, harray⟩, -, stage, hat, hfits⟩ := hinv
  have hneg : ((-1 : Int32) < 0) := by decide
  have hlen : (-1 : Int32).toInt ≤ data.length := by
    have hval : (-1 : Int32).toInt = -1 := rfl
    omega
  have hdone : ∀ u : State, u.pc = .waiting → u.posted ≠ [] →
      ∃ t, Runs.Reach (step fd data flags) Undisturbed u t ∧ t.pc = .exited 0 := by
    intro u hpc hposted
    have henter : step fd data flags u (.enter true) =
        some { u with pc := .exited 0, fdOpen := false } := if_pos ⟨hpc, fun _ => hposted⟩
    exact ⟨_, .single ⟨_, by simp [Undisturbed], henter⟩, rfl⟩
  have htaken : ∀ u : State, u.pc = .waiting → (∃ ok, u.inFlight = some (request fd data, ok)) →
      ∃ t, Runs.Reach (step fd data flags) Undisturbed u t ∧ t.pc = .exited 0 := by
    rintro u hpc ⟨ok, hflight⟩
    have hcomplete : ∃ v, step fd data flags u (.complete (-1)) = some v ∧ v.pc = .waiting ∧
        v.posted ≠ [] := by
      simp only [step, hflight]
      exact ⟨_, if_pos ⟨fun _ => hneg, hlen⟩, hpc, by simp⟩
    obtain ⟨v, hstep, hpc', hposted⟩ := hcomplete
    obtain ⟨t, hreach, ht⟩ := hdone v hpc' hposted
    exact ⟨t, .head ⟨_, by simp [Undisturbed], hstep⟩ hreach, ht⟩
  have hqueued : ∀ u : State, u.pc = .waiting → u.asleep = false → At fd data old u .queued →
      u.sq.ringMask = 0 → u.sq.array = (fun _ => 0) →
      ∃ t, Runs.Reach (step fd data flags) Undisturbed u t ∧ t.pc = .exited 0 := by
    rintro u hpc hawake ⟨hhead, htail, hflight, -, -, hsqe⟩ hmask harray
    have hne : u.sq.head ≠ u.sq.tail := by simp [hhead, htail]
    have htake : ∃ v, step fd data flags u .take = some v ∧ v.pc = .waiting ∧
        ∃ ok, v.inFlight = some (request fd data, ok) :=
      ⟨_, if_pos ⟨hawake, hne, hflight⟩, hpc, u.fdOpen, by simp only [harray, hsqe]⟩
    obtain ⟨v, hstep, hpc', hflight'⟩ := htake
    obtain ⟨t, hreach, ht⟩ := htaken v hpc' hflight'
    exact ⟨t, .head ⟨_, by simp [Undisturbed], hstep⟩ hreach, ht⟩
  cases stage with
  | absent => exact absurd hwait hfits.1
  | queued =>
    cases hasleep : s.asleep with
    | false => exact hqueued s hwait hasleep hat hmask harray
    | true =>
      have hne : s.sq.head ≠ s.sq.tail := by simp [hat.1, hat.2.1]
      have hflags := h.resolve_right (not_not.mpr ⟨hasleep, hne⟩)
      have hwake : step fd data flags s .wake = some { s with asleep := false } :=
        if_pos ⟨hasleep, hwait, hflags⟩
      obtain ⟨t, hreach, ht⟩ := hqueued { s with asleep := false } hwait rfl hat hmask harray
      exact ⟨t, .head ⟨_, by simp [Undisturbed], hwake⟩ hreach, ht⟩
  | taken => exact htaken s hwait hat.2.2.1
  | done =>
    obtain ⟨-, -, -, res, hposted, -⟩ := hat
    exact hdone s hwait (by simp [hposted])

/-- A call whose wait no signal ends can return 0 exactly when the thread has not overslept
its request, whereas with the flag that `submit_to_sq` passes it always can. -/
theorem returns_iff {sqes : UInt32 → Sqe} {asleep : Bool} :
    (∀ s, Runs.Reach (step fd data getevents) Runs.Any (start sqes asleep old) s →
      s.pc = .waiting →
        ((∃ t, Runs.Reach (step fd data getevents) Undisturbed s t ∧ t.pc = .exited 0) ↔
          ¬ Overslept s)) ∧
    ∀ s, Runs.Reach (step fd data (getevents ||| sqWakeup)) Runs.Any (start sqes asleep old) s →
      s.pc = .waiting →
        ∃ t, Runs.Reach (step fd data (getevents ||| sqWakeup)) Undisturbed s t ∧
          t.pc = .exited 0 := by
  constructor
  · intro s hs hwait
    have hinv := reach_inv hs
    constructor
    · rintro ⟨t, hreach, ht⟩ hover
      have hstays : Inv fd data old t ∧ Overslept t ∧ (t.pc = .waiting ∨ t.pc = .exited 1) := by
        refine hreach.invariant
          (I := fun u => Inv fd data old u ∧ Overslept u ∧ (u.pc = .waiting ∨ u.pc = .exited 1))
          ⟨hinv, hover, Or.inl hwait⟩ ?_
        rintro u a v hok hstep ⟨hu, hrest⟩
        exact ⟨step_inv hstep hu, step_overslept (by decide) hok hstep hu hrest⟩
      rcases hstays.2.2 with hpc | hpc <;> rw [ht] at hpc <;> cases hpc
    · exact fun hover => can_return hinv hwait (Or.inr hover)
  · intro s hs hwait
    exact can_return (reach_inv hs) hwait (Or.inl (by decide))

theorem returns_never :
    ∃ s, Runs.Reach (step 3 [72, 105] getevents) Runs.Any
        (start (fun _ => request 0 []) true []) s ∧ s.pc = .waiting ∧
      ¬ ∃ t, Runs.Reach (step 3 [72, 105] getevents) Undisturbed s t ∧ t.pc = .exited 0 := by
  obtain ⟨s, hrun, hpc, hover⟩ : ∃ s, Runs.run (step 3 [72, 105] getevents)
      (start (fun _ => request 0 []) true []) [.openFile true, .fill, .publish] = some s ∧
        s.pc = .waiting ∧ Overslept s := ⟨_, rfl, rfl, rfl, by decide⟩
  have hreach : Runs.Reach _ Runs.Any _ s :=
    Runs.reach_of_run _ (fun _ _ _ => trivial) hrun
  refine ⟨s, hreach, hpc, ?_⟩
  rw [returns_iff.1 s hreach hpc, not_not]
  exact hover

end IoUring.ManualWrite
