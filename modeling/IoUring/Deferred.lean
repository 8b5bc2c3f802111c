import IoUring.Interleave
import IoUring.Wakeup

/-! `my_fopen` and `my_fread` of io_uring_read.c. Here `my_fopen` returns when
the request is submitted, and it is the first `my_fread` that waits for the
completion, while calls and the kernel's steps come in any order. The kernel's
polling thread takes the request only while it polls: it may fall asleep, as in
the handshake of host.cpp. -/

namespace IoUring.Deferred

open EarlyExit

/-- What `fstat` finds, with the answer of `BLKGETSIZE64` for a block device. -/
inductive Stat where
  | block (bytes : Option UInt64)
  | regular (size : Int64)
  | other

/-- The answers of the kernel and of the allocators during one `my_fopen`. -/
structure Answers where
  submitterAlloc : Bool
  ringSetup : Option Params
  mmapSq : Bool
  mmapCq : Bool
  mmapSqes : Bool
  fopen : Bool
  fileno : Bool
  fstat : Option Stat
  fileInfoAlloc : Bool
  myFileAlloc : Bool
  memalign : Nat → Option Page
  sqFlags : UInt32
  enter : Bool
  kernel : Sqe → Completion

def Stat.size : Stat → Option Int64
  | .block bytes => bytes.map fun n => n.toInt64
  | .regular size => some size
  | .other => none

/-- The same answers, given to the `my_fopen` of host.cpp. -/
def Answers.host (a : Answers) : Outcomes where
  filename := ""
  duration := ""
  submitterAlloc := a.submitterAlloc
  ringSetup := a.ringSetup
  mmapSq := a.mmapSq
  mmapCq := a.mmapCq
  mmapSqes := a.mmapSqes
  openFile := fun _ => a.fopen
  fstat := a.fstat.bind Stat.size
  registerFiles := true
  fileInfoAlloc := a.fileInfoAlloc
  myFileAlloc := a.myFileAlloc
  memalign := a.memalign
  sqFlags := a.sqFlags
  enter := a.enter
  kernel := a.kernel

/-- A system in which no step fails, with a regular file of the given size. -/
def Answers.smooth (size : Int64) (kernel : Sqe → Completion) : Answers where
  submitterAlloc := true
  ringSetup := (Outcomes.smooth size kernel).ringSetup
  mmapSq := true
  mmapCq := true
  mmapSqes := true
  fopen := true
  fileno := true
  fstat := some (.regular size)
  fileInfoAlloc := true
  myFileAlloc := true
  memalign := fun _ => some Page.zero
  sqFlags := 0
  enter := true
  kernel := kernel

def getFileSize (a : Answers) : Sys Int64 :=
  match a.fstat with
  | none => do
    report "fstat"
    pure (-1)
  | some (.block none) => do
    report "ioctl"
    pure (-1)
  | some (.block (some bytes)) => pure bytes.toInt64
  | some (.regular size) => pure size
  | some .other => pure (-1)

/-- `my_fopen` up to its submission. -/
def buildFile (a : Answers) : Sys MyFile := do
  let s ← ompAlloc 104 a.submitterAlloc
  let some sub ← appSetupUring a.host s | do
    report "Unable to setup uring!\n"
    releasePtr s .free
    throw .null
  let some fp ← tryAcquire a.fopen .file | fail "Fopen Failed!"
  if a.fileno = false then fail "Fopen fileno"
  else
    let fileSz ← getFileSize a
    if fileSz < 0 then throw .null
    else
      let blocks := blockCount fileSz
      let size := fileInfoSize blocks
      let some fi ← ompAlloc size a.fileInfoAlloc | fail "Unable to allocate memory\n"
      let mf ← ompAlloc 56 a.myFileAlloc
      let mf ← deref mf
      let iovecs ← fillIovecs a.host size (fileSz.toInt.toNat / 4096 + 2) fileSz 0 []
      pure
        { addr := mf
          fd := fp
          blocks := blocks
          currentBlock := 0
          isfirst := 0
          currentOffset := 0
          s := sub
          fiRead := none
          fi := ⟨fi, fileSz, iovecs⟩ }

def myFopen (a : Answers) : Sys MyFile := do
  let mf ← buildFile a
  wakeKernel a.host
  pure (submitReadv mf)

theorem getFileSize_host {a : Answers} {n : Int64} {w w' : World}
    (h : getFileSize a w = .ok n w') (hn : ¬ n < 0) :
    IoUring.getFileSize a.host w = .ok n w' := by
  have hneg : (-1 : Int64) < 0 := by decide
  cases hstat : a.fstat with
  | none =>
    rw [getFileSize, hstat] at h
    cases h
    exact absurd hneg hn
  | some stat =>
    have hhost : a.host.fstat = stat.size := by simp [Answers.host, hstat]
    rw [getFileSize, hstat] at h
    rw [IoUring.getFileSize, hhost]
    cases stat with
    | block bytes =>
      cases bytes with
      | none =>
        cases h
        exact absurd hneg hn
      | some bytes => exact h
    | regular size => exact h
    | other =>
      cases h
      exact absurd hneg hn

/-- A handle that is built here is the one that host.cpp builds. -/
theorem buildFile_host {a : Answers} {w w' : World} {mf : MyFile}
    (h : buildFile a w = .ok mf w') : IoUring.buildFile a.host "r" w = .ok mf w' := by
  rw [buildFile] at h
  obtain ⟨s, w₁, hs, h⟩ := bind_eq_ok.mp h
  obtain ⟨sub, w₂, hsub, h⟩ := bind_eq_ok.mp h
  refine bind_eq_ok.mpr ⟨s, w₁, hs, bind_eq_ok.mpr ⟨sub, w₂, hsub, ?_⟩⟩
  cases sub with
  | none =>
    obtain ⟨_, _, -, h⟩ := bind_eq_ok.mp h
    obtain ⟨_, _, -, h⟩ := bind_eq_ok.mp h
    exact (throw_eq_ok.mp h).elim
  | some sub =>
    obtain ⟨fp, w₃, hfp, h⟩ := bind_eq_ok.mp h
    refine bind_eq_ok.mpr ⟨fp, w₃, hfp, ?_⟩
    cases fp with
    | none =>
      obtain ⟨_, _, -, h⟩ := bind_eq_ok.mp h
      exact (throw_eq_ok.mp h).elim
    | some fp =>
      by_cases hno : a.fileno = false
      · simp only [if_pos hno] at h
        obtain ⟨_, _, -, h⟩ := bind_eq_ok.mp h
        exact (throw_eq_ok.mp h).elim
      · simp only [if_neg hno] at h
        obtain ⟨n, w₄, hsize, h⟩ := bind_eq_ok.mp h
        by_cases hn : n < 0
        · rw [if_pos hn] at h
          exact (throw_eq_ok.mp h).elim
        · rw [if_neg hn] at h
          refine bind_eq_ok.mpr ⟨n, w₄, getFileSize_host hsize hn, ?_⟩
          rw [if_neg hn]
          exact h

/-- The polling thread, with the two stores that may be on their way: that of the
tail to the thread, and that of its flag to `my_fopen`. -/
structure Thread where
  poller : Poller
  tailInFlight : Bool
  needWakeup : Bool
  flagInFlight : Bool
  wakeSent : Bool

inductive Move where
  | deliverTail | deliverFlag | setFlag | fence | rereadTail | sleep | wake

/-- `sees`: the thread finds a request when it looks at the tail. It sets its flag
only after a look that found none. -/
def Thread.step (sees : Bool) (t : Thread) : Move → Option Thread
  | .deliverTail =>
    if t.tailInFlight then some { t with tailInFlight := false } else none
  | .deliverFlag =>
    if t.flagInFlight then some { t with needWakeup := true, flagInFlight := false } else none
  | .setFlag =>
    if t.poller = .polling ∧ sees = false then
      some { t with poller := .flagged, flagInFlight := true }
    else none
  | .fence =>
    if t.poller = .flagged ∧ t.flagInFlight = false then some { t with poller := .fenced }
    else none
  | .rereadTail =>
    if t.poller = .fenced then
      if sees then some { t with poller := .polling, needWakeup := false }
      else some { t with poller := .leaving }
    else none
  | .sleep =>
    if t.poller = .leaving then some { t with poller := .asleep } else none
  | .wake =>
    if t.poller = .asleep ∧ t.wakeSent = true then
      some { t with poller := .polling, wakeSent := false, needWakeup := false }
    else none

inductive App where
  | submitting (mf : MyFile)
  | submitted (mf : MyFile)
  | entering (mf : MyFile)
  | failed (mf : MyFile)
  | idle (mf : MyFile)
  | waiting (q : Request) (st : FreadState)
  | reading (q : Request) (st : FreadState)

/-- What a call of `my_fread` gives its caller. -/
structure Reply where
  ret : UInt64
  ptr : Nat → UInt8

def Reply.bytes (r : Reply) : List UInt8 := (List.range r.ret.toNat).map r.ptr

/-- `errors` are the codes whose texts `my_fread` has printed. -/
structure State where
  app : App
  phase : Phase
  thread : Thread
  replies : List (Request × Reply)
  errors : List Int32

inductive Action where
  | submit | loadFlags | enter (entered : Bool) | call (q : Request) | seeTail | turn
  | thread (m : Move) | kernel

def App.mem : App → MyFile
  | .submitting mf | .submitted mf | .entering mf | .failed mf | .idle mf => mf
  | .waiting _ st | .reading _ st => st.mf

def App.update (f : MyFile → MyFile) : App → App
  | .submitting mf => .submitting (f mf)
  | .submitted mf => .submitted (f mf)
  | .entering mf => .entering (f mf)
  | .failed mf => .failed (f mf)
  | .idle mf => .idle (f mf)
  | .waiting q st => .waiting q { st with mf := f st.mf }
  | .reading q st => .reading q { st with mf := f st.mf }

/-- The queue holds a request that has not been taken. -/
def unserved (mem : MyFile) : Phase → Bool
  | .idle => decide (mem.s.sqRing.head ≠ mem.s.sqRing.tail)
  | _ => false

def State.sees (s : State) : Bool := !s.thread.tailInFlight && unserved s.app.mem s.phase

/-- The kernel's next step on the request, and what it does to the memory. The
thread takes the request while it polls; what follows is the read's own. -/
def next (kernel : Sqe → Completion) (thread : Thread) (mem : MyFile) :
    Phase → Option (Phase × (MyFile → MyFile))
  | .idle =>
    if thread.poller = .polling ∧ thread.tailInFlight = false ∧
        mem.s.sqRing.head ≠ mem.s.sqRing.tail then
      some (.taken mem.nextSqe, takeSqe)
    else none
  | .taken sqe => some (.filled sqe, fillBuffers sqe (kernel sqe).data)
  | .filled sqe => some (.stored, storeCqe ⟨sqe.userData, (kernel sqe).res⟩)
  | .stored => some (.done, advanceTail)
  | .done => none

def FreadResult.reply (r : FreadResult) : Reply := ⟨r.ret, r.ptr⟩

def State.reply (s : State) (q : Request) (r : FreadResult) : State :=
  { s with app := .idle r.mf, replies := s.replies ++ [(q, FreadResult.reply r)] }

/-- `fprintf(stderr, "Error: %s\n", strerror(abs(cqe->res)))` -/
def failure (cqe : Cqe) : List Int32 := if cqe.res < 0 then [cqe.res.abs] else []

def printed (st : FreadState) : List Int32 :=
  let cring := st.mf.s.cqRing
  if st.mf.isfirst = 0 ∧ st.head ≠ cring.tail then
    failure (cring.cqes (st.head &&& cring.ringMask))
  else []

/-- One turn of the loop of `my_fread`. -/
def State.turn (s : State) (q : Request) (st : FreadState) : Option State :=
  let s := { s with errors := s.errors ++ printed st }
  match freadTurn (q.size * q.count) st with
  | none => none
  | some (.brk st) => some (s.reply q st.result)
  | some (.next st) =>
    if st.index < st.mf.blocks.toUInt32 then some { s with app := .reading q st }
    else some (s.reply q st.result)

def step (kernel : Sqe → Completion) (s : State) : Action → Option State
  | .submit =>
    match s.app with
    | .submitting mf =>
      some { s with app := .submitted (submitReadv mf), thread.tailInFlight := true }
    | _ => none
  | .loadFlags =>
    match s.app with
    | .submitted mf => some { s with app := if s.thread.needWakeup then .entering mf else .idle mf }
    | _ => none
  | .enter entered =>
    match s.app with
    | .entering mf =>
      if entered then some { s with app := .idle mf, thread.wakeSent := true }
      else some { s with app := .failed mf }
    | _ => none
  | .call q =>
    match s.app with
    | .idle mf =>
      if mf.currentBlock.toUInt32 ≥ mf.blocks.toUInt32 then some (s.reply q ⟨0, q.ptr, mf, []⟩)
      else some { s with app := .waiting q (mf.entry q.ptr) }
    | _ => none
  | .seeTail =>
    match s.app with
    | .waiting q st =>
      if st.mf.isfirst = 0 ∧ st.head = st.mf.s.cqRing.tail then none
      else some { s with app := .reading q st }
    | _ => none
  | .turn =>
    match s.app with
    | .reading q st => s.turn q st
    | _ => none
  | .thread m =>
    match s.thread.step s.sees m with
    | none => none
    | some thread => some { s with thread := thread }
  | .kernel =>
    match next kernel s.thread s.app.mem s.phase with
    | none => none
    | some (phase, f) => some { s with app := s.app.update f, phase := phase }

def Thread.start : Thread := ⟨.polling, false, false, false, false⟩

def start (mf : MyFile) : State := ⟨.submitting mf, .idle, .start, [], []⟩

/-- The steps of a `my_fopen` that returns a handle, for the flag that it loads. -/
theorem myFopen_run {a : Answers} {w w' : World} {mf' : MyFile} (h : myFopen a w = .ok mf' w') :
    ∃ mf w₁ s, buildFile a w = .ok mf w₁ ∧
      Runs.run (step a.kernel) { start mf with thread.needWakeup := decide (a.sqFlags &&& 1 ≠ 0) }
        (if a.sqFlags &&& 1 ≠ 0 then [.submit, .loadFlags, .enter a.enter]
          else [.submit, .loadFlags]) = some s ∧
      s.app = .idle mf' := by
  obtain ⟨mf, w₁, hbuild, h⟩ := bind_eq_ok.mp h
  obtain ⟨_, w₂, hwake, h⟩ := bind_eq_ok.mp h
  cases h
  by_cases hflag : a.sqFlags &&& 1 ≠ 0
  · have hhost : a.host.sqFlags &&& 1 ≠ 0 := hflag
    have henter : a.enter = true := by
      by_contra hfail
      have hhostFail : ¬ a.host.enter = true := hfail
      rw [wakeKernel, if_pos hhost] at hwake
      obtain ⟨_, _, -, hwake⟩ := bind_eq_ok.mp hwake
      simp only [if_neg hhostFail] at hwake
      obtain ⟨_, _, -, hwake⟩ := bind_eq_ok.mp hwake
      exact (throw_eq_ok.mp hwake).elim
    refine ⟨mf, w₁, ⟨.idle (submitReadv mf), .idle, ⟨.polling, true, true, false, true⟩, [], []⟩,
      hbuild, ?_, rfl⟩
    simp [Runs.run, step, start, Thread.start, hflag, henter]
  · refine ⟨mf, w₁, ⟨.idle (submitReadv mf), .idle, ⟨.polling, true, false, false, false⟩, [], []⟩,
      hbuild, ?_, rfl⟩
    simp only [if_neg hflag]
    simp [Runs.run, step, start, Thread.start, not_not.mp hflag]

end IoUring.Deferred
