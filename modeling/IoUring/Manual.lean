import IoUring.Drain

/-! The read command of omp_io_uring_manual.c: for each file `submit_to_sq`, a sleep
and `read_from_cq`. The thread of the kernel takes requests and completes them, in
any order, while this goes on. -/

namespace IoUring

namespace Manual

open MaskedRing

/-- `fd` and `addr` stand for what was opened and allocated for the file of that
number. -/
structure Sqe where
  fd : Nat
  flags : UInt8
  opcode : Opcode
  addr : Nat
  len : UInt32
  off : UInt64
  userData : Nat
deriving DecidableEq

inductive Pc where
  | top | prepared
  | filled (tail : UInt32)
  | linked (tail : UInt32)
  | published | sleeping | reading
  | exited (status : Nat)
  | fault (f : Fault)
deriving DecidableEq

/-- `i` is the number of the file in hand. `submitted` and `taken` are the requests
behind the tail and those that the kernel has read, from the start. -/
structure State where
  pc : Pc
  i : Nat
  fis : Nat → Blocks.FileInfo
  sq : SqRing
  sqes : UInt32 → Sqe
  drain : Drain.State
  inFlight : List Sqe
  submitted : List Sqe
  taken : List Sqe

/-- The kernel does `take`, `complete` and `post`, and the program the rest. -/
inductive Action where
  | prepare | fill | link | publish
  | enter (ok : Bool)
  | call
  | read (a : Drain.Action)
  | leave | finish
  | take
  | complete (k : Nat) (res : Int32)
  | post

/-- The part of `submit_to_sq` before it touches the ring. -/
def prepare (o : Blocks.Outcomes) (i : Nat) : Except Blocks.Ended Blocks.FileInfo :=
  if o.openFile then
    if hn : 0 ≤ o.fileSize.toInt then Blocks.fileInfo o i .failed hn else .error .failed
  else .error .failed

def request (i : Nat) (fi : Blocks.FileInfo) : Sqe where
  fd := i
  flags := 0
  opcode := .readv
  addr := i
  len := (Blocks.blockCount fi.fileSz).toUInt32
  off := 0
  userData := i

/-- The steps of `read_from_cq` within its loop. -/
def inLoop : Drain.Action → Bool
  | .look | .check | .fetch | .handle => true
  | .call | .publish | .store _ | .advance => false

def step (argv : List Blocks.Outcomes) (s : State) : Action → Option State
  | .prepare =>
    if s.pc = .top then
      match argv[s.i]? with
      | none => none
      | some o =>
        match prepare o s.i with
        | .ok fi =>
          some { s with pc := .prepared, fis := fun k => if k = s.i then fi else s.fis k }
        | .error .failed => some { s with pc := .exited 1 }
        | .error (.fault f) => some { s with pc := .fault f }
    else none
  | .fill =>
    if s.pc = .prepared then
      let index := s.sq.tail &&& s.sq.ringMask
      some { s with
        pc := .filled s.sq.tail
        sqes := fun k => if k = index then request s.i (s.fis s.i) else s.sqes k }
    else none
  | .link =>
    match s.pc with
    | .filled tail =>
      let index := tail &&& s.sq.ringMask
      some { s with
        pc := .linked tail
        sq := { s.sq with array := fun k => if k = index then index else s.sq.array k } }
    | _ => none
  | .publish =>
    match s.pc with
    | .linked tail =>
      some { s with
        pc := .published
        sq := { s.sq with tail := tail + 1 }
        submitted := s.submitted ++ [request s.i (s.fis s.i)] }
    | _ => none
  | .enter ok =>
    if s.pc = .published then some { s with pc := if ok then .sleeping else .exited 1 } else none
  | .call =>
    if s.pc = .sleeping then
      (Drain.step s.fis s.drain .call).map fun d => { s with pc := .reading, drain := d }
    else none
  | .read a =>
    if s.pc = .reading ∧ inLoop a then
      (Drain.step s.fis s.drain a).map fun d => { s with drain := d }
    else none
  | .leave =>
    if s.pc = .reading then
      (Drain.step s.fis s.drain .publish).map fun d =>
        { s with pc := .top, i := s.i + 1, drain := d }
    else none
  | .finish => if s.pc = .top ∧ argv.length ≤ s.i then some { s with pc := .exited 0 } else none
  | .take =>
    if s.sq.head ≠ s.sq.tail then
      let sqe := s.sqes (s.sq.array (s.sq.head &&& s.sq.ringMask))
      some { s with
        sq := { s.sq with head := s.sq.head + 1 }
        inFlight := s.inFlight ++ [sqe]
        taken := s.taken ++ [sqe] }
    else none
  | .complete k res =>
    match s.inFlight[k]? with
    | some sqe =>
      (Drain.step s.fis s.drain (.store ⟨sqe.userData, res⟩)).map fun d =>
        { s with drain := d, inFlight := s.inFlight.eraseIdx k }
    | none => none
  | .post => (Drain.step s.fis s.drain .advance).map fun d => { s with drain := d }

/-- The rings as `app_setup_uring` finds them, empty. -/
structure Rings where
  sq : SqRing
  sqes : UInt32 → Sqe
  cq : Drain.CqRing
  sqSized : Sized sq.ringMask sq.ringEntries
  sqEmpty : sq.head = sq.tail
  cqSized : Sized cq.ringMask cq.ringEntries
  cqEmpty : cq.head = cq.tail

def start (rings : Rings) : State where
  pc := .top
  i := 0
  fis := fun _ => .empty
  sq := rings.sq
  sqes := rings.sqes
  drain := Drain.start rings.cq
  inFlight := []
  submitted := []
  taken := []

/-- The submission entry is written only where the kernel has taken the last one. -/
def Room (s : State) (a : Action) : Prop :=
  a = .fill → s.sq.tail - s.sq.head < s.sq.ringEntries

end Manual

end IoUring
