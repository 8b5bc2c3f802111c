import IoUring.OpenSpec
import IoUring.Runs

/-! example/polling.c: `my_fopen` queues a first read for each file, and `my_fread`
polls for completions in whatever order they come and hands the next read of the
file to liburing. -/

namespace IoUring

namespace Polling

/-- `#define QUEUE_DEPTH 16`. -/
abbrev queueDepth : Nat := 16

/-- `#define BUFFER_SIZE 4096`. -/
abbrev bufferSize : UInt32 := 4096

structure FileInfo where
  fd : Nat
  offset : Int64
  buf : Page

/-- `addr` names the entry of `files` whose buffer is read into. -/
structure Sqe where
  fd : Nat
  off : Int64
  addr : Nat
  len : UInt32
  userData : Nat
deriving DecidableEq

structure Cqe where
  userData : Nat
  res : Int32
deriving DecidableEq

/-- The queues of liburing: entries reserved, entries submitted that the kernel has
not taken, requests under way, and completions not seen. -/
structure Ring where
  reserved : List Sqe
  published : List Sqe
  inFlight : List Sqe
  cq : List Cqe

def readSqe (k : Nat) (fi : FileInfo) : Sqe := ⟨fi.fd, fi.offset, k, bufferSize, k⟩

/-- `io_uring_get_sqe` finds no entry when all are reserved or wait for the kernel. -/
def setupRead (ring : Ring) (k : Nat) (fi : FileInfo) : Ring :=
  if ring.reserved.length + ring.published.length < queueDepth then
    { ring with reserved := ring.reserved ++ [readSqe k fi] }
  else ring

def submit (ring : Ring) : Ring :=
  { ring with reserved := [], published := ring.published ++ ring.reserved }

def setFile (files : Nat → FileInfo) (k : Nat) (fi : FileInfo) : Nat → FileInfo :=
  fun i => if i = k then fi else files i

/-- The loop of `my_fopen` over what `open` returned. A store behind the last entry
of `files` is undefined. -/
def openFiles : List (Option Nat) → Nat → (Nat → FileInfo) → Ring →
    Option ((Nat → FileInfo) × Ring)
  | [], _, files, ring => some (files, ring)
  | none :: fds, k, files, ring => openFiles fds (k + 1) files ring
  | some fd :: fds, k, files, ring =>
    if k < queueDepth then
      let fi : FileInfo := ⟨fd, 0, (files k).buf⟩
      openFiles fds (k + 1) (setFile files k fi) (setupRead ring k fi)
    else none

def myFopen (queueInit : Bool) (fds : List (Option Nat)) (files : Nat → FileInfo) :
    Option (Int32 × (Nat → FileInfo) × Ring) :=
  let numFiles := Int32.ofNat fds.length
  if fds = [] then some (-1, files, ⟨[], [], [], []⟩)
  else if queueInit then
    (openFiles fds 0 files ⟨[], [], [], []⟩).map fun r => (numFiles, r.1, submit r.2)
  else some (-1, files, ⟨[], [], [], []⟩)

inductive Pc where
  | loop | peeked
  | rearming (k : Nat)
  | seeing | done
deriving DecidableEq

/-- `out` is what was written, by file, and `errors` the codes printed. `handled` are
the completions gone through. -/
structure State where
  pc : Pc
  numFiles : Int32
  files : Nat → FileInfo
  ring : Ring
  out : List (Nat × List UInt8)
  errors : List Int32
  handled : List Cqe

/-- The kernel does `take` and `complete`, and `my_fread` the rest. -/
inductive Action where
  | poll | handle | rearm | seen | take
  | complete (k : Nat) (res : Int32)

/-- A read fails, finds the end of the file, or gets any number of the bytes that
start where it was to read. -/
def Answers (content : List UInt8) (sqe : Sqe) (res : Int32) : Prop :=
  let off := sqe.off.toInt.toNat
  res < 0 ∨ (res = 0 ∧ content.length ≤ off) ∨
    (0 < res ∧ res.toInt ≤ sqe.len.toNat ∧ off + res.toInt.toNat ≤ content.length)

instance (content : List UInt8) (sqe : Sqe) (res : Int32) : Decidable (Answers content sqe res) :=
  inferInstanceAs (Decidable (_ ∨ _ ∨ _))

def step (contents : Nat → List UInt8) (s : State) : Action → Option State
  | .poll =>
    if s.pc = .loop then
      if 0 < s.numFiles then
        match s.ring.cq with
        | [] => some s
        | _ :: _ => some { s with pc := .peeked }
      else some { s with pc := .done }
    else none
  | .handle =>
    if s.pc = .peeked then
      match s.ring.cq with
      | [] => none
      | c :: _ =>
        let fi := s.files c.userData
        if c.res < 0 then
          some { s with
            pc := .seeing
            numFiles := s.numFiles - 1
            errors := s.errors ++ [-c.res]
            handled := s.handled ++ [c] }
        else if 0 < c.res then
          some { s with
            pc := .rearming c.userData
            out := s.out ++ [(c.userData, fi.buf.bytes.take c.res.toInt.toNat)]
            files := setFile s.files c.userData { fi with offset := fi.offset + c.res.toInt64 }
            handled := s.handled ++ [c] }
        else some { s with pc := .seeing, numFiles := s.numFiles - 1, handled := s.handled ++ [c] }
    else none
  | .rearm =>
    match s.pc with
    | .rearming k => some { s with pc := .seeing, ring := setupRead s.ring k (s.files k) }
    | _ => none
  | .seen =>
    if s.pc = .seeing then some { s with pc := .loop, ring := { s.ring with cq := s.ring.cq.tail } }
    else none
  | .take =>
    match s.ring.published with
    | [] => none
    | sqe :: rest =>
      some { s with ring := { s.ring with published := rest, inFlight := s.ring.inFlight ++ [sqe] } }
  | .complete k res =>
    match s.ring.inFlight[k]? with
    | none => none
    | some sqe =>
      if Answers (contents sqe.fd) sqe res then
        let data := ((contents sqe.fd).drop sqe.off.toInt.toNat).take res.toInt.toNat
        let fi := s.files sqe.addr
        some { s with
          files := setFile s.files sqe.addr { fi with buf := fi.buf.fill data }
          ring := { s.ring with
            inFlight := s.ring.inFlight.eraseIdx k
            cq := s.ring.cq ++ [⟨sqe.userData, res⟩] } }
      else none

def start (numFiles : Int32) (files : Nat → FileInfo) (ring : Ring) : State where
  pc := .loop
  numFiles := numFiles
  files := files
  ring := ring
  out := []
  errors := []
  handled := []

end Polling

end IoUring
