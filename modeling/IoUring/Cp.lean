import IoUring.OpenSpec
import IoUring.Runs

/-! The copy loop of example/io_uring_cp.c. It keeps one request under way at a
time, always in the first submission entry, and reads and writes through one
buffer of `FILE_BLOCK_SIZE` bytes. -/

namespace IoUring

namespace Cp

/-- `#define FILE_BLOCK_SIZE 4096`. -/
abbrev fileBlockSize : Int64 := 4096

inductive Fd where
  | src | dst
deriving DecidableEq

inductive Opcode where
  | readv | writev
deriving DecidableEq

/-- The one entry that the program fills. It always names the one iovec. -/
structure Sqe where
  fd : Fd
  opcode : Opcode
  off : Int64
  userData : UInt64

structure Cqe where
  userData : UInt64
  res : Int32

/-- The source with the size that `fstat` reported, and the sizes of the rings that
`io_uring_setup` created. -/
structure Job where
  src : List UInt8
  fileSize : Int64
  sqEntries : UInt32
  cqEntries : UInt32

inductive Pc where
  | loop | enterRead | waitRead | prepareWrite | enterWrite | waitWrite
  | done
  | died (msg : String)
deriving DecidableEq

/-- `unconsumed` counts the requests published that the kernel has not taken, and
`executed` those it has completed. -/
structure State where
  pc : Pc
  offset : Int64
  iovLen : Int64
  bytesRead : Int32
  buffer : Page
  sqe : Sqe
  dst : List UInt8
  sqHead : UInt32
  sqTail : UInt32
  unconsumed : Nat
  cqHead : UInt32
  cqTail : UInt32
  cqes : UInt32 → Cqe
  executed : Nat

/-- `execute res` is the work of the kernel during `io_uring_enter`. -/
inductive Action where
  | submitRead | reapRead | submitWrite | reapWrite | exit
  | execute (res : Int32)

/-- `pwrite(2)`: a gap behind the end of the file reads as zeros. -/
def pwrite (dst : List UInt8) (off : Nat) (data : List UInt8) : List UInt8 :=
  if data = [] then dst
  else
    (dst ++ List.replicate (off - dst.length) 0).take off ++ data ++ dst.drop (off + data.length)

/-- The assignments to `*sqe`, and `*sq_tail = (*sq_tail + 1) % params.sq_entries`. -/
def publish (job : Job) (sqe : Sqe) (s : State) : State :=
  { s with
    sqe := sqe
    sqTail := (s.sqTail + 1) % job.sqEntries
    unconsumed := s.unconsumed + 1 }

def postCqe (job : Job) (res : Int32) (s : State) : State :=
  { s with
    sqHead := s.sqHead + 1
    unconsumed := s.unconsumed - 1
    cqes := fun i =>
      if i = s.cqTail % job.cqEntries then ⟨s.sqe.userData, res⟩ else s.cqes i
    cqTail := s.cqTail + 1
    executed := s.executed + 1 }

/-- A request fails or transfers a prefix of what was asked for; a read finds no
more than the source has. -/
def execute (job : Job) (res : Int32) (s : State) : Option State :=
  let off := s.sqe.off.toInt.toNat
  let n := res.toInt.toNat
  if res < 0 then some (postCqe job res s)
  else if s.iovLen.toInt < res.toInt then none
  else
    match s.sqe.opcode with
    | .readv =>
      if job.src.length < off + n then none
      else some { postCqe job res s with buffer := s.buffer.fill ((job.src.drop off).take n) }
    | .writev => some { postCqe job res s with dst := pwrite s.dst off (s.buffer.bytes.take n) }

theorem execute_readv {job : Job} {res : Int32} {s : State} (hop : s.sqe.opcode = .readv)
    (hpos : ¬ res < 0) (hle : res.toInt ≤ s.iovLen.toInt)
    (hsrc : s.sqe.off.toInt.toNat + res.toInt.toNat ≤ job.src.length) :
    execute job res s = some { postCqe job res s with
      buffer := s.buffer.fill ((job.src.drop s.sqe.off.toInt.toNat).take res.toInt.toNat) } := by
  simp only [execute, if_neg hpos, if_neg (not_lt.mpr hle), hop, if_neg (not_lt.mpr hsrc)]

theorem execute_writev {job : Job} {res : Int32} {s : State} (hop : s.sqe.opcode = .writev)
    (hpos : ¬ res < 0) (hle : res.toInt ≤ s.iovLen.toInt) :
    execute job res s = some { postCqe job res s with
      dst := pwrite s.dst s.sqe.off.toInt.toNat (s.buffer.bytes.take res.toInt.toNat) } := by
  simp only [execute, if_neg hpos, if_neg (not_lt.mpr hle), hop]

def State.cqe (s : State) (job : Job) : Cqe := s.cqes (s.cqHead % job.cqEntries)

theorem cqe_postCqe (job : Job) {s : State} (res : Int32) (h : s.cqTail = s.cqHead) :
    (postCqe job res s).cqe job = ⟨s.sqe.userData, res⟩ := by
  simp only [State.cqe, postCqe, h, if_true]

def step (job : Job) (s : State) : Action → Option State
  | .submitRead =>
    if s.pc = .loop ∧ s.offset < job.fileSize then
      let bytesToRead :=
        if job.fileSize - s.offset > fileBlockSize then fileBlockSize else job.fileSize - s.offset
      some { publish job ⟨.src, .readv, s.offset, 1⟩ s with pc := .enterRead, iovLen := bytesToRead }
    else none
  | .exit => if s.pc = .loop ∧ ¬ s.offset < job.fileSize then some { s with pc := .done } else none
  | .execute res =>
    if s.pc = .enterRead then (execute job res s).map fun s => { s with pc := .waitRead }
    else if s.pc = .enterWrite then (execute job res s).map fun s => { s with pc := .waitWrite }
    else none
  | .reapRead =>
    if s.pc = .waitRead ∧ s.cqHead ≠ s.cqTail then
      if (s.cqe job).res < 0 then some { s with pc := .died "Read failed" }
      else
        some { s with pc := .prepareWrite, bytesRead := (s.cqe job).res, cqHead := s.cqHead + 1 }
    else none
  | .submitWrite =>
    if s.pc = .prepareWrite then
      some { publish job ⟨.dst, .writev, s.offset, 2⟩ s with pc := .enterWrite }
    else none
  | .reapWrite =>
    if s.pc = .waitWrite ∧ s.cqHead ≠ s.cqTail then
      if (s.cqe job).res < s.bytesRead then some { s with pc := .died "Write failed" }
      else
        some { s with
          pc := .loop
          cqHead := s.cqHead + 1
          offset := s.offset + s.bytesRead.toInt64 }
    else none

/-- After the files are open and the rings created. -/
def start (buffer : Page) (cqes : UInt32 → Cqe) : State where
  pc := .loop
  offset := 0
  iovLen := 0
  bytesRead := 0
  buffer := buffer
  sqe := ⟨.src, .readv, 0, 0⟩
  dst := []
  sqHead := 0
  sqTail := 0
  unconsumed := 0
  cqHead := 0
  cqTail := 0
  cqes := cqes
  executed := 0

end Cp

end IoUring
