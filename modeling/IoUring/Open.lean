import IoUring.EarlyExit
import IoUring.Fread
import Mathlib.Algebra.BigOperators.Intervals

/-! `my_fopen`, `app_setup_uring` and `my_fclose` of host.cpp and `cat` of
main.cpp, over a world that records which resources are live. What the kernel
and the allocators answer during one `my_fopen` is a parameter. -/

namespace IoUring

inductive Fault where
  | nullDeref | outOfBounds | diverged
deriving DecidableEq

/-- Why a function ended early: `return NULL`, or undefined behaviour. -/
inductive Stop where
  | null
  | fault (f : Fault)
deriving DecidableEq

structure World where
  ledger : Ledger Kind Deallocator
  log : List String
  out : List UInt8
  systemTimes : Int32

abbrev Sys := EStateM Stop World

inductive OpenFlags where
  | rdonly | rdwr
deriving DecidableEq

/-- What `io_uring_setup` fills in, with the rings as the kernel creates them:
empty, both counters of a ring at the same value. -/
structure Params where
  sqEntries : UInt32
  cqEntries : UInt32
  features : UInt32
  sqStart : UInt32
  cqStart : UInt32
  array : UInt32 → UInt32
  sqes : UInt32 → Sqe
  cqes : UInt32 → Cqe

/-- The answers of the kernel and of the allocators during one `my_fopen`, the name of the file
and the time that the loop of `cat` takes, as it is printed. -/
structure Outcomes where
  filename : String
  duration : String
  submitterAlloc : Bool
  ringSetup : Option Params
  mmapSq : Bool
  mmapCq : Bool
  mmapSqes : Bool
  openFile : OpenFlags → Bool
  fstat : Option Int64
  registerFiles : Bool
  fileInfoAlloc : Bool
  myFileAlloc : Bool
  memalign : Nat → Option Page
  sqFlags : UInt32
  enter : Bool
  kernel : Sqe → Completion

def acquire (k : Kind) : Sys Resource := fun w =>
  .ok (w.ledger.upcoming k) { w with ledger := w.ledger.acquire k }

def release (r : Resource) (d : Deallocator) : Sys Unit := fun w =>
  .ok () { w with ledger := w.ledger.release r d }

def report (msg : String) : Sys Unit := fun w => .ok () { w with log := w.log ++ [msg] }

def write (bytes : List UInt8) : Sys Unit := fun w => .ok () { w with out := w.out ++ bytes }

def countSystemCall : Sys Unit := fun w => .ok () { w with systemTimes := w.systemTimes + 1 }

def fail {α : Type} (msg : String) : Sys α := do
  report msg
  throw .null

def tryAcquire (ok : Bool) (k : Kind) : Sys (Option Resource) :=
  if ok then do
    let r ← acquire k
    pure (some r)
  else pure none

/-- No object is larger than `PTRDIFF_MAX`. -/
def ompAlloc (size : UInt64) (ok : Bool) : Sys (Option Resource) :=
  tryAcquire (ok && decide (size.toNat < 2 ^ 63)) .shared

def deref : Option Ptr → Sys Ptr
  | some r => pure r
  | none => throw (.fault .nullDeref)

/-- `free` and `omp_free` do nothing on a null pointer. -/
def releasePtr (p : Option Ptr) (d : Deallocator) : Sys Unit :=
  match p with
  | some r => release r d
  | none => pure ()

/-- With `IORING_FEAT_SINGLE_MMAP` the mapping of the submission ring serves both
rings. -/
def mapCqRing (o : Outcomes) (p : Params) (sqMap : Resource) : Sys (Option Resource) :=
  if p.features &&& 1 ≠ 0 then pure (some sqMap) else tryAcquire o.mmapCq .mapping

/-- `none` is the return value 1. The first step clears `*s`. -/
def appSetupUring (o : Outcomes) (s : Option Ptr) : Sys (Option Submitter) := do
  let s ← deref s
  let some p := o.ringSetup | do
    report "io_uring_setup"
    pure none
  let ringFd ← acquire .ring
  let some sqMap ← tryAcquire o.mmapSq .mapping | do
    report "mmap"
    pure none
  let some cqMap ← mapCqRing o p sqMap | do
    report "mmap"
    pure none
  let some sqesMap ← tryAcquire o.mmapSqes .mapping | do
    report "mmap"
    pure none
  pure (some
    { addr := s
      ringFd := ringFd
      sqRing := ⟨p.sqStart, p.sqStart, p.sqEntries - 1, p.sqEntries, 0, p.array⟩
      sqes := p.sqes
      cqRing := ⟨p.cqStart, p.cqStart, p.cqEntries - 1, p.cqEntries, p.cqes⟩
      sqMap := sqMap
      cqMap := cqMap
      sqesMap := sqesMap })

def getFileSize (o : Outcomes) : Sys Int64 :=
  match o.fstat with
  | none => do
    report "fstat"
    pure (-1)
  | some size => pure size

/-- `int blocks = (int)file_sz / BLOCK_SZ; if (file_sz % BLOCK_SZ) blocks++;` -/
def blockCount (fileSz : Int64) : Int32 :=
  let blocks := fileSz.toInt32 / blockSz
  if fileSz % blockSz ≠ 0 then blocks + 1 else blocks

def fileInfoSize (blocks : Int32) : UInt64 := 8 + 16 * blocks.toInt64.toUInt64

/-- The `while (bytes_remaining)` loop, in at most the given number of turns. A
store behind the `size` bytes allocated for `*fi` is undefined. -/
def fillIovecs (o : Outcomes) (size : UInt64) :
    Nat → Int64 → UInt32 → List Iovc → Sys (List Iovc)
  | 0, _, _, _ => throw (.fault .diverged)
  | turns + 1, bytesRemaining, currentBlock, iovecs =>
    if bytesRemaining = 0 then pure iovecs
    else
      let bytesToRead := if bytesRemaining > blockSz then blockSz else bytesRemaining
      if 8 + 16 * (currentBlock.toNat + 1) > size.toNat then throw (.fault .outOfBounds)
      else
        match o.memalign currentBlock.toNat with
        | none => fail "posix_memalign"
        | some page => do
          let buf ← acquire .aligned
          fillIovecs o size turns (bytesRemaining - bytesToRead) (currentBlock + 1)
            (iovecs ++ [⟨buf, page, bytesToRead.toUInt64⟩])

def submitReadv (mf : MyFile) : MyFile :=
  let sq := mf.s.sqRing
  let nextTail := sq.tail + 1
  let index := sq.tail &&& sq.ringMask
  let sqe : Sqe :=
    { fd := mf.fd
      flags := 0
      opcode := .readv
      addr := mf.fi.addr
      len := mf.blocks.toUInt32
      off := 0
      userData := mf.fi.addr }
  { mf with
    s := { mf.s with
      sqes := fun i => if i = index then sqe else mf.s.sqes i
      sqRing := { sq with
        array := fun i => if i = index then index else sq.array i
        tail := if sq.tail ≠ nextTail then nextTail else sq.tail } } }

def wakeKernel (o : Outcomes) : Sys Unit :=
  if o.sqFlags &&& 1 ≠ 0 then do
    countSystemCall
    if o.enter then pure () else fail "io_uring_enter"
  else pure ()

/-- Its last step waits until the kernel has posted the completion. -/
def myFopen (o : Outcomes) (mode : String) : Sys MyFile := do
  let s ← ompAlloc 104 o.submitterAlloc
  let flags : OpenFlags := if mode = "r" then .rdonly else .rdwr
  let some sub ← appSetupUring o s | do
    report "Unable to setup uring!\n"
    releasePtr s .free
    throw .null
  let some fd ← tryAcquire (o.openFile flags) .file | fail "Fopen failed."
  let fileSz ← getFileSize o
  if fileSz < 0 then throw .null
  else
    let blocks := blockCount fileSz
    if o.registerFiles then
      let size := fileInfoSize blocks
      let some fi ← ompAlloc size o.fileInfoAlloc | fail "Unable to allocate memory\n"
      let mf ← ompAlloc 48 o.myFileAlloc
      let mf ← deref mf
      let iovecs ← fillIovecs o size (fileSz.toInt.toNat / 4096 + 2) fileSz 0 []
      let handle := submitReadv
        { addr := mf
          fd := fd
          blocks := blocks
          currentBlock := 0
          isfirst := 0
          currentOffset := 0
          s := sub
          fiRead := none
          fi := ⟨fi, fileSz, iovecs⟩ }
      wakeKernel o
      pure (completeReadv o.kernel handle)
    else
      report "io_uring_register_fds failed"
      release fd .close
      releasePtr s .ompFree
      throw .null

/-- In a handle of `my_fopen` the tests `fd >= 0`, `fi` and `s` all hold. -/
def myFclose : Option MyFile → Sys Unit
  | none => pure ()
  | some mf => do
    release mf.fd .close
    release mf.fi.addr .ompFree
    release mf.s.addr .ompFree
    release mf.addr .ompFree

def orNull {α : Type} (x : Sys α) : Sys (Option α) := fun w =>
  match x w with
  | .ok a w => .ok (some a) w
  | .error .null w => .ok none w
  | .error e w => .error e w

/-- `while ((bytesRead = my_fread(buffer.get(), sizeof(char), sizeof(buffer), mf)) > 0)`,
where `sizeof(buffer)` is that of the `unique_ptr`. -/
def catLoop : Nat → (Nat → UInt8) → MyFile → Sys MyFile
  | 0, _, _ => throw (.fault .diverged)
  | turns + 1, buffer, mf =>
    match myFread buffer 1 8 mf with
    | none => throw (.fault .outOfBounds)
    | some r =>
      if r.ret > 0 then do
        write r.bytes
        catLoop turns r.ptr r.mf
      else pure r.mf

/-- The line that `cat` prints behind a file. -/
def Outcomes.completed (o : Outcomes) (size : Int64) : String :=
  "\nCompleted reading '" ++ o.filename ++ "': Duration = " ++ o.duration ++
    " seconds, File Size = " ++ toString size ++ " bytes.\n"

def cat (o : Outcomes) (buffer : Nat → UInt8) : Sys Unit := do
  let mf ← orNull (myFopen o "r")
  match mf with
  | none => report "Failed to open file."
  | some mf => do
    let mf ← catLoop (mf.blocks.toUInt32.toNat * 4096 + 1) buffer mf
    report (o.completed mf.fi.fileSz)
    myFclose (some mf)

def catAll : List (Outcomes × (Nat → UInt8)) → Sys Unit
  | [] => pure ()
  | (o, buffer) :: files => do
    cat o buffer
    catAll files

end IoUring
