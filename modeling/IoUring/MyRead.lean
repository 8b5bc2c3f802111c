import IoUring.FillCount
import IoUring.Deferred

/-! My_read.cpp. Its `my_fopen` moves the submitter into the handle and then goes
on with the pointer that it has moved from, so that it never returns a handle. -/

namespace IoUring.MyRead

open EarlyExit

/-- `resize`: there is memory for the elements of the vector. -/
structure Answers extends Deferred.Answers where
  resize : Bool

/-- How the program ends early: as in `Stop`, by an exception that nothing
catches, or by a `delete` of what is not allocated. -/
inductive Stop where
  | sys (e : IoUring.Stop)
  | terminate
  | doubleFree

abbrev Prog := EStateM Stop World

def lift {α : Type} (x : Sys α) : Prog α := fun w =>
  match x w with
  | .ok a w => .ok a w
  | .error e w => .error (.sys e) w

/-- The objects of `make_unique` take the place of the shared allocations. -/
def makeUnique (ok : Bool) : Prog Ptr :=
  if ok then lift (acquire .shared) else throw .terminate

def delete (p : Ptr) : Prog Unit := fun w =>
  if p ∈ w.ledger.live then .ok () { w with ledger := w.ledger.release p .free }
  else .error .doubleFree w

/-- `return nullptr`, behind the destructors of what is still owned. -/
def giveUp {α : Type} (owned : List Ptr) : Prog α := do
  owned.forM delete
  throw (.sys .null)

/-- `for (int i = 0; i < blocks; ++i)`. `none` is a failed `posix_memalign`. The
buffer is the first `iov_len` bytes of the page. -/
def allocBlocks (a : Answers) : Nat → Nat → Int64 → Prog (Option (List Iovc))
  | 0, _, _ => pure (some [])
  | blocks + 1, i, bytesRemaining =>
    let bytesToRead := if bytesRemaining > blockSz then blockSz else bytesRemaining
    match a.memalign i with
    | none => do
      lift (report "Memory alignment error.\n")
      pure none
    | some page => do
      let buf ← lift (acquire .aligned)
      let rest ← allocBlocks a blocks (i + 1) (bytesRemaining - bytesToRead)
      pure (rest.map (⟨buf, page, bytesToRead.toUInt64⟩ :: ·))

def wakeKernel (a : Answers) (owned : List Ptr) : Prog Unit :=
  if a.sqFlags &&& 1 ≠ 0 then do
    lift countSystemCall
    if a.enter then pure ()
    else do
      lift (report "io_uring_enter")
      giveUp owned
  else pure ()

/-- `my_fopen` up to the size of the file. -/
def openInput (a : Answers) : Prog (Ptr × Submitter × Ptr × Int64) := do
  let s ← makeUnique a.submitterAlloc
  let some sub ← lift (appSetupUring a.host (some s)) | do
    lift (report "Unable to setup uring!\n")
    giveUp [s]
  let some fp ← lift (tryAcquire a.fopen .file) | do
    lift (report "Fopen Failed!\n")
    giveUp [s]
  if a.fileno then do
    let fileSz ← lift (Deferred.getFileSize a.toAnswers)
    if fileSz < 0 then giveUp [s] else pure (s, sub, fp, fileSz)
  else do
    lift (report "Invalid file descriptor.\n")
    giveUp [s]

/-- A negative count is no size for `resize`. -/
def myFopen (a : Answers) : Prog MyFile := do
  let (s, sub, fp, fileSz) ← openInput a
  let blocks := blockCount fileSz
  let fi ← makeUnique a.fileInfoAlloc
  if blocks < 0 ∨ a.resize = false then throw .terminate
  else
    let some iovecs ← allocBlocks a blocks.toInt.toNat 0 fileSz | giveUp [fi, s]
    let mf ← makeUnique a.myFileAlloc
    let owned := [fi, s, mf]
    -- `mf->s = std::move(s)` leaves a null pointer in `s`
    let s : Option Ptr := none
    -- `*s->sq_ring.ring_mask`
    let _ ← lift (deref s)
    let handle := submitReadv
      { addr := mf
        fd := fp
        blocks := blocks
        currentBlock := 0
        isfirst := 0
        currentOffset := 0
        s := sub
        fiRead := none
        fi := ⟨fi, fileSz, iovecs⟩ }
    wakeKernel a owned
    pure handle

def orNull {α : Type} (x : Prog α) : Prog (Option α) := fun w =>
  match x w with
  | .ok a w => .ok (some a) w
  | .error (.sys .null) w => .ok none w
  | .error e w => .error e w

/-- `readAll` is what `cat` does with a handle. Without one it goes on to
`my_fread(buffer, 1, 1024, nullptr)`. -/
def cat (readAll : MyFile → Prog Unit) (a : Answers) : Prog Unit := do
  let mf ← orNull (myFopen a)
  match mf with
  | none => do
    lift (report "Failed to open file.")
    throw (.sys (.fault .nullDeref))
  | some mf => readAll mf

/-- One element of `files` for each argument behind the program's name. -/
def main (readAll : MyFile → Prog Unit) (program seconds : String) (files : List Answers) :
    Prog Int32 :=
  if files = [] then do
    lift (report ("Usage: " ++ program ++ " <filename>\n"))
    pure 1
  else do
    modify fun w => { w with systemTimes := 0 }
    files.forM (cat readAll)
    lift (report ("Total time: " ++ seconds ++ " seconds\n"))
    let w ← get
    lift (report ("Use io_uring_enter system call times = " ++ toString w.systemTimes ++ "\n"))
    pure 0

end IoUring.MyRead
