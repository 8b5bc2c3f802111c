import IoUring.Holding
import IoUring.ParallelFor

/-! The programs whose device fills memory that the host writes to a file:
omp_io_uring_ptr.c, omp_io_uring_atomic.c and omp_sync_task.cpp. -/

namespace IoUring

namespace Device

/-- An `int` in memory, its lowest byte first. -/
structure Word where
  b0 : UInt8
  b1 : UInt8
  b2 : UInt8
  b3 : UInt8
deriving DecidableEq

def Word.ofInt32 (x : Int32) : Word :=
  let u := x.toUInt32
  ⟨u.toUInt8, (u >>> 8).toUInt8, (u >>> 16).toUInt8, (u >>> 24).toUInt8⟩

def Word.toInt32 (w : Word) : Int32 :=
  (w.b0.toUInt32 ||| w.b1.toUInt32 <<< 8 ||| w.b2.toUInt32 <<< 16 ||| w.b3.toUInt32 <<< 24).toInt32

def Word.bytes (w : Word) : List UInt8 := [w.b0, w.b1, w.b2, w.b3]

/-- `shared_ptr`. -/
abbrev Memory := Nat → Word

/-- The first `n` elements. -/
def Memory.bytes (mem : Memory) (n : Nat) : List UInt8 :=
  (List.range n).flatMap fun i => (mem i).bytes

/-- The memory with the bytes of a read at its start. -/
def Memory.store (mem : Memory) (data : List UInt8) : Memory := fun i =>
  ⟨data.getD (4 * i) (mem i).b0, data.getD (4 * i + 1) (mem i).b1,
    data.getD (4 * i + 2) (mem i).b2, data.getD (4 * i + 3) (mem i).b3⟩

inductive Kind where
  | memory | descriptor | ring
deriving DecidableEq

inductive Deallocator where
  | ompFree | close | queueExit
deriving DecidableEq

def Kind.deallocator : Kind → Deallocator
  | .memory => .ompFree
  | .descriptor => .close
  | .ring => .queueExit

abbrev World := Holding.World Kind Deallocator

abbrev Prog := Holding.Prog Kind Deallocator

/-- The answers to the calls around one request. `res` is that of its completion, and `content`
is what the file holds that is read. -/
structure Answers where
  openFile : Bool
  queueInit : Int32
  res : Int32
  strerror : Int32 → String
  content : List UInt8

/-- What is printed of the completion of a write. -/
def Answers.message (a : Answers) (success : String) : String :=
  if a.res < 0 then "io_uring write failed: " ++ a.strerror (-a.res) else success

/-- `omp_alloc`, whose result is not tested. -/
def ompAlloc (ok : Bool) : Prog (Held Kind) := do
  let some ptr ← Holding.tryAcquire ok .memory | throw .nullPointer
  pure ptr

/-- The last part of `main`, which is the same in two programs, with the status and the
contents of output.bin if it was opened. -/
def writeOutput (a : Answers) (ptr : Held Kind) (data : List UInt8) :
    Prog (Int32 × Option (List UInt8)) := do
  let some fd ← Holding.tryAcquire a.openFile .descriptor | do
    Holding.report "Failed to open file"
    Holding.releaseAll [(ptr, .ompFree)]
    pure (1, none)
  let some ring ← Holding.tryAcquire (a.queueInit = 0) .ring | do
    Holding.report "io_uring setup failed"
    Holding.releaseAll [(fd, .close), (ptr, .ompFree)]
    -- open has truncated the file
    pure (1, some [])
  Holding.report (a.message "Write completed successfully")
  Holding.releaseAll [(fd, .close), (ring, .queueExit), (ptr, .ompFree)]
  pure (0, some (data.take a.res.toInt.toNat))

end Device

open Device

namespace Ptr

def n : Nat := 64

/-- The iterations of the device on `0 .. n - 1` in the order of the schedule. They only store:
what an iteration loads before, it does not use. -/
def fill (schedule : List Nat) (mem : Memory) : Memory :=
  ParallelFor.run id (fun _ _ => Word.ofInt32 1) mem schedule

def sum (mem : Memory) : Int32 := (List.range n).foldl (fun s i => s + (mem i).toInt32) 0

def main (alloc : Bool) (schedule : List Nat) (mem : Memory) (a : Answers) :
    Prog (Int32 × Option (List UInt8)) := do
  let ptr ← Device.ompAlloc alloc
  let mem := fill schedule mem
  if sum mem = Int32.ofNat n then
    Holding.report "PASS"
    writeOutput a ptr (mem.bytes n)
  else
    Holding.report "FAIL"
    Holding.releaseAll [(ptr, .ompFree)]
    pure (1, none)

end Ptr

namespace Atomic

def n : Nat := 64

def bufferSize : Nat := 1024

/-- The iterations of the device on `0 .. bufferSize - 1` in the order of the schedule. -/
def fill (schedule : List Nat) (mem : Memory) : Memory :=
  ParallelFor.run id (fun _ _ => Word.ofInt32 0) mem schedule

/-- The writes that are left, with `write_pos`. -/
def simulate : Nat → Nat → Memory → Memory
  | 0, _, mem => mem
  | left + 1, writePos, mem =>
    simulate left (writePos + 1) (Function.update mem (writePos % bufferSize) (Word.ofInt32 1))

def main (alloc : Bool) (schedule : List Nat) (mem : Memory) (a : Answers) :
    Prog (Int32 × Option (List UInt8)) := do
  let ptr ← Device.ompAlloc alloc
  writeOutput a ptr ((simulate n 0 (fill schedule mem)).bytes bufferSize)

end Atomic

namespace SyncTask

def bufferSize : Nat := 1024

def numTeams : Nat := 4

def threadsPerTeam : Nat := 4

/-- What one turn of the loop of `main` meets: the orders of the iterations, the place where the
target region runs, and the answers to the calls. -/
structure Turn where
  teams : List (Nat × Nat)
  elements : List Nat
  initialDevice : Bool
  answers : Answers

/-- An access through `shared_ptr`. -/
def deref (ptr : Option (Held Device.Kind)) : Prog Unit :=
  if ptr.isSome then pure () else throw .nullPointer

/-- The element of an iteration of `perform`. -/
def index (i : Nat × Nat) : Nat := i.1 * threadsPerTeam + i.2

/-- The iterations of `perform` are pairs of a team and a thread. One that fails the test
`index < size` makes no access. -/
def fill (schedule : List (Nat × Nat)) (mem : Memory) : Memory :=
  ParallelFor.run index (fun _ _ => Word.ofInt32 1) mem
    (schedule.filter fun i => index i < bufferSize)

/-- The iterations of `increment`. -/
def addOne (schedule : List Nat) (mem : Memory) : Memory :=
  ParallelFor.run id (fun _ w => Word.ofInt32 (w.toInt32 + 1)) mem schedule

/-- The language gives no meaning to the sum `INT_MAX + 1`. -/
def increment (ptr : Option (Held Device.Kind)) (schedule : List Nat) (mem : Memory) :
    Prog Memory := do
  deref ptr
  if ∃ i < bufferSize, (mem i).toInt32 = Int32.maxValue then throw .overflow
  pure (addOne schedule mem)

/-- The memory and the contents of output.bin. -/
structure State where
  shared : Memory
  output : Option (List UInt8)

/-- `process` -/
def process (a : Answers) (s : State) : Prog State := do
  let some fd ← Holding.tryAcquire a.openFile .descriptor | do
    Holding.report "Failed to open file"
    pure s
  let some ring ← Holding.tryAcquire (a.queueInit = 0) .ring | do
    Holding.report "io_uring setup failed"
    Holding.releaseAll [(fd, .close)]
    pure { s with output := some [] }
  Holding.report (a.message "Write to output.bin completed successfully")
  Holding.releaseAll [(fd, .close), (ring, .queueExit)]
  pure { s with output := some ((s.shared.bytes bufferSize).take a.res.toInt.toNat) }

/-- `perform`, with `submit_io_task`. -/
def perform (ptr : Option (Held Device.Kind)) (t : Turn) (s : State) : Prog State := do
  deref ptr
  let s := { s with shared := fill t.teams s.shared }
  Holding.report (if t.initialDevice then "Running on the CPU" else "Running on the GPU")
  process t.answers s

/-- The elements as they are printed. -/
def listing (mem : Memory) : String :=
  String.join ((List.range bufferSize).map fun i => toString (mem i).toInt32 ++ " ")

/-- What the read of the file leaves in memory. -/
def loaded (a : Answers) (mem : Memory) : Memory :=
  mem.store (a.content.take (min a.res.toInt.toNat (4 * bufferSize)))

/-- `readAndModify` of a file other than output.bin. -/
def readAndModify (ptr : Option (Held Device.Kind)) (t : Turn) (s : State) : Prog State := do
  let some fd ← Holding.tryAcquire t.answers.openFile .descriptor | do
    Holding.report "Failed to open file for reading"
    pure s
  let some ring ← Holding.tryAcquire (t.answers.queueInit = 0) .ring | do
    Holding.report "io_uring setup failed for reading"
    Holding.releaseAll [(fd, .close)]
    pure s
  if t.answers.res < 0 then
    Holding.report ("io_uring read failed: " ++ t.answers.strerror (-t.answers.res))
    Holding.releaseAll [(fd, .close), (ring, .queueExit)]
    pure s
  else
    Holding.report "Read from output_4380_0.bin completed successfully. Modifying data..."
    let shared ← increment ptr t.elements (loaded t.answers s.shared)
    Holding.report (listing shared)
    Holding.releaseAll [(fd, .close), (ring, .queueExit)]
    pure { s with shared := shared }

def prompt : String :=
  "Enter 1 to perform operations, 2 to read from file and modify data, any other number to exit: "

/-- The loop of `main` from the turn `k` on, for as many turns as are `left` to look at. What is
entered are numbers: what is none puts 0 in `command`, and at the end of the input `command`
stays as it is. -/
def session (ptr : Option (Held Device.Kind)) (entered : List Int32) (turn : Nat → Turn) :
    Nat → Nat → Int32 → State → Prog State
  | 0, _, _, _ => throw .endless
  | left + 1, k, command, s => do
    Holding.report prompt
    let command := entered.getD k command
    if command = 1 then
      let s ← perform ptr (turn k) s
      session ptr entered turn left (k + 1) command s
    else if command = 2 then
      let s ← readAndModify ptr (turn k) s
      session ptr entered turn left (k + 1) command s
    else
      Holding.report "Exiting program."
      pure s

def main (alloc : Bool) (entered : List Int32) (turn : Nat → Turn) (turns : Nat) (s : State) :
    Prog (Int32 × State) := do
  let ptr ← Holding.tryAcquire alloc .memory
  let s ← session ptr entered turn turns 0 0 s
  -- omp_free takes a null pointer as well
  Holding.releaseAll (ptr.toList.map fun p => (p, .ompFree))
  pure (0, s)

end SyncTask

end IoUring
