import IoUring.DeviceSpec
import IoUring.TextFile

/-! omp_io_uring_writer.c: the device fills an array, which is written line by line. Only the
two allocations are tested. -/

namespace IoUring

namespace Writer

inductive Kind where
  | target | ring | descriptor
deriving DecidableEq

inductive Deallocator where
  | ompTargetFree | free | queueExit | close
deriving DecidableEq

def Kind.deallocator : Kind → Deallocator
  | .target => .ompTargetFree
  | .ring => .queueExit
  | .descriptor => .close

abbrev World := Holding.World Kind Deallocator

abbrev Prog := Holding.Prog Kind Deallocator

structure Outcomes where
  hstAlloc : Bool
  bufferAlloc : Bool
  openFile : Bool
  res : Int32

def n : Nat := 64

/-- The iterations of the device on `0 .. n - 1` in the order of the schedule. -/
def fill (schedule : List Nat) (mem : Nat → Int32) : Nat → Int32 :=
  ParallelFor.run id (fun _ _ => 1) mem schedule

def sum (mem : Nat → Int32) : Int32 := (List.range n).foldl (fun s i => s + mem i) 0

/-- `main`, from a ring that is set up, with the file that it leaves; `old` was there before. -/
def main (schedule : List Nat) (mem : Nat → Int32) (o : Outcomes) (old : Option (List Char)) :
    Prog (Int32 × Option (List Char)) := do
  let some hst ← Holding.tryAcquire o.hstAlloc .target | do
    Holding.report "Failed to allocate memory on the device"
    pure (1, old)
  let mem := fill schedule mem
  let some buffer ← Holding.tryAcquire o.bufferAlloc .target | do
    Holding.report "Failed to allocate memory for buffer"
    Holding.releaseAll [(hst, .ompTargetFree)]
    pure (1, old)
  match TextFile.fill (n * 12) [] ((List.range n).map mem) with
  | none => throw .outOfBounds
  | some text => do
    let ring ← Holding.acquire .ring
    let fd ← Holding.tryAcquire o.openFile .descriptor
    -- without a descriptor the write fails, and so does close
    let file := if fd.isSome then some (text.take o.res.toInt.toNat) else old
    -- the sum is taken before hst_ptr is given back
    Holding.releaseAll ((fd.toList.map fun fd => (fd, .close)) ++
      [(ring, .queueExit), (buffer, .free), (hst, .ompTargetFree)])
    if sum mem = Int32.ofNat n then
      Holding.report "PASS"
    pure (0, file)

open EarlyExit Holding

theorem fill_eq {schedule : List Nat} (h : ParallelFor.Complete (· < n) schedule)
    (mem : Nat → Int32) {i : Nat} (hi : i < n) : fill schedule mem i = 1 :=
  ParallelFor.run_own Function.injective_id.injOn h hi

end Writer

end IoUring
