import IoUring.Holding
import IoUring.MixedSpec

/-! `my_fopen` and `my_fclose` of io_uring_polling.c and io_uring_poll.cpp, which differ in
how they make their handle, and the loop of `main` that prints what `my_fread` returns. -/

namespace IoUring

namespace Liburing

inductive Kind where
  | ring | stream | handle | buffer
deriving DecidableEq

inductive Deallocator where
  | queueExit | fclose | free | delete
deriving DecidableEq

abbrev World := Holding.World Kind Deallocator

abbrev Prog := Holding.Prog Kind Deallocator

/-- The answers to the calls of one `my_fopen`. -/
structure Outcomes where
  queueInit : Int32
  fopen : Bool
  fileno : Int32
  registerFiles : Int32
  handleAlloc : Bool
  bufferAlloc : Bool

/-- What a handle owns. -/
structure Owned where
  ring : Held Kind
  stream : Held Kind
  addr : Held Kind
  buffer : Held Kind

/-- `my_fopen`, with the allocation of the handle and its deallocator. -/
def openWith (o : Outcomes) (dealloc : Deallocator)
    (newHandle : Held Kind → Held Kind → Prog (Option (Held Kind))) : Prog (Option Owned) := do
  if o.queueInit < 0 then
    Holding.report "io_uring_queue_init_params"
    pure none
  else
    let ring ← Holding.acquire .ring
    let some stream ← Holding.tryAcquire o.fopen .stream | do
      Holding.report "fopen"
      Holding.releaseAll [(ring, .queueExit)]
      pure none
    if o.fileno < 0 then
      Holding.report "fileno"
      Holding.releaseAll [(stream, .fclose), (ring, .queueExit)]
      pure none
    else if o.registerFiles < 0 then
      Holding.report "io_uring_register_files"
      Holding.releaseAll [(stream, .fclose), (ring, .queueExit)]
      pure none
    else
      let some mf ← newHandle ring stream | pure none
      let some buffer ← Holding.tryAcquire o.bufferAlloc .buffer | do
        Holding.report "Failed to allocate buffer"
        Holding.releaseAll [(stream, .fclose), (ring, .queueExit), (mf, dealloc)]
        pure none
      pure (some ⟨ring, stream, mf, buffer⟩)

def closeWith (dealloc : Deallocator) (mf : Owned) : Prog Unit :=
  Holding.releaseAll
    [(mf.stream, .fclose), (mf.buffer, .free), (mf.ring, .queueExit), (mf.addr, dealloc)]

/-- What is printed of a buffer that ends with a zero. -/
def cString (bytes : List UInt8) : List UInt8 := bytes.takeWhile (· ≠ 0)

open SingleVec in
/-- `while ((n = my_fread(buffer, sizeof(char), BUFFER_SIZE, mf)) > 0)` in at most `left`
rounds. `fread i` is the call in the `i`-th round, with `n` and the memory at `buffer`; `none`
stands for a call that does not return. -/
def printLoop {α : Type}
    (fread : Nat → (Nat → UInt8) → α → Option (UInt64 × (Nat → UInt8) × α)) :
    Nat → Nat → (Nat → UInt8) → α → Prog Unit
  | 0, _, _, _ => pure ()
  | left + 1, i, buffer, mf =>
    match fread i buffer mf with
    | none => throw .endless
    | some (n, buffer, mf) =>
      if n > 0 then
        if n < bufferSize then do
          -- buffer[n] = '\0'
          Holding.write (cString ((List.range n.toNat).map buffer))
          printLoop fread left (i + 1) (fun j => if j = n.toNat then 0 else buffer j) mf
        else throw .outOfBounds
      else pure ()

/-- `main`, with its loop. -/
def mainWith (myFopen : Prog (Option Owned)) (loop : Prog Unit) (myFclose : Owned → Prog Unit) :
    Prog Int32 := do
  let some mf ← myFopen | pure 1
  loop
  myFclose mf
  pure 0

end Liburing

open SingleVec

namespace Mixed

def myFopen (o : Liburing.Outcomes) : Liburing.Prog (Option Liburing.Owned) :=
  Liburing.openWith o .free fun ring stream => do
    let some mf ← Holding.tryAcquire o.handleAlloc .handle | do
      Holding.releaseAll [(stream, .fclose), (ring, .queueExit)]
      pure none
    pure (some mf)

def myFclose (mf : Liburing.Owned) : Liburing.Prog Unit := Liburing.closeWith .free mf

def fread (answers : Nat → Answers) (i : Nat) (buffer : Nat → UInt8) (mf : MyFile) :
    Option (UInt64 × (Nat → UInt8) × MyFile) :=
  (myFread (answers i) buffer 1 bufferSize mf).map fun r => (r.ret, r.ptr, r.mf)

/-- `stream` and `handle` are what `my_fopen` leaves in the handle. -/
def main (o : Liburing.Outcomes) (answers : Nat → Answers) (stream : Stream) (handle : Handle)
    (buffer : Nat → UInt8) : Liburing.Prog Int32 :=
  Liburing.mainWith (myFopen o)
    (Liburing.printLoop (fread answers) 10 0 buffer ⟨stream, handle, 0⟩) myFclose

end Mixed

namespace Poll

def myFopen (o : Liburing.Outcomes) : Liburing.Prog (Option Liburing.Owned) :=
  Liburing.openWith o .delete fun _ _ => do
    let some mf ← Holding.tryAcquire o.handleAlloc .handle | throw .badAlloc
    pure (some mf)

def myFclose : Option Liburing.Owned → Liburing.Prog Unit
  | none => pure ()
  | some mf => Liburing.closeWith .delete mf

end Poll

end IoUring
