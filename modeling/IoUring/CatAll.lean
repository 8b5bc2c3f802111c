import IoUring.Balance
import IoUring.Delivery

/-! What main.cpp hands to `write`: what `cat` does of each file, one file behind the other,
whichever of them cannot be opened or read. The lines that are printed through the streams
are not part of it. -/

namespace IoUring

open EarlyExit

section Fopen

/-- Nothing is written, and the only early exit is `return NULL`. -/
abbrev Quiet (out : List UInt8) {α : Type} (x : Sys α) : Prop :=
  Tame (fun w => w.out = out) (· = .null) x

variable {out : List UInt8} {o : Outcomes}

end Fopen

/-- A file, what happens as it is opened, and the buffer of its `cat`. -/
structure Job where
  content : List UInt8
  outcomes : Outcomes
  buffer : Nat → UInt8

/-- The system answers as for a regular file below 2 GiB, and has the memory for the
submitter and for the handle, which `my_fopen` takes without a test. -/
structure Job.Regular (j : Job) : Prop where
  size : j.content.length < 2 ^ 31
  fstat : j.outcomes.fstat = some (Int64.ofNat j.content.length)
  kernel : j.outcomes.kernel = readvRule j.content
  submitterAlloc : j.outcomes.submitterAlloc = true
  myFileAlloc : j.outcomes.myFileAlloc = true

/-- What `cat` writes from the state `w` on: nothing of a file that cannot be opened or that one
request cannot name, and else the file, filled up to whole blocks. -/
inductive Job.Printed (j : Job) (w : World) : List UInt8 → Prop where
  | missing (w' : World) : myFopen j.outcomes "r" w = .error .null w' → j.Printed w []
  | long (mf : MyFile) (w' : World) : myFopen j.outcomes "r" w = .ok mf w' →
      uioMaxiov * 4096 < j.content.length → j.Printed w []
  | whole (mf : MyFile) (w' : World) (out : List UInt8) : myFopen j.outcomes "r" w = .ok mf w' →
      j.content.length ≤ uioMaxiov * 4096 → j.content <+: out →
      out.length = (j.content.length + 4095) / 4096 * 4096 → j.Printed w out

end IoUring
