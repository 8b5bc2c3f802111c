import IoUring.CatAll
import IoUring.PlainCat

/-! main.cpp beside fread.c, the same program without io_uring: when the two hand the same
bytes to `write`. Their lines with the durations go through other calls. -/

namespace IoUring

open EarlyExit

/-- Both programs can open the file of an argument, or neither can. -/
inductive SameFile (j : Job) (o : Plain.Outcomes) : Prop where
  | opened : (∀ w, ∃ mf w', myFopen j.outcomes "r" w = .ok mf w') → o.alloc = true →
      o.content = some j.content → SameFile j o
  | missing : (∀ w, ∃ w', myFopen j.outcomes "r" w = .error .null w') → o.content = none →
      SameFile j o

end IoUring
