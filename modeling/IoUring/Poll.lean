import IoUring.SingleVec
import Mathlib.Algebra.BigOperators.Intervals

/-! example/io_uring_poll.cpp. Every turn of `my_fread` makes a request of its own, and
every request reads at offset 0. -/

namespace IoUring

namespace Poll

open SingleVec

/-- `buffer` is how far the pointer has moved. -/
structure FreadState where
  handle : Handle
  buffer : Nat
  ptr : Nat → UInt8
  totalBytes : UInt64
  bytesRead : UInt64
  reports : List Report

inductive Turn where
  | returned (st : FreadState)
  | brk (st : FreadState)
  | next (st : FreadState)

def freadTurn (a : Answers) (st : FreadState) : Turn :=
  let bytesToRead := if st.totalBytes > bufferSize then bufferSize else st.totalBytes
  match await a st.handle with
  | (.noSqe r, h) => .returned { st with handle := h, reports := st.reports ++ [r] }
  | (.lost r, h) | (.failed r, h) => .brk { st with handle := h, reports := st.reports ++ [r] }
  | (.read res, h) =>
    let n := res.toInt64.toUInt64
    let bytesCopied := if n > bytesToRead then bytesToRead else n
    let data := h.iov.bytes.take bytesCopied.toNat
    .next
      { st with
        handle := h.seen
        buffer := st.buffer + data.length
        ptr := memcpy st.ptr st.buffer data
        totalBytes := st.totalBytes - bytesCopied
        bytesRead := st.bytesRead + bytesCopied }

/-- How the `while (total_bytes > 0)` loop ended: `return bytes_read` from within it, or
its end or a `break`. -/
inductive Ended where
  | returned (st : FreadState)
  | left (st : FreadState)

/-- The loop in at most the given number of turns, `answers i` being those of its `i`-th
turn. -/
def freadLoop : Nat → (Nat → Answers) → FreadState → Option Ended
  | 0, _, _ => none
  | turns + 1, answers, st =>
    if st.totalBytes = 0 then some (.left st)
    else
      match freadTurn (answers 0) st with
      | .returned st => some (.returned st)
      | .brk st => some (.left st)
      | .next st => freadLoop turns (fun i => answers (i + 1)) st

structure FreadResult where
  ret : UInt64
  ptr : Nat → UInt8
  handle : Handle
  reports : List Report

def FreadResult.bytes (r : FreadResult) : List UInt8 := (List.range r.ret.toNat).map r.ptr

def entry (h : Handle) (ptr : Nat → UInt8) (total : UInt64) : FreadState :=
  ⟨h, 0, ptr, total, 0, []⟩

/-- `none` is a loop that takes more turns, or the division of `bytes_read` by 0. -/
def myFread (turns : Nat) (answers : Nat → Answers) (ptr : Nat → UInt8) (size count : UInt64)
    (h : Handle) : Option FreadResult :=
  match freadLoop turns answers (entry h ptr (size * count)) with
  | none => none
  | some (.returned st) => some ⟨st.bytesRead, st.ptr, st.handle, st.reports⟩
  | some (.left st) =>
    if size = 0 then none else some ⟨st.bytesRead / size, st.ptr, st.handle, st.reports⟩

theorem freadTurn_failed {a : Answers} (h : ¬ a.Succeeds) (st : FreadState) :
    (∃ st', freadTurn a st = .returned st') ∨ ∃ st', freadTurn a st = .brk st' := by
  obtain ⟨r, hd, hawait⟩ := await_fails h st.handle
  rw [freadTurn]
  split at hawait
  · rcases hawait with hlost | hfailed
    · exact Or.inr ⟨_, by rw [hlost]⟩
    · exact Or.inr ⟨_, by rw [hfailed]⟩
  · exact Or.inl ⟨_, by rw [hawait]⟩

/-- What a turn takes of `total` bytes wanted. -/
def share (a : Answers) (total : Nat) : Nat := min a.count (min total 1024)

structure Took (a : Answers) (st st' : FreadState) : Prop where
  totalBytes : st'.totalBytes.toNat = st.totalBytes.toNat - share a st.totalBytes.toNat
  bytesRead : st'.bytesRead = st.bytesRead + UInt64.ofNat (share a st.totalBytes.toNat)
  buffer : st'.buffer = st.buffer + share a st.totalBytes.toNat
  ptr : st'.ptr = memcpy st.ptr st.buffer
    ((st.handle.iov.fill (a.kernel readv).data).bytes.take (share a st.totalBytes.toNat))

theorem freadTurn_succeeds {a : Answers} (h : a.Succeeds) (st : FreadState) :
    ∃ st', freadTurn a st = .next st' ∧ Took a st st' := by
  let bytesToRead : UInt64 := if st.totalBytes > bufferSize then bufferSize else st.totalBytes
  let n : UInt64 := (a.kernel readv).res.toInt64.toUInt64
  let c : UInt64 := if n > bytesToRead then bytesToRead else n
  have hread : bytesToRead.toNat = min st.totalBytes.toNat 1024 :=
    toNat_ite_gt st.totalBytes bufferSize
  have hn : n.toNat = a.count := toNat_count a h
  have hc : c.toNat = share a st.totalBytes.toNat := by
    rw [share, ← hread, ← hn]
    exact toNat_ite_gt n bytesToRead
  have hle : share a st.totalBytes.toNat ≤ min st.totalBytes.toNat 1024 := Nat.min_le_right _ _
  have hlen : ((st.handle.iov.fill (a.kernel readv).data).bytes.take c.toNat).length =
      c.toNat := by
    rw [List.length_take, (st.handle.iov.fill _).length_bytes]
    exact Nat.min_eq_left (show c.toNat ≤ 1024 by omega)
  have hturn := await_succeeds h st.handle
  refine ⟨_, by rw [freadTurn, hturn], ?_, ?_, ?_, ?_⟩
  · change (st.totalBytes - c).toNat = _
    rw [UInt64.toNat_sub_of_le _ _ (UInt64.le_iff_toNat_le.mpr (by omega)), hc]
  · change st.bytesRead + c = _
    rw [← hc, UInt64.ofNat_toNat]
  · change st.buffer + ((st.handle.iov.fill _).bytes.take c.toNat).length = _
    rw [hlen, hc]
  · rw [← hc]

/-- What the first `n` completions bring, each no more than the buffer holds. -/
def brought (answers : Nat → Answers) (n : Nat) : Nat :=
  ∑ i ∈ Finset.range n, min (answers i).count 1024

theorem brought_succ (answers : Nat → Answers) (n : Nat) :
    brought answers (n + 1) =
      min (answers 0).count 1024 + brought (fun i => answers (i + 1)) n := by
  rw [brought, Finset.sum_range_succ', add_comm]
  rfl

theorem freadLoop_one {answers : Nat → Answers} {st : FreadState}
    (h : st.totalBytes = 0 ∨ ¬ (answers 0).Succeeds) : ∃ e, freadLoop 1 answers st = some e := by
  rw [freadLoop]
  by_cases hz : st.totalBytes = 0
  · exact ⟨_, if_pos hz⟩
  · rw [if_neg hz]
    rcases freadTurn_failed (h.resolve_left hz) st with ⟨st', hturn⟩ | ⟨st', hturn⟩
    · exact ⟨_, by rw [hturn]⟩
    · exact ⟨_, by rw [hturn]⟩

/-- The loop ends exactly when a request fails or the completions bring all that is
wanted. -/
theorem freadLoop_ends_iff {answers : Nat → Answers} {st : FreadState} :
    (∃ turns e, freadLoop turns answers st = some e) ↔
      ∃ n, ¬ (answers n).Succeeds ∨ st.totalBytes.toNat ≤ brought answers n := by
  constructor
  · rintro ⟨turns, e, hrun⟩
    induction turns generalizing answers st with
    | zero => cases hrun
    | succ turns ih =>
      by_cases hz : st.totalBytes = 0
      · exact ⟨0, Or.inr (by rw [hz]; exact Nat.zero_le _)⟩
      · by_cases hok : (answers 0).Succeeds
        · obtain ⟨st', hturn, ht⟩ := freadTurn_succeeds hok st
          rw [freadLoop, if_neg hz, hturn] at hrun
          obtain ⟨n, hn⟩ := ih hrun
          refine ⟨n + 1, hn.imp_right ?_⟩
          rw [brought_succ, ht.totalBytes, share]
          omega
        · exact ⟨0, Or.inl hok⟩
  · rintro ⟨n, hn⟩
    induction n generalizing answers st with
    | zero =>
      refine ⟨1, freadLoop_one ?_⟩
      rcases hn with hfail | hle
      · exact Or.inr hfail
      · exact Or.inl (UInt64.toNat_inj.mp (Nat.le_zero.mp hle))
    | succ n ih =>
      by_cases hnow : st.totalBytes = 0 ∨ ¬ (answers 0).Succeeds
      · exact ⟨1, freadLoop_one hnow⟩
      · obtain ⟨hz, hok⟩ := not_or.mp hnow
        obtain ⟨st', hturn, ht⟩ := freadTurn_succeeds (not_not.mp hok) st
        have hn' : ¬ (answers (n + 1)).Succeeds ∨
            st'.totalBytes.toNat ≤ brought (fun i => answers (i + 1)) n := by
          refine hn.imp_right ?_
          rw [brought_succ, ht.totalBytes, share]
          omega
        obtain ⟨turns, e, hrun⟩ := @ih (fun i => answers (i + 1)) st' hn'
        exact ⟨turns + 1, e, by rw [freadLoop, if_neg hz, hturn]; exact hrun⟩

end Poll

end IoUring
