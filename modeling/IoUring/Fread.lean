import IoUring.Model

/-! `my_fread` of device.cpp. `none` stands for undefined behaviour (a pointer
that points nowhere, a copy that leaves its block) or a loop that does not end. -/

namespace IoUring

/-- One `__builtin_memcpy` of the loop: from offset `src` of a block to offset
`dst` of the destination. -/
structure Copy where
  block : Nat
  src : Nat
  dst : Nat
  len : Nat
deriving DecidableEq

structure FreadState where
  mf : MyFile
  head : UInt32
  index : UInt32
  offset : UInt64
  bytesRead : UInt64
  ptr : Nat → UInt8
  copies : List Copy

inductive Turn where
  | brk (st : FreadState)
  | next (st : FreadState)

def freadCopy (totalBytes : UInt64) (fiRead : Ptr) (st : FreadState) : Option Turn := do
  let fi ← st.mf.deref fiRead
  let iov ← fi.iovecs[st.index.toNat]?
  let blockSize : UInt64 := blockSz - st.offset
  let toCopy := iov.bufferSize
  let remainingSpace := totalBytes - st.bytesRead
  let toCopy := if toCopy > blockSize then blockSize else toCopy
  let toCopy := if toCopy > remainingSpace then remainingSpace else toCopy
  let src ← iov.page.slice st.offset.toNat toCopy.toNat
  let bytesRead := st.bytesRead + toCopy
  let offset := st.offset + toCopy
  let st : FreadState :=
    { st with
      ptr := memcpy st.ptr st.bytesRead.toNat src
      copies := st.copies ++
        [⟨st.index.toNat, st.offset.toNat, st.bytesRead.toNat, toCopy.toNat⟩]
      bytesRead := bytesRead
      index := if offset ≥ blockSz then st.index + 1 else st.index
      offset := if offset ≥ blockSz then 0 else offset
      head := if offset ≥ blockSz then st.head + 1 else st.head }
  if bytesRead ≥ totalBytes then some (.brk st) else some (.next st)

def freadTurn (totalBytes : UInt64) (st : FreadState) : Option Turn :=
  let cring := st.mf.s.cqRing
  if st.mf.isfirst = 0 ∧ st.head = cring.tail then some (.brk st)
  else if st.mf.isfirst = 0 then
    let cqe := cring.cqes (st.head &&& cring.ringMask)
    let st := { st with mf := { st.mf with fiRead := some cqe.userData, isfirst := 1 } }
    if cqe.res < 0 then some (.brk st) else freadCopy totalBytes cqe.userData st
  else
    match st.mf.fiRead with
    | none => none
    | some fiRead => freadCopy totalBytes fiRead st

/-- The `do ... while (index < mf->blocks)` loop, in at most the given number of
turns. -/
def freadLoop (totalBytes : UInt64) : Nat → FreadState → Option FreadState
  | 0, _ => none
  | turns + 1, st =>
    match freadTurn totalBytes st with
    | none => none
    | some (.brk st) => some st
    | some (.next st) =>
      if st.index < st.mf.blocks.toUInt32 then freadLoop totalBytes turns st else some st

structure FreadResult where
  ret : UInt64
  ptr : Nat → UInt8
  mf : MyFile
  copies : List Copy

def MyFile.setHead (mf : MyFile) (head : UInt32) : MyFile :=
  { mf with s := { mf.s with cqRing := { mf.s.cqRing with head := head } } }

/-- A turn that neither ends the loop nor copies a byte repeats for ever, so a
loop that ends does so within `total_bytes + 1` turns. -/
def myFread (ptr : Nat → UInt8) (size count : UInt64) (mf : MyFile) : Option FreadResult :=
  let totalBytes := size * count
  let index := mf.currentBlock.toUInt32
  if index ≥ mf.blocks.toUInt32 then some ⟨0, ptr, mf, []⟩
  else
    match freadLoop totalBytes (totalBytes.toNat + 1)
        ⟨mf, mf.s.cqRing.head, index, mf.currentOffset, 0, ptr, []⟩ with
    | none => none
    | some st =>
      some
        { ret := st.bytesRead
          ptr := st.ptr
          mf := { st.mf.setHead st.head with
            currentBlock := st.index.toInt32
            currentOffset := st.offset }
          copies := st.copies }

def FreadResult.bytes (r : FreadResult) : List UInt8 := (List.range r.ret.toNat).map r.ptr

end IoUring
