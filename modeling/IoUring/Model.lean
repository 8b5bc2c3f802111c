import IoUring.Ledger
import Mathlib.Data.List.Basic

/-! The data that `my_fopen`, `my_fread` and `my_fclose` share: rings, the
submission and completion entries, block buffers and the file handle. A pointer
is the identity of the allocation it points to, and memory that the kernel maps
is the value of the words in it. -/

namespace IoUring

abbrev queueDepth {α : Type} [OfNat α 256] : α := 256

/-- `#define BLOCK_SZ 4096`, at whichever integer type it is used. -/
abbrev blockSz {α : Type} [OfNat α 4096] : α := 4096

/-- The kernel's limit on the number of iovecs in one request. -/
abbrev uioMaxiov : Nat := 1024

inductive Kind where
  | file | ring | mapping | shared | aligned
deriving DecidableEq

inductive Deallocator where
  | close | munmap | ompFree | free
deriving DecidableEq

def Kind.deallocator : Kind → Deallocator
  | .file | .ring => .close
  | .mapping => .munmap
  | .shared => .ompFree
  | .aligned => .free

abbrev Resource := Held Kind
abbrev Ptr := Resource

inductive Opcode where
  | nop | readv
deriving DecidableEq

structure Sqe where
  fd : Resource
  flags : UInt8
  opcode : Opcode
  addr : Ptr
  len : UInt32
  off : UInt64
  userData : Ptr
deriving DecidableEq

structure Cqe where
  userData : Ptr
  res : Int32
deriving DecidableEq

structure SqRing where
  head : UInt32
  tail : UInt32
  ringMask : UInt32
  ringEntries : UInt32
  flags : UInt32
  array : UInt32 → UInt32

structure CqRing where
  head : UInt32
  tail : UInt32
  ringMask : UInt32
  ringEntries : UInt32
  cqes : UInt32 → Cqe

/-- `struct submitter`, with the mappings behind its ring pointers. -/
structure Submitter where
  addr : Ptr
  ringFd : Resource
  sqRing : SqRing
  sqes : UInt32 → Sqe
  cqRing : CqRing
  sqMap : Resource
  cqMap : Resource
  sqesMap : Resource

/-- The memory of one block buffer, always `BLOCK_SZ` bytes. -/
structure Page where
  bytes : List UInt8
  length_bytes : bytes.length = blockSz
deriving DecidableEq

def Page.zero : Page := ⟨List.replicate blockSz 0, List.length_replicate⟩

/-- `struct iovc`, with the memory that `buffer` points to. -/
structure Iovc where
  buffer : Ptr
  page : Page
  bufferSize : UInt64
deriving DecidableEq

structure FileInfo where
  addr : Ptr
  fileSz : Int64
  iovecs : List Iovc

/-- `struct my_file`. The `file_info` and the `submitter` belong to the handle;
`fi_read` is a pointer that `my_fopen` leaves unset. -/
structure MyFile where
  addr : Ptr
  fd : Resource
  blocks : Int32
  currentBlock : Int32
  isfirst : Int32
  currentOffset : UInt64
  s : Submitter
  fiRead : Option Ptr
  fi : FileInfo

def MyFile.deref (mf : MyFile) (p : Ptr) : Option FileInfo :=
  if p = mf.fi.addr then some mf.fi else none

/-- All block buffers of the file, one after the other. -/
def FileInfo.padded (fi : FileInfo) : List UInt8 := fi.iovecs.flatMap (·.page.bytes)

def Page.slice (p : Page) (offset len : Nat) : Option (List UInt8) :=
  if offset + len ≤ blockSz then some ((p.bytes.drop offset).take len) else none

def memcpy (dst : Nat → UInt8) (pos : Nat) (src : List UInt8) : Nat → UInt8 :=
  fun i => if pos ≤ i then (src[i - pos]?).getD (dst i) else dst i

def Page.fill (p : Page) (data : List UInt8) : Page where
  bytes := (data ++ p.bytes.drop data.length).take blockSz
  length_bytes := by
    have := p.length_bytes
    simp only [List.length_take, List.length_append, List.length_drop]
    omega

/-- `readv(2)`: `data` goes into the first `iovcnt` buffers in order, each
filled up to its length before the next one is used. -/
def scatter : Nat → List Iovc → List UInt8 → List Iovc
  | 0, vs, _ => vs
  | _ + 1, [], _ => []
  | n + 1, v :: vs, data =>
    { v with page := v.page.fill (data.take v.bufferSize.toNat) } ::
      scatter n vs (data.drop v.bufferSize.toNat)

structure Completion where
  res : Int32
  data : List UInt8

/-- The kernel takes the request at the head of the submission queue, fills the
buffers and posts the completion. -/
def completeReadv (kernel : Sqe → Completion) (mf : MyFile) : MyFile :=
  let sq := mf.s.sqRing
  let cq := mf.s.cqRing
  let sqe := mf.s.sqes (sq.array (sq.head &&& sq.ringMask))
  let c := kernel sqe
  { mf with
    fi := { mf.fi with iovecs := scatter sqe.len.toNat mf.fi.iovecs c.data }
    s := { mf.s with
      sqRing := { sq with head := sq.head + 1 }
      cqRing := { cq with
        cqes := fun i => if i = cq.tail &&& cq.ringMask then ⟨sqe.userData, c.res⟩ else cq.cqes i
        tail := cq.tail + 1 } } }

end IoUring
