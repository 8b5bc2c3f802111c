import IoUring.BlockCount
import IoUring.FreadLoop

/-! The request that `my_fread` of io_uring_poll.cpp and of io_uring_polling.c makes:
one `READV` at offset 0 for the one buffer of the handle. -/

namespace IoUring

namespace SingleVec

/-- `#define BUFFER_SIZE 1024`, at whichever integer type it is used. -/
abbrev bufferSize {α : Type} [OfNat α 1024] : α := 1024

/-- The memory from `malloc(BUFFER_SIZE)`. -/
structure Buffer where
  bytes : List UInt8
  length_bytes : bytes.length = bufferSize

def Buffer.fill (b : Buffer) (data : List UInt8) : Buffer where
  bytes := (data ++ b.bytes.drop data.length).take bufferSize
  length_bytes := by
    have := b.length_bytes
    simp only [List.length_take, List.length_append, List.length_drop]
    omega

def Buffer.zero : Buffer := ⟨List.replicate bufferSize 0, List.length_replicate⟩

theorem Buffer.fill_take (b : Buffer) {data : List UInt8} {n : Nat} (h : data.length ≤ 1024)
    (hn : n ≤ data.length) : (b.fill data).bytes.take n = data.take n := by
  simp only [Buffer.fill, List.take_take, Nat.min_eq_left (hn.trans h)]
  exact List.take_append_of_le_length hn

structure Readv where
  off : UInt64
  iovLen : UInt64

/-- The answers of liburing and of the kernel to one request. -/
structure Answers where
  getSqe : Bool
  waitCqe : Int32
  kernel : Readv → Completion

/-- A line on the error output; `strerror` is left at its number. -/
structure Report where
  text : String
  err : Option Int32

/-- The part of the handle that the ring works on. -/
structure Handle where
  iov : Buffer
  khead : UInt32

def Handle.seen (h : Handle) : Handle := { h with khead := h.khead + 1 }

inductive Awaited where
  | noSqe (r : Report)
  | lost (r : Report)
  | failed (r : Report)
  | read (res : Int32)

def readv : Readv := ⟨0, bufferSize⟩

/-- From `io_uring_get_sqe` to the test of `cqe->res`. -/
def await (a : Answers) (h : Handle) : Awaited × Handle :=
  if a.getSqe then
    let c := a.kernel readv
    let h := { h with iov := h.iov.fill c.data }
    if a.waitCqe < 0 then
      (.lost ⟨"Error waiting for completion: ", some (-a.waitCqe)⟩, h)
    else if c.res < 0 then (.failed ⟨"Async readv failed: ", some (-c.res)⟩, h.seen)
    else (.read c.res, h)
  else (.noSqe ⟨"Unable to get sqe\n", none⟩, h)

def Answers.Succeeds (a : Answers) : Prop :=
  a.getSqe = true ∧ ¬ a.waitCqe < 0 ∧ ¬ (a.kernel readv).res < 0

instance (a : Answers) : Decidable a.Succeeds := inferInstanceAs (Decidable (_ ∧ _ ∧ _))

theorem await_succeeds {a : Answers} (h : a.Succeeds) (hd : Handle) :
    await a hd = (.read (a.kernel readv).res,
      { hd with iov := hd.iov.fill (a.kernel readv).data }) := by
  simp [await, h.1, h.2.1, h.2.2]

theorem await_fails {a : Answers} (h : ¬ a.Succeeds) (hd : Handle) :
    ∃ r hd', if a.getSqe then await a hd = (.lost r, hd') ∨ await a hd = (.failed r, hd')
      else await a hd = (.noSqe r, hd') := by
  by_cases hsqe : a.getSqe
  · by_cases hwait : a.waitCqe < 0
    · exact ⟨_, _, by simp only [await, hsqe, hwait, if_true]; exact Or.inl rfl⟩
    · have hres : (a.kernel readv).res < 0 := by
        by_contra hres
        exact h ⟨hsqe, hwait, hres⟩
      exact ⟨_, _, by simp only [await, hsqe, hwait, hres, if_true, if_false]; exact Or.inr rfl⟩
  · exact ⟨_, _, by simp only [await, hsqe]; rfl⟩

/-- The number of bytes that a completion without an error says were read. -/
def Answers.count (a : Answers) : Nat := (a.kernel readv).res.toInt.toNat

/-- A read of the file `f` fails, or returns its bytes from the offset on. -/
def Answers.ReadsFrom (a : Answers) (f : List UInt8) : Prop :=
  (a.kernel readv).res < 0 ∨
    let data := Cursor.read f readv.off.toNat readv.iovLen.toNat
    a.kernel readv = ⟨Int32.ofNat data.length, data⟩

theorem toNat_count (a : Answers) (h : a.Succeeds) :
    (a.kernel readv).res.toInt64.toUInt64.toNat = a.count := by
  have hnonneg : ¬ (a.kernel readv).res.toInt < 0 := Int32.lt_iff_toInt_lt.not.mp h.2.2
  have hlt := (a.kernel readv).res.toInt_lt
  have hconv := toNat_toUInt64 (a.kernel readv).res.toInt64
  rw [Int32.toInt_toInt64] at hconv
  rw [Answers.count]
  omega

theorem range_map_memcpy_take (dst : Nat → UInt8) {n : Nat} {xs : List UInt8}
    (h : n ≤ xs.length) : (List.range n).map (memcpy dst 0 xs) = xs.take n := by
  apply List.ext_getElem
  · simp [h]
  · intro i hi _
    have hlt : i < xs.length := by
      rw [List.length_map, List.length_range] at hi
      omega
    simpa using memcpy_lt hlt

theorem take_min_length (f : List UInt8) : f.take (min 1024 f.length) = Cursor.read f 0 1024 := by
  rw [Cursor.read, List.drop_zero, List.take_eq_take_iff]
  omega

theorem count_of_readsFrom {a : Answers} {f : List UInt8} (hok : a.Succeeds)
    (hreads : a.ReadsFrom f) :
    (a.kernel readv).data = f.take (min 1024 f.length) ∧ a.count = min 1024 f.length := by
  have hread : a.kernel readv =
      ⟨Int32.ofNat (Cursor.read f 0 1024).length, Cursor.read f 0 1024⟩ :=
    hreads.resolve_left hok.2.2
  have hlen : (Cursor.read f 0 1024).length = min 1024 f.length := Cursor.length_read _ _ _
  rw [take_min_length, Answers.count, hread]
  refine ⟨rfl, ?_⟩
  rw [hlen, Int32.toInt_ofNat_of_lt (by omega), Int.toNat_natCast]

/-- Answers under which every read of the file `f` succeeds. -/
def serving (f : List UInt8) : Answers where
  getSqe := true
  waitCqe := 0
  kernel q :=
    let data := Cursor.read f q.off.toNat q.iovLen.toNat
    ⟨Int32.ofNat data.length, data⟩

theorem serving_readsFrom (f : List UInt8) : (serving f).ReadsFrom f := Or.inr rfl

theorem serving_count (f : List UInt8) :
    ((serving f).kernel readv).res.toInt = (min 1024 f.length : Nat) := by
  have hlen : (Cursor.read f 0 1024).length = min 1024 f.length := Cursor.length_read _ _ _
  change (Int32.ofNat (Cursor.read f 0 1024).length).toInt = _
  rw [hlen, Int32.toInt_ofNat_of_lt (by omega)]

theorem serving_succeeds (f : List UInt8) : (serving f).Succeeds := by
  refine ⟨rfl, (by decide : ¬ (0 : Int32) < 0), ?_⟩
  rw [Int32.lt_iff_toInt_lt, serving_count, Int32.toInt_zero]
  omega

end SingleVec

end IoUring
