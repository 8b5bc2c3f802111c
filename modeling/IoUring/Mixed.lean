import IoUring.SingleVec

/-! example/io_uring_polling.c: the first `my_fread` reads through the ring at offset
0 and goes on with `fread` at the position of the stream, as every later call does. -/

namespace IoUring

namespace Mixed

open SingleVec

/-- A `FILE`. `content` are the bytes that can be read; a read that wants more meets
the end of the file, or an error if `broken`. -/
structure Stream where
  content : List UInt8
  broken : Bool
  pos : Nat
  eof : Bool
  err : Bool

def Stream.rest (s : Stream) : Nat := s.content.length - s.pos

/-- `fread(3)` for items of one byte. -/
def Stream.fread (s : Stream) (n : Nat) : List UInt8 × Stream :=
  let data := Cursor.read s.content s.pos n
  (data,
    { s with
      pos := s.pos + data.length
      eof := s.eof || (decide (data.length < n) && !s.broken)
      err := s.err || (decide (data.length < n) && s.broken) })

structure MyFile where
  stream : Stream
  handle : Handle
  asyncInitiated : Int32

/-- One store into the caller's buffer, with `total_bytes` as it was then. -/
structure Store where
  dst : Nat
  len : Nat
  left : UInt64

/-- `buffer` is how far the pointer has moved. -/
structure FreadState where
  stream : Stream
  buffer : Nat
  ptr : Nat → UInt8
  totalBytes : UInt64
  bytesRead : UInt64
  stores : List Store
  reports : List Report

inductive Turn where
  | brk (st : FreadState)
  | next (st : FreadState)

def FreadState.bytesToRead (st : FreadState) : UInt64 :=
  if st.totalBytes > bufferSize then bufferSize else st.totalBytes

/-- `fread` into the buffer, before the tests of what it returned. -/
def FreadState.fread (st : FreadState) : FreadState :=
  let (data, stream) := st.stream.fread st.bytesToRead.toNat
  { st with
    stream := stream
    ptr := memcpy st.ptr st.buffer data
    stores := st.stores ++ [⟨st.buffer, data.length, st.totalBytes⟩] }

def readTurn (st : FreadState) : Turn :=
  let result := UInt64.ofNat (st.stream.fread st.bytesToRead.toNat).1.length
  let next := st.fread
  if result < st.bytesToRead ∧ next.stream.eof then .brk next
  else if result < st.bytesToRead ∧ next.stream.err then
    .brk { next with reports := next.reports ++ [⟨"fread", none⟩] }
  else
    .next
      { next with
        buffer := next.buffer + result.toNat
        bytesRead := next.bytesRead + result
        totalBytes := next.totalBytes - result }

/-- The `while (total_bytes > 0)` loop, in at most the given number of turns. -/
def readSync : Nat → FreadState → Option FreadState
  | 0, _ => none
  | turns + 1, st =>
    if st.totalBytes = 0 then some st
    else
      match readTurn st with
      | .brk st => some st
      | .next st => readSync turns st

structure FreadResult where
  ret : UInt64
  ptr : Nat → UInt8
  mf : MyFile
  stores : List Store
  reports : List Report

def FreadResult.bytes (r : FreadResult) : List UInt8 := (List.range r.ret.toNat).map r.ptr

/-- The loop and `return bytes_read / size`. A turn that does not end the loop takes
a byte at least, so `total_bytes + 1` turns are enough. -/
def finish (size : UInt64) (mf : MyFile) (st : FreadState) : Option FreadResult :=
  match readSync (st.totalBytes.toNat + 1) st with
  | none => none
  | some st =>
    if size = 0 then none
    else
      some ⟨st.bytesRead / size, st.ptr, { mf with stream := st.stream }, st.stores, st.reports⟩

/-- `none` is a copy from behind the end of the handle's buffer, or a division by 0. -/
def myFread (a : Answers) (ptr : Nat → UInt8) (size count : UInt64) (mf : MyFile) :
    Option FreadResult :=
  let totalBytes := size * count
  if mf.asyncInitiated = 0 then
    match await a mf.handle with
    | (.noSqe r, h) => some ⟨0, ptr, { mf with handle := h }, [], [r]⟩
    | (.lost r, h) | (.failed r, h) =>
      some ⟨0, ptr, { mf with handle := h, asyncInitiated := 1 }, [], [r]⟩
    | (.read res, h) =>
      let bytesCopied := res.toInt64.toUInt64
      if bytesCopied > bufferSize then none
      else
        let data := h.iov.bytes.take bytesCopied.toNat
        finish size { mf with handle := h.seen, asyncInitiated := 1 }
          { stream := mf.stream
            buffer := data.length
            ptr := memcpy ptr 0 data
            totalBytes := totalBytes - bytesCopied
            bytesRead := bytesCopied
            stores := [⟨0, data.length, totalBytes⟩]
            reports := [] }
  else finish size mf ⟨mf.stream, 0, ptr, totalBytes, 0, [], []⟩

/-- What the loop reports of `total` bytes wanted when the stream has `rest` left: all
of them, or the full chunks before the one in which the file ends. -/
def reported (total rest : Nat) : Nat := if total ≤ rest then total else rest / 1024 * 1024

theorem reported_le (total rest : Nat) : reported total rest ≤ min total rest := by
  rw [reported]
  split <;> omega

theorem reported_eq_iff {total rest : Nat} :
    reported total rest = min total rest ↔ total ≤ rest ∨ rest % 1024 = 0 := by
  rw [reported]
  split <;> omega

theorem reported_chunk {total rest k : Nat} (hk : k = min total 1024) (hrest : k ≤ rest) :
    reported total rest = k + reported (total - k) (rest - k) := by
  simp only [reported]
  split <;> split <;> omega

theorem reported_short {total rest : Nat} (h : rest < min total 1024) :
    reported total rest = 0 := by
  simp only [reported]
  split <;> omega

theorem FreadState.bytesToRead_toNat (st : FreadState) :
    st.bytesToRead.toNat = min st.totalBytes.toNat 1024 :=
  toNat_ite_gt st.totalBytes bufferSize

theorem toNat_length_read (s : List UInt8) (pos : Nat) (k : UInt64) :
    (UInt64.ofNat (Cursor.read s pos k.toNat).length).toNat =
      (Cursor.read s pos k.toNat).length := by
  rw [UInt64.toNat_ofNat', Nat.mod_eq_of_lt]
  have := k.toNat_lt
  rw [Cursor.length_read]
  omega

theorem toNat_sub_ofNat {x : UInt64} {n : Nat} (h : n ≤ x.toNat) :
    (x - UInt64.ofNat n).toNat = x.toNat - n := by
  have hn : (UInt64.ofNat n).toNat = n := UInt64.toNat_ofNat_of_lt' (h.trans_lt x.toNat_lt)
  rw [UInt64.toNat_sub_of_le _ _ (UInt64.le_iff_toNat_le.mpr (by rwa [hn])), hn]

/-- What some turns of the loop did. -/
structure Synced (st st' : FreadState) : Prop where
  content : st'.stream.content = st.stream.content
  broken : st'.stream.broken = st.stream.broken
  pos : st'.stream.pos = st.stream.pos + min st.totalBytes.toNat st.stream.rest
  bytesRead : st'.bytesRead =
    st.bytesRead + UInt64.ofNat (reported st.totalBytes.toNat st.stream.rest)
  ptr : st'.ptr = memcpy st.ptr st.buffer
    (Cursor.read st.stream.content st.stream.pos st.totalBytes.toNat)
  stores : ∃ new, st'.stores = st.stores ++ new ∧ ∀ s ∈ new,
    s.dst + s.len ≤ st.buffer + st.totalBytes.toNat ∧ s.len ≤ s.left.toNat

theorem FreadState.fread_stream (st : FreadState) :
    st.fread.stream.content = st.stream.content ∧ st.fread.stream.broken = st.stream.broken ∧
      st.fread.stream.pos = st.stream.pos + min st.bytesToRead.toNat st.stream.rest := by
  refine ⟨rfl, rfl, ?_⟩
  change st.stream.pos + (Cursor.read _ _ _).length = _
  rw [Cursor.length_read]
  rfl

theorem length_fread (s : Stream) (n : Nat) : (s.fread n).1.length = min n s.rest :=
  Cursor.length_read _ _ _

def FreadState.next (st : FreadState) : FreadState :=
  { st.fread with
    buffer := st.buffer + st.bytesToRead.toNat
    bytesRead := st.bytesRead + st.bytesToRead
    totalBytes := st.totalBytes - st.bytesToRead }

theorem readTurn_full {st : FreadState} (h : st.bytesToRead.toNat ≤ st.stream.rest) :
    readTurn st = .next st.next := by
  have hlen : (st.stream.fread st.bytesToRead.toNat).1.length = st.bytesToRead.toNat :=
    (length_fread _ _).trans (Nat.min_eq_left h)
  have hnot : ¬ st.bytesToRead < st.bytesToRead := UInt64.lt_irrefl _
  simp only [readTurn, hlen, UInt64.ofNat_toNat, hnot, false_and, if_false]
  rfl

theorem readTurn_short {st : FreadState} (h : st.stream.rest < st.bytesToRead.toNat) :
    ∃ reports, readTurn st = .brk { st.fread with reports := reports } := by
  have hlen : (Cursor.read st.stream.content st.stream.pos st.bytesToRead.toNat).length <
      st.bytesToRead.toNat :=
    lt_of_eq_of_lt (length_fread st.stream _) (Nat.lt_of_le_of_lt (Nat.min_le_right _ _) h)
  have hresult : UInt64.ofNat (st.stream.fread st.bytesToRead.toNat).1.length <
      st.bytesToRead := by
    rw [UInt64.lt_iff_toNat_lt]
    exact lt_of_eq_of_lt (toNat_length_read _ _ _) hlen
  have hflag : st.fread.stream.eof = true ∨ st.fread.stream.err = true := by
    cases hb : st.stream.broken with
    | false =>
      left
      simp only [FreadState.fread, Stream.fread, hb, hlen, decide_true, Bool.not_false,
        Bool.and_self, Bool.or_true]
    | true =>
      right
      simp only [FreadState.fread, Stream.fread, hb, hlen, decide_true, Bool.and_self,
        Bool.or_true]
  by_cases heof : st.fread.stream.eof = true
  · exact ⟨st.fread.reports, by simp only [readTurn, hresult, heof, and_self, if_true]⟩
  · have herr := hflag.resolve_left heof
    refine ⟨st.fread.reports ++ [⟨"fread", none⟩], ?_⟩
    simp only [readTurn, hresult, heof, herr, true_and, if_false, if_true, Bool.false_eq_true]

theorem Synced.refl {st : FreadState} (h : st.totalBytes.toNat = 0) : Synced st st where
  content := rfl
  broken := rfl
  pos := by simp [h]
  bytesRead := by simp [h, reported]
  ptr := by simp [h, memcpy_nil]
  stores := ⟨[], by simp, by simp⟩

/-- The turn in which the bytes run out takes them, and reports none. -/
theorem Synced.last {st : FreadState} (h : st.stream.rest < st.bytesToRead.toNat)
    (reports : List Report) : Synced st { st.fread with reports := reports } := by
  have hk := st.bytesToRead_toNat
  obtain ⟨hcontent, hbroken, hp⟩ := st.fread_stream
  have hread : Cursor.read st.stream.content st.stream.pos st.bytesToRead.toNat =
      Cursor.read st.stream.content st.stream.pos st.totalBytes.toNat := by
    simp only [Cursor.read, List.take_eq_take_iff, List.length_drop]
    rw [Stream.rest] at h
    omega
  refine ⟨hcontent, hbroken, ?_, ?_, congrArg (memcpy st.ptr st.buffer) hread, _, rfl, ?_⟩
  · rw [hp]
    omega
  · rw [reported_short (by omega)]
    simp [FreadState.fread]
  · intro s hs
    obtain rfl := List.mem_singleton.mp hs
    have hlen := length_fread st.stream st.bytesToRead.toNat
    change st.buffer + (st.stream.fread st.bytesToRead.toNat).1.length ≤ _ ∧
      (st.stream.fread st.bytesToRead.toNat).1.length ≤ st.totalBytes.toNat
    omega

theorem FreadState.next_totalBytes (st : FreadState) :
    st.next.totalBytes.toNat = st.totalBytes.toNat - st.bytesToRead.toNat := by
  have hk := st.bytesToRead_toNat
  exact UInt64.toNat_sub_of_le _ _ (UInt64.le_iff_toNat_le.mpr (by omega))

theorem Synced.cons {st st' : FreadState} (hz : st.totalBytes.toNat ≠ 0)
    (h : st.bytesToRead.toNat ≤ st.stream.rest) (hs : Synced st.next st') : Synced st st' := by
  have hk := st.bytesToRead_toNat
  have hleft := st.next_totalBytes
  obtain ⟨hcontent, hbroken, hp⟩ := st.fread_stream
  rw [Nat.min_eq_left h] at hp
  have hpos : st.next.stream.pos = st.stream.pos + st.bytesToRead.toNat := hp
  have hrest : st.next.stream.rest = st.stream.rest - st.bytesToRead.toNat := by
    change st.fread.stream.content.length - st.next.stream.pos = _
    rw [hcontent, hpos, Stream.rest]
    omega
  have hlen : (st.stream.fread st.bytesToRead.toNat).1.length = st.bytesToRead.toNat :=
    (length_fread _ _).trans (Nat.min_eq_left h)
  refine ⟨hs.content.trans hcontent, hs.broken.trans hbroken, ?_, ?_, ?_, ?_⟩
  · rw [hs.pos, hleft, hrest, hpos]
    omega
  · have hsum := UInt64.ofNat_add st.bytesToRead.toNat
      (reported (st.totalBytes.toNat - st.bytesToRead.toNat)
        (st.stream.rest - st.bytesToRead.toNat))
    rw [UInt64.ofNat_toNat] at hsum
    rw [hs.bytesRead, hleft, hrest, reported_chunk hk h, hsum, ← UInt64.add_assoc]
    rfl
  · let data := Cursor.read st.stream.content st.stream.pos st.bytesToRead.toNat
    have hseek : Cursor.seek st.stream.content st.stream.pos st.bytesToRead.toNat =
        st.next.stream.pos := by
      rw [hpos, Cursor.seek]
      rw [Stream.rest] at h
      omega
    have hsplit : st.totalBytes.toNat =
        st.bytesToRead.toNat + (st.totalBytes.toNat - st.bytesToRead.toNat) := by
      omega
    have happ := memcpy_append st.ptr st.buffer data
      (Cursor.read st.stream.content st.next.stream.pos
        (st.totalBytes.toNat - st.bytesToRead.toNat))
    rw [show data.length = st.bytesToRead.toNat from hlen] at happ
    rw [hs.ptr, hleft, hsplit, Cursor.read_add, hseek, ← happ, ← hsplit]
    rfl
  · obtain ⟨new, hnew, hall⟩ := hs.stores
    refine ⟨⟨st.buffer, (st.stream.fread st.bytesToRead.toNat).1.length, st.totalBytes⟩ :: new,
      ?_, ?_⟩
    · rw [hnew]
      exact List.append_assoc _ _ _
    · intro s hs
      rcases List.mem_cons.mp hs with rfl | hs
      · dsimp only
        omega
      · obtain ⟨hdst, hle⟩ := hall s hs
        rw [hleft] at hdst
        change _ ≤ st.buffer + st.bytesToRead.toNat + _ at hdst
        exact ⟨by omega, hle⟩

/-- The loop ends, and takes from the stream what one `fread` for all that is wanted
would take. -/
theorem readSync_synced {turns : Nat} {st : FreadState} (h : st.totalBytes.toNat < turns) :
    ∃ st', readSync turns st = some st' ∧ Synced st st' := by
  induction turns generalizing st with
  | zero => omega
  | succ turns ih =>
    rw [readSync]
    by_cases hz : st.totalBytes = 0
    · exact ⟨st, if_pos hz, Synced.refl (by rw [hz]; rfl)⟩
    · rw [if_neg hz]
      by_cases hfull : st.bytesToRead.toNat ≤ st.stream.rest
      · have hne : st.totalBytes.toNat ≠ 0 := fun he => hz (UInt64.toNat_inj.mp he)
        have hk := st.bytesToRead_toNat
        have hleft := st.next_totalBytes
        have hlt : st.next.totalBytes.toNat < turns := by omega
        obtain ⟨st', hrun, hs⟩ := ih hlt
        rw [readTurn_full hfull]
        exact ⟨st', hrun, hs.cons hne hfull⟩
      · obtain ⟨reports, hturn⟩ := readTurn_short (Nat.lt_of_not_le hfull)
        rw [hturn]
        exact ⟨_, rfl, Synced.last (Nat.lt_of_not_le hfull) reports⟩

end Mixed

end IoUring
