import IoUring.Cursor
import IoUring.Fread

/-! The loop of `my_fread` as one read from the padded stream: the block buffers
laid end to end, each of them `BLOCK_SZ` bytes long whatever its `buffer_size`. -/

namespace IoUring

theorem memcpy_nil (dst : Nat → UInt8) (pos : Nat) : memcpy dst pos [] = dst := by
  funext i
  simp [memcpy]

theorem memcpy_append (dst : Nat → UInt8) (pos : Nat) (xs ys : List UInt8) :
    memcpy (memcpy dst pos xs) (pos + xs.length) ys = memcpy dst pos (xs ++ ys) := by
  funext i
  by_cases hi : pos + xs.length ≤ i
  · have hx : xs[i - pos]? = none := List.getElem?_eq_none (by omega)
    have hy : (xs ++ ys)[i - pos]? = ys[i - (pos + xs.length)]? := by
      rw [List.getElem?_append_right (by omega)]
      congr 1
      omega
    simp only [memcpy, hi, if_true, show pos ≤ i by omega, hx, hy, Option.getD_none]
  · by_cases hp : pos ≤ i
    · have hy : (xs ++ ys)[i - pos]? = xs[i - pos]? :=
        List.getElem?_append_left (by omega)
      simp only [memcpy, hi, if_false, hp, if_true, hy]
    · simp only [memcpy, hi, if_false, hp]

theorem memcpy_lt {dst : Nat → UInt8} {xs : List UInt8} {i : Nat} (hi : i < xs.length) :
    memcpy dst 0 xs i = xs[i] := by
  simp [memcpy, List.getElem?_eq_getElem hi]

theorem memcpy_ge {dst : Nat → UInt8} {xs : List UInt8} {i : Nat} (hi : xs.length ≤ i) :
    memcpy dst 0 xs i = dst i := by
  simp [memcpy, List.getElem?_eq_none hi]

theorem range_map_memcpy (dst : Nat → UInt8) (xs : List UInt8) :
    (List.range xs.length).map (memcpy dst 0 xs) = xs := by
  apply List.ext_getElem
  · simp
  · intro i hi hi'
    simpa using memcpy_lt hi'

theorem Page.length_eq (p : Page) : p.bytes.length = 4096 := p.length_bytes

theorem length_flatMap_page (vs : List Iovc) :
    (vs.flatMap (·.page.bytes)).length = vs.length * 4096 := by
  induction vs with
  | nil => rfl
  | cons v vs ih =>
    simp only [List.flatMap_cons, List.length_append, v.page.length_eq, ih, List.length_cons]
    omega

theorem FileInfo.length_padded (fi : FileInfo) : fi.padded.length = fi.iovecs.length * 4096 :=
  length_flatMap_page fi.iovecs

theorem read_flatMap_page {vs : List Iovc} {i offset k : Nat} {v : Iovc}
    (hv : vs[i]? = some v) (hk : offset + k ≤ 4096) :
    Cursor.read (vs.flatMap (·.page.bytes)) (i * 4096 + offset) k =
      (v.page.bytes.drop offset).take k := by
  have hlen : ∀ w : Iovc, w.page.bytes.length = 4096 := fun w => w.page.length_eq
  induction vs generalizing i with
  | nil => simp at hv
  | cons w vs ih =>
    cases i with
    | zero =>
      obtain rfl : w = v := by simpa using hv
      simp only [Cursor.read, List.flatMap_cons, Nat.zero_mul, Nat.zero_add]
      rw [List.drop_append_of_le_length (by rw [hlen]; omega),
        List.take_append_of_le_length (by rw [List.length_drop, hlen]; omega)]
    | succ i =>
      have hi := ih (by simpa using hv)
      have he : (i + 1) * 4096 + offset = w.page.bytes.length + (i * 4096 + offset) := by
        rw [hlen]
        omega
      rw [← hi]
      simp only [Cursor.read, List.flatMap_cons, he, ← List.drop_drop, List.drop_left]

theorem slice_eq_read {fi : FileInfo} {i offset k : Nat} {v : Iovc}
    (hv : fi.iovecs[i]? = some v) (hk : offset + k ≤ 4096) :
    v.page.slice offset k = some (Cursor.read fi.padded (i * 4096 + offset) k) := by
  rw [FileInfo.padded, read_flatMap_page hv hk, Page.slice, if_pos hk]

/-- Consecutive copies that fill the destination from position `b` to `b'`, each
from within one of the first `n` blocks. -/
def CopyChain (n : Nat) : Nat → List Copy → Nat → Prop
  | b, [], b' => b = b'
  | b, c :: cs, b' =>
    c.block < n ∧ c.src + c.len ≤ blockSz ∧ c.dst = b ∧ CopyChain n (b + c.len) cs b'

theorem CopyChain.append {n b b' b'' : Nat} {cs ds : List Copy}
    (h : CopyChain n b cs b') (h' : CopyChain n b' ds b'') : CopyChain n b (cs ++ ds) b'' := by
  induction cs generalizing b with
  | nil =>
    obtain rfl : b = b' := h
    exact h'
  | cons c cs ih => exact ⟨h.1, h.2.1, h.2.2.1, ih h.2.2.2⟩

theorem CopyChain.le {n b b' : Nat} {cs : List Copy} (h : CopyChain n b cs b') : b ≤ b' := by
  induction cs generalizing b with
  | nil => exact Nat.le_of_eq h
  | cons c cs ih =>
    have := ih h.2.2.2
    omega

theorem CopyChain.mem {n b b' : Nat} {cs : List Copy} (h : CopyChain n b cs b') :
    ∀ c ∈ cs, c.block < n ∧ c.src + c.len ≤ blockSz ∧ b ≤ c.dst ∧ c.dst + c.len ≤ b' := by
  induction cs generalizing b with
  | nil => simp
  | cons c cs ih =>
    obtain ⟨hb, hs, hd, hrest⟩ := h
    intro d hd'
    rcases List.mem_cons.mp hd' with rfl | hd'
    · have := hrest.le
      exact ⟨hb, hs, by omega, by omega⟩
    · obtain ⟨h1, h2, h3, h4⟩ := ih hrest d hd'
      exact ⟨h1, h2, by omega, h4⟩

theorem CopyChain.pairwise {n b b' : Nat} {cs : List Copy} (h : CopyChain n b cs b') :
    cs.Pairwise (fun c d => c.dst + c.len ≤ d.dst) := by
  induction cs generalizing b with
  | nil => simp
  | cons c cs ih =>
    obtain ⟨_, _, hd, hrest⟩ := h
    refine List.pairwise_cons.mpr ⟨?_, ih hrest⟩
    intro d hd'
    have := (hrest.mem d hd').2.2.1
    omega

def FileInfo.Sized (fi : FileInfo) : Prop :=
  ∀ v ∈ fi.iovecs, 0 < v.bufferSize.toNat ∧ v.bufferSize.toNat ≤ 4096

def FreadState.pos (st : FreadState) : Nat := st.index.toNat * 4096 + st.offset.toNat

structure FreadState.InFile (fi : FileInfo) (st : FreadState) : Prop where
  offset_lt : st.offset.toNat < 4096
  index_le : st.index.toNat ≤ fi.iovecs.length
  at_end : st.index.toNat = fi.iovecs.length → st.offset = 0

/-- What some turns of the loop did: `c` bytes of the padded stream went to the
destination. The completion head moves with the block index. -/
structure Copied (fi : FileInfo) (st st' : FreadState) (c : Nat) : Prop where
  mf : st'.mf = st.mf
  inFile : st'.InFile fi
  pos : st'.pos = st.pos + c
  bytesRead : st'.bytesRead.toNat = st.bytesRead.toNat + c
  head : st'.head - st'.index = st.head - st.index
  ptr : st'.ptr = memcpy st.ptr st.bytesRead.toNat (Cursor.read fi.padded st.pos c)
  copies : ∃ cs, st'.copies = st.copies ++ cs ∧
    CopyChain fi.iovecs.length st.bytesRead.toNat cs st'.bytesRead.toNat

theorem FreadState.InFile.pos_le {fi : FileInfo} {st : FreadState} (h : st.InFile fi) :
    st.pos ≤ fi.padded.length := by
  rw [fi.length_padded, FreadState.pos]
  by_cases he : st.index.toNat = fi.iovecs.length
  · simp [he, h.at_end he]
  · have := h.index_le
    have := h.offset_lt
    omega

theorem FreadState.InFile.index_eq {fi : FileInfo} {st : FreadState} (h : st.InFile fi) :
    st.index = UInt32.ofNat (st.pos / 4096) ∧ st.offset = UInt64.ofNat (st.pos % 4096) := by
  have hd : st.pos / 4096 = st.index.toNat := by
    have := h.offset_lt
    rw [FreadState.pos]
    omega
  have hm : st.pos % 4096 = st.offset.toNat := by
    have := h.offset_lt
    rw [FreadState.pos]
    omega
  rw [hd, hm]
  exact ⟨by simp, by simp⟩

theorem Copied.trans {fi : FileInfo} {st st' st'' : FreadState} {c c' : Nat}
    (h : Copied fi st st' c) (h' : Copied fi st' st'' c') : Copied fi st st'' (c + c') where
  mf := h'.mf.trans h.mf
  inFile := h'.inFile
  pos := by rw [h'.pos, h.pos, Nat.add_assoc]
  bytesRead := by rw [h'.bytesRead, h.bytesRead, Nat.add_assoc]
  head := h'.head.trans h.head
  ptr := by
    have hle := h.inFile.pos_le
    rw [h.pos] at hle
    have hlen : (Cursor.read fi.padded st.pos c).length = c := by
      rw [Cursor.length_read]
      omega
    have hseek : Cursor.seek fi.padded st.pos c = st.pos + c := Nat.min_eq_left hle
    have happ := memcpy_append st.ptr st.bytesRead.toNat (Cursor.read fi.padded st.pos c)
      (Cursor.read fi.padded (st.pos + c) c')
    rw [hlen] at happ
    rw [h'.ptr, h.ptr, h.bytesRead, h.pos, happ, Cursor.read_add, hseek]
  copies := by
    obtain ⟨cs, hcs, hchain⟩ := h.copies
    obtain ⟨ds, hds, hchain'⟩ := h'.copies
    exact ⟨cs ++ ds, by rw [hds, hcs, List.append_assoc], hchain.append hchain'⟩

theorem succ_sub_succ (a b : UInt32) : a + 1 - (b + 1) = a - b := by
  grind

theorem toNat_ite_gt (x limit : UInt64) :
    (if x > limit then limit else x).toNat = min x.toNat limit.toNat := by
  split
  · next h =>
    have := UInt64.lt_iff_toNat_lt.mp h
    omega
  · next h =>
    have := UInt64.lt_iff_toNat_lt.not.mp h
    omega

/-- One turn copies up to the first of the three limits, which is at least one
byte unless the request is already served. -/
theorem freadCopy_spec {fi : FileInfo} {total : UInt64} {p : Ptr} {st : FreadState}
    (hd : st.mf.deref p = some fi) (hs : fi.Sized) (hn : fi.iovecs.length < 2 ^ 31)
    (hf : st.InFile fi) (hi : st.index.toNat < fi.iovecs.length)
    (hb : st.bytesRead.toNat ≤ total.toNat) :
    ∃ st' c, Copied fi st st' c ∧ st'.bytesRead.toNat ≤ total.toNat ∧
      (0 < c ∨ st.bytesRead.toNat = total.toNat) ∧
      freadCopy total p st =
        some (if st'.bytesRead.toNat = total.toNat then .brk st' else .next st') := by
  obtain ⟨v, hv⟩ : ∃ v, fi.iovecs[st.index.toNat]? = some v :=
    ⟨_, List.getElem?_eq_getElem hi⟩
  have hsize := hs v (List.mem_of_getElem? hv)
  have hoff := hf.offset_lt
  have hblock : (blockSz - st.offset).toNat = 4096 - st.offset.toNat := by
    rw [UInt64.toNat_sub_of_le _ _ (UInt64.le_iff_toNat_le.mpr (Nat.le_of_lt hoff))]
    rfl
  have hspace : (total - st.bytesRead).toNat = total.toNat - st.bytesRead.toNat :=
    UInt64.toNat_sub_of_le _ _ (UInt64.le_iff_toNat_le.mpr hb)
  let c : UInt64 :=
    if (if v.bufferSize > blockSz - st.offset then blockSz - st.offset else v.bufferSize) >
      total - st.bytesRead then total - st.bytesRead
    else if v.bufferSize > blockSz - st.offset then blockSz - st.offset else v.bufferSize
  have hc : c.toNat = min (min v.bufferSize.toNat (4096 - st.offset.toNat))
      (total.toNat - st.bytesRead.toNat) := by
    simp only [c, toNat_ite_gt, hblock, hspace]
  have hfit : st.offset.toNat + c.toNat ≤ 4096 := by omega
  have hread : (st.bytesRead + c).toNat = st.bytesRead.toNat + c.toNat := by
    rw [UInt64.toNat_add]
    have := total.toNat_lt
    omega
  have hoffset : (st.offset + c).toNat = st.offset.toNat + c.toNat := by
    rw [UInt64.toNat_add]
    omega
  have hindex : (st.index + 1).toNat = st.index.toNat + 1 := by
    rw [UInt32.toNat_add, UInt32.toNat_one]
    omega
  have hge : st.offset + c ≥ blockSz ↔ st.offset.toNat + c.toNat = 4096 := by
    rw [ge_iff_le, UInt64.le_iff_toNat_le, hoffset]
    change 4096 ≤ _ ↔ _
    omega
  let st' : FreadState :=
    { st with
      ptr := memcpy st.ptr st.bytesRead.toNat (Cursor.read fi.padded st.pos c.toNat)
      copies := st.copies ++ [⟨st.index.toNat, st.offset.toNat, st.bytesRead.toNat, c.toNat⟩]
      bytesRead := st.bytesRead + c
      index := if st.offset + c ≥ blockSz then st.index + 1 else st.index
      offset := if st.offset + c ≥ blockSz then 0 else st.offset + c
      head := if st.offset + c ≥ blockSz then st.head + 1 else st.head }
  have hcopied : Copied fi st st' c.toNat := by
    refine ⟨rfl, ?_, ?_, hread, ?_, rfl, ⟨_, rfl, ?_⟩⟩
    · by_cases he : st.offset.toNat + c.toNat = 4096
      · have hge' := hge.mpr he
        refine ⟨?_, ?_, ?_⟩ <;> simp only [st', hge', if_true]
        · simp
        · omega
        · simp
      · have hge' := hge.not.mpr he
        refine ⟨?_, ?_, ?_⟩ <;> simp only [st', hge', if_false]
        · omega
        · omega
        · omega
    · by_cases he : st.offset.toNat + c.toNat = 4096
      · simp only [FreadState.pos, st', hge.mpr he, if_true, hindex, UInt64.toNat_zero]
        omega
      · simp only [FreadState.pos, st', hge.not.mpr he, if_false, hoffset]
        omega
    · by_cases he : st.offset + c ≥ blockSz
      · simp only [st', he, if_true]
        exact succ_sub_succ st.head st.index
      · simp only [st', he, if_false]
    · exact ⟨hi, hfit, rfl, hread.symm⟩
  refine ⟨st', c.toNat, hcopied, ?_, by omega, ?_⟩
  · rw [hcopied.bytesRead]
    omega
  · have hslice := slice_eq_read hv hfit
    have hdone : st.bytesRead + c ≥ total ↔ (st.bytesRead + c).toNat = total.toNat := by
      rw [ge_iff_le, UInt64.le_iff_toNat_le]
      omega
    simp only [freadCopy, hd, hv, Option.bind_eq_bind, Option.bind_some]
    change (v.page.slice st.offset.toNat c.toNat).bind _ = _
    rw [hslice, Option.bind_some]
    change (if st.bytesRead + c ≥ total then some (Turn.brk st') else some (Turn.next st')) = _
    by_cases he : (st.bytesRead + c).toNat = total.toNat
    · rw [if_pos (hdone.mpr he), if_pos he]
    · rw [if_neg (hdone.not.mpr he), if_neg he]

end IoUring
