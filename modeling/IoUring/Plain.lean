import IoUring.Delivery

/-! The plain `my_fread` of example/fread.c, one `read` for each call, beside the
one of device.cpp on the same file. -/

namespace IoUring

namespace Plain

/-- An open file, with the position that the kernel keeps for it. -/
structure Description where
  content : List UInt8
  pos : Nat

/-- `MY_FILE`. -/
structure MyFile where
  fd : Description
  pos : UInt64

/-- What `read` stores for a request of a given length; `none` is the result -1. -/
abbrev Kernel := Description → UInt64 → Option (List UInt8)

/-- Up to the end of the file all the bytes asked for are read. -/
def fullReads : Kernel := fun d n => some (Cursor.read d.content d.pos n.toNat)

structure FreadResult where
  ret : UInt64
  ptr : Option (Nat → UInt8)
  stream : Option MyFile

/-- `none` is the division of `bytes_read` by a size of zero. -/
def myFread (kernel : Kernel) (ptr : Option (Nat → UInt8)) (size count : UInt64)
    (stream : Option MyFile) : Option FreadResult :=
  match stream, ptr with
  | some file, some dst =>
    let totalBytes := size * count
    match kernel file.fd totalBytes with
    | none => some ⟨0, ptr, stream⟩
    | some data =>
      let bytesRead := UInt64.ofNat data.length
      if size = 0 then none
      else
        some
          { ret := bytesRead / size
            ptr := some (memcpy dst 0 data)
            stream := some
              { fd := { file.fd with pos := file.fd.pos + data.length }
                pos := file.pos + bytesRead } }
  | _, _ => some ⟨0, ptr, stream⟩

def opened (content : List UInt8) : MyFile := ⟨⟨content, 0⟩, 0⟩

def freadRun (kernel : Kernel) : Option MyFile → List Request → Option (List FreadResult)
  | _, [] => some []
  | stream, q :: qs =>
    match myFread kernel (some q.ptr) q.size q.count stream with
    | none => none
    | some r => (freadRun kernel r.stream qs).map (r :: ·)

end Plain

/-- The two calls returned the same value and left the same bytes behind. -/
structure FreadResult.Agrees (r : FreadResult) (v : Plain.FreadResult) : Prop where
  ret : r.ret = v.ret
  ptr : v.ptr = some r.ptr

def MyFile.AgreesOn (mf : MyFile) (file : Plain.MyFile) (qs : List Request) : Prop :=
  ∃ rs mf' vs, freadRun mf qs = some (rs, mf') ∧
    Plain.freadRun Plain.fullReads (some file) qs = some vs ∧
    List.Forall₂ FreadResult.Agrees rs vs

theorem Plain.myFread_full (file : Plain.MyFile) {q : Request} (hsize : q.size ≠ 0) :
    let data := Cursor.read file.fd.content file.fd.pos q.bytes
    Plain.myFread Plain.fullReads (some q.ptr) q.size q.count (some file) =
      some ⟨UInt64.ofNat data.length / q.size, some (memcpy q.ptr 0 data),
        some ⟨⟨file.fd.content, file.fd.pos + data.length⟩,
          file.pos + UInt64.ofNat data.length⟩⟩ := by
  simp only [Plain.myFread, Plain.fullReads, if_neg hsize, Request.bytes]

theorem div_eq_self_iff {n : Nat} (hn : n < 2 ^ 64) (s : UInt64) :
    UInt64.ofNat n = UInt64.ofNat n / s ↔ s = 1 ∨ n = 0 := by
  rw [eq_comm, ← UInt64.toNat_inj, UInt64.toNat_div, UInt64.toNat_ofNat', Nat.mod_eq_of_lt hn,
    Nat.div_eq_self, or_comm, ← UInt64.toNat_inj, UInt64.toNat_one]

theorem Served.agrees_iff {mf : MyFile} {q : Request} {r : FreadResult} (h : Served mf q r)
    (stream : Option Plain.MyFile) :
    let data := Cursor.read mf.fi.padded mf.pos q.bytes
    r.Agrees ⟨UInt64.ofNat data.length / q.size, some (memcpy q.ptr 0 data), stream⟩ ↔
      q.size = 1 ∨ data = [] := by
  intro data
  have hlt : data.length < 2 ^ 64 := by
    rw [← h.ret]
    exact r.ret.toNat_lt
  have hret : r.ret = UInt64.ofNat data.length := by
    rw [← h.ret, UInt64.ofNat_toNat]
  rw [← List.length_eq_zero_iff, ← div_eq_self_iff hlt q.size]
  constructor
  · intro ha
    exact hret.symm.trans ha.ret
  · intro he
    exact ⟨hret.trans he, by rw [h.ptr]⟩

theorem agreesOn_cons_iff {mf : MyFile} {file : Plain.MyFile} (h : mf.Ready)
    (hcontent : mf.fi.padded = file.fd.content) (hpos : mf.pos = file.fd.pos) {q : Request}
    (qs : List Request) (hsize : q.size ≠ 0) :
    ∃ next : Plain.MyFile, next.fd.content = file.fd.content ∧ (mf.after q.bytes).pos = next.fd.pos ∧
      (mf.AgreesOn file (q :: qs) ↔
        (q.size = 1 ∨ q.bytes = 0 ∨ mf.fi.padded.length ≤ mf.pos) ∧
          (mf.after q.bytes).AgreesOn next qs) := by
  obtain ⟨r, hcall, hr⟩ := myFread_served h q
  have hplain := Plain.myFread_full file hsize
  rw [← hcontent, ← hpos] at hplain
  let data := Cursor.read mf.fi.padded mf.pos q.bytes
  let next : Plain.MyFile :=
    ⟨⟨mf.fi.padded, mf.pos + data.length⟩, file.pos + UInt64.ofNat data.length⟩
  have hagree : r.Agrees ⟨UInt64.ofNat data.length / q.size, some (memcpy q.ptr 0 data),
      some next⟩ ↔ q.size = 1 ∨ q.bytes = 0 ∨ mf.fi.padded.length ≤ mf.pos := by
    rw [← Cursor.read_eq_nil_iff]
    exact hr.agrees_iff _
  refine ⟨next, hcontent, ?_, ?_⟩
  · rw [h.toSound.after_pos]
    exact Cursor.seek_eq_add_length h.toSound.pos_le _
  · rw [← hagree, ← hr.mf]
    constructor
    · rintro ⟨rs, mf', vs, hrun, hrun', hall⟩
      obtain ⟨rest, hrest, rfl⟩ := (freadRun_cons hcall).mp hrun
      rw [Plain.freadRun, hplain] at hrun'
      obtain ⟨rest', hrest', rfl⟩ := Option.map_eq_some_iff.mp hrun'
      obtain ⟨hhead, hall⟩ := List.forall₂_cons.mp hall
      exact ⟨hhead, rest, mf', rest', hrest, hrest', hall⟩
    · rintro ⟨hhead, rest, mf', rest', hrest, hrest', hall⟩
      refine ⟨r :: rest, mf', _ :: rest', (freadRun_cons hcall).mpr ⟨rest, hrest, rfl⟩, ?_,
        List.Forall₂.cons hhead hall⟩
      rw [Plain.freadRun, hplain]
      exact Option.map_eq_some_iff.mpr ⟨rest', hrest', rfl⟩

theorem agreesOn_iff {mf : MyFile} (file : Plain.MyFile) (qs : List Request) (h : mf.Ready)
    (hcontent : mf.fi.padded = file.fd.content) (hpos : mf.pos = file.fd.pos)
    (hsize : ∀ q ∈ qs, q.size ≠ 0) :
    mf.AgreesOn file qs ↔ ∀ pre q post, qs = pre ++ q :: post →
      q.size = 1 ∨ q.bytes = 0 ∨
        mf.fi.padded.length ≤ mf.pos + (pre.map Request.bytes).sum := by
  induction qs generalizing mf file with
  | nil =>
    refine iff_of_true ⟨[], mf, [], rfl, rfl, List.Forall₂.nil⟩ ?_
    intro pre q post he
    simp at he
  | cons q qs ih =>
    obtain ⟨hq, hqs⟩ := List.forall_mem_cons.mp hsize
    obtain ⟨next, hnext, hnext', hiff⟩ := agreesOn_cons_iff h hcontent hpos qs hq
    have hrec := ih next (h.after q.bytes) (by rw [mf.after_fi, hcontent, hnext]) hnext' hqs
    have hseek : ∀ n, mf.fi.padded.length ≤ Cursor.seek mf.fi.padded mf.pos q.bytes + n ↔
        mf.fi.padded.length ≤ mf.pos + (q.bytes + n) := by
      intro n
      simp only [Cursor.seek]
      omega
    rw [hiff, hrec, mf.after_fi, h.toSound.after_pos]
    simp only [hseek]
    constructor
    · rintro ⟨hhead, htail⟩ pre x post he
      cases pre with
      | nil =>
        obtain ⟨rfl, -⟩ := List.cons.inj he
        rwa [List.map_nil, List.sum_nil, Nat.add_zero]
      | cons y pre =>
        obtain ⟨rfl, he'⟩ := List.cons.inj he
        rw [List.map_cons, List.sum_cons]
        exact htail pre x post he'
    · intro hall
      have hq := hall [] q qs rfl
      rw [List.map_nil, List.sum_nil, Nat.add_zero] at hq
      refine ⟨hq, ?_⟩
      intro pre x post he
      have hx := hall (q :: pre) x post (by rw [he, List.cons_append])
      rwa [List.map_cons, List.sum_cons] at hx

/-- On a file that fills its blocks the two readers agree exactly on requests for
single bytes, for nothing, or behind the end of the file: device.cpp counts
bytes where fread.c counts items. -/
theorem agrees_with_plain_iff {o : Outcomes} {w w' : World} {mf : MyFile} {f : List UInt8}
    {qs : List Request} (hopen : myFopen o "r" w = .ok mf w')
    (hstat : o.fstat = some (Int64.ofNat f.length)) (hlen : f.length ≤ uioMaxiov * 4096)
    (hblocks : f.length % 4096 = 0)
    (hread : o.kernel mf.request = ⟨Int32.ofNat f.length, f⟩) (hsize : ∀ q ∈ qs, q.size ≠ 0) :
    mf.AgreesOn (Plain.opened f) qs ↔ ∀ pre q post, qs = pre ++ q :: post →
      q.size = 1 ∨ q.bytes = 0 ∨ f.length ≤ (pre.map Request.bytes).sum := by
  have hlt : f.length < 2 ^ 31 := Nat.lt_of_le_of_lt hlen (by decide)
  have ho := opened_of_stat hopen hstat hlt
  have hready : mf.Ready := ho.ready (by rw [hread]; exact not_neg_of_lt hlt)
  have hdata := ho.data
  rw [hread] at hdata
  have htake : mf.fi.padded.take f.length = f := hdata (Nat.le_refl _)
  have hpadded := ho.length_padded
  rw [List.take_of_length_le (by omega)] at htake
  have hiff := agreesOn_iff (Plain.opened f) qs hready htake ho.pos hsize
  rw [hiff, htake, ho.pos]
  simp only [Nat.zero_add]

theorem item_size_disagrees :
    ∃ mf w', myFopen (.smooth 4096 fun _ => ⟨4096, List.replicate 4096 65⟩) "r" World.start =
        .ok mf w' ∧
      (∃ r, myFread (fun _ => 0) 2 1 mf = some r ∧ r.ret = 2) ∧
      (∃ v, Plain.myFread Plain.fullReads (some fun _ => 0) 2 1
        (some (Plain.opened (List.replicate 4096 65))) = some v ∧ v.ret = 1) ∧
      ¬ mf.AgreesOn (Plain.opened (List.replicate 4096 65)) [⟨fun _ => 0, 2, 1⟩] := by
  obtain ⟨mf, w', h, ho⟩ := smooth_opened 4096 (by decide) "r"
    fun _ => ⟨4096, List.replicate 4096 65⟩
  have hready : mf.Ready := ho.ready (not_neg_of_lt (n := 4096) (by decide))
  have hlen : mf.fi.padded.length = 4096 := ho.length_padded
  have hcontent : mf.fi.padded = List.replicate 4096 65 := by
    have htake := ho.data (Nat.le_of_eq List.length_replicate)
    change mf.fi.padded.take (List.replicate 4096 (65 : UInt8)).length = _ at htake
    rwa [List.length_replicate, List.take_of_length_le (Nat.le_of_eq hlen)] at htake
  have hdata : (Cursor.read mf.fi.padded 0 2).length = 2 := by
    rw [Cursor.length_read, hlen]
    rfl
  refine ⟨mf, w', h, ?_, ?_, ?_⟩
  · obtain ⟨r, hcall, hr⟩ := myFread_served hready ⟨fun _ => 0, 2, 1⟩
    refine ⟨r, hcall, UInt64.toNat_inj.mp ?_⟩
    rw [hr.ret, ho.pos]
    exact hdata
  · have hplain := Plain.myFread_full (Plain.opened (List.replicate 4096 65))
      (q := ⟨fun _ => 0, 2, 1⟩) (by decide)
    refine ⟨_, hplain, ?_⟩
    change UInt64.ofNat (Cursor.read (List.replicate 4096 65) 0 2).length / 2 = 1
    rw [← hcontent, hdata]
    rfl
  · have hiff := agreesOn_iff (Plain.opened (List.replicate 4096 65))
      [⟨fun _ => 0, 2, 1⟩] hready hcontent ho.pos (by simp)
    rw [hiff]
    intro hall
    have hq := hall [] ⟨fun _ => 0, 2, 1⟩ [] rfl
    rw [List.map_nil, List.sum_nil, hlen, ho.pos] at hq
    revert hq
    decide

/-- The last request, for an element of two bytes, finds nothing left of two blocks. -/
def threeRequests : List Request := [.ofSize 5000, .ofSize 3192, ⟨fun _ => 0, 2, 1⟩]

theorem single_bytes_agree :
    ∃ mf w', myFopen (.smooth 8192 fun _ => ⟨8192, twoBlocks⟩) "r" World.start = .ok mf w' ∧
      mf.AgreesOn (Plain.opened twoBlocks) threeRequests ∧
      (mf.AgreesOn (Plain.opened twoBlocks) threeRequests ↔
        ∀ pre q post, threeRequests = pre ++ q :: post → q.size = 1 ∨ q.bytes = 0 ∨
          twoBlocks.length ≤ (pre.map Request.bytes).sum) := by
  obtain ⟨mf, w', h, -⟩ := twoBlocks_opened
  have hsize : ∀ q ∈ threeRequests, q.size ≠ 0 := by simp [threeRequests, Request.ofSize]
  have hiff := agrees_with_plain_iff h (f := twoBlocks) (by rw [length_twoBlocks]; rfl)
    (by rw [length_twoBlocks]; decide) (by rw [length_twoBlocks])
    (by rw [length_twoBlocks]; rfl) hsize
  refine ⟨mf, w', h, hiff.mpr ?_, hiff⟩
  intro pre q post hqs
  rw [length_twoBlocks]
  rw [threeRequests] at hqs
  rcases pre with _ | ⟨p, _ | ⟨p', _ | ⟨p'', pre⟩⟩⟩
  · cases hqs
    exact .inl rfl
  · cases hqs
    exact .inl rfl
  · cases hqs
    exact .inr (.inr (by decide))
  · simp at hqs

end IoUring
