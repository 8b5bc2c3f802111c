import IoUring.Mixed
import Mathlib.Algebra.BigOperators.Intervals

/-! What one `my_fread` of io_uring_polling.c stores and reports, and what calls repeated
until one returns 0 report of the rest of the file. -/

namespace IoUring

namespace Mixed

open SingleVec

def FreadState.result (st : FreadState) (size : UInt64) (mf : MyFile) : FreadResult :=
  ⟨st.bytesRead / size, st.ptr, { mf with stream := st.stream }, st.stores, st.reports⟩

theorem finish_synced {size : UInt64} (hsize : size ≠ 0) (mf : MyFile) (st : FreadState) :
    ∃ st', finish size mf st = some (st'.result size mf) ∧ Synced st st' := by
  obtain ⟨st', hrun, hs⟩ := readSync_synced (Nat.lt_succ_self st.totalBytes.toNat)
  refine ⟨st', ?_, hs⟩
  simp only [finish, hrun, if_neg hsize]
  rfl

/-- The loop's state at the start of a call that does not use the ring. -/
def MyFile.entry (mf : MyFile) (ptr : Nat → UInt8) (total : UInt64) : FreadState :=
  ⟨mf.stream, 0, ptr, total, 0, [], []⟩

theorem myFread_initiated {mf : MyFile} (h1 : mf.asyncInitiated ≠ 0) (a : Answers)
    (ptr : Nat → UInt8) (size count : UInt64) :
    myFread a ptr size count mf = finish size mf (mf.entry ptr (size * count)) := by
  rw [myFread, if_neg h1]
  rfl

/-- What the completed request puts into the caller's buffer. -/
def MyFile.fetched (mf : MyFile) (a : Answers) : List UInt8 :=
  (mf.handle.iov.fill (a.kernel readv).data).bytes.take a.count

/-- The loop's state behind the copy of what the ring read. -/
def MyFile.handedOver (mf : MyFile) (a : Answers) (ptr : Nat → UInt8) (total : UInt64) :
    FreadState :=
  let data := mf.fetched a
  ⟨mf.stream, data.length, memcpy ptr 0 data, total - UInt64.ofNat a.count,
    UInt64.ofNat a.count, [⟨0, data.length, total⟩], []⟩

def MyFile.initiated (mf : MyFile) (a : Answers) : MyFile :=
  { mf with
    handle := Handle.seen { mf.handle with iov := mf.handle.iov.fill (a.kernel readv).data }
    asyncInitiated := 1 }

theorem myFread_first {mf : MyFile} (h0 : mf.asyncInitiated = 0) {a : Answers}
    (h : a.Succeeds) (hcount : a.count ≤ 1024) (ptr : Nat → UInt8) (size count : UInt64) :
    myFread a ptr size count mf =
      finish size (mf.initiated a) (mf.handedOver a ptr (size * count)) := by
  have hconv := toNat_count a h
  have hnot : ¬ (a.kernel readv).res.toInt64.toUInt64 > bufferSize := by
    have hmax : (bufferSize : UInt64).toNat = 1024 := rfl
    rw [gt_iff_lt, UInt64.lt_iff_toNat_lt]
    omega
  have hof : (a.kernel readv).res.toInt64.toUInt64 = UInt64.ofNat a.count := by
    rw [← hconv, UInt64.ofNat_toNat]
  rw [myFread, if_pos h0, await_succeeds h]
  simp only [if_neg hnot]
  simp only [hconv]
  rw [hof]
  rfl

theorem myFread_failed {mf : MyFile} (h0 : mf.asyncInitiated = 0) {a : Answers}
    (h : ¬ a.Succeeds) (ptr : Nat → UInt8) (size count : UInt64) :
    ∃ r, myFread a ptr size count mf = some r ∧ r.ret = 0 ∧ r.stores = [] ∧
      r.mf.stream = mf.stream ∧ r.mf.asyncInitiated = if a.getSqe then 1 else 0 := by
  obtain ⟨report, hd, hawait⟩ := await_fails h mf.handle
  rw [myFread, if_pos h0]
  split at hawait
  · next hsqe =>
    rcases hawait with hlost | hfailed
    · simp [hlost, hsqe]
    · simp [hfailed, hsqe]
  · next hsqe => simp [hawait, h0, hsqe]

theorem MyFile.length_fetched (mf : MyFile) {a : Answers} (h : a.count ≤ 1024) :
    (mf.fetched a).length = a.count := by
  have hlen := (mf.handle.iov.fill (a.kernel readv).data).length_bytes
  rw [MyFile.fetched, List.length_take, hlen]
  exact Nat.min_eq_left h

theorem myFread_stores {a : Answers} {size : UInt64} {mf : MyFile} (h0 : mf.asyncInitiated = 0)
    (hok : a.Succeeds) (hsize : size ≠ 0) (hcount : a.count ≤ 1024) (ptr : Nat → UInt8)
    (count : UInt64) :
    ∃ r new, myFread a ptr size count mf = some r ∧
      r.stores = ⟨0, a.count, size * count⟩ :: new ∧ ∀ s ∈ new,
        s.dst + s.len ≤ a.count + (size * count - UInt64.ofNat a.count).toNat ∧
          s.len ≤ s.left.toNat := by
  obtain ⟨st, hrun, hs⟩ := finish_synced hsize (mf.initiated a)
    (mf.handedOver a ptr (size * count))
  obtain ⟨new, hnew, hall⟩ := hs.stores
  have hlen := mf.length_fetched hcount
  refine ⟨_, new, (myFread_first h0 hok hcount ptr size count).trans hrun, ?_, ?_⟩
  · rw [← hlen]
    exact hnew
  · intro s hs
    have hbound := hall s hs
    change _ ≤ (mf.fetched a).length + _ ∧ _ at hbound
    rwa [hlen] at hbound

/-- The buffer holds what is stored, and the count of what is left does not wrap, exactly
when the ring read no more than was asked for: it is always asked for 1024 bytes. -/
theorem stores_bounded_iff {a : Answers} {size count : UInt64} (mf : MyFile)
    (ptr : Nat → UInt8) (hsize : size ≠ 0) (hprod : size.toNat * count.toNat < 2 ^ 64)
    (hcount : a.count ≤ 1024) :
    (∃ r, myFread a ptr size count mf = some r ∧ ∀ s ∈ r.stores,
        s.dst + s.len ≤ size.toNat * count.toNat ∧ s.len ≤ s.left.toNat) ↔
      mf.asyncInitiated ≠ 0 ∨ ¬ a.Succeeds ∨ a.count ≤ size.toNat * count.toNat := by
  have htotal : (size * count).toNat = size.toNat * count.toNat := by
    rw [UInt64.toNat_mul, Nat.mod_eq_of_lt hprod]
  by_cases h0 : mf.asyncInitiated = 0
  · by_cases hok : a.Succeeds
    · obtain ⟨r, new, hcall, hstores, hall⟩ := myFread_stores h0 hok hsize hcount ptr count
      rw [hcall]
      constructor
      · rintro ⟨_, ⟨⟩, hbound⟩
        rw [hstores] at hbound
        have hle := (hbound _ List.mem_cons_self).1
        exact Or.inr (Or.inr ((Nat.zero_add _).symm.trans_le hle))
      · rintro (hne | hnot | hle)
        · exact absurd h0 hne
        · exact absurd hok hnot
        · have hsub : (size * count - UInt64.ofNat a.count).toNat =
              size.toNat * count.toNat - a.count := by
            rw [toNat_sub_ofNat (by rwa [htotal]), htotal]
          refine ⟨r, rfl, ?_⟩
          rw [hstores]
          intro s hs
          rcases List.mem_cons.mp hs with rfl | hs
          · simp only [htotal, Nat.zero_add]
            exact ⟨hle, hle⟩
          · obtain ⟨hdst, hleft⟩ := hall s hs
            exact ⟨by omega, hleft⟩
    · obtain ⟨r, hr, -, hnone, -⟩ := myFread_failed h0 hok ptr size count
      refine iff_of_true ⟨r, hr, ?_⟩ (Or.inr (Or.inl hok))
      simp [hnone]
  · obtain ⟨st, hrun, hs⟩ := finish_synced hsize mf (mf.entry ptr (size * count))
    refine iff_of_true ⟨_, (myFread_initiated h0 a ptr size count).trans hrun, ?_⟩ (Or.inl h0)
    obtain ⟨new, hnew, hall⟩ := hs.stores
    intro s hs
    have hs' : s ∈ st.stores := hs
    rw [hnew] at hs'
    obtain ⟨hdst, hleft⟩ := hall s hs'
    change _ ≤ 0 + (size * count).toNat at hdst
    exact ⟨by omega, hleft⟩

/-- The handle of `my_fopen`. -/
def opened (f : List UInt8) (h : Handle) : MyFile := ⟨⟨f, false, 0, false, false⟩, h, 0⟩

theorem two_bytes_for_one :
    ¬ ∃ r, myFread (serving [65, 66]) (fun _ => 0) 1 1 (opened [65, 66] ⟨Buffer.zero, 0⟩) = some r ∧
      ∀ s ∈ r.stores, s.dst + s.len ≤ (1 : UInt64).toNat * (1 : UInt64).toNat ∧
        s.len ≤ s.left.toNat := by
  have h0 : (opened [65, 66] ⟨Buffer.zero, 0⟩).asyncInitiated = 0 := rfl
  have hone : (1 : UInt64) ≠ 0 := by decide
  obtain ⟨r, new, hcall, hstores, -⟩ :=
    myFread_stores h0 (serving_succeeds [65, 66]) hone (by decide) (fun _ => 0) 1
  rw [hcall]
  rintro ⟨_, ⟨⟩, hbound⟩
  rw [hstores] at hbound
  have hle := (hbound _ List.mem_cons_self).1
  revert hle
  decide

theorem one_byte_for_one :
    (∃ r, myFread (serving [65]) (fun _ => 0) 1 1 (opened [65] ⟨Buffer.zero, 0⟩) = some r ∧
        ∀ s ∈ r.stores, s.dst + s.len ≤ (1 : UInt64).toNat * (1 : UInt64).toNat ∧
          s.len ≤ s.left.toNat) ↔
      (opened [65] ⟨Buffer.zero, 0⟩).asyncInitiated ≠ 0 ∨ ¬ (serving [65]).Succeeds ∨
        (serving [65]).count ≤ (1 : UInt64).toNat * (1 : UInt64).toNat :=
  stores_bounded_iff _ _ (by decide) (by decide) (by decide)

structure Call where
  answers : Answers
  ptr : Nat → UInt8
  count : UInt64

/-- `my_fread(buffer, 1, count, mf)`. -/
def MyFile.call (mf : MyFile) (c : Call) : Option FreadResult :=
  myFread c.answers c.ptr 1 c.count mf

theorem toNat_reported (n : UInt64) (rest : Nat) :
    (UInt64.ofNat (reported n.toNat rest)).toNat = reported n.toNat rest := by
  rw [UInt64.toNat_ofNat', Nat.mod_eq_of_lt]
  have := reported_le n.toNat rest
  have := n.toNat_lt
  omega

/-- What a call on the stream returns and leaves behind: it takes all it can get. -/
structure Reports (mf : MyFile) (n : Nat) (r : FreadResult) : Prop where
  ret : r.ret.toNat = reported n mf.stream.rest
  bytes : r.bytes =
    Cursor.read mf.stream.content mf.stream.pos (reported n mf.stream.rest)
  content : r.mf.stream.content = mf.stream.content
  pos : r.mf.stream.pos = mf.stream.pos + min n mf.stream.rest
  initiated : r.mf.asyncInitiated = mf.asyncInitiated

theorem call_reports {mf : MyFile} (h1 : mf.asyncInitiated ≠ 0) (c : Call) :
    ∃ r, mf.call c = some r ∧ Reports mf c.count.toNat r := by
  have hone : (1 : UInt64) * c.count = c.count := UInt64.one_mul _
  have hnonzero : (1 : UInt64) ≠ 0 := by decide
  obtain ⟨st, hrun, hs⟩ := finish_synced hnonzero mf (mf.entry c.ptr c.count)
  have hcall : mf.call c = some (st.result 1 mf) := by
    rw [MyFile.call, myFread_initiated h1, hone]
    exact hrun
  have hle := reported_le c.count.toNat mf.stream.rest
  have hread : st.bytesRead = UInt64.ofNat (reported c.count.toNat mf.stream.rest) :=
    hs.bytesRead.trans (UInt64.zero_add _)
  have hret : (st.result 1 mf).ret.toNat = reported c.count.toNat mf.stream.rest := by
    change (st.bytesRead / 1).toNat = _
    rw [UInt64.div_one, hread, toNat_reported]
  have hptr : st.ptr =
      memcpy c.ptr 0 (Cursor.read mf.stream.content mf.stream.pos c.count.toNat) := hs.ptr
  have hlen := Cursor.length_read mf.stream.content mf.stream.pos c.count.toNat
  refine ⟨_, hcall, hret, ?_, hs.content, hs.pos, rfl⟩
  change (List.range (st.result 1 mf).ret.toNat).map st.ptr = _
  rw [hret, hptr, range_map_memcpy_take _ (by rw [hlen]; exact hle)]
  simp only [Cursor.read, List.take_take]
  rw [Nat.min_eq_left (hle.trans (Nat.min_le_left _ _))]

/-- The value returned is the distance that the stream moved unless the file ends within
a chunk of the request: the bytes of that chunk are taken and not counted. -/
theorem advance_reported_iff {mf : MyFile} (h1 : mf.asyncInitiated ≠ 0) (c : Call) :
    (∃ r, mf.call c = some r ∧ r.mf.stream.pos = mf.stream.pos + r.ret.toNat) ↔
      c.count.toNat ≤ mf.stream.rest ∨ mf.stream.rest % 1024 = 0 := by
  obtain ⟨r, hcall, hr⟩ := call_reports h1 c
  have hle := hr.pos
  rw [hcall, ← reported_eq_iff]
  constructor
  · rintro ⟨r', hr', hpos⟩
    cases hr'
    rw [hr.ret] at hpos
    omega
  · intro heq
    refine ⟨r, rfl, ?_⟩
    rw [hr.ret, hr.pos, heq]

/-- `while ((n = my_fread(buffer, 1, count, mf)) > 0)`: what was reported until a call
returned 0, if that happened within the given number of turns. -/
def readLoop : Nat → MyFile → (Nat → Call) → Option (List UInt8)
  | 0, _, _ => none
  | turns + 1, mf, cs =>
    match mf.call (cs 0) with
    | none => none
    | some r =>
      if r.ret = 0 then some []
      else (readLoop turns r.mf (fun i => cs (i + 1))).map (r.bytes ++ ·)

def asked (cs : Nat → Call) (n : Nat) : Nat := ∑ i ∈ Finset.range n, (cs i).count.toNat

theorem asked_succ (cs : Nat → Call) (n : Nat) :
    asked cs (n + 1) = (cs 0).count.toNat + asked (fun i => cs (i + 1)) n := by
  rw [asked, Finset.sum_range_succ', add_comm]
  rfl

theorem readLoop_mono {turns turns' : Nat} {mf : MyFile} {cs : Nat → Call} {out : List UInt8}
    (h : readLoop turns mf cs = some out) (hle : turns ≤ turns') :
    readLoop turns' mf cs = some out := by
  induction turns generalizing turns' mf cs out with
  | zero => cases h
  | succ turns ih =>
    obtain ⟨turns', rfl⟩ : ∃ t, turns' = t + 1 := ⟨turns' - 1, by omega⟩
    rw [readLoop] at h ⊢
    cases hcall : mf.call (cs 0) with
    | none => simp [hcall] at h
    | some r =>
      simp only [hcall] at h ⊢
      by_cases hz : r.ret = 0
      · rwa [if_pos hz] at h ⊢
      · rw [if_neg hz] at h ⊢
        obtain ⟨rest, hrest, rfl⟩ := Option.map_eq_some_iff.mp h
        rw [ih hrest (Nat.le_of_succ_le_succ hle)]
        rfl

theorem readLoop_succ {mf : MyFile} (h1 : mf.asyncInitiated ≠ 0) (turns : Nat)
    (cs : Nat → Call) :
    ∃ mf', mf'.asyncInitiated ≠ 0 ∧ mf'.stream.content = mf.stream.content ∧
      mf'.stream.pos = mf.stream.pos + min (cs 0).count.toNat mf.stream.rest ∧
      readLoop (turns + 1) mf cs =
        if reported (cs 0).count.toNat mf.stream.rest = 0 then some []
        else (readLoop turns mf' (fun i => cs (i + 1))).map
          (Cursor.read mf.stream.content mf.stream.pos
            (reported (cs 0).count.toNat mf.stream.rest) ++ ·) := by
  obtain ⟨r, hcall, hr⟩ := call_reports h1 (cs 0)
  refine ⟨r.mf, by rw [hr.initiated]; exact h1, hr.content, hr.pos, ?_⟩
  rw [readLoop, hcall]
  simp only [hr.bytes, ← hr.ret, ← UInt64.toNat_inj, UInt64.toNat_zero]

theorem readLoop_eq {mf : MyFile} (h1 : mf.asyncInitiated ≠ 0) {cs : Nat → Call} {n turns : Nat}
    (hpos : ∀ i, 0 < (cs i).count.toNat) (hle : asked cs n ≤ mf.stream.rest)
    (hlt : mf.stream.rest < asked cs (n + 1)) (ht : n + 1 < turns) :
    readLoop turns mf cs = some (Cursor.read mf.stream.content mf.stream.pos
      (asked cs n + (mf.stream.rest - asked cs n) / 1024 * 1024)) := by
  induction n generalizing mf cs turns with
  | zero =>
    obtain ⟨turns, rfl⟩ : ∃ t, turns = t + 1 + 1 := ⟨turns - 2, by omega⟩
    obtain ⟨mf', h1', hcontent, hp, hloop⟩ := readLoop_succ h1 (turns + 1) cs
    obtain ⟨_, _, _, _, hloop'⟩ := readLoop_succ h1' turns (fun i => cs (i + 1))
    have hzero : asked cs 0 = 0 := rfl
    have hone := asked_succ cs 0
    have hnone : asked (fun i => cs (i + 1)) 0 = 0 := rfl
    have hmore : mf.stream.rest < (cs 0).count.toNat := by omega
    have hrep : reported (cs 0).count.toNat mf.stream.rest = mf.stream.rest / 1024 * 1024 :=
      if_neg (by omega)
    have hend : mf'.stream.rest = 0 := by
      rw [Stream.rest, hcontent, hp]
      rw [Stream.rest] at hmore ⊢
      omega
    have hdone : reported (cs 1).count.toNat mf'.stream.rest = 0 := by
      have := reported_le (cs 1).count.toNat mf'.stream.rest
      omega
    rw [if_pos hdone] at hloop'
    rw [hloop, hloop', hzero, hrep, Nat.zero_add, Nat.sub_zero]
    by_cases hz : mf.stream.rest / 1024 * 1024 = 0
    · rw [if_pos hz, hz, Cursor.read_zero]
    · rw [if_neg hz, Option.map_some, List.append_nil]
  | succ n ih =>
    obtain ⟨turns, rfl⟩ : ∃ t, turns = t + 1 := ⟨turns - 1, by omega⟩
    obtain ⟨mf', h1', hcontent, hp, hloop⟩ := readLoop_succ h1 turns cs
    have hfirst := hpos 0
    have hn := asked_succ cs n
    have hn' := asked_succ cs (n + 1)
    have hfit : (cs 0).count.toNat ≤ mf.stream.rest := by omega
    have hrep : reported (cs 0).count.toNat mf.stream.rest = (cs 0).count.toNat := if_pos hfit
    rw [Nat.min_eq_left hfit] at hp
    have hrest : mf'.stream.rest = mf.stream.rest - (cs 0).count.toNat := by
      rw [Stream.rest, hcontent, hp, Stream.rest]
      omega
    have ht' : n + 1 < turns := by omega
    have hrec := ih h1' (fun i => hpos (i + 1)) (by omega) (by omega) ht'
    have hseek : Cursor.seek mf.stream.content mf.stream.pos (cs 0).count.toNat =
        mf'.stream.pos := by
      rw [Cursor.seek, hp]
      rw [Stream.rest] at hfit
      omega
    have hsum : asked cs (n + 1) + (mf.stream.rest - asked cs (n + 1)) / 1024 * 1024 =
        (cs 0).count.toNat + (asked (fun i => cs (i + 1)) n +
          (mf'.stream.rest - asked (fun i => cs (i + 1)) n) / 1024 * 1024) := by
      rw [hrest, hn, Nat.sub_sub]
      omega
    rw [hloop, hrep, if_neg (by omega), hrec, hsum, hcontent, ← hseek]
    exact congrArg some (Cursor.read_add _ _).symm

theorem exists_asked_lt {cs : Nat → Call} (hpos : ∀ i, 0 < (cs i).count.toNat) (rest : Nat) :
    ∃ n, asked cs n ≤ rest ∧ rest < asked cs (n + 1) := by
  have hgrows : ∀ n, n ≤ asked cs n := fun n => Cursor.le_sum_range hpos
  have hlarge : ∃ n, rest < asked cs n := ⟨rest + 1, hgrows (rest + 1)⟩
  have hfirst : ¬ rest < asked cs 0 := Nat.not_lt_zero rest
  cases hn : Nat.find hlarge with
  | zero =>
    have hspec := Nat.find_spec hlarge
    rw [hn] at hspec
    exact absurd hspec hfirst
  | succ n =>
    have hspec := Nat.find_spec hlarge
    have hmin := Nat.find_min hlarge (m := n) (by omega)
    rw [hn] at hspec
    exact ⟨n, by omega, hspec⟩

/-- The calls repeated until one returns 0 report the rest of the file exactly when the
call that asks for more than is left finds whole chunks left. -/
theorem rest_reported_iff {mf : MyFile} (h1 : mf.asyncInitiated ≠ 0) {cs : Nat → Call}
    (hpos : ∀ i, 0 < (cs i).count.toNat) :
    (∃ turns, readLoop turns mf cs =
        some (Cursor.read mf.stream.content mf.stream.pos mf.stream.rest)) ↔
      ∀ n, asked cs n ≤ mf.stream.rest → mf.stream.rest < asked cs (n + 1) →
        (mf.stream.rest - asked cs n) % 1024 = 0 := by
  constructor
  · rintro ⟨turns, hrun⟩ n hle hlt
    have ht : n + 1 < turns + n + 2 := by omega
    have hn := readLoop_eq h1 hpos hle hlt ht
    rw [readLoop_mono hrun (by omega), Option.some_inj] at hn
    have hlen := congrArg List.length hn
    rw [Cursor.length_read, Cursor.length_read] at hlen
    rw [Stream.rest] at *
    omega
  · intro hall
    obtain ⟨n, hle, hlt⟩ := exists_asked_lt hpos mf.stream.rest
    have hmod := hall n hle hlt
    refine ⟨n + 2, ?_⟩
    rw [readLoop_eq h1 hpos hle hlt (by omega)]
    congr 2
    omega

/-- Both parts of the law: each call reports what it takes, and the calls until 0 report
all that is left. -/
theorem taken_reported_iff {mf : MyFile} (h1 : mf.asyncInitiated = 1) :
    (∀ c, (∃ r, mf.call c = some r ∧ r.mf.stream.pos = mf.stream.pos + r.ret.toNat) ↔
      c.count.toNat ≤ mf.stream.rest ∨ mf.stream.rest % 1024 = 0) ∧
    ∀ cs : Nat → Call, (∀ i, 0 < (cs i).count.toNat) →
      ((∃ turns, readLoop turns mf cs =
          some (Cursor.read mf.stream.content mf.stream.pos mf.stream.rest)) ↔
        ∀ n, asked cs n ≤ mf.stream.rest → mf.stream.rest < asked cs (n + 1) →
          (mf.stream.rest - asked cs n) % 1024 = 0) := by
  have hne : mf.asyncInitiated ≠ 0 := by
    rw [h1]
    decide
  exact ⟨advance_reported_iff hne, fun _ hpos => rest_reported_iff hne hpos⟩

theorem last_byte_unreported :
    ¬ ∃ r, MyFile.call ⟨⟨[65], false, 0, false, false⟩, ⟨Buffer.zero, 0⟩, 1⟩
        ⟨serving [65], fun _ => 0, 2⟩ = some r ∧ r.mf.stream.pos = 0 + r.ret.toNat := by
  have h1 : MyFile.asyncInitiated ⟨⟨[65], false, 0, false, false⟩, ⟨Buffer.zero, 0⟩, 1⟩ ≠ 0 := by
    decide
  rw [advance_reported_iff h1 ⟨serving [65], fun _ => 0, 2⟩]
  decide

theorem last_byte_reported :
    let mf : MyFile := ⟨⟨[65], false, 0, false, false⟩, ⟨Buffer.zero, 0⟩, 1⟩
    (∀ c, (∃ r, mf.call c = some r ∧ r.mf.stream.pos = mf.stream.pos + r.ret.toNat) ↔
      c.count.toNat ≤ mf.stream.rest ∨ mf.stream.rest % 1024 = 0) ∧
    ∀ cs : Nat → Call, (∀ i, 0 < (cs i).count.toNat) →
      ((∃ turns, readLoop turns mf cs =
          some (Cursor.read mf.stream.content mf.stream.pos mf.stream.rest)) ↔
        ∀ n, asked cs n ≤ mf.stream.rest → mf.stream.rest < asked cs (n + 1) →
          (mf.stream.rest - asked cs n) % 1024 = 0) :=
  taken_reported_iff rfl

end Mixed

end IoUring
