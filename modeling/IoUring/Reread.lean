import IoUring.Poll

/-! What the calls of io_uring_poll.cpp deliver: the first bytes of the file, over and
over. -/

namespace IoUring

namespace Poll

open SingleVec

/-- `answers i` are those of the `i`-th turn of the call. -/
structure Call where
  answers : Nat → Answers
  ptr : Nat → UInt8
  count : UInt64

def Call.Reads (c : Call) (f : List UInt8) : Prop :=
  ∀ i, (c.answers i).Succeeds ∧ (c.answers i).ReadsFrom f

/-- `my_fread(buffer, 1, count, mf)` for each call, each in at most so many turns. -/
def readRun (turns : Nat) : Handle → List Call → Option (List FreadResult)
  | _, [] => some []
  | h, c :: cs =>
    match myFread turns c.answers c.ptr 1 c.count h with
    | none => none
    | some r => (readRun turns r.handle cs).map (r :: ·)

def total (cs : List Call) : Nat := (cs.map fun c => c.count.toNat).sum

theorem total_cons (c : Call) (cs : List Call) : total (c :: cs) = c.count.toNat + total cs := by
  rw [total, List.map_cons, List.sum_cons]
  rfl

section

variable {f : List UInt8} {answers : Nat → Answers}

theorem took_reads {a : Answers} {st st' : FreadState} (hok : a.Succeeds) (hreads : a.ReadsFrom f)
    (h : Took a st st') :
    st'.totalBytes.toNat = st.totalBytes.toNat - min 1024 f.length ∧
      st'.ptr = memcpy st.ptr st.buffer (f.take (min st.totalBytes.toNat (min 1024 f.length))) ∧
      st'.buffer = st.buffer + min st.totalBytes.toNat (min 1024 f.length) ∧
      st'.bytesRead = st.bytesRead + UInt64.ofNat (min st.totalBytes.toNat (min 1024 f.length)) := by
  obtain ⟨hdata, hcount⟩ := count_of_readsFrom hok hreads
  have hshare : share a st.totalBytes.toNat = min st.totalBytes.toNat (min 1024 f.length) := by
    rw [share, hcount]
    omega
  obtain ⟨hleft, hread, hbuffer, hptr⟩ := h
  rw [hshare] at hleft hread hbuffer hptr
  refine ⟨by omega, ?_, hbuffer, hread⟩
  have hlen : (f.take (min 1024 f.length)).length = min 1024 f.length :=
    List.length_take_of_le (Nat.min_le_right _ _)
  rw [hptr, hdata, Buffer.fill_take _ (by omega) (by omega), List.take_take,
    Nat.min_eq_left (Nat.min_le_right _ _)]

/-- The loop stores the first bytes of the file again and again. -/
theorem freadLoop_rereads (hreads : ∀ i, (answers i).Succeeds ∧ (answers i).ReadsFrom f)
    {turns : Nat} {st : FreadState} {e : Ended} (h : freadLoop turns answers st = some e) :
    ∃ st' out, e = .left st' ∧
      Cursor.Rereads f (min 1024 f.length) st.totalBytes.toNat out ∧
      st'.ptr = memcpy st.ptr st.buffer out ∧ st'.bytesRead = st.bytesRead + st.totalBytes := by
  induction turns generalizing answers st with
  | zero => cases h
  | succ turns ih =>
    rw [freadLoop] at h
    by_cases hz : st.totalBytes = 0
    · rw [if_pos hz] at h
      cases h
      rw [hz]
      exact ⟨st, [], rfl, Cursor.Rereads.nil, (memcpy_nil _ _).symm, (UInt64.add_zero _).symm⟩
    · obtain ⟨hok, hread⟩ := hreads 0
      obtain ⟨st₁, hturn, htook⟩ := freadTurn_succeeds hok st
      rw [if_neg hz, hturn] at h
      obtain ⟨hleft, hptr, hbuffer, hcount⟩ := took_reads hok hread htook
      obtain ⟨st', out, rfl, hout, hptr', hcount'⟩ := ih (fun i => hreads (i + 1)) h
      have hlen : (f.take (min st.totalBytes.toNat (min 1024 f.length))).length =
          min st.totalBytes.toNat (min 1024 f.length) := List.length_take_of_le (by omega)
      rw [hleft] at hout
      refine ⟨st', _, rfl, hout.cons (Nat.min_le_right _ _), ?_, ?_⟩
      · have happ := memcpy_append st.ptr st.buffer
          (f.take (min st.totalBytes.toNat (min 1024 f.length))) out
        rw [hlen] at happ
        rw [hptr', hptr, hbuffer, happ]
      · have hsum : st.totalBytes =
            UInt64.ofNat (min st.totalBytes.toNat (min 1024 f.length)) + st₁.totalBytes := by
          rw [← UInt64.toNat_inj, UInt64.toNat_add, UInt64.toNat_ofNat', hleft]
          have := st.totalBytes.toNat_lt
          omega
        rw [hcount', hcount, UInt64.add_assoc, ← hsum]

theorem freadLoop_returns (hreads : ∀ i, (answers i).Succeeds ∧ (answers i).ReadsFrom f)
    {turns : Nat} {st : FreadState} (h : f ≠ [] ∨ st.totalBytes.toNat = 0)
    (ht : st.totalBytes.toNat < turns) : ∃ e, freadLoop turns answers st = some e := by
  induction turns generalizing answers st with
  | zero => omega
  | succ turns ih =>
    rw [freadLoop]
    by_cases hz : st.totalBytes = 0
    · exact ⟨_, if_pos hz⟩
    · have hne : st.totalBytes.toNat ≠ 0 := fun he => hz (UInt64.toNat_inj.mp he)
      have hf := h.resolve_right hne
      have hlen : 0 < f.length := List.length_pos_iff.mpr hf
      obtain ⟨hok, hread⟩ := hreads 0
      obtain ⟨st₁, hturn, htook⟩ := freadTurn_succeeds hok st
      have hleft := (took_reads hok hread htook).1
      have hlt : st₁.totalBytes.toNat < turns := by omega
      obtain ⟨e, he⟩ := ih (fun i => hreads (i + 1)) (Or.inl hf) hlt
      exact ⟨e, by rw [if_neg hz, hturn]; exact he⟩

end

theorem myFread_rereads {c : Call} {f : List UInt8} (hc : c.Reads f) {turns : Nat} {h : Handle}
    {r : FreadResult} (hcall : myFread turns c.answers c.ptr 1 c.count h = some r) :
    Cursor.Rereads f (min 1024 f.length) c.count.toNat r.bytes := by
  rw [myFread] at hcall
  cases hloop : freadLoop turns c.answers (entry h c.ptr (1 * c.count)) with
  | none =>
    rw [hloop] at hcall
    cases hcall
  | some e =>
    obtain ⟨st, out, rfl, hout, hptr, hread⟩ := freadLoop_rereads hc hloop
    rw [hloop] at hcall
    cases hcall
    change Cursor.Rereads f _ (1 * c.count).toNat out at hout
    rw [UInt64.one_mul] at hout
    have hret : st.bytesRead / 1 = c.count := by
      rw [UInt64.div_one, hread]
      change 0 + 1 * c.count = _
      rw [UInt64.zero_add, UInt64.one_mul]
    have hbytes : (List.range (st.bytesRead / 1).toNat).map st.ptr = out := by
      rw [hret, hptr, ← hout.length]
      exact range_map_memcpy _ _
    change Cursor.Rereads f _ _ ((List.range (st.bytesRead / 1).toNat).map st.ptr)
    rwa [hbytes]

theorem myFread_returns {c : Call} {f : List UInt8} (hc : c.Reads f)
    (h : f ≠ [] ∨ c.count.toNat = 0) (hd : Handle) :
    ∃ r, myFread (2 ^ 64) c.answers c.ptr 1 c.count hd = some r := by
  have htotal : (entry hd c.ptr (1 * c.count)).totalBytes.toNat = c.count.toNat :=
    congrArg UInt64.toNat (UInt64.one_mul _)
  have hlt : (entry hd c.ptr (1 * c.count)).totalBytes.toNat < 2 ^ 64 := by
    rw [htotal]
    exact c.count.toNat_lt
  obtain ⟨e, hloop⟩ := freadLoop_returns hc (by rwa [htotal]) hlt
  rw [myFread, hloop]
  cases e with
  | returned st => exact ⟨_, rfl⟩
  | left st => exact ⟨_, rfl⟩

/-- The calls deliver what comes next in the file: each ends within it, at a place from
which the file repeats its first 1024 bytes. -/
def Repeats (f : List UInt8) : Nat → List Call → Prop
  | _, [] => True
  | pos, c :: cs =>
    (c.count.toNat = 0 ∨ pos + c.count.toNat ≤ f.length) ∧
      (∀ i < c.count.toNat, f[pos + i]? = f[i % 1024]?) ∧ Repeats f (pos + c.count.toNat) cs

theorem Repeats.of_zero {f : List UInt8} {pos : Nat} {cs : List Call} (h : total cs = 0) :
    Repeats f pos cs := by
  induction cs generalizing pos with
  | nil => trivial
  | cons c cs ih =>
    rw [total_cons] at h
    exact ⟨Or.inl (by omega), fun i hi => by omega, ih (by omega)⟩

theorem mod_min_eq {f : List UInt8} {pos k i : Nat} (hfit : pos + k ≤ f.length) (hi : i < k) :
    i % min 1024 f.length = i % 1024 := by
  by_cases hf : 1024 ≤ f.length
  · rw [Nat.min_eq_left hf]
  · rw [Nat.min_eq_right (by omega), Nat.mod_eq_of_lt (by omega), Nat.mod_eq_of_lt (by omega)]

theorem Rereads.follows_mod_iff {f out : List UInt8} {k pos : Nat}
    (h : Cursor.Rereads f (min 1024 f.length) k out) :
    out <+: f.drop pos ↔
      (k = 0 ∨ pos + k ≤ f.length) ∧ ∀ i < k, f[pos + i]? = f[i % 1024]? := by
  rw [h.follows_iff]
  refine and_congr_right fun hfit => forall_congr' fun i => forall_congr' fun hi => ?_
  rw [mod_min_eq (hfit.resolve_left (by omega)) hi]

theorem readRun_follows_iff {f : List UInt8} {turns : Nat} {h : Handle} {cs : List Call}
    {rs : List FreadResult} (pos : Nat) (hcs : ∀ c ∈ cs, c.Reads f)
    (hrun : readRun turns h cs = some rs) :
    rs.flatMap FreadResult.bytes <+: f.drop pos ↔ Repeats f pos cs := by
  induction cs generalizing h pos rs with
  | nil =>
    cases hrun
    exact iff_of_true List.nil_prefix trivial
  | cons c cs ih =>
    obtain ⟨hc, hrest⟩ := List.forall_mem_cons.mp hcs
    rw [readRun] at hrun
    cases hcall : myFread turns c.answers c.ptr 1 c.count h with
    | none => simp [hcall] at hrun
    | some r =>
      rw [hcall] at hrun
      obtain ⟨rest, hrest', rfl⟩ := Option.map_eq_some_iff.mp hrun
      have hr := myFread_rereads hc hcall
      rw [List.flatMap_cons, Cursor.append_follows_iff, Rereads.follows_mod_iff hr, hr.length,
        ih _ hrest hrest', and_assoc]
      rfl

/-- From an empty file no call gets a byte, so none that wants one returns. -/
theorem readRun_returns_iff {f : List UInt8} (h : Handle) {cs : List Call}
    (hcs : ∀ c ∈ cs, c.Reads f) :
    (∃ turns rs, readRun turns h cs = some rs) ↔ f ≠ [] ∨ total cs = 0 := by
  constructor
  · rintro ⟨turns, rs, hrun⟩
    induction cs generalizing h rs with
    | nil => exact Or.inr rfl
    | cons c cs ih =>
      obtain ⟨hc, hrest⟩ := List.forall_mem_cons.mp hcs
      rw [readRun] at hrun
      cases hcall : myFread turns c.answers c.ptr 1 c.count h with
      | none =>
        rw [hcall] at hrun
        cases hrun
      | some r =>
        rw [hcall] at hrun
        obtain ⟨rest, hrest', -⟩ := Option.map_eq_some_iff.mp hrun
        refine (ih r.handle hrest rest hrest').elim Or.inl ?_
        intro hz
        by_cases hf : f = []
        · right
          have hr := myFread_rereads hc hcall
          rw [total_cons, hz, Nat.add_zero]
          by_contra hne
          have hget := hr.getElem? 0 (Nat.pos_of_ne_zero hne)
          rw [hf, List.getElem?_nil, List.getElem?_eq_none_iff, hr.length] at hget
          omega
        · exact Or.inl hf
  · intro hor
    refine ⟨2 ^ 64, ?_⟩
    induction cs generalizing h with
    | nil => exact ⟨[], rfl⟩
    | cons c cs ih =>
      obtain ⟨hc, hrest⟩ := List.forall_mem_cons.mp hcs
      rw [total_cons] at hor
      obtain ⟨r, hcall⟩ := myFread_returns hc (hor.imp_right (by omega)) h
      obtain ⟨rs, hrun⟩ := ih r.handle hrest (hor.imp_right (by omega))
      refine ⟨r :: rs, ?_⟩
      rw [readRun, hcall]
      exact congrArg (Option.map (r :: ·)) hrun

/-- What the calls return are the next bytes of the file exactly where it repeats its
beginning. Whether they return at all is a matter of there being a byte to read. -/
theorem successive_reads_iff {f : List UInt8} (h : Handle) {cs : List Call}
    (hcs : ∀ c ∈ cs, c.Reads f) :
    ((∀ turns rs, readRun turns h cs = some rs → rs.flatMap FreadResult.bytes <+: f) ↔
      f = [] ∨ Repeats f 0 cs) ∧
    ((∃ turns rs, readRun turns h cs = some rs) ↔ f ≠ [] ∨ total cs = 0) := by
  have hreturns := readRun_returns_iff h hcs
  refine ⟨?_, hreturns⟩
  constructor
  · intro hall
    by_cases hf : f = []
    · exact Or.inl hf
    · obtain ⟨turns, rs, hrun⟩ := hreturns.mpr (Or.inl hf)
      have hfollows := hall turns rs hrun
      exact Or.inr ((readRun_follows_iff 0 hcs hrun).mp hfollows)
  · rintro hor turns rs hrun
    rcases hor with hf | hrep
    · have hz : total cs = 0 := (hreturns.mp ⟨turns, rs, hrun⟩).resolve_left (not_not.mpr hf)
      exact (readRun_follows_iff 0 hcs hrun).mpr (Repeats.of_zero hz)
    · exact (readRun_follows_iff 0 hcs hrun).mpr hrep

def Call.ofFile (f : List UInt8) (count : UInt64) : Call := ⟨fun _ => serving f, fun _ => 0, count⟩

theorem Call.ofFile_reads (f : List UInt8) (count : UInt64) : (Call.ofFile f count).Reads f :=
  fun _ => ⟨serving_succeeds f, serving_readsFrom f⟩

theorem first_byte_twice :
    ¬ ∀ turns rs, readRun turns ⟨Buffer.zero, 0⟩ [.ofFile [65, 66] 1, .ofFile [65, 66] 1] = some rs →
      rs.flatMap FreadResult.bytes <+: [65, 66] := by
  intro hall
  have hcs : ∀ c ∈ [Call.ofFile [65, 66] 1, .ofFile [65, 66] 1], c.Reads [65, 66] := by
    simp [Call.ofFile_reads]
  obtain ⟨turns, rs, hrun⟩ := (readRun_returns_iff ⟨Buffer.zero, 0⟩ hcs).mpr (Or.inl (by decide))
  have hrep := (readRun_follows_iff 0 hcs hrun).mp (hall turns rs hrun)
  have hget := hrep.2.2.2.1 0 (by decide)
  revert hget
  decide

theorem one_byte_once :
    ((∀ turns rs, readRun turns ⟨Buffer.zero, 0⟩ [.ofFile [65] 1] = some rs →
        rs.flatMap FreadResult.bytes <+: [65]) ↔ ([65] : List UInt8) = [] ∨
          Repeats [65] 0 [.ofFile [65] 1]) ∧
    ((∃ turns rs, readRun turns ⟨Buffer.zero, 0⟩ [.ofFile [65] 1] = some rs) ↔
      ([65] : List UInt8) ≠ [] ∨ total [.ofFile [65] 1] = 0) := by
  refine successive_reads_iff _ ?_
  intro c hc
  obtain rfl := List.mem_singleton.mp hc
  exact Call.ofFile_reads _ _

end Poll

end IoUring
