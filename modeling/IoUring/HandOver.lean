import IoUring.MixedSpec

/-! The change from the ring to the stream in io_uring_polling.c. The first request reads
at offset 0 and leaves the stream where it is, so the first `fread` starts over. -/

namespace IoUring

namespace Mixed

open SingleVec

def readRun : MyFile → List Call → Option (List FreadResult × MyFile)
  | mf, [] => some ([], mf)
  | mf, c :: cs =>
    match mf.call c with
    | none => none
    | some r => (readRun r.mf cs).map fun rest => (r :: rest.1, rest.2)

def total (cs : List Call) : Nat := (cs.map fun c => c.count.toNat).sum

theorem total_cons (c : Call) (cs : List Call) : total (c :: cs) = c.count.toNat + total cs := by
  rw [total, List.map_cons, List.sum_cons]
  rfl

theorem readRun_cons {mf : MyFile} {c : Call} {r : FreadResult} (hcall : mf.call c = some r)
    (cs : List Call) :
    readRun mf (c :: cs) = (readRun r.mf cs).map fun rest => (r :: rest.1, rest.2) := by
  rw [readRun, hcall]

/-- Of `asked` bytes, `m` are reported where `rest` are left. -/
def Partly (asked rest m : Nat) : Prop :=
  (asked ≤ rest ∧ m = asked) ∨ (rest < asked ∧ m ≤ rest ∧ rest < m + 1024)

theorem readRun_later {mf : MyFile} (h1 : mf.asyncInitiated ≠ 0)
    (hpos : mf.stream.pos ≤ mf.stream.content.length) (cs : List Call) :
    ∃ rs mf' m, readRun mf cs = some (rs, mf') ∧
      rs.flatMap FreadResult.bytes = Cursor.read mf.stream.content mf.stream.pos m ∧
      Partly (total cs) mf.stream.rest m := by
  induction cs generalizing mf with
  | nil => exact ⟨[], mf, 0, rfl, by simp, Or.inl ⟨Nat.zero_le _, rfl⟩⟩
  | cons c cs ih =>
    obtain ⟨r, hcall, hr⟩ := call_reports h1 c
    have hrest : r.mf.stream.rest = mf.stream.rest - c.count.toNat := by
      rw [Stream.rest, hr.content, hr.pos, Stream.rest]
      omega
    have hpos' : r.mf.stream.pos ≤ r.mf.stream.content.length := by
      rw [hr.content, hr.pos, Stream.rest]
      omega
    obtain ⟨rs, mf', m, hrun, hbytes, hm⟩ := ih (by rw [hr.initiated]; exact h1) hpos'
    rw [hrest] at hm
    refine ⟨r :: rs, mf', reported c.count.toNat mf.stream.rest + m, ?_, ?_, ?_⟩
    · rw [readRun_cons hcall, hrun]
      rfl
    · rw [List.flatMap_cons, hr.bytes, hbytes, hr.content, Cursor.read_add]
      by_cases hfit : c.count.toNat ≤ mf.stream.rest
      · have hseek : Cursor.seek mf.stream.content mf.stream.pos c.count.toNat =
            r.mf.stream.pos := by
          rw [hr.pos, Cursor.seek, Stream.rest]
          omega
        rw [reported, if_pos hfit, hseek]
      · have hnone : m = 0 := by
          rw [Partly] at hm
          omega
        rw [hnone, Cursor.read_zero, Cursor.read_zero]
    · rw [total_cons]
      rw [Partly] at hm ⊢
      rw [reported]
      split <;> omega

theorem call_failed {f : List UInt8} {h : Handle} {c : Call} (hfail : ¬ c.answers.Succeeds) :
    ∃ r, (opened f h).call c = some r ∧ r.bytes = [] ∧ r.mf.stream = (opened f h).stream ∧
      r.mf.asyncInitiated = if c.answers.getSqe then 1 else 0 := by
  have h0 : (opened f h).asyncInitiated = 0 := rfl
  obtain ⟨r, hcall, hret, -, hstream, hflag⟩ := myFread_failed h0 hfail c.ptr 1 c.count
  refine ⟨r, hcall, ?_, hstream, hflag⟩
  simp [FreadResult.bytes, hret]

/-- The first call whose request completes returns what the ring read, followed by what
the stream has from its beginning. -/
theorem call_first {f : List UInt8} {h : Handle} {c : Call} (hok : c.answers.Succeeds)
    (hreads : c.answers.ReadsFrom f) (hcount : 1024 ≤ c.count.toNat) :
    let n := min 1024 f.length
    ∃ r, (opened f h).call c = some r ∧ r.mf.asyncInitiated = 1 ∧ r.mf.stream.content = f ∧
      r.mf.stream.pos = min (c.count.toNat - n) f.length ∧
      r.bytes = f.take n ++ f.take (reported (c.count.toNat - n) f.length) := by
  intro n
  obtain ⟨hdata, hread⟩ := count_of_readsFrom hok hreads
  change _ = f.take n at hdata
  change _ = n at hread
  have hn : n ≤ 1024 := Nat.min_le_left _ _
  have hlen : (f.take n).length = n := List.length_take_of_le (Nat.min_le_right _ _)
  have hfetched : (opened f h).fetched c.answers = f.take n := by
    rw [MyFile.fetched, hdata, hread, Buffer.fill_take _ (by rw [hlen]; exact hn) (by rw [hlen]),
      List.take_take, Nat.min_self]
  have hone : (1 : UInt64) ≠ 0 := by decide
  obtain ⟨st, hrun, hs⟩ := finish_synced hone ((opened f h).initiated c.answers)
    ((opened f h).handedOver c.answers c.ptr c.count)
  have hcall : (opened f h).call c = some (st.result 1 ((opened f h).initiated c.answers)) := by
    rw [MyFile.call, myFread_first rfl hok (by rw [hread]; exact hn), UInt64.one_mul, hrun]
  have hleft : ((opened f h).handedOver c.answers c.ptr c.count).totalBytes.toNat =
      c.count.toNat - n := by
    change (c.count - UInt64.ofNat c.answers.count).toNat = _
    rw [hread, toNat_sub_ofNat (by omega)]
  have hrest : ((opened f h).handedOver c.answers c.ptr c.count).stream.rest = f.length := rfl
  have hrep := reported_le (c.count.toNat - n) f.length
  have hret : (st.result 1 ((opened f h).initiated c.answers)).ret.toNat =
      n + reported (c.count.toNat - n) f.length := by
    have hlt := c.count.toNat_lt
    change (st.bytesRead / 1).toNat = _
    rw [UInt64.div_one, hs.bytesRead, hleft, hrest]
    change (UInt64.ofNat c.answers.count + _).toNat = _
    rw [hread, ← UInt64.ofNat_add, UInt64.toNat_ofNat', Nat.mod_eq_of_lt (by omega)]
  refine ⟨_, hcall, rfl, hs.content, ?_, ?_⟩
  · rw [← hleft, ← hrest]
    exact hs.pos.trans (Nat.zero_add _)
  · have hptr : st.ptr = memcpy c.ptr 0 (f.take n ++ f.take (c.count.toNat - n)) := by
      have happ := memcpy_append c.ptr 0 (f.take n) (f.take (c.count.toNat - n))
      rw [← happ, hs.ptr, hleft]
      change memcpy (memcpy c.ptr 0 ((opened f h).fetched c.answers))
        ((opened f h).fetched c.answers).length _ = _
      rw [hfetched, Nat.zero_add]
      rfl
    change (List.range (st.result 1 _).ret.toNat).map st.ptr = _
    rw [hret, hptr, range_map_memcpy_take _ (by simp only [List.length_append, List.length_take]; omega),
      List.take_append, List.take_take, hlen, Nat.min_eq_right (Nat.le_add_right _ _),
      Nat.add_sub_cancel_left, List.take_take, Nat.min_eq_left (hrep.trans (Nat.min_le_left _ _))]

/-- The calls whose bytes are the beginning of the file: the request fails, or the file is
so short that the stream ends within the first `fread`, or all calls together stay within a file that
repeats its first bytes 1024 bytes on. -/
def HandsOver (f : List UInt8) : List Call → Prop
  | [] => True
  | c :: cs =>
    if c.answers.getSqe then
      ¬ c.answers.Succeeds ∨ (f.length < 1024 ∧ 2 * f.length < c.count.toNat) ∨
        (1024 ≤ f.length ∧ total (c :: cs) ≤ f.length ∧
          (f.drop 1024).take (total (c :: cs) - 1024) = f.take (total (c :: cs) - 1024))
    else HandsOver f cs

theorem take_append_read_follows {f : List UInt8} {n m : Nat} (hn : n ≤ f.length)
    (hm : m ≤ f.length) :
    f.take n ++ f.take m <+: f ↔
      (m = 0 ∨ n + m ≤ f.length) ∧ (f.drop n).take m = f.take m := by
  have happ : f.take n ++ f.take m <+: f.drop 0 ↔ _ := Cursor.append_follows_iff
  rw [List.drop_zero, Nat.zero_add, List.length_take_of_le hn, Cursor.take_follows_iff hm] at happ
  rw [happ]
  exact and_iff_right (List.take_prefix _ _)

theorem readRun_first {f : List UInt8} (h : Handle) {c : Call} (cs : List Call)
    (hok : c.answers.Succeeds) (hreads : c.answers.ReadsFrom f) (hcount : 1024 ≤ c.count.toNat) :
    let n := min 1024 f.length
    ∃ rs mf' m, readRun (opened f h) (c :: cs) = some (rs, mf') ∧
      rs.flatMap FreadResult.bytes = f.take n ++ f.take m ∧
      Partly (total (c :: cs) - n) f.length m ∧
      (f.length < 1024 → (m = 0 ↔ 2 * f.length < c.count.toNat)) := by
  intro n
  obtain ⟨r, hcall, hflag, hcontent, hpos, hbytes⟩ := call_first (h := h) hok hreads hcount
  change _ = min (c.count.toNat - n) _ at hpos
  change _ = f.take n ++ f.take (reported (c.count.toNat - n) _) at hbytes
  have hn : n = min 1024 f.length := rfl
  have hposle : r.mf.stream.pos ≤ r.mf.stream.content.length := by
    rw [hcontent, hpos]
    exact Nat.min_le_right _ _
  have hflag' : r.mf.asyncInitiated ≠ 0 := by
    rw [hflag]
    decide
  obtain ⟨rs, mf', m, hrun, hrest, hm⟩ := readRun_later hflag' hposle cs
  have hleft : r.mf.stream.rest = f.length - (c.count.toNat - n) := by
    rw [Stream.rest, hcontent, hpos]
    omega
  rw [hleft, Partly] at hm
  refine ⟨r :: rs, mf', reported (c.count.toNat - n) f.length + m, ?_, ?_, ?_, ?_⟩
  · rw [readRun_cons hcall, hrun]
    rfl
  · rw [List.flatMap_cons, hbytes, hrest, hcontent, hpos, List.append_assoc]
    congr 1
    by_cases hfit : c.count.toNat - n ≤ f.length
    · rw [reported, if_pos hfit, Nat.min_eq_left hfit, List.take_add]
      rfl
    · have hnone : m = 0 := by omega
      rw [hnone, Cursor.read_zero, List.append_nil, Nat.add_zero]
  · rw [total_cons, Partly, reported]
    split <;> omega
  · intro hshort
    rw [reported]
    split <;> omega

theorem delivered_iff {f : List UInt8} (h : Handle) {c : Call} (cs : List Call)
    (hok : c.answers.Succeeds) (hreads : c.answers.ReadsFrom f) (hcount : 1024 ≤ c.count.toNat) :
    (∃ rs mf', readRun (opened f h) (c :: cs) = some (rs, mf') ∧
        rs.flatMap FreadResult.bytes <+: f) ↔
      (f.length < 1024 ∧ 2 * f.length < c.count.toNat) ∨
        (1024 ≤ f.length ∧ total (c :: cs) ≤ f.length ∧
          (f.drop 1024).take (total (c :: cs) - 1024) = f.take (total (c :: cs) - 1024)) := by
  obtain ⟨rs, mf', m, hrun, hbytes, hm, hshort⟩ := readRun_first h cs hok hreads hcount
  have htotal : 1024 ≤ total (c :: cs) := by
    rw [total_cons]
    omega
  have hrun' : (∃ rs mf', readRun (opened f h) (c :: cs) = some (rs, mf') ∧
      rs.flatMap FreadResult.bytes <+: f) ↔ rs.flatMap FreadResult.bytes <+: f := by
    rw [hrun]
    constructor
    · rintro ⟨_, _, he, hf⟩
      cases he
      exact hf
    · exact fun hf => ⟨rs, mf', rfl, hf⟩
  rw [Partly] at hm
  rw [hrun', hbytes, take_append_read_follows (Nat.min_le_right _ _) (by omega)]
  by_cases hlen : f.length < 1024
  · have hn : min 1024 f.length = f.length := Nat.min_eq_right (Nat.le_of_lt hlen)
    have hzero := hshort hlen
    constructor
    · rintro ⟨hfit, -⟩
      exact Or.inl ⟨hlen, hzero.mp (by omega)⟩
    · rintro (⟨-, hlt⟩ | ⟨hge, -⟩)
      · have hm0 := hzero.mpr hlt
        simp [hm0]
      · omega
  · have hn : min 1024 f.length = 1024 := Nat.min_eq_left (by omega)
    rw [hn] at hm ⊢
    constructor
    · rintro ⟨hfit, heq⟩
      have hall : m = total (c :: cs) - 1024 := by omega
      rw [hall] at heq
      exact Or.inr ⟨by omega, by omega, heq⟩
    · rintro (⟨hlt, -⟩ | ⟨-, hle, heq⟩)
      · exact absurd hlt hlen
      · have hall : m = total (c :: cs) - 1024 := by omega
        rw [hall]
        exact ⟨by omega, heq⟩

theorem opened_of_stream {mf : MyFile} {f : List UInt8} {h : Handle}
    (hstream : mf.stream = (opened f h).stream) (hflag : mf.asyncInitiated = 0) :
    mf = opened f mf.handle := by
  obtain ⟨stream, handle, flag⟩ := mf
  dsimp only at hstream hflag
  rw [hstream, hflag]
  rfl

theorem readRun_silent_iff {f : List UInt8} {mf : MyFile} {c : Call} {cs : List Call}
    {r : FreadResult} (hcall : mf.call c = some r) (hnone : r.bytes = []) :
    (∃ rs mf', readRun mf (c :: cs) = some (rs, mf') ∧ rs.flatMap FreadResult.bytes <+: f) ↔
      ∃ rs mf', readRun r.mf cs = some (rs, mf') ∧ rs.flatMap FreadResult.bytes <+: f := by
  rw [readRun_cons hcall]
  constructor
  · rintro ⟨rs, mf', hrun, hf⟩
    obtain ⟨rest, hrest, heq⟩ := Option.map_eq_some_iff.mp hrun
    cases heq
    rw [List.flatMap_cons, hnone] at hf
    exact ⟨rest.1, rest.2, hrest, hf⟩
  · rintro ⟨rs, mf', hrun, hf⟩
    refine ⟨r :: rs, mf', by rw [hrun]; rfl, ?_⟩
    rw [List.flatMap_cons, hnone]
    exact hf

/-- Nothing of the file is repeated or left out exactly when `HandsOver` holds. -/
theorem bytes_follow_iff {f : List UInt8} (h : Handle) {cs : List Call}
    (hcount : ∀ c ∈ cs, 1024 ≤ c.count.toNat) (hreads : ∀ c ∈ cs, c.answers.ReadsFrom f) :
    (∃ rs mf', readRun (opened f h) cs = some (rs, mf') ∧
        rs.flatMap FreadResult.bytes <+: f) ↔ HandsOver f cs := by
  induction cs generalizing h with
  | nil => exact iff_of_true ⟨[], opened f h, rfl, List.nil_prefix⟩ trivial
  | cons c cs ih =>
    obtain ⟨hc, hcs⟩ := List.forall_mem_cons.mp hcount
    obtain ⟨hr, hrs⟩ := List.forall_mem_cons.mp hreads
    rw [HandsOver]
    by_cases hok : c.answers.Succeeds
    · rw [if_pos hok.1, delivered_iff h cs hok hr hc, or_iff_right (not_not.mpr hok)]
    · obtain ⟨r, hcall, hnone, hstream, hflag⟩ := call_failed (h := h) hok
      rw [readRun_silent_iff hcall hnone]
      by_cases hsqe : c.answers.getSqe = true
      · rw [if_pos hsqe]
        rw [if_pos hsqe] at hflag
        have hposle : r.mf.stream.pos ≤ r.mf.stream.content.length := by
          rw [hstream]
          exact Nat.zero_le _
        obtain ⟨rs, mf', m, hrun, hbytes, -⟩ := readRun_later (by rw [hflag]; decide) hposle cs
        refine iff_of_true ⟨rs, mf', hrun, ?_⟩ (Or.inl hok)
        rw [hbytes, hstream]
        exact List.take_prefix _ _
      · rw [if_neg hsqe]
        rw [if_neg hsqe] at hflag
        rw [opened_of_stream hstream hflag]
        exact ih r.mf.handle hcs hrs

/-- `my_fread(buffer, 1, BUFFER_SIZE, mf)` as `main` calls it. -/
def Call.ofFile (f : List UInt8) : Call := ⟨serving f, fun _ => 0, bufferSize⟩

theorem block_read_twice :
    ¬ ∃ rs mf', readRun (opened (List.replicate 1024 65) ⟨Buffer.zero, 0⟩)
        [.ofFile (List.replicate 1024 65), .ofFile (List.replicate 1024 65)] = some (rs, mf') ∧
      rs.flatMap FreadResult.bytes <+: List.replicate 1024 65 := by
  have hlen : (List.replicate 1024 (65 : UInt8)).length = 1024 := List.length_replicate
  have htotal : total [Call.ofFile (List.replicate 1024 65), .ofFile (List.replicate 1024 65)] =
      2048 := rfl
  have hiff := delivered_iff ⟨Buffer.zero, 0⟩ (c := .ofFile (List.replicate 1024 65))
    [.ofFile (List.replicate 1024 65)] (serving_succeeds _) (serving_readsFrom _) (Nat.le_refl 1024)
  rw [hiff, hlen, htotal]
  omega

theorem one_byte_follows :
    (∃ rs mf', readRun (opened [65] ⟨Buffer.zero, 0⟩) [.ofFile [65]] = some (rs, mf') ∧
        rs.flatMap FreadResult.bytes <+: [65]) ↔ HandsOver [65] [.ofFile [65]] := by
  refine bytes_follow_iff _ ?_ ?_
  · intro c hc
    obtain rfl := List.mem_singleton.mp hc
    exact Nat.le_refl 1024
  · intro c hc
    obtain rfl := List.mem_singleton.mp hc
    exact serving_readsFrom _

end Mixed

end IoUring
