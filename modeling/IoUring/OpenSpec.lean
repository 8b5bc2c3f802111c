import IoUring.BlockCount
import IoUring.FreadSpec

/-! What a successful `my_fopen` hands out: the block buffers and their sizes,
the completion that is waiting, and the resources acquired on the way. -/

namespace IoUring

open EarlyExit

/-- The entries that the fill loop writes for `n` bytes. -/
def Fills : Nat → List Iovc → Prop
  | n, [] => n = 0
  | n, v :: vs => 0 < n ∧ v.bufferSize.toNat = min n 4096 ∧ Fills (n - 4096) vs

theorem Fills.length {n : Nat} {vs : List Iovc} (h : Fills n vs) :
    vs.length = (n + 4095) / 4096 := by
  induction vs generalizing n with
  | nil =>
    obtain rfl : n = 0 := h
    rfl
  | cons v vs ih =>
    have := ih h.2.2
    have := h.1
    rw [List.length_cons]
    omega

theorem Fills.sized {n : Nat} {vs : List Iovc} (h : Fills n vs) :
    ∀ v ∈ vs, 0 < v.bufferSize.toNat ∧ v.bufferSize.toNat ≤ 4096 := by
  induction vs generalizing n with
  | nil => simp
  | cons v vs ih =>
    obtain ⟨hn, hv, hrest⟩ := h
    intro w hw
    rcases List.mem_cons.mp hw with rfl | hw
    · omega
    · exact ih hrest w hw

theorem Page.fill_take (p : Page) {data : List UInt8} (h : data.length ≤ 4096) :
    (p.fill data).bytes.take data.length = data := by
  simp only [Page.fill, List.take_take, Nat.min_eq_left h, List.take_left]

theorem Page.fill_full (p : Page) {data : List UInt8} (h : data.length = 4096) :
    (p.fill data).bytes = data := by
  have hp := p.length_eq
  simp only [Page.fill, h, List.drop_eq_nil_of_le (Nat.le_of_eq hp), List.append_nil]
  exact List.take_of_length_le (Nat.le_of_eq h)

theorem scatter_fills {n : Nat} {vs : List Iovc} (k : Nat) (data : List UInt8)
    (h : Fills n vs) : Fills n (scatter k vs data) := by
  induction vs generalizing n k data with
  | nil => cases k <;> exact h
  | cons v vs ih =>
    cases k with
    | zero => exact h
    | succ k => exact ⟨h.1, h.2.1, ih k _ h.2.2⟩

theorem length_scatter (k : Nat) (vs : List Iovc) (data : List UInt8) :
    (scatter k vs data).length = vs.length := by
  induction vs generalizing k data with
  | nil => cases k <;> rfl
  | cons v vs ih =>
    cases k with
    | zero => rfl
    | succ k => simp [scatter, ih]

theorem scatter_buffers (k : Nat) (vs : List Iovc) (data : List UInt8) :
    (scatter k vs data).map (·.buffer) = vs.map (·.buffer) := by
  induction vs generalizing k data with
  | nil => cases k <;> rfl
  | cons v vs ih =>
    cases k with
    | zero => rfl
    | succ k => simp [scatter, ih]

/-- The bytes that the kernel wrote are at the front of the padded stream: every
buffer but the last is used in full. -/
theorem scatter_take {n : Nat} {vs : List Iovc} {data : List UInt8} (h : Fills n vs)
    (hd : data.length ≤ n) :
    ((scatter vs.length vs data).flatMap (·.page.bytes)).take data.length = data := by
  induction vs generalizing n data with
  | nil =>
    obtain rfl : n = 0 := h
    have hnil : data = [] := List.eq_nil_of_length_eq_zero (by omega)
    simp [hnil]
  | cons v vs ih =>
    obtain ⟨hn, hv, hrest⟩ := h
    simp only [List.length_cons, scatter, List.flatMap_cons]
    rcases Nat.lt_or_ge 4096 data.length with hlong | hshort
    · have hsize : v.bufferSize.toNat = 4096 := by omega
      have htake : (data.take 4096).length = 4096 := by
        rw [List.length_take]
        omega
      have hdrop : (data.drop 4096).length = data.length - 4096 := List.length_drop
      have hrec := @ih (n - 4096) (data.drop 4096) hrest (by omega)
      rw [hdrop] at hrec
      rw [hsize, Page.fill_full _ htake, List.take_append, htake,
        List.take_of_length_le (by omega), hrec, List.take_append_drop]
    · have hall : data.take v.bufferSize.toNat = data := List.take_of_length_le (by omega)
      have hpage := (v.page.fill data).length_eq
      rw [hall, List.take_append_of_le_length (by omega), Page.fill_take _ hshort]

theorem acquire_ok {k : Kind} {w w' : World} {r : Resource} (h : acquire k w = .ok r w') :
    r.kind = k ∧ w.ledger.Grown w'.ledger {r} := by
  cases h
  exact ⟨rfl, Ledger.Grown.acquire _ _⟩

theorem tryAcquire_ok {ok : Bool} {k : Kind} {w w' : World} {r : Resource}
    (h : tryAcquire ok k w = .ok (some r) w') :
    ok = true ∧ r.kind = k ∧ w.ledger.Grown w'.ledger {r} := by
  rw [tryAcquire] at h
  split at h
  · next hok =>
    obtain ⟨s, t, hs, hp⟩ := bind_eq_ok.mp h
    obtain ⟨hr, rfl⟩ := pure_eq_ok.mp hp
    cases hr
    exact ⟨hok, acquire_ok hs⟩
  · cases (pure_eq_ok.mp h).1

theorem deref_ok {p : Option Ptr} {w w' : World} {r : Ptr} (h : deref p w = .ok r w') :
    p = some r ∧ w' = w := by
  cases p with
  | none => cases h
  | some s =>
    obtain ⟨rfl, rfl⟩ := pure_eq_ok.mp h
    exact ⟨rfl, rfl⟩

theorem fail_ne_ok {α : Type} {msg : String} {w w' : World} {a : α} :
    (fail msg : Sys α) w ≠ .ok a w' := by
  intro h
  obtain ⟨_, _, _, ht⟩ := bind_eq_ok.mp h
  exact throw_eq_ok.mp ht

theorem fillIovecs_step_toInt {rem : Int64} (h : 0 ≤ rem.toInt) :
    (if rem > blockSz then (blockSz : Int64) else rem).toInt = min rem.toInt 4096 ∧
      (rem - if rem > blockSz then blockSz else rem).toInt = rem.toInt - min rem.toInt 4096 :=
  toInt_chunk (Or.inr rfl) h

theorem fillIovecs_ok {o : Outcomes} {size : UInt64} {turns : Nat} {rem : Int64} {cur : UInt32}
    {acc vs : List Iovc} {w w' : World} (hsize : size.toNat ≤ 8 + 16 * 2 ^ 31)
    (hrem : 0 ≤ rem.toInt) (hcur : cur.toNat = acc.length)
    (h : fillIovecs o size turns rem cur acc w = .ok vs w') :
    ∃ new, vs = acc ++ new ∧ Fills rem.toInt.toNat new ∧
      (new ≠ [] → 8 + 16 * vs.length ≤ size.toNat) ∧
      w.ledger.Grown w'.ledger (new.map (·.buffer)).toFinset ∧
      (new.map (·.buffer)).toFinset.card = new.length ∧
      (∀ v ∈ new, v.buffer.kind = .aligned) := by
  induction turns generalizing rem cur acc w with
  | zero => cases h
  | succ turns ih =>
    rw [fillIovecs] at h
    by_cases hz : rem = 0
    · rw [if_pos hz] at h
      obtain ⟨rfl, rfl⟩ := pure_eq_ok.mp h
      exact ⟨[], by simp, by simp [hz, Fills], by simp, by simpa using Ledger.Grown.refl _,
        by simp, by simp⟩
    · rw [if_neg hz] at h
      have hpos : 0 < rem.toInt := by
        have hne : rem.toInt ≠ 0 := fun he => hz (Int64.toInt_inj.mp he)
        omega
      obtain ⟨hread, hleft⟩ := fillIovecs_step_toInt hrem
      split at h
      · cases h
      · next hroom =>
        cases hm : o.memalign cur.toNat with
        | none =>
          rw [hm] at h
          exact absurd h fail_ne_ok
        | some page =>
          rw [hm] at h
          obtain ⟨buf, w1, hbuf, hrest⟩ := bind_eq_ok.mp h
          obtain ⟨hkind, hgrown⟩ := acquire_ok hbuf
          have hcur' : (cur + 1).toNat = cur.toNat + 1 := by
            rw [UInt32.toNat_add, UInt32.toNat_one]
            omega
          obtain ⟨new, hvs, hfills, hfit, hgrown', hcard, hkinds⟩ :=
            ih (by omega) (by rw [hcur', hcur, List.length_append]; rfl) hrest
          rw [hleft] at hfills
          have hcard' := hgrown.card_union hgrown'
          have hsz := toNat_toUInt64 (if rem > blockSz then blockSz else rem)
          refine ⟨⟨buf, page, (if rem > blockSz then blockSz else rem).toUInt64⟩ :: new,
            ?_, ⟨by omega, ?_, ?_⟩, ?_, ?_, ?_, ?_⟩
          · rw [hvs, List.append_assoc]
            rfl
          · rw [hread] at hsz
            dsimp only
            omega
          · have he : rem.toInt.toNat - 4096 = (rem.toInt - min rem.toInt 4096).toNat := by omega
            rw [he]
            exact hfills
          · intro _
            by_cases hn : new = []
            · rw [hvs, hn, List.append_nil, List.length_append, List.length_singleton]
              omega
            · exact hfit hn
          · rw [List.map_cons, List.toFinset_cons, Finset.insert_eq]
            exact hgrown.trans hgrown'
          · rw [List.map_cons, List.toFinset_cons, Finset.insert_eq, hcard', hcard,
              Finset.card_singleton, List.length_cons, Nat.add_comm]
          · intro v hv
            rcases List.mem_cons.mp hv with rfl | hv
            · exact hkind
            · exact hkinds v hv

def Submitter.resources (s : Submitter) : Finset Resource :=
  {s.ringFd} ∪ ({s.sqMap} ∪ ({s.cqMap} ∪ {s.sqesMap}))

/-- The rings of a fresh submitter are empty, and nothing that its setup acquired
has been given back. -/
structure SetUp (p : Params) (w w' : World) (s : Option Ptr) (sub : Submitter) : Prop where
  addr : s = some sub.addr
  sq_empty : sub.sqRing.tail = sub.sqRing.head
  cq_empty : sub.cqRing.tail = sub.cqRing.head
  cq_entries : sub.cqRing.ringEntries = p.cqEntries
  ring_kind : sub.ringFd.kind = .ring
  map_kind : sub.sqMap.kind = .mapping ∧ sub.cqMap.kind = .mapping ∧ sub.sqesMap.kind = .mapping
  grown : w.ledger.Grown w'.ledger sub.resources
  card : sub.resources.card = if p.features &&& 1 ≠ 0 then 3 else 4

theorem SetUp.kept {p : Params} {w w' : World} {s : Option Ptr} {sub : Submitter}
    (h : SetUp p w w' s sub) {vs : List Iovc} (hvs : ∀ v ∈ vs, v.buffer.kind = .aligned) :
    ∀ r ∈ sub.resources ∪ (vs.map (·.buffer)).toFinset, r.kind ≠ .file ∧ r.kind ≠ .shared := by
  intro r hr
  have hkind : r.kind = .ring ∨ r.kind = .mapping ∨ r.kind = .aligned := by
    rcases Finset.mem_union.mp hr with hr | hr
    · have hcases : r = sub.ringFd ∨ r = sub.sqMap ∨ r = sub.cqMap ∨ r = sub.sqesMap := by
        simpa only [Submitter.resources, Finset.mem_union, Finset.mem_singleton] using hr
      obtain ⟨hm1, hm2, hm3⟩ := h.map_kind
      rcases hcases with rfl | rfl | rfl | rfl
      · exact Or.inl h.ring_kind
      · exact Or.inr (Or.inl hm1)
      · exact Or.inr (Or.inl hm2)
      · exact Or.inr (Or.inl hm3)
    · obtain ⟨v, hv, rfl⟩ : ∃ v ∈ vs, v.buffer = r := by simpa using hr
      exact Or.inr (Or.inr (hvs v hv))
  rcases hkind with hk | hk | hk <;> rw [hk] <;> decide

theorem appSetupUring_ok {o : Outcomes} {s : Option Ptr} {w w' : World} {sub : Submitter}
    (h : appSetupUring o s w = .ok (some sub) w') :
    ∃ p, o.ringSetup = some p ∧ SetUp p w w' s sub := by
  rw [appSetupUring, bind_eq_ok] at h
  obtain ⟨addr, w0, hs, h⟩ := h
  obtain ⟨rfl, rfl⟩ := deref_ok hs
  cases hp : o.ringSetup with
  | none =>
    rw [hp] at h
    obtain ⟨_, _, _, h⟩ := bind_eq_ok.mp h
    cases (pure_eq_ok.mp h).1
  | some p =>
    simp only [hp, bind_eq_ok] at h
    obtain ⟨ringFd, w1, hring, sq, w2, hsq, h⟩ := h
    obtain ⟨hrk, hrg⟩ := acquire_ok hring
    cases sq with
    | none =>
      obtain ⟨_, _, _, h⟩ := bind_eq_ok.mp h
      cases (pure_eq_ok.mp h).1
    | some sqMap =>
      obtain ⟨_, hsk, hsg⟩ := tryAcquire_ok hsq
      obtain ⟨cq, w3, hcq, h⟩ := bind_eq_ok.mp h
      cases cq with
      | none =>
        obtain ⟨_, _, _, h⟩ := bind_eq_ok.mp h
        cases (pure_eq_ok.mp h).1
      | some cqMap =>
        obtain ⟨sqes, w4, hsqes, h⟩ := bind_eq_ok.mp h
        cases sqes with
        | none =>
          obtain ⟨_, _, _, h⟩ := bind_eq_ok.mp h
          cases (pure_eq_ok.mp h).1
        | some sqesMap =>
          obtain ⟨_, hek, heg⟩ := tryAcquire_ok hsqes
          obtain ⟨hsub, rfl⟩ := pure_eq_ok.mp h
          cases hsub
          refine ⟨p, rfl, ?_⟩
          by_cases hone : p.features &&& 1 ≠ 0
          · -- one mapping serves both rings
            rw [mapCqRing, if_pos hone] at hcq
            obtain ⟨hmap, rfl⟩ := pure_eq_ok.mp hcq
            cases hmap
            have hg := hsg.trans heg
            have hres : ({sqMap} ∪ ({sqMap} ∪ {sqesMap}) : Finset Resource) = {sqMap} ∪ {sqesMap} := by
              rw [← Finset.union_assoc, Finset.union_self]
            refine ⟨rfl, rfl, rfl, rfl, hrk, ⟨hsk, hsk, hek⟩, ?_, ?_⟩
            · rw [Submitter.resources, hres]
              exact hrg.trans hg
            · rw [Submitter.resources, hres, hrg.card_union hg, hsg.card_union heg, if_pos hone]
              rfl
          · rw [mapCqRing, if_neg hone] at hcq
            obtain ⟨_, hck, hcg⟩ := tryAcquire_ok hcq
            have hg := hsg.trans (hcg.trans heg)
            refine ⟨rfl, rfl, rfl, rfl, hrk, ⟨hsk, hck, hek⟩, hrg.trans hg, ?_⟩
            rw [Submitter.resources, hrg.card_union hg, hsg.card_union (hcg.trans heg),
              hcg.card_union heg, if_neg hone]
            rfl

theorem getFileSize_ok {o : Outcomes} {w w' : World} {n : Int64}
    (h : getFileSize o w = .ok n w') (hn : 0 ≤ n.toInt) :
    o.fstat = some n ∧ w'.ledger = w.ledger := by
  rw [getFileSize] at h
  cases hf : o.fstat with
  | none =>
    rw [hf] at h
    obtain ⟨_, t, hr, h⟩ := bind_eq_ok.mp h
    obtain ⟨rfl, rfl⟩ := pure_eq_ok.mp h
    exact absurd hn (by decide)
  | some m =>
    rw [hf] at h
    obtain ⟨rfl, rfl⟩ := pure_eq_ok.mp h
    exact ⟨rfl, rfl⟩

theorem wakeKernel_ok {o : Outcomes} {w w' : World} {u : Unit}
    (h : wakeKernel o w = .ok u w') : w'.ledger = w.ledger := by
  rw [wakeKernel] at h
  split at h
  · obtain ⟨_, t, hc, h⟩ := bind_eq_ok.mp h
    split at h
    · obtain ⟨_, rfl⟩ := pure_eq_ok.mp h
      cases hc
      rfl
    · exact absurd h fail_ne_ok
  · obtain ⟨_, rfl⟩ := pure_eq_ok.mp h
    rfl

def MyFile.request (mf : MyFile) : Sqe where
  fd := mf.fd
  flags := 0
  opcode := .readv
  addr := mf.fi.addr
  len := mf.blocks.toUInt32
  off := 0
  userData := mf.fi.addr

def MyFile.buffers (mf : MyFile) : Finset Resource := (mf.fi.iovecs.map (·.buffer)).toFinset

def MyFile.resources (mf : MyFile) : Finset Resource :=
  {mf.s.addr} ∪ (mf.s.resources ∪ ({mf.fd} ∪ ({mf.fi.addr} ∪ ({mf.addr} ∪ mf.buffers))))

def rawHandle (addr : Ptr) (fd : Resource) (n : Int64) (sub : Submitter) (fi : Ptr)
    (iovecs : List Iovc) : MyFile :=
  ⟨addr, fd, blockCount n, 0, 0, 0, sub, none, ⟨fi, n, iovecs⟩⟩

/-- A successful `my_fopen`, taken apart: no step failed on the way. -/
structure Fopened (o : Outcomes) (w w' : World) (p : Params) (n : Int64) (mf : MyFile) :
    Prop where
  ringSetup : o.ringSetup = some p
  fstat : o.fstat = some n
  nonneg : 0 ≤ n.toInt
  alloc : (fileInfoSize (blockCount n)).toNat < 2 ^ 63
  blocks : mf.blocks = blockCount n
  cursor : mf.currentBlock = 0 ∧ mf.isfirst = 0 ∧ mf.currentOffset = 0
  fills : Fills n.toInt.toNat mf.fi.iovecs
  room : mf.fi.iovecs ≠ [] →
    8 + 16 * mf.fi.iovecs.length ≤ (fileInfoSize (blockCount n)).toNat
  sq_empty : mf.s.sqRing.tail = mf.s.sqRing.head
  cq_empty : mf.s.cqRing.tail = mf.s.cqRing.head
  cq_entries : mf.s.cqRing.ringEntries = p.cqEntries
  grown : w.ledger.Grown w'.ledger mf.resources
  card : mf.resources.card =
    (if p.features &&& 1 ≠ 0 then 7 else 8) + mf.fi.iovecs.length
  kept : ∀ r ∈ mf.s.resources ∪ mf.buffers, r.kind ≠ .file ∧ r.kind ≠ .shared
  ring_kind : mf.s.ringFd.kind = .ring
  freed : mf.fd.kind = .file ∧ mf.fi.addr.kind = .shared ∧ mf.s.addr.kind = .shared ∧
    mf.addr.kind = .shared

theorem myFopen_ok {o : Outcomes} {mode : String} {w w' : World} {mf : MyFile}
    (h : myFopen o mode w = .ok mf w') :
    ∃ p n mf₀, Fopened o w w' p n mf₀ ∧ mf = completeReadv o.kernel (submitReadv mf₀) := by
  rw [myFopen, bind_eq_ok] at h
  obtain ⟨s, w1, hs, h⟩ := h
  obtain ⟨sub, w2, hsub, h⟩ := bind_eq_ok.mp h
  cases sub with
  | none =>
    obtain ⟨_, _, _, h⟩ := bind_eq_ok.mp h
    obtain ⟨_, _, _, h⟩ := bind_eq_ok.mp h
    exact absurd h throw_eq_ok.mp
  | some sub =>
    obtain ⟨p, hp, hset⟩ := appSetupUring_ok hsub
    rw [hset.addr] at hs
    obtain ⟨_, hsk, hsg⟩ := tryAcquire_ok hs
    obtain ⟨fd, w3, hfd, h⟩ := bind_eq_ok.mp h
    cases fd with
    | none => exact absurd h fail_ne_ok
    | some fd =>
      obtain ⟨_, hfk, hfg⟩ := tryAcquire_ok hfd
      obtain ⟨n, w4, hn, h⟩ := bind_eq_ok.mp h
      by_cases hneg : n < 0
      · simp only [if_pos hneg] at h
        exact absurd h throw_eq_ok.mp
      · have hnn : 0 ≤ n.toInt := by
          have : ¬ n.toInt < 0 := Int64.lt_iff_toInt_lt.not.mp hneg
          omega
        obtain ⟨hstat, hw4⟩ := getFileSize_ok hn hnn
        simp only [if_neg hneg] at h
        by_cases hreg : o.registerFiles = true
        · simp only [if_pos hreg] at h
          obtain ⟨fi, w5, hfi, h⟩ := bind_eq_ok.mp h
          cases fi with
          | none => exact absurd h fail_ne_ok
          | some fi =>
            obtain ⟨hsize, hik, hig⟩ := tryAcquire_ok hfi
            simp only [bind_eq_ok, pure_eq_ok] at h
            obtain ⟨mfp, w6, hmfp, addr, w7, hderef, iovecs, w8, hfill, _, w9, hwake, rfl, rfl⟩ := h
            obtain ⟨rfl, rfl⟩ := deref_ok hderef
            obtain ⟨_, hak, hag⟩ := tryAcquire_ok hmfp
            have hlt : (fileInfoSize (blockCount n)).toNat < 2 ^ 63 := by
              simp only [Bool.and_eq_true, decide_eq_true_eq] at hsize
              exact hsize.2
            have hblocks := fileInfoSize_of_lt hnn hlt
            have hbounds := blockCount_bounds hnn
            obtain ⟨new, hvs, hfills, hroom, hbg, hbcard, hbk⟩ :=
              fillIovecs_ok (by omega) hnn (show (0 : UInt32).toNat = [].length from rfl) hfill
            rw [List.nil_append] at hvs
            subst hvs
            -- the resources of the handle, in the order of their acquisition
            have hg5 := hbg
            have hg4 := hag.trans hg5
            have hg3 := hig.trans hg4
            rw [hw4] at hg3
            have hg2 := hfg.trans hg3
            have hg1 := hset.grown.trans hg2
            have hg := hsg.trans hg1
            rw [← wakeKernel_ok hwake] at hg
            refine ⟨p, n, rawHandle addr fd n sub fi iovecs, ?_, rfl⟩
            refine ⟨hp, hstat, hnn, hlt, rfl, ⟨rfl, rfl, rfl⟩, hfills, hroom, hset.sq_empty,
              hset.cq_empty, hset.cq_entries, hg, ?_, ?_, hset.ring_kind, ⟨hfk, hik, hsk, hak⟩⟩
            · change ({sub.addr} ∪ (sub.resources ∪ ({fd} ∪ ({fi} ∪ ({addr} ∪
                (iovecs.map (·.buffer)).toFinset))))).card = _ + iovecs.length
              rw [hsg.card_union hg1, hset.grown.card_union hg2, hfg.card_union hg3,
                hig.card_union hg4, hag.card_union hg5, hset.card, hbcard]
              simp only [Finset.card_singleton]
              split <;> omega
            · exact hset.kept hbk
        · simp only [if_neg hreg] at h
          obtain ⟨_, _, _, h⟩ := bind_eq_ok.mp h
          obtain ⟨_, _, _, h⟩ := bind_eq_ok.mp h
          obtain ⟨_, _, _, h⟩ := bind_eq_ok.mp h
          exact absurd h throw_eq_ok.mp

/-- The kernel takes the very request that was submitted. -/
theorem completeReadv_submitReadv (mf : MyFile) (kernel : Sqe → Completion)
    (hsq : mf.s.sqRing.tail = mf.s.sqRing.head) :
    (completeReadv kernel (submitReadv mf)).fi.iovecs =
        scatter mf.blocks.toUInt32.toNat mf.fi.iovecs (kernel mf.request).data ∧
      (completeReadv kernel (submitReadv mf)).s.cqRing.cqes
          (mf.s.cqRing.tail &&& mf.s.cqRing.ringMask) =
        ⟨mf.fi.addr, (kernel mf.request).res⟩ := by
  have hreq : (submitReadv mf).s.sqes ((submitReadv mf).s.sqRing.array
      ((submitReadv mf).s.sqRing.head &&& (submitReadv mf).s.sqRing.ringMask)) = mf.request := by
    simp only [submitReadv, hsq, if_true]
    rfl
  constructor
  · simp only [completeReadv, hreq]
    rfl
  · simp only [completeReadv, hreq]
    simp only [submitReadv, if_true]
    rfl

/-- What `my_fopen` hands out for a file of `n` bytes. -/
structure Opened (o : Outcomes) (mf : MyFile) (n : Nat) : Prop where
  size_lt : n < 2 ^ 31
  sound : mf.Sound
  isfirst : mf.isfirst = 0
  pos : mf.pos = 0
  count : mf.fi.iovecs.length = (n + 4095) / 4096
  request_len : mf.request.len.toNat = (n + 4095) / 4096
  res : mf.cqe.res = (o.kernel mf.request).res
  tail : mf.s.cqRing.tail = mf.s.cqRing.head + 1
  entries : ∃ p, o.ringSetup = some p ∧ mf.s.cqRing.ringEntries = p.cqEntries
  data : (o.kernel mf.request).data.length ≤ n →
    mf.fi.padded.take (o.kernel mf.request).data.length = (o.kernel mf.request).data

theorem myFopen_opened {o : Outcomes} {mode : String} {w w' : World} {mf : MyFile}
    (h : myFopen o mode w = .ok mf w') :
    ∃ n : Int64, o.fstat = some n ∧ 0 ≤ n.toInt ∧ Opened o mf n.toInt.toNat := by
  obtain ⟨p, n, mf₀, hf, rfl⟩ := myFopen_ok h
  refine ⟨n, hf.fstat, hf.nonneg, ?_⟩
  have hnn := hf.nonneg
  obtain ⟨hb0, hsize⟩ := fileInfoSize_of_lt hnn hf.alloc
  have hlen := hf.fills.length
  have hlt : n.toInt < 2 ^ 31 := by
    by_cases hnil : mf₀.fi.iovecs = []
    · rw [hnil, List.length_nil] at hlen
      omega
    · have := hf.room hnil
      exact lt_of_le_blockCount hnn (by omega)
  have hcount := blockCount_of_lt hnn hlt
  have hblocks : mf₀.blocks.toUInt32.toNat = mf₀.fi.iovecs.length := by
    have := toNat_toUInt32 mf₀.blocks
    rw [hf.blocks] at this ⊢
    omega
  obtain ⟨hiovecs, hposted⟩ := completeReadv_submitReadv mf₀ o.kernel hf.sq_empty
  have hfills := scatter_fills mf₀.blocks.toUInt32.toNat (o.kernel mf₀.request).data hf.fills
  rw [← hiovecs] at hfills
  have hcqe : (completeReadv o.kernel (submitReadv mf₀)).cqe =
      ⟨mf₀.fi.addr, (o.kernel mf₀.request).res⟩ := by
    rw [hf.cq_empty] at hposted
    exact hposted
  have htail : (completeReadv o.kernel (submitReadv mf₀)).s.cqRing.tail =
      (completeReadv o.kernel (submitReadv mf₀)).s.cqRing.head + 1 :=
    congrArg (· + 1) hf.cq_empty
  have hsound : (completeReadv o.kernel (submitReadv mf₀)).Sound := by
    refine ⟨?_, ?_, hfills.sized, ?_, ?_, fun _ => hf.cursor.2.2, fun _ => ?_, fun _ => ?_, ?_⟩
    · rw [hiovecs, length_scatter]
      exact hblocks
    · rw [hfills.length]
      omega
    · change mf₀.currentBlock.toUInt32.toNat ≤ _
      rw [hf.cursor.1]
      exact Nat.zero_le _
    · change mf₀.currentOffset.toNat < _
      rw [hf.cursor.2.2]
      decide
    · rw [htail]
      grind
    · rw [hcqe]
      rfl
    · exact fun h1 => absurd hf.cursor.2.1 h1
  refine ⟨by omega, hsound, hf.cursor.2.1, ?_, hfills.length, ?_, ?_, htail,
    ⟨p, hf.ringSetup, hf.cq_entries⟩, ?_⟩
  · change mf₀.currentBlock.toUInt32.toNat * 4096 + mf₀.currentOffset.toNat = 0
    rw [hf.cursor.1, hf.cursor.2.2]
    rfl
  · exact hblocks.trans hlen
  · rw [hcqe]
    rfl
  · intro hd
    have htake := scatter_take hf.fills hd
    rw [FileInfo.padded, hiovecs, hblocks]
    exact htake

structure Outcomes.Succeeds (o : Outcomes) (mode : String) (n : Nat) : Prop where
  submitterAlloc : o.submitterAlloc = true
  ringSetup : o.ringSetup.isSome
  mmapSq : o.mmapSq = true
  mmapCq : o.mmapCq = true
  mmapSqes : o.mmapSqes = true
  openFile : o.openFile (if mode = "r" then .rdonly else .rdwr) = true
  fstat : o.fstat = some (Int64.ofNat n)
  registerFiles : o.registerFiles = true
  fileInfoAlloc : o.fileInfoAlloc = true
  myFileAlloc : o.myFileAlloc = true
  memalign : ∀ i, (o.memalign i).isSome
  enter : o.enter = true

theorem acquire_ends (k : Kind) : Ends (fun _ => True) (acquire k) :=
  fun _ => ⟨_, _, rfl, trivial⟩

theorem tryAcquire_ends {ok : Bool} (h : ok = true) (k : Kind) :
    Ends (fun r => r.isSome = true) (tryAcquire ok k) := by
  subst h
  exact (acquire_ends k).bind fun _ _ => Ends.pure rfl

theorem ompAlloc_ends {size : UInt64} {ok : Bool} (h : ok = true) (hs : size.toNat < 2 ^ 63) :
    Ends (fun r => r.isSome = true) (ompAlloc size ok) :=
  tryAcquire_ends (by simp only [h, hs, decide_true, Bool.and_self]) _

theorem deref_ends {p : Option Ptr} (h : p.isSome) : Ends (fun _ => True) (deref p) := by
  obtain ⟨r, rfl⟩ := Option.isSome_iff_exists.mp h
  exact Ends.pure trivial

theorem fillIovecs_ends {o : Outcomes} {size : UInt64} {turns : Nat} {rem : Int64}
    {cur : UInt32} {acc : List Iovc} (hsize : size.toNat ≤ 8 + 16 * 2 ^ 31)
    (hpages : ∀ i, (o.memalign i).isSome) (hrem : 0 ≤ rem.toInt)
    (hroom : 8 + 16 * (cur.toNat + (rem.toInt.toNat + 4095) / 4096) ≤ size.toNat)
    (ht : (rem.toInt.toNat + 4095) / 4096 < turns) :
    Ends (fun _ => True) (fillIovecs o size turns rem cur acc) := by
  induction turns generalizing rem cur acc with
  | zero => omega
  | succ turns ih =>
    rw [fillIovecs]
    by_cases hz : rem = 0
    · rw [if_pos hz]
      exact Ends.pure trivial
    · have hpos : 0 < rem.toInt := by
        have hne : rem.toInt ≠ 0 := fun he => hz (Int64.toInt_inj.mp he)
        omega
      obtain ⟨hread, hleft⟩ := fillIovecs_step_toInt hrem
      have hstore : ¬ 8 + 16 * (cur.toNat + 1) > size.toNat := by omega
      obtain ⟨page, hm⟩ := Option.isSome_iff_exists.mp (hpages cur.toNat)
      have hcur : (cur + 1).toNat = cur.toNat + 1 := by
        rw [UInt32.toNat_add, UInt32.toNat_one]
        omega
      simp only [if_neg hz, if_neg hstore, hm]
      exact (acquire_ends _).bind fun _ _ =>
        ih (by omega) (by rw [hleft, hcur]; omega) (by rw [hleft]; omega)

theorem appSetupUring_ends {o : Outcomes} {mode : String} {n : Nat} (h : o.Succeeds mode n)
    {s : Option Ptr} (hs : s.isSome) :
    Ends (fun sub => sub.isSome = true) (appSetupUring o s) := by
  obtain ⟨p, hp⟩ := Option.isSome_iff_exists.mp h.ringSetup
  have hcq : ∀ r, Ends (fun cq => cq.isSome = true) (mapCqRing o p r) := by
    intro r
    rw [mapCqRing]
    split
    · exact Ends.pure rfl
    · exact tryAcquire_ends h.mmapCq _
  rw [appSetupUring]
  apply (deref_ends hs).bind
  intro s _
  simp only [hp]
  apply (acquire_ends _).bind
  intro ringFd _
  apply (tryAcquire_ends h.mmapSq _).bind
  intro sq hsq
  obtain ⟨sq, rfl⟩ := Option.isSome_iff_exists.mp hsq
  apply (hcq _).bind
  intro cq hcq
  obtain ⟨cq, rfl⟩ := Option.isSome_iff_exists.mp hcq
  apply (tryAcquire_ends h.mmapSqes _).bind
  intro sqes hsqes
  obtain ⟨sqes, rfl⟩ := Option.isSome_iff_exists.mp hsqes
  exact Ends.pure rfl

theorem wakeKernel_ends {o : Outcomes} (h : o.enter = true) :
    Ends (fun _ => True) (wakeKernel o) := by
  simp only [wakeKernel, h, if_true]
  split
  · exact Ends.bind (Q := fun _ => True) (fun _ => ⟨_, _, rfl, trivial⟩) fun _ _ => Ends.pure trivial
  · exact Ends.pure trivial

theorem myFopen_ends {o : Outcomes} {mode : String} {n : Nat} (h : o.Succeeds mode n)
    (hn : n < 2 ^ 31) : Ends (fun _ => True) (myFopen o mode) := by
  have hsz : (Int64.ofNat n).toInt = n := Int64.toInt_ofNat_of_lt (by omega)
  have hnot : ¬ Int64.ofNat n < 0 := by
    rw [Int64.lt_iff_toInt_lt, hsz]
    exact not_lt.mpr (Int.natCast_nonneg n)
  have hcount := blockCount_of_lt (n := Int64.ofNat n) (by omega) (by omega)
  have hbytes := fileInfoSize_toNat (blockCount (Int64.ofNat n))
  rw [hsz] at hcount
  rw [myFopen]
  apply (ompAlloc_ends h.submitterAlloc (by decide)).bind
  intro s hs
  apply (appSetupUring_ends h hs).bind
  intro sub hsub
  obtain ⟨sub, rfl⟩ := Option.isSome_iff_exists.mp hsub
  apply (tryAcquire_ends h.openFile _).bind
  intro fd hfd
  obtain ⟨fd, rfl⟩ := Option.isSome_iff_exists.mp hfd
  apply Ends.bind (Q := fun size => size = Int64.ofNat n)
  · simp only [getFileSize, h.fstat]
    exact Ends.pure rfl
  · rintro size rfl
    simp only [if_neg hnot, h.registerFiles, if_true]
    apply (ompAlloc_ends h.fileInfoAlloc (by omega)).bind
    intro fi hfi
    obtain ⟨fi, rfl⟩ := Option.isSome_iff_exists.mp hfi
    apply (ompAlloc_ends h.myFileAlloc (by decide)).bind
    intro mf hmf
    apply (deref_ends hmf).bind
    intro addr _
    apply (fillIovecs_ends (by omega) h.memalign (by omega) _ _).bind
    · intro iovecs _
      exact (wakeKernel_ends h.enter).bind fun _ _ => Ends.pure trivial
    · rw [hsz, UInt32.toNat_zero]
      omega
    · rw [hsz]
      omega

/-- A system in which no step fails, with a file of the given size. -/
def Outcomes.smooth (size : Int64) (kernel : Sqe → Completion) : Outcomes where
  filename := "file"
  duration := "0"
  submitterAlloc := true
  ringSetup := some
    { sqEntries := queueDepth
      cqEntries := 2 * queueDepth
      features := 1
      sqStart := 0
      cqStart := 0
      array := fun i => i
      sqes := fun _ => ⟨⟨.file, 0⟩, 0, .nop, ⟨.shared, 0⟩, 0, 0, ⟨.shared, 0⟩⟩
      cqes := fun _ => ⟨⟨.shared, 0⟩, 0⟩ }
  mmapSq := true
  mmapCq := true
  mmapSqes := true
  openFile := fun _ => true
  fstat := some size
  registerFiles := true
  fileInfoAlloc := true
  myFileAlloc := true
  memalign := fun _ => some Page.zero
  sqFlags := 0
  enter := true
  kernel := kernel

theorem Outcomes.smooth_succeeds (mode : String) (n : Nat) (kernel : Sqe → Completion) :
    (Outcomes.smooth (Int64.ofNat n) kernel).Succeeds mode n := by
  refine ⟨rfl, rfl, rfl, rfl, rfl, rfl, rfl, rfl, rfl, rfl, ?_, rfl⟩
  exact fun _ => rfl

def World.start : World := ⟨Ledger.empty, [], [], 0⟩

theorem smooth_opens {n : Nat} (hn : n < 2 ^ 31) (mode : String) (kernel : Sqe → Completion) :
    ∃ mf w', myFopen (Outcomes.smooth (Int64.ofNat n) kernel) mode World.start = .ok mf w' := by
  obtain ⟨mf, w', h, -⟩ := myFopen_ends (Outcomes.smooth_succeeds mode n kernel) hn World.start
  exact ⟨mf, w', h⟩

end IoUring
