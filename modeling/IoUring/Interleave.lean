import IoUring.Chunking
import IoUring.Runs

/-! `my_fopen`, `my_fread` and `my_fclose` while the kernel works on the request.
The steps of the two sides come in any order; only the completion tail, which
the kernel advances last, tells `my_fopen` that the buffers are filled. -/

namespace IoUring

open EarlyExit

/-- `my_fopen` up to its submission. -/
def buildFile (o : Outcomes) (mode : String) : Sys MyFile := do
  let s ← ompAlloc 104 o.submitterAlloc
  let flags : OpenFlags := if mode = "r" then .rdonly else .rdwr
  let some sub ← appSetupUring o s | do
    report "Unable to setup uring!\n"
    releasePtr s .free
    throw .null
  let some fd ← tryAcquire (o.openFile flags) .file | fail "Fopen failed."
  let fileSz ← getFileSize o
  if fileSz < 0 then throw .null
  else
    let blocks := blockCount fileSz
    if o.registerFiles then
      let size := fileInfoSize blocks
      let some fi ← ompAlloc size o.fileInfoAlloc | fail "Unable to allocate memory\n"
      let mf ← ompAlloc 48 o.myFileAlloc
      let mf ← deref mf
      let iovecs ← fillIovecs o size (fileSz.toInt.toNat / 4096 + 2) fileSz 0 []
      pure
        { addr := mf
          fd := fd
          blocks := blocks
          currentBlock := 0
          isfirst := 0
          currentOffset := 0
          s := sub
          fiRead := none
          fi := ⟨fi, fileSz, iovecs⟩ }
    else
      report "io_uring_register_fds failed"
      release fd .close
      releasePtr s .ompFree
      throw .null

theorem myFopen_eq (o : Outcomes) (mode : String) : myFopen o mode = (do
    let mf ← buildFile o mode
    wakeKernel o
    pure (completeReadv o.kernel (submitReadv mf))) := by
  simp only [myFopen, buildFile, bind_assoc]
  congr 1
  funext s
  congr 1
  funext sub
  cases sub with
  | none => simp only [bind_assoc, throw_bind]
  | some sub =>
    simp only [bind_assoc]
    congr 1
    funext fd
    cases fd with
    | none => rfl
    | some fd =>
      simp only [bind_assoc]
      congr 1
      funext n
      by_cases hn : n < 0
      · simp only [if_pos hn, throw_bind]
      · simp only [if_neg hn]
        by_cases hr : o.registerFiles = true
        · simp only [if_pos hr, bind_assoc]
          congr 1
          funext fi
          cases fi with
          | none => rfl
          | some fi => simp only [bind_assoc, pure_bind]
        · simp only [if_neg hr, bind_assoc, throw_bind]

structure Built (mf : MyFile) : Prop where
  isfirst : mf.isfirst = 0
  sq_empty : mf.s.sqRing.tail = mf.s.sqRing.head
  cq_empty : mf.s.cqRing.tail = mf.s.cqRing.head

theorem buildFile_built {o : Outcomes} {mode : String} {w w' : World} {mf : MyFile}
    (h : buildFile o mode w = .ok mf w') : Built mf := by
  have hyields : Yields Built (buildFile o mode) := by
    rw [buildFile]
    refine (Yields.any _).bind fun s _ => ?_
    refine Yields.bind (P := fun sub => ∀ sub' : Submitter, sub = some sub' →
      sub'.sqRing.tail = sub'.sqRing.head ∧ sub'.cqRing.tail = sub'.cqRing.head) ?_ ?_
    · rintro w _ w' hsub sub rfl
      obtain ⟨p, -, hset⟩ := appSetupUring_ok hsub
      exact ⟨hset.sq_empty, hset.cq_empty⟩
    · intro sub hsub
      cases sub with
      | none => exact (Yields.any _).bind fun _ _ => (Yields.any _).bind fun _ _ => Yields.throw _
      | some sub =>
        obtain ⟨hsq, hcq⟩ := hsub sub rfl
        refine (Yields.any _).bind fun fd _ => ?_
        cases fd with
        | none => exact (Yields.any _).bind fun _ _ => Yields.throw _
        | some fd =>
          refine (Yields.any _).bind fun n _ => ?_
          refine Yields.ite (Yields.throw _) (Yields.ite ?_ ?_)
          · refine (Yields.any _).bind fun fi _ => ?_
            cases fi with
            | none => exact (Yields.any _).bind fun _ _ => Yields.throw _
            | some fi =>
              refine (Yields.any _).bind fun mf _ => ?_
              refine (Yields.any _).bind fun addr _ => ?_
              refine (Yields.any _).bind fun iovecs _ => ?_
              exact Yields.pure ⟨rfl, hsq, hcq⟩
          · exact (Yields.any _).bind fun _ _ => (Yields.any _).bind fun _ _ =>
              (Yields.any _).bind fun _ _ => Yields.throw _
  exact hyields _ _ _ h

def Turn.state : Turn → FreadState
  | .brk st | .next st => st

theorem freadCopy_mf {total : UInt64} {p : Ptr} {st : FreadState} {t : Turn}
    (h : freadCopy total p st = some t) : t.state.mf = st.mf := by
  simp only [freadCopy, Option.bind_eq_bind, Option.bind_eq_some_iff] at h
  obtain ⟨fi, -, iov, -, src, -, h⟩ := h
  rcases ite_eq_iff.mp h with ⟨-, h⟩ | ⟨-, h⟩ <;> cases h <;> rfl

/-- A turn that does not find the queue empty has fetched the completion. -/
theorem freadTurn_isfirst {total : UInt64} {st : FreadState} {t : Turn}
    (hq : st.mf.isfirst = 0 → st.head ≠ st.mf.s.cqRing.tail) (h : freadTurn total st = some t) :
    t.state.mf.isfirst ≠ 0 := by
  rw [freadTurn] at h
  by_cases h0 : st.mf.isfirst = 0
  · simp only [h0, hq h0, and_false, if_false, if_true] at h
    have hone : (1 : Int32) ≠ 0 := by decide
    split at h
    · cases h
      exact hone
    · rw [freadCopy_mf h]
      exact hone
  · simp only [h0, false_and, if_false] at h
    split at h
    · cases h
    · rwa [freadCopy_mf h]

inductive Phase where
  | idle
  | taken (sqe : Sqe)
  | filled (sqe : Sqe)
  | stored
  | done

inductive App where
  | submitting (mf : MyFile)
  | submitted (mf : MyFile)
  | waiting (mf : MyFile) (head : UInt32)
  | failed (mf : MyFile)
  | idle (mf : MyFile)
  | reading (totalBytes : UInt64) (st : FreadState)
  | closed (mf : MyFile)

structure Interleaved where
  app : App
  phase : Phase

inductive Interleaved.Action where
  | submit | loadFlags (need entered : Bool) | seeTail
  | call (q : Request) | turn | close
  | take | fill | storeCqe | advanceTail

/-- The memory that both sides see. -/
def App.mem : App → MyFile
  | .submitting mf | .submitted mf | .waiting mf _ | .failed mf | .idle mf | .closed mf => mf
  | .reading _ st => st.mf

def App.update (f : MyFile → MyFile) : App → App
  | .submitting mf => .submitting (f mf)
  | .submitted mf => .submitted (f mf)
  | .waiting mf head => .waiting (f mf) head
  | .failed mf => .failed (f mf)
  | .idle mf => .idle (f mf)
  | .reading total st => .reading total { st with mf := f st.mf }
  | .closed mf => .closed (f mf)

def MyFile.nextSqe (mf : MyFile) : Sqe :=
  mf.s.sqes (mf.s.sqRing.array (mf.s.sqRing.head &&& mf.s.sqRing.ringMask))

def takeSqe (mf : MyFile) : MyFile :=
  { mf with s := { mf.s with sqRing := { mf.s.sqRing with head := mf.s.sqRing.head + 1 } } }

def fillBuffers (sqe : Sqe) (data : List UInt8) (mf : MyFile) : MyFile :=
  { mf with fi := { mf.fi with iovecs := scatter sqe.len.toNat mf.fi.iovecs data } }

def storeCqe (cqe : Cqe) (mf : MyFile) : MyFile :=
  let cq := mf.s.cqRing
  { mf with s := { mf.s with
      cqRing := { cq with cqes := fun i => if i = cq.tail &&& cq.ringMask then cqe else cq.cqes i } } }

def advanceTail (mf : MyFile) : MyFile :=
  { mf with s := { mf.s with cqRing := { mf.s.cqRing with tail := mf.s.cqRing.tail + 1 } } }

namespace Interleaved

def step (kernel : Sqe → Completion) (s : Interleaved) : Action → Option Interleaved
  | .submit =>
    match s.app with
    | .submitting mf => some { s with app := .submitted (submitReadv mf) }
    | _ => none
  | .loadFlags need entered =>
    match s.app with
    | .submitted mf =>
      some { s with app := if need && !entered then .failed mf else .waiting mf mf.s.cqRing.head }
    | _ => none
  | .seeTail =>
    match s.app with
    | .waiting mf head =>
      if mf.isfirst = 0 ∧ head = mf.s.cqRing.tail then none else some { s with app := .idle mf }
    | _ => none
  | .call q =>
    match s.app with
    | .idle mf =>
      if mf.currentBlock.toUInt32 ≥ mf.blocks.toUInt32 then some s
      else some { s with app := .reading (q.size * q.count) (mf.entry q.ptr) }
    | _ => none
  | .turn =>
    match s.app with
    | .reading total st =>
      match freadTurn total st with
      | none => none
      | some (.brk st) => some { s with app := .idle st.result.mf }
      | some (.next st) =>
        if st.index < st.mf.blocks.toUInt32 then some { s with app := .reading total st }
        else some { s with app := .idle st.result.mf }
    | _ => none
  | .close =>
    match s.app with
    | .idle mf => some { s with app := .closed mf }
    | _ => none
  | .take =>
    match s.phase with
    | .idle =>
      if s.app.mem.s.sqRing.head = s.app.mem.s.sqRing.tail then none
      else some ⟨s.app.update takeSqe, .taken s.app.mem.nextSqe⟩
    | _ => none
  | .fill =>
    match s.phase with
    | .taken sqe => some ⟨s.app.update (fillBuffers sqe (kernel sqe).data), .filled sqe⟩
    | _ => none
  | .storeCqe =>
    match s.phase with
    | .filled sqe =>
      some ⟨s.app.update (IoUring.storeCqe ⟨sqe.userData, (kernel sqe).res⟩), .stored⟩
    | _ => none
  | .advanceTail =>
    match s.phase with
    | .stored => some ⟨s.app.update IoUring.advanceTail, .done⟩
    | _ => none

def start (mf : MyFile) : Interleaved := ⟨.submitting mf, .idle⟩

/-- The kernel has not posted the completion of the request. -/
def Outstanding (s : Interleaved) : Prop := s.phase ≠ .done

/-- The completion tail counts the one completion of the ring. -/
structure Posted (phase : Phase) (mf : MyFile) : Prop where
  before : phase ≠ .done → mf.s.cqRing.tail = mf.s.cqRing.head
  after : phase = .done → mf.s.cqRing.tail = mf.s.cqRing.head + 1

def Inv (s : Interleaved) : Prop :=
  match s.app with
  | .submitting mf => s.phase = .idle ∧ Built mf
  | .submitted mf => mf.isfirst = 0 ∧ Posted s.phase mf
  | .waiting mf head => mf.isfirst = 0 ∧ head = mf.s.cqRing.head ∧ Posted s.phase mf
  | .failed _ => True
  | .idle mf => s.phase = .done ∧ (mf.isfirst = 0 → mf.s.cqRing.head ≠ mf.s.cqRing.tail)
  | .reading _ st => s.phase = .done ∧ (st.mf.isfirst = 0 → st.head ≠ st.mf.s.cqRing.tail)
  | .closed _ => s.phase = .done

theorem start_inv {mf : MyFile} (h : Built mf) : (start mf).Inv := ⟨rfl, h⟩

theorem posted_of_built {mf : MyFile} (h : Built mf) : Posted .idle (submitReadv mf) :=
  ⟨fun _ => h.cq_empty, fun hp => nomatch hp⟩

/-- A step of the kernel finds the application before or in its wait. -/
theorem kernel_inv {app : App} {phase phase' : Phase} {f : MyFile → MyFile}
    (hs : Inv ⟨app, phase⟩) (hout : phase ≠ .done) (hsub : ∀ mf, app ≠ .submitting mf)
    (hf : ∀ mf, (f mf).isfirst = mf.isfirst ∧ (f mf).s.cqRing.head = mf.s.cqRing.head)
    (hposted : ∀ mf, Posted phase mf → Posted phase' (f mf)) : Inv ⟨app.update f, phase'⟩ := by
  cases app with
  | submitting mf => exact absurd rfl (hsub mf)
  | submitted mf => exact ⟨(hf mf).1.trans hs.1, hposted mf hs.2⟩
  | waiting mf head =>
    exact ⟨(hf mf).1.trans hs.1, hs.2.1.trans (hf mf).2.symm, hposted mf hs.2.2⟩
  | failed mf => trivial
  | idle mf => exact absurd hs.1 hout
  | reading total st => exact absurd hs.1 hout
  | closed mf => exact absurd hs hout

theorem step_inv {kernel : Sqe → Completion} {s t : Interleaved} {a : Action}
    (h : s.step kernel a = some t) (hs : s.Inv) : t.Inv := by
  obtain ⟨app, phase⟩ := s
  cases a with
  | submit =>
    cases app <;> simp only [step, reduceCtorEq, Option.some.injEq] at h
    case submitting mf =>
      obtain ⟨hphase, hbuilt⟩ := hs
      subst h hphase
      exact ⟨hbuilt.isfirst, posted_of_built hbuilt⟩
  | loadFlags need entered =>
    cases app <;> simp only [step, reduceCtorEq, Option.some.injEq] at h
    case submitted mf =>
      subst h
      obtain ⟨hfirst, hposted⟩ := hs
      split
      · trivial
      · exact ⟨hfirst, rfl, hposted⟩
  | seeTail =>
    cases app <;> simp only [step, reduceCtorEq] at h
    case waiting mf head =>
      obtain ⟨hfirst, rfl, hposted⟩ := hs
      split at h
      · cases h
      · next hmoved =>
        cases h
        have hne : mf.s.cqRing.head ≠ mf.s.cqRing.tail := fun he => hmoved ⟨hfirst, he⟩
        have hdone : phase = .done := by
          by_contra hout
          exact hne (hposted.before hout).symm
        exact ⟨hdone, fun _ => hne⟩
  | call q =>
    cases app <;> simp only [step, reduceCtorEq] at h
    case idle mf =>
      split at h
      · cases h
        exact hs
      · cases h
        exact hs
  | turn =>
    cases app <;> simp only [step, reduceCtorEq] at h
    case reading total st =>
      obtain ⟨hdone, hq⟩ := hs
      cases hturn : freadTurn total st with
      | none => simp [hturn] at h
      | some r =>
        have hfirst := freadTurn_isfirst hq hturn
        have hidle : Inv ⟨.idle r.state.result.mf, phase⟩ := ⟨hdone, fun h0 => absurd h0 hfirst⟩
        have hnext : Inv ⟨.reading total r.state, phase⟩ := ⟨hdone, fun h0 => absurd h0 hfirst⟩
        rw [hturn] at h
        cases r with
        | brk st' =>
          cases h
          exact hidle
        | next st' =>
          simp only at h
          split at h
          · cases h
            exact hnext
          · cases h
            exact hidle
  | close =>
    cases app <;> simp only [step, reduceCtorEq, Option.some.injEq] at h
    case idle mf =>
      subst h
      exact hs.1
  | take =>
    cases phase <;> simp only [step, reduceCtorEq] at h
    case idle =>
      split at h
      · cases h
      · next hne =>
        cases h
        refine kernel_inv hs (fun hp => nomatch hp) ?_ (fun mf => ⟨rfl, rfl⟩) ?_
        · rintro mf rfl
          exact hne hs.2.sq_empty.symm
        · exact fun mf hp => ⟨fun _ => hp.before (fun hd => nomatch hd), fun hd => nomatch hd⟩
  | fill =>
    cases phase <;> simp only [step, reduceCtorEq, Option.some.injEq] at h
    case taken sqe =>
      subst h
      refine kernel_inv hs (fun hp => nomatch hp) ?_ (fun mf => ⟨rfl, rfl⟩) ?_
      · rintro mf rfl
        cases hs.1
      · exact fun mf hp => ⟨fun _ => hp.before (fun hd => nomatch hd), fun hd => nomatch hd⟩
  | storeCqe =>
    cases phase <;> simp only [step, reduceCtorEq, Option.some.injEq] at h
    case filled sqe =>
      subst h
      refine kernel_inv hs (fun hp => nomatch hp) ?_ (fun mf => ⟨rfl, rfl⟩) ?_
      · rintro mf rfl
        cases hs.1
      · exact fun mf hp => ⟨fun _ => hp.before (fun hd => nomatch hd), fun hd => nomatch hd⟩
  | advanceTail =>
    cases phase <;> simp only [step, reduceCtorEq, Option.some.injEq] at h
    case stored =>
      subst h
      refine kernel_inv hs (fun hp => nomatch hp) ?_ (fun mf => ⟨rfl, rfl⟩) ?_
      · rintro mf rfl
        cases hs.1
      · exact fun mf hp => ⟨fun hd => absurd rfl hd, fun _ =>
          congrArg (· + 1) (hp.before (fun hd => nomatch hd))⟩

theorem reach_inv {kernel : Sqe → Completion} {mf : MyFile} {s : Interleaved} (h : Built mf)
    (hs : Runs.Reach (step kernel) Runs.Any (start mf) s) : s.Inv :=
  hs.invariant (start_inv h) fun _ _ _ _ hstep hu => step_inv hstep hu

/-- Whenever `my_fread` takes a turn or `my_fclose` frees the file, the completion
has been posted, and no turn finds the completion queue empty. -/
theorem no_access_before_completion {o : Outcomes} {mode : String} {w w' : World} {mf : MyFile}
    (h : buildFile o mode w = .ok mf w') {s : Interleaved}
    (hs : Runs.Reach (step o.kernel) Runs.Any (start mf) s) :
    (∀ a t, s.step o.kernel a = some t → a = .turn ∨ a = .close → ¬ s.Outstanding) ∧
      ∀ total st, s.app = .reading total st →
        ¬ (st.mf.isfirst = 0 ∧ st.head = st.mf.s.cqRing.tail) := by
  have hi := reach_inv (buildFile_built h) hs
  obtain ⟨app, phase⟩ := s
  constructor
  · rintro a t hstep (rfl | rfl) hout
    · cases app <;> simp only [step, reduceCtorEq] at hstep
      case reading total st => exact hout hi.1
    · cases app <;> simp only [step, reduceCtorEq] at hstep
      case idle mf => exact hout hi.1
  · rintro total st rfl ⟨hfirst, hempty⟩
    exact hi.2 hfirst hempty

theorem completeReadv_eq (kernel : Sqe → Completion) (mf : MyFile) :
    completeReadv kernel mf =
      advanceTail (storeCqe ⟨mf.nextSqe.userData, (kernel mf.nextSqe).res⟩
        (fillBuffers mf.nextSqe (kernel mf.nextSqe).data (takeSqe mf))) := rfl

/-- The memory after the steps that the kernel has made. -/
def Progress (kernel : Sqe → Completion) (mf : MyFile) : Phase → MyFile → Prop
  | .idle, m => m = mf
  | .taken sqe, m => sqe = mf.nextSqe ∧ m = takeSqe mf
  | .filled sqe, m => sqe = mf.nextSqe ∧ m = fillBuffers sqe (kernel sqe).data (takeSqe mf)
  | .stored, m =>
    m = IoUring.storeCqe ⟨mf.nextSqe.userData, (kernel mf.nextSqe).res⟩
      (fillBuffers mf.nextSqe (kernel mf.nextSqe).data (takeSqe mf))
  | .done, m => m = completeReadv kernel mf

/-- Some calls, one after the other, lead from one handle to the other. -/
def Ran (mf m : MyFile) : Prop := ∃ qs rs, freadRun mf qs = some (rs, m)

theorem Ran.snoc {mf m : MyFile} {q : Request} {r : FreadResult} (h : Ran mf m)
    (hcall : myFread q.ptr q.size q.count m = some r) : Ran mf r.mf := by
  obtain ⟨qs, rs, hrun⟩ := h
  refine ⟨qs ++ [q], rs ++ [r], ?_⟩
  induction qs generalizing mf rs with
  | nil =>
    cases hrun
    exact (freadRun_cons hcall).mpr ⟨[], rfl, rfl⟩
  | cons p qs ih =>
    cases hp : myFread p.ptr p.size p.count mf with
    | none => simp [freadRun, hp] at hrun
    | some v =>
      obtain ⟨rest, hrest, rfl⟩ := (freadRun_cons hp).mp hrun
      exact (freadRun_cons hp).mpr ⟨rest ++ [r], ih _ hrest, rfl⟩

theorem freadLoop_mono {total : UInt64} {turns : Nat} {st st' : FreadState} (more : Nat)
    (h : freadLoop total turns st = some st') : freadLoop total (turns + more) st = some st' := by
  induction turns generalizing st with
  | zero => cases h
  | succ turns ih =>
    rw [Nat.succ_add]
    rw [freadLoop] at h ⊢
    cases hturn : freadTurn total st with
    | none => simp [hturn] at h
    | some r =>
      rw [hturn] at h
      cases r with
      | brk st₁ => exact h
      | next st₁ =>
        simp only at h ⊢
        split at h
        · next hlt => rw [if_pos hlt, ih h]
        · next hlt => rw [if_neg hlt, h]

/-- A call on the handle `m` that has come as far as `st`. -/
def Underway (m : MyFile) (total : UInt64) (st : FreadState) : Prop :=
  ∃ q : Request, total = q.size * q.count ∧ ¬ m.currentBlock.toUInt32 ≥ m.blocks.toUInt32 ∧
    ∃ k, ∀ n, freadLoop total (k + n) (m.entry q.ptr) = freadLoop total n st

theorem Underway.next {m : MyFile} {total : UInt64} {st st' : FreadState}
    (h : Underway m total st) (hturn : freadTurn total st = some (.next st'))
    (hlt : st'.index < st'.mf.blocks.toUInt32) : Underway m total st' := by
  obtain ⟨q, htotal, hend, k, hk⟩ := h
  refine ⟨q, htotal, hend, k + 1, ?_⟩
  intro n
  rw [Nat.add_assoc, Nat.add_comm 1 n, hk, freadLoop, hturn]
  simp only [if_pos hlt]

theorem Underway.result {mf m : MyFile} {total : UInt64} {st st' : FreadState}
    (hm : m.Sound) (hran : Ran mf m) (h : Underway m total st)
    (hlast : freadLoop total 1 st = some st') : Ran mf st'.result.mf := by
  obtain ⟨q, rfl, hend, k, hk⟩ := h
  obtain ⟨r, hcall, -⟩ := myFread_called hm q
  have hloop : freadLoop (q.size * q.count) (k + 1) (m.entry q.ptr) = some st' := by
    rw [hk, hlast]
  have hmap := hcall
  rw [myFread_eq_map hend] at hmap
  obtain ⟨st₁, hst₁, hr⟩ := Option.map_eq_some_iff.mp hmap
  -- both numbers of turns are enough
  have hsame : st₁ = st' := by
    have hlong := freadLoop_mono (k + 1) hst₁
    have hlong' := freadLoop_mono ((q.size * q.count).toNat + 1) hloop
    rw [Nat.add_comm, hlong'] at hlong
    exact (Option.some.inj hlong).symm
  rw [← hsame, hr]
  exact hran.snoc hcall

/-- The application has done what it would have done on its own. -/
def Sequential (kernel : Sqe → Completion) (mf : MyFile) (s : Interleaved) : Prop :=
  match s.app with
  | .submitting m => s.phase = .idle ∧ m = mf
  | .submitted m | .waiting m _ | .failed m => Progress kernel (submitReadv mf) s.phase m
  | .idle m | .closed m => s.phase = .done ∧ Ran (completeReadv kernel (submitReadv mf)) m
  | .reading total st =>
    s.phase = .done ∧ ∃ m, Ran (completeReadv kernel (submitReadv mf)) m ∧ Underway m total st

theorem kernel_sequential {kernel : Sqe → Completion} {mf : MyFile} {app : App}
    {phase phase' : Phase} {f : MyFile → MyFile} (hs : Sequential kernel mf ⟨app, phase⟩)
    (hout : phase ≠ .done) (hsub : ∀ mf, app ≠ .submitting mf)
    (hf : Progress kernel (submitReadv mf) phase app.mem →
      Progress kernel (submitReadv mf) phase' (f app.mem)) :
    Sequential kernel mf ⟨app.update f, phase'⟩ := by
  cases app with
  | submitting m => exact absurd rfl (hsub m)
  | submitted m | waiting m head | failed m => exact hf hs
  | idle m | closed m | reading total st => exact absurd hs.1 hout

theorem step_sequential {kernel : Sqe → Completion} {mf : MyFile} {s t : Interleaved} {a : Action}
    (hsound : (completeReadv kernel (submitReadv mf)).Sound) (h : s.step kernel a = some t)
    (hi : s.Inv) (hs : Sequential kernel mf s) : Sequential kernel mf t := by
  have hnext := step_inv h hi
  obtain ⟨app, phase⟩ := s
  have hran : ∀ m, Ran (completeReadv kernel (submitReadv mf)) m → m.Sound := by
    rintro m ⟨qs, rs, hrun⟩
    obtain ⟨rs', last, hrun', hlast, -⟩ := freadRun_sound hsound qs
    rw [hrun', Option.some_inj] at hrun
    cases hrun
    exact hlast
  cases a with
  | submit =>
    cases app <;> simp only [step, reduceCtorEq, Option.some.injEq] at h
    case submitting m =>
      subst h
      obtain ⟨rfl, rfl⟩ := hs
      exact rfl
  | loadFlags need entered =>
    cases app <;> simp only [step, reduceCtorEq, Option.some.injEq] at h
    case submitted m =>
      subst h
      split
      · exact hs
      · exact hs
  | seeTail =>
    cases app <;> simp only [step, reduceCtorEq] at h
    case waiting m head =>
      split at h
      · cases h
      · cases h
        obtain rfl : phase = .done := hnext.1
        exact ⟨rfl, [], [], by rw [show m = _ from hs]; rfl⟩
  | call q =>
    cases app <;> simp only [step, reduceCtorEq] at h
    case idle m =>
      split at h
      · cases h
        exact hs
      · next hend =>
        cases h
        exact ⟨hs.1, m, hs.2, q, rfl, hend, 0, fun n => by rw [Nat.zero_add]⟩
  | turn =>
    cases app <;> simp only [step, reduceCtorEq] at h
    case reading total st =>
      obtain ⟨hdone, m, hm, hunder⟩ := hs
      cases hturn : freadTurn total st with
      | none => simp [hturn] at h
      | some r =>
        rw [hturn] at h
        cases r with
        | brk st' =>
          cases h
          exact ⟨hdone, hunder.result (hran m hm) hm (by rw [freadLoop, hturn])⟩
        | next st' =>
          simp only at h
          split at h
          · next hlt =>
            cases h
            exact ⟨hdone, m, hm, hunder.next hturn hlt⟩
          · next hlt =>
            cases h
            refine ⟨hdone, hunder.result (hran m hm) hm ?_⟩
            rw [freadLoop, hturn]
            exact if_neg hlt
  | close =>
    cases app <;> simp only [step, reduceCtorEq, Option.some.injEq] at h
    case idle m =>
      subst h
      exact hs
  | take =>
    cases phase <;> simp only [step, reduceCtorEq] at h
    case idle =>
      split at h
      · cases h
      · next hne =>
        cases h
        refine kernel_sequential hs (by simp) ?_ ?_
        · rintro m rfl
          exact hne hi.2.sq_empty.symm
        · intro hp
          rw [show app.mem = _ from hp]
          exact ⟨rfl, rfl⟩
  | fill =>
    cases phase <;> simp only [step, reduceCtorEq, Option.some.injEq] at h
    case taken sqe =>
      subst h
      refine kernel_sequential hs (by simp) ?_ ?_
      · rintro m rfl
        cases hs.1
      · rintro ⟨hsqe, hmem⟩
        exact ⟨hsqe, by rw [hmem]⟩
  | storeCqe =>
    cases phase <;> simp only [step, reduceCtorEq, Option.some.injEq] at h
    case filled sqe =>
      subst h
      refine kernel_sequential hs (by simp) ?_ ?_
      · rintro m rfl
        cases hs.1
      · rintro ⟨hsqe, hmem⟩
        rw [hmem, hsqe]
        exact rfl
  | advanceTail =>
    cases phase <;> simp only [step, reduceCtorEq, Option.some.injEq] at h
    case stored =>
      subst h
      refine kernel_sequential hs (by simp) ?_ ?_
      · rintro m rfl
        cases hs.1
      · intro hp
        rw [show app.mem = _ from hp]
        exact (completeReadv_eq kernel (submitReadv mf)).symm

theorem fillIovecs_sqFlags (o : Outcomes) (flags : UInt32) (size : UInt64) (turns : Nat)
    (rem : Int64) (cur : UInt32) (acc : List Iovc) :
    fillIovecs { o with sqFlags := flags } size turns rem cur acc =
      fillIovecs o size turns rem cur acc := by
  induction turns generalizing rem cur acc with
  | zero => rfl
  | succ turns ih => simp only [fillIovecs, ih]

theorem buildFile_opens {o : Outcomes} {mode : String} {w w' : World} {mf : MyFile}
    (h : buildFile o mode w = .ok mf w') :
    myFopen { o with sqFlags := 0 } mode w = .ok (completeReadv o.kernel (submitReadv mf)) w' := by
  have hbuild : buildFile { o with sqFlags := 0 } mode w = .ok mf w' := by
    simp only [buildFile, fillIovecs_sqFlags]
    exact h
  have hwake : wakeKernel { o with sqFlags := 0 } w' = .ok () w' := by
    have hflags : ¬ ((0 : UInt32) &&& 1 ≠ 0) := by decide
    rw [wakeKernel, if_neg hflags]
    rfl
  rw [myFopen_eq]
  exact bind_eq_ok.mpr ⟨mf, w', hbuild, bind_eq_ok.mpr ⟨(), w', hwake, rfl⟩⟩

/-- In every interleaving the handle between two calls is one that the calls
make on their own, after a completion posted in one step. -/
theorem interleaved_sequential {o : Outcomes} {mode : String} {w w' : World} {mf m : MyFile}
    (h : buildFile o mode w = .ok mf w') {s : Interleaved}
    (hs : Runs.Reach (step o.kernel) Runs.Any (start mf) s) (hidle : s.app = .idle m) :
    Ran (completeReadv o.kernel (submitReadv mf)) m := by
  obtain ⟨n, -, -, ho⟩ := myFopen_opened (buildFile_opens h)
  have hboth : s.Inv ∧ Sequential o.kernel mf s := by
    refine hs.invariant (I := fun s => s.Inv ∧ Sequential o.kernel mf s)
      ⟨start_inv (buildFile_built h), rfl, rfl⟩ ?_
    rintro u a v - hstep ⟨hu, hseq⟩
    exact ⟨step_inv hstep hu, step_sequential ho.sound hstep hu hseq⟩
  have hseq := hboth.2
  rw [Sequential, hidle] at hseq
  exact hseq.2

/-- The order in which the kernel is done before `my_fopen` waits is a run. -/
theorem open_reaches (kernel : Sqe → Completion) {mf : MyFile} (h : Built mf) :
    Runs.Reach (step kernel) Runs.Any (start mf)
      ⟨.idle (completeReadv kernel (submitReadv mf)), .done⟩ := by
  have hne : ∀ x : UInt32, x ≠ x + 1 := fun x => by grind
  have hsq : (submitReadv mf).s.sqRing.head ≠ (submitReadv mf).s.sqRing.tail := by
    simp only [submitReadv, h.sq_empty, if_pos (hne _)]
    exact hne _
  have hcq : ¬ (mf.isfirst = 0 ∧ mf.s.cqRing.head = mf.s.cqRing.tail + 1) := by
    rw [h.cq_empty]
    exact fun hc => hne _ hc.2
  have htake : step kernel ⟨.submitted (submitReadv mf), .idle⟩ .take =
      some ⟨.submitted (takeSqe (submitReadv mf)), .taken (submitReadv mf).nextSqe⟩ := if_neg hsq
  have hsee : step kernel ⟨.waiting (completeReadv kernel (submitReadv mf)) mf.s.cqRing.head, .done⟩
      .seeTail = some ⟨.idle (completeReadv kernel (submitReadv mf)), .done⟩ := if_neg hcq
  refine Relation.ReflTransGen.head ⟨.submit, trivial, rfl⟩ ?_
  refine Relation.ReflTransGen.head ⟨.take, trivial, htake⟩ ?_
  refine Relation.ReflTransGen.head ⟨.fill, trivial, rfl⟩ ?_
  refine Relation.ReflTransGen.head ⟨.storeCqe, trivial, rfl⟩ ?_
  refine Relation.ReflTransGen.head ⟨.advanceTail, trivial, rfl⟩ ?_
  refine Relation.ReflTransGen.head ⟨.loadFlags false true, trivial, rfl⟩ ?_
  exact Relation.ReflTransGen.single ⟨.seeTail, trivial, hsee⟩

theorem no_access_one_byte :
    ∃ mf w' s, buildFile (.smooth 1 fun _ => ⟨1, [65]⟩) "r" World.start = .ok mf w' ∧
      Runs.Reach (step fun _ => ⟨1, [65]⟩) Runs.Any (start mf) s ∧ (∃ m, s.app = .idle m) ∧
      ∀ a t, s.step (fun _ => ⟨1, [65]⟩) a = some t → a = .turn ∨ a = .close →
        ¬ s.Outstanding := by
  obtain ⟨mf₁, w₁, hopen⟩ := smooth_opens (n := 1) (by decide) "r" fun _ => ⟨1, [65]⟩
  rw [myFopen_eq] at hopen
  obtain ⟨mf, w', hbuild, -⟩ := bind_eq_ok.mp hopen
  have hreach := open_reaches (fun _ => ⟨1, [65]⟩) (buildFile_built hbuild)
  exact ⟨mf, w', _, hbuild, hreach, ⟨_, rfl⟩, (no_access_before_completion hbuild hreach).1⟩

end Interleaved

end IoUring
