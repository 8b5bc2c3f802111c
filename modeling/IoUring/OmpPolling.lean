import IoUring.Blocks
import IoUring.Runs

/-! omp_io_uring_polling.c submits a read for each file and waits for a completion
after it. A failed completion is not marked as seen, so every later call finds it
again. -/

namespace IoUring

namespace OmpPolling

open Blocks (Iovec Own)

/-- `#define QUEUE_DEPTH 16`. -/
abbrev queueDepth : Nat := 16

/-- A regular file has a size. -/
structure RegularFile extends Blocks.Outcomes where
  size_nonneg : 0 ≤ fileSize.toInt

structure Sqe where
  fd : Nat
  addr : Nat
  nrVecs : UInt32
  offset : UInt64
  userData : Nat
deriving DecidableEq

structure Cqe where
  userData : Nat
  res : Int32
deriving DecidableEq

inductive Pc where
  | top | waiting
  | exited (status : Nat)
  | fault (f : Fault)
deriving DecidableEq

/-- `calls` says for each call of `get_completion_and_print` whose completion it
marked as seen, if any. `posted` are all completions of the run. -/
structure State where
  pc : Pc
  i : Nat
  fis : Nat → Blocks.FileInfo
  submitted : List Sqe
  inFlight : List Sqe
  cq : List Cqe
  out : List Iovec
  errors : List String
  calls : List (Option Nat)
  posted : List Cqe

/-- The kernel does `take` and `complete`, and `main` the rest. -/
inductive Action where
  | submit | ringWaitFails | print | waitFails | finish | take
  | complete (k : Nat) (res : Int32)

/-- `submit_read_request` before it asks for an entry. The result of `malloc` is not
tested. -/
def prepare (f : RegularFile) (i : Nat) : Except Blocks.Ended Blocks.FileInfo :=
  if f.openFile then Blocks.fileInfo f.toOutcomes i (.fault .nullDeref) f.size_nonneg
  else .error .failed

def request (i : Nat) (fi : Blocks.FileInfo) : Sqe :=
  ⟨i, i, (Blocks.blockCount fi.fileSz).toUInt32, 0, i⟩

/-- `io_uring_sqring_wait` fails or blocks until the kernel has taken an entry, and
`io_uring_wait_cqe` until there is a completion that is not seen. -/
def step (argv : List RegularFile) (s : State) : Action → Option State
  | .submit =>
    if s.pc = .top then
      match argv[s.i]? with
      | none => none
      | some f =>
        match prepare f s.i with
        | .ok fi =>
          if s.submitted.length < queueDepth then
            some { s with
              pc := .waiting
              fis := fun k => if k = s.i then fi else s.fis k
              submitted := s.submitted ++ [request s.i fi] }
          else none
        | .error .failed => some { s with pc := .exited 1 }
        | .error (.fault e) => some { s with pc := .fault e }
    else none
  | .ringWaitFails =>
    if s.pc = .top ∧ queueDepth ≤ s.submitted.length then
      match argv[s.i]? with
      | none => none
      | some f =>
        match prepare f s.i with
        | .ok _ =>
          some { s with
            pc := .exited 1
            errors := s.errors ++ ["io_uring_submit_and_wait"] }
        | .error _ => none
    else none
  | .print =>
    if s.pc = .waiting then
      match s.cq with
      | [] => none
      | c :: rest =>
        if c.res < 0 then
          some { s with
            pc := .top
            i := s.i + 1
            errors := s.errors ++ ["Async readv failed.\n"]
            calls := s.calls ++ [none] }
        else
          some { s with
            pc := .top
            i := s.i + 1
            out := s.out ++ (s.fis c.userData).printed
            cq := rest
            calls := s.calls ++ [some c.userData] }
    else none
  | .waitFails =>
    if s.pc = .waiting then
      some { s with
        pc := .top
        i := s.i + 1
        errors := s.errors ++ ["io_uring_wait_cqe"]
        calls := s.calls ++ [none] }
    else none
  | .finish => if s.pc = .top ∧ argv.length ≤ s.i then some { s with pc := .exited 0 } else none
  | .take =>
    match s.submitted with
    | [] => none
    | sqe :: rest => some { s with submitted := rest, inFlight := s.inFlight ++ [sqe] }
  | .complete k res =>
    match s.inFlight[k]? with
    | none => none
    | some sqe =>
      some { s with
        inFlight := s.inFlight.eraseIdx k
        cq := s.cq ++ [⟨sqe.userData, res⟩]
        posted := s.posted ++ [⟨sqe.userData, res⟩] }

def start : State where
  pc := .top
  i := 0
  fis := fun _ => .empty
  submitted := []
  inFlight := []
  cq := []
  out := []
  errors := []
  calls := []
  posted := []

/-- `io_uring_wait_cqe` returns the oldest completion not seen. -/
def Waits (_ : State) (a : Action) : Prop := a ≠ .waitFails

def State.outstanding (s : State) : List Nat :=
  s.submitted.map (·.userData) ++ s.inFlight.map (·.userData) ++ s.cq.map (·.userData)

def At (argv : List RegularFile) (s : State) : Prop :=
  match s.pc with
  | .top => s.outstanding = [] ∧ s.i ≤ argv.length
  | .waiting => s.outstanding = [s.i] ∧ s.i < argv.length
  | .exited status => status = 0 → s.outstanding = [] ∧ s.i = argv.length
  | .fault _ => True

theorem At.perm {argv : List RegularFile} {s t : State} (h : At argv s) (hpc : t.pc = s.pc)
    (hi : t.i = s.i) (hout : t.outstanding.Perm s.outstanding) : At argv t := by
  rw [At, hpc, hi]
  rw [At] at h
  split at h
  · exact ⟨List.perm_nil.mp (h.1 ▸ hout), h.2⟩
  · exact ⟨List.perm_singleton.mp (h.1 ▸ hout), h.2⟩
  · exact fun he => ⟨List.perm_nil.mp ((h he).1 ▸ hout), (h he).2⟩
  · trivial

theorem outstanding_singleton {s : State} {k : Nat} {c : Cqe} {rest : List Cqe}
    (h : s.outstanding = [k]) (hcq : s.cq = c :: rest) :
    s.submitted = [] ∧ s.inFlight = [] ∧ rest = [] ∧ c.userData = k := by
  rw [State.outstanding, hcq] at h
  have hlen := congrArg List.length h
  simp only [List.length_append, List.length_map, List.length_cons, List.length_nil] at hlen
  have hsub : s.submitted = [] := List.length_eq_zero_iff.mp (by omega)
  have hfly : s.inFlight = [] := List.length_eq_zero_iff.mp (by omega)
  have hrest : rest = [] := List.length_eq_zero_iff.mp (by omega)
  rw [hsub, hfly, hrest] at h
  exact ⟨hsub, hfly, hrest, (List.cons.inj h).1⟩

/-- Each call so far has consumed the completion of its own file. -/
structure Matched (argv : List RegularFile) (s : State) : Prop where
  calls : s.calls = (List.range s.i).map some
  out : s.out = (List.range s.i).flatMap fun k => (s.fis k).iovecs
  own : ∀ k < s.i, Own k (s.fis k)
  posted : ∃ seen, s.posted = seen ++ s.cq ∧ ∀ c ∈ seen, 0 ≤ c.res
  current : s.pc = .waiting → Own s.i (s.fis s.i)
  here : At argv s

/-- A completion has failed, and a call has consumed none. -/
def Stuck (s : State) : Prop := none ∈ s.calls ∧ ∃ c ∈ s.posted, c.res < 0

theorem start_matched (argv : List RegularFile) : Matched argv start where
  calls := rfl
  out := rfl
  own := fun k hk => absurd hk (Nat.not_lt_zero k)
  posted := ⟨[], rfl, by simp⟩
  current := by simp [start]
  here := ⟨rfl, Nat.zero_le _⟩

/-- What was consumed and what was posted only grow. -/
theorem step_grows {argv : List RegularFile} {s t : State} {a : Action}
    (h : step argv s a = some t) : s.calls <+: t.calls ∧ s.posted <+: t.posted := by
  cases a with
  | submit =>
    obtain ⟨-, h⟩ := Option.ite_none_right_eq_some.mp h
    split at h
    · cases h
    · split at h
      · split at h
        · cases h
          exact ⟨List.prefix_rfl, List.prefix_rfl⟩
        · cases h
      · cases h
        exact ⟨List.prefix_rfl, List.prefix_rfl⟩
      · cases h
        exact ⟨List.prefix_rfl, List.prefix_rfl⟩
  | ringWaitFails =>
    obtain ⟨-, h⟩ := Option.ite_none_right_eq_some.mp h
    split at h
    · cases h
    · split at h
      · cases h
        exact ⟨List.prefix_rfl, List.prefix_rfl⟩
      · cases h
  | print =>
    obtain ⟨-, h⟩ := Option.ite_none_right_eq_some.mp h
    split at h
    · cases h
    · split at h
      · cases h
        exact ⟨List.prefix_append _ _, List.prefix_rfl⟩
      · cases h
        exact ⟨List.prefix_append _ _, List.prefix_rfl⟩
  | waitFails =>
    obtain ⟨-, ⟨⟩⟩ := Option.ite_none_right_eq_some.mp h
    exact ⟨List.prefix_append _ _, List.prefix_rfl⟩
  | finish =>
    obtain ⟨-, ⟨⟩⟩ := Option.ite_none_right_eq_some.mp h
    exact ⟨List.prefix_rfl, List.prefix_rfl⟩
  | take =>
    simp only [step] at h
    split at h
    · cases h
    · cases h
      exact ⟨List.prefix_rfl, List.prefix_rfl⟩
  | complete k res =>
    simp only [step] at h
    split at h
    · cases h
    · cases h
      exact ⟨List.prefix_rfl, List.prefix_append _ _⟩

theorem step_stuck {argv : List RegularFile} {s t : State} {a : Action}
    (h : step argv s a = some t) (hs : Stuck s) : Stuck t := by
  obtain ⟨hcalls, c, hc, hneg⟩ := hs
  obtain ⟨hmore, hmore'⟩ := step_grows h
  exact ⟨hmore.subset hcalls, c, hmore'.subset hc, hneg⟩

theorem prepare_own {f : RegularFile} {k : Nat} {fi : Blocks.FileInfo}
    (h : prepare f k = .ok fi) : Own k fi := by
  rw [prepare] at h
  split at h
  · exact Blocks.fileInfo_own h
  · cases h

theorem Matched.step {argv : List RegularFile} {s t : State} {a : Action}
    (hs : Matched argv s) (h : step argv s a = some t) (hok : Waits s a) :
    Matched argv t ∨ Stuck t := by
  have hhere := hs.here
  rw [At] at hhere
  obtain ⟨seen, hposted, hseen⟩ := hs.posted
  cases a with
  | submit =>
    obtain ⟨hpc, h⟩ := Option.ite_none_right_eq_some.mp h
    rw [hpc] at hhere
    obtain ⟨hempty, -⟩ := hhere
    split at h
    · cases h
    · next f hf =>
      split at h
      · next fi hfi =>
        split at h
        · cases h
          have hother : ∀ k < s.i, (if k = s.i then fi else s.fis k) = s.fis k := by
            intro k hk
            exact if_neg (Nat.ne_of_lt hk)
          refine Or.inl ⟨hs.calls, ?_, ?_, ⟨seen, hposted, hseen⟩, ?_, ?_⟩
          · rw [hs.out]
            refine List.flatMap_congr ?_
            intro k hk
            dsimp only
            rw [hother k (List.mem_range.mp hk)]
          · intro k hk
            dsimp only
            rw [hother k hk]
            exact hs.own k hk
          · intro _
            dsimp only
            rw [if_pos rfl]
            exact prepare_own hfi
          · refine ⟨?_, (List.getElem?_eq_some_iff.mp hf).1⟩
            simp only [State.outstanding, List.append_eq_nil_iff, List.map_eq_nil_iff] at hempty ⊢
            rw [hempty.1.1, hempty.1.2, hempty.2]
            rfl
        · cases h
      · cases h
        exact Or.inl ⟨hs.calls, hs.out, hs.own, hs.posted, by simp, fun he => by cases he⟩
      · cases h
        exact Or.inl ⟨hs.calls, hs.out, hs.own, hs.posted, by simp, trivial⟩
  | ringWaitFails =>
    obtain ⟨-, h⟩ := Option.ite_none_right_eq_some.mp h
    split at h
    · cases h
    · split at h
      · cases h
        exact Or.inl ⟨hs.calls, hs.out, hs.own, hs.posted, by simp, fun he => by cases he⟩
      · cases h
  | print =>
    obtain ⟨hpc, h⟩ := Option.ite_none_right_eq_some.mp h
    rw [hpc] at hhere
    obtain ⟨hone, hlt⟩ := hhere
    split at h
    · cases h
    · next c rest hcq =>
      split at h
      · next hneg =>
        cases h
        refine Or.inr ⟨by simp, c, ?_, hneg⟩
        rw [hposted, hcq]
        simp
      · next hneg =>
        cases h
        obtain ⟨hsub, hfly, hrest, hc⟩ := outstanding_singleton hone hcq
        refine Or.inl ⟨?_, ?_, ?_, ⟨seen ++ [c], ?_, ?_⟩, by simp, ?_, hlt⟩
        · rw [hs.calls, hc, List.range_succ, List.map_append]
          rfl
        · dsimp only
          rw [hs.out, hc, Blocks.FileInfo.printed_eq, List.range_succ, List.flatMap_append]
          simp
        · intro k hk
          by_cases he : k = s.i
          · rw [he]
            exact hs.current hpc
          · have hlt : k < s.i + 1 := hk
            exact hs.own k (by omega)
        · rw [hposted, hcq, List.append_assoc]
          rfl
        · intro x hx
          rcases List.mem_append.mp hx with hx | hx
          · exact hseen x hx
          · obtain rfl := List.mem_singleton.mp hx
            exact Int32.not_lt.mp hneg
        · simp [State.outstanding, hsub, hfly, hrest]
  | waitFails => exact absurd rfl hok
  | finish =>
    obtain ⟨hc, ⟨⟩⟩ := Option.ite_none_right_eq_some.mp h
    rw [hc.1] at hhere
    exact Or.inl ⟨hs.calls, hs.out, hs.own, hs.posted, by simp,
      fun _ => ⟨hhere.1, Nat.le_antisymm hhere.2 hc.2⟩⟩
  | take =>
    simp only [OmpPolling.step] at h
    split at h
    · cases h
    · next sqe rest hsub =>
      cases h
      refine Or.inl ⟨hs.calls, hs.out, hs.own, hs.posted, hs.current, hs.here.perm rfl rfl ?_⟩
      refine List.Perm.append_right _ ?_
      rw [hsub, ← List.map_append, ← List.map_append, ← List.append_assoc]
      exact (List.perm_append_singleton sqe (rest ++ s.inFlight)).map _
  | complete k res =>
    simp only [OmpPolling.step] at h
    split at h
    · cases h
    · next sqe hk =>
      cases h
      have herase := (Runs.cons_eraseIdx_perm hk).map (·.userData)
      rw [List.map_cons] at herase
      refine Or.inl ⟨hs.calls, hs.out, hs.own, ⟨seen, ?_, hseen⟩, hs.current,
        hs.here.perm rfl rfl ?_⟩
      · rw [hposted, List.append_assoc]
      · dsimp only [State.outstanding]
        rw [List.map_append, List.append_assoc, List.append_assoc]
        refine List.Perm.append_left _ ?_
        rw [← List.append_assoc]
        refine List.perm_append_comm.trans ?_
        rw [← List.append_assoc]
        exact herase.append_right _

theorem reach_matched {argv : List RegularFile} {s : State}
    (h : Runs.Reach (step argv) Waits start s) : Matched argv s ∨ Stuck s :=
  h.invariant (I := fun s => Matched argv s ∨ Stuck s) (Or.inl (start_matched argv))
    fun _ _ _ hok hstep hu => by
      rcases hu with hu | hu
      · exact hu.step hstep hok
      · exact Or.inr (step_stuck hstep hu)

/-- Every buffer of every file whose read succeeded has been printed exactly once. -/
def State.Printed (argv : List RegularFile) (s : State) : Prop :=
  ∀ k < argv.length, (∃ c ∈ s.posted, c.userData = k ∧ 0 ≤ c.res) →
    ∀ v ∈ (s.fis k).iovecs, s.out.count v = 1

/-- The calls consume the completions of their own files, and what was read is
printed once, just if no read failed. -/
theorem consumed_in_order_iff {argv : List RegularFile} {s : State}
    (h : Runs.Reach (step argv) Waits start s) (hpc : s.pc = .exited 0) :
    s.calls = (List.range argv.length).map some ∧ s.Printed argv ↔ ∀ c ∈ s.posted, 0 ≤ c.res := by
  rcases reach_matched h with hs | ⟨hcalls, c, hc, hneg⟩
  · have hhere := hs.here
    rw [At, hpc] at hhere
    obtain ⟨hempty, hi⟩ := hhere rfl
    obtain ⟨seen, hposted, hseen⟩ := hs.posted
    have hcq : s.cq = [] := by
      simp only [State.outstanding, List.append_eq_nil_iff, List.map_eq_nil_iff] at hempty
      exact hempty.2
    rw [hcq, List.append_nil] at hposted
    refine iff_of_true ⟨by rw [hs.calls, hi], ?_⟩ (hposted ▸ hseen)
    intro k hk _ v hv
    rw [hs.out, Blocks.count_flatMap (hs.own k (hi ▸ hk)) hv _
      fun j hj => hs.own j (List.mem_range.mp hj)]
    exact List.count_eq_one_of_mem List.nodup_range (List.mem_range.mpr (hi ▸ hk))
  · refine iff_of_false ?_ fun hall => absurd (hall c hc) (Int32.not_le.mpr hneg)
    rintro ⟨heq, -⟩
    rw [heq] at hcalls
    obtain ⟨_, -, he⟩ := List.mem_map.mp hcalls
    cases he

def oneByte : RegularFile := ⟨⟨true, 1, true, fun _ => true⟩, by decide⟩

/-- The read of the first of two files fails: the second is read and not printed. -/
theorem blocked_by_failure :
    ∃ s, Runs.Reach (step [oneByte, oneByte]) Waits start s ∧ s.pc = .exited 0 ∧
      (⟨1, 1⟩ : Cqe) ∈ s.posted ∧ s.out = [] ∧
      ¬ (s.calls = (List.range 2).map some ∧ s.Printed [oneByte, oneByte]) := by
  have hreach := Runs.reach_of_run
    [.submit, .take, .complete 0 (-5), .print, .submit, .take, .complete 0 1, .print, .finish]
    (by simp [Waits] : ∀ u, ∀ a ∈ _, Waits u a)
    (rfl : Runs.run (step [oneByte, oneByte]) start _ = some _)
  refine ⟨_, hreach, rfl, List.mem_cons_of_mem _ List.mem_cons_self, rfl, ?_⟩
  rintro ⟨hcalls, -⟩
  exact absurd hcalls (by decide)

theorem consumed_two_files :
    ∃ s, Runs.Reach (step [oneByte, oneByte]) Waits start s ∧ s.pc = .exited 0 ∧
      s.out = [⟨⟨0, 0⟩, 1⟩, ⟨⟨1, 0⟩, 1⟩] ∧
      (s.calls = (List.range 2).map some ∧ s.Printed [oneByte, oneByte] ↔
        ∀ c ∈ s.posted, 0 ≤ c.res) := by
  have hreach := Runs.reach_of_run
    [.submit, .take, .complete 0 1, .print, .submit, .take, .complete 0 1, .print, .finish]
    (by simp [Waits] : ∀ u, ∀ a ∈ _, Waits u a)
    (rfl : Runs.run (step [oneByte, oneByte]) start _ = some _)
  exact ⟨_, hreach, rfl, rfl, consumed_in_order_iff hreach rfl⟩

end OmpPolling

end IoUring
