import Mathlib.Data.List.GetD
import IoUring.Device

/-! What the programs of the device write, whatever the order of its iterations. -/

namespace IoUring

namespace Device

open EarlyExit Holding

/-- What becomes of a write of `data` to output.bin: the status, the contents of the file if it
was opened, and the messages. -/
inductive Answers.Written (a : Answers) (data : List UInt8) :
    Int32 × Option (List UInt8) → List String → Prop where
  | closed : a.openFile = false → a.Written data (1, none) ["Failed to open file"]
  | noRing : a.openFile = true → a.queueInit ≠ 0 →
      a.Written data (1, some []) ["io_uring setup failed"]
  | served : a.openFile = true → a.queueInit = 0 →
      a.Written data (0, some (data.take a.res.toInt.toNat))
        [a.message "Write completed successfully"]

theorem ompAlloc_holds (w : World) :
    ∃ ptr w', ompAlloc true w = .ok ptr w' ∧ ptr.kind = .memory ∧ Holds w w' [ptr] ∧
      w'.log = w.log :=
  ⟨_, _, rfl, rfl, (Holds.refl w).acquired .memory, rfl⟩

theorem writeOutput_written (a : Answers) (data : List UInt8) {w w₁ : World} {ptr : Held Kind}
    (h : Holds w w₁ [ptr]) (hptr : ptr.kind = .memory) :
    Leaves Kind.deallocator w (fun r log => ∃ msgs, log = w₁.log ++ msgs ∧ a.Written data r msgs)
      (writeOutput a ptr data w₁) := by
  let fd : Held Kind := w₁.ledger.upcoming .descriptor
  let ring : Held Kind := (w₁.ledger.acquire .descriptor).upcoming .ring
  have hfd := h.acquired .descriptor
  have hring := hfd.acquired .ring
  have hown : ∀ x ∈ [(fd, Deallocator.close), (ring, .queueExit), (ptr, .ompFree)],
      x.2 = x.1.kind.deallocator := by
    simp [hptr, fd, ring, Kind.deallocator]
  have hown' : ∀ x ∈ [(fd, Deallocator.close), (ptr, .ompFree)], x.2 = x.1.kind.deallocator := by
    simp [hptr, fd, Kind.deallocator]
  have hown'' := (List.forall_mem_cons.mp hown').2
  rw [writeOutput]
  cases hopen : a.openFile with
  | false =>
    change Leaves _ _ _ ((releaseAll _ >>= fun _ => _) _)
    apply leaves_of_holds hown'' h
    · rfl
    · exact ⟨_, rfl, .closed hopen⟩
  | true =>
    by_cases hqueue : a.queueInit = 0
    · rw [decide_eq_true hqueue]
      change Leaves _ _ _ ((releaseAll _ >>= fun _ => _) _)
      apply leaves_of_holds hown (hring.perm (List.Perm.swap _ _ _))
      · rfl
      · exact ⟨_, rfl, .served hopen hqueue⟩
    · rw [decide_eq_false hqueue]
      change Leaves _ _ _ ((releaseAll _ >>= fun _ => _) _)
      apply leaves_of_holds hown' hfd
      · rfl
      · exact ⟨_, rfl, .noRing hopen hqueue⟩

theorem Memory.bytes_congr {mem mem' : Memory} {n : Nat} (h : ∀ i < n, mem i = mem' i) :
    mem.bytes n = mem'.bytes n := by
  rw [Memory.bytes, Memory.bytes]
  apply List.flatMap_congr
  intro i hi
  rw [h i (List.mem_range.mp hi)]

/-- `k` elements that are 1, and else 0. -/
def ones (k : Nat) : Memory := fun i => if i < k then Word.ofInt32 1 else Word.ofInt32 0

/-- The check of the programs that sum up what the device has stored. -/
theorem sum_ones {c : Nat → Int32} {n : Nat} (h : ∀ i < n, c i = 1) :
    (List.range n).foldl (fun s i => s + c i) 0 = Int32.ofNat n := by
  induction n with
  | zero => rfl
  | succ n ih =>
    rw [List.range_succ, List.foldl_append, ih fun i hi => h i (by omega), List.foldl_cons,
      List.foldl_nil, h n (by omega), Int32.ofNat_add]
    rfl

end Device

open Device EarlyExit Holding

namespace Ptr

theorem fill_eq {schedule : List Nat} (h : ParallelFor.Complete (· < n) schedule) (mem : Memory)
    {i : Nat} (hi : i < n) : fill schedule mem i = Word.ofInt32 1 :=
  ParallelFor.run_own (Function.injective_id.injOn) h hi

theorem sum_eq {mem : Memory} (h : ∀ i < n, mem i = Word.ofInt32 1) :
    sum mem = Int32.ofNat n := by
  apply sum_ones
  intro i hi
  rw [h i hi]
  decide

/-- In whatever order the device runs its iterations, the check passes, and what is then
written are ones. All is given back, however the calls are answered. Where there is no memory,
the device stores through a null pointer, and nothing has been printed or opened. -/
theorem main_passes {schedule : List Nat} (h : ParallelFor.Complete (· < n) schedule)
    (mem : Memory) (a : Answers) (w : Device.World) :
    (∃ r msgs w', main true schedule mem a w = .ok r w' ∧ Settled Device.Kind.deallocator w w' ∧
      w'.log = w.log ++ "PASS" :: msgs ∧ a.Written ((ones n).bytes n) r msgs) ∧
    main false schedule mem a w = .error .nullPointer w := by
  refine ⟨?_, rfl⟩
  obtain ⟨ptr, w₁, halloc, hptr, hholds, hlog⟩ := Device.ompAlloc_holds w
  have hfill : ∀ i < n, fill schedule mem i = Word.ofInt32 1 := fun i hi => fill_eq h mem hi
  have hbytes : (fill schedule mem).bytes n = (ones n).bytes n := by
    apply Memory.bytes_congr
    intro i hi
    rw [hfill i hi, ones, if_pos hi]
  let w₂ : Device.World := { w₁ with log := w₁.log ++ ["PASS"] }
  have hholds₂ : Holds w w₂ [ptr] := ⟨hholds.grown, hholds.nodup, hholds.out⟩
  obtain ⟨r, w', hrun, hsettled, msgs, hmsgs, hwritten⟩ :=
    writeOutput_written a ((fill schedule mem).bytes n) hholds₂ hptr
  rw [hbytes] at hwritten
  refine ⟨r, msgs, w', ?_, hsettled, ?_, hwritten⟩
  · rw [main, bind_of_ok halloc, if_pos (sum_eq hfill)]
    exact hrun
  · rw [hmsgs]
    change w₁.log ++ ["PASS"] ++ msgs = _
    rw [hlog, List.append_assoc]
    rfl

/-- The iterations in order, from the last to the first. -/
theorem main_passes_reverse :
    let a : Answers := ⟨true, 0, 256, fun _ => "", []⟩
    let schedule := (ParallelFor.inOrder (List.range n)).reverse
    let mem : Memory := fun _ => ⟨1, 2, 3, 4⟩
    (∃ r msgs w', main true schedule mem a Holding.World.start = .ok r w' ∧
      Settled Device.Kind.deallocator Holding.World.start w' ∧ w'.log = "PASS" :: msgs ∧
      a.Written ((ones n).bytes n) r msgs) ∧
    main false schedule mem a Holding.World.start = .error .nullPointer Holding.World.start :=
  main_passes ((ParallelFor.inOrder_complete (by simp)).perm (List.reverse_perm _)) _ _ _

end Ptr

namespace Atomic

theorem fill_eq {schedule : List Nat} (h : ParallelFor.Complete (· < bufferSize) schedule)
    (mem : Memory) {i : Nat} (hi : i < bufferSize) : fill schedule mem i = Word.ofInt32 0 :=
  ParallelFor.run_own (Function.injective_id.injOn) h hi

/-- As long as the positions do not come round, each write has an element of its own. -/
theorem simulate_eq {left writePos : Nat} (h : writePos + left ≤ bufferSize) (mem : Memory)
    (i : Nat) :
    simulate left writePos mem i =
      if writePos ≤ i ∧ i < writePos + left then Word.ofInt32 1 else mem i := by
  induction left generalizing writePos mem with
  | zero => rw [simulate, if_neg (by omega)]
  | succ left ih =>
    have hmod : writePos % bufferSize = writePos := Nat.mod_eq_of_lt (by omega)
    rw [simulate, ih (by omega), hmod]
    by_cases hi : i = writePos
    · subst hi
      rw [if_neg (by omega), if_pos (by omega), Function.update_self]
    · rw [Function.update_of_ne hi]
      by_cases hlt : writePos + 1 ≤ i ∧ i < writePos + 1 + left
      · rw [if_pos hlt, if_pos (by omega)]
      · rw [if_neg hlt, if_neg (by omega)]

theorem main_writes {schedule : List Nat} (h : ParallelFor.Complete (· < bufferSize) schedule)
    (mem : Memory) (a : Answers) (w : Device.World) :
    ∃ r msgs w', main true schedule mem a w = .ok r w' ∧ Settled Device.Kind.deallocator w w' ∧
      w'.log = w.log ++ msgs ∧ a.Written ((ones n).bytes bufferSize) r msgs := by
  obtain ⟨ptr, w₁, halloc, hptr, hholds, hlog⟩ := Device.ompAlloc_holds w
  have hbytes : (simulate n 0 (fill schedule mem)).bytes bufferSize =
      (ones n).bytes bufferSize := by
    apply Memory.bytes_congr
    intro i hi
    rw [simulate_eq (by decide), fill_eq h mem hi, ones]
    simp
  obtain ⟨r, w', hrun, hsettled, msgs, hmsgs, hwritten⟩ :=
    writeOutput_written a ((simulate n 0 (fill schedule mem)).bytes bufferSize) hholds hptr
  rw [hbytes] at hwritten
  refine ⟨r, msgs, w', ?_, hsettled, hlog ▸ hmsgs, hwritten⟩
  rw [main, bind_of_ok halloc]
  exact hrun

theorem main_writes_reverse :
    let a : Answers := ⟨true, 0, 4096, fun _ => "", []⟩
    ∃ r msgs w', main true (ParallelFor.inOrder (List.range bufferSize)).reverse
        (fun _ => ⟨1, 2, 3, 4⟩) a Holding.World.start = .ok r w' ∧
      Settled Device.Kind.deallocator Holding.World.start w' ∧ w'.log = msgs ∧
      a.Written ((ones n).bytes bufferSize) r msgs :=
  main_writes ((ParallelFor.inOrder_complete (by simp)).perm (List.reverse_perm _)) _ _ _

end Atomic

namespace SyncTask

/-- All iterations have run, of whichever loop the turn comes to. -/
structure Turn.Complete (t : Turn) : Prop where
  teams : ParallelFor.Complete (fun i => i.1 < numTeams ∧ i.2 < threadsPerTeam) t.teams
  elements : ParallelFor.Complete (· < bufferSize) t.elements

/-- The two turns are the same but for the orders of the iterations. -/
structure Turn.SameAnswers (t t' : Turn) : Prop where
  initialDevice : t.initialDevice = t'.initialDevice
  answers : t.answers = t'.answers

theorem index_injOn (p : Nat × Nat → Bool) : Set.InjOn index
    {i | (i.1 < numTeams ∧ i.2 < threadsPerTeam) ∧ p i} := by
  rintro ⟨team, thread⟩ ⟨⟨-, hthread⟩, -⟩ ⟨team', thread'⟩ ⟨⟨-, hthread'⟩, -⟩ he
  simp only [index, threadsPerTeam] at hthread hthread' he
  rw [Prod.mk.injEq]
  omega

/-- The elements that have an iteration are the first ones, one for each thread. -/
theorem index_lt {i : Nat × Nat} (h : i.1 < numTeams ∧ i.2 < threadsPerTeam) :
    index i < numTeams * threadsPerTeam := by
  obtain ⟨hteam, hthread⟩ := h
  simp only [index, numTeams, threadsPerTeam] at hteam hthread ⊢
  omega

theorem fill_eq {t : Turn} (h : t.Complete) (mem : Memory) :
    fill t.teams mem =
      fun i => if i < numTeams * threadsPerTeam then Word.ofInt32 1 else mem i := by
  have hcomplete := h.teams.filter fun i => index i < bufferSize
  funext k
  by_cases hk : k < numTeams * threadsPerTeam
  · have hpair : ((k / threadsPerTeam, k % threadsPerTeam) : Nat × Nat).1 < numTeams ∧
        k % threadsPerTeam < threadsPerTeam :=
      ⟨Nat.div_lt_of_lt_mul (by simpa [Nat.mul_comm] using hk), Nat.mod_lt _ (by decide)⟩
    have hindex : index (k / threadsPerTeam, k % threadsPerTeam) = k := Nat.div_add_mod' _ _
    have hlt : k < bufferSize := hk.trans (by decide)
    have hown : fill t.teams mem (index (k / threadsPerTeam, k % threadsPerTeam)) =
        Word.ofInt32 1 :=
      ParallelFor.run_own (index_injOn _) hcomplete ⟨hpair, by simp [hindex, hlt]⟩
    rw [if_pos hk, ← hown, hindex]
  · rw [if_neg hk]
    apply ParallelFor.run_frame (index_injOn _) hcomplete
    rintro i ⟨hi, -⟩ rfl
    exact hk (index_lt hi)

theorem addOne_eq {t : Turn} (h : t.Complete) (mem : Memory) :
    addOne t.elements mem =
      fun i => if i < bufferSize then Word.ofInt32 ((mem i).toInt32 + 1) else mem i := by
  funext k
  by_cases hk : k < bufferSize
  · rw [if_pos hk]
    exact ParallelFor.run_own Function.injective_id.injOn h.elements hk
  · rw [if_neg hk]
    apply ParallelFor.run_frame Function.injective_id.injOn h.elements
    rintro i hi rfl
    exact hk hi

section Spec

/-- The command of the turn `k`. The last number stays, and there is 0 if there is none. -/
def commandAt (entered : List Int32) (k : Nat) : Int32 := entered.getD k (entered.getLastD 0)

def IsWork (command : Int32) : Prop := command = 1 ∨ command = 2

/-- The turn gets as far as to add one to the elements, if its command is 2. -/
def Turn.Adds (t : Turn) : Prop :=
  t.answers.openFile = true ∧ t.answers.queueInit = 0 ∧ ¬ t.answers.res < 0

instance (t : Turn) : Decidable t.Adds := inferInstanceAs (Decidable (_ ∧ _))

/-- What a turn makes of the memory, with no order of iterations in it. -/
def Turn.leaves (t : Turn) (command : Int32) (mem : Memory) : Memory :=
  if command = 1 then
    fun i => if i < numTeams * threadsPerTeam then Word.ofInt32 1 else mem i
  else if t.Adds then
    fun i => if i < bufferSize then Word.ofInt32 ((loaded t.answers mem i).toInt32 + 1)
      else loaded t.answers mem i
  else mem

/-- How the program comes to its end in a turn of work. -/
def Turn.stop (t : Turn) (alloc : Bool) (command : Int32) (mem : Memory) : Option Holding.Stop :=
  if command = 1 ∨ t.Adds then
    if alloc = false then some .nullPointer
    else if command = 2 ∧ ∃ i < bufferSize, (loaded t.answers mem i).toInt32 = Int32.maxValue then
      some .overflow
    else none
  else none

variable (alloc : Bool) (entered : List Int32) (turn : Nat → Turn) (mem : Memory)

/-- The memory at the start of the turn `k`. -/
def sharedAt : Nat → Memory
  | 0 => mem
  | k + 1 => (turn k).leaves (commandAt entered k) (sharedAt k)

def stopAt (k : Nat) : Option Holding.Stop :=
  (turn k).stop alloc (commandAt entered k) (sharedAt entered turn mem k)

def GoesOn (k : Nat) : Prop :=
  IsWork (commandAt entered k) ∧ stopAt alloc entered turn mem k = none

end Spec

theorem descriptor_own (w : Device.World) :
    ∀ x ∈ [(w.ledger.upcoming Device.Kind.descriptor, Device.Deallocator.close)],
      x.2 = x.1.kind.deallocator := by
  simp [Device.Kind.deallocator]

theorem ring_own (w : Device.World) :
    ∀ x ∈ [(w.ledger.upcoming Device.Kind.descriptor, Device.Deallocator.close),
      ((w.ledger.acquire .descriptor).upcoming .ring, .queueExit)], x.2 = x.1.kind.deallocator := by
  simp [Device.Kind.deallocator]

theorem process_leaves (a : Answers) (s : State) (w : Device.World) :
    Leaves Device.Kind.deallocator w (fun s' _ => s'.shared = s.shared) (process a s w) := by
  have hfd := (Holds.refl w).acquired .descriptor
  have hring := (hfd.acquired .ring).perm (List.Perm.swap _ _ _)
  rw [process]
  cases hopen : a.openFile with
  | false => exact .of_ledger rfl rfl
  | true =>
    by_cases hqueue : a.queueInit = 0
    · rw [decide_eq_true hqueue]
      change Leaves _ _ _ ((releaseAll _ >>= fun _ => _) _)
      apply leaves_of_holds (ring_own w) hring
      · rfl
      · rfl
    · rw [decide_eq_false hqueue]
      change Leaves _ _ _ ((releaseAll _ >>= fun _ => _) _)
      apply leaves_of_holds (descriptor_own w) hfd
      · rfl
      · rfl

theorem deref_some (p : Held Device.Kind) (w : Device.World) : deref (some p) w = .ok () w := rfl

theorem perform_leaves {t : Turn} (h : t.Complete) (p : Held Device.Kind) (s : State)
    (w : Device.World) :
    Leaves Device.Kind.deallocator w (fun s' _ => s'.shared = t.leaves 1 s.shared)
      (perform (some p) t s w) := by
  have hshared : t.leaves 1 s.shared = fill t.teams s.shared := by
    rw [Turn.leaves, if_pos rfl, fill_eq h]
  rw [perform, bind_of_ok (deref_some p w), hshared]
  exact Leaves.bind (.of_ledger (Q := fun _ _ => True) rfl trivial)
    fun _ w' _ => process_leaves t.answers _ w'

theorem increment_some {t : Turn} (p : Held Device.Kind) (mem : Memory) (w : Device.World) :
    increment (some p) t.elements mem w =
      if ∃ i < bufferSize, (mem i).toInt32 = Int32.maxValue then .error .overflow w
      else .ok (addOne t.elements mem) w := by
  rw [increment, bind_of_ok (deref_some p w)]
  by_cases h : ∃ i < bufferSize, (mem i).toInt32 = Int32.maxValue
  · rw [if_pos h, if_pos h]
    rfl
  · rw [if_neg h, if_neg h]
    rfl

/-- Where the turn does not come to the increment, it leaves the memory as it is. -/
theorem readAndModify_idle {t : Turn} (h : ¬ t.Adds) (ptr : Option (Held Device.Kind)) (s : State)
    (w : Device.World) :
    Leaves Device.Kind.deallocator w (fun s' _ => s'.shared = s.shared)
      (readAndModify ptr t s w) := by
  have hfd := (Holds.refl w).acquired .descriptor
  have hring := (hfd.acquired .ring).perm (List.Perm.swap _ _ _)
  rw [readAndModify]
  cases hopen : t.answers.openFile with
  | false => exact .of_ledger rfl rfl
  | true =>
    by_cases hqueue : t.answers.queueInit = 0
    · have hres : t.answers.res < 0 := by
        by_contra hres
        exact h ⟨hopen, hqueue, hres⟩
      rw [decide_eq_true hqueue]
      simp only [if_pos hres]
      change Leaves _ _ _ ((releaseAll _ >>= fun _ => _) _)
      apply leaves_of_holds (ring_own w) hring
      · rfl
      · rfl
    · rw [decide_eq_false hqueue]
      change Leaves _ _ _ ((releaseAll _ >>= fun _ => _) _)
      apply leaves_of_holds (descriptor_own w) hfd
      · rfl
      · rfl

/-- The world in which the elements are incremented. -/
def opened (w : Device.World) : Device.World :=
  ⟨(w.ledger.acquire .descriptor).acquire .ring,
    w.log ++ ["Read from output_4380_0.bin completed successfully. Modifying data..."], w.out⟩

theorem readAndModify_adds {t : Turn} (h : t.Adds) (ptr : Option (Held Device.Kind)) (s : State)
    (w : Device.World) :
    readAndModify ptr t s w =
      (increment ptr t.elements (loaded t.answers s.shared) >>= fun shared => do
        Holding.report (listing shared)
        Holding.releaseAll [(w.ledger.upcoming .descriptor, .close),
          ((w.ledger.acquire .descriptor).upcoming .ring, .queueExit)]
        pure { s with shared := shared }) (opened w) := by
  obtain ⟨hopen, hqueue, hres⟩ := h
  rw [readAndModify, hopen, decide_eq_true hqueue]
  simp only [if_neg hres]
  rfl

theorem readAndModify_leaves {t : Turn} (h : t.Complete) (p : Held Device.Kind) (s : State)
    (w : Device.World) (hstop : t.stop true 2 s.shared = none) :
    Leaves Device.Kind.deallocator w (fun s' _ => s'.shared = t.leaves 2 s.shared)
      (readAndModify (some p) t s w) := by
  rw [Turn.leaves, if_neg (by decide)]
  by_cases hadds : t.Adds
  · have hno : ¬ ∃ i < bufferSize, (loaded t.answers s.shared i).toInt32 = Int32.maxValue := by
      intro hmax
      simp [Turn.stop, hadds, hmax] at hstop
    have hfd := (Holds.refl w).acquired .descriptor
    have hring := (hfd.acquired .ring).perm (List.Perm.swap _ _ _)
    have hinc := increment_some (t := t) p (loaded t.answers s.shared) (opened w)
    rw [if_neg hno] at hinc
    rw [if_pos hadds, readAndModify_adds hadds, bind_of_ok hinc, ← addOne_eq h]
    apply leaves_of_holds (ring_own w) hring
    · rfl
    · rfl
  · rw [if_neg hadds]
    exact readAndModify_idle hadds _ s w

variable {entered : List Int32} {turn : Nat → Turn} {ptr : Option (Held Device.Kind)}

/-- The turn of a command. -/
def work (ptr : Option (Held Device.Kind)) (t : Turn) (command : Int32) (s : State) : Prog State :=
  if command = 1 then perform ptr t s else readAndModify ptr t s

theorem work_leaves {t : Turn} (h : t.Complete) {command : Int32} (hcommand : IsWork command)
    {s : State} (hstop : t.stop ptr.isSome command s.shared = none) (w : Device.World) :
    Leaves Device.Kind.deallocator w (fun s' _ => s'.shared = t.leaves command s.shared)
      (work ptr t command s w) := by
  rcases hcommand with rfl | rfl
  · cases ptr with
    | none => simp [Turn.stop] at hstop
    | some p => exact perform_leaves h p s w
  · cases ptr with
    | none =>
      have hadds : ¬ t.Adds := by
        intro hadds
        simp [Turn.stop, hadds] at hstop
      rw [Turn.leaves, if_neg (by decide), if_neg hadds]
      exact readAndModify_idle hadds none s w
    | some p => exact readAndModify_leaves h p s w hstop

theorem work_stops {t : Turn} {command : Int32} (hcommand : IsWork command) {s : State}
    {e : Holding.Stop} (hstop : t.stop ptr.isSome command s.shared = some e) (w : Device.World) :
    ∃ w', work ptr t command s w = .error e w' := by
  have hadds : command = 1 ∨ t.Adds := by
    by_contra hno
    rw [Turn.stop, if_neg hno] at hstop
    cases hstop
  rw [Turn.stop, if_pos hadds] at hstop
  rcases hcommand with rfl | rfl
  · cases ptr with
    | none =>
      cases hstop
      exact ⟨w, rfl⟩
    | some p => simp at hstop
  · have hadds : t.Adds := hadds.resolve_left (by decide)
    refine ⟨opened w, ?_⟩
    rw [work, if_neg (by decide), readAndModify_adds hadds]
    cases ptr with
    | none =>
      cases hstop
      rfl
    | some p =>
      have hinc := increment_some (t := t) p (loaded t.answers s.shared) (opened w)
      by_cases hmax : ∃ i < bufferSize, (loaded t.answers s.shared i).toInt32 = Int32.maxValue
      · rw [if_pos hmax] at hinc
        simp [hmax] at hstop
        subst hstop
        exact bind_eq_error.mpr (Or.inl hinc)
      · simp [hmax] at hstop

/-- The value of `command` before the turn `k` reads its number. -/
def commandBefore (entered : List Int32) : Nat → Int32
  | 0 => 0
  | k + 1 => commandAt entered k

theorem getD_commandBefore (entered : List Int32) (k : Nat) :
    entered.getD k (commandBefore entered k) = commandAt entered k := by
  cases k with
  | zero => cases entered <;> rfl
  | succ k =>
    rw [commandBefore, commandAt, commandAt]
    by_cases hk : k + 1 < entered.length
    · rw [List.getD_eq_getElem _ _ hk, List.getD_eq_getElem _ _ hk]
    · have hpast : ∀ d, entered.getD (k + 1) d = d := fun d =>
        List.getD_eq_default _ _ (by omega)
      rw [hpast, hpast]
      by_cases hlast : k < entered.length
      · have hlen : k = entered.length - 1 := by omega
        rw [List.getD_eq_getElem _ _ hlast, List.getLastD_eq_getLast?,
          List.getLast?_eq_getElem?, ← hlen, List.getElem?_eq_getElem hlast]
        rfl
      · rw [List.getD_eq_default _ _ (by omega)]

theorem session_work (ptr : Option (Held Device.Kind)) (turn : Nat → Turn) (left : Nat) {k : Nat}
    {command : Int32} (hwork : IsWork (entered.getD k command))
    (s : State) (w : Device.World) :
    ∃ w₁, w₁.ledger = w.ledger ∧ session ptr entered turn (left + 1) k command s w =
      (work ptr (turn k) (entered.getD k command) s >>=
        session ptr entered turn left (k + 1) (entered.getD k command)) w₁ := by
  refine ⟨{ w with log := w.log ++ [prompt] }, rfl, ?_⟩
  rw [session, work]
  by_cases hone : entered.getD k command = 1
  · simp only [if_pos hone]
    rfl
  · have htwo : entered.getD k command = 2 := hwork.resolve_left hone
    simp only [if_neg hone, if_pos htwo]
    rfl

/-- The turns before `m` go on, and the turn `m` begins with what they have left. -/
theorem session_goes (ptr : Option (Held Device.Kind)) (hcomplete : ∀ k, (turn k).Complete)
    (s : State) (w : Device.World) {m : Nat} (hgo : ∀ j < m, GoesOn ptr.isSome entered turn s.shared j) (left : Nat) :
    ∃ s' w', session ptr entered turn (m + left) 0 0 s w =
        session ptr entered turn left m (commandBefore entered m) s' w' ∧
      Settled Device.Kind.deallocator w w' ∧ s'.shared = sharedAt entered turn s.shared m := by
  induction m generalizing left with
  | zero => exact ⟨s, w, by rw [Nat.zero_add, commandBefore], .of_ledger rfl, rfl⟩
  | succ m ih =>
    obtain ⟨hwork, hstop⟩ := hgo m (Nat.lt_succ_self m)
    obtain ⟨s₁, w₁, hrun, hsettled, hshared⟩ := ih (fun j hj => hgo j (by omega)) (left + 1)
    rw [← getD_commandBefore] at hwork
    rw [stopAt, ← hshared, ← getD_commandBefore] at hstop
    obtain ⟨w₂, hledger, hturn⟩ := session_work ptr turn left hwork s₁ w₁
    obtain ⟨s₂, w₃, hdone, hsettled', hshared'⟩ := work_leaves (hcomplete m) hwork hstop w₂
    rw [getD_commandBefore] at hshared'
    refine ⟨s₂, w₃, ?_, (hsettled.trans (.of_ledger hledger)).trans hsettled', ?_⟩
    · have hassoc : m + 1 + left = m + (left + 1) := by omega
      rw [hassoc, hrun, hturn, bind_of_ok hdone, getD_commandBefore]
      rfl
    · rw [hshared', hshared]
      rfl

theorem session_exit (ptr : Option (Held Device.Kind)) (turn : Nat → Turn) (left : Nat) {k : Nat}
    {command : Int32}
    (hexit : ¬ IsWork (entered.getD k command)) (s : State) (w : Device.World) :
    ∃ w', session ptr entered turn (left + 1) k command s w = .ok s w' ∧
      w'.ledger = w.ledger := by
  obtain ⟨hone, htwo⟩ := not_or.mp hexit
  rw [session]
  simp only [if_neg hone, if_neg htwo]
  exact ⟨_, rfl, rfl⟩

theorem session_unscheduled {turn' : Nat → Turn} (hsame : ∀ k, (turn k).SameAnswers (turn' k))
    (h : ∀ k, (turn k).Complete) (h' : ∀ k, (turn' k).Complete) (left k : Nat) (command : Int32)
    (s : State) :
    session ptr entered turn left k command s = session ptr entered turn' left k command s := by
  induction left generalizing k command s with
  | zero => rfl
  | succ left ih =>
    have hfill : fill (turn k).teams = fill (turn' k).teams :=
      funext fun mem => (fill_eq (h k) mem).trans (fill_eq (h' k) mem).symm
    have hadd : addOne (turn k).elements = addOne (turn' k).elements :=
      funext fun mem => (addOne_eq (h k) mem).trans (addOne_eq (h' k) mem).symm
    have hperform : perform ptr (turn k) = perform ptr (turn' k) := by
      funext s
      rw [perform, perform, hfill, (hsame k).initialDevice, (hsame k).answers]
    have hread : readAndModify ptr (turn k) = readAndModify ptr (turn' k) := by
      funext s
      rw [readAndModify, readAndModify, (hsame k).answers]
      simp only [increment, hadd]
    rw [session, session, hperform, hread]
    simp only [ih]

theorem tryAcquire_holds (alloc : Bool) (w : Device.World) :
    ∃ ptr w', Holding.tryAcquire alloc Device.Kind.memory w = .ok ptr w' ∧ ptr.isSome = alloc ∧
      Holds w w' ptr.toList ∧ ∀ p ∈ ptr.toList, p.kind = .memory := by
  cases alloc with
  | false => exact ⟨none, w, rfl, rfl, .refl w, by simp⟩
  | true => exact ⟨_, _, rfl, rfl, (Holds.refl w).acquired .memory, by simp⟩

/-- The program reads its way through what is entered, and ends in the first turn with another
number, or whose work stops it; at the end of the input it repeats the last command. What it
leaves, and all else it does, does not depend on the orders of the iterations. -/
theorem main_unscheduled {turn turn' : Nat → Turn} (hsame : ∀ k, (turn k).SameAnswers (turn' k))
    (h : ∀ k, (turn k).Complete) (h' : ∀ k, (turn' k).Complete) (alloc : Bool)
    (entered : List Int32) (turns : Nat) (s : State) (w : Device.World) :
    main alloc entered turn' turns s w = main alloc entered turn turns s w ∧
    (∀ m < turns, (∀ j < m, GoesOn alloc entered turn s.shared j) →
      (¬ IsWork (commandAt entered m) →
        ∃ s' w', main alloc entered turn turns s w = .ok (0, s') w' ∧
          Settled Device.Kind.deallocator w w' ∧
          s'.shared = sharedAt entered turn s.shared m) ∧
      (IsWork (commandAt entered m) → ∀ e, stopAt alloc entered turn s.shared m = some e →
        ∃ w', main alloc entered turn turns s w = .error e w')) ∧
    ((∀ j < turns, GoesOn alloc entered turn s.shared j) →
      ∃ w', main alloc entered turn turns s w = .error .endless w') := by
  obtain ⟨ptr, w₁, halloc, rfl, hholds, hkind⟩ := tryAcquire_holds alloc w
  have hmain : main ptr.isSome entered turn turns s w =
      (session ptr entered turn turns 0 0 s >>= fun s => do
        Holding.releaseAll (ptr.toList.map fun p => (p, .ompFree))
        pure (0, s)) w₁ := by
    rw [main, bind_of_ok halloc]
  refine ⟨?_, ?_, ?_⟩
  · rw [hmain, main, bind_of_ok halloc, session_unscheduled hsame h h']
  · intro m hm hgo
    obtain ⟨s₁, w₂, hrun, hsettled, hshared⟩ :=
      session_goes ptr h s w₁ hgo (turns - m - 1 + 1)
    have hturns : m + (turns - m - 1 + 1) = turns := by omega
    rw [hturns] at hrun
    rw [← getD_commandBefore]
    constructor
    · intro hexit
      obtain ⟨w₃, hend, hledger⟩ := session_exit ptr turn (turns - m - 1) hexit s₁ w₂
      have hperm : ((ptr.toList.map fun p => (p, Device.Deallocator.ompFree)).map
          Prod.fst).Perm ptr.toList := by
        simp [Function.comp_def]
      have hown : ∀ x ∈ ptr.toList.map fun p => (p, Device.Deallocator.ompFree),
          x.2 = x.1.kind.deallocator := by
        intro x hx
        obtain ⟨p, hp, rfl⟩ := List.mem_map.mp hx
        simp [hkind p hp, Device.Kind.deallocator]
      obtain ⟨w', hfree, hall, -⟩ := hholds.releaseAll
        (hsettled.trans (.of_ledger hledger)) hperm hown
      refine ⟨s₁, w', ?_, hall, hshared⟩
      rw [hmain, bind_of_ok (hrun.trans hend), bind_of_ok hfree]
      rfl
    · intro hwork e hstop
      rw [stopAt, ← hshared, ← getD_commandBefore] at hstop
      obtain ⟨w₃, -, hturn⟩ := session_work ptr turn (turns - m - 1) hwork s₁ w₂
      obtain ⟨w₄, hend⟩ := work_stops hwork hstop w₃
      refine ⟨w₄, ?_⟩
      rw [hmain]
      apply bind_eq_error.mpr
      left
      rw [hrun, hturn]
      exact bind_eq_error.mpr (Or.inl hend)
  · intro hgo
    obtain ⟨s₁, w₂, hrun, -⟩ := session_goes ptr h s w₁ hgo 0
    refine ⟨w₂, ?_⟩
    rw [hmain]
    exact bind_eq_error.mpr (Or.inl hrun)

/-- The iterations in order, and from the last to the first. -/
def Turn.inOrder (a : Answers) : Turn :=
  ⟨ParallelFor.inOrder ((List.range numTeams).product (List.range threadsPerTeam)),
    ParallelFor.inOrder (List.range bufferSize), true, a⟩

def Turn.reverse (t : Turn) : Turn :=
  { t with teams := t.teams.reverse, elements := t.elements.reverse }

theorem Turn.inOrder_complete (a : Answers) : (Turn.inOrder a).Complete := by
  constructor
  · exact ParallelFor.inOrder_complete (by simp)
  · simp only [Turn.inOrder]
    exact ParallelFor.inOrder_complete fun _ => List.mem_range

theorem Turn.Complete.reverse {t : Turn} (h : t.Complete) : t.reverse.Complete :=
  ⟨h.teams.perm (List.reverse_perm _), h.elements.perm (List.reverse_perm _)⟩

/-- What is entered is 1, 2 and 7. The file begins with the elements 4 and 5. -/
theorem main_unscheduled_reverse :
    let a : Nat → Answers := fun k => ⟨true, 0, if k = 0 then 4096 else 8, fun _ => "",
      [4, 0, 0, 0, 5, 0, 0, 0]⟩
    let turn : Nat → Turn := fun k => Turn.inOrder (a k)
    let turn' : Nat → Turn := fun k => (Turn.inOrder (a k)).reverse
    let s : State := ⟨fun _ => ⟨1, 2, 3, 4⟩, none⟩
    main true [1, 2, 7] turn' 3 s Holding.World.start =
        main true [1, 2, 7] turn 3 s Holding.World.start ∧
      ∃ s' w', main true [1, 2, 7] turn 3 s Holding.World.start = .ok (0, s') w' ∧
        Settled Device.Kind.deallocator Holding.World.start w' ∧
        [0, 1, 2, 16].map s'.shared =
          [⟨5, 0, 0, 0⟩, ⟨6, 0, 0, 0⟩, ⟨2, 0, 0, 0⟩, ⟨2, 2, 3, 4⟩] := by
  intro a turn turn' s
  have hgo : ∀ j < 2, GoesOn true [1, 2, 7] turn s.shared j := by
    intro j hj
    have hcases : j = 0 ∨ j = 1 := by omega
    rcases hcases with rfl | rfl
    · exact ⟨.inl rfl, rfl⟩
    · refine ⟨.inr rfl, ?_⟩
      decide +kernel
  have hturn : ∀ k, (turn k).Complete := fun k => Turn.inOrder_complete (a k)
  have hturn' : ∀ k, (turn' k).Complete := fun k => (Turn.inOrder_complete (a k)).reverse
  have hexit : ¬ IsWork (commandAt [1, 2, 7] 2) := by
    rintro (h | h) <;> cases h
  have hsame : ∀ k, (turn k).SameAnswers (turn' k) := fun _ => ⟨rfl, rfl⟩
  obtain ⟨hequal, hends, -⟩ :=
    main_unscheduled hsame hturn hturn' true [1, 2, 7] 3 s Holding.World.start
  obtain ⟨s', w', hrun, hsettled, hshared⟩ := (hends 2 (by decide) hgo).1 hexit
  refine ⟨hequal, s', w', hrun, hsettled, ?_⟩
  rw [hshared]
  decide +kernel

end SyncTask

end IoUring
