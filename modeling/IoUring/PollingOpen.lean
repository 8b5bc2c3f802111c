import IoUring.Polling

/-! The number that `my_fopen` of polling.c returns, when files cannot be opened or
liburing has no entry for the first read. -/

namespace IoUring

namespace Polling

namespace Scarce

/-- `setup_read` when `io_uring_get_sqe` may return no entry for another reason than a full
queue. -/
def setupRead (avail : Bool) (ring : Ring) (k : Nat) (fi : FileInfo) : Ring :=
  if avail then Polling.setupRead ring k fi else ring

/-- `Polling.openFiles`, where `avail` tells for which files an entry is to be had. -/
def openFiles (avail : Nat → Bool) : List (Option Nat) → Nat → (Nat → FileInfo) → Ring →
    Option ((Nat → FileInfo) × Ring)
  | [], _, files, ring => some (files, ring)
  | none :: fds, k, files, ring => openFiles avail fds (k + 1) files ring
  | some fd :: fds, k, files, ring =>
    if k < queueDepth then
      let fi : FileInfo := ⟨fd, 0, (files k).buf⟩
      openFiles avail fds (k + 1) (setFile files k fi) (setupRead (avail k) ring k fi)
    else none

def myFopen (queueInit : Bool) (avail : Nat → Bool) (fds : List (Option Nat))
    (files : Nat → FileInfo) : Option (Int32 × (Nat → FileInfo) × Ring) :=
  let numFiles := Int32.ofNat fds.length
  if fds = [] then some (-1, files, ⟨[], [], [], []⟩)
  else if queueInit then
    (openFiles avail fds 0 files ⟨[], [], [], []⟩).map fun r => (numFiles, r.1, submit r.2)
  else some (-1, files, ⟨[], [], [], []⟩)

theorem openFiles_always (fds : List (Option Nat)) (k : Nat) (files : Nat → FileInfo)
    (ring : Ring) :
    openFiles (fun _ => true) fds k files ring = Polling.openFiles fds k files ring := by
  induction fds generalizing k files ring with
  | nil => rfl
  | cons fd fds ih =>
    cases fd with
    | none => exact ih (k + 1) files ring
    | some fd =>
      rw [openFiles, Polling.openFiles]
      simp only [setupRead, if_true, ih]

/-- With an entry for each file this is the `my_fopen` from before. -/
theorem myFopen_always (queueInit : Bool) (fds : List (Option Nat)) (files : Nat → FileInfo) :
    myFopen queueInit (fun _ => true) fds files = Polling.myFopen queueInit fds files := by
  simp only [myFopen, Polling.myFopen, openFiles_always]

/-- The first read of the file at index `x.2`, if it is queued. -/
def firstRead (avail : Nat → Bool) (x : Option Nat × Nat) : Option Sqe :=
  if avail x.2 then x.1.map fun fd => ⟨fd, 0, x.2, bufferSize, x.2⟩ else none

theorem firstRead_isSome_iff {avail : Nat → Bool} {x : Option Nat × Nat} :
    (firstRead avail x).isSome ↔ x.1.isSome ∧ avail x.2 := by
  rw [firstRead]
  by_cases ha : avail x.2
  · simp [ha]
  · simp [ha]

/-- The entries of `files` that are stored to are those of the files that open. -/
def Fits (fds : List (Option Nat)) (k : Nat) : Prop :=
  ∀ x ∈ fds.zipIdx k, x.1.isSome → x.2 < queueDepth

theorem fits_cons {fd : Option Nat} {fds : List (Option Nat)} {k : Nat} :
    Fits (fd :: fds) k ↔ (fd.isSome → k < queueDepth) ∧ Fits fds (k + 1) := by
  rw [Fits, List.zipIdx_cons, List.forall_mem_cons]
  rfl

theorem openFiles_isSome_iff {avail : Nat → Bool} {fds : List (Option Nat)} {k : Nat}
    {files : Nat → FileInfo} {ring : Ring} :
    (openFiles avail fds k files ring).isSome ↔ Fits fds k := by
  induction fds generalizing k files ring with
  | nil => simp [openFiles, Fits]
  | cons fd fds ih =>
    rw [fits_cons]
    cases fd with
    | none => simp [openFiles, ih]
    | some fd =>
      rw [openFiles]
      by_cases hk : k < queueDepth
      · simp [hk, ih]
      · simp [hk]

theorem setupRead_eq {avail : Nat → Bool} {ring : Ring} {k fd : Nat} {buf : Page}
    (hk : k < queueDepth) (hroom : ring.reserved.length + ring.published.length ≤ k) :
    setupRead (avail k) ring k ⟨fd, 0, buf⟩ =
      { ring with reserved := ring.reserved ++ (firstRead avail (some fd, k)).toList } := by
  rw [setupRead, firstRead]
  by_cases ha : avail k
  · rw [if_pos ha, if_pos ha, Polling.setupRead, if_pos (by omega)]
    rfl
  · simp [ha]

theorem openFiles_ring {avail : Nat → Bool} {fds : List (Option Nat)} {k : Nat}
    {files : Nat → FileInfo} {ring : Ring} {r : (Nat → FileInfo) × Ring}
    (hroom : ring.reserved.length + ring.published.length ≤ k)
    (h : openFiles avail fds k files ring = some r) :
    r.2 = { ring with reserved :=
      ring.reserved ++ (fds.zipIdx k).filterMap (firstRead avail) } := by
  simp only [List.filterMap_eq_flatMap_toList]
  induction fds generalizing k files ring with
  | nil =>
    obtain rfl : (files, ring) = r := Option.some_inj.mp h
    simp
  | cons fd fds ih =>
    rw [List.zipIdx_cons, List.flatMap_cons]
    cases fd with
    | none =>
      have hnone : (firstRead avail (none, k)).toList = [] := by simp [firstRead]
      rw [hnone]
      exact ih (by omega) h
    | some fd =>
      rw [openFiles] at h
      obtain ⟨hk, hrest⟩ := Option.ite_none_right_eq_some.mp h
      change openFiles avail fds (k + 1) _ (setupRead (avail k) ring k ⟨fd, 0, (files k).buf⟩) =
        some r at hrest
      rw [setupRead_eq hk hroom] at hrest
      have hone : (firstRead avail (some fd, k)).toList.length ≤ 1 := by
        cases firstRead avail (some fd, k) <;> simp
      have hr := ih (by simp only [List.length_append]; omega) hrest
      rw [hr, List.append_assoc]

theorem published_eq {avail : Nat → Bool} {fds : List (Option Nat)} {files : Nat → FileInfo}
    {r : (Nat → FileInfo) × Ring} (h : openFiles avail fds 0 files ⟨[], [], [], []⟩ = some r) :
    (submit r.2).published = fds.zipIdx.filterMap (firstRead avail) := by
  rw [openFiles_ring (Nat.le_refl 0) h]
  rfl

/-- `my_fopen` stays in `files` and returns -1 or the number of reads that it queued. -/
def CountRight (queueInit : Bool) (avail : Nat → Bool) (fds : List (Option Nat))
    (garbage : Nat → FileInfo) : Prop :=
  ∃ n files ring, myFopen queueInit avail fds garbage = some (n, files, ring) ∧
    (n = -1 ∨ n.toInt = ring.published.length)

theorem countRight_opened_iff {queueInit : Bool} {avail : Nat → Bool} {fds : List (Option Nat)}
    {garbage : Nat → FileInfo} (hargc : fds.length + 1 < 2 ^ 31) (hnil : fds ≠ [])
    (hinit : queueInit) :
    CountRight queueInit avail fds garbage ↔
      fds.length ≤ queueDepth ∧ ∀ x ∈ fds.zipIdx, x.1.isSome ∧ avail x.2 := by
  have hnum : (Int32.ofNat fds.length).toInt = fds.length := Int32.toInt_ofNat_of_lt (by omega)
  have hqueued : (fds.zipIdx.filterMap (firstRead avail)).length = fds.length ↔
      ∀ x ∈ fds.zipIdx, x.1.isSome ∧ avail x.2 := by
    rw [← List.length_zipIdx (l := fds) (i := 0), List.filterMap_length_eq_length]
    simp only [firstRead_isSome_iff]
  constructor
  · rintro ⟨n, files, ring, hopen, hn⟩
    rw [myFopen, if_neg hnil, if_pos hinit, Option.map_eq_some_iff] at hopen
    obtain ⟨r, hr, heq⟩ := hopen
    have hfits := openFiles_isSome_iff.mp (Option.isSome_of_eq_some hr)
    cases heq
    have hne : Int32.ofNat fds.length ≠ -1 := by
      intro he
      have hneg : (-1 : Int32).toInt = -1 := rfl
      rw [he, hneg] at hnum
      omega
    have hcount := hn.resolve_left hne
    rw [hnum, published_eq hr, Int.natCast_inj, eq_comm, hqueued] at hcount
    refine ⟨?_, hcount⟩
    have hpos := List.length_pos_iff.mpr hnil
    have hlast : (fds[fds.length - 1], fds.length - 1) ∈ fds.zipIdx := by
      rw [List.mem_zipIdx_iff_getElem?]
      exact List.getElem?_eq_getElem _
    have := hfits _ hlast (hcount _ hlast).1
    omega
  · rintro ⟨hroom, hall⟩
    have hfits : Fits fds 0 := by
      intro x hx _
      have := List.snd_lt_of_mem_zipIdx hx
      omega
    have hsome : (openFiles avail fds 0 garbage ⟨[], [], [], []⟩).isSome :=
      openFiles_isSome_iff.mpr hfits
    obtain ⟨r, hr⟩ := Option.isSome_iff_exists.mp hsome
    refine ⟨Int32.ofNat fds.length, r.1, submit r.2, ?_, Or.inr ?_⟩
    · rw [myFopen, if_neg hnil, if_pos hinit, hr]
      rfl
    · rw [hnum, published_eq hr, hqueued.mpr hall]

/-- `argc` is an `int`. -/
theorem open_count_iff {fds : List (Option Nat)} (hargc : fds.length + 1 < 2 ^ 31)
    (queueInit : Bool) (avail : Nat → Bool) (garbage : Nat → FileInfo) :
    CountRight queueInit avail fds garbage ↔ fds = [] ∨ queueInit = false ∨
      fds.length ≤ queueDepth ∧ ∀ x ∈ fds.zipIdx, x.1.isSome ∧ avail x.2 := by
  by_cases hnil : fds = []
  · exact ⟨fun _ => Or.inl hnil, fun _ => ⟨-1, garbage, ⟨[], [], [], []⟩, if_pos hnil, Or.inl rfl⟩⟩
  · by_cases hinit : queueInit
    · rw [countRight_opened_iff hargc hnil hinit]
      simp [hnil, hinit]
    · have hreturn : myFopen queueInit avail fds garbage =
          some (-1, garbage, ⟨[], [], [], []⟩) := by
        rw [myFopen, if_neg hnil, if_neg hinit]
      have hfalse : queueInit = false := by simpa using hinit
      exact ⟨fun _ => Or.inr (Or.inl hfalse), fun _ => ⟨-1, garbage, _, hreturn, Or.inl rfl⟩⟩

theorem open_count_one_file :
    CountRight true (fun _ => true) [some 3] (fun _ => ⟨0, 0, Page.zero⟩) ↔
      [some 3] = [] ∨ true = false ∨ [some 3].length ≤ queueDepth ∧
        ∀ x ∈ [some 3].zipIdx, x.1.isSome ∧ true :=
  open_count_iff (by decide) true (fun _ => true) _

/-- Two files are counted where one could be opened, and a seventeenth file has no place. -/
theorem missing_file_counted :
    (¬ CountRight true (fun _ => true) [none, some 3] fun _ => ⟨0, 0, Page.zero⟩) ∧
      myFopen true (fun _ => true) (List.replicate 17 (some 3)) (fun _ => ⟨0, 0, Page.zero⟩) =
        none := by
  constructor
  · rintro ⟨n, files, ring, hopen, hn⟩
    cases hopen
    revert hn
    decide
  · rfl

end Scarce

end Polling

end IoUring
