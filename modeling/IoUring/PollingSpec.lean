import IoUring.PollingCount

/-! Each file of polling.c has at most one read on its way, so whatever order the
completions come in, what is written for a file is the start of it up to its
offset. -/

namespace IoUring

namespace Polling

theorem setFile_same (files : Nat → FileInfo) (k : Nat) (fi : FileInfo) :
    setFile files k fi k = fi := if_pos rfl

theorem setFile_ne (files : Nat → FileInfo) {k i : Nat} (fi : FileInfo) (h : i ≠ k) :
    setFile files k fi i = files i := if_neg h

def State.writtenFor (s : State) (k : Nat) : List UInt8 :=
  (s.out.filter (·.1 = k)).flatMap (·.2)

/-- What a completion says of the buffer and the offset of its file. -/
structure Loaded (content : List UInt8) (fi : FileInfo) (res : Int32) : Prop where
  bytes : 0 < res →
    fi.buf.bytes.take res.toInt.toNat = (content.drop fi.offset.toInt.toNat).take res.toInt.toNat ∧
      fi.offset.toInt.toNat + res.toInt.toNat ≤ content.length
  atEnd : res = 0 → content.length ≤ fi.offset.toInt.toNat

structure Inv (contents : Nat → List UInt8) (fds : Nat → Nat) (ids : List Nat) (s : State) :
    Prop where
  counted : Counted ids s
  fd : ∀ k, (s.files k).fd = fds k
  asked : ∀ sqe ∈ s.requests, sqe = readSqe sqe.userData (s.files sqe.userData)
  loaded : ∀ c ∈ s.unhandled, Loaded (contents (fds c.userData)) (s.files c.userData) c.res
  ended : ∀ c ∈ s.handled, c.res = 0 →
    (contents (fds c.userData)).length ≤ (s.files c.userData).offset.toInt.toNat
  within : ∀ k ∈ ids, 0 ≤ (s.files k).offset.toInt ∧
    (s.files k).offset.toInt.toNat ≤ (contents (fds k)).length
  written : ∀ k ∈ ids,
    s.writtenFor k = (contents (fds k)).take (s.files k).offset.toInt.toNat

theorem Inv.frame {contents : Nat → List UInt8} {fds : Nat → Nat} {ids : List Nat} {s t : State}
    (h : Inv contents fds ids s) (hcounted : Counted ids t) (hfiles : t.files = s.files)
    (hout : t.out = s.out) (hhandled : t.handled = s.handled)
    (hrequests : t.requests ⊆ s.requests) (hunhandled : t.unhandled = s.unhandled) :
    Inv contents fds ids t where
  counted := hcounted
  fd := by rw [hfiles]; exact h.fd
  asked := by
    intro sqe hsqe
    rw [hfiles]
    exact h.asked sqe (hrequests hsqe)
  loaded := by rw [hunhandled, hfiles]; exact h.loaded
  ended := by rw [hhandled, hfiles]; exact h.ended
  within := by rw [hfiles]; exact h.within
  written := by
    rw [hfiles]
    simp only [State.writtenFor, hout]
    exact h.written

theorem not_mem_of_nodup {x : Nat} {as bs cs : List Nat} (h : (as ++ x :: bs ++ cs).Nodup) :
    x ∉ as ∧ x ∉ bs ∧ x ∉ cs := by
  rw [List.append_assoc, List.cons_append] at h
  obtain ⟨has, hbs⟩ := List.nodup_middle.mp h |> List.nodup_cons.mp
  simp only [List.mem_append, not_or] at has
  exact ⟨has.1, has.2.1, has.2.2⟩

/-- The completion that `io_uring_peek_cqe` returns is the only trace of its file. -/
structure Head (contents : Nat → List UInt8) (fds : Nat → Nat) (ids : List Nat) (s : State)
    (c : Cqe) (rest : List Cqe) : Prop where
  unhandled : s.unhandled = c :: rest
  mem : c.userData ∈ ids
  not_requested : ∀ sqe ∈ s.requests, sqe.userData ≠ c.userData
  not_rest : ∀ x ∈ rest, x.userData ≠ c.userData
  not_handled : ∀ x ∈ s.handled, x.userData ≠ c.userData
  loaded : Loaded (contents (fds c.userData)) (s.files c.userData) c.res

theorem Inv.head {contents : Nat → List UInt8} {fds : Nat → Nat} {ids : List Nat} {s : State}
    (h : Inv contents fds ids s) (hpc : s.pc = .peeked) {c : Cqe} {rest : List Cqe}
    (hcq : s.ring.cq = c :: rest) : Head contents fds ids s c rest := by
  have hun : s.unhandled = c :: rest := by rw [State.unhandled, hpc]; exact hcq
  have htokens := h.counted.tokens
  have hdistinct := h.counted.distinct
  rw [hun, List.map_cons] at htokens hdistinct
  obtain ⟨hreq, hrest, hhandled⟩ := not_mem_of_nodup hdistinct
  refine ⟨hun, ?_, ?_, ?_, ?_, h.loaded c (by rw [hun]; exact List.mem_cons_self)⟩
  · refine htokens.subset ?_
    simp
  · intro sqe hsqe he
    exact hreq (List.mem_map.mpr ⟨sqe, hsqe, he⟩)
  · intro x hx he
    exact hrest (List.mem_map.mpr ⟨x, hx, he⟩)
  · intro x hx he
    exact hhandled (List.mem_map.mpr ⟨x, hx, he⟩)

theorem Inv.countOut {contents : Nat → List UInt8} {fds : Nat → Nat} {ids : List Nat} {s : State}
    (h : Inv contents fds ids s) (hpc : s.pc = .peeked) {c : Cqe} {rest : List Cqe}
    (hcq : s.ring.cq = c :: rest) {errors : List Int32} {numFiles : Int32}
    (hcounted : Counted ids { s with
      pc := .seeing, numFiles := numFiles, errors := errors, handled := s.handled ++ [c] }) :
    Inv contents fds ids { s with
      pc := .seeing, numFiles := numFiles, errors := errors, handled := s.handled ++ [c] } where
  counted := hcounted
  fd := h.fd
  asked := h.asked
  loaded := by
    intro x hx
    change x ∈ s.ring.cq.tail at hx
    rw [hcq] at hx
    exact h.loaded x (by rw [(h.head hpc hcq).unhandled]; exact List.mem_cons_of_mem _ hx)
  ended := by
    intro x hx hzero
    rcases List.mem_append.mp hx with hx | hx
    · exact h.ended x hx hzero
    · obtain rfl := List.mem_singleton.mp hx
      exact (h.head hpc hcq).loaded.atEnd hzero
  within := h.within
  written := h.written

/-- A completion with data: its bytes are the next ones of the file. -/
theorem Inv.wrote {contents : Nat → List UInt8} {fds : Nat → Nat} {ids : List Nat} {s : State}
    (hsize : ∀ fd, (contents fd).length < 2 ^ 63) (h : Inv contents fds ids s)
    (hpc : s.pc = .peeked) {c : Cqe} {rest : List Cqe} (hcq : s.ring.cq = c :: rest)
    (hres : 0 < c.res) {t : State} (ht : t = { s with
      pc := .rearming c.userData
      out := s.out ++ [(c.userData, (s.files c.userData).buf.bytes.take c.res.toInt.toNat)]
      files := setFile s.files c.userData
        { s.files c.userData with offset := (s.files c.userData).offset + c.res.toInt64 }
      handled := s.handled ++ [c] }) (hcounted : Counted ids t) : Inv contents fds ids t := by
  have hc := h.head hpc hcq
  obtain ⟨hbytes, hend⟩ := hc.loaded.bytes hres
  have hpos : 0 < c.res.toInt := Int32.lt_iff_toInt_lt.mp hres
  have hmax := hsize (fds c.userData)
  have hoff := (h.within _ hc.mem).1
  have hnext : ((s.files c.userData).offset + c.res.toInt64).toInt =
      (s.files c.userData).offset.toInt + c.res.toInt := by
    rw [Int64.toInt_add, Int32.toInt_toInt64, Int.bmod_eq_of_le] <;> omega
  have hnat : ((s.files c.userData).offset + c.res.toInt64).toInt.toNat =
      (s.files c.userData).offset.toInt.toNat + c.res.toInt.toNat := by
    omega
  have hother : ∀ k, k ≠ c.userData → setFile s.files c.userData
      { s.files c.userData with offset := (s.files c.userData).offset + c.res.toInt64 } k =
        s.files k := fun k hk => setFile_ne _ _ hk
  subst ht
  refine ⟨hcounted, ?_, ?_, ?_, ?_, ?_, ?_⟩
  · intro k
    by_cases hk : k = c.userData
    · simp only [hk, setFile_same]
      exact h.fd _
    · simp only [hother k hk]
      exact h.fd k
  · intro sqe hsqe
    simp only [hother _ (hc.not_requested sqe hsqe)]
    exact h.asked sqe hsqe
  · intro x hx
    change x ∈ s.ring.cq.tail at hx
    rw [hcq] at hx
    simp only [hother _ (hc.not_rest x hx)]
    exact h.loaded x (by rw [hc.unhandled]; exact List.mem_cons_of_mem _ hx)
  · intro x hx hzero
    rcases List.mem_append.mp hx with hx | hx
    · simp only [hother _ (hc.not_handled x hx)]
      exact h.ended x hx hzero
    · obtain rfl := List.mem_singleton.mp hx
      rw [hzero] at hres
      exact absurd hres (by decide)
  · intro k hk
    by_cases he : k = c.userData
    · simp only [he, setFile_same]
      omega
    · simp only [hother k he]
      exact h.within k hk
  · intro k hk
    have hw := h.written k hk
    by_cases he : k = c.userData
    · subst he
      simp only [setFile_same, hnat]
      rw [List.take_add, ← hbytes, ← hw]
      simp [State.writtenFor]
    · simp only [hother k he]
      rw [← hw]
      have hne : ¬ c.userData = k := fun h => he h.symm
      simp [State.writtenFor, hne]

theorem Loaded.of_answer {content : List UInt8} {fi : FileInfo} {sqe : Sqe} {res : Int32}
    (h : Answers content sqe res) (hoff : sqe.off = fi.offset) (hlen : sqe.len.toNat = 4096) :
    Loaded content { fi with
      buf := fi.buf.fill ((content.drop fi.offset.toInt.toNat).take res.toInt.toNat) } res := by
  rw [Answers, hoff, hlen] at h
  constructor
  · intro hpos
    have hres : 0 < res.toInt := Int32.lt_iff_toInt_lt.mp hpos
    rcases h with hneg | ⟨hzero, -⟩ | ⟨-, hle, hend⟩
    · have : res.toInt < 0 := Int32.lt_iff_toInt_lt.mp hneg
      omega
    · rw [hzero] at hpos
      exact absurd hpos (by decide)
    · have hdata : ((content.drop fi.offset.toInt.toNat).take res.toInt.toNat).length =
          res.toInt.toNat := by
        rw [List.length_take, List.length_drop]
        omega
      refine ⟨?_, hend⟩
      have hfill := Page.fill_take fi.buf (le_of_eq_of_le hdata (by omega))
      rwa [hdata] at hfill
  · intro hzero
    rcases h with hneg | ⟨-, hend⟩ | ⟨hpos, -⟩
    · rw [hzero] at hneg
      exact absurd hneg (by decide)
    · exact hend
    · rw [hzero] at hpos
      exact absurd hpos (by decide)

/-- The kernel completes a request: the buffer that it fills belongs to no other
completion. -/
theorem Inv.complete {contents : Nat → List UInt8} {fds : Nat → Nat} {ids : List Nat} {s : State}
    (h : Inv contents fds ids s) {k : Nat} {res : Int32} {sqe : Sqe}
    (hk : s.ring.inFlight[k]? = some sqe) (hanswer : Answers (contents sqe.fd) sqe res)
    {t : State} (ht : t = { s with
      files := setFile s.files sqe.addr { s.files sqe.addr with
        buf := (s.files sqe.addr).buf.fill
          (((contents sqe.fd).drop sqe.off.toInt.toNat).take res.toInt.toNat) }
      ring := { s.ring with
        inFlight := s.ring.inFlight.eraseIdx k
        cq := s.ring.cq ++ [⟨sqe.userData, res⟩] } }) (hcounted : Counted ids t) :
    Inv contents fds ids t := by
  have hmem : sqe ∈ s.requests := List.mem_append_right _ (List.mem_of_getElem? hk)
  have hsqe := h.asked sqe hmem
  have haddr : sqe.addr = sqe.userData := congrArg Sqe.addr hsqe
  have hfd : sqe.fd = fds sqe.userData := (congrArg Sqe.fd hsqe).trans (h.fd _)
  have hoff : sqe.off = (s.files sqe.userData).offset := congrArg Sqe.off hsqe
  have hlen : sqe.len.toNat = 4096 := congrArg (fun x : Sqe => x.len.toNat) hsqe
  rw [hfd] at hanswer
  have hnew := Loaded.of_answer hanswer hoff hlen
  have hfiles : t.files = setFile s.files sqe.userData { s.files sqe.userData with
      buf := (s.files sqe.userData).buf.fill
        (((contents (fds sqe.userData)).drop (s.files sqe.userData).offset.toInt.toNat).take
          res.toInt.toNat) } := by
    rw [ht, haddr, hfd, hoff]
  have hother : ∀ i, i ≠ sqe.userData → t.files i = s.files i := by
    intro i hi
    rw [hfiles, setFile_ne _ _ hi]
  have hsame : ∀ i, readSqe i (t.files i) = readSqe i (s.files i) := by
    intro i
    by_cases hi : i = sqe.userData
    · rw [hfiles, hi, setFile_same]
      rfl
    · rw [hother i hi]
  have hfds : ∀ i, (t.files i).fd = (s.files i).fd := fun i => congrArg Sqe.fd (hsame i)
  have hoffs : ∀ i, (t.files i).offset = (s.files i).offset := fun i => congrArg Sqe.off (hsame i)
  have hun : t.unhandled = s.unhandled ++ [⟨sqe.userData, res⟩] :=
    State.unhandled_post h.counted.here (by rw [ht]; exact ⟨rfl, rfl⟩)
  have hfresh : ∀ c ∈ s.unhandled, c.userData ≠ sqe.userData := by
    intro c hc he
    have hdisjoint := List.disjoint_of_nodup_append h.counted.distinct.of_append_left
    exact hdisjoint (List.mem_map_of_mem hmem) (he ▸ List.mem_map_of_mem hc)
  have hrequests : t.requests ⊆ s.requests := by
    rw [ht]
    exact fun x hx => (requests_eraseIdx hk).subset (List.mem_cons_of_mem _ hx)
  have hhandled : t.handled = s.handled := by rw [ht]
  have hwritten : ∀ i, t.writtenFor i = s.writtenFor i := by
    intro i
    rw [ht]
    rfl
  refine ⟨hcounted, ?_, ?_, ?_, ?_, ?_, ?_⟩
  · intro i
    rw [hfds]
    exact h.fd i
  · intro x hx
    rw [hsame]
    exact h.asked x (hrequests hx)
  · rw [hun]
    intro c hc
    rcases List.mem_append.mp hc with hc | hc
    · rw [hother _ (hfresh c hc)]
      exact h.loaded c hc
    · obtain rfl := List.mem_singleton.mp hc
      rw [hfiles, setFile_same]
      exact hnew
  · intro x hx hzero
    rw [hoffs]
    exact h.ended x (hhandled ▸ hx) hzero
  · intro i hi
    rw [hoffs]
    exact h.within i hi
  · intro i hi
    rw [hoffs, hwritten]
    exact h.written i hi

theorem step_inv {contents : Nat → List UInt8} {fds : Nat → Nat} {ids : List Nat} {s t : State}
    {a : Action} (hsize : ∀ fd, (contents fd).length < 2 ^ 63) (h : step contents s a = some t)
    (hs : Inv contents fds ids s) : Inv contents fds ids t := by
  have hcounted := step_counted h hs.counted
  cases a with
  | poll =>
    obtain ⟨hpc, h⟩ := Option.ite_none_right_eq_some.mp h
    have hun : s.unhandled = s.ring.cq := by rw [State.unhandled, hpc]
    split at h
    · split at h
      · cases h
        exact hs
      · cases h
        exact hs.frame hcounted rfl rfl rfl (List.Subset.refl _) hun.symm
    · cases h
      exact hs.frame hcounted rfl rfl rfl (List.Subset.refl _) hun.symm
  | handle =>
    obtain ⟨hpc, h⟩ := Option.ite_none_right_eq_some.mp h
    split at h
    · cases h
    · next c rest hcq =>
      split at h
      · cases h
        exact hs.countOut hpc hcq hcounted
      · split at h
        · next hpos =>
          cases h
          exact hs.wrote hsize hpc hcq hpos rfl hcounted
        · cases h
          exact hs.countOut hpc hcq hcounted
  | rearm =>
    simp only [step] at h
    split at h
    · next k hpc =>
      cases h
      obtain ⟨reserved, hring⟩ := setupRead_eq s.ring k (s.files k)
      rw [hring] at hcounted ⊢
      have hun : s.unhandled = s.ring.cq.tail := by rw [State.unhandled, hpc]
      exact hs.frame hcounted rfl rfl rfl (List.Subset.refl _) hun.symm
    · cases h
  | seen =>
    obtain ⟨hpc, ⟨⟩⟩ := Option.ite_none_right_eq_some.mp h
    have hun : s.unhandled = s.ring.cq.tail := by rw [State.unhandled, hpc]
    exact hs.frame hcounted rfl rfl rfl (List.Subset.refl _) hun.symm
  | take =>
    simp only [step] at h
    split at h
    · cases h
    · next sqe rest hpub =>
      cases h
      refine hs.frame hcounted rfl rfl rfl ?_ rfl
      simp [State.requests, hpub]
  | complete k res =>
    simp only [step] at h
    split at h
    · cases h
    · next sqe hk =>
      split at h
      · next hanswer =>
        cases h
        exact hs.complete hk hanswer rfl hcounted
      · cases h

/-- What the loop of `my_fopen` has done for the files in `fds`. -/
structure Opened (fds : List Nat) (files : Nat → FileInfo) (ring : Ring) : Prop where
  numbered : ring.reserved.map (·.userData) = List.range fds.length
  asked : ∀ sqe ∈ ring.reserved, sqe = readSqe sqe.userData (files sqe.userData)
  files : ∀ i fd, fds[i]? = some fd → (files i).fd = fd ∧ (files i).offset = 0
  published : ring.published = []
  inFlight : ring.inFlight = []
  cq : ring.cq = []

theorem Opened.snoc {fds : List Nat} {files : Nat → FileInfo} {ring : Ring}
    (h : Opened fds files ring) (hroom : fds.length < queueDepth) (fd : Nat) (buf : Page) :
    Opened (fds ++ [fd]) (setFile files fds.length ⟨fd, 0, buf⟩)
      (setupRead ring fds.length ⟨fd, 0, buf⟩) := by
  have hlen := congrArg List.length h.numbered
  rw [List.length_map, List.length_range] at hlen
  have hfree : ring.reserved.length + ring.published.length < queueDepth := by
    rw [hlen, h.published]
    exact hroom
  rw [setupRead, if_pos hfree]
  refine ⟨?_, ?_, ?_, h.published, h.inFlight, h.cq⟩
  · rw [List.map_append, h.numbered, List.length_append, List.length_singleton, List.range_succ]
    rfl
  · intro sqe hsqe
    rcases List.mem_append.mp hsqe with hsqe | hsqe
    · have hlt : sqe.userData < fds.length := by
        have hmem := List.mem_map_of_mem (f := Sqe.userData) hsqe
        rwa [h.numbered, List.mem_range] at hmem
      rw [setFile_ne _ _ (Nat.ne_of_lt hlt)]
      exact h.asked sqe hsqe
    · obtain rfl := List.mem_singleton.mp hsqe
      exact (congrArg (readSqe fds.length) (setFile_same files fds.length _)).symm
  · intro i x hx
    by_cases hi : i = fds.length
    · subst hi
      rw [setFile_same]
      rw [List.getElem?_append_right (Nat.le_refl _), Nat.sub_self] at hx
      cases hx
      exact ⟨rfl, rfl⟩
    · have hlt : i < fds.length := by
        have := (List.getElem?_eq_some_iff.mp hx).1
        rw [List.length_append, List.length_singleton] at this
        omega
      rw [List.getElem?_append_left hlt] at hx
      rw [setFile_ne _ _ hi]
      exact h.files i x hx

theorem openFiles_opened {pre fds : List Nat} {files : Nat → FileInfo} {ring : Ring}
    (h : Opened pre files ring) (hroom : (pre ++ fds).length ≤ queueDepth) :
    ∃ r, openFiles (fds.map some) pre.length files ring = some r ∧
      Opened (pre ++ fds) r.1 r.2 := by
  induction fds generalizing pre files ring with
  | nil => exact ⟨(files, ring), rfl, by rwa [List.append_nil]⟩
  | cons fd fds ih =>
    rw [List.length_append, List.length_cons] at hroom
    have hlt : pre.length < queueDepth := by omega
    have hnext := h.snoc hlt fd (files pre.length).buf
    have hrest : (pre ++ [fd] ++ fds).length ≤ queueDepth := by
      simp only [List.length_append, List.length_singleton]
      omega
    obtain ⟨r, hr, hopened⟩ := ih hnext hrest
    rw [List.length_append, List.length_singleton] at hr
    refine ⟨r, ?_, ?_⟩
    · rw [List.map_cons, openFiles, if_pos hlt]
      exact hr
    · rwa [List.append_assoc] at hopened

theorem myFopen_opened {fds : List Nat} {garbage files : Nat → FileInfo} {n : Int32} {ring : Ring}
    (hroom : fds.length ≤ queueDepth) (hne : fds ≠ [])
    (h : myFopen true (fds.map some) garbage = some (n, files, ring)) :
    n = Int32.ofNat fds.length ∧ ∃ before, Opened fds files before ∧ ring = submit before := by
  have hempty : Opened [] garbage ⟨[], [], [], []⟩ :=
    ⟨rfl, by simp, by simp, rfl, rfl, rfl⟩
  obtain ⟨r, hr, hopened⟩ := openFiles_opened hempty hroom
  have hne' : ¬ fds.map some = [] := fun he => hne (List.map_eq_nil_iff.mp he)
  rw [List.length_nil] at hr
  rw [myFopen] at h
  simp only [if_neg hne', if_true, hr, Option.map_some, Option.some.injEq, Prod.mk.injEq,
    List.length_map] at h
  obtain ⟨rfl, rfl, rfl⟩ := h
  exact ⟨rfl, _, hopened, rfl⟩

theorem start_inv {contents : Nat → List UInt8} {fds : List Nat} {files : Nat → FileInfo}
    {ring : Ring} (hroom : fds.length ≤ queueDepth) (h : Opened fds files ring) :
    Inv contents (fun k => (files k).fd) (List.range fds.length)
      (start (Int32.ofNat fds.length) files (submit ring)) := by
  have hzero : ∀ k ∈ List.range fds.length, (files k).offset = 0 := by
    intro k hk
    have hlt := List.mem_range.mp hk
    exact (h.files k _ (List.getElem?_eq_getElem hlt)).2
  have hrequests : (start (Int32.ofNat fds.length) files (submit ring)).requests =
      ring.reserved := by
    simp only [State.requests, start, submit, h.published, h.inFlight, List.nil_append,
      List.append_nil]
  have hun : (start (Int32.ofNat fds.length) files (submit ring)).unhandled = [] := h.cq
  have hworking : (start (Int32.ofNat fds.length) files (submit ring)).working =
      List.range fds.length := by
    rw [State.working, hrequests, h.numbered]
    simp [start, submit, h.cq]
  have harmed : Armed (start (Int32.ofNat fds.length) files (submit ring)) := by
    have hle : fds.length ≤ 16 := hroom
    refine ⟨rfl, ?_, ?_, rfl⟩
    · rw [hworking]
      exact List.nodup_range
    · rw [State.Law, hworking, List.toFinset_card_of_nodup List.nodup_range, List.length_range]
      exact Int32.toInt_ofNat_of_lt (by omega)
  refine ⟨hworking ▸ harmed.counted, fun _ => rfl, ?_, ?_, by simp [start], ?_, ?_⟩
  · rw [hrequests]
    exact h.asked
  · rw [hun]
    simp
  · intro k hk
    dsimp only [start]
    rw [hzero k hk, Int64.toInt_zero]
    exact ⟨Int.le_refl _, Nat.zero_le _⟩
  · intro k hk
    dsimp only [start]
    rw [hzero k hk, Int64.toInt_zero]
    rfl

/-- What is written for each file is its beginning, as far as its offset, whatever
order the reads complete in and whatever they return; and where the loop ends, the
whole of it unless a read failed. -/
theorem written_in_order {contents : Nat → List UInt8}
    (hsize : ∀ fd, (contents fd).length < 2 ^ 63) {fds : List Nat}
    (hroom : fds.length ≤ queueDepth) {garbage files : Nat → FileInfo} {n : Int32} {ring : Ring}
    (hopen : myFopen true (fds.map some) garbage = some (n, files, ring)) {s : State}
    (h : Runs.Reach (step contents) Runs.Any (start n files ring) s) {i fd : Nat}
    (hi : fds[i]? = some fd) :
    s.writtenFor i = (contents fd).take (s.files i).offset.toInt.toNat ∧
      (s.pc = .done → (∀ c ∈ s.handled, c.userData = i → 0 ≤ c.res) →
        s.writtenFor i = contents fd) := by
  have hne : fds ≠ [] := fun he => by simp [he] at hi
  obtain ⟨rfl, before, hopened, rfl⟩ := myFopen_opened hroom hne hopen
  have hs := h.invariant (I := Inv contents (fun k => (files k).fd) (List.range fds.length))
    (start_inv hroom hopened) fun _ _ _ _ hstep hu => step_inv hsize hstep hu
  have hmem : i ∈ List.range fds.length := List.mem_range.mpr (List.getElem?_eq_some_iff.mp hi).1
  have hfd : (files i).fd = fd := (hopened.files i fd hi).1
  have hwritten := hs.written i hmem
  rw [hfd] at hwritten
  refine ⟨hwritten, ?_⟩
  intro hpc hok
  obtain ⟨c, hc, rfl, hres⟩ := hs.counted.ended_of_done hpc hmem
  have hzero : c.res = 0 := Int32.le_antisymm hres (hok c hc rfl)
  have hend := hs.ended c hc hzero
  rw [hfd] at hend
  rw [hwritten, List.take_of_length_le hend]

/-- The files of the descriptors 3, 4 and 5: two that hold something, and an empty one. -/
def threeFiles (fd : Nat) : List UInt8 := if fd = 3 then [65, 66] else if fd = 4 then [67] else []

theorem threeFiles_length (fd : Nat) : (threeFiles fd).length < 2 ^ 63 := by
  rw [threeFiles]
  split
  · decide
  · split <;> decide

def opened (fd : Nat) : FileInfo := ⟨fd, 0, Page.zero⟩

/-- The read of the second file completes before that of the first, which gets one byte of two.
For the empty file the loop ends. -/
theorem written_out_of_order :
    (∃ n files ring s, myFopen true ([3, 4, 5].map some) (fun _ => opened 0) =
        some (n, files, ring) ∧
      Runs.Reach (step threeFiles) Runs.Any (start n files ring) s ∧
      s.out = [(1, [67]), (0, [65])] ∧ s.writtenFor 0 = (threeFiles 3).take 1 ∧
      s.writtenFor 1 = (threeFiles 4).take 1 ∧ s.writtenFor 2 = []) ∧
    ∃ n files ring s, myFopen true ([5].map some) (fun _ => opened 0) = some (n, files, ring) ∧
      Runs.Reach (step threeFiles) Runs.Any (start n files ring) s ∧ s.pc = .done ∧
      s.writtenFor 0 = threeFiles 5 := by
  constructor
  · have hreach := Runs.reach_of_run [.take, .take, .take, .complete 1 1, .complete 1 0,
      .complete 0 1, .poll, .handle, .rearm, .seen, .poll, .handle, .seen, .poll, .handle, .rearm,
      .seen] (fun _ _ _ => trivial)
      (rfl : Runs.run (step threeFiles)
        (start 3 (setFile (setFile (setFile (fun _ => opened 0) 0 (opened 3)) 1 (opened 4)) 2
          (opened 5)) ⟨[], [readSqe 0 (opened 3), readSqe 1 (opened 4), readSqe 2 (opened 5)],
          [], []⟩) _ = some _)
    have hwritten : ∀ {i fd : Nat}, [3, 4, 5][i]? = some fd → _ := fun hi =>
      (written_in_order threeFiles_length (by decide : [3, 4, 5].length ≤ queueDepth) rfl hreach
        hi).1
    exact ⟨_, _, _, _, rfl, hreach, rfl, hwritten (i := 0) rfl, hwritten (i := 1) rfl,
      hwritten (i := 2) rfl⟩
  · have hreach := Runs.reach_of_run [.take, .complete 0 0, .poll, .handle, .seen, .poll]
      (fun _ _ _ => trivial)
      (rfl : Runs.run (step threeFiles)
        (start 1 (setFile (fun _ => opened 0) 0 (opened 5))
          ⟨[], [readSqe 0 (opened 5)], [], []⟩) _ = some _)
    have hwritten := written_in_order threeFiles_length (by decide : [5].length ≤ queueDepth) rfl
      hreach (i := 0) rfl
    exact ⟨_, _, _, _, rfl, hreach, rfl, hwritten.2 rfl (by decide)⟩

end Polling

end IoUring
