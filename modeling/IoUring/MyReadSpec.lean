import IoUring.MyRead

/-! No run of My_read.cpp gets behind its first file. Every object that its
`my_fopen` makes before it gives up is deleted, and where it does not give up it
ends in the pointer that it has moved from, before anything is submitted. -/

namespace IoUring.MyRead

open EarlyExit

/-- All calls of `app_setup_uring` succeed. -/
def ringSet (a : Answers) : Bool :=
  match a.ringSetup with
  | none => false
  | some p => a.mmapSq && (decide (p.features &&& 1 ≠ 0) || a.mmapCq) && a.mmapSqes

def fileSize (a : Answers) : Int64 := (a.fstat.bind Deferred.Stat.size).getD (-1)

/-- The ring is set up, and the file is open and has a size. -/
structure Located (a : Answers) : Prop where
  submitter : a.submitterAlloc = true
  ring : ringSet a = true
  fopen : a.fopen = true
  fileno : a.fileno = true
  size : ¬ fileSize a < 0

def Buffered (a : Answers) : Prop :=
  ∀ i, i < (blockCount (fileSize a)).toInt.toNat → (a.memalign i).isSome

/-- Every call succeeds. -/
structure Opens (a : Answers) : Prop extends Located a where
  fileInfo : a.fileInfoAlloc = true
  count : ¬ blockCount (fileSize a) < 0
  resize : a.resize = true
  buffers : Buffered a
  handle : a.myFileAlloc = true

/-- The first thing that goes wrong is an object or a vector that cannot be made. -/
def Throws (a : Answers) : Prop :=
  a.submitterAlloc = false ∨
    Located a ∧ (a.fileInfoAlloc = false ∨ blockCount (fileSize a) < 0 ∨ a.resize = false ∨
      Buffered a ∧ a.myFileAlloc = false)

/-- Since `w₀` nothing was given back but objects, and those still there are `objs`. -/
structure Since (w₀ : World) (objs : List Ptr) (w : World) : Prop where
  older : w₀.ledger.live ⊆ w.ledger.live
  objects : ∀ r, r.kind = .shared → (r ∈ w.ledger.live ↔ r ∈ w₀.ledger.live ∨ r ∈ objs)
  fresh : ∀ r ∈ objs, r.kind = .shared ∧ r ∉ w₀.ledger.live
  nodup : objs.Nodup
  quiet : w.systemTimes = w₀.systemTimes ∧ w.out = w₀.out

section Since

variable {w₀ w w' : World} {objs : List Ptr}

theorem Since.refl (w : World) : Since w [] w :=
  ⟨fun _ hr => hr, by simp, by simp, List.nodup_nil, rfl, rfl⟩

/-- The program ends, with a result in `Q`, and keeps the objects. -/
def Does {ε α : Type} (w₀ : World) (objs : List Ptr) (Q : α → Prop) (x : EStateM ε World α) :
    Prop :=
  ∀ w, Since w₀ objs w → ∃ a w', x w = .ok a w' ∧ Q a ∧ Since w₀ objs w'

theorem Does.pure {ε α : Type} {Q : α → Prop} {a : α} (h : Q a) :
    Does w₀ objs Q (Pure.pure a : EStateM ε World α) := fun w hw => ⟨a, w, rfl, h, hw⟩

theorem Does.bind {ε α β : Type} {Q : α → Prop} {R : β → Prop} {x : EStateM ε World α}
    {f : α → EStateM ε World β} (hx : Does w₀ objs Q x) (hf : ∀ a, Q a → Does w₀ objs R (f a)) :
    Does w₀ objs R (x >>= f) := by
  intro w hw
  obtain ⟨a, w₁, hxw, ha, hw₁⟩ := hx w hw
  obtain ⟨b, w₂, hfa, hb, hw₂⟩ := hf a ha w₁ hw₁
  exact ⟨b, w₂, bind_eq_ok.mpr ⟨a, w₁, hxw, hfa⟩, hb, hw₂⟩

theorem does_acquire {k : Kind} (hk : k ≠ .shared) :
    Does w₀ objs (fun _ => True) (acquire k) := by
  intro w h
  refine ⟨w.ledger.upcoming k, { w with ledger := w.ledger.acquire k }, rfl, trivial,
    fun r hr => Finset.mem_insert_of_mem (h.older hr), ?_, h.fresh, h.nodup, h.quiet⟩
  intro r hr
  have hne : r ≠ w.ledger.upcoming k := by
    rintro rfl
    exact hk hr
  rw [← h.objects r hr]
  exact Finset.mem_insert.trans (or_iff_right hne)

theorem does_report (msg : String) : Does w₀ objs (fun _ => True) (report msg) :=
  fun _ h => ⟨(), _, rfl, trivial, h.older, h.objects, h.fresh, h.nodup, h.quiet⟩

theorem does_tryAcquire {k : Kind} (hk : k ≠ .shared) (ok : Bool) :
    Does w₀ objs (fun r : Option Resource => r.isSome = ok) (tryAcquire ok k) := by
  cases ok with
  | false => exact Does.pure rfl
  | true => exact (does_acquire hk).bind fun _ _ => Does.pure rfl

theorem does_lift {α : Type} {Q : α → Prop} {x : Sys α} (h : Does w₀ objs Q x) :
    Does w₀ objs Q (lift x) := by
  intro w hw
  obtain ⟨a, w', hx, ha, hw'⟩ := h w hw
  exact ⟨a, w', by rw [lift, hx], ha, hw'⟩

theorem makeUnique_since (h : Since w₀ objs w) :
    ∃ p w', makeUnique true w = .ok p w' ∧ Since w₀ (p :: objs) w' := by
  have hnew : w.ledger.upcoming .shared ∉ w.ledger.live := fun hmem =>
    Nat.lt_irrefl _ (w.ledger.fresh _ hmem)
  refine ⟨w.ledger.upcoming .shared, { w with ledger := w.ledger.acquire .shared }, rfl,
    fun r hr => Finset.mem_insert_of_mem (h.older hr), ?_, ?_, ?_, h.quiet⟩
  · intro r hr
    rw [Ledger.acquire_live, Finset.mem_insert, h.objects r hr, List.mem_cons]
    exact or_left_comm
  · exact List.forall_mem_cons.mpr ⟨⟨rfl, fun hmem => hnew (h.older hmem)⟩, h.fresh⟩
  · refine List.nodup_cons.mpr ⟨fun hmem => ?_, h.nodup⟩
    exact hnew ((h.objects _ rfl).mpr (Or.inr hmem))

theorem delete_since {p : Ptr} (h : Since w₀ (p :: objs) w) :
    ∃ w', delete p w = .ok () w' ∧ Since w₀ objs w' := by
  obtain ⟨⟨hkind, hnew⟩, hfresh⟩ := List.forall_mem_cons.mp h.fresh
  obtain ⟨hnot, hnodup⟩ := List.nodup_cons.mp h.nodup
  have hlive : p ∈ w.ledger.live := (h.objects p hkind).mpr (Or.inr List.mem_cons_self)
  refine ⟨_, if_pos hlive, ?_, ?_, hfresh, hnodup, h.quiet⟩
  · intro r hr
    have hne : r ≠ p := by
      rintro rfl
      exact hnew hr
    exact Finset.mem_erase.mpr ⟨hne, h.older hr⟩
  · intro r hr
    rw [Ledger.release_live, Finset.mem_erase, h.objects r hr, List.mem_cons]
    constructor
    · rintro ⟨hne, hold | heq | hmem⟩
      · exact Or.inl hold
      · exact absurd heq hne
      · exact Or.inr hmem
    · rintro (hold | hmem)
      · exact ⟨fun heq => hnew (heq ▸ hold), Or.inl hold⟩
      · exact ⟨fun heq => hnot (heq ▸ hmem), Or.inr (Or.inr hmem)⟩

theorem deleteAll_since (h : Since w₀ objs w) :
    ∃ w', objs.forM delete w = .ok () w' ∧ Since w₀ [] w' := by
  induction objs generalizing w with
  | nil => exact ⟨w, rfl, h⟩
  | cons p objs ih =>
    obtain ⟨w₁, hdelete, hrest⟩ := delete_since h
    obtain ⟨w', hall, hw'⟩ := ih hrest
    exact ⟨w', bind_eq_ok.mpr ⟨(), w₁, hdelete, hall⟩, hw'⟩

theorem giveUp_since (α : Type) (h : Since w₀ objs w) :
    ∃ w', (giveUp objs : Prog α) w = .error (.sys .null) w' ∧ Since w₀ [] w' := by
  obtain ⟨w', hall, hw'⟩ := deleteAll_since h
  exact ⟨w', bind_eq_error.mpr (Or.inr ⟨(), w', hall, rfl⟩), hw'⟩

end Since

theorem does_appSetupUring {w₀ : World} {objs : List Ptr} (a : Answers) (s : Ptr) :
    Does w₀ objs (fun r : Option Submitter => r.isSome = ringSet a)
      (appSetupUring a.host (some s)) := by
  have hnone : ∀ msg, ringSet a = false →
      Does w₀ objs (fun r : Option Submitter => r.isSome = ringSet a)
        (do report msg; pure (none : Option Submitter)) := by
    intro msg hset
    exact (does_report msg).bind fun _ _ => Does.pure (by rw [hset]; rfl)
  have hderef : Does w₀ objs (fun _ => True) (deref (some s)) := Does.pure trivial
  rw [appSetupUring]
  apply hderef.bind
  intro s _
  cases hring : a.ringSetup with
  | none =>
    have hhost : a.host.ringSetup = none := hring
    simp only [hhost]
    exact hnone _ (by rw [ringSet, hring])
  | some p =>
    have hhost : a.host.ringSetup = some p := hring
    have hset : ringSet a =
        (a.mmapSq && (decide (p.features &&& 1 ≠ 0) || a.mmapCq) && a.mmapSqes) := by
      rw [ringSet, hring]
    simp only [hhost]
    apply (does_acquire (by simp)).bind
    intro ringFd _
    apply (does_tryAcquire (by simp) _).bind
    intro sq hsq
    cases sq with
    | none => exact hnone _ (by rw [hset, show a.mmapSq = false from hsq.symm]; rfl)
    | some sq =>
      have hcqMap : Does w₀ objs
          (fun r : Option Resource => r.isSome = (decide (p.features &&& 1 ≠ 0) || a.mmapCq))
          (mapCqRing a.host p sq) := by
        by_cases hsingle : p.features &&& 1 ≠ 0
        · rw [mapCqRing, if_pos hsingle]
          exact Does.pure (by simp [hsingle])
        · rw [mapCqRing, if_neg hsingle]
          simp only [decide_eq_false hsingle, Bool.false_or]
          exact does_tryAcquire (by simp) a.mmapCq
      have hsqMap : a.mmapSq = true := hsq.symm
      apply hcqMap.bind
      intro cq hcq
      cases cq with
      | none => exact hnone _ (by rw [hset, hsqMap, ← hcq]; rfl)
      | some cq =>
        apply (does_tryAcquire (by simp) _).bind
        intro sqes hsqes
        have hall : ringSet a = sqes.isSome := by
          rw [hset, hsqMap, ← hcq, show a.mmapSqes = sqes.isSome from hsqes.symm]
          rfl
        cases sqes with
        | none => exact hnone _ hall
        | some sqes => exact Does.pure hall.symm

theorem does_getFileSize {w₀ : World} {objs : List Ptr} (a : Answers) :
    Does w₀ objs (fun n => n = fileSize a) (Deferred.getFileSize a.toAnswers) := by
  have hreport : ∀ msg, fileSize a = -1 →
      Does w₀ objs (fun n => n = fileSize a) (do report msg; pure (-1)) := by
    intro msg hsize
    exact (does_report msg).bind fun _ _ => Does.pure hsize.symm
  rw [Deferred.getFileSize]
  cases hstat : a.fstat with
  | none => exact hreport _ (by simp [fileSize, hstat])
  | some stat =>
    cases stat with
    | block bytes =>
      cases bytes with
      | none => exact hreport _ (by simp [fileSize, hstat, Deferred.Stat.size])
      | some bytes => exact Does.pure (by simp [fileSize, hstat, Deferred.Stat.size])
    | regular size => exact Does.pure (by simp [fileSize, hstat, Deferred.Stat.size])
    | other => exact Does.pure (by simp [fileSize, hstat, Deferred.Stat.size])

theorem does_allocBlocks {w₀ : World} {objs : List Ptr} (a : Answers) (blocks i : Nat) (n : Int64) :
    Does w₀ objs (fun r : Option (List Iovc) =>
        r.isSome = true ↔ ∀ j, j < blocks → (a.memalign (i + j)).isSome)
      (allocBlocks a blocks i n) := by
  induction blocks generalizing i n with
  | zero => exact Does.pure (by simp)
  | succ blocks ih =>
    rw [allocBlocks]
    cases hm : a.memalign i with
    | none =>
      apply (does_lift (does_report _)).bind
      intro _ _
      apply Does.pure
      constructor
      · intro h
        cases h
      · intro h
        have hfirst := h 0 (Nat.succ_pos _)
        rw [Nat.add_zero, hm] at hfirst
        cases hfirst
    | some page =>
      apply (does_lift (does_acquire (by simp))).bind
      intro buf _
      apply (ih (i + 1) _).bind
      intro rest hrest
      refine Does.pure ?_
      rw [Option.isSome_map, hrest]
      constructor
      · intro h j hj
        cases j with
        | zero => rw [Nat.add_zero, hm]; rfl
        | succ j => simpa [Nat.add_assoc, Nat.add_comm 1] using h j (by omega)
      · intro h j hj
        simpa [Nat.add_assoc, Nat.add_comm 1] using h (j + 1) (by omega)

/-- It gives up with nothing left of its objects, or throws before it has one. -/
theorem openInput_ends (a : Answers) (w : World) :
    (Located a ∧ ∃ s sub fp w', openInput a w = .ok (s, sub, fp, fileSize a) w' ∧
      Since w [s] w') ∨
    (¬ Located a ∧ a.submitterAlloc = true ∧
      ∃ w', openInput a w = .error (.sys .null) w' ∧ Since w [] w') ∨
    (a.submitterAlloc = false ∧ openInput a w = .error .terminate w) := by
  cases hs : a.submitterAlloc with
  | false =>
    refine Or.inr (Or.inr ⟨rfl, ?_⟩)
    rw [openInput, hs]
    rfl
  | true =>
    obtain ⟨s, w₁, hmake, h₁⟩ := makeUnique_since (Since.refl w)
    obtain ⟨sub, w₂, hsetup, hset, h₂⟩ := does_lift (does_appSetupUring a s) w₁ h₁
    rw [openInput, hs, bind_of_ok hmake, bind_of_ok hsetup]
    have hgive : ∀ {w' : World} (msg : String), Since w [s] w' →
        ∃ w'', (do lift (report msg); giveUp [s] : Prog (Ptr × Submitter × Ptr × Int64)) w' =
          .error (.sys .null) w'' ∧ Since w [] w'' := by
      intro w' msg hw'
      obtain ⟨_, w₃, hreport, -, h₃⟩ := does_lift (does_report msg) w' hw'
      rw [bind_of_ok hreport]
      exact giveUp_since _ h₃
    cases sub with
    | none =>
      refine Or.inr (Or.inl ⟨fun hl => ?_, rfl, hgive _ h₂⟩)
      rw [hl.ring] at hset
      cases hset
    | some sub =>
      obtain ⟨fp, w₃, hopen, hopened, h₃⟩ :=
        does_lift (does_tryAcquire (k := .file) (by simp) a.fopen) w₂ h₂
      simp only [bind_of_ok hopen]
      cases fp with
      | none =>
        refine Or.inr (Or.inl ⟨fun hl => ?_, trivial, hgive _ h₃⟩)
        rw [hl.fopen] at hopened
        cases hopened
      | some fp =>
        by_cases hno : a.fileno = true
        · obtain ⟨n, w₄, hsize, rfl, h₄⟩ := does_lift (does_getFileSize a) w₃ h₃
          simp only [if_pos hno, bind_of_ok hsize]
          by_cases hneg : fileSize a < 0
          · rw [if_pos hneg]
            exact Or.inr (Or.inl ⟨fun hl => hl.size hneg, trivial, giveUp_since _ h₄⟩)
          · rw [if_neg hneg]
            exact Or.inl ⟨⟨hs, hset.symm, hopened.symm, hno, hneg⟩, s, sub, fp, w₄, rfl, h₄⟩
        · simp only [if_neg hno]
          exact Or.inr (Or.inl ⟨fun hl => hno hl.fileno, trivial, hgive _ h₃⟩)

/-- `my_fopen` throws, or ends in the pointer that it has moved from, or gives up
with all its objects deleted. -/
theorem myFopen_ends (a : Answers) (w : World) :
    ∃ e w', myFopen a w = .error e w' ∧ w'.systemTimes = w.systemTimes ∧ w'.out = w.out ∧
      (e = .terminate ∧ Throws a ∨ e = .sys (.fault .nullDeref) ∧ Opens a ∨
        e = .sys .null ∧ ¬ Throws a ∧ ¬ Opens a ∧ Since w [] w') := by
  rcases openInput_ends a w with ⟨hl, s, sub, fp, w₁, hopen, h₁⟩ | ⟨hnot, hs, w₁, hopen, h₁⟩ |
    ⟨hs, hopen⟩
  · rw [myFopen, bind_of_ok hopen]
    cases hfi : a.fileInfoAlloc with
    | false =>
      exact ⟨.terminate, w₁, rfl, h₁.quiet.1, h₁.quiet.2, Or.inl ⟨rfl, Or.inr ⟨hl, Or.inl hfi⟩⟩⟩
    | true =>
      obtain ⟨fi, w₂, hmake, h₂⟩ := makeUnique_since h₁
      simp only [bind_of_ok hmake]
      by_cases hvector : blockCount (fileSize a) < 0 ∨ a.resize = false
      · rw [if_pos hvector]
        refine ⟨.terminate, w₂, rfl, h₂.quiet.1, h₂.quiet.2, Or.inl ⟨rfl, Or.inr ⟨hl, Or.inr ?_⟩⟩⟩
        exact hvector.imp_right Or.inl
      · rw [if_neg hvector]
        obtain ⟨hcount, hresize⟩ := not_or.mp hvector
        obtain ⟨vs, w₃, halloc, hbuffers, h₃⟩ :=
          does_allocBlocks a (blockCount (fileSize a)).toInt.toNat 0 (fileSize a) w₂ h₂
        simp only [Nat.zero_add] at hbuffers
        simp only [bind_of_ok halloc]
        cases vs with
        | none =>
          have hfew : ¬ Buffered a := fun hb => nomatch hbuffers.mpr hb
          obtain ⟨w₄, hgive, h₄⟩ := giveUp_since MyFile h₃
          refine ⟨_, w₄, hgive, h₄.quiet.1, h₄.quiet.2, Or.inr (Or.inr ⟨rfl, ?_, ?_, h₄⟩)⟩
          · rintro (hs | ⟨-, hf | hc | hr | ⟨hb, -⟩⟩)
            · rw [hl.submitter] at hs
              cases hs
            · rw [hfi] at hf
              cases hf
            · exact hcount hc
            · exact hresize hr
            · exact hfew hb
          · exact fun ho => hfew ho.buffers
        | some vs =>
          have hall : Buffered a := hbuffers.mp rfl
          cases hmf : a.myFileAlloc with
          | false =>
            exact ⟨.terminate, w₃, rfl, h₃.quiet.1, h₃.quiet.2,
              Or.inl ⟨rfl, Or.inr ⟨hl, Or.inr (Or.inr (Or.inr ⟨hall, hmf⟩))⟩⟩⟩
          | true =>
            obtain ⟨mf, w₄, hmake, h₄⟩ := makeUnique_since h₃
            simp only [bind_of_ok hmake]
            exact ⟨_, w₄, rfl, h₄.quiet.1, h₄.quiet.2,
              Or.inr (Or.inl
                ⟨rfl, hl, hfi, hcount, Bool.eq_true_of_not_eq_false hresize, hall, hmf⟩)⟩
  · refine ⟨_, w₁, bind_eq_error.mpr (Or.inl hopen), h₁.quiet.1, h₁.quiet.2,
      Or.inr (Or.inr ⟨rfl, ?_, fun ho => hnot ho.toLocated, h₁⟩)⟩
    rintro (hthrow | ⟨hl, -⟩)
    · rw [hs] at hthrow
      cases hthrow
    · exact hnot hl
  · exact ⟨_, w, bind_eq_error.mpr (Or.inl hopen), rfl, rfl, Or.inl ⟨rfl, Or.inl hs⟩⟩

theorem Opens.not_throws {a : Answers} (h : Opens a) : ¬ Throws a := by
  rintro (hs | ⟨-, hf | hc | hr | ⟨-, hm⟩⟩)
  · exact absurd (h.submitter.symm.trans hs) (by simp)
  · exact absurd (h.fileInfo.symm.trans hf) (by simp)
  · exact h.count hc
  · exact absurd (h.resize.symm.trans hr) (by simp)
  · exact absurd (h.handle.symm.trans hm) (by simp)

/-- `cat` ends in an exception or in a null pointer: the one that `my_fopen` has
moved from, or the one that it has returned. -/
theorem cat_ends (readAll : MyFile → Prog Unit) (a : Answers) (w : World) :
    ∃ e w', cat readAll a w = .error e w' ∧ w'.systemTimes = w.systemTimes ∧ w'.out = w.out ∧
      (e = .terminate ∧ Throws a ∨ e = .sys (.fault .nullDeref) ∧ ¬ Throws a ∧
        (Opens a ∨ Since w [] w')) := by
  obtain ⟨e, w', hopen, htimes, hout, hend⟩ := myFopen_ends a w
  have hcat : ∀ {e' : Stop}, myFopen a w = .error e' w' → e' ≠ .sys .null →
      cat readAll a w = .error e' w' := by
    intro e' he hne
    refine bind_eq_error.mpr (Or.inl ?_)
    rw [orNull, he]
    cases e' with
    | sys stop => cases stop <;> simp_all
    | terminate | doubleFree => rfl
  rcases hend with ⟨rfl, hthrow⟩ | ⟨rfl, hopens⟩ | ⟨rfl, hthrow, -, hsince⟩
  · exact ⟨_, w', hcat hopen (by simp), htimes, hout, Or.inl ⟨rfl, hthrow⟩⟩
  · exact ⟨_, w', hcat hopen (by simp), htimes, hout,
      Or.inr ⟨rfl, hopens.not_throws, Or.inl hopens⟩⟩
  · have hnull : orNull (myFopen a) w = .ok none w' := by rw [orNull, hopen]
    refine ⟨.sys (.fault .nullDeref), { w' with log := w'.log ++ ["Failed to open file."] }, ?_,
      htimes, hout, Or.inr ⟨rfl, hthrow, Or.inr ?_⟩⟩
    · rw [cat, bind_of_ok hnull]
      rfl
    · exact ⟨hsince.older, hsince.objects, hsince.fresh, hsince.nodup, hsince.quiet⟩

/-- With an argument `main` dies in its first file, whatever the calls answer and
whatever it would do with a handle. Nothing has been submitted or printed. -/
theorem main_dies (readAll : MyFile → Prog Unit) (program seconds : String) (a : Answers)
    (files : List Answers) (w : World) :
    ∃ e w', main readAll program seconds (a :: files) w = .error e w' ∧ w'.systemTimes = 0 ∧
      w'.out = w.out ∧
      (e = .terminate ∧ Throws a ∨ e = .sys (.fault .nullDeref) ∧ ¬ Throws a ∧
        (Opens a ∨ Since { w with systemTimes := 0 } [] w')) := by
  obtain ⟨e, w', hcat, hrest⟩ := cat_ends readAll a { w with systemTimes := 0 }
  refine ⟨e, w', ?_, hrest⟩
  rw [main, if_neg (List.cons_ne_nil a files)]
  refine bind_eq_error.mpr (Or.inr ⟨(), { w with systemTimes := 0 }, rfl, ?_⟩)
  refine bind_eq_error.mpr (Or.inl (bind_eq_error.mpr (Or.inl hcat)))

end IoUring.MyRead
