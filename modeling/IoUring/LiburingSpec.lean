import IoUring.Liburing

/-! What `my_fopen` and `my_fclose` of the two programs hold, and how the `main` of
io_uring_polling.c ends. -/

namespace IoUring

namespace Liburing

open EarlyExit Holding

/-- How a resource is given back; handles are the ones that the two programs differ in. -/
def Kind.deallocator (dealloc : Deallocator) : Kind → Deallocator
  | .ring => .queueExit
  | .stream => .fclose
  | .handle => dealloc
  | .buffer => .free

def Outcomes.Opens (o : Outcomes) : Prop :=
  ¬ o.queueInit < 0 ∧ o.fopen = true ∧ ¬ o.fileno < 0 ∧ ¬ o.registerFiles < 0 ∧
    o.handleAlloc = true ∧ o.bufferAlloc = true

instance (o : Outcomes) : Decidable o.Opens := inferInstanceAs (Decidable (_ ∧ _))

/-- The ring and the stream are there when the memory for the handle is not. -/
def Outcomes.Throws (o : Outcomes) : Prop :=
  ¬ o.queueInit < 0 ∧ o.fopen = true ∧ ¬ o.fileno < 0 ∧ ¬ o.registerFiles < 0 ∧
    o.handleAlloc = false

/-- How `my_fopen` ends: with a handle, with a `NULL` and nothing held, or, where `new` is
what allocates, with an exception. -/
inductive Opening (dealloc : Deallocator) (throws : Prop) (o : Outcomes) (w : World) :
    EStateM.Result Holding.Stop World (Option Owned) → Prop where
  | null (w' : World) : ¬ o.Opens → (throws → ¬ o.Throws) →
      Settled (Kind.deallocator dealloc) w w' → w'.out = w.out →
      Opening dealloc throws o w (.ok none w')
  | opened (mf : Owned) (w' : World) : o.Opens →
      Holds w w' [mf.buffer, mf.addr, mf.stream, mf.ring] →
      mf.ring.kind = .ring ∧ mf.stream.kind = .stream ∧ mf.addr.kind = .handle ∧
        mf.buffer.kind = .buffer →
      Opening dealloc throws o w (.ok (some mf) w')
  | thrown (ring stream : Held Kind) (w' : World) : throws → o.Throws →
      Holds w w' [stream, ring] → ring.kind = .ring ∧ stream.kind = .stream →
      Opening dealloc throws o w (.error .badAlloc w')

section

variable {dealloc : Deallocator} {throws : Prop} {o : Outcomes} {w w' : World}

/-- `my_fopen` gives back what it has and returns `NULL`. -/
theorem opening_null {rs : List (Held Kind)} (h : Holds w w' rs) (hopens : ¬ o.Opens)
    (hthrows : ¬ o.Throws) {xs : List (Held Kind × Deallocator)} (hperm : (xs.map Prod.fst).Perm rs)
    (hown : ∀ x ∈ xs, x.2 = Kind.deallocator dealloc x.1.kind) :
    Opening dealloc throws o w
      ((Holding.releaseAll xs >>= fun _ => pure none : Prog (Option Owned)) w') := by
  obtain ⟨w'', hrun, hsettled, hout, -⟩ := h.releaseAll (.of_ledger rfl) hperm hown
  rw [bind_of_ok hrun]
  exact .null w'' hopens (fun _ => hthrows) hsettled (hout.trans h.out)

/-- The last part of `my_fopen`, from the allocation of the handle on. -/
theorem handle_opening {mf ring stream : Held Kind} (h : Holds w w' [mf, stream, ring])
    (hmf : mf.kind = .handle) (hstream : stream.kind = .stream) (hring : ring.kind = .ring)
    (hopens : o.Opens ↔ o.bufferAlloc = true) (hthrows : ¬ o.Throws) :
    Opening dealloc throws o w ((do
      let some buffer ← Holding.tryAcquire o.bufferAlloc .buffer | do
        Holding.report "Failed to allocate buffer"
        Holding.releaseAll [(stream, .fclose), (ring, .queueExit), (mf, dealloc)]
        pure none
      pure (some ⟨ring, stream, mf, buffer⟩) : Prog (Option Owned)) w') := by
  cases hbuffer : o.bufferAlloc with
  | false =>
    have hnot : ¬ o.Opens := by simp [hopens, hbuffer]
    obtain ⟨w'', hrun, h'⟩ := h.report "Failed to allocate buffer"
    have hperm : [stream, ring, mf].Perm [mf, stream, ring] :=
      @List.perm_append_comm _ [stream, ring] [mf]
    have hown : ∀ x ∈ [(stream, Deallocator.fclose), (ring, .queueExit), (mf, dealloc)],
        x.2 = Kind.deallocator dealloc x.1.kind := by
      simp [hmf, hstream, hring, Kind.deallocator]
    rw [bind_of_ok (Holding.tryAcquire_false _ _)]
    change Opening _ _ _ _ ((Holding.report _ >>= _) w')
    rw [bind_of_ok hrun]
    exact opening_null h' hnot hthrows hperm hown
  | true =>
    obtain ⟨buffer, w'', hrun, hkind, h'⟩ := h.tryAcquire .buffer
    rw [bind_of_ok hrun]
    exact .opened ⟨ring, stream, mf, buffer⟩ w'' (hopens.mpr hbuffer) h'
      ⟨hring, hstream, hmf, hkind⟩

/-- What an allocation of the handle does when the ring and the stream are held. -/
inductive Handle (dealloc : Deallocator) (throws : Prop) (o : Outcomes) (w : World)
    (ring stream : Held Kind) : EStateM.Result Holding.Stop World (Option (Held Kind)) → Prop where
  | null (w' : World) : ¬ throws → o.handleAlloc = false → Settled (Kind.deallocator dealloc) w w' →
      w'.out = w.out →
      Handle dealloc throws o w ring stream (.ok none w')
  | made (mf : Held Kind) (w' : World) : o.handleAlloc = true → mf.kind = .handle →
      Holds w w' [mf, stream, ring] → Handle dealloc throws o w ring stream (.ok (some mf) w')
  | thrown (w' : World) : throws → o.handleAlloc = false → Holds w w' [stream, ring] →
      Handle dealloc throws o w ring stream (.error .badAlloc w')

theorem openWith_opening {newHandle : Held Kind → Held Kind → Prog (Option (Held Kind))}
    (hnew : ∀ ring stream w', ring.kind = .ring → stream.kind = .stream →
      Holds w w' [stream, ring] →
      Handle dealloc throws o w ring stream (newHandle ring stream w')) :
    Opening dealloc throws o w (openWith o dealloc newHandle w) := by
  rw [openWith]
  by_cases hinit : o.queueInit < 0
  · rw [if_pos hinit]
    exact .null _ (fun h => h.1 hinit) (fun _ h => h.1 hinit) (.of_ledger rfl) rfl
  · rw [if_neg hinit]
    obtain ⟨ring, w₁, hring, hringk, h₁⟩ := (Holds.refl w).acquire .ring
    rw [bind_of_ok hring]
    cases hfopen : o.fopen with
    | false =>
      have hnot : ¬ o.Opens := fun h => by simp [h.2.1] at hfopen
      have hthrows : ¬ o.Throws := fun h => by simp [h.2.1] at hfopen
      obtain ⟨w₂, hrun, h₂⟩ := h₁.report "fopen"
      have hown : ∀ x ∈ [(ring, Deallocator.queueExit)],
          x.2 = Kind.deallocator dealloc x.1.kind := by
        simp [hringk, Kind.deallocator]
      rw [bind_of_ok (Holding.tryAcquire_false _ _)]
      change Opening _ _ _ _ ((Holding.report _ >>= _) w₁)
      rw [bind_of_ok hrun]
      exact opening_null h₂ hnot hthrows (List.Perm.refl _) hown
    | true =>
      obtain ⟨stream, w₂, hstream, hstreamk, h₂⟩ := h₁.tryAcquire .stream
      rw [bind_of_ok hstream]
      have hown : ∀ x ∈ [(stream, Deallocator.fclose), (ring, .queueExit)],
          x.2 = Kind.deallocator dealloc x.1.kind := by
        simp [hringk, hstreamk, Kind.deallocator]
      by_cases hfileno : o.fileno < 0
      · simp only [if_pos hfileno]
        obtain ⟨w₃, hrun, h₃⟩ := h₂.report "fileno"
        rw [bind_of_ok hrun]
        exact opening_null h₃ (fun h => h.2.2.1 hfileno) (fun h => h.2.2.1 hfileno)
          (List.Perm.refl _) hown
      · simp only [if_neg hfileno]
        by_cases hregister : o.registerFiles < 0
        · simp only [if_pos hregister]
          obtain ⟨w₃, hrun, h₃⟩ := h₂.report "io_uring_register_files"
          rw [bind_of_ok hrun]
          exact opening_null h₃ (fun h => h.2.2.2.1 hregister) (fun h => h.2.2.2.1 hregister)
            (List.Perm.refl _) hown
        · simp only [if_neg hregister]
          have hhandle := hnew ring stream w₂ hringk hstreamk h₂
          generalize hres : newHandle ring stream w₂ = res at hhandle
          cases hhandle with
          | null w₃ hnot hnone hsettled hout =>
            rw [bind_of_ok hres]
            exact .null w₃ (fun h => by simp [h.2.2.2.2.1] at hnone) (fun h => absurd h hnot)
              hsettled hout
          | made mf w₃ hsome hmf h₃ =>
            rw [bind_of_ok hres]
            refine handle_opening h₃ hmf hstreamk hringk ?_ fun h => ?_
            · simp [Outcomes.Opens, hinit, hfopen, hfileno, hregister, hsome]
            · simp [h.2.2.2.2] at hsome
          | thrown w₃ hthrows hnone h₃ =>
            have hrun : ∀ f : Option (Held Kind) → Prog (Option Owned),
                (newHandle ring stream >>= f) w₂ = .error .badAlloc w₃ :=
              fun f => bind_eq_error.mpr (Or.inl hres)
            rw [hrun]
            exact .thrown ring stream w₃ hthrows ⟨hinit, hfopen, hfileno, hregister, hnone⟩ h₃
              ⟨hringk, hstreamk⟩

theorem closeWith_settled (dealloc : Deallocator) {mf : Owned} {w₂ : World}
    (h : Holds w w' [mf.buffer, mf.addr, mf.stream, mf.ring])
    (hkind : mf.ring.kind = .ring ∧ mf.stream.kind = .stream ∧ mf.addr.kind = .handle ∧
      mf.buffer.kind = .buffer) (hsettled : Settled (Kind.deallocator dealloc) w' w₂) :
    ∃ w'', closeWith dealloc mf w₂ = .ok () w'' ∧ Settled (Kind.deallocator dealloc) w w'' ∧
      w''.out = w₂.out := by
  obtain ⟨hring, hstream, hmf, hbuffer⟩ := hkind
  have hperm : [mf.stream, mf.buffer, mf.ring, mf.addr].Perm
      [mf.buffer, mf.addr, mf.stream, mf.ring] :=
    (List.Perm.swap _ _ _).trans
      ((@List.perm_append_comm _ [mf.stream, mf.ring] [mf.addr]).cons _)
  have hown : ∀ x ∈ [(mf.stream, Deallocator.fclose), (mf.buffer, .free), (mf.ring, .queueExit),
      (mf.addr, dealloc)], x.2 = Kind.deallocator dealloc x.1.kind := by
    simp [hring, hstream, hmf, hbuffer, Kind.deallocator]
  obtain ⟨w'', hrun, hall, hout, -⟩ := h.releaseAll hsettled (by exact hperm) hown
  exact ⟨w'', hrun, hall, hout⟩

end

end Liburing

open EarlyExit Holding SingleVec

namespace Mixed

theorem myFopen_opening (o : Liburing.Outcomes) (w : Liburing.World) :
    Liburing.Opening .free False o w (myFopen o w) := by
  apply Liburing.openWith_opening
  intro ring stream w' hring hstream h
  cases halloc : o.handleAlloc with
  | false =>
    rw [bind_of_ok (Holding.tryAcquire_false _ _)]
    have hown : ∀ x ∈ [(stream, Liburing.Deallocator.fclose), (ring, .queueExit)],
        x.2 = Liburing.Kind.deallocator .free x.1.kind := by
      simp [hring, hstream, Liburing.Kind.deallocator]
    obtain ⟨w'', hrun, hsettled, hout, -⟩ := h.releaseAll (.of_ledger rfl) (List.Perm.refl _) hown
    change Liburing.Handle _ _ _ _ _ _ ((Holding.releaseAll _ >>= _) w')
    rw [bind_of_ok hrun]
    exact .null w'' not_false halloc hsettled (hout.trans h.out)
  | true =>
    obtain ⟨mf, w'', hrun, hkind, h'⟩ := h.tryAcquire .handle
    rw [bind_of_ok hrun]
    exact .made mf w'' halloc hkind h'

section

variable {answers : Nat → Answers} {mf : MyFile} {buffer : Nat → UInt8} {left i : Nat}

end

end Mixed

namespace Poll

theorem myFopen_opening (o : Liburing.Outcomes) (w : Liburing.World) :
    Liburing.Opening .delete True o w (myFopen o w) := by
  apply Liburing.openWith_opening
  intro ring stream w' hring hstream h
  cases halloc : o.handleAlloc with
  | false => exact .thrown w' trivial halloc h
  | true =>
    obtain ⟨mf, w'', hrun, hkind, h'⟩ := h.tryAcquire .handle
    rw [bind_of_ok hrun]
    exact .made mf w'' halloc hkind h'

/-- `my_fopen` returns a handle if every call succeeds, lets the ring and the stream go with
an exception if it is the memory for the handle that fails, and else returns a null pointer
with all given back. A handle is closed with all given back, whatever came and went in
between. -/
theorem open_close_settled (o : Liburing.Outcomes) (w : Liburing.World) :
    (o.Opens ∧ ∃ mf w', myFopen o w = .ok (some mf) w' ∧
      Holds w w' [mf.buffer, mf.addr, mf.stream, mf.ring] ∧
      ∀ w₂, Settled (Liburing.Kind.deallocator .delete) w' w₂ →
        ∃ w'', myFclose (some mf) w₂ = .ok () w'' ∧
          Settled (Liburing.Kind.deallocator .delete) w w'') ∨
    (o.Throws ∧ ∃ ring stream w', myFopen o w = .error .badAlloc w' ∧
      ring.kind = .ring ∧ stream.kind = .stream ∧ Holds w w' [stream, ring]) ∨
    (¬ o.Opens ∧ ¬ o.Throws ∧ ∃ w', myFopen o w = .ok none w' ∧
      Settled (Liburing.Kind.deallocator .delete) w w') := by
  have hopening := myFopen_opening o w
  generalize myFopen o w = res at hopening
  cases hopening with
  | opened mf w' hopens hholds hkind =>
    refine Or.inl ⟨hopens, mf, w', rfl, hholds, ?_⟩
    intro w₂ hbetween
    obtain ⟨w'', hclosed, hsettled, -⟩ := Liburing.closeWith_settled .delete hholds hkind hbetween
    exact ⟨w'', hclosed, hsettled⟩
  | thrown ring stream w' _ hthrows hholds hkind =>
    exact Or.inr (Or.inl ⟨hthrows, ring, stream, w', rfl, hkind.1, hkind.2, hholds⟩)
  | null w' hnot hthrows hsettled _ =>
    exact Or.inr (Or.inr ⟨hnot, hthrows trivial, w', rfl, hsettled⟩)

end Poll

end IoUring
