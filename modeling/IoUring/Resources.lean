import IoUring.Chunking

/-! The resources that are left when `my_fopen` fails, and after `my_fclose`. -/

namespace IoUring

open EarlyExit

section Keeping

variable (P : Ledger Kind Deallocator → Prop)

theorem acquire_keeps (hP : ∀ l k, P l → P (l.acquire k)) (k : Kind) :
    Keeps (fun w => P w.ledger) (acquire k) :=
  fun w h => hP w.ledger k h

theorem report_keeps (msg : String) : Keeps (fun w => P w.ledger) (report msg) :=
  fun _ h => h

theorem fail_keeps {α : Type} (msg : String) :
    Keeps (fun w => P w.ledger) (fail msg : Sys α) :=
  (report_keeps P msg).bind fun _ _ => Keeps.throw _

theorem tryAcquire_keeps (hP : ∀ l k, P l → P (l.acquire k)) (ok : Bool) (k : Kind) :
    Keeps (fun w => P w.ledger) (tryAcquire ok k) :=
  Keeps.ite ((acquire_keeps P hP k).bind fun _ _ => Keeps.pure _) (Keeps.pure _)

theorem deref_keeps (p : Option Ptr) : Keeps (fun w => P w.ledger) (deref p) := by
  cases p with
  | none => exact Keeps.throw _
  | some r => exact Keeps.pure r

theorem getFileSize_keeps (o : Outcomes) : Keeps (fun w => P w.ledger) (getFileSize o) := by
  rw [getFileSize]
  cases o.fstat with
  | none => exact (report_keeps P _).bind fun _ _ => Keeps.pure _
  | some n => exact Keeps.pure n

theorem fillIovecs_keeps (hP : ∀ l k, P l → P (l.acquire k)) (o : Outcomes) (size : UInt64)
    (turns : Nat) (rem : Int64) (cur : UInt32) (acc : List Iovc) :
    Keeps (fun w => P w.ledger) (fillIovecs o size turns rem cur acc) := by
  induction turns generalizing rem cur acc with
  | zero => exact Keeps.throw _
  | succ turns ih =>
    rw [fillIovecs]
    refine Keeps.ite (Keeps.pure _) ?_
    refine Keeps.ite (Keeps.throw _) ?_
    cases o.memalign cur.toNat with
    | none => exact fail_keeps P _
    | some page =>
      apply (acquire_keeps P hP _).bind
      intro buf _
      exact ih _ _ _

theorem wakeKernel_keeps (o : Outcomes) : Keeps (fun w => P w.ledger) (wakeKernel o) := by
  have hcount : Keeps (fun w => P w.ledger) countSystemCall := fun _ h => h
  exact Keeps.ite (hcount.bind fun _ _ => Keeps.ite (Keeps.pure _) (fail_keeps P _)) (Keeps.pure _)

end Keeping

structure CleanFailure (e : Stop) (w w' : World) : Prop where
  live : w'.ledger.live = w.ledger.live
  matched : ∃ rel, w'.ledger.released = w.ledger.released ++ rel ∧
    ∀ x ∈ rel, x.2 = x.1.kind.deallocator
  no_null : e ≠ .fault .nullDeref

/-- The program ends without an early exit and only acquires. -/
def Grows {α : Type} (x : Sys α) : Prop :=
  ∀ w, ∃ a w' rs, x w = .ok a w' ∧ w.ledger.Grown w'.ledger rs

theorem Grows.pure {α : Type} (a : α) : Grows (Pure.pure a) :=
  fun w => ⟨a, w, ∅, rfl, Ledger.Grown.refl _⟩

theorem Grows.bind {α β : Type} {x : Sys α} {f : α → Sys β} (hx : Grows x)
    (hf : ∀ a, Grows (f a)) : Grows (x >>= f) := by
  intro w
  obtain ⟨a, w₁, rs, hxw, hg⟩ := hx w
  obtain ⟨b, w₂, rs', hfa, hg'⟩ := hf a w₁
  exact ⟨b, w₂, rs ∪ rs', bind_eq_ok.mpr ⟨a, w₁, hxw, hfa⟩, hg.trans hg'⟩

theorem acquire_grows (k : Kind) : Grows (acquire k) :=
  fun w => ⟨_, _, _, rfl, Ledger.Grown.acquire w.ledger k⟩

theorem tryAcquire_grows (ok : Bool) (k : Kind) : Grows (tryAcquire ok k) := by
  cases ok with
  | false => exact Grows.pure none
  | true => exact (acquire_grows k).bind fun _ => Grows.pure _

theorem report_grows (msg : String) : Grows (report msg) :=
  fun w => ⟨(), _, ∅, rfl, Ledger.Grown.refl w.ledger⟩

theorem appSetupUring_grows (o : Outcomes) (s : Ptr) : Grows (appSetupUring o (some s)) := by
  have hnone : ∀ msg, Grows (do report msg; pure (none : Option Submitter)) :=
    fun msg => (report_grows msg).bind fun _ => Grows.pure _
  rw [appSetupUring]
  apply Grows.bind (Grows.pure s)
  intro s
  cases o.ringSetup with
  | none => exact hnone _
  | some p =>
    apply (acquire_grows _).bind
    intro ringFd
    apply (tryAcquire_grows _ _).bind
    intro sq
    cases sq with
    | none => exact hnone _
    | some sq =>
      have hcq : Grows (mapCqRing o p sq) := by
        rw [mapCqRing]
        split
        · exact Grows.pure _
        · exact tryAcquire_grows _ _
      apply hcq.bind
      intro cq
      cases cq with
      | none => exact hnone _
      | some cq =>
        apply (tryAcquire_grows _ _).bind
        intro sqes
        cases sqes with
        | none => exact hnone _
        | some sqes => exact Grows.pure _

theorem release_keeps {r q : Resource} (hr : r.kind = .ring) (hq : q.kind ≠ .ring)
    (d : Deallocator) : Keeps (fun w => r ∈ w.ledger.live) (release q d) := by
  intro w h
  have hne : r ≠ q := by
    rintro rfl
    exact hq hr
  exact Finset.mem_erase.mpr ⟨hne, h⟩

theorem failed_setup_released {o : Outcomes} {mode : String} {w w₁ w₂ w' : World} {s : Ptr}
    {e : Stop} (hs : ompAlloc 104 o.submitterAlloc w = .ok (some s) w₁)
    (hsub : appSetupUring o (some s) w₁ = .ok none w₂) (h : myFopen o mode w = .error e w') :
    w'.ledger.released = w₂.ledger.released ++ [(s, .free)] := by
  rw [myFopen, bind_eq_error] at h
  rcases h with h | ⟨_, _, hs', h⟩
  · rw [hs] at h
    cases h
  · rw [hs] at hs'
    cases hs'
    rcases bind_eq_error.mp h with h | ⟨_, _, hsub', h⟩
    · rw [hsub] at h
      cases h
    · rw [hsub] at hsub'
      cases hsub'
      cases h
      rfl

/-- Once the rings are set up, every step acquires, or releases something else
than the ring descriptor. -/
theorem ring_stays {o : Outcomes} {mode : String} {w w₁ w₂ w' : World} {s : Ptr} {e : Stop}
    {sub : Submitter} (hs : ompAlloc 104 o.submitterAlloc w = .ok (some s) w₁)
    (hsub : appSetupUring o (some s) w₁ = .ok (some sub) w₂)
    (hring : sub.ringFd.kind = .ring) (hlive : sub.ringFd ∈ w₂.ledger.live)
    (h : myFopen o mode w = .error e w') : sub.ringFd ∈ w'.ledger.live := by
  have hsk := (tryAcquire_ok hs).2.1
  rw [myFopen, bind_eq_error] at h
  rcases h with h | ⟨_, _, hs', h⟩
  · rw [hs] at h
    cases h
  · rw [hs] at hs'
    cases hs'
    rcases bind_eq_error.mp h with h | ⟨_, _, hsub', h⟩
    · rw [hsub] at h
      cases h
    · rw [hsub] at hsub'
      cases hsub'
      let P : Ledger Kind Deallocator → Prop := fun l => sub.ringFd ∈ l.live
      have hacq : ∀ l k, P l → P (l.acquire k) := fun _ _ hl => Finset.mem_insert_of_mem hl
      refine Keeps.of_error (P := fun w => P w.ledger) ?_ h hlive
      apply (tryAcquire_keeps P hacq _ _).bind
      rintro fd ⟨_, _, hfd⟩
      cases fd with
      | none => exact fail_keeps P _
      | some fd =>
        have hfdk := (tryAcquire_ok hfd).2.1
        apply (getFileSize_keeps P o).bind
        intro size _
        refine Keeps.ite (Keeps.throw _) (Keeps.ite ?_ ?_)
        · apply (tryAcquire_keeps P hacq _ _).bind
          intro fi _
          cases fi with
          | none => exact fail_keeps P _
          | some fi =>
            apply (tryAcquire_keeps P hacq _ _).bind
            intro mf _
            apply (deref_keeps P mf).bind
            intro addr _
            apply (fillIovecs_keeps P hacq _ _ _ _ _ _).bind
            intro iovecs _
            exact (wakeKernel_keeps P o).bind fun _ _ => Keeps.pure _
        · apply (report_keeps P _).bind
          intro _ _
          apply (release_keeps hring (by rw [hfdk]; decide) _).bind
          intro _ _
          apply (release_keeps hring (by rw [hsk]; decide) _).bind
          intro _ _
          exact Keeps.throw _

/-- Without a submitter the first thing that happens is a store through `NULL`. -/
theorem no_submitter_fault {o : Outcomes} {mode : String} {w w₁ w' : World} {e : Stop}
    (hs : ompAlloc 104 o.submitterAlloc w = .ok none w₁) (h : myFopen o mode w = .error e w') :
    e = .fault .nullDeref := by
  rw [myFopen, bind_eq_error] at h
  rcases h with h | ⟨_, _, hs', h⟩
  · rw [hs] at h
    cases h
  · rw [hs] at hs'
    cases hs'
    rcases bind_eq_error.mp h with h | ⟨_, _, hsub, _⟩
    · cases h
      rfl
    · cases hsub

/-- However `my_fopen` fails, the ring descriptor is still open, or the submitter
went to the wrong deallocator, or a null pointer was used. -/
theorem failed_open_not_clean {o : Outcomes} {mode : String} {w w' : World} {e : Stop}
    (h : myFopen o mode w = .error e w') : ¬ CleanFailure e w w' := by
  intro hclean
  obtain ⟨s, w₁, rs, hs, hsg⟩ : ∃ s w₁ rs, ompAlloc 104 o.submitterAlloc w = .ok s w₁ ∧
    w.ledger.Grown w₁.ledger rs := tryAcquire_grows _ _ w
  cases s with
  | none => exact hclean.no_null (no_submitter_fault hs h)
  | some s =>
    have hsk := (tryAcquire_ok hs).2.1
    obtain ⟨sub, w₂, rs', hsub, hsubg⟩ := appSetupUring_grows o s w₁
    cases sub with
    | none =>
      have hreleased := failed_setup_released hs hsub h
      obtain ⟨rel, happ, hmatch⟩ := hclean.matched
      rw [hreleased, hsubg.released, hsg.released, List.append_cancel_left_eq] at happ
      have hfree := hmatch (s, .free) (by rw [← happ]; exact List.mem_singleton_self _)
      rw [hsk] at hfree
      cases hfree
    | some sub =>
      obtain ⟨p, -, hset⟩ := appSetupUring_ok hsub
      have hring : sub.ringFd ∈ sub.resources :=
        Finset.mem_union_left _ (Finset.mem_singleton_self _)
      have hlive : sub.ringFd ∈ w₂.ledger.live := by
        rw [hset.grown.live]
        exact Finset.mem_union_right _ hring
      have hleft := ring_stays hs hsub hset.ring_kind hlive h
      rw [hclean.live] at hleft
      exact hset.grown.not_mem hsg.next_le hring hleft

theorem missing_file_leaks :
    ∃ w', myFopen { Outcomes.smooth 1 fun _ => ⟨1, [65]⟩ with openFile := fun _ => false } "r"
        World.start = .error .null w' ∧
      World.start.ledger.live = ∅ ∧
      w'.ledger.live = {⟨.mapping, 3⟩, ⟨.mapping, 2⟩, ⟨.ring, 1⟩, ⟨.shared, 0⟩} ∧
      ¬ CleanFailure .null World.start w' := by
  refine ⟨_, rfl, rfl, rfl, ?_⟩
  intro hclean
  exact absurd hclean.live (by decide)

theorem missing_submitter_not_clean :
    ∃ w', myFopen { Outcomes.smooth 1 fun _ => ⟨1, [65]⟩ with submitterAlloc := false } "r"
        World.start = .error (.fault .nullDeref) w' ∧
      ¬ CleanFailure (.fault .nullDeref) World.start w' := by
  have h : myFopen { Outcomes.smooth 1 fun _ => ⟨1, [65]⟩ with submitterAlloc := false } "r"
      World.start = .error (.fault .nullDeref) World.start := rfl
  exact ⟨World.start, h, failed_open_not_clean h⟩

end IoUring
