import IoUring.Open
import IoUring.Runs

/-! The handshake between the submission in `my_fopen` and the kernel's polling
thread going idle. The new tail is on its way for some time after it is stored,
since `write_barrier` does not hold back the load of the flags. -/

namespace IoUring

inductive Opener where
  | storeTail | writeBarrier | loadFlags | enter | waitCompletion | returned
deriving DecidableEq

inductive Poller where
  | polling | flagged | fenced | leaving | asleep
deriving DecidableEq

/-- `sqTail` is the tail as the polling thread sees it, and a store that it does
not see yet is in flight. -/
structure Handshake where
  opener : Opener
  poller : Poller
  sqHead : UInt32
  sqTail : UInt32
  tailInFlight : Option UInt32
  needWakeup : Bool
  flagInFlight : Bool
  wakeSent : Bool
  cqHead : UInt32
  cqTail : UInt32
deriving DecidableEq

inductive Action where
  | storeTail | writeBarrier | loadFlags | enter | seeCompletion
  | deliverTail | deliverFlag
  | poll | setFlag | fence | rereadTail | sleep | wake
deriving DecidableEq

namespace Handshake

def step (s : Handshake) : Action → Option Handshake
  | .storeTail =>
    if s.opener = .storeTail then
      some { s with opener := .writeBarrier, tailInFlight := some (s.sqTail + 1) }
    else none
  | .writeBarrier =>
    if s.opener = .writeBarrier then some { s with opener := .loadFlags } else none
  | .loadFlags =>
    if s.opener = .loadFlags then
      some { s with opener := if s.needWakeup then .enter else .waitCompletion }
    else none
  | .enter =>
    if s.opener = .enter then some { s with opener := .waitCompletion, wakeSent := true }
    else none
  | .seeCompletion =>
    if s.opener = .waitCompletion ∧ s.cqHead ≠ s.cqTail then some { s with opener := .returned }
    else none
  | .deliverTail =>
    match s.tailInFlight with
    | some tail => some { s with sqTail := tail, tailInFlight := none }
    | none => none
  | .deliverFlag =>
    if s.flagInFlight then some { s with needWakeup := true, flagInFlight := false } else none
  | .poll =>
    if s.poller = .polling ∧ s.sqHead ≠ s.sqTail then
      some { s with sqHead := s.sqTail, cqTail := s.cqTail + 1 }
    else none
  | .setFlag =>
    if s.poller = .polling then some { s with poller := .flagged, flagInFlight := true }
    else none
  | .fence =>
    if s.poller = .flagged ∧ s.flagInFlight = false then some { s with poller := .fenced }
    else none
  | .rereadTail =>
    if s.poller = .fenced then
      if s.sqHead = s.sqTail then some { s with poller := .leaving }
      else some { s with poller := .polling, needWakeup := false }
    else none
  | .sleep =>
    if s.poller = .leaving then some { s with poller := .asleep } else none
  | .wake =>
    if s.poller = .asleep ∧ s.wakeSent = true then
      some { s with poller := .polling, wakeSent := false, needWakeup := false }
    else none

def start (sq cq : UInt32) : Handshake where
  opener := .storeTail
  poller := .polling
  sqHead := sq
  sqTail := sq
  tailInFlight := none
  needWakeup := false
  flagInFlight := false
  wakeSent := false
  cqHead := cq
  cqTail := cq

/-- The request is there to be seen, the thread sleeps, nobody wakes it and
`my_fopen` waits for the completion. -/
structure Lost (s : Handshake) : Prop where
  delivered : s.tailInFlight = none
  waiting : s.opener = .waitCompletion
  empty : s.cqHead = s.cqTail
  asleep : s.poller = .asleep
  unsent : s.wakeSent = false

/-- The thread does not look at the tail for the last time while the store is in
flight and `my_fopen` already waits with no wake-up under way. -/
def Ordered (s : Handshake) (a : Action) : Prop :=
  a = .rereadTail →
    ¬ (s.tailInFlight ≠ none ∧ s.opener = .waitCompletion ∧ s.wakeSent = false)

structure Inv (s : Handshake) : Prop where
  flagged : s.poller = .flagged → s.flagInFlight = true ∨ s.needWakeup = true
  flag_flight : s.flagInFlight = true → s.poller = .flagged
  visible : s.poller = .fenced ∨ s.poller = .leaving ∨ s.poller = .asleep → s.needWakeup = true
  before : s.opener = .storeTail →
    s.tailInFlight = none ∧ s.sqHead = s.sqTail ∧ s.cqHead = s.cqTail
  flying : s.tailInFlight ≠ none →
    s.tailInFlight = some (s.sqTail + 1) ∧ s.sqHead = s.sqTail ∧ s.cqHead = s.cqTail
  served : s.tailInFlight = none → s.opener ≠ .storeTail → s.sqHead = s.sqTail →
    s.cqTail = s.cqHead + 1
  unserved : s.sqHead ≠ s.sqTail → s.cqHead = s.cqTail

/-- In an ordered run a thread that goes to sleep unseen has served the request. -/
def Quiet (s : Handshake) : Prop :=
  s.opener = .waitCompletion → s.wakeSent = false →
    s.poller = .leaving ∨ s.poller = .asleep → s.tailInFlight = none ∧ s.sqHead = s.sqTail

theorem storeTail_submitReadv {mf : MyFile} {s t : Handshake} (h : s.step .storeTail = some t)
    (hs : s.sqTail = mf.s.sqRing.tail) : t.tailInFlight = some (submitReadv mf).s.sqRing.tail := by
  have hne : mf.s.sqRing.tail ≠ mf.s.sqRing.tail + 1 := by grind
  obtain ⟨-, ⟨⟩⟩ := Option.ite_none_right_eq_some.mp h
  simp only [submitReadv, if_pos hne, hs]

theorem loadFlags_wakeKernel {o : Outcomes} {s t : Handshake} (w : World)
    (h : s.step .loadFlags = some t) (hs : s.needWakeup = decide (o.sqFlags &&& 1 ≠ 0)) :
    t.opener = .enter ↔
      (EarlyExit.final (wakeKernel o w)).systemTimes = w.systemTimes + 1 := by
  have hne : w.systemTimes ≠ w.systemTimes + 1 := by grind
  obtain ⟨-, ⟨⟩⟩ := Option.ite_none_right_eq_some.mp h
  by_cases hflag : o.sqFlags &&& 1 ≠ 0
  · have henter : (EarlyExit.final (wakeKernel o w)).systemTimes = w.systemTimes + 1 := by
      simp only [wakeKernel, if_pos hflag]
      cases o.enter <;> rfl
    simp [hs, hflag, henter]
  · have hsame : (EarlyExit.final (wakeKernel o w)).systemTimes = w.systemTimes := by
      simp only [wakeKernel, if_neg hflag]
      rfl
    simp [hs, hflag, hsame, hne]

theorem start_inv (sq cq : UInt32) : (start sq cq).Inv := by
  constructor <;> simp [start]

theorem start_quiet (sq cq : UInt32) : (start sq cq).Quiet := by
  simp [Quiet, start]

theorem step_inv {s t : Handshake} {a : Action} (h : s.step a = some t) (hs : s.Inv) : t.Inv := by
  have hne : ∀ x : UInt32, x ≠ x + 1 := fun x => by grind
  obtain ⟨hflagged, hflight, hvisible, hbefore, hflying, hserved, hunserved⟩ := hs
  cases a with
  | storeTail | deliverTail | poll =>
    -- the tail, the head and the completion move
    simp only [step] at h
    grind [Inv]
  | setFlag | deliverFlag | fence | rereadTail | wake =>
    -- the flag and the thread move
    simp only [step] at h
    grind [Inv]
  | writeBarrier | loadFlags | enter | seeCompletion | sleep =>
    simp only [step] at h
    grind [Inv]

theorem step_quiet {s t : Handshake} {a : Action} (h : s.step a = some t) (hok : s.Ordered a)
    (hi : s.Inv) (hs : s.Quiet) : t.Quiet := by
  intro hwait hunsent hleft
  cases a with
  | loadFlags =>
    obtain ⟨-, ⟨⟩⟩ := Option.ite_none_right_eq_some.mp h
    -- a thread that has left has made its flag visible
    have hflag : s.needWakeup = true := hi.visible (Or.inr hleft)
    simp [hflag] at hwait
  | deliverTail =>
    simp only [step] at h
    cases hfly : s.tailInFlight with
    | none => simp [hfly] at h
    | some tail =>
      simp only [hfly, Option.some.injEq] at h
      subst h
      have hnone := (hs hwait hunsent hleft).1
      rw [hfly] at hnone
      cases hnone
  | rereadTail =>
    obtain ⟨-, h⟩ := Option.ite_none_right_eq_some.mp h
    split at h
    · next heq =>
      cases h
      refine ⟨?_, heq⟩
      by_contra hfly
      exact hok rfl ⟨hfly, hwait, hunsent⟩
    · cases h
      rcases hleft with hleft | hleft <;> cases hleft
  | sleep =>
    obtain ⟨hleaving, ⟨⟩⟩ := Option.ite_none_right_eq_some.mp h
    exact hs hwait hunsent (Or.inl hleaving)
  | storeTail | writeBarrier | enter | seeCompletion =>
    simp only [step] at h
    grind [Quiet]
  | deliverFlag | poll | setFlag | fence | wake =>
    simp only [step] at h
    grind [Quiet]

theorem reach_quiet {sq cq : UInt32} {s : Handshake} (h : Runs.Reach step Ordered (start sq cq) s) :
    s.Inv ∧ s.Quiet := by
  refine h.invariant (I := fun s => s.Inv ∧ s.Quiet) ⟨start_inv sq cq, start_quiet sq cq⟩ ?_
  rintro u a v hok hstep ⟨hi, hq⟩
  exact ⟨step_inv hstep hi, step_quiet hstep hok hi hq⟩

theorem not_lost {s : Handshake} (hi : s.Inv) (hq : s.Quiet) : ¬ s.Lost := by
  intro hl
  have hseen := (hq hl.waiting hl.unsent (Or.inr hl.asleep)).2
  have hopener : s.opener ≠ .storeTail := by
    rw [hl.waiting]
    decide
  have hserved := hi.served hl.delivered hopener hseen
  rw [hl.empty] at hserved
  grind

/-- What a full fence between the store of the tail and the load of the flags ensures. -/
def Fenced (s : Handshake) (a : Action) : Prop := a = .loadFlags → s.tailInFlight = none

theorem ordered_of_fenced {sq cq : UInt32} {s : Handshake}
    (h : Runs.Reach step Fenced (start sq cq) s) (a : Action) : s.Ordered a := by
  have hflying : s.tailInFlight ≠ none → s.opener = .writeBarrier ∨ s.opener = .loadFlags := by
    refine h.invariant (I := fun s =>
      s.tailInFlight ≠ none → s.opener = .writeBarrier ∨ s.opener = .loadFlags) (by simp [start]) ?_
    intro u b v hok hstep hu
    cases b <;> simp only [step] at hstep <;> grind [Fenced]
  rintro - ⟨hfly, hwait, -⟩
  rcases hflying hfly with hopener | hopener <;> rw [hopener] at hwait <;> cases hwait

/-- With the fence every run is ordered. -/
theorem reach_of_fenced {sq cq : UInt32} {s : Handshake}
    (h : Runs.Reach step Fenced (start sq cq) s) : Runs.Reach step Ordered (start sq cq) s := by
  induction h with
  | refl => exact .refl
  | tail hreach hlast ih =>
    obtain ⟨a, -, hstep⟩ := hlast
    exact ih.tail ⟨a, ordered_of_fenced hreach a, hstep⟩

theorem lost_of_not_ordered {s : Handshake} (hi : s.Inv) (hfenced : s.poller = .fenced)
    (h : ¬ s.Ordered .rereadTail) : ∃ t, Runs.Reach step Runs.Any s t ∧ t.Lost := by
  obtain ⟨hfly, hwait, hunsent⟩ : s.tailInFlight ≠ none ∧ s.opener = .waitCompletion ∧
      s.wakeSent = false := by
    simpa [Ordered] using h
  obtain ⟨htail, hhead, hcq⟩ := hi.flying hfly
  refine ⟨{ s with poller := .asleep, sqTail := s.sqTail + 1, tailInFlight := none }, ?_,
    rfl, hwait, hcq, rfl, hunsent⟩
  apply Runs.reach_of_run [.rereadTail, .sleep, .deliverTail] fun _ _ _ => trivial
  simp [Runs.run, step, hfenced, hhead, htail]

/-- In a run whose steps are all ordered no wake-up is lost, and from every
reachable state in which the next step breaks the order one can be. -/
theorem no_lost_wakeup (sq cq : UInt32) :
    (∀ s, Runs.Reach step Ordered (start sq cq) s → ¬ s.Lost) ∧
    ∀ s, Runs.Reach step Runs.Any (start sq cq) s → s.poller = .fenced →
      ¬ s.Ordered .rereadTail → ∃ t, Runs.Reach step Runs.Any s t ∧ t.Lost := by
  constructor
  · intro s hreach
    obtain ⟨hi, hq⟩ := reach_quiet hreach
    exact not_lost hi hq
  · intro s hreach hfenced hbad
    have hi : s.Inv := hreach.invariant (start_inv sq cq) fun u a v _ hstep hu => step_inv hstep hu
    exact lost_of_not_ordered hi hfenced hbad

/-- The flags are loaded before the polling thread sets its flag, and the tail
arrives after the thread looked at it for the last time. -/
theorem wakeup_lost : ∃ s, Runs.Reach step Runs.Any (start 0 0) s ∧ s.Lost := by
  refine ⟨_, Runs.reach_of_run [.storeTail, .writeBarrier, .loadFlags, .setFlag, .deliverFlag,
    .fence, .rereadTail, .sleep, .deliverTail] (fun _ _ _ => trivial) rfl, rfl, rfl, rfl, rfl, rfl⟩

theorem wakeup_sent_not_lost :
    ∃ s, Runs.Reach step Ordered (start 0 0) s ∧ s.opener = .waitCompletion ∧
      s.wakeSent = true ∧ ¬ s.Lost := by
  have hreach : Runs.Reach step Ordered (start 0 0) _ :=
    Runs.reach_of_run [.setFlag, .deliverFlag, .storeTail, .writeBarrier, .loadFlags, .enter]
      (by simp [Ordered]) rfl
  exact ⟨_, hreach, rfl, rfl, (no_lost_wakeup 0 0).1 _ hreach⟩

end Handshake

end IoUring
