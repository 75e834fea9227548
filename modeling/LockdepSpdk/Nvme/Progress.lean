import LockdepSpdk.Nvme.Contexts
import Mathlib.Algebra.BigOperators.Ring.Finset
import Mathlib.Algebra.Order.BigOperators.Group.Finset

/-!
# The calls of the manager end

While the manager is there and has something to do, one of its threads can go on, and
what the threads do in a run is bounded by the calls, the destructor and the wake-ups
that come for nothing.
-/

namespace LockdepSpdk.Nvme

set_option autoImplicit false

open Function Monitor Transition

section Deadlock
variable {K Trid Ctrlr Ns : Type} [DecidableEq K] [DecidableEq Trid] {sp : Spdk Trid Ctrlr Ns}
  {s : Live K Trid Ctrlr Ns}

/-- Nobody can take a step, even if a probe finds nothing. -/
def Live.Stuck (sp : Spdk Trid Ctrlr Ns) (s : Live K Trid Ctrlr Ns) : Prop :=
  ∀ p s', s.exec sp (.step p nothing) ≠ .ok s'

namespace Live.Stuck

theorem error (h : s.Stuck sp) (p : Party K) : ∃ e, s.exec sp (.step p nothing) = .error e := by
  cases hexec : s.exec sp (.step p nothing) with
  | error e => exact ⟨e, rfl⟩
  | ok s' => exact absurd hexec (h p s')

theorem caller (h : s.Stuck sp) (hs : s.Sound) (hd : s.point .destructor ≠ .ended) (k : K) :
    s.point (.caller k) = .out ∨ s.point (.caller k) = .asleep ∨
      (∃ trid, s.point (.caller k) = .lock trid) ∧ s.lock ≠ none ∨
      (s.point (.caller k) = .lockQueue ∨ s.point (.caller k) = .relock) ∧ s.queueLock ≠ none := by
  obtain ⟨e, he⟩ := h.error (.caller k)
  simp only [Live.exec, if_neg hd] at he
  exact (hs.caller_stuck rfl he).2

theorem dpdk (h : s.Stuck sp) (hs : s.Sound) :
    s.point .dpdk = .out ∨ s.point .dpdk = .ended ∨ s.point .dpdk = .asleep ∨
      (s.point .dpdk = .start ∨ s.point .dpdk = .relock) ∧ s.queueLock ≠ none := by
  obtain ⟨e, he⟩ := h.error .dpdk
  have hstep : stepDpdk sp s nothing (s.point .dpdk) = .error e := he
  rcases (hs.dpdk_stuck rfl hstep).2 with hat | hat | hat | hat | hfound | hrc
  · exact Or.inl hat
  · exact Or.inr (Or.inl hat)
  · exact Or.inr (Or.inr (Or.inl hat))
  · exact Or.inr (Or.inr (Or.inr hat))
  · exact absurd rfl hfound
  · exact absurd hrc (Int.lt_irrefl 0)

theorem destructor (h : s.Stuck sp) (hs : s.Sound) :
    s.point .destructor = .out ∨ s.point .destructor = .ended ∨
      s.point .destructor = .lockStop ∧ s.queueLock ≠ none ∨
      s.point .destructor = .join ∧ s.point .dpdk ≠ .ended := by
  obtain ⟨e, he⟩ := h.error .destructor
  have hstep : stepDestructor s (s.point .destructor) = .error e := he
  exact (hs.destructor_stuck rfl hstep).2

theorem unlocked (h : s.Stuck sp) (hs : s.Sound) (hd : s.point .destructor ≠ .ended) :
    s.queueLock = none := by
  cases howner : s.queueLock with
  | none => rfl
  | some p =>
    have hin : (s.point p).inQueue = true := (hs.locks.queue p).mp howner
    have hne : ∀ q : Point K Trid, q.inQueue = false → s.point p ≠ q := by
      intro q hq heq
      rw [heq, hq] at hin
      cases hin
    cases p with
    | caller k =>
      rcases h.caller hs hd k with hat | hat | ⟨⟨trid, hat⟩, -⟩ | ⟨hat | hat, -⟩
      all_goals exact absurd hat (hne _ rfl)
    | dpdk =>
      rcases h.dpdk hs with hat | hat | hat | ⟨hat | hat, -⟩
      all_goals exact absurd hat (hne _ rfl)
    | destructor =>
      rcases h.destructor hs with hat | hat | ⟨hat, -⟩ | ⟨hat, -⟩
      all_goals exact absurd hat (hne _ rfl)

theorem not_asleep (h : s.Stuck sp) (hs : s.Sound) (hd : s.point .destructor ≠ .ended) (k : K) :
    s.point (.caller k) ≠ .asleep := by
  have hfree := h.unlocked hs hd
  intro hasleep
  obtain ⟨ctx, hctx⟩ := hs.caller_context (k := k) (by rw [hasleep]; rfl)
  rcases h.dpdk hs with hat | hat | hat | ⟨-, hheld⟩
  · exact hs.thread.scope k (by rw [hasleep]; rfl) hat
  · have hstop : s.stopping = true := hs.thread.ending (by rw [hat]; rfl)
    rcases hs.thread.stopped hstop with hstopped | hended
    · rcases h.destructor hs with hdes | hdes | ⟨hdes, -⟩ | ⟨-, hgo⟩
      · rw [hdes] at hstopped
        cases hstopped
      · exact hd hdes
      · rw [hdes] at hstopped
        cases hstopped
      · exact hgo hat
    · exact hd hended
  · have hlive : (s.point .dpdk).drained = false := by
      rw [hat]
      rfl
    have hqueued : k ∈ s.probeQueue := by
      refine (hs.queue.queued hlive k).mpr ⟨⟨⟨ctx, hctx, ?_⟩, by rw [hasleep]; rfl⟩, ?_⟩
      · rw [← Bool.not_eq_true]
        intro hdone
        rcases hs.naps.caller k hasleep ctx hctx hdone with heq | heq
        · rw [hat] at heq
          cases heq
        · rw [hat] at heq
          cases heq
      · rw [hat]
        exact fun heq => by cases heq
    rcases hs.naps.dpdk hat with ⟨hempty, -⟩ | ⟨j, hj⟩ | hnotify
    · rw [hempty] at hqueued
      cases hqueued
    · rcases h.caller hs hd j with heq | heq | ⟨⟨trid, heq⟩, -⟩ | ⟨heq | heq, -⟩
      all_goals
        rw [hj] at heq
        cases heq
    · rcases h.destructor hs with heq | heq | ⟨heq, -⟩ | ⟨heq, -⟩
      all_goals
        rw [hnotify] at heq
        cases heq
  · exact hheld hfree

theorem callers_out (h : s.Stuck sp) (hs : s.Sound) (hd : s.point .destructor ≠ .ended) (k : K) :
    s.point (.caller k) = .out := by
  have hfree := h.unlocked hs hd
  rcases h.caller hs hd k with hat | hat | ⟨-, hheld⟩ | ⟨-, hheld⟩
  · exact hat
  · exact absurd hat (h.not_asleep hs hd k)
  · obtain ⟨j, hj⟩ := Option.ne_none_iff_exists'.mp hheld
    have hin : (s.point (.caller j)).inCall = true := (hs.locks.call j).mp hj
    rcases h.caller hs hd j with hat | hat | ⟨⟨trid, hat⟩, -⟩ | ⟨-, hqueue⟩
    · rw [hat] at hin
      cases hin
    · exact absurd hat (h.not_asleep hs hd j)
    · rw [hat] at hin
      cases hin
    · exact absurd hfree hqueue
  · exact absurd hfree hheld

theorem destructor_out (h : s.Stuck sp) (hs : s.Sound) (hd : s.point .destructor ≠ .ended) :
    s.point .destructor = .out := by
  have hfree := h.unlocked hs hd
  rcases h.destructor hs with hat | hat | ⟨-, hheld⟩ | ⟨hat, hgo⟩
  · exact hat
  · exact absurd hat hd
  · exact absurd hfree hheld
  · have hstop : s.stopping = true := hs.thread.stops (by rw [hat]; rfl)
    rcases h.dpdk hs with hdpdk | hdpdk | hdpdk | ⟨-, hheld⟩
    · exact absurd hdpdk (hs.thread.destroys (by rw [hat]; exact fun heq => by cases heq)
        (by rw [hat]; exact fun heq => by cases heq))
    · exact absurd hdpdk hgo
    · rcases hs.naps.dpdk hdpdk with ⟨-, hrun⟩ | ⟨k, hk⟩ | hnotify
      · rw [hstop] at hrun
        cases hrun
      · rw [h.callers_out hs hd k] at hk
        cases hk
      · rw [hat] at hnotify
        cases hnotify
    · exact absurd hfree hheld

end Live.Stuck

/-- Where nobody can take a step, no call is in progress, and no destructor is. -/
theorem never_stuck {as : List (Move K Trid Ctrlr)} (h : LiveRun sp Live.begin as s)
    (hd : s.point .destructor ≠ .ended) {p : Party K} (hp : p ≠ .dpdk) (hbusy : s.point p ≠ .out) :
    ∃ u s', s.Step sp (.step u nothing) s' := by
  by_contra hnone
  have hstuck : s.Stuck sp := by
    intro u s' hexec
    exact hnone ⟨u, s', Live.probes_nothing u, hexec⟩
  cases p with
  | caller k => exact hbusy (hstuck.callers_out h.sound hd k)
  | dpdk => exact hp rfl
  | destructor => exact hbusy (hstuck.destructor_out h.sound hd)

end Deadlock

section Energy
variable {K Trid Ctrlr Ns : Type}

def Point.callLeft : Point K Trid → Nat
  | .lock _ => 30
  | .look _ => 29
  | .lockQueue => 24
  | .push => 23
  | .notify => 11
  | .relock => 4
  | .test => 3
  | .unlockQueue => 2
  | .sleep | .reply => 1
  | _ => 0

def Point.dpdkLeft : Point K Trid → Nat
  | .probe _ => 11
  | .notifyDone | .drain => 10
  | .notifyEnd => 9
  | .init => 4
  | .start | .relock => 3
  | .test => 2
  | .sleep | .take | .unlockEnd => 1
  | _ => 0

def Point.destructorLeft : Point K Trid → Nat
  | .lockStop => 21
  | .stop => 20
  | .notifyStop => 10
  | .unlockStop => 2
  | .join => 1
  | _ => 0

variable [Fintype K]

def callsLeft (place : Party K → Point K Trid) : Nat := ∑ k, (place (.caller k)).callLeft

/-- A context in the queue costs the thread a turn of its loop, and so does `stopping`. -/
def left (place : Party K → Point K Trid) (queue : List K) (stopping : Bool) : Nat :=
  callsLeft place + (place .dpdk).dpdkLeft + (place .destructor).destructorLeft +
    11 * queue.length + if stopping = true ∧ (place .dpdk).ending = false then 9 else 0

variable [DecidableEq K] {place : Party K → Point K Trid} {k : K} {p : Party K} {q : Point K Trid}

theorem callsLeft_caller (place : Party K → Point K Trid) (k : K) (q : Point K Trid) :
    callsLeft (update place (.caller k) q) + (place (.caller k)).callLeft =
      callsLeft place + q.callLeft := by
  unfold callsLeft
  have hother : ∑ j ∈ Finset.univ.erase k, (update place (.caller k) q (.caller j)).callLeft =
      ∑ j ∈ Finset.univ.erase k, (place (.caller j)).callLeft := by
    refine Finset.sum_congr rfl fun j hj => ?_
    rw [update_of_ne (fun heq => Finset.ne_of_mem_erase hj (Party.caller.inj heq))]
  have hnew := Finset.add_sum_erase Finset.univ
    (fun j => (update place (.caller k) q (.caller j)).callLeft) (Finset.mem_univ k)
  have hold := Finset.add_sum_erase Finset.univ
    (fun j => (place (.caller j)).callLeft) (Finset.mem_univ k)
  rw [hother, update_self] at hnew
  omega

theorem callsLeft_other (hp : ∀ k, p ≠ .caller k) :
    callsLeft (update place p q) = callsLeft place := by
  unfold callsLeft
  simp only [update_caller hp]

theorem callsLeft_woken [DecidableEq Trid] {lock : Option K}
    (h : Guards (fun q => q.inCall = true) lock fun k => place (.caller k)) :
    callsLeft (woken place) ≤ callsLeft place + 4 := by
  have hone : ∀ j, (woken place (.caller j)).callLeft ≤
      (place (.caller j)).callLeft + if lock = some j then 4 else 0 := by
    intro j
    by_cases hat : place (.caller j) = .asleep
    · have hin : (place (.caller j)).inCall = true := by
        rw [hat]
        rfl
      have hlock : lock = some j := (h j).mpr hin
      have hwoken : woken place (.caller j) = .relock := if_pos hat
      rw [hwoken, hat, if_pos hlock]
      exact Nat.le_refl _
    · rw [woken_of_ne hat]
      exact Nat.le_add_right _ _
  have hsum : ∑ j, (if lock = some j then 4 else 0) ≤ 4 := by
    cases lock with
    | none => simp
    | some j => simp
  calc callsLeft (woken place)
      ≤ ∑ j, ((place (.caller j)).callLeft + if lock = some j then 4 else 0) :=
        Finset.sum_le_sum fun j _ => hone j
    _ = callsLeft place + ∑ j, (if lock = some j then 4 else 0) := Finset.sum_add_distrib
    _ ≤ callsLeft place + 4 := Nat.add_le_add_left hsum _

omit [Fintype K] in
theorem dpdkLeft_woken [DecidableEq Trid] (place : Party K → Point K Trid) (u : Party K) :
    (woken place u).dpdkLeft ≤ (place u).dpdkLeft + 3 := by
  by_cases hat : place u = .asleep
  · have hwoken : woken place u = .relock := if_pos hat
    rw [hwoken, hat]
    exact Nat.le_refl _
  · rw [woken_of_ne hat]
    exact Nat.le_add_right _ _

/-- A step of the run, not something that happens to it. -/
def Move.turn {Ctrlr : Type} : Move K Trid Ctrlr → Bool
  | .step _ _ => true
  | _ => false

section Left
variable (place : Party K → Point K Trid) (k : K) (q : Point K Trid) (queue queue' : List K)
  (stopping : Bool)

theorem left_caller :
    left (update place (.caller k) q) queue' stopping + (place (.caller k)).callLeft +
      11 * queue.length = left place queue stopping + q.callLeft + 11 * queue'.length := by
  unfold left
  rw [update_dpdk, update_destructor]
  have hcalls := callsLeft_caller place k q
  omega

theorem left_dpdk (hending : q.ending = (place .dpdk).ending) :
    left (update place .dpdk q) queue' stopping + (place .dpdk).dpdkLeft + 11 * queue.length =
      left place queue stopping + q.dpdkLeft + 11 * queue'.length := by
  unfold left
  rw [callsLeft_other (fun _ heq => by cases heq), update_self,
    update_of_ne (fun heq => by cases heq), hending]
  omega

theorem left_destructor :
    left (update place .destructor q) queue stopping + (place .destructor).destructorLeft =
      left place queue stopping + q.destructorLeft := by
  unfold left
  rw [callsLeft_other (fun _ heq => by cases heq), update_self,
    update_of_ne (fun heq => by cases heq)]
  omega

theorem left_woken [DecidableEq Trid] {place : Party K → Point K Trid} {lock : Option K}
    (h : Guards (fun q => q.inCall = true) lock fun k => place (.caller k)) :
    left (woken place) queue stopping ≤ left place queue stopping + 7 := by
  have hcalls := callsLeft_woken h
  have hdpdk := dpdkLeft_woken place .dpdk
  unfold left
  rw [woken_same Point.destructorLeft rfl, woken_same Point.ending rfl]
  omega

end Left

namespace Live
variable {s s' : Live K Trid Ctrlr Ns} {sp : Spdk Trid Ctrlr Ns}

def left (s : Live K Trid Ctrlr Ns) : Nat := Nvme.left s.point s.probeQueue s.stopping

theorem left_call {r : Point K Trid} (hat : s.point (.caller k) = q)
    (hr : r.callLeft < q.callLeft) :
    1 + Nvme.left (update s.point (.caller k) r) s.probeQueue s.stopping ≤ s.left := by
  have hleft := left_caller s.point k r s.probeQueue s.probeQueue s.stopping
  rw [hat] at hleft
  change _ ≤ Nvme.left s.point s.probeQueue s.stopping
  omega

theorem left_stepLook (h : s.Sound) {trid : Trid} (hat : s.point (.caller k) = .look trid)
    (hd : s.point .destructor ≠ .ended) : 1 + (stepLook sp s k trid).left ≤ s.left := by
  unfold stepLook
  split
  · exact left_call hat (by simp [Point.callLeft])
  · split
    · exact left_call hat (by simp [Point.callLeft])
    · split
      · next hthread =>
        have hdpdk : s.point .dpdk = .out := (h.thread.started hd).mp hthread
        have hkept : update s.point .dpdk .init (.caller k) = .look trid := by
          rw [update_caller (fun _ heq => by cases heq), hat]
        have hcall := left_caller (update s.point .dpdk .init) k .lockQueue s.probeQueue
          s.probeQueue s.stopping
        have hstart := left_dpdk s.point .init s.probeQueue s.probeQueue s.stopping
          (by rw [hdpdk]; rfl)
        rw [hkept] at hcall
        rw [hdpdk] at hstart
        simp only [Point.callLeft, Point.dpdkLeft] at hcall hstart
        change 1 + Nvme.left (update (update s.point .dpdk .init) (.caller k) .lockQueue)
          s.probeQueue s.stopping ≤ Nvme.left s.point s.probeQueue s.stopping
        omega
      · exact left_call hat (by simp [Point.callLeft])

theorem left_thread {r : Point K Trid} (hat : s.point .dpdk = q) (hending : r.ending = q.ending)
    (hr : r.dpdkLeft < q.dpdkLeft) :
    1 + Nvme.left (update s.point .dpdk r) s.probeQueue s.stopping ≤ s.left := by
  have hleft := left_dpdk s.point r s.probeQueue s.probeQueue s.stopping (by rw [hat, hending])
  rw [hat] at hleft
  change _ ≤ Nvme.left s.point s.probeQueue s.stopping
  omega

variable [DecidableEq Trid]

theorem left_stepCaller (h : s.Sound) (hd : s.point .destructor ≠ .ended)
    (hat : s.point (.caller k) = q) (hs : stepCaller sp s k q = .ok s') :
    1 + s'.left ≤ s.left := by
  cases q with
  | lock trid =>
    simp only [Nvme.stepCaller] at hs
    split at hs
    · obtain rfl := Except.ok.inj hs
      exact left_call hat (by simp [Point.callLeft])
    · cases hs
  | look trid =>
    obtain rfl := Except.ok.inj hs
    exact left_stepLook h hat hd
  | lockQueue =>
    obtain ⟨-, rfl⟩ := acquire_ok hs
    exact left_call hat (by simp [Point.callLeft])
  | push =>
    obtain rfl := Except.ok.inj hs
    have hleft := left_caller s.point k .notify s.probeQueue (s.probeQueue ++ [k]) s.stopping
    rw [hat, List.length_append, List.length_singleton] at hleft
    simp only [Point.callLeft] at hleft
    change 1 + Nvme.left (update s.point (.caller k) .notify) (s.probeQueue ++ [k]) s.stopping ≤
      Nvme.left s.point s.probeQueue s.stopping
    omega
  | notify =>
    obtain rfl := Except.ok.inj hs
    have hwake := left_woken s.probeQueue s.stopping h.locks.call
    have hleft := left_caller (woken s.point) k .test s.probeQueue s.probeQueue s.stopping
    rw [(woken_iff (fun heq => by cases heq) (fun heq => by cases heq) _).mpr hat] at hleft
    simp only [Point.callLeft] at hleft
    change 1 + Nvme.left (update (woken s.point) (.caller k) .test) s.probeQueue s.stopping ≤
      Nvme.left s.point s.probeQueue s.stopping
    omega
  | test =>
    simp only [Nvme.stepCaller] at hs
    split at hs
    · cases hs
    · obtain rfl := Except.ok.inj hs
      refine left_call hat ?_
      split <;> simp [Point.callLeft]
  | sleep =>
    obtain rfl := Except.ok.inj hs
    exact left_call hat (by simp [Point.callLeft])
  | relock =>
    obtain ⟨-, rfl⟩ := acquire_ok hs
    exact left_call hat (by simp [Point.callLeft])
  | unlockQueue =>
    obtain rfl := Except.ok.inj hs
    exact left_call hat (by simp [Point.callLeft])
  | reply =>
    simp only [Nvme.stepCaller] at hs
    split at hs
    · cases hs
    · split at hs
      · obtain rfl := Except.ok.inj hs
        exact left_call hat (by simp [Point.callLeft])
      · obtain rfl := Except.ok.inj hs
        exact left_call hat (by simp [Point.callLeft])
  | _ => cases hs

theorem left_threadNotifies {r : Point K Trid} (h : s.Sound) (hat : s.point .dpdk = q)
    (hin : q.inQueue = true) (hending : r.ending = q.ending)
    (hr : 8 + r.dpdkLeft ≤ q.dpdkLeft) : 1 + (s.notifyAll .dpdk r).left ≤ s.left := by
  have hkept : woken s.point .dpdk = q := by
    rw [woken_of_ne, hat]
    rintro heq
    rw [← hat, heq] at hin
    cases hin
  have hwake := left_woken s.probeQueue s.stopping h.locks.call
  have hleft := left_dpdk (woken s.point) r s.probeQueue s.probeQueue s.stopping
    (by rw [hkept, hending])
  rw [hkept] at hleft
  change 1 + Nvme.left (update (woken s.point) .dpdk r) s.probeQueue s.stopping ≤
    Nvme.left s.point s.probeQueue s.stopping
  omega

theorem left_stepDpdk (h : s.Sound) {o : Outcome Trid Ctrlr} (hat : s.point .dpdk = q)
    (hs : stepDpdk sp s o q = .ok s') : 1 + s'.left ≤ s.left := by
  cases q with
  | init =>
    obtain rfl := Except.ok.inj hs
    exact left_thread hat rfl (by simp [Point.dpdkLeft])
  | start =>
    obtain ⟨-, rfl⟩ := acquire_ok hs
    exact left_thread hat rfl (by simp [Point.dpdkLeft])
  | relock =>
    obtain ⟨-, rfl⟩ := acquire_ok hs
    exact left_thread hat rfl (by simp [Point.dpdkLeft])
  | test =>
    obtain rfl := Except.ok.inj hs
    split
    · next hstop =>
      change 1 + Nvme.left (update s.point .dpdk .drain) s.probeQueue s.stopping ≤
        Nvme.left s.point s.probeQueue s.stopping
      unfold Nvme.left
      rw [callsLeft_other (fun _ heq => by cases heq), update_self,
        update_of_ne (fun heq => by cases heq), hat, hstop]
      simp [Point.dpdkLeft, Point.ending]
      omega
    · split
      · exact left_thread hat rfl (by simp [Point.dpdkLeft])
      · exact left_thread hat rfl (by simp [Point.dpdkLeft])
  | take =>
    simp only [Nvme.stepDpdk] at hs
    split at hs
    · cases hs
    · next k rest hqueue =>
      obtain rfl := Except.ok.inj hs
      have hleft := left_dpdk s.point (.probe k) (k :: rest) rest s.stopping (by rw [hat]; rfl)
      rw [hat, List.length_cons] at hleft
      simp only [Point.dpdkLeft] at hleft
      change 1 + Nvme.left (update s.point .dpdk (.probe k)) rest s.stopping ≤
        Nvme.left s.point s.probeQueue s.stopping
      rw [hqueue]
      omega
  | probe k =>
    simp only [Nvme.stepDpdk] at hs
    split at hs
    · cases hs
    · split at hs
      · cases hs
      · split at hs
        · cases hs
        · obtain rfl := Except.ok.inj hs
          exact left_thread hat rfl (by simp [Point.dpdkLeft])
  | notifyDone =>
    obtain rfl := Except.ok.inj hs
    exact left_threadNotifies h hat rfl rfl (by simp [Point.dpdkLeft])
  | sleep =>
    obtain rfl := Except.ok.inj hs
    exact left_thread hat rfl (by simp [Point.dpdkLeft])
  | drain =>
    simp only [Nvme.stepDpdk] at hs
    split at hs
    · cases hs
    · obtain rfl := Except.ok.inj hs
      exact left_thread hat rfl (by simp [Point.dpdkLeft])
  | notifyEnd =>
    obtain rfl := Except.ok.inj hs
    exact left_threadNotifies h hat rfl rfl (by simp [Point.dpdkLeft])
  | unlockEnd =>
    obtain rfl := Except.ok.inj hs
    exact left_thread hat rfl (by simp [Point.dpdkLeft])
  | _ => cases hs

omit [DecidableEq Trid] in
theorem left_waits {r : Point K Trid} (hat : s.point .destructor = q)
    (hr : r.destructorLeft < q.destructorLeft) :
    1 + Nvme.left (update s.point .destructor r) s.probeQueue s.stopping ≤ s.left := by
  have hleft := left_destructor s.point r s.probeQueue s.stopping
  rw [hat] at hleft
  change _ ≤ Nvme.left s.point s.probeQueue s.stopping
  omega

theorem left_stepDestructor (h : s.Sound) (hat : s.point .destructor = q)
    (hs : stepDestructor s q = .ok s') : 1 + s'.left ≤ s.left := by
  cases q with
  | lockStop =>
    obtain ⟨-, rfl⟩ := acquire_ok hs
    exact left_waits hat (by simp [Point.destructorLeft])
  | stop =>
    obtain rfl := Except.ok.inj hs
    change 1 + Nvme.left (update s.point .destructor .notifyStop) s.probeQueue true ≤
      Nvme.left s.point s.probeQueue s.stopping
    unfold Nvme.left
    rw [callsLeft_other (fun _ heq => by cases heq), update_self,
      update_of_ne (fun heq => by cases heq), hat]
    simp only [Point.destructorLeft]
    split <;> omega
  | notifyStop =>
    obtain rfl := Except.ok.inj hs
    have hwake := left_woken s.probeQueue s.stopping h.locks.call
    have hleft := left_destructor (woken s.point) .unlockStop s.probeQueue s.stopping
    rw [(woken_iff (fun heq => by cases heq) (fun heq => by cases heq) _).mpr hat] at hleft
    simp only [Point.destructorLeft] at hleft
    change 1 + Nvme.left (update (woken s.point) .destructor .unlockStop) s.probeQueue s.stopping ≤
      Nvme.left s.point s.probeQueue s.stopping
    omega
  | unlockStop =>
    obtain rfl := Except.ok.inj hs
    exact left_waits hat (by simp [Point.destructorLeft])
  | join =>
    simp only [Nvme.stepDestructor] at hs
    split at hs
    · obtain rfl := Except.ok.inj hs
      exact left_waits hat (by simp [Point.destructorLeft])
    · cases hs
  | _ => cases hs

/-- What is not a step of a thread leaves them at most 30 steps more. -/
theorem left_outside {a : Move K Trid Ctrlr} (h : s.Sound) (ha : a.turn = false)
    (hs : s.exec sp a = .ok s') : s'.left ≤ s.left + 30 := by
  cases a with
  | call k trid =>
    simp only [exec] at hs
    split at hs
    · cases hs
    · split at hs
      · next hat =>
        obtain rfl := Except.ok.inj hs
        have hleft := left_caller s.point k (.lock trid) s.probeQueue s.probeQueue s.stopping
        rw [hat] at hleft
        simp only [Point.callLeft] at hleft
        change Nvme.left (update s.point (.caller k) (.lock trid)) s.probeQueue s.stopping ≤
          Nvme.left s.point s.probeQueue s.stopping + 30
        omega
      · cases hs
  | destroy =>
    simp only [exec] at hs
    split at hs
    · next hat =>
      obtain rfl := Except.ok.inj hs
      have hleft : ∀ r : Point K Trid, r.destructorLeft ≤ 30 →
          (s.goto .destructor r).left ≤ s.left + 30 := by
        intro r hr
        have hleft := left_destructor s.point r s.probeQueue s.stopping
        rw [hat] at hleft
        change Nvme.left (update s.point .destructor r) s.probeQueue s.stopping ≤
          Nvme.left s.point s.probeQueue s.stopping + 30
        omega
      split
      · exact hleft _ (by simp [Point.destructorLeft])
      · exact hleft _ (by simp [Point.destructorLeft])
    · cases hs
  | step p o => cases ha
  | spurious p =>
    simp only [exec] at hs
    split at hs
    · next hat =>
      obtain rfl := Except.ok.inj hs
      cases p with
      | caller k =>
        have hleft := left_caller s.point k .relock s.probeQueue s.probeQueue s.stopping
        rw [hat] at hleft
        simp only [Point.callLeft] at hleft
        change Nvme.left (update s.point (.caller k) .relock) s.probeQueue s.stopping ≤
          Nvme.left s.point s.probeQueue s.stopping + 30
        omega
      | dpdk =>
        have hleft := left_dpdk s.point .relock s.probeQueue s.probeQueue s.stopping
          (by rw [hat]; rfl)
        rw [hat] at hleft
        simp only [Point.dpdkLeft] at hleft
        change Nvme.left (update s.point .dpdk .relock) s.probeQueue s.stopping ≤
          Nvme.left s.point s.probeQueue s.stopping + 30
        omega
      | destructor =>
        have hplace := h.locks.places .destructor
        rw [hat] at hplace
        cases hplace
    · cases hs

theorem left_step {a : Move K Trid Ctrlr} (h : s.Sound) (hs : s.exec sp a = .ok s') :
    (if a.turn then 1 else 0) + s'.left ≤ s.left + 30 * if !a.turn then 1 else 0 := by
  cases hturn : a.turn with
  | false =>
    have hleft := left_outside h hturn hs
    simpa using hleft
  | true =>
    have hleft : 1 + s'.left ≤ s.left := by
      cases a with
      | step p o =>
        cases p with
        | caller k =>
          simp only [exec] at hs
          split at hs
          · cases hs
          · next hd => exact left_stepCaller h hd rfl hs
        | dpdk => exact left_stepDpdk h rfl hs
        | destructor => exact left_stepDestructor h rfl hs
      | _ => cases hturn
    simpa using hleft

end Live

variable [DecidableEq Trid] {sp : Spdk Trid Ctrlr Ns} {s : Live K Trid Ctrlr Ns}

/-- The steps of a run are bounded by the calls, the destructor and the wake-ups for nothing. -/
theorem turns_bounded {as : List (Move K Trid Ctrlr)} (h : LiveRun sp Live.begin as s) :
    as.countP Move.turn ≤ 30 * as.countP fun a => !a.turn := by
  have hpotential := h.potential (I := Live.Sound) Live.left Move.turn (fun a => !a.turn) 30
    (fun _ _ _ hs hstep => hs.step hstep.2) (fun _ _ _ hs hstep => Live.left_step hs hstep.2)
    Live.begin_sound
  have hzero : (Live.begin : Live K Trid Ctrlr Ns).left = 0 := by
    simp [Live.left, left, callsLeft, Live.begin, Point.callLeft, Point.dpdkLeft,
      Point.destructorLeft]
  omega

/-- In every run the steps are bounded by what happens from outside, and until the manager is gone
the threads only stop when no call and no destructor is in progress. -/
theorem calls_end {as : List (Move K Trid Ctrlr)} (h : LiveRun sp Live.begin as s) :
    as.countP Move.turn ≤ 30 * as.countP (fun a => !a.turn) ∧
      (s.point .destructor ≠ .ended → ∀ p, p ≠ .dpdk → s.point p ≠ .out →
        ∃ u s', s.Step sp (.step u nothing) s') :=
  ⟨turns_bounded h, fun hd _ hp hbusy => never_stuck h hd hp hbusy⟩

theorem calls_end_probing :
    ∃ (as : List (Move Bool (Fin 16) Unit)) (s : Live Bool (Fin 16) Unit Unit),
    s.point (.caller true) = .asleep ∧ s.point .dpdk = .probe true ∧
      as.countP Move.turn ≤ 30 * as.countP (fun a => !a.turn) ∧
      (s.point .destructor ≠ .ended → ∀ p, p ≠ .dpdk → s.point p ≠ .out →
        ∃ u s', s.Step small (.step u nothing) s') := by
  obtain ⟨s, hs, hcaller, hdpdk, -⟩ := probing_execAll
  exact ⟨_, s, hcaller, hdpdk, calls_end (LiveRun.of_execAll hs)⟩

end Energy

section Late
variable {K Trid Ctrlr Ns : Type} [DecidableEq K] [DecidableEq Trid] {sp : Spdk Trid Ctrlr Ns}
  {s s' : Live K Trid Ctrlr Ns} {k : K}

/-- The call has its context, and nobody has set `done` in it. -/
def Live.Unanswered (s : Live K Trid Ctrlr Ns) (k : K) : Prop :=
  (s.point (.caller k)).inScope = true ∧ ∃ ctx, s.ctxs k = some ctx ∧ ctx.done = false

/-- The thread that would answer the call has ended. -/
structure Live.Late (s : Live K Trid Ctrlr Ns) (k : K) : Prop where
  ended : s.point .dpdk = .ended
  unanswered : s.Unanswered k

namespace Live.Late

omit [DecidableEq K] [DecidableEq Trid] in
theorem locked (h : s.Late k) (hs : s.Sound) : s.lock = some k := by
  have hin : (s.point (.caller k)).inCall = true := by
    have hscope := h.unanswered.1
    cases hat : s.point (.caller k) with
    | out | lock _ =>
      rw [hat] at hscope
      cases hscope
    | _ => rfl
  exact (hs.locks.call k).mpr hin

omit [DecidableEq K] [DecidableEq Trid] in
theorem others (h : s.Late k) (hs : s.Sound) {j : K} (hj : j ≠ k) :
    (s.point (.caller j)).inCall ≠ true := by
  intro hin
  have hlock := (hs.locks.call j).mpr hin
  rw [h.locked hs] at hlock
  exact hj (Option.some.inj hlock).symm

omit [DecidableEq Trid] in
theorem moved (h : s.Late k) {q : Point K Trid} (hq : q.inScope = true)
    (hpoint : s'.point = update s.point (.caller k) q) (hctxs : s'.ctxs = s.ctxs) : s'.Late k where
  ended := by rw [hpoint, update_dpdk, h.ended]
  unanswered := by
    refine ⟨by rw [hpoint, update_self, hq], ?_⟩
    rw [hctxs]
    exact h.unanswered.2

theorem kept (h : s.Late k) {place : Party K → Point K Trid} {u : Party K} {q : Point K Trid}
    (hplace : place = s.point ∨ place = woken s.point) (hk : u ≠ .caller k) (hd : u ≠ .dpdk)
    (hpoint : s'.point = update place u q) (hctxs : s'.ctxs = s.ctxs) : s'.Late k where
  ended := by
    rw [hpoint, update_of_ne hd.symm]
    rcases hplace with rfl | rfl
    · exact h.ended
    · exact (woken_iff (fun heq => by cases heq) (fun heq => by cases heq) _).mpr h.ended
  unanswered := by
    refine ⟨?_, by rw [hctxs]; exact h.unanswered.2⟩
    rw [hpoint, update_of_ne hk.symm]
    rcases hplace with rfl | rfl
    · exact h.unanswered.1
    · rw [woken_same Point.inScope rfl]
      exact h.unanswered.1

theorem caller (h : s.Late k) (hsound : s.Sound) {q : Point K Trid}
    (hat : s.point (.caller k) = q) (hs : stepCaller sp s k q = .ok s') : s'.Late k := by
  obtain ⟨hscope, ctx, hctx, hdone⟩ := h.unanswered
  have hknows := hsound.queue.knows k
  rw [hat] at hscope hknows
  cases q with
  | lockQueue =>
    obtain ⟨-, rfl⟩ := acquire_ok hs
    exact h.moved (q := .push) rfl rfl rfl
  | push =>
    obtain rfl := Except.ok.inj hs
    exact h.moved (q := .notify) rfl rfl rfl
  | notify =>
    obtain rfl := Except.ok.inj hs
    have hwoken : ({ s with point := woken s.point } : Live K Trid Ctrlr Ns).Late k :=
      { ended := (woken_iff (fun heq => by cases heq) (fun heq => by cases heq) _).mpr h.ended
        unanswered := by
          refine ⟨?_, ctx, hctx, hdone⟩
          change (woken s.point (.caller k)).inScope = true
          rw [woken_same Point.inScope rfl, hat]
          rfl }
    exact hwoken.moved rfl rfl rfl
  | test =>
    simp only [stepCaller, hctx, hdone] at hs
    obtain rfl := Except.ok.inj hs
    exact h.moved rfl rfl rfl
  | sleep =>
    obtain rfl := Except.ok.inj hs
    exact h.moved (q := .asleep) rfl rfl rfl
  | relock =>
    obtain ⟨-, rfl⟩ := acquire_ok hs
    exact h.moved (q := .test) rfl rfl rfl
  | asleep => cases hs
  | unlockQueue | reply =>
    -- The loop ends with `done`.
    rw [hknows ctx hctx] at hdone
    cases hdone
  | out | lock _ | look _ => cases hscope
  | _ => cases hs

theorem destructor (h : s.Late k) (hstep : stepDestructor s (s.point .destructor) = .ok s') :
    s'.Late k := by
  have own : ∀ {place : Party K → Point K Trid} {q : Point K Trid},
      (place = s.point ∨ place = woken s.point) → s'.point = update place .destructor q →
      s'.ctxs = s.ctxs → s'.Late k := fun hplace =>
    h.kept hplace (fun heq => by cases heq) (fun heq => by cases heq)
  cases hat : s.point .destructor with
  | lockStop =>
    rw [hat] at hstep
    obtain ⟨-, rfl⟩ := acquire_ok hstep
    exact own (Or.inl rfl) rfl rfl
  | stop | unlockStop =>
    rw [hat] at hstep
    obtain rfl := Except.ok.inj hstep
    exact own (Or.inl rfl) rfl rfl
  | notifyStop =>
    rw [hat] at hstep
    obtain rfl := Except.ok.inj hstep
    exact own (Or.inr rfl) rfl rfl
  | join =>
    rw [hat] at hstep
    simp only [stepDestructor] at hstep
    split at hstep
    · obtain rfl := Except.ok.inj hstep
      exact own (Or.inl rfl) rfl rfl
    · cases hstep
  | _ =>
    rw [hat] at hstep
    cases hstep

theorem step (h : s.Late k) (hs : s.Sound) {a : Move K Trid Ctrlr}
    (hstep : s.exec sp a = .ok s') : s'.Late k := by
  cases a with
  | call j trid =>
    simp only [Live.exec] at hstep
    split at hstep
    · cases hstep
    · split at hstep
      · next hat =>
        obtain rfl := Except.ok.inj hstep
        refine h.kept (Or.inl rfl) ?_ (fun heq => by cases heq) rfl rfl
        intro heq
        have hscope := h.unanswered.1
        rw [← heq, hat] at hscope
        cases hscope
      · cases hstep
  | destroy =>
    simp only [Live.exec] at hstep
    split at hstep
    · obtain rfl := Except.ok.inj hstep
      exact h.kept (Or.inl rfl) (fun heq => by cases heq) (fun heq => by cases heq) rfl rfl
    · cases hstep
  | step p o =>
    cases p with
    | caller j =>
      simp only [Live.exec] at hstep
      split at hstep
      · cases hstep
      · rcases eq_or_ne j k with rfl | hj
        · exact h.caller hs rfl hstep
        · have hout := h.others hs hj
          cases hat : s.point (.caller j) with
          | out =>
            rw [hat] at hstep
            cases hstep
          | lock trid =>
            rw [hat] at hstep
            simp only [stepCaller, h.locked hs] at hstep
            cases hstep
          | _ =>
            rw [hat] at hout
            exact absurd rfl hout
    | dpdk =>
      change stepDpdk sp s o (s.point .dpdk) = .ok s' at hstep
      rw [h.ended] at hstep
      cases hstep
    | destructor => exact h.destructor hstep
  | spurious p =>
    simp only [Live.exec] at hstep
    split at hstep
    · next hat =>
      obtain rfl := Except.ok.inj hstep
      rcases eq_or_ne p (.caller k) with rfl | hk
      · exact h.moved (q := .relock) rfl rfl rfl
      · refine h.kept (Or.inl rfl) hk ?_ rfl rfl
        rintro rfl
        rw [h.ended] at hat
        cases hat
    · cases hstep

end Live.Late

/-- A call that the thread has left without an answer gets none, and keeps `lock`, so that no other
call gets it. -/
theorem late_call {as bs : List (Move K Trid Ctrlr)} (h : LiveRun sp Live.begin as s)
    (hended : s.point .dpdk = .ended) (hcall : s.Unanswered k) (hrun : LiveRun sp s bs s') :
    s'.Unanswered k ∧ s'.lock = some k ∧ ∀ j, j ≠ k → (s'.point (.caller j)).inCall = false := by
  have hlate : s'.Sound ∧ s'.Late k := by
    refine hrun.invariant (I := fun s => s.Sound ∧ s.Late k) ?_ ⟨h.sound, hended, hcall⟩
    rintro s a s' ⟨hs, hlate⟩ hstep
    exact ⟨hs.step hstep.2, hlate.step hs hstep.2⟩
  obtain ⟨hs, hlate⟩ := hlate
  exact ⟨hlate.unanswered, hlate.locked hs, fun j hj => Bool.not_eq_true _ ▸ hlate.others hs hj⟩

def lateCall {Trid Ctrlr : Type} (trid : Trid) : List (Move Bool Trid Ctrlr) :=
  List.flatten [[.call true trid], turns (.caller true) 2, [.destroy], turns .destructor 4,
    turns .dpdk 6]

def afterwards {Trid Ctrlr : Type} (trid : Trid) : List (Move Bool Trid Ctrlr) :=
  List.flatten [turns (.caller true) 5, [.call false trid], turns .destructor 1,
    [.spurious (.caller true)]]

theorem lateCall_execAll : ∃ s s' : Live Bool (Fin 16) Unit Unit,
    execAll (fun s a => s.exec small a) (fun s a => s.probes small a) Live.begin (lateCall 1) =
        some s ∧
      execAll (fun s a => s.exec small a) (fun s a => s.probes small a) s (afterwards 1) =
        some s' ∧
      s.point .dpdk = .ended ∧ s.Unanswered true ∧ s'.point .destructor = .ended :=
  ⟨_, _, rfl, rfl, rfl, ⟨rfl, _, rfl, rfl⟩, rfl⟩

theorem late_call_destroyed : ∃ s : Live Bool (Fin 16) Unit Unit,
    s.point .destructor = .ended ∧ s.Unanswered true ∧ s.lock = some true ∧
      ∀ j, j ≠ true → (s.point (.caller j)).inCall = false := by
  obtain ⟨s, s', hs, hs', hended, hcall, hdestroyed⟩ := lateCall_execAll
  exact ⟨s', hdestroyed, late_call (LiveRun.of_execAll hs) hended hcall (LiveRun.of_execAll hs')⟩

end Late

end LockdepSpdk.Nvme
