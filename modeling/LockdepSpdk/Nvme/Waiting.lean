import LockdepSpdk.Nvme.Loop

/-!
# What the threads of the manager know

The invariants of the manager with the threads inside it: who holds which lock, whose
context is in the queue, and why whoever sleeps may sleep.
-/

namespace LockdepSpdk.Nvme

set_option autoImplicit false

open Function Monitor Transition

section Places
variable {K Trid : Type}

def Point.inQueue : Point K Trid → Bool
  | .push | .notify | .unlockQueue | .test | .sleep | .take | .probe _ | .notifyDone | .drain
  | .notifyEnd | .unlockEnd | .stop | .notifyStop | .unlockStop => true
  | _ => false

/-- Within `lock`, of a place in `try_get`. -/
def Point.inCall : Point K Trid → Bool
  | .out | .lock _ => false
  | _ => true

def Point.inScope : Point K Trid → Bool
  | .out | .lock _ | .look _ => false
  | _ => true

def Point.pushed : Point K Trid → Bool
  | .notify | .test | .sleep | .asleep | .relock => true
  | _ => false

def Point.ending : Point K Trid → Bool
  | .drain | .notifyEnd | .unlockEnd | .ended => true
  | _ => false

def Point.drained : Point K Trid → Bool
  | .notifyEnd | .unlockEnd | .ended => true
  | _ => false

def Point.stopped : Point K Trid → Bool
  | .notifyStop | .unlockStop | .join => true
  | _ => false

def Point.of : Party K → Point K Trid → Bool
  | .caller _, q => match q with
    | .out | .lock _ | .look _ | .lockQueue | .push | .notify | .unlockQueue | .reply | .test
    | .sleep | .asleep | .relock => true
    | _ => false
  | .dpdk, q => match q with
    | .out | .init | .start | .test | .sleep | .asleep | .relock | .take | .probe _ | .notifyDone
    | .drain | .notifyEnd | .unlockEnd | .ended => true
    | _ => false
  | .destructor, q => match q with
    | .out | .lockStop | .stop | .notifyStop | .unlockStop | .join | .ended => true
    | _ => false

end Places

section Invariants
variable {K Trid Ctrlr Ns : Type}

/-- In the queue, or popped and not done. -/
def Pending (ctxs : K → Option (Context Trid Ctrlr Ns)) (place : Party K → Point K Trid)
    (k : K) : Prop :=
  (∃ ctx, ctxs k = some ctx ∧ ctx.done = false) ∧ (place (.caller k)).pushed = true

/-- What a call knows of its context. -/
def Knows (ctx : Option (Context Trid Ctrlr Ns)) : Point K Trid → Prop
  | .lockQueue | .push => ∃ trid, ctx = some ⟨trid, none, false⟩
  | .sleep => ∀ x, ctx = some x → x.done = false
  | .unlockQueue | .reply => ∀ x, ctx = some x → x.done = true
  | _ => True

structure Locks (queueLock : Option (Party K)) (lock : Option K)
    (ctxs : K → Option (Context Trid Ctrlr Ns)) (place : Party K → Point K Trid) : Prop where
  places : ∀ p, (place p).of p = true
  queue : Guards (fun q => q.inQueue = true) queueLock place
  call : Guards (fun q => q.inCall = true) lock fun k => place (.caller k)
  scope : ∀ k, (ctxs k).isSome = (place (.caller k)).inScope

structure Thread (dpdkThread : Option Trid) (stopping : Bool) (place : Party K → Point K Trid) :
    Prop where
  started : place .destructor ≠ .ended → (dpdkThread = none ↔ place .dpdk = .out)
  /-- Whoever has a context has started the thread. -/
  scope : ∀ k, (place (.caller k)).inScope = true → place .dpdk ≠ .out
  destroys : place .destructor ≠ .out → place .destructor ≠ .ended → place .dpdk ≠ .out
  destroyed : place .destructor = .ended → place .dpdk = .out ∨ place .dpdk = .ended
  stops : (place .destructor).stopped = true → stopping = true
  stopped : stopping = true → (place .destructor).stopped = true ∨ place .destructor = .ended
  ending : (place .dpdk).ending = true → stopping = true

structure ProbeQueue (ctxs : K → Option (Context Trid Ctrlr Ns)) (queue : List K)
    (place : Party K → Point K Trid) : Prop where
  knows : ∀ k, Knows (ctxs k) (place (.caller k))
  queued : (place .dpdk).drained = false →
    ∀ k, k ∈ queue ↔ Pending ctxs place k ∧ place .dpdk ≠ .probe k
  nodup : (place .dpdk).drained = false → queue.Nodup
  probing : ∀ k, place .dpdk = .probe k → Pending ctxs place k
  takes : place .dpdk = .take → queue ≠ []

structure Naps (ctxs : K → Option (Context Trid Ctrlr Ns)) (queue : List K) (stopping : Bool)
    (place : Party K → Point K Trid) : Prop where
  caller : ∀ k, place (.caller k) = .asleep → ∀ ctx, ctxs k = some ctx → ctx.done = true →
    place .dpdk = .notifyDone ∨ place .dpdk = .notifyEnd
  sleeps : place .dpdk = .sleep → queue = [] ∧ stopping = false
  dpdk : place .dpdk = .asleep → (queue = [] ∧ stopping = false) ∨
    (∃ k, place (.caller k) = .notify) ∨ place .destructor = .notifyStop

structure Live.Sound (s : Live K Trid Ctrlr Ns) : Prop where
  locks : Locks s.queueLock s.lock s.ctxs s.point
  thread : Thread s.dpdkThread s.stopping s.point
  queue : ProbeQueue s.ctxs s.probeQueue s.point
  naps : Naps s.ctxs s.probeQueue s.stopping s.point

theorem Live.begin_sound [DecidableEq K] [DecidableEq Trid] :
    (Live.begin : Live K Trid Ctrlr Ns).Sound where
  locks :=
    { places := fun p => by cases p <;> rfl
      queue := fun t => iff_of_false (fun h => by cases h) (fun h => by cases h)
      call := fun t => iff_of_false (fun h => by cases h) (fun h => by cases h)
      scope := fun k => rfl }
  thread :=
    { started := fun _ => iff_of_true rfl rfl
      scope := fun k h => by cases h
      destroys := fun h => absurd rfl h
      destroyed := fun h => by cases h
      stops := fun h => by cases h
      stopped := fun h => by cases h
      ending := fun h => by cases h }
  queue :=
    { knows := fun k => trivial
      queued := fun _ k => iff_of_false (fun h => by cases h) (fun h => by cases h.1.2)
      nodup := fun _ => List.nodup_nil
      probing := fun k h => by cases h
      takes := fun h => by cases h }
  naps :=
    { caller := fun k h => by cases h
      sleeps := fun h => by cases h
      dpdk := fun h => by cases h }

end Invariants

section Moves
variable {K Trid Ctrlr Ns : Type} [DecidableEq K] {queueLock queueLock' : Option (Party K)}
  {lock : Option K} {ctxs : K → Option (Context Trid Ctrlr Ns)} {queue : List K}
  {dpdkThread : Option Trid} {stopping : Bool} {place : Party K → Point K Trid}
  {k : K} {p : Party K} {q : Point K Trid}

theorem callers_update :
    (fun j => update place (.caller k) q (.caller j)) =
      update (fun j => place (.caller j)) k q := by
  funext j
  rcases eq_or_ne j k with rfl | hj
  · rw [update_self, update_self]
  · rw [update_of_ne hj, update_of_ne (fun h => hj (Party.caller.inj h))]

theorem update_dpdk : update place (.caller k) q .dpdk = place .dpdk :=
  update_of_ne (fun h => by cases h) _ _

theorem update_destructor : update place (.caller k) q .destructor = place .destructor :=
  update_of_ne (fun h => by cases h) _ _

theorem update_caller (hp : ∀ k, p ≠ .caller k) :
    update place p q (.caller k) = place (.caller k) :=
  update_of_ne (fun h => hp k h.symm) _ _

theorem places_update (h : ∀ p, (place p).of p = true) (hq : q.of p = true) (u : Party K) :
    (update place p q u).of u = true := by
  rcases eq_or_ne u p with rfl | hu
  · rwa [update_self]
  · rw [update_of_ne hu]
    exact h u

namespace Locks

theorem caller {ctxs' : K → Option (Context Trid Ctrlr Ns)}
    (h : Locks queueLock lock ctxs place) (hof : q.of (.caller k) = true)
    (hqueue : Guards (fun q => q.inQueue = true) queueLock' (update place (.caller k) q))
    (hcall : q.inCall = (place (.caller k)).inCall) (hctxs : ∀ j, j ≠ k → ctxs' j = ctxs j)
    (hscope : (ctxs' k).isSome = q.inScope) :
    Locks queueLock' lock ctxs' (update place (.caller k) q) where
  places := places_update h.places hof
  queue := hqueue
  call := by
    rw [callers_update]
    exact h.call.keep (by rw [hcall])
  scope := by
    intro j
    rcases eq_or_ne j k with rfl | hj
    · rw [update_self, hscope]
    · rw [update_of_ne (fun heq => hj (Party.caller.inj heq)), hctxs j hj]
      exact h.scope j

theorem returns (h : Locks queueLock lock ctxs place)
    (hcall : (place (.caller k)).inCall = true) (hqueue : (place (.caller k)).inQueue = false) :
    Locks queueLock none (update ctxs k none) (update place (.caller k) .out) where
  places := places_update h.places rfl
  queue := h.queue.keep (by rw [hqueue]; rfl)
  call := by
    rw [callers_update]
    exact h.call.release hcall (fun h => by cases h)
  scope := by
    intro j
    rcases eq_or_ne j k with rfl | hj
    · rw [update_self, update_self]
      rfl
    · rw [update_of_ne hj, update_of_ne (fun heq => hj (Party.caller.inj heq))]
      exact h.scope j

theorem other {ctxs' : K → Option (Context Trid Ctrlr Ns)}
    (h : Locks queueLock lock ctxs place) (hp : ∀ k, p ≠ .caller k) (hof : q.of p = true)
    (hqueue : Guards (fun q => q.inQueue = true) queueLock' (update place p q))
    (hctxs : ∀ j, (ctxs' j).isSome = (ctxs j).isSome) :
    Locks queueLock' lock ctxs' (update place p q) where
  places := places_update h.places hof
  queue := hqueue
  call := by
    simp only [update_caller hp]
    exact h.call
  scope := by
    intro j
    rw [update_caller hp, hctxs j]
    exact h.scope j

end Locks

namespace Thread

theorem caller (h : Thread dpdkThread stopping place)
    (hscope : q.inScope = true → place .dpdk ≠ .out) :
    Thread dpdkThread stopping (update place (.caller k) q) where
  started := by
    rw [update_dpdk, update_destructor]
    exact h.started
  scope := by
    intro j hj
    rw [update_dpdk]
    rcases eq_or_ne j k with rfl | hne
    · rw [update_self] at hj
      exact hscope hj
    · rw [update_of_ne (fun heq => hne (Party.caller.inj heq))] at hj
      exact h.scope j hj
  destroys := by
    rw [update_dpdk, update_destructor]
    exact h.destroys
  destroyed := by
    rw [update_dpdk, update_destructor]
    exact h.destroyed
  stops := by
    rw [update_destructor]
    exact h.stops
  stopped := by
    rw [update_destructor]
    exact h.stopped
  ending := by
    rw [update_dpdk]
    exact h.ending

theorem dpdk (h : Thread dpdkThread stopping place) (hout : place .dpdk ≠ .out)
    (hended : place .dpdk ≠ .ended) (hq : q ≠ .out) (hending : q.ending = true → stopping = true) :
    Thread dpdkThread stopping (update place .dpdk q) := by
  have hdestructor : update place .dpdk q .destructor = place .destructor :=
    update_of_ne (fun h => by cases h) _ _
  have hcaller : ∀ k, update place .dpdk q (.caller k) = place (.caller k) :=
    fun k => update_caller (fun _ h => by cases h)
  refine ⟨?_, fun k _ => ?_, fun _ _ => ?_, ?_, ?_, ?_, ?_⟩
  · intro hd
    rw [hdestructor] at hd
    rw [h.started hd, update_self]
    exact iff_of_false hout hq
  · rwa [update_self]
  · rwa [update_self]
  · intro hd
    rw [hdestructor] at hd
    rcases h.destroyed hd with hdpdk | hdpdk
    · exact absurd hdpdk hout
    · exact absurd hdpdk hended
  · rw [hdestructor]
    exact h.stops
  · rw [hdestructor]
    exact h.stopped
  · rw [update_self]
    exact hending

theorem destructor {stopping' : Bool} (h : Thread dpdkThread stopping place)
    (hout : place .dpdk ≠ .out) (hended : place .destructor ≠ .ended) (hq : q ≠ .ended)
    (hstop : stopping = true → stopping' = true) (hstopped : q.stopped = stopping') :
    Thread dpdkThread stopping' (update place .destructor q) := by
  have hdpdk : update place .destructor q .dpdk = place .dpdk :=
    update_of_ne (fun h => by cases h) _ _
  refine ⟨?_, ?_, ?_, ?_, ?_, ?_, ?_⟩
  · intro _
    rw [hdpdk]
    exact h.started hended
  · intro k _
    rwa [hdpdk]
  · intro _ _
    rwa [hdpdk]
  · intro hd
    rw [update_self] at hd
    exact absurd hd hq
  · rw [update_self, hstopped]
    exact id
  · rw [update_self, hstopped]
    exact Or.inl
  · intro hd
    rw [hdpdk] at hd
    exact hstop (h.ending hd)

theorem destroy {dpdkThread' : Option Trid} (h : Thread dpdkThread stopping place)
    (hdpdk : place .dpdk = .out ∨ place .dpdk = .ended) :
    Thread dpdkThread' stopping (update place .destructor .ended) := by
  have hkept : update place .destructor .ended .dpdk = place .dpdk :=
    update_of_ne (fun h => by cases h) _ _
  have hcaller : ∀ k, update place .destructor .ended (.caller k) = place (.caller k) :=
    fun k => update_caller (fun _ h => by cases h)
  refine ⟨?_, ?_, ?_, ?_, ?_, ?_, ?_⟩
  · rw [update_self]
    exact fun heq => absurd rfl heq
  · simpa only [hkept, hcaller] using h.scope
  · rw [update_self]
    exact fun _ heq => absurd rfl heq
  · rw [hkept]
    exact fun _ => hdpdk
  · rw [update_self]
    exact fun heq => by cases heq
  · rw [update_self]
    exact fun _ => Or.inr rfl
  · rw [hkept]
    exact h.ending

end Thread

namespace ProbeQueue

theorem caller {ctxs' : K → Option (Context Trid Ctrlr Ns)} (h : ProbeQueue ctxs queue place)
    (hctxs : ∀ j, j ≠ k → ctxs' j = ctxs j) (hknows : Knows (ctxs' k) q)
    (hpending : ((∃ ctx, ctxs' k = some ctx ∧ ctx.done = false) ∧ q.pushed = true) ↔
      Pending ctxs place k) :
    ProbeQueue ctxs' queue (update place (.caller k) q) := by
  have hsame : ∀ j, Pending ctxs' (update place (.caller k) q) j ↔ Pending ctxs place j := by
    intro j
    rcases eq_or_ne j k with rfl | hj
    · rw [← hpending, Pending, update_self]
    · rw [Pending, Pending, hctxs j hj, update_of_ne (fun heq => hj (Party.caller.inj heq))]
  refine ⟨?_, ?_, ?_, ?_, ?_⟩
  · intro j
    rcases eq_or_ne j k with rfl | hj
    · rwa [update_self]
    · rw [update_of_ne (fun heq => hj (Party.caller.inj heq)), hctxs j hj]
      exact h.knows j
  · simp only [update_dpdk, hsame]
    exact h.queued
  · rw [update_dpdk]
    exact h.nodup
  · simp only [update_dpdk, hsame]
    exact h.probing
  · rw [update_dpdk]
    exact h.takes

theorem push (h : ProbeQueue ctxs queue place) (hat : place (.caller k) = .push)
    (htake : place .dpdk ≠ .take) :
    ProbeQueue ctxs (queue ++ [k]) (update place (.caller k) .notify) := by
  have hnot : ¬ Pending ctxs place k := by
    rintro ⟨-, hpushed⟩
    rw [hat] at hpushed
    cases hpushed
  have hpending : Pending ctxs (update place (.caller k) .notify) k := by
    have hknows := h.knows k
    rw [hat] at hknows
    obtain ⟨trid, hctx⟩ := hknows
    exact ⟨⟨_, hctx, rfl⟩, by rw [update_self]; rfl⟩
  have hsame : ∀ j, j ≠ k → (Pending ctxs (update place (.caller k) .notify) j ↔
      Pending ctxs place j) := by
    intro j hj
    rw [Pending, Pending, update_of_ne (fun heq => hj (Party.caller.inj heq))]
  refine ⟨?_, ?_, ?_, ?_, ?_⟩
  · intro j
    rcases eq_or_ne j k with rfl | hj
    · rw [update_self]
      trivial
    · rw [update_of_ne (fun heq => hj (Party.caller.inj heq))]
      exact h.knows j
  · intro hd j
    rw [update_dpdk] at hd ⊢
    rw [List.mem_append, List.mem_singleton]
    rcases eq_or_ne j k with rfl | hj
    · have hprobe : place .dpdk ≠ .probe j := fun heq => hnot (h.probing j heq)
      exact iff_of_true (Or.inr rfl) ⟨hpending, hprobe⟩
    · rw [hsame j hj, ← h.queued hd j]
      exact or_iff_left hj
  · intro hd
    rw [update_dpdk] at hd
    refine List.nodup_append.mpr ⟨h.nodup hd, List.pairwise_singleton .., ?_⟩
    rintro j hj j' hj' rfl
    obtain rfl := List.mem_singleton.mp hj'
    exact hnot ((h.queued hd j).mp hj).1
  · intro j hj
    rw [update_dpdk] at hj
    have hne : j ≠ k := by
      rintro rfl
      exact hnot (h.probing j hj)
    exact (hsame j hne).mpr (h.probing j hj)
  · intro hd
    rw [update_dpdk] at hd
    exact absurd hd htake

theorem destructor (h : ProbeQueue ctxs queue place) :
    ProbeQueue ctxs queue (update place .destructor q) := by
  have hdpdk : update place .destructor q .dpdk = place .dpdk :=
    update_of_ne (fun h => by cases h) _ _
  have hcaller : ∀ k, update place .destructor q (.caller k) = place (.caller k) :=
    fun k => update_caller (fun _ h => by cases h)
  refine ⟨?_, ?_, ?_, ?_, ?_⟩
  · simpa only [hcaller] using h.knows
  · simpa only [hdpdk, Pending, hcaller] using h.queued
  · rw [hdpdk]
    exact h.nodup
  · simpa only [hdpdk, Pending, hcaller] using h.probing
  · rw [hdpdk]
    exact h.takes

theorem dpdk (h : ProbeQueue ctxs queue place)
    (hdrained : (place .dpdk).drained = true → q.drained = true)
    (hprobe : ∀ k, place .dpdk ≠ .probe k) (hq : ∀ k, q ≠ .probe k)
    (htakes : q = .take → queue ≠ []) : ProbeQueue ctxs queue (update place .dpdk q) := by
  have hcaller : ∀ k, update place .dpdk q (.caller k) = place (.caller k) :=
    fun k => update_caller (fun _ h => by cases h)
  have hkept : q.drained = false → (place .dpdk).drained = false := by
    intro hd
    rw [← Bool.not_eq_true] at hd ⊢
    exact fun hd' => hd (hdrained hd')
  refine ⟨?_, ?_, ?_, ?_, ?_⟩
  · simpa only [hcaller] using h.knows
  · intro hd k
    rw [update_self] at hd ⊢
    rw [h.queued (hkept hd) k, Pending, Pending, hcaller]
    exact and_congr_right fun _ => iff_of_true (hprobe k) (hq k)
  · intro hd
    rw [update_self] at hd
    exact h.nodup (hkept hd)
  · intro k hk
    rw [update_self] at hk
    exact absurd hk (hq k)
  · rwa [update_self]

end ProbeQueue

namespace Naps

theorem caller_moves {ctxs' : K → Option (Context Trid Ctrlr Ns)}
    (h : Naps ctxs queue stopping place) (hctxs : ∀ j, j ≠ k → ctxs' j = ctxs j)
    (hnotify : place (.caller k) ≠ .notify)
    (hq : q = .asleep → ∀ ctx, ctxs' k = some ctx → ctx.done = false) :
    Naps ctxs' queue stopping (update place (.caller k) q) where
  caller := by
    intro j hj ctx hctx hdone
    rw [update_dpdk]
    rcases eq_or_ne j k with rfl | hne
    · rw [update_self] at hj
      rw [hq hj ctx hctx] at hdone
      cases hdone
    · rw [update_of_ne (fun heq => hne (Party.caller.inj heq))] at hj
      rw [hctxs j hne] at hctx
      exact h.caller j hj ctx hctx hdone
  sleeps := by
    rw [update_dpdk]
    exact h.sleeps
  dpdk := by
    rw [update_dpdk, update_destructor]
    intro hd
    rcases h.dpdk hd with hidle | ⟨j, hj⟩ | hstop
    · exact Or.inl hidle
    · have hne : j ≠ k := by
        rintro rfl
        exact hnotify hj
      refine Or.inr (Or.inl ⟨j, ?_⟩)
      rwa [update_of_ne (fun heq => hne (Party.caller.inj heq))]
    · exact Or.inr (Or.inr hstop)

theorem push (h : Naps ctxs queue stopping place) (hat : place (.caller k) = .push)
    (hsleep : place .dpdk ≠ .sleep) :
    Naps ctxs (queue ++ [k]) stopping (update place (.caller k) .notify) where
  caller := by
    intro j hj
    rw [update_dpdk]
    have hne : j ≠ k := by
      rintro rfl
      rw [update_self] at hj
      cases hj
    rw [update_of_ne (fun heq => hne (Party.caller.inj heq))] at hj
    exact h.caller j hj
  sleeps := by
    rw [update_dpdk]
    exact fun heq => absurd heq hsleep
  dpdk := fun _ => Or.inr (Or.inl ⟨k, update_self ..⟩)

theorem dpdk_moves {queue' : List K} (h : Naps ctxs queue stopping place)
    (hdone : place .dpdk ≠ .notifyDone) (hend : place .dpdk ≠ .notifyEnd)
    (hq : q = .sleep ∨ q = .asleep → queue' = [] ∧ stopping = false) :
    Naps ctxs queue' stopping (update place .dpdk q) where
  caller := by
    intro j hj ctx hctx hfin
    rw [update_caller (fun _ heq => by cases heq)] at hj
    rcases h.caller j hj ctx hctx hfin with hat | hat
    · exact absurd hat hdone
    · exact absurd hat hend
  sleeps := by
    rw [update_self]
    exact fun heq => hq (Or.inl heq)
  dpdk := by
    rw [update_self]
    exact fun heq => Or.inl (hq (Or.inr heq))

theorem destructor_moves (h : Naps ctxs queue stopping place)
    (hnotify : place .destructor ≠ .notifyStop) :
    Naps ctxs queue stopping (update place .destructor q) := by
  have hdpdk : update place .destructor q .dpdk = place .dpdk :=
    update_of_ne (fun heq => by cases heq) _ _
  have hcaller : ∀ k, update place .destructor q (.caller k) = place (.caller k) :=
    fun k => update_caller (fun _ heq => by cases heq)
  refine ⟨?_, ?_, ?_⟩
  · simpa only [hdpdk, hcaller] using h.caller
  · rw [hdpdk]
    exact h.sleeps
  · rw [hdpdk]
    intro hd
    rcases h.dpdk hd with hidle | ⟨k, hk⟩ | hstop
    · exact Or.inl hidle
    · exact Or.inr (Or.inl ⟨k, by rwa [hcaller]⟩)
    · exact absurd hstop hnotify

theorem stops (h : Naps ctxs queue stopping place) (hsleep : place .dpdk ≠ .sleep) :
    Naps ctxs queue true (update place .destructor .notifyStop) := by
  have hdpdk : update place .destructor .notifyStop .dpdk = place .dpdk :=
    update_of_ne (fun heq => by cases heq) _ _
  have hcaller : ∀ k, update place .destructor .notifyStop (.caller k) = place (.caller k) :=
    fun k => update_caller (fun _ heq => by cases heq)
  refine ⟨?_, ?_, fun _ => Or.inr (Or.inr (update_self ..))⟩
  · simpa only [hdpdk, hcaller] using h.caller
  · rw [hdpdk]
    exact fun heq => absurd heq hsleep

theorem signals (hq : q = .notifyDone ∨ q = .notifyEnd) :
    Naps ctxs queue stopping (update place .dpdk q) where
  caller := by
    rw [update_self]
    exact fun _ _ _ _ _ => hq
  sleeps := by
    rw [update_self]
    rintro rfl
    rcases hq with heq | heq <;> cases heq
  dpdk := by
    rw [update_self]
    rintro rfl
    rcases hq with heq | heq <;> cases heq

omit [DecidableEq K] in
theorem of_awake (h : ∀ p, place p ≠ .asleep)
    (hsleeps : place .dpdk = .sleep → queue = [] ∧ stopping = false) :
    Naps ctxs queue stopping place where
  caller := fun k hk => absurd hk (h (.caller k))
  sleeps := hsleeps
  dpdk := fun hd => absurd hd (h .dpdk)

end Naps

variable [DecidableEq Trid]

/-- The places after `notify_all`. -/
abbrev woken (place : Party K → Point K Trid) : Party K → Point K Trid :=
  Monitor.notifyAll .asleep .relock place

theorem woken_ne (u : Party K) : woken place u ≠ .asleep :=
  notifyAll_ne_asleep (fun h => by cases h)

theorem woken_of_ne (h : place p ≠ .asleep) : woken place p = place p := notifyAll_of_ne h

theorem woken_update_ne (hq : q ≠ .asleep) (u : Party K) :
    update (woken place) p q u ≠ .asleep := by
  rcases eq_or_ne u p with rfl | hu
  · rwa [update_self]
  · rw [update_of_ne hu]
    exact woken_ne u

theorem woken_same {β : Type} (f : Point K Trid → β) (hf : f .relock = f .asleep) (u : Party K) :
    f (woken place u) = f (place u) := by
  unfold woken Monitor.notifyAll
  split
  · next hat => rw [hat, hf]
  · rfl

theorem woken_iff (hq : q ≠ .asleep) (hq' : q ≠ .relock) (u : Party K) :
    woken place u = q ↔ place u = q := by
  constructor
  · exact of_notifyAll hq'
  · intro h
    rw [woken_of_ne (fun heq => hq (h.symm.trans heq)), h]

theorem Locks.woken (h : Locks queueLock lock ctxs place) :
    Locks queueLock lock ctxs (woken place) where
  places := by
    intro u
    rcases eq_or_ne (place u) .asleep with hat | hne
    · have hof := h.places u
      rw [hat] at hof
      have heq : Nvme.woken place u = .relock := if_pos hat
      rw [heq]
      cases u <;> exact hof
    · rw [woken_of_ne hne]
      exact h.places u
  queue := h.queue.notifyAll (fun h => by cases h) (fun h => by cases h)
  call := by
    intro k
    have hsame : (Nvme.woken place (.caller k)).inCall = (place (.caller k)).inCall :=
      woken_same Point.inCall rfl _
    exact (h.call k).trans (Iff.of_eq (congrArg (· = true) hsame.symm))
  scope := by
    intro k
    rw [h.scope k, woken_same Point.inScope rfl]

theorem Thread.woken (h : Thread dpdkThread stopping place) :
    Thread dpdkThread stopping (woken place) where
  started := by
    rw [ne_eq, woken_iff (fun h => by cases h) (fun h => by cases h),
      woken_iff (fun h => by cases h) (fun h => by cases h)]
    exact h.started
  scope := by
    intro k
    rw [ne_eq, woken_iff (fun h => by cases h) (fun h => by cases h),
      woken_same Point.inScope rfl]
    exact h.scope k
  destroys := by
    simp only [ne_eq, woken_iff (q := .out) (fun h => by cases h) (fun h => by cases h),
      woken_iff (q := .ended) (fun h => by cases h) (fun h => by cases h)]
    exact h.destroys
  destroyed := by
    simp only [woken_iff (q := .out) (fun h => by cases h) (fun h => by cases h),
      woken_iff (q := .ended) (fun h => by cases h) (fun h => by cases h)]
    exact h.destroyed
  stops := by
    rw [woken_same Point.stopped rfl]
    exact h.stops
  stopped := by
    rw [woken_same Point.stopped rfl, woken_iff (fun h => by cases h) (fun h => by cases h)]
    exact h.stopped
  ending := by
    rw [woken_same Point.ending rfl]
    exact h.ending

theorem ProbeQueue.woken (h : ProbeQueue ctxs queue place) : ProbeQueue ctxs queue (woken place) where
  knows := by
    intro k
    rw [woken_same (Knows (ctxs k)) rfl]
    exact h.knows k
  queued := by
    intro hd k
    rw [woken_same Point.drained rfl] at hd
    rw [h.queued hd k, Pending, Pending, woken_same Point.pushed rfl, ne_eq, ne_eq,
      woken_iff (fun h => by cases h) (fun h => by cases h)]
  nodup := by
    rw [woken_same Point.drained rfl]
    exact h.nodup
  probing := by
    intro k hk
    rw [woken_iff (fun h => by cases h) (fun h => by cases h)] at hk
    rw [Pending, woken_same Point.pushed rfl]
    exact h.probing k hk
  takes := by
    rw [woken_iff (fun h => by cases h) (fun h => by cases h)]
    exact h.takes

end Moves

end LockdepSpdk.Nvme
