import LockdepSpdk.Nvme.Probe
import LockdepSpdk.Nvme.Waiting

/-!
# Every step keeps what the threads know

The invariants of the manager hold in every run, and no thread trips over a
`ProbeContext` that is gone.
-/

namespace LockdepSpdk.Nvme

set_option autoImplicit false

open Function Monitor Transition

section Callers
variable {K Trid Ctrlr Ns : Type} [DecidableEq K] {sp : Spdk Trid Ctrlr Ns}
  {s s' : Live K Trid Ctrlr Ns} {k : K} {p : Party K} {q : Point K Trid}

theorem Live.acquire_ok (h : s.acquire p q = .ok s') :
    s.queueLock = none ∧ s' = { s with queueLock := some p, point := update s.point p q } := by
  unfold Live.acquire at h
  split at h
  · next hfree => exact ⟨hfree, (Except.ok.inj h).symm⟩
  · cases h

namespace Live.Sound

theorem caller (h : s.Sound) {o : Option (Party K)} (hof : q.of (.caller k) = true)
    (hqueue : Guards (fun q => q.inQueue = true) o (update s.point (.caller k) q))
    (hcall : q.inCall = (s.point (.caller k)).inCall)
    (hscope : q.inScope = (s.point (.caller k)).inScope) (hknows : Knows (s.ctxs k) q)
    (hpushed : ∀ ctx, s.ctxs k = some ctx → ctx.done = false →
      q.pushed = (s.point (.caller k)).pushed)
    (hnotify : s.point (.caller k) ≠ .notify)
    (hasleep : q = .asleep → ∀ ctx, s.ctxs k = some ctx → ctx.done = false) :
    ({ s with queueLock := o, point := update s.point (.caller k) q } :
      Live K Trid Ctrlr Ns).Sound where
  locks := h.locks.caller hof hqueue hcall (fun _ _ => rfl) (by rw [hscope]; exact h.locks.scope k)
  thread := h.thread.caller (by rw [hscope]; exact h.thread.scope k)
  queue := by
    refine h.queue.caller (fun _ _ => rfl) hknows ?_
    refine and_congr_right ?_
    rintro ⟨ctx, hctx, hdone⟩
    rw [hpushed ctx hctx hdone]
  naps := h.naps.caller_moves (fun _ _ => rfl) hnotify hasleep

theorem takesLock (h : s.Sound) {trid : Trid} (hat : s.point (.caller k) = .lock trid)
    (hfree : s.lock = none) :
    ({ s.goto (.caller k) (.look trid) with lock := some k } : Live K Trid Ctrlr Ns).Sound where
  locks :=
    { places := places_update h.locks.places rfl
      queue := h.locks.queue.keep (by rw [hat]; exact Iff.rfl)
      call := by
        change Guards _ (some k) fun j => update s.point (.caller k) (.look trid) (.caller j)
        rw [callers_update]
        have hcall := h.locks.call
        rw [hfree] at hcall
        exact hcall.acquire rfl
      scope := by
        intro j
        change _ = (update s.point (.caller k) (.look trid) (.caller j)).inScope
        rcases eq_or_ne j k with rfl | hj
        · rw [update_self]
          exact (h.locks.scope j).trans (by rw [hat]; rfl)
        · rw [update_of_ne (fun heq => hj (Party.caller.inj heq))]
          exact h.locks.scope j }
  thread := h.thread.caller (fun heq => by cases heq)
  queue := h.queue.caller (fun _ _ => rfl) trivial (by
    rw [Pending, hat]
    exact Iff.rfl)
  naps := h.naps.caller_moves (fun _ _ => rfl) (by rw [hat]; exact fun heq => by cases heq)
    (fun heq => by cases heq)

theorem returns (h : s.Sound) (hcall : (s.point (.caller k)).inCall = true)
    (hqueue : (s.point (.caller k)).inQueue = false)
    (hpushed : (s.point (.caller k)).pushed = false)
    {r : List (Trid × Driver Trid Ctrlr Ns)} :
    ({ s.goto (.caller k) .out with
      lock := none, ctxs := update s.ctxs k none, returned := r } :
        Live K Trid Ctrlr Ns).Sound where
  locks := h.locks.returns hcall hqueue
  thread := h.thread.caller (fun heq => by cases heq)
  queue := by
    refine h.queue.caller (fun j hj => update_of_ne hj _ _) trivial ?_
    refine iff_of_false (fun heq => by cases heq.2) ?_
    rintro ⟨-, heq⟩
    rw [hpushed] at heq
    cases heq
  naps := by
    refine h.naps.caller_moves (fun j hj => update_of_ne hj _ _) ?_ (fun heq => by cases heq)
    intro heq
    rw [heq] at hpushed
    cases hpushed

theorem starts (h : s.Sound) (hout : s.point .dpdk = .out) (hd : s.point .destructor ≠ .ended)
    (trid : Trid) : ({ s with dpdkThread := some trid }.goto .dpdk .init).Sound where
  locks := h.locks.other (fun _ heq => by cases heq) rfl
    (h.locks.queue.keep (by rw [hout]; exact Iff.rfl)) (fun _ => rfl)
  thread := by
    have hdestructor : update s.point .dpdk .init .destructor = s.point .destructor :=
      update_of_ne (fun heq => by cases heq) _ _
    refine ⟨fun _ => ?_, fun _ _ => ?_, fun _ _ => ?_, fun hended => ?_, ?_, ?_, ?_⟩
    · change some trid = none ↔ update s.point .dpdk .init .dpdk = .out
      rw [update_self]
      exact iff_of_false (fun heq => by cases heq) (fun heq => by cases heq)
    · change update s.point .dpdk .init .dpdk ≠ .out
      rw [update_self]
      exact fun heq => by cases heq
    · change update s.point .dpdk .init .dpdk ≠ .out
      rw [update_self]
      exact fun heq => by cases heq
    · exact absurd (hdestructor.symm.trans hended) hd
    · exact fun hstops => h.thread.stops (by rwa [← hdestructor])
    · change s.stopping = true → (update s.point .dpdk .init .destructor).stopped = true ∨
        update s.point .dpdk .init .destructor = .ended
      rw [hdestructor]
      exact h.thread.stopped
    · change (update s.point .dpdk .init .dpdk).ending = true → _
      rw [update_self]
      exact fun heq => by cases heq
  queue := h.queue.dpdk (by rw [hout]; exact fun heq => by cases heq)
    (by rw [hout]; exact fun _ heq => by cases heq) (fun _ heq => by cases heq)
    (fun heq => by cases heq)
  naps := h.naps.dpdk_moves (by rw [hout]; exact fun heq => by cases heq)
    (by rw [hout]; exact fun heq => by cases heq)
    (fun heq => by rcases heq with heq | heq <;> cases heq)

theorem enters (h : s.Sound) {trid : Trid} (hat : s.point (.caller k) = .look trid)
    (hout : s.point .dpdk ≠ .out) :
    ({ s with ctxs := update s.ctxs k (some ⟨trid, none, false⟩) }.goto
      (.caller k) .lockQueue).Sound where
  locks := h.locks.caller rfl (h.locks.queue.keep (by rw [hat]; exact Iff.rfl)) (by rw [hat]; rfl)
    (fun j hj => update_of_ne hj _ _) (congrArg Option.isSome (update_self k _ s.ctxs))
  thread := h.thread.caller (fun _ => hout)
  queue := by
    refine h.queue.caller (fun j hj => update_of_ne hj _ _) ⟨trid, update_self ..⟩ ?_
    refine iff_of_false (fun heq => by cases heq.2) ?_
    rintro ⟨-, heq⟩
    rw [hat] at heq
    cases heq
  naps := h.naps.caller_moves (fun j hj => update_of_ne hj _ _)
    (by rw [hat]; exact fun heq => by cases heq) (fun heq => by cases heq)

theorem look (h : s.Sound) {trid : Trid} (hat : s.point (.caller k) = .look trid)
    (hd : s.point .destructor ≠ .ended) : (stepLook sp s k trid).Sound := by
  have hnone : s.ctxs k = none := by
    have hscope := h.locks.scope k
    rw [hat] at hscope
    exact Option.not_isSome_iff_eq_none.mp (by rw [hscope]; exact fun heq => by cases heq)
  have hout : ∀ r, ({ s.goto (.caller k) .out with lock := none, returned := r } :
      Live K Trid Ctrlr Ns).Sound := by
    intro r
    have hreturns := h.returns (k := k) (by rw [hat]; rfl) (by rw [hat]; rfl) (by rw [hat]; rfl)
      (r := r)
    rwa [show update s.ctxs k none = s.ctxs by rw [← hnone]; exact update_eq_self k s.ctxs]
      at hreturns
  unfold stepLook
  split
  · exact hout _
  · split
    · exact hout _
    · split
      · next hthread =>
        have hdpdk : s.point .dpdk = .out := (h.thread.started hd).mp hthread
        have hkept : update s.point .dpdk .init (.caller k) = .look trid := by
          rw [update_caller (fun _ heq => by cases heq), hat]
        exact (h.starts hdpdk hd trid).enters hkept
          (by
            change update s.point .dpdk .init .dpdk ≠ .out
            rw [update_self]
            exact fun heq => by cases heq)
      · next captured hthread =>
        refine h.enters hat fun hdpdk => ?_
        rw [(h.thread.started hd).mpr hdpdk] at hthread
        cases hthread

theorem pushes (h : s.Sound) (hat : s.point (.caller k) = .push) :
    ({ s.goto (.caller k) .notify with probeQueue := s.probeQueue ++ [k] } :
      Live K Trid Ctrlr Ns).Sound := by
  have hinside : (s.point (.caller k)).inQueue = true := by
    rw [hat]
    rfl
  have houtside : (s.point .dpdk).inQueue ≠ true := by
    intro hdpdk
    cases h.locks.queue.exclusive hinside hdpdk
  exact {
    locks := h.locks.caller rfl (h.locks.queue.keep (by rw [hat]; exact Iff.rfl))
      (by rw [hat]; rfl) (fun _ _ => rfl) ((h.locks.scope k).trans (by rw [hat]; rfl))
    thread := h.thread.caller (fun _ => h.thread.scope k (by rw [hat]; rfl))
    queue := h.queue.push hat (fun heq => houtside (by rw [heq]; rfl))
    naps := h.naps.push hat (fun heq => houtside (by rw [heq]; rfl)) }

variable [DecidableEq Trid]

theorem notifies (h : s.Sound) (hat : s.point (.caller k) = .notify) :
    (s.notifyAll (.caller k) .test).Sound where
  locks := by
    have hwoken : woken s.point (.caller k) = .notify :=
      (woken_iff (fun heq => by cases heq) (fun heq => by cases heq) _).mpr hat
    refine h.locks.woken.caller rfl (h.locks.woken.queue.keep ?_) ?_ (fun _ _ => rfl)
      ((h.locks.scope k).trans (by rw [hat]; rfl))
    · rw [hwoken]
      exact Iff.rfl
    · rw [hwoken]
      rfl
  thread := h.thread.woken.caller (fun _ => by
    rw [ne_eq, woken_iff (fun heq => by cases heq) (fun heq => by cases heq)]
    exact h.thread.scope k (by rw [hat]; rfl))
  queue := by
    refine h.queue.woken.caller (fun _ _ => rfl) trivial ?_
    rw [Pending, woken_same Point.pushed rfl, hat]
    exact Iff.rfl
  naps := by
    refine Naps.of_awake (woken_update_ne (fun heq => by cases heq)) ?_
    change update (woken s.point) (.caller k) .test .dpdk = .sleep → _
    rw [update_dpdk, woken_iff (fun heq => by cases heq) (fun heq => by cases heq)]
    exact h.naps.sleeps

theorem stepCaller (h : s.Sound) (hd : s.point .destructor ≠ .ended)
    (hat : s.point (.caller k) = q) (hs : stepCaller sp s k q = .ok s') : s'.Sound := by
  have hknows := h.queue.knows k
  rw [hat] at hknows
  cases q with
  | lock trid =>
    simp only [Nvme.stepCaller] at hs
    split at hs
    · next hfree =>
      obtain rfl := Except.ok.inj hs
      exact h.takesLock hat hfree
    · cases hs
  | look trid =>
    obtain rfl := Except.ok.inj hs
    exact h.look hat hd
  | lockQueue =>
    obtain ⟨hfree, rfl⟩ := acquire_ok hs
    have hqueue := h.locks.queue
    rw [hfree] at hqueue
    exact h.caller rfl (hqueue.acquire rfl) (by rw [hat]; rfl) (by rw [hat]; rfl) hknows
      (fun _ _ _ => by rw [hat]; rfl) (by rw [hat]; exact fun heq => by cases heq)
      (fun heq => by cases heq)
  | push =>
    obtain rfl := Except.ok.inj hs
    exact h.pushes hat
  | notify =>
    obtain rfl := Except.ok.inj hs
    exact h.notifies hat
  | test =>
    simp only [Nvme.stepCaller] at hs
    split at hs
    · cases hs
    · next ctx hctx =>
      obtain rfl := Except.ok.inj hs
      cases hdone : ctx.done with
      | true =>
        rw [if_pos rfl]
        refine h.caller rfl (h.locks.queue.keep (by rw [hat]; exact Iff.rfl)) (by rw [hat]; rfl)
          (by rw [hat]; rfl) ?_ ?_ (by rw [hat]; exact fun heq => by cases heq)
          (fun heq => by cases heq)
        · intro x hx
          rw [hctx] at hx
          rwa [← Option.some.inj hx]
        · intro x hx hnot
          rw [hctx] at hx
          rw [← Option.some.inj hx, hdone] at hnot
          cases hnot
      | false =>
        rw [if_neg (fun heq => by cases heq)]
        refine h.caller rfl (h.locks.queue.keep (by rw [hat]; exact Iff.rfl)) (by rw [hat]; rfl)
          (by rw [hat]; rfl) ?_ (fun _ _ _ => by rw [hat]; rfl)
          (by rw [hat]; exact fun heq => by cases heq) (fun heq => by cases heq)
        intro x hx
        rw [hctx] at hx
        rwa [← Option.some.inj hx]
  | sleep =>
    obtain rfl := Except.ok.inj hs
    exact h.caller rfl (h.locks.queue.release (by rw [hat]; rfl) (fun heq => by cases heq))
      (by rw [hat]; rfl) (by rw [hat]; rfl) trivial (fun _ _ _ => by rw [hat]; rfl)
      (by rw [hat]; exact fun heq => by cases heq) (fun _ => hknows)
  | relock =>
    obtain ⟨hfree, rfl⟩ := acquire_ok hs
    have hqueue := h.locks.queue
    rw [hfree] at hqueue
    exact h.caller rfl (hqueue.acquire rfl) (by rw [hat]; rfl) (by rw [hat]; rfl) trivial
      (fun _ _ _ => by rw [hat]; rfl) (by rw [hat]; exact fun heq => by cases heq)
      (fun heq => by cases heq)
  | unlockQueue =>
    obtain rfl := Except.ok.inj hs
    exact h.caller rfl (h.locks.queue.release (by rw [hat]; rfl) (fun heq => by cases heq))
      (by rw [hat]; rfl) (by rw [hat]; rfl) hknows (fun _ _ _ => by rw [hat]; rfl)
      (by rw [hat]; exact fun heq => by cases heq) (fun heq => by cases heq)
  | reply =>
    have hreturns : ∀ r, ({ s.goto (.caller k) .out with
        lock := none, ctxs := update s.ctxs k none, returned := r } :
          Live K Trid Ctrlr Ns).Sound :=
      fun r => h.returns (by rw [hat]; rfl) (by rw [hat]; rfl) (by rw [hat]; rfl)
    simp only [Nvme.stepCaller] at hs
    split at hs
    · cases hs
    · split at hs
      · obtain rfl := Except.ok.inj hs
        exact hreturns _
      · obtain rfl := Except.ok.inj hs
        exact hreturns _
  | _ => cases hs

end Live.Sound

end Callers

section Dpdk
variable {K Trid Ctrlr Ns : Type} [DecidableEq K] {ctxs ctxs' : K → Option (Context Trid Ctrlr Ns)}
  {queue : List K} {stopping : Bool} {place : Party K → Point K Trid} {k : K}

theorem drainQueue_ok {l : List K} (h : drainQueue ctxs l = .ok ctxs') :
    (∀ j, j ∉ l → ctxs' j = ctxs j) ∧ (∀ j, (ctxs' j).isSome = (ctxs j).isSome) ∧
      ∀ j ∈ l, ∀ ctx, ctxs' j = some ctx → ctx.done = true := by
  induction l generalizing ctxs with
  | nil =>
    obtain rfl := Except.ok.inj h
    exact ⟨fun _ _ => rfl, fun _ => rfl, fun _ hj => (by cases hj)⟩
  | cons k rest ih =>
    simp only [drainQueue] at h
    split at h
    · cases h
    · next ctx hctx =>
      obtain ⟨hother, hsome, hdone⟩ := ih h
      refine ⟨?_, ?_, ?_⟩
      · intro j hj
        rw [List.mem_cons, not_or] at hj
        rw [hother j hj.2, update_of_ne hj.1]
      · intro j
        rw [hsome j]
        rcases eq_or_ne j k with rfl | hne
        · rw [update_self, hctx]
          rfl
        · rw [update_of_ne hne]
      · intro j hj x hx
        by_cases hrest : j ∈ rest
        · exact hdone j hrest x hx
        · rcases List.mem_cons.mp hj with rfl | hmem
          · rw [hother j hrest, update_self] at hx
            rw [← Option.some.inj hx]
          · exact absurd hmem hrest

theorem drainQueue_total (ctxs : K → Option (Context Trid Ctrlr Ns)) (l : List K)
    (h : ∀ k ∈ l, (ctxs k).isSome = true) :
    ∃ ctxs', drainQueue ctxs l = .ok ctxs' := by
  induction l generalizing ctxs with
  | nil => exact ⟨ctxs, rfl⟩
  | cons k rest ih =>
    obtain ⟨hk, hrest⟩ := List.forall_mem_cons.mp h
    obtain ⟨ctx, hctx⟩ := Option.isSome_iff_exists.mp hk
    simp only [drainQueue, hctx]
    refine ih _ fun j hj => ?_
    rcases eq_or_ne j k with rfl | hne
    · rw [update_self]
      rfl
    · rw [update_of_ne hne]
      exact hrest j hj

namespace ProbeQueue

theorem take {rest : List K} (h : ProbeQueue ctxs (k :: rest) place) (hat : place .dpdk = .take) :
    ProbeQueue ctxs rest (update place .dpdk (.probe k)) := by
  have hcaller : ∀ j, update place .dpdk (.probe k) (.caller j) = place (.caller j) :=
    fun j => update_caller (fun _ heq => by cases heq)
  have hlive : (place .dpdk).drained = false := by
    rw [hat]
    rfl
  have hqueued : ∀ j, j ∈ k :: rest ↔ Pending ctxs place j := by
    intro j
    rw [h.queued hlive j, hat]
    exact and_iff_left (fun heq => by cases heq)
  obtain ⟨hk, hrest⟩ := List.nodup_cons.mp (h.nodup hlive)
  refine ⟨?_, ?_, fun _ => hrest, ?_, ?_⟩
  · simpa only [hcaller] using h.knows
  · intro _ j
    rw [update_self, Pending, hcaller, ← Pending, ← hqueued j, List.mem_cons]
    rcases eq_or_ne j k with rfl | hj
    · exact iff_of_false hk (fun heq => heq.2 rfl)
    · constructor
      · exact fun hmem => ⟨Or.inr hmem, fun heq => hj (Point.probe.inj heq).symm⟩
      · exact fun hmem => hmem.1.resolve_left hj
  · intro j hj
    rw [update_self] at hj
    obtain rfl := Point.probe.inj hj
    rw [Pending, hcaller]
    exact (hqueued k).mp List.mem_cons_self
  · intro heq
    rw [update_self] at heq
    cases heq

theorem served (h : ProbeQueue ctxs queue place) (hat : place .dpdk = .probe k)
    {ctx : Context Trid Ctrlr Ns} (hdone : ctx.done = true)
    (hsleep : place (.caller k) ≠ .sleep) :
    ProbeQueue (update ctxs k (some ctx)) queue (update place .dpdk .notifyDone) := by
  have hcaller : ∀ j, update place .dpdk .notifyDone (.caller j) = place (.caller j) :=
    fun j => update_caller (fun _ heq => by cases heq)
  have hlive : (place .dpdk).drained = false := by
    rw [hat]
    rfl
  refine ⟨?_, ?_, ?_, ?_, ?_⟩
  · intro j
    rw [hcaller]
    rcases eq_or_ne j k with rfl | hj
    · obtain ⟨-, hpushed⟩ := h.probing j hat
      rw [update_self]
      cases hplace : place (.caller j) with
      | sleep => exact absurd hplace hsleep
      | lockQueue | push =>
        rw [hplace] at hpushed
        cases hpushed
      | unlockQueue | reply =>
        intro x hx
        rwa [← Option.some.inj hx]
      | _ => trivial
    · rw [update_of_ne hj]
      exact h.knows j
  · intro _ j
    rw [update_self, h.queued hlive j, hat, Pending, Pending, hcaller]
    rcases eq_or_ne j k with rfl | hj
    · refine iff_of_false (fun heq => heq.2 rfl) ?_
      rintro ⟨⟨⟨x, hx, hnot⟩, -⟩, -⟩
      rw [update_self] at hx
      rw [← Option.some.inj hx, hdone] at hnot
      cases hnot
    · rw [update_of_ne hj]
      exact and_congr_right fun _ =>
        iff_of_true (fun heq => hj (Point.probe.inj heq).symm) (fun heq => by cases heq)
  · exact fun _ => h.nodup hlive
  · intro j hj
    rw [update_self] at hj
    cases hj
  · intro heq
    rw [update_self] at heq
    cases heq

theorem drain (h : ProbeQueue ctxs queue place) (hat : place .dpdk = .drain)
    (hdrain : drainQueue ctxs queue = .ok ctxs') (hsleep : ∀ k, place (.caller k) ≠ .sleep) :
    ProbeQueue ctxs' queue (update place .dpdk .notifyEnd) := by
  have hcaller : ∀ j, update place .dpdk .notifyEnd (.caller j) = place (.caller j) :=
    fun j => update_caller (fun _ heq => by cases heq)
  have hlive : (place .dpdk).drained = false := by
    rw [hat]
    rfl
  obtain ⟨hother, -, hdone⟩ := drainQueue_ok hdrain
  refine ⟨?_, ?_, ?_, ?_, ?_⟩
  · intro j
    rw [hcaller]
    by_cases hj : j ∈ queue
    · obtain ⟨⟨-, hpushed⟩, -⟩ := (h.queued hlive j).mp hj
      cases hplace : place (.caller j) with
      | sleep => exact absurd hplace (hsleep j)
      | lockQueue | push =>
        rw [hplace] at hpushed
        cases hpushed
      | unlockQueue | reply => exact hdone j hj
      | _ => trivial
    · rw [hother j hj]
      exact h.knows j
  · intro heq
    rw [update_self] at heq
    cases heq
  · intro heq
    rw [update_self] at heq
    cases heq
  · intro j hj
    rw [update_self] at hj
    cases hj
  · intro heq
    rw [update_self] at heq
    cases heq

end ProbeQueue

def Point.plain {Trid : Type} : Point K Trid → Bool
  | .init | .start | .test | .sleep | .asleep | .relock | .take | .drain | .unlockEnd => true
  | _ => false

namespace Live.Sound
variable {s s' : Live K Trid Ctrlr Ns} {sp : Spdk Trid Ctrlr Ns} {q : Point K Trid}

theorem dpdk (h : s.Sound) {o : Option (Party K)} (hof : q.of (.dpdk : Party K) = true)
    (hqueue : Guards (fun q => q.inQueue = true) o (update s.point .dpdk q))
    (hfrom : (s.point .dpdk).plain = true) (hq : q.plain = true ∨ q = .ended)
    (hending : q.ending = true → s.stopping = true)
    (hdrained : (s.point .dpdk).drained = true → q.drained = true)
    (htakes : q = .take → s.probeQueue ≠ [])
    (hnaps : q = .sleep ∨ q = .asleep → s.probeQueue = [] ∧ s.stopping = false) :
    ({ s with queueLock := o, point := update s.point .dpdk q } : Live K Trid Ctrlr Ns).Sound := by
  have hne : ∀ r : Point K Trid, r.plain = false → s.point .dpdk ≠ r := by
    intro r hr heq
    rw [heq, hr] at hfrom
    cases hfrom
  have hqne : ∀ r : Point K Trid, r.plain = false → r ≠ .ended → q ≠ r := by
    rintro r hr hended rfl
    rcases hq with hplain | heq
    · rw [hr] at hplain
      cases hplain
    · exact hended heq
  exact {
    locks := h.locks.other (fun _ heq => by cases heq) hof hqueue (fun _ => rfl)
    thread := h.thread.dpdk (hne _ rfl) (hne _ rfl) (hqne _ rfl (fun heq => by cases heq)) hending
    queue := h.queue.dpdk hdrained (fun _ => hne _ rfl)
      (fun _ => hqne _ rfl (fun heq => by cases heq)) htakes
    naps := h.naps.dpdk_moves (hne _ rfl) (hne _ rfl) hnaps }

theorem dpdkTests (h : s.Sound) (hfree : s.queueLock = none)
    (hat : s.point .dpdk = .start ∨ s.point .dpdk = .relock) :
    ({ s with queueLock := some .dpdk, point := update s.point .dpdk .test } :
      Live K Trid Ctrlr Ns).Sound := by
  have hqueue := h.locks.queue
  rw [hfree] at hqueue
  refine h.dpdk rfl (hqueue.acquire rfl) ?_ (Or.inl rfl) (fun heq => by cases heq) ?_
    (fun heq => by cases heq) (fun heq => by rcases heq with heq | heq <;> cases heq)
  · rcases hat with hat | hat <;> rw [hat] <;> rfl
  · rcases hat with hat | hat <;> rw [hat] <;> exact fun heq => by cases heq

omit [DecidableEq K] in
/-- A call that sleeps does not hold `probe_queue_lock`, which the thread has. -/
theorem not_sleeping (h : s.Sound) (hin : (s.point .dpdk).inQueue = true) (k : K) :
    s.point (.caller k) ≠ .sleep := by
  intro heq
  have hcall : (s.point (.caller k)).inQueue = true := by
    rw [heq]
    rfl
  cases h.locks.queue.exclusive hcall hin

theorem takes (h : s.Sound) (hat : s.point .dpdk = .take) {k : K} {rest : List K}
    (hqueue : s.probeQueue = k :: rest) :
    ({ s.goto .dpdk (.probe k) with probeQueue := rest } : Live K Trid Ctrlr Ns).Sound where
  locks := h.locks.other (fun _ heq => by cases heq) rfl
    (h.locks.queue.keep (by rw [hat]; exact Iff.rfl)) (fun _ => rfl)
  thread := h.thread.dpdk (by rw [hat]; exact fun heq => by cases heq)
    (by rw [hat]; exact fun heq => by cases heq) (fun heq => by cases heq) (fun heq => by cases heq)
  queue := by
    have hq := h.queue
    rw [hqueue] at hq
    exact hq.take hat
  naps := by
    refine h.naps.dpdk_moves ?_ ?_ ?_
    · rw [hat]
      exact fun heq => by cases heq
    · rw [hat]
      exact fun heq => by cases heq
    · exact fun heq => by rcases heq with heq | heq <;> cases heq

theorem probed (h : s.Sound) {k : K} (hat : s.point .dpdk = .probe k)
    {ctx : Context Trid Ctrlr Ns} (hdone : ctx.done = true) {ds : List (Driver Trid Ctrlr Ns)} :
    ({ s.goto .dpdk .notifyDone with
      sharedDriverDatas := ds, ctxs := update s.ctxs k (some ctx) } :
        Live K Trid Ctrlr Ns).Sound where
  locks := by
    refine h.locks.other (fun _ heq => by cases heq) rfl
      (h.locks.queue.keep (by rw [hat]; exact Iff.rfl)) fun j => ?_
    change (update s.ctxs k (some ctx) j).isSome = (s.ctxs j).isSome
    rcases eq_or_ne j k with rfl | hj
    · obtain ⟨⟨x, hx, -⟩, -⟩ := h.queue.probing j hat
      rw [update_self, hx]
      rfl
    · rw [update_of_ne hj]
  thread := h.thread.dpdk (by rw [hat]; exact fun heq => by cases heq)
    (by rw [hat]; exact fun heq => by cases heq) (fun heq => by cases heq) (fun heq => by cases heq)
  queue := h.queue.served hat hdone (h.not_sleeping (by rw [hat]; rfl) k)
  naps := Naps.signals (Or.inl rfl)

theorem drains (h : s.Sound) (hat : s.point .dpdk = .drain)
    (hdrain : drainQueue s.ctxs s.probeQueue = .ok ctxs') :
    ({ s.goto .dpdk .notifyEnd with ctxs := ctxs' } : Live K Trid Ctrlr Ns).Sound where
  locks := h.locks.other (fun _ heq => by cases heq) rfl
    (h.locks.queue.keep (by rw [hat]; exact Iff.rfl)) (drainQueue_ok hdrain).2.1
  thread := h.thread.dpdk (by rw [hat]; exact fun heq => by cases heq)
    (by rw [hat]; exact fun heq => by cases heq) (fun heq => by cases heq)
    (fun _ => h.thread.ending (by rw [hat]; rfl))
  queue := h.queue.drain hat hdrain (h.not_sleeping (by rw [hat]; rfl))
  naps := Naps.signals (Or.inr rfl)

variable [DecidableEq Trid]

theorem dpdkNotifies {r : Point K Trid} (h : s.Sound) (hat : s.point .dpdk = r)
    (hr : r.inQueue = true) (hrne : ∀ k, r ≠ .probe k) (hof : q.of (.dpdk : Party K) = true)
    (hq : q = .test ∨ q = .unlockEnd) (hending : q.ending = true → s.stopping = true)
    (hdrained : r.drained = true → q.drained = true) : (s.notifyAll .dpdk q).Sound := by
  have hqne : ∀ p : Point K Trid, p ≠ .test → p ≠ .unlockEnd → q ≠ p := by
    rintro p htest hend rfl
    rcases hq with heq | heq
    · exact htest heq
    · exact hend heq
  have hinside : q.inQueue = true := by rcases hq with rfl | rfl <;> rfl
  have hawake : ∀ p : Point K Trid, p.inQueue = false → r ≠ p := by
    rintro p hp rfl
    rw [hr] at hp
    cases hp
  have hwoken : woken s.point .dpdk = r := by
    rw [woken_of_ne (by rw [hat]; exact hawake _ rfl), hat]
  exact {
    locks := h.locks.woken.other (fun _ heq => by cases heq) hof
      (h.locks.woken.queue.keep (by rw [hwoken]; exact iff_of_true hinside hr))
      (fun _ => rfl)
    thread := h.thread.woken.dpdk (by rw [hwoken]; exact hawake _ rfl)
      (by rw [hwoken]; exact hawake _ rfl)
      (hqne _ (fun heq => by cases heq) (fun heq => by cases heq)) hending
    queue := h.queue.woken.dpdk (by rw [hwoken]; exact hdrained) (by rw [hwoken]; exact hrne)
      (fun _ => hqne _ (fun heq => by cases heq) (fun heq => by cases heq))
      (fun heq => absurd heq (hqne _ (fun heq => by cases heq) (fun heq => by cases heq)))
    naps := by
      refine Naps.of_awake
        (woken_update_ne (hqne _ (fun heq => by cases heq) (fun heq => by cases heq))) ?_
      intro hsleep
      change update (woken s.point) .dpdk q .dpdk = .sleep at hsleep
      rw [update_self] at hsleep
      exact absurd hsleep (hqne _ (fun heq => by cases heq) (fun heq => by cases heq)) }

theorem stepDpdk (h : s.Sound) {o : Outcome Trid Ctrlr} (hat : s.point .dpdk = q)
    (hs : stepDpdk sp s o q = .ok s') : s'.Sound := by
  cases q with
  | init =>
    obtain rfl := Except.ok.inj hs
    exact h.dpdk rfl (h.locks.queue.keep (by rw [hat]; exact Iff.rfl)) (by rw [hat]; rfl)
      (Or.inl rfl) (fun heq => by cases heq) (by rw [hat]; exact fun heq => by cases heq)
      (fun heq => by cases heq) (fun heq => by rcases heq with heq | heq <;> cases heq)
  | start =>
    obtain ⟨hfree, rfl⟩ := acquire_ok hs
    exact h.dpdkTests hfree (Or.inl hat)
  | relock =>
    obtain ⟨hfree, rfl⟩ := acquire_ok hs
    exact h.dpdkTests hfree (Or.inr hat)
  | test =>
    obtain rfl := Except.ok.inj hs
    have hqueue : ∀ r : Point K Trid, r.inQueue = true →
        Guards (fun q => q.inQueue = true) s.queueLock (update s.point .dpdk r) := by
      intro r hr
      exact h.locks.queue.keep (by rw [hat]; exact iff_of_true hr rfl)
    split
    · next hstop =>
      exact h.dpdk rfl (hqueue _ rfl) (by rw [hat]; rfl) (Or.inl rfl) (fun _ => hstop)
        (by rw [hat]; exact fun heq => by cases heq) (fun heq => by cases heq)
        (fun heq => by rcases heq with heq | heq <;> cases heq)
    · next hgo =>
      rw [Bool.not_eq_true] at hgo
      split
      · next hempty =>
        exact h.dpdk rfl (hqueue _ rfl) (by rw [hat]; rfl) (Or.inl rfl) (fun heq => by cases heq)
          (by rw [hat]; exact fun heq => by cases heq) (fun heq => by cases heq)
          (fun _ => ⟨hempty, hgo⟩)
      · next hsome =>
        exact h.dpdk rfl (hqueue _ rfl) (by rw [hat]; rfl) (Or.inl rfl) (fun heq => by cases heq)
          (by rw [hat]; exact fun heq => by cases heq) (fun _ => hsome)
          (fun heq => by rcases heq with heq | heq <;> cases heq)
  | take =>
    simp only [Nvme.stepDpdk] at hs
    split at hs
    · cases hs
    · next k rest hqueue =>
      obtain rfl := Except.ok.inj hs
      exact h.takes hat hqueue
  | probe k =>
    simp only [Nvme.stepDpdk] at hs
    split at hs
    · cases hs
    · split at hs
      · cases hs
      · split at hs
        · cases hs
        · obtain rfl := Except.ok.inj hs
          exact h.probed hat rfl
  | notifyDone =>
    obtain rfl := Except.ok.inj hs
    exact h.dpdkNotifies hat rfl (fun _ heq => by cases heq) rfl (Or.inl rfl)
      (fun heq => by cases heq) (fun heq => by cases heq)
  | sleep =>
    obtain rfl := Except.ok.inj hs
    exact h.dpdk rfl (h.locks.queue.release (by rw [hat]; rfl) (fun heq => by cases heq))
      (by rw [hat]; rfl) (Or.inl rfl) (fun heq => by cases heq)
      (by rw [hat]; exact fun heq => by cases heq) (fun heq => by cases heq)
      (fun _ => h.naps.sleeps hat)
  | drain =>
    simp only [Nvme.stepDpdk] at hs
    split at hs
    · cases hs
    · next hdrain =>
      obtain rfl := Except.ok.inj hs
      exact h.drains hat hdrain
  | notifyEnd =>
    obtain rfl := Except.ok.inj hs
    exact h.dpdkNotifies hat rfl (fun _ heq => by cases heq) rfl (Or.inr rfl)
      (fun _ => h.thread.ending (by rw [hat]; rfl)) (fun _ => rfl)
  | unlockEnd =>
    obtain rfl := Except.ok.inj hs
    exact h.dpdk rfl (h.locks.queue.release (by rw [hat]; rfl) (fun heq => by cases heq))
      (by rw [hat]; rfl) (Or.inr rfl) (fun _ => h.thread.ending (by rw [hat]; rfl)) (fun _ => rfl)
      (fun heq => by cases heq) (fun heq => by rcases heq with heq | heq <;> cases heq)
  | _ => cases hs

theorem stepDestructor (h : s.Sound) (hat : s.point .destructor = q)
    (hs : stepDestructor s q = .ok s') : s'.Sound := by
  have hnever : ∀ k, (.destructor : Party K) ≠ .caller k := fun _ heq => by cases heq
  have hthread : q ≠ .out → q ≠ .ended → s.point .dpdk ≠ .out := by
    rw [← hat]
    exact h.thread.destroys
  cases q with
  | lockStop =>
    obtain ⟨hfree, rfl⟩ := acquire_ok hs
    have hqueue := h.locks.queue
    rw [hfree] at hqueue
    have hgo : s.stopping = false := by
      rw [← Bool.not_eq_true]
      intro hstop
      rcases h.thread.stopped hstop with heq | heq
      · rw [hat] at heq
        cases heq
      · rw [hat] at heq
        cases heq
    exact {
      locks := h.locks.other hnever rfl (hqueue.acquire rfl) (fun _ => rfl)
      thread := h.thread.destructor (hthread (fun heq => by cases heq) (fun heq => by cases heq))
        (by rw [hat]; exact fun heq => by cases heq) (fun heq => by cases heq) id hgo.symm
      queue := h.queue.destructor
      naps := h.naps.destructor_moves (by rw [hat]; exact fun heq => by cases heq) }
  | stop =>
    obtain rfl := Except.ok.inj hs
    have hsleep : s.point .dpdk ≠ .sleep := by
      intro heq
      have hmine : (s.point .destructor).inQueue = true := by
        rw [hat]
        rfl
      cases h.locks.queue.exclusive hmine (by rw [heq]; rfl : (s.point .dpdk).inQueue = true)
    exact {
      locks := h.locks.other hnever rfl (h.locks.queue.keep (by rw [hat]; exact Iff.rfl))
        (fun _ => rfl)
      thread := h.thread.destructor (hthread (fun heq => by cases heq) (fun heq => by cases heq))
        (by rw [hat]; exact fun heq => by cases heq) (fun heq => by cases heq) (fun _ => rfl) rfl
      queue := h.queue.destructor
      naps := h.naps.stops hsleep }
  | notifyStop =>
    obtain rfl := Except.ok.inj hs
    have hwoken : woken s.point .destructor = .notifyStop :=
      (woken_iff (fun heq => by cases heq) (fun heq => by cases heq) _).mpr hat
    exact {
      locks := h.locks.woken.other hnever rfl
        (h.locks.woken.queue.keep (by rw [hwoken]; exact Iff.rfl)) (fun _ => rfl)
      thread := h.thread.woken.destructor
        (by
          rw [ne_eq, woken_iff (fun heq => by cases heq) (fun heq => by cases heq)]
          exact hthread (fun heq => by cases heq) (fun heq => by cases heq))
        (by rw [hwoken]; exact fun heq => by cases heq) (fun heq => by cases heq) id
        (h.thread.stops (by rw [hat]; rfl)).symm
      queue := h.queue.woken.destructor
      naps := by
        refine Naps.of_awake (woken_update_ne (fun heq => by cases heq)) ?_
        intro hsleep
        change update (woken s.point) .destructor .unlockStop .dpdk = .sleep at hsleep
        rw [update_of_ne (fun heq => by cases heq),
          woken_iff (fun heq => by cases heq) (fun heq => by cases heq)] at hsleep
        exact h.naps.sleeps hsleep }
  | unlockStop =>
    obtain rfl := Except.ok.inj hs
    exact {
      locks := h.locks.other hnever rfl
        (h.locks.queue.release (by rw [hat]; rfl) (fun heq => by cases heq)) (fun _ => rfl)
      thread := h.thread.destructor (hthread (fun heq => by cases heq) (fun heq => by cases heq))
        (by rw [hat]; exact fun heq => by cases heq) (fun heq => by cases heq) id
        (h.thread.stops (by rw [hat]; rfl)).symm
      queue := h.queue.destructor
      naps := h.naps.destructor_moves (by rw [hat]; exact fun heq => by cases heq) }
  | join =>
    simp only [Nvme.stepDestructor] at hs
    split at hs
    · next hended =>
      obtain rfl := Except.ok.inj hs
      exact {
        locks := h.locks.other hnever rfl (h.locks.queue.keep (by rw [hat]; exact Iff.rfl))
          (fun _ => rfl)
        thread := h.thread.destroy (Or.inr hended)
        queue := h.queue.destructor
        naps := h.naps.destructor_moves (by rw [hat]; exact fun heq => by cases heq) }
    · cases hs
  | _ => cases hs

end Live.Sound

end Dpdk

section Runs
variable {K Trid Ctrlr Ns : Type} [DecidableEq K] [DecidableEq Trid] {sp : Spdk Trid Ctrlr Ns}
  {s s' : Live K Trid Ctrlr Ns} {a : Move K Trid Ctrlr}

namespace Live.Sound

omit [DecidableEq Trid] in
theorem spurious (h : s.Sound) {p : Party K} (hat : s.point p = .asleep) :
    (s.goto p .relock).Sound := by
  have hqueue : Guards (fun q => q.inQueue = true) s.queueLock (update s.point p .relock) :=
    h.locks.queue.keep (by rw [hat]; exact Iff.rfl)
  cases p with
  | caller k =>
    exact h.caller rfl hqueue (by rw [hat]; rfl) (by rw [hat]; rfl) trivial
      (fun _ _ _ => by rw [hat]; rfl) (by rw [hat]; exact fun heq => by cases heq)
      (fun heq => by cases heq)
  | dpdk =>
    exact h.dpdk rfl hqueue (by rw [hat]; rfl) (Or.inl rfl) (fun heq => by cases heq)
      (by rw [hat]; exact fun heq => by cases heq) (fun heq => by cases heq)
      (fun heq => by rcases heq with heq | heq <;> cases heq)
  | destructor =>
    have hplace := h.locks.places .destructor
    rw [hat] at hplace
    cases hplace

omit [DecidableEq Trid] in
theorem destroy (h : s.Sound) (hat : s.point .destructor = .out) :
    (s.goto .destructor (if s.dpdkThread = none then .ended else .lockStop)).Sound := by
  have hne : s.point .destructor ≠ .ended := by
    rw [hat]
    exact fun heq => by cases heq
  split
  · next hnone =>
    exact {
      locks := h.locks.other (fun _ heq => by cases heq) rfl
        (h.locks.queue.keep (by rw [hat]; exact Iff.rfl)) (fun _ => rfl)
      thread := h.thread.destroy (Or.inl ((h.thread.started hne).mp hnone))
      queue := h.queue.destructor
      naps := h.naps.destructor_moves (by rw [hat]; exact fun heq => by cases heq) }
  · next hsome =>
    have hgo : s.stopping = false := by
      rw [← Bool.not_eq_true]
      intro hstop
      rcases h.thread.stopped hstop with heq | heq
      · rw [hat] at heq
        cases heq
      · exact hne heq
    exact {
      locks := h.locks.other (fun _ heq => by cases heq) rfl
        (h.locks.queue.keep (by rw [hat]; exact Iff.rfl)) (fun _ => rfl)
      thread := h.thread.destructor (fun heq => hsome ((h.thread.started hne).mpr heq)) hne
        (fun heq => by cases heq) id hgo.symm
      queue := h.queue.destructor
      naps := h.naps.destructor_moves (by rw [hat]; exact fun heq => by cases heq) }

theorem step (h : s.Sound) (hs : s.exec sp a = .ok s') : s'.Sound := by
  cases a with
  | call k trid =>
    simp only [Live.exec] at hs
    split at hs
    · cases hs
    · split at hs
      · next hat =>
        obtain rfl := Except.ok.inj hs
        exact h.caller rfl (h.locks.queue.keep (by rw [hat]; exact Iff.rfl)) (by rw [hat]; rfl)
          (by rw [hat]; rfl) trivial (fun _ _ _ => by rw [hat]; rfl)
          (by rw [hat]; exact fun heq => by cases heq) (fun heq => by cases heq)
      · cases hs
  | destroy =>
    simp only [Live.exec] at hs
    split at hs
    · next hat =>
      obtain rfl := Except.ok.inj hs
      exact h.destroy hat
    · cases hs
  | step p o =>
    cases p with
    | caller k =>
      simp only [Live.exec] at hs
      split at hs
      · cases hs
      · next hd => exact h.stepCaller hd rfl hs
    | dpdk => exact h.stepDpdk rfl hs
    | destructor => exact h.stepDestructor rfl hs
  | spurious p =>
    simp only [Live.exec] at hs
    split at hs
    · next hat =>
      obtain rfl := Except.ok.inj hs
      exact h.spurious hat
    · cases hs

omit [DecidableEq K] [DecidableEq Trid] in
theorem caller_context (h : s.Sound) {k : K} (hin : (s.point (.caller k)).inScope = true) :
    ∃ ctx, s.ctxs k = some ctx := by
  rw [← Option.isSome_iff_exists, h.locks.scope k]
  exact hin

omit [DecidableEq Trid] in
theorem acquire_error {p : Party K} {q : Point K Trid} {e : Fault}
    (h : s.acquire p q = .error e) : e ≠ .dangling ∧ s.queueLock ≠ none := by
  unfold Live.acquire at h
  split at h
  · cases h
  · next hheld =>
    rw [← Except.error.inj h, hheld]
    exact ⟨fun h => (by cases h), fun h => (by cases h)⟩

theorem caller_stuck (h : s.Sound) {k : K} {q : Point K Trid} (hat : s.point (.caller k) = q)
    {e : Fault} (herr : Nvme.stepCaller sp s k q = .error e) :
    e ≠ .dangling ∧ (q = .out ∨ q = .asleep ∨ (∃ trid, q = .lock trid) ∧ s.lock ≠ none ∨
      (q = .lockQueue ∨ q = .relock) ∧ s.queueLock ≠ none) := by
  have hplace := h.locks.places (.caller k)
  rw [hat] at hplace
  cases q with
  | out => exact ⟨by cases herr; exact fun h => (by cases h), Or.inl rfl⟩
  | asleep => exact ⟨by cases herr; exact fun h => (by cases h), Or.inr (Or.inl rfl)⟩
  | lock trid =>
    simp only [Nvme.stepCaller] at herr
    split at herr
    · cases herr
    · next hheld =>
      rw [← Except.error.inj herr, hheld]
      exact ⟨fun h => (by cases h), Or.inr (Or.inr (Or.inl ⟨⟨trid, rfl⟩, fun h => (by cases h)⟩))⟩
  | lockQueue =>
    obtain ⟨hne, hheld⟩ := acquire_error herr
    exact ⟨hne, Or.inr (Or.inr (Or.inr ⟨Or.inl rfl, hheld⟩))⟩
  | relock =>
    obtain ⟨hne, hheld⟩ := acquire_error herr
    exact ⟨hne, Or.inr (Or.inr (Or.inr ⟨Or.inr rfl, hheld⟩))⟩
  | test =>
    obtain ⟨ctx, hctx⟩ := h.caller_context (k := k) (by rw [hat]; rfl)
    simp only [Nvme.stepCaller, hctx] at herr
    cases herr
  | reply =>
    obtain ⟨ctx, hctx⟩ := h.caller_context (k := k) (by rw [hat]; rfl)
    simp only [Nvme.stepCaller, hctx] at herr
    split at herr <;> cases herr
  | look | push | notify | sleep | unlockQueue => cases herr
  | _ => cases hplace

/-- Where the thread can be stuck; at a probe, only by what SPDK answers. -/
theorem dpdk_stuck (h : s.Sound) {q : Point K Trid} (hat : s.point .dpdk = q)
    {o : Outcome Trid Ctrlr} {e : Fault} (herr : Nvme.stepDpdk sp s o q = .error e) :
    e ≠ .dangling ∧ (q = .out ∨ q = .ended ∨ q = .asleep ∨
      (q = .start ∨ q = .relock) ∧ s.queueLock ≠ none ∨ o.found ≠ [] ∨ o.rc < 0) := by
  have hplace := h.locks.places .dpdk
  rw [hat] at hplace
  cases q with
  | out => exact ⟨by cases herr; exact fun h => (by cases h), Or.inl rfl⟩
  | ended => exact ⟨by cases herr; exact fun h => (by cases h), Or.inr (Or.inl rfl)⟩
  | asleep => exact ⟨by cases herr; exact fun h => (by cases h), Or.inr (Or.inr (Or.inl rfl))⟩
  | start =>
    obtain ⟨hne, hheld⟩ := acquire_error herr
    exact ⟨hne, Or.inr (Or.inr (Or.inr (Or.inl ⟨Or.inl rfl, hheld⟩)))⟩
  | relock =>
    obtain ⟨hne, hheld⟩ := acquire_error herr
    exact ⟨hne, Or.inr (Or.inr (Or.inr (Or.inl ⟨Or.inr rfl, hheld⟩)))⟩
  | take =>
    simp only [Nvme.stepDpdk] at herr
    split at herr
    · next hempty => exact absurd hempty (h.queue.takes hat)
    · cases herr
  | probe k =>
    obtain ⟨⟨ctx, hctx, -⟩, -⟩ := h.queue.probing k hat
    simp only [Nvme.stepDpdk, hctx] at herr
    split at herr
    · next hprobe =>
      obtain rfl := Except.error.inj herr
      refine ⟨fun h => (by cases h), Or.inr (Or.inr (Or.inr (Or.inr (Or.inl ?_))))⟩
      intro hnone
      rw [nvmeProbe, hnone] at hprobe
      cases hprobe
    · split at herr
      · next hrc =>
        obtain rfl := Except.error.inj herr
        exact ⟨fun h => (by cases h), Or.inr (Or.inr (Or.inr (Or.inr (Or.inr hrc.1))))⟩
      · cases herr
  | drain =>
    have hlive : (s.point .dpdk).drained = false := by
      rw [hat]
      rfl
    obtain ⟨ctxs', hdrain⟩ := drainQueue_total s.ctxs s.probeQueue fun k hk => by
      obtain ⟨⟨⟨ctx, hctx, -⟩, -⟩, -⟩ := (h.queue.queued hlive k).mp hk
      rw [hctx]
      rfl
    simp only [Nvme.stepDpdk, hdrain] at herr
    cases herr
  | init | test | notifyDone | sleep | notifyEnd | unlockEnd => cases herr
  | _ => cases hplace

omit [DecidableEq Trid] in
theorem destructor_stuck [DecidableEq Trid] (h : s.Sound) {q : Point K Trid}
    (hat : s.point .destructor = q) {e : Fault} (herr : Nvme.stepDestructor s q = .error e) :
    e ≠ .dangling ∧ (q = .out ∨ q = .ended ∨ q = .lockStop ∧ s.queueLock ≠ none ∨
      q = .join ∧ s.point .dpdk ≠ .ended) := by
  have hplace := h.locks.places .destructor
  rw [hat] at hplace
  cases q with
  | out => exact ⟨by cases herr; exact fun h => (by cases h), Or.inl rfl⟩
  | ended => exact ⟨by cases herr; exact fun h => (by cases h), Or.inr (Or.inl rfl)⟩
  | lockStop =>
    obtain ⟨hne, hheld⟩ := acquire_error herr
    exact ⟨hne, Or.inr (Or.inr (Or.inl ⟨rfl, hheld⟩))⟩
  | join =>
    simp only [Nvme.stepDestructor] at herr
    split at herr
    · cases herr
    · next hgo =>
      obtain rfl := Except.error.inj herr
      exact ⟨fun h => (by cases h), Or.inr (Or.inr (Or.inr ⟨rfl, hgo⟩))⟩
  | stop | notifyStop | unlockStop => cases herr
  | _ => cases hplace

/-- Every pointer to a context leads to one that is there. -/
theorem no_dangling (h : s.Sound) (a : Move K Trid Ctrlr) : s.exec sp a ≠ .error .dangling := by
  intro herr
  cases a with
  | call k trid =>
    simp only [Live.exec] at herr
    split at herr
    · cases herr
    · split at herr <;> cases herr
  | destroy =>
    simp only [Live.exec] at herr
    split at herr <;> cases herr
  | step p o =>
    cases p with
    | caller k =>
      simp only [Live.exec] at herr
      split at herr
      · cases herr
      · exact (h.caller_stuck rfl herr).1 rfl
    | dpdk => exact (h.dpdk_stuck rfl herr).1 rfl
    | destructor => exact (h.destructor_stuck rfl herr).1 rfl
  | spurious p =>
    simp only [Live.exec] at herr
    split at herr <;> cases herr

end Live.Sound

abbrev LiveRun (sp : Spdk Trid Ctrlr Ns) :=
  Run (Live.Step (K := K) sp)

theorem LiveRun.sound {as : List (Move K Trid Ctrlr)}
    (h : LiveRun sp Live.begin as s) : s.Sound :=
  h.invariant (fun _ _ _ hs hstep => Live.Sound.step hs hstep.2) Live.begin_sound

/-- In no run, with calls of any threads and the destructor among them, does a thread follow a
pointer to a `ProbeContext` whose call has returned. -/
theorem never_dangling {as : List (Move K Trid Ctrlr)} (h : LiveRun sp Live.begin as s)
    (a : Move K Trid Ctrlr) : s.exec sp a ≠ .error .dangling :=
  h.sound.no_dangling a

def nothing : Outcome Trid Ctrlr := ⟨[], 0⟩

omit [DecidableEq K] [DecidableEq Trid] in
theorem Live.probes_nothing (p : Party K) : s.Probes sp (.step p nothing) := by
  cases p with
  | dpdk =>
    intro captured _
    unfold Outcome.Of
    cases probeArg sp captured with
    | none => exact fun _ hx => (by cases hx)
    | some trid => exact fun _ hx => (by cases hx)
  | _ => trivial

def Live.probes (sp : Spdk Trid Ctrlr Ns) (s : Live K Trid Ctrlr Ns) : Move K Trid Ctrlr → Bool
  | .step .dpdk o => s.dpdkThread.all fun captured => decide (o.Of sp (probeArg sp captured))
  | _ => true

theorem LiveRun.of_execAll {as : List (Move K Trid Ctrlr)}
    (h : execAll (fun s a => s.exec sp a) (fun s a => s.probes sp a) s as = some s') :
    LiveRun sp s as s' := by
  refine execAll_run (fun s a s' hl hok => ⟨?_, hok⟩) h
  cases a with
  | step p o =>
    cases p with
    | dpdk =>
      intro captured hcaptured
      have hall : s.dpdkThread.all (fun c => decide (o.Of sp (probeArg sp c))) = true := hl
      rw [Option.mem_def.mp hcaptured] at hall
      exact of_decide_eq_true hall
    | _ => trivial
  | _ => trivial

def turns (p : Party K) (n : Nat) : List (Move K Trid Ctrlr) := List.replicate n (.step p nothing)

/-- The call waits, the thread is about to probe for it, and the destructor for the lock. -/
def probing (trid : Trid) : List (Move Bool Trid Ctrlr) :=
  List.flatten [[.call true trid], turns (.caller true) 2, turns .dpdk 4, turns (.caller true) 5,
    [.destroy], turns .dpdk 3]

theorem probing_execAll : ∃ s : Live Bool (Fin 16) Unit Unit,
    execAll (fun s a => s.exec small a) (fun s a => s.probes small a) Live.begin (probing 1) =
        some s ∧
      s.point (.caller true) = .asleep ∧ s.point .dpdk = .probe true ∧
      s.point .destructor = .lockStop :=
  ⟨_, rfl, rfl, rfl, rfl⟩

theorem never_dangling_probe : ∃ s : Live Bool (Fin 16) Unit Unit,
    s.point (.caller true) = .asleep ∧ s.point .dpdk = .probe true ∧
      s.point .destructor = .lockStop ∧ ∀ a, s.exec small a ≠ .error .dangling := by
  obtain ⟨s, hs, hcaller, hdpdk, hdestructor⟩ := probing_execAll
  exact ⟨s, hcaller, hdpdk, hdestructor, never_dangling (LiveRun.of_execAll hs)⟩

end Runs

end LockdepSpdk.Nvme
