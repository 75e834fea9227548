import LockdepSpdk.Nvme.Contexts

/-!
# One operation at a time refines one call at a time

Until the thread is told to stop, the manager with the threads inside it does what the
manager does whose calls take the lock, wait and return in two steps, and whose
contexts are served in one.
-/

namespace LockdepSpdk.Nvme

set_option autoImplicit false

open Function Monitor Transition

section Probe
variable {K Trid Ctrlr Ns : Type} {sp : Spdk Trid Ctrlr Ns} {m n m' : Manager K Trid Ctrlr Ns}
  {ctx ctx' : Context Trid Ctrlr Ns}

theorem attachCb_same {c : Ctrlr} (hlock : n.lock.isNone = m.lock.isNone)
    (h : attachCb sp (m, ctx) c = .ok (m', ctx')) :
    m'.lock.isNone = m.lock.isNone ∧
      attachCb sp ({ n with sharedDriverDatas := m.sharedDriverDatas }, ctx) c =
        .ok ({ n with sharedDriverDatas := m'.sharedDriverDatas }, ctx') := by
  unfold attachCb registerCtrlr at h ⊢
  simp only [hlock]
  split at h
  · cases h
  · next hheld =>
    rw [if_neg hheld]
    split at h
    · cases h
    · next hns =>
      rw [if_neg hns]
      split at h
      · cases h
      · next ns hgot =>
        split at h
        · next hempty =>
          obtain ⟨hm, hctx⟩ := ok_mk_inj h
          rw [← hm, ← hctx]
          refine ⟨rfl, ?_⟩
          simp only [if_pos hempty]
          rfl
        · cases h

theorem foldlM_attachCb_same {cs : List Ctrlr} (hlock : n.lock.isNone = m.lock.isNone)
    (h : cs.foldlM (attachCb sp) (m, ctx) = .ok (m', ctx')) :
    cs.foldlM (attachCb sp) ({ n with sharedDriverDatas := m.sharedDriverDatas }, ctx) =
      .ok ({ n with sharedDriverDatas := m'.sharedDriverDatas }, ctx') := by
  induction cs generalizing m ctx with
  | nil =>
    obtain ⟨hm, hctx⟩ := ok_mk_inj h
    rw [← hm, ← hctx]
    rfl
  | cons c cs ih =>
    rw [List.foldlM_cons] at h ⊢
    obtain ⟨⟨m1, ctx1⟩, hone, hrest⟩ := bind_ok h
    obtain ⟨hkept, hone'⟩ := attachCb_same hlock hone
    rw [hone']
    exact ih (hlock.trans hkept.symm) hrest

theorem nvmeProbe_same {o : Outcome Trid Ctrlr} (hlock : n.lock.isNone = m.lock.isNone)
    (hdrivers : n.sharedDriverDatas = m.sharedDriverDatas)
    (h : nvmeProbe sp m ctx o = .ok (m', ctx')) :
    nvmeProbe sp n ctx o = .ok ({ n with sharedDriverDatas := m'.sharedDriverDatas }, ctx') := by
  obtain ⟨cs, hcs, hattach⟩ := bind_ok h
  have hsame := foldlM_attachCb_same (n := n) hlock hattach
  rw [← hdrivers] at hsame
  rw [nvmeProbe, hcs]
  exact hsame

end Probe

section Refinement
variable {K Trid Ctrlr Ns : Type} {sp : Spdk Trid Ctrlr Ns} {s s' : Live K Trid Ctrlr Ns}
  {a : Move K Trid Ctrlr} {k : K} {q : Point K Trid}

/-- Whoever holds `lock` and has a context. -/
def Live.caller (s : Live K Trid Ctrlr Ns) : Option K := s.lock.filter fun k => (s.ctxs k).isSome

/-- The manager between two calls; a context that is not done counts as queued. -/
def Live.abstract (s : Live K Trid Ctrlr Ns) : Manager K Trid Ctrlr Ns where
  lock := s.caller
  sharedDriverDatas := s.sharedDriverDatas
  dpdkThread := s.dpdkThread
  probeQueue := s.caller.toList.filter fun k => (s.ctxs k).any fun ctx => !ctx.done
  calls := s.ctxs
  returned := s.returned

namespace Live.Sound

theorem caller_of_scope (h : s.Sound) (hin : (s.point (.caller k)).inScope = true) :
    s.caller = some k := by
  have hcall : (s.point (.caller k)).inCall = true := by
    cases hat : s.point (.caller k) with
    | out | lock _ | look _ =>
      rw [hat] at hin
      cases hin
    | _ => rfl
  have hlock : s.lock = some k := (h.locks.call k).mpr hcall
  have hsome : (s.ctxs k).isSome = true := by rw [h.locks.scope k, hin]
  rw [Live.caller, hlock, Option.filter_some, if_pos hsome]

theorem caller_of_look (h : s.Sound) {trid : Trid} (hat : s.point (.caller k) = .look trid) :
    s.lock = some k ∧ s.ctxs k = none ∧ s.caller = none := by
  have hcall : (s.point (.caller k)).inCall = true := by
    rw [hat]
    rfl
  have hlock : s.lock = some k := (h.locks.call k).mpr hcall
  have hnone : s.ctxs k = none := by
    have hscope := h.locks.scope k
    rw [hat] at hscope
    exact Option.not_isSome_iff_eq_none.mp (by rw [hscope]; exact fun heq => by cases heq)
  refine ⟨hlock, hnone, ?_⟩
  rw [Live.caller, hlock, Option.filter_some, hnone]
  rfl

end Live.Sound

theorem Live.abstract_same (hlock : s'.lock = s.lock)
    (hdrivers : s'.sharedDriverDatas = s.sharedDriverDatas) (hthread : s'.dpdkThread = s.dpdkThread)
    (hctxs : s'.ctxs = s.ctxs) (hreturned : s'.returned = s.returned) :
    s'.abstract = s.abstract := by
  unfold Live.abstract Live.caller
  rw [hlock, hdrivers, hthread, hctxs, hreturned]

theorem Live.abstract_of_caller {ctx : Context Trid Ctrlr Ns} (hlock : s.lock = some k)
    (hctx : s.ctxs k = some ctx) :
    s.abstract = ⟨some k, s.sharedDriverDatas, s.dpdkThread, if ctx.done then [] else [k], s.ctxs,
      s.returned⟩ := by
  have hcaller : s.caller = some k := by
    rw [Live.caller, hlock, Option.filter_some, hctx]
    rfl
  unfold Live.abstract
  rw [hcaller, Option.toList_some, List.filter_cons, List.filter_nil, hctx, Option.any_some]
  cases ctx.done <;> rfl

theorem Live.abstract_of_none (h : s.caller = none) :
    s.abstract = ⟨none, s.sharedDriverDatas, s.dpdkThread, [], s.ctxs, s.returned⟩ := by
  unfold Live.abstract
  rw [h]
  rfl

variable [DecidableEq K]

namespace Live

/-- A look that finds the driver is a call of its own, another one the first half of a call. -/
theorem simulates_look (h : s.Sound) {trid : Trid} (hat : s.point (.caller k) = .look trid) :
    ∃ b, Nvme.Step sp s.abstract b (stepLook sp s k trid).abstract := by
  obtain ⟨hlock, hnone, hcaller⟩ := h.caller_of_look hat
  have hcalls : ¬ (s.ctxs k).isSome = true := by
    rw [hnone]
    exact fun heq => by cases heq
  have hcore : ¬ ∀ r ∈ findFirstBitset coremaskArg, r ≤ 0 := by
    rw [findFirstBitset_coremask]
    exact fun hall => absurd (hall 1 rfl) (by decide)
  refine ⟨.tryGet k trid, trivial, ?_⟩
  rw [abstract_of_none hcaller]
  simp only [Nvme.exec, tryGet, if_neg hcalls, Option.isSome_none, if_neg Bool.false_ne_true]
  unfold stepLook
  cases hfind : s.sharedDriverDatas.find? fun d => d.isEqual sp trid with
  | some d =>
    refine congrArg Except.ok (Eq.trans ?_ (abstract_of_none ?_).symm)
    · rfl
    · rfl
  | none =>
    simp only [if_neg hcore]
    cases hstarted : s.dpdkThread with
    | none =>
      refine congrArg Except.ok (Eq.trans ?_ (abstract_of_caller ?_ (update_self ..)).symm)
      · rfl
      · exact hlock
    | some captured =>
      refine congrArg Except.ok (Eq.trans ?_ (abstract_of_caller ?_ (update_self ..)).symm)
      · rfl
      · exact hlock

variable [DecidableEq Trid]

theorem simulates_reply (h : s.Sound) (hat : s.point (.caller k) = .reply)
    (hs : stepCaller sp s k .reply = .ok s') : ∃ b, Nvme.Step sp s.abstract b s'.abstract := by
  have hcaller := h.caller_of_scope (k := k) (by rw [hat]; rfl)
  obtain ⟨ctx, hctx⟩ := h.caller_context (k := k) (by rw [hat]; rfl)
  have hlock : s.lock = some k := (h.locks.call k).mpr (by
    change (s.point (.caller k)).inCall = true
    rw [hat]
    rfl)
  have hknows := h.queue.knows k
  rw [hat] at hknows
  have hdone : ctx.done = true := hknows ctx hctx
  refine ⟨.finish k, trivial, ?_⟩
  rw [abstract_of_caller hlock hctx]
  simp only [stepCaller, hctx] at hs
  simp only [Nvme.exec, finish, hctx, hdone, if_true]
  cases hdriver : ctx.driver with
  | none =>
    rw [hdriver] at hs
    obtain rfl := Except.ok.inj hs
    refine congrArg Except.ok (Eq.trans ?_ (abstract_of_none ?_).symm)
    · rfl
    · rfl
  | some d =>
    rw [hdriver] at hs
    obtain rfl := Except.ok.inj hs
    refine congrArg Except.ok (Eq.trans ?_ (abstract_of_none ?_).symm)
    · rfl
    · rfl

theorem simulates_probe (h : s.Sound) {o : Outcome Trid Ctrlr} (hat : s.point .dpdk = .probe k)
    (hprobes : ∀ captured ∈ s.dpdkThread, o.Of sp (probeArg sp captured))
    (hs : stepDpdk sp s o (.probe k) = .ok s') : ∃ b, Nvme.Step sp s.abstract b s'.abstract := by
  obtain ⟨⟨ctx, hctx, hdone⟩, hpushed⟩ := h.queue.probing k hat
  have hscope : (s.point (.caller k)).inScope = true := by
    cases hplace : s.point (.caller k) with
    | out | lock _ | look _ =>
      rw [hplace] at hpushed
      cases hpushed
    | _ => rfl
  have hlock : s.lock = some k := (h.locks.call k).mpr (by
    change (s.point (.caller k)).inCall = true
    cases hplace : s.point (.caller k) with
    | out | lock _ =>
      rw [hplace] at hpushed
      cases hpushed
    | _ => rfl)
  have hne : s.point .dpdk ≠ .out ∧ s.point .dpdk ≠ .ended := by
    rw [hat]
    exact ⟨fun heq => (by cases heq), fun heq => (by cases heq)⟩
  have hthread : s.dpdkThread ≠ none := by
    intro hnone
    have hlive : s.point .destructor ≠ .ended := by
      intro hended
      rcases h.thread.destroyed hended with heq | heq
      · exact hne.1 heq
      · exact hne.2 heq
    exact hne.1 ((h.thread.started hlive).mp hnone)
  obtain ⟨captured, hcaptured⟩ := Option.ne_none_iff_exists'.mp hthread
  simp only [stepDpdk, hctx] at hs
  split at hs
  · cases hs
  · next m ctx' hprobe =>
    split at hs
    · cases hs
    · next hrc =>
      obtain rfl := Except.ok.inj hs
      have hserve := nvmeProbe_same (m := s.manager)
        (n := ⟨some k, s.sharedDriverDatas, s.dpdkThread, [], s.ctxs, s.returned⟩) (by
          change false = s.lock.isNone
          rw [hlock]
          rfl) rfl hprobe
      refine ⟨.serve o, hprobes, ?_⟩
      rw [abstract_of_caller hlock hctx]
      simp only [Nvme.exec, serve, hdone, hcaptured, Bool.false_eq_true, if_false, hctx]
      rw [hcaptured] at hserve
      rw [hserve, ok_bind, if_neg hrc]
      refine congrArg Except.ok (Eq.trans ?_ (abstract_of_caller ?_ (update_self ..)).symm)
      · change _ = (⟨_, _, s.dpdkThread, _, _, _⟩ : Manager K Trid Ctrlr Ns)
        rw [hcaptured]
        rfl
      · exact hlock

/-- A step of a call is seen from outside at its look, and at its reply. -/
theorem simulates_caller (h : s.Sound) (hat : s.point (.caller k) = q)
    (hs : stepCaller sp s k q = .ok s') :
    s'.abstract = s.abstract ∨ ∃ b, Nvme.Step sp s.abstract b s'.abstract := by
  cases q with
  | lock trid =>
    simp only [stepCaller] at hs
    split at hs
    · next hfree =>
      obtain rfl := Except.ok.inj hs
      have hnone : s.ctxs k = none := by
        have hscope := h.locks.scope k
        rw [hat] at hscope
        exact Option.not_isSome_iff_eq_none.mp (by rw [hscope]; exact fun heq => by cases heq)
      have hbefore : s.caller = none := by
        rw [caller, hfree]
        rfl
      refine Or.inl ((abstract_of_none ?_).trans (abstract_of_none hbefore).symm)
      change (some k).filter (fun j => (s.ctxs j).isSome) = none
      rw [Option.filter_some, hnone]
      rfl
    · cases hs
  | look trid =>
    obtain rfl := Except.ok.inj hs
    exact Or.inr (simulates_look h hat)
  | lockQueue =>
    obtain ⟨-, rfl⟩ := acquire_ok hs
    exact Or.inl (abstract_same rfl rfl rfl rfl rfl)
  | relock =>
    obtain ⟨-, rfl⟩ := acquire_ok hs
    exact Or.inl (abstract_same rfl rfl rfl rfl rfl)
  | test =>
    simp only [stepCaller] at hs
    split at hs
    · cases hs
    · obtain rfl := Except.ok.inj hs
      exact Or.inl (abstract_same rfl rfl rfl rfl rfl)
  | push | notify | sleep | unlockQueue =>
    obtain rfl := Except.ok.inj hs
    exact Or.inl (abstract_same rfl rfl rfl rfl rfl)
  | reply => exact Or.inr (simulates_reply h hat hs)
  | _ => cases hs

/-- A step of the thread is seen from outside when a probe is done. -/
theorem simulates_dpdk (h : s.Sound) {o : Outcome Trid Ctrlr} (hat : s.point .dpdk = q)
    (hprobes : ∀ captured ∈ s.dpdkThread, o.Of sp (probeArg sp captured))
    (hgo : s.stopping = false) (hs : stepDpdk sp s o q = .ok s') :
    s'.abstract = s.abstract ∨ ∃ b, Nvme.Step sp s.abstract b s'.abstract := by
  cases q with
  | start =>
    obtain ⟨-, rfl⟩ := acquire_ok hs
    exact Or.inl (abstract_same rfl rfl rfl rfl rfl)
  | relock =>
    obtain ⟨-, rfl⟩ := acquire_ok hs
    exact Or.inl (abstract_same rfl rfl rfl rfl rfl)
  | take =>
    simp only [stepDpdk] at hs
    split at hs
    · cases hs
    · obtain rfl := Except.ok.inj hs
      exact Or.inl (abstract_same rfl rfl rfl rfl rfl)
  | probe k => exact Or.inr (simulates_probe h hat hprobes hs)
  | drain | notifyEnd | unlockEnd =>
    have hstop : s.stopping = true := h.thread.ending (by rw [hat]; rfl)
    rw [hgo] at hstop
    cases hstop
  | init | test | notifyDone | sleep =>
    obtain rfl := Except.ok.inj hs
    exact Or.inl (abstract_same rfl rfl rfl rfl rfl)
  | _ => cases hs

theorem simulates (h : s.Sound) (hstep : s.Step sp a s') (hgo : s.stopping = false) :
    s'.abstract = s.abstract ∨ ∃ b, Nvme.Step sp s.abstract b s'.abstract := by
  obtain ⟨hprobes, hs⟩ := hstep
  cases a with
  | call k trid =>
    simp only [exec] at hs
    split at hs
    · cases hs
    · split at hs
      · obtain rfl := Except.ok.inj hs
        exact Or.inl (abstract_same rfl rfl rfl rfl rfl)
      · cases hs
  | destroy =>
    simp only [exec] at hs
    split at hs
    · obtain rfl := Except.ok.inj hs
      exact Or.inl (abstract_same rfl rfl rfl rfl rfl)
    · cases hs
  | step p o =>
    cases p with
    | caller k =>
      simp only [exec] at hs
      split at hs
      · cases hs
      · exact simulates_caller h rfl hs
    | dpdk => exact simulates_dpdk h rfl hprobes hgo hs
    | destructor =>
      have hfree : s'.lock = s.lock ∧ s'.sharedDriverDatas = s.sharedDriverDatas ∧
          s'.dpdkThread = s.dpdkThread ∧ s'.ctxs = s.ctxs ∧ s'.returned = s.returned := by
        have hat : s.point .destructor ≠ .join := by
          intro hjoin
          have hstop := h.thread.stops (by rw [hjoin]; rfl)
          rw [hgo] at hstop
          cases hstop
        change stepDestructor s (s.point .destructor) = .ok s' at hs
        cases hplace : s.point .destructor with
        | lockStop =>
          rw [hplace] at hs
          obtain ⟨-, rfl⟩ := acquire_ok hs
          exact ⟨rfl, rfl, rfl, rfl, rfl⟩
        | stop | notifyStop | unlockStop =>
          rw [hplace] at hs
          obtain rfl := Except.ok.inj hs
          exact ⟨rfl, rfl, rfl, rfl, rfl⟩
        | join => exact absurd hplace hat
        | _ =>
          rw [hplace] at hs
          cases hs
      obtain ⟨hlock, hdrivers, hthread, hctxs, hreturned⟩ := hfree
      exact Or.inl (abstract_same hlock hdrivers hthread hctxs hreturned)
  | spurious p =>
    simp only [exec] at hs
    split at hs
    · obtain rfl := Except.ok.inj hs
      exact Or.inl (abstract_same rfl rfl rfl rfl rfl)
    · cases hs

end Live

variable [DecidableEq Trid]

theorem stopping_caller (hs : stepCaller sp s k q = .ok s') : s'.stopping = s.stopping := by
  cases q with
  | look trid =>
    obtain rfl := Except.ok.inj hs
    unfold stepLook
    split
    · rfl
    · split
      · rfl
      · split <;> rfl
  | lockQueue | relock =>
    obtain ⟨-, rfl⟩ := Live.acquire_ok hs
    rfl
  | lock | test =>
    simp only [stepCaller] at hs
    split at hs
    all_goals
      cases hs
      try rfl
  | reply =>
    simp only [stepCaller] at hs
    split at hs
    · cases hs
    · split at hs <;> obtain rfl := Except.ok.inj hs <;> rfl
  | push | notify | sleep | unlockQueue =>
    obtain rfl := Except.ok.inj hs
    rfl
  | _ => cases hs

theorem stopping_dpdk {o : Outcome Trid Ctrlr} (hs : stepDpdk sp s o q = .ok s') :
    s'.stopping = s.stopping := by
  cases q with
  | start | relock =>
    obtain ⟨-, rfl⟩ := Live.acquire_ok hs
    rfl
  | take | drain =>
    simp only [stepDpdk] at hs
    split at hs
    · cases hs
    · obtain rfl := Except.ok.inj hs
      rfl
  | probe k =>
    simp only [stepDpdk] at hs
    split at hs
    · cases hs
    · split at hs
      · cases hs
      · split at hs
        · cases hs
        · obtain rfl := Except.ok.inj hs
          rfl
  | init | test | notifyDone | sleep | notifyEnd | unlockEnd =>
    obtain rfl := Except.ok.inj hs
    rfl
  | _ => cases hs

theorem stopping_step (hs : s.exec sp a = .ok s') (hstop : s.stopping = true) :
    s'.stopping = true := by
  cases a with
  | call k trid =>
    simp only [Live.exec] at hs
    split at hs
    · cases hs
    · split at hs
      · obtain rfl := Except.ok.inj hs
        exact hstop
      · cases hs
  | step p o =>
    cases p with
    | caller k =>
      simp only [Live.exec] at hs
      split at hs
      · cases hs
      · exact (stopping_caller hs).trans hstop
    | dpdk => exact (stopping_dpdk hs).trans hstop
    | destructor =>
      change stepDestructor s (s.point .destructor) = .ok s' at hs
      cases hplace : s.point .destructor with
      | lockStop =>
        rw [hplace] at hs
        obtain ⟨-, rfl⟩ := Live.acquire_ok hs
        exact hstop
      | stop =>
        rw [hplace] at hs
        obtain rfl := Except.ok.inj hs
        rfl
      | notifyStop | unlockStop =>
        rw [hplace] at hs
        obtain rfl := Except.ok.inj hs
        exact hstop
      | join =>
        rw [hplace] at hs
        simp only [stepDestructor] at hs
        split at hs
        · obtain rfl := Except.ok.inj hs
          exact hstop
        · cases hs
      | _ =>
        rw [hplace] at hs
        cases hs
  | destroy | spurious =>
    simp only [Live.exec] at hs
    split at hs
    · obtain rfl := Except.ok.inj hs
      exact hstop
    · cases hs

/-- Until the thread is told to stop, every run is one of the manager whose calls are two steps and
whose probes are one. -/
theorem live_refines {as : List (Move K Trid Ctrlr)} (h : LiveRun sp Live.begin as s)
    (hgo : s.stopping = false) :
    ∃ bs, Run (Nvme.Step sp) (Manager.start : Manager K Trid Ctrlr Ns) bs s.abstract := by
  have hmatched : s.Sound ∧ (s.stopping = false →
      ∃ bs, Run (Nvme.Step sp) (Manager.start : Manager K Trid Ctrlr Ns) bs s.abstract) := by
    refine h.invariant (I := fun s => s.Sound ∧ (s.stopping = false →
      ∃ bs, Run (Nvme.Step sp) (Manager.start : Manager K Trid Ctrlr Ns) bs s.abstract)) ?_ ?_
    · rintro s a s' ⟨hsound, hrun⟩ hstep
      refine ⟨hsound.step hstep.2, fun hgo' => ?_⟩
      have hgo : s.stopping = false := by
        rw [← Bool.not_eq_true] at hgo' ⊢
        exact fun hstop => hgo' (stopping_step hstep.2 hstop)
      obtain ⟨bs, hbs⟩ := hrun hgo
      rcases Live.simulates hsound hstep hgo with hsame | ⟨b, hb⟩
      · rw [hsame]
        exact ⟨bs, hbs⟩
      · exact ⟨bs ++ [b], hbs.snoc hb⟩
    · refine ⟨Live.begin_sound, fun _ => ⟨[], ?_⟩⟩
      have hstart : (Live.begin : Live K Trid Ctrlr Ns).abstract = Manager.start := rfl
      rw [hstart]
      exact .nil _
  exact hmatched.2 hgo

def answered {Trid Ctrlr : Type} (trid : Trid) (ctrlr : Ctrlr) : List (Move Bool Trid Ctrlr) :=
  List.flatten [[.call true trid], turns (.caller true) 2, turns .dpdk 4, turns (.caller true) 5,
    turns .dpdk 3, [.step .dpdk ⟨[(trid, some ctrlr)], 0⟩], turns .dpdk 3,
    turns (.caller true) 4]

theorem answered_execAll : ∃ s : Live Bool (Fin 16) Unit Unit,
    execAll (fun s a => s.exec small a) (fun s a => s.probes small a) Live.begin
        (answered 1 ()) = some s ∧
      s.stopping = false ∧ s.returned.map (·.1) = [1] :=
  ⟨_, rfl, rfl, rfl⟩

theorem live_refines_answered : ∃ s : Live Bool (Fin 16) Unit Unit,
    s.returned.map (·.1) = [1] ∧ ∃ bs, Run (Nvme.Step small) Manager.start bs s.abstract := by
  obtain ⟨s, hs, hgo, hreturned⟩ := answered_execAll
  exact ⟨s, hreturned, live_refines (LiveRun.of_execAll hs) hgo⟩

end Refinement

end LockdepSpdk.Nvme
