import LockdepSpdk.Blk.Returns

/-!
# Conservation and accounting

Buffers, queue slots and counters in every state of every run, and what has
become of the tasks by then.
-/

namespace LockdepSpdk.Blk

set_option autoImplicit false

open Function Linked Transition

/-- `nseg` of the task of a command, when it is charged to `c`. -/
def nsegOf (s : Sys) (c : CtxPtr) (cmd : Command) : Nat :=
  match s.tasks cmd.task with
  | none => 0
  | some task => if task.ctx = some c then task.ioRequest.nseg else 0

structure Conserved (cfg : Config) (s : Sys) : Prop where
  pool : (s.dataBufList ++ heldSegs s.tasks s.inflight).Perm (List.range dataBufferDefaultNum)
  nseg : ∀ c, (s.ctxs c).totalNseg = ((s.inflight.map (nsegOf s c)).sum : Nat)
  depth : s.currentQueueDepth = s.inflight.length
  bound : s.currentQueueDepth ≤ cfg.maxQueueDepth
  no_wait : s.pc ≠ .idle → s.inflight = [] → ∀ p, s.t = some p →
    s.currentQueueDepth ≠ cfg.maxQueueDepth ∧ ∃ task, s.tasks p = some task ∧
      ∀ write, allocBufFromPool (s.setTask p task.queued) p task.queued write ≠ .ok none
  no_spin : s.pc ≠ .idle → (s.ctxs s.ioc).numRunning ≠ 0 →
    s.inflight ≠ [] ∨ ∃ p s', s.t = some p ∧ submit cfg s p = .ok s' ∧ flight s'.inflight = [p]

section
variable {cfg : Config} {pend : CtxPtr → List TaskPtr} {rest : List TaskPtr} {s : Sys}

theorem Core.nseg_sum (h : Core cfg pend rest s) (c : CtxPtr) :
    (s.ctxs c).totalNseg = ((s.inflight.map (nsegOf s c)).sum : Nat) := by
  have hof : ∀ cmd ∈ s.inflight,
      nsegOf s c cmd = if c = s.ioc then (segsHeld s.tasks cmd.task).length else 0 := by
    intro cmd hcmd
    obtain ⟨task, htask, hsent⟩ := h.sent cmd hcmd
    unfold nsegOf
    simp only [htask, hsent.ctx, (hsent.held htask).2, Option.some.injEq]
    by_cases hc : c = s.ioc
    · rw [if_pos hc, if_pos hc.symm]
    · rw [if_neg hc, if_neg (Ne.symm hc)]
  rw [h.nseg c, List.map_congr_left hof]
  by_cases hc : c = s.ioc
  · simp only [if_pos hc]
    unfold heldSegs
    rw [List.length_flatMap]
  · simp [if_neg hc]

theorem Core.no_wait {p : TaskPtr} (h : Core cfg pend rest s) (hmax : 1 ≤ cfg.maxQueueDepth)
    (hin : s.inflight = []) (hp : s.t = some p) :
    s.currentQueueDepth ≠ cfg.maxQueueDepth ∧ ∃ task, s.tasks p = some task ∧
      (∀ write, allocBufFromPool (s.setTask p task.queued) p task.queued write ≠ .ok none) ∧
      Blk.submit cfg s p = .ok (afterSubmit cfg s p task) := by
  obtain ⟨rest', rfl⟩ := h.head hp
  obtain ⟨task, htask, hready⟩ := h.rest_ready p List.mem_cons_self
  have hdepth := h.depth
  rw [hin, List.length_nil] at hdepth
  have hfull : s.currentQueueDepth ≠ cfg.maxQueueDepth := by omega
  have hcount := segCount_le hready.le
  have hall := h.pool_full hin
  have hnum : dataBufferDefaultNum = 1024 := rfl
  have hseg := h.nseg s.ioc
  rw [if_pos rfl, hin] at hseg
  have hzero : (s.ctxs s.ioc).totalNseg = 0 := hseg
  refine ⟨hfull, task, htask, ?_, ?_⟩
  · intro write
    have hctx : task.queued.ctx = some s.ioc := hready.ctx
    have halloc : allocBufFromPool (s.setTask p task.queued) p task.queued write = .ok (some _) :=
      allocBufFromPool_ok hctx hready.request hready.le
        (by change segCount task.len ≤ s.dataBufList.length; omega)
        (by change 0 ≤ (s.ctxs s.ioc).totalNseg; omega)
        (by change (s.ctxs s.ioc).totalNseg + segCount task.len < 2 ^ 31; omega)
    rw [halloc]
    intro heq
    cases heq
  · exact submit_ok htask hready hfull (by omega) (by omega) (by omega)

end

/-- Buffers and slots are conserved, and the loop never waits for nothing. -/
theorem pool_conserved (cfg : Config) (s : Sys) (hmax : 1 ≤ cfg.maxQueueDepth)
    (h : Reached cfg s) : Conserved cfg s := by
  obtain ⟨pend, rest, hcore, _, _⟩ := h.inv
  refine ⟨hcore.pool, hcore.nseg_sum, hcore.depth, ?_, ?_, ?_⟩
  · rw [hcore.depth]
    exact hcore.depth_le
  · intro _ hin p hp
    obtain ⟨hfull, task, htask, halloc, _⟩ := hcore.no_wait hmax hin hp
    exact ⟨hfull, task, htask, halloc⟩
  · intro _ hrun
    by_cases hin : s.inflight = []
    · refine Or.inr ?_
      have hcount := hcore.running s.ioc
      rw [if_pos rfl, hin] at hcount
      cases hrest : rest with
      | nil =>
        rw [hrest] at hcount
        exact absurd hcount hrun
      | cons p rest' =>
        have hp : s.t = some p := by
          rw [hcore.rest_chain.head, hrest]
          exact rfl
        obtain ⟨_, task, _, _, hsubmit⟩ := hcore.no_wait hmax hin hp
        refine ⟨p, _, hp, hsubmit, ?_⟩
        change flight (s.inflight ++ [sentCommand cfg s p task]) = [p]
        rw [hin]
        exact rfl
    · exact Or.inl hin

/-- The queue and its device before the first call; the contexts of the caller have a `priv`. -/
def started : Sys where
  disk := fun x => UInt8.ofNat x
  mem := fun _ => 0
  dma := fun _ _ => 0
  tasks := fun _ => none
  ctxs
    | .user _ => IOContext.new (some 0)
    | .stack _ => IOContext.new none
  fresh := 0
  dataBufList := (List.range dataBufferDefaultNum).reverse
  currentQueueDepth := 0
  inflight := []
  pc := .idle
  t := none
  ioc := .user 0
  frame := none
  ret := 0
  log := []

theorem started_initial : Initial started where
  tasks := fun _ => rfl
  ctxs := by
    intro c
    cases c with
    | user n => rfl
    | stack n => rfl
  pool := by simp only [started]
  depth := rfl
  inflight := rfl
  pc := rfl
  t := rfl
  frame := rfl
  log := rfl

def runLabels (cfg : Config) (ls : List Label) : Option Sys :=
  execAll (Label.exec cfg) (fun s l => decide (Fits cfg s l)) started ls

theorem runLabels_reached {cfg : Config} {ls : List Label} {s : Sys}
    (h : runLabels cfg ls = some s) : Reached cfg s :=
  Reachable.run (.start started_initial)
    (execAll_run (fun _ _ _ hfits hexec => ⟨of_decide_eq_true hfits, hexec⟩) h)

/-- Two of the four tasks of a read are in flight, and the queue is full. -/
theorem pool_conserved_full : ∃ s, s.inflight.length = 2 ∧ Conserved ⟨4096, 2 ^ 40, 2⟩ s := by
  have hrun : ∃ s ∈ runLabels ⟨4096, 2 ^ 40, 2⟩
      [.call (.read 0 397312 0), .tick, .tick, .tick, .tick, .tick], s.inflight.length = 2 := by
    decide +kernel
  obtain ⟨s, hs, hlen⟩ := hrun
  exact ⟨s, hlen, pool_conserved _ s (by decide) (runLabels_reached hs)⟩

/-! What has become of the tasks. -/

/-- The accounts of a state; the lists of `appends` and so on have the newest event first. -/
structure Accounted (s : Sys) : Prop where
  /-- Between two calls nothing is left to submit or runs. -/
  idle : s.pc = .idle → s.t = none ∧ ∀ c, (s.ctxs c).numRunning = 0
  /-- The chain `l` of a context, and what `_aio_handle` has left to submit. -/
  chain : ∀ c, ∃ l left, Chain (nextOf s.tasks) (s.ctxs c).nvmeTaskFirst l ∧ l.Nodup ∧
    (s.ctxs c).nvmeTaskLast = l.getLast? ∧ (s.ctxs c).numPending = l.length ∧
    Chain (nextOf s.tasks) (if c = s.ioc then s.t else none) left ∧
    appends c s.log = (left ++ l).reverse ++ submits c s.log
  last : ∀ c p, (s.ctxs c).nvmeTaskLast = some p → nextOf s.tasks p = none
  null : ∀ c, (s.ctxs c).nvmeTaskFirst = none ↔ (s.ctxs c).nvmeTaskLast = none
  once : ∀ c, (appends c s.log).Nodup
  running : ∀ c, (s.ctxs c).numRunning = (takes c s.log).sum - (completes c s.log).length
  deleted : (deletes s.log).Nodup ∧
    ∀ p, p ∈ deletes s.log ↔ p.isHeap = true ∧ ∃ c, p ∈ completes c s.log
  drained : s.pc = .idle → ∀ c, (completes c s.log).Perm (submits c s.log)
  primary : ∀ q, s.frame = some q → ∃ prim, s.tasks q = some prim ∧ prim.returnCode =
    if (completes s.ioc s.log).length = (appends s.ioc s.log).length then 0 else 1
  called : s.pc = .idle → ∀ c, (s.ctxs c).priv ≠ none →
    (calls c s.log).length = (takes c s.log).length

theorem mem_retires {log : List Event} {p : TaskPtr} :
    p ∈ retires log ↔ ∃ c, p ∈ completes c log := by
  unfold retires completes
  simp only [List.mem_filterMap]
  constructor
  · intro h
    obtain ⟨e, he, hp⟩ := h
    cases e with
    | complete c p' =>
      obtain rfl : p' = p := Option.some.inj hp
      exact ⟨c, _, he, if_pos rfl⟩
    | append c p' => cases hp
    | take c n => cases hp
    | submit c p' => cases hp
    | delete p' => cases hp
    | callback c ctx pool => cases hp
  · intro h
    obtain ⟨c, e, he, hp⟩ := h
    cases e with
    | complete d p' =>
      refine ⟨_, he, ?_⟩
      have hsome : (if d = c then some p' else none) = some p := hp
      split at hsome
      · exact hsome
      · cases hsome
    | append d p' => cases hp
    | take d n => cases hp
    | submit d p' => cases hp
    | delete p' => cases hp
    | callback d ctx pool => cases hp

section
variable {cfg : Config} {s s' : Sys}

theorem Inv.accounted (h : Inv cfg s) : Accounted s := by
  obtain ⟨pend, rest, hcore, hbooks, _⟩ := h
  refine ⟨?_, ?_, ?_, ?_, hbooks.nodup, ?_, ⟨hbooks.once, ?_⟩, ?_, ?_, ?_⟩
  · intro hpc
    obtain ⟨hin, hrest, _⟩ := hcore.idle hpc
    refine ⟨?_, ?_⟩
    · rw [hcore.rest_chain.head, hrest]
      exact rfl
    · intro c
      rw [hcore.running c, hin, hrest]
      exact ite_self _
  · intro c
    have hpend := hcore.pending c
    refine ⟨pend c, if c = s.ioc then rest else [], hpend.chain, hpend.chain.nodup, hpend.last,
      hpend.count, ?_, ?_⟩
    · by_cases hc : c = s.ioc
      · rw [if_pos hc, if_pos hc]
        exact hcore.rest_chain
      · rw [if_neg hc, if_neg hc]
        exact .nil
    · rw [List.reverse_append]
      exact hbooks.order c
  · intro c p hp
    have hpend := hcore.pending c
    have hlast := hpend.last.symm.trans hp
    obtain ⟨l, hl⟩ := List.getLast?_eq_some_iff.mp hlast
    have hchain := hpend.chain
    rw [hl] at hchain
    exact hchain.next_last
  · intro c
    have hpend := hcore.pending c
    rw [hpend.chain.head, hpend.last, List.head?_eq_none_iff, List.getLast?_eq_none_iff]
  · intro c
    have hsum := hbooks.running c
    omega
  · intro p
    rw [hbooks.deleted, List.mem_filter, mem_retires]
    exact And.comm
  · intro hpc c
    have hflights := hbooks.flights c
    rw [(hcore.idle hpc).1] at hflights
    have hnil : (if c = s.ioc then flight [] else []) = ([] : List TaskPtr) := ite_self _
    rw [hnil] at hflights
    exact hflights.symm
  · intro q hq
    obtain ⟨_, prim, hprim, hp⟩ := hcore.frame q hq
    have hpc : s.pc ≠ .idle := by
      intro hidle
      rw [(hcore.idle hidle).2.2] at hq
      cases hq
    have horder := congrArg List.length (hbooks.order s.ioc)
    have hflights := (hbooks.flights s.ioc).length_eq
    rw [hcore.taken hpc, if_pos rfl] at horder
    rw [if_pos rfl] at hflights
    simp only [List.length_append, List.length_reverse, List.length_nil] at horder hflights
    refine ⟨prim, hprim, hp.code.trans ?_⟩
    by_cases hlive : flight s.inflight ++ rest = []
    · have hlen := congrArg List.length hlive
      rw [List.length_append, List.length_nil] at hlen
      rw [if_pos hlive, if_pos (by omega)]
    · have hpos := List.length_pos_of_ne_nil hlive
      rw [List.length_append] at hpos
      rw [if_neg hlive, if_neg (by omega)]
  · intro hpc c hc
    have hcall := hbooks.callbacks c hc
    obtain ⟨hin, hrest, _⟩ := hcore.idle hpc
    rw [hin, hrest, if_neg fun h => h.2 rfl] at hcall
    exact hcall.symm

structure SameTrace (c : CtxPtr) (s s' : Sys) : Prop where
  appends : appends c s'.log = appends c s.log
  takes : takes c s'.log = takes c s.log
  priv : (s'.ctxs c).priv = (s.ctxs c).priv

theorem SameTrace.trans {c : CtxPtr} {s'' : Sys} (h : SameTrace c s s') (h' : SameTrace c s' s'') :
    SameTrace c s s'' :=
  ⟨h'.appends.trans h.appends, h'.takes.trans h.takes, h'.priv.trans h.priv⟩

theorem Turn.trace {rest rest' : List TaskPtr} (h : Turn cfg s rest s' rest') (c : CtxPtr) :
    SameTrace c s s' := by
  cases h with
  | done hpc hin => exact ⟨rfl, rfl, rfl⟩
  | more hpc hne => exact ⟨rfl, rfl, rfl⟩
  | poll hpc hin => exact ⟨rfl, rfl, rfl⟩
  | skip hpc hin => exact ⟨rfl, rfl, rfl⟩
  | polled hpc => exact ⟨rfl, rfl, rfl⟩
  | last hpc => exact ⟨rfl, rfl, rfl⟩
  | wait hpc htask htask' hwait => exact ⟨rfl, rfl, rfl⟩
  | send hpc htask hready hslot hpool =>
    refine ⟨rfl, rfl, ?_⟩
    change (update s.ctxs s.ioc _ c).priv = _
    by_cases hc : c = s.ioc
    · subst hc
      rw [update_self]
    · rw [update_of_ne hc]

theorem Core.trace {pend : CtxPtr → List TaskPtr} {rest : List TaskPtr} {l : Label}
    (h : Core cfg pend rest s) (hstep : Working cfg s l s') (c : CtxPtr) : SameTrace c s s' := by
  rcases hstep.cases with ⟨_, htick⟩ | ⟨i, cmd, _, hi, _, rfl⟩ | ⟨i, cmd, _, hi, _, _, hdone⟩
  · obtain ⟨s1, rest', hs1, hturn⟩ := h.tick_turn hstep.1
    obtain rfl : s1 = s' := Except.ok.inj (hs1.symm.trans htick)
    exact hturn.trace c
  · unfold move
    split
    · exact ⟨rfl, rfl, rfl⟩
    · exact ⟨rfl, rfl, rfl⟩
  · obtain ⟨task, htask, hsent⟩ := h.sent cmd (List.mem_of_getElem? hi)
    rw [h.ioComplete_eq hi htask hsent] at hdone
    obtain ⟨mem, _, heq⟩ := bind_ok hdone
    obtain rfl := Except.ok.inj heq
    have hlog := (retireEvents_cases hsent.kind fun q hq => (h.frame q hq).1).adds
      (.complete s.ioc cmd.task :: s.log)
    refine ⟨hlog.appends c, hlog.takes c, ?_⟩
    change (update s.ctxs s.ioc _ c).priv = _
    by_cases hc : c = s.ioc
    · subst hc
      rw [update_self]
    · rw [update_of_ne hc]

/-! An `aio_submit`, from its start in `s1`. -/

/-- It is in progress, or over; nothing waits in the context `c` any more. -/
structure Submitting (cfg : Config) (c : CtxPtr) (s1 s : Sys) : Prop where
  inv : ∃ pend rest, Core cfg pend rest s ∧ Books pend rest s ∧ pend c = []
  frame : s.frame = none
  trace : SameTrace c s1 s

theorem Submitting.working {c : CtxPtr} {s1 : Sys} {l : Label} (h : Submitting cfg c s1 s)
    (hstep : Working cfg s l s') : Submitting cfg c s1 s' := by
  obtain ⟨⟨pend, rest, hcore, hbooks, hempty⟩, hframe, htrace⟩ := h
  obtain ⟨rest', hcore', hbooks', _, hframe'⟩ :=
    hcore.keeps_working hbooks (fun hne => absurd hframe hne) hstep
  exact ⟨⟨pend, rest', hcore', hbooks', hempty⟩, hframe' hframe,
    htrace.trans (hcore.trace hstep c)⟩

theorem Submitting.safe {c : CtxPtr} {s1 : Sys} (h : Submitting cfg c s1 s) : Safe cfg s := by
  obtain ⟨_, _, hcore, _⟩ := h.inv
  exact hcore.safe_async h.frame

/-- What an `aio_submit` on the context has done from `s` to its return in `t`: all that was
appended is submitted, and the callback is called once if that is anything. -/
structure Submitted (c : CtxPtr) (s t : Sys) : Prop where
  empty : (t.ctxs c).numPending = 0
  appended : appends c t.log = appends c s.log
  submitted : submits c t.log = appends c s.log
  called : (s.ctxs c).priv ≠ none → (calls c t.log).length = (calls c s.log).length +
    if (s.ctxs c).numPending = 0 then 0 else 1

theorem Submitting.submitted {c : CtxPtr} {s0 s1 : Sys} (h : Submitting cfg c s1 s)
    (hpc : s.pc = .idle) (happends : appends c s1.log = appends c s0.log)
    (hpriv : (s1.ctxs c).priv = (s0.ctxs c).priv)
    (htakes : (s0.ctxs c).priv ≠ none → (takes c s1.log).length = (calls c s0.log).length +
      if (s0.ctxs c).numPending = 0 then 0 else 1) : Submitted c s0 s := by
  obtain ⟨pend, rest, hcore, hbooks, hempty⟩ := h.inv
  obtain ⟨hin, rfl, _⟩ := hcore.idle hpc
  have horder := hbooks.order c
  rw [hempty, ite_self] at horder
  refine ⟨?_, h.trace.appends.trans happends, ?_, ?_⟩
  · rw [(hcore.pending c).count, hempty]
    exact rfl
  · rw [← happends, ← h.trace.appends, horder]
    exact rfl
  · intro hne
    have hcalls := hbooks.callbacks c (by rwa [h.trace.priv, hpriv])
    rw [hin, if_neg fun hlive => hlive.2 rfl] at hcalls
    rw [← htakes hne, ← h.trace.takes, hcalls, Nat.add_zero]

theorem Reached.aioSubmit {n : Nat} (h : Reached cfg s) (hpc : s.pc = .idle)
    (hfits : Fits cfg s (.call (.aioSubmit n))) : ∃ s1, Step cfg s (.call (.aioSubmit n)) s1 ∧
      Submitting cfg (.user n) s1 s1 ∧ appends (.user n) s1.log = appends (.user n) s.log ∧
      (s1.ctxs (.user n)).priv = (s.ctxs (.user n)).priv ∧
      ((s.ctxs (.user n)).priv ≠ none → (takes (.user n) s1.log).length =
        (calls (.user n) s.log).length + if (s.ctxs (.user n)).numPending = 0 then 0 else 1) := by
  obtain ⟨pend, hquiet, hbooks, hframe⟩ := h.inv.idle hpc
  have hloaded := hquiet.loaded (.user n) hpc hframe
  have hcount := (hquiet.pending (.user n)).count
  have hbefore := h.inv.accounted.called hpc (.user n)
  have hstep : ∀ {s1 : Sys}, Blk.aioSubmit s (.user n) = .ok s1 →
      Step cfg s (.call (.aioSubmit n)) s1 := by
    intro s1 hs1
    change (if s.pc = .idle then Blk.aioSubmit s (.user n) else .error .disabled) = .ok s1
    rw [if_pos hpc]
    exact hs1
  by_cases hempty : pend (.user n) = []
  · have hreturn : Blk.aioSubmit s (.user n) = .ok (returned s 0) := by
      rw [hloaded.submit_empty hempty, returnCall_none hframe]
    have hbooks' : Books pend [] (returned s 0) :=
      hbooks.silent rfl rfl rfl (Nat.le_refl _) (fun _ hp _ => returned_dead hp) (fun _ => rfl)
        fun _ hp => hp
    have hquiet' := hquiet.returned 0 fun q hq => absurd (hframe.symm.trans hq) nofun
    rw [hempty] at hcount
    refine ⟨_, hstep hreturn, ⟨⟨pend, [], hquiet'.core cfg rfl rfl, hbooks', hempty⟩, rfl,
      ⟨rfl, rfl, rfl⟩⟩, rfl, rfl, ?_⟩
    intro hpriv
    have hzero : (s.ctxs (.user n)).numPending = 0 := hcount
    rw [if_pos hzero]
    exact (hbefore hpriv).symm
  · have hpos : 0 < (pend (.user n)).length := List.length_pos_of_ne_nil hempty
    have hlt : outstanding s (.user n) + 0 < 2 ^ 31 := hfits
    have hpend := hbooks.pending_le n
    obtain ⟨htaken, hcore⟩ := hloaded.submit hempty (by omega) cfg
    have hbooks' := hbooks.take hquiet.inflight hquiet.running (.user n) hempty
    refine ⟨_, hstep htaken, ⟨⟨_, _, hcore, hbooks', update_self _ _ _⟩, hframe, ⟨rfl, rfl, rfl⟩⟩,
      rfl, ?_, ?_⟩
    · change (update s.ctxs (.user n) _ (.user n)).priv = _
      rw [update_self]
    · intro hpriv
      change (takes (.user n) (.take (.user n) (pend (.user n)).length :: s.log)).length = _
      rw [takes_cons, if_pos rfl, List.length_cons, if_neg (by omega), hbefore hpriv]

end

end LockdepSpdk.Blk
