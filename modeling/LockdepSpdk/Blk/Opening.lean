import LockdepSpdk.Blk.Building

/-!
# Where calls begin and end

The locals of a synchronous call, what `aio_submit` takes, and the return.
-/

namespace LockdepSpdk.Blk

set_option autoImplicit false

open Function Linked

/-- Nothing runs, and all contexts but those of calls may hold tasks. -/
structure Quiet (pend : CtxPtr → List TaskPtr) (s : Sys) : Prop where
  pending : ∀ d, Pending s.tasks (s.ctxs d) (pend d)
  waits : ∀ d, ∀ p ∈ pend d, ∃ task, s.tasks p = some task ∧ Ready none d p task
  locals : ∀ n, pend (.stack n) = []
  inflight : s.inflight = []
  running : ∀ d, (s.ctxs d).numRunning = 0
  nseg : ∀ d, (s.ctxs d).totalNseg = 0
  pool : s.dataBufList.Perm (List.range dataBufferDefaultNum)
  depth : s.currentQueueDepth = 0
  fresh : ∀ n, s.fresh ≤ n → s.tasks (.heap n) = none ∧ s.tasks (.stack n) = none
  t : s.t = none

section
variable {cfg : Config} {pend : CtxPtr → List TaskPtr} {rest : List TaskPtr} {c : CtxPtr} {s : Sys}

theorem Core.quiet (h : Core cfg pend rest s) (hlive : flight s.inflight ++ rest = []) :
    Quiet pend s := by
  have hin : s.inflight = [] := List.map_eq_nil_iff.mp (List.append_eq_nil_iff.mp hlive).1
  have ht : s.t = none := by
    have hchain := h.rest_chain
    rw [(List.append_eq_nil_iff.mp hlive).2] at hchain
    exact hchain.head
  refine ⟨h.pending, h.waits, h.local_empty, hin, ?_, ?_, ?_, ?_, h.fresh, ht⟩
  · intro d
    have hrun := h.running d
    rw [hlive] at hrun
    simpa using hrun
  · intro d
    have hseg := h.nseg d
    rw [hin] at hseg
    simpa [heldSegs] using hseg
  · have hpool := h.pool
    rw [hin] at hpool
    simpa [heldSegs] using hpool
  · rw [h.depth, hin]
    exact rfl

theorem Quiet.core (h : Quiet pend s) (cfg : Config) (hpc : s.pc = .idle)
    (hframe : s.frame = none) : Core cfg pend [] s where
  pending := h.pending
  waits := h.waits
  local_empty := h.locals
  rest_chain := by
    rw [h.t]
    exact .nil
  rest_ready := by simp
  sent := by simp [h.inflight]
  nodup := by simp [h.inflight, flight]
  running := fun d => by simp [h.running, h.inflight, flight]
  nseg := fun d => by simp [h.nseg, h.inflight, heldSegs]
  pool := by simpa [h.inflight, heldSegs] using h.pool
  depth := by simp [h.depth, h.inflight]
  depth_le := by simp [h.inflight]
  frame := by simp [hframe]
  fresh := h.fresh
  taken := fun hne => absurd hpc hne
  idle := fun _ => ⟨h.inflight, rfl, hframe⟩
  small := by simp [h.inflight, flight]

theorem Quiet.loaded (h : Quiet pend s) (c : CtxPtr) (hpc : s.pc = .idle)
    (hframe : s.frame = none) : Loaded pend c s where
  pending := h.pending
  waits := by
    intro d p hp
    rw [hframe, ite_self]
    exact h.waits d p hp
  locals := fun n _ => h.locals n
  inflight := h.inflight
  running := h.running
  nseg := h.nseg
  pool := h.pool
  depth := h.depth
  frame := by simp [hframe]
  fresh := h.fresh
  pc := hpc
  t := h.t

theorem Loaded.quiet (h : Loaded pend c s)
    (hc : pend c = [] ∨ (s.frame = none ∧ ∃ n, c = .user n)) : Quiet pend s where
  pending := h.pending
  waits := by
    intro d p hp
    obtain ⟨task, htask, hready⟩ := h.waits d p hp
    refine ⟨task, htask, ?_⟩
    by_cases hd : d = c
    · rcases hc with hempty | ⟨hframe, _⟩
      · rw [hd, hempty] at hp
        cases hp
      · rwa [if_pos hd, hframe] at hready
    · rwa [if_neg hd] at hready
  locals := by
    intro n
    by_cases hn : CtxPtr.stack n = c
    · rcases hc with hempty | ⟨_, m, hm⟩
      · rwa [hn]
      · rw [hm] at hn
        cases hn
    · exact h.locals n hn
  inflight := h.inflight
  running := h.running
  nseg := h.nseg
  pool := h.pool
  depth := h.depth
  fresh := h.fresh
  t := h.t

/-! Opening. -/

theorem Quiet.openFrame (h : Quiet pend s) (off len : Nat) :
    Quiet pend (Blk.openFrame s off len).2 := by
  have hold : ∀ p, s.tasks p ≠ none → p ≠ .stack s.fresh := by
    intro p hp heq
    rw [heq] at hp
    exact hp (h.fresh s.fresh (Nat.le_refl _)).2
  have hwait : ∀ d, ∀ p ∈ pend d, (Blk.openFrame s off len).2.tasks p = s.tasks p := by
    intro d p hp
    obtain ⟨task, htask, _⟩ := h.waits d p hp
    apply update_of_ne
    exact hold p (by rw [htask]; exact Option.some_ne_none task)
  refine ⟨?_, ?_, h.locals, h.inflight, h.running, h.nseg, h.pool, h.depth, ?_, h.t⟩
  · intro d
    exact (h.pending d).congr (fun p hp => nextOf_congr (hwait d p hp)) rfl rfl rfl
  · intro d p hp
    obtain ⟨task, htask, hready⟩ := h.waits d p hp
    exact ⟨task, (hwait d p hp).trans htask, hready⟩
  · intro n hn
    have hn' : s.fresh + 1 ≤ n := hn
    have hnone := h.fresh n (by omega)
    constructor
    · change update s.tasks (.stack s.fresh) (some (Task.new .readCommand off len 1)) (.heap n) = none
      rw [update_of_ne fun heq => TaskPtr.noConfusion heq]
      exact hnone.1
    · refine (update_of_ne ?_ _ _).trans hnone.2
      intro heq
      have hidx : n = s.fresh := congrArg TaskPtr.index heq
      omega

theorem Quiet.openContext (h : Quiet pend s) (hpc : s.pc = .idle)
    (hframe : ∀ q, s.frame = some q → (∃ n, q = .stack n) ∧
      ∃ prim, s.tasks q = some prim ∧ Primary q [] 1 prim) :
    Loaded pend (Blk.openContext s).1 (Blk.openContext s).2 := by
  have hctx : ∀ d, d ≠ (Blk.openContext s).1 → (Blk.openContext s).2.ctxs d = s.ctxs d :=
    fun d hd => update_of_ne hd _ _
  have hself : (Blk.openContext s).2.ctxs (Blk.openContext s).1 = IOContext.new none :=
    update_self _ _ _
  have hempty : pend (Blk.openContext s).1 = [] := h.locals s.fresh
  refine ⟨?_, ?_, fun n _ => h.locals n, h.inflight, ?_, ?_, h.pool, h.depth, ?_, ?_, hpc, h.t⟩
  · intro d
    by_cases hd : d = (Blk.openContext s).1
    · subst hd
      rw [hself, hempty]
      exact ⟨.nil, rfl, rfl⟩
    · rw [hctx d hd]
      exact h.pending d
  · intro d p hp
    obtain ⟨task, htask, hready⟩ := h.waits d p hp
    refine ⟨task, htask, ?_⟩
    rw [if_neg]
    · exact hready
    · intro hd
      rw [hd, hempty] at hp
      cases hp
  · intro d
    by_cases hd : d = (Blk.openContext s).1
    · subst hd
      rw [hself]
      exact rfl
    · rw [hctx d hd]
      exact h.running d
  · intro d
    by_cases hd : d = (Blk.openContext s).1
    · subst hd
      rw [hself]
      exact rfl
    · rw [hctx d hd]
      exact h.nseg d
  · rw [hempty]
    exact hframe
  · intro n hn
    exact h.fresh n (Nat.le_of_succ_le hn)

theorem primary_new (q : TaskPtr) (off len : Nat) :
    Primary q [] 1 (Task.new .readCommand off len 1) :=
  ⟨rfl, rfl, fun hq => absurd hq List.not_mem_nil, fun _ => rfl⟩

/-! `aio_submit`. -/

def taken (s : Sys) (c : CtxPtr) (l : List TaskPtr) : Sys :=
  { s with
    pc := .test
    t := l.head?
    ioc := c
    ctxs := update s.ctxs c { s.ctxs c with
      nvmeTaskFirst := none
      nvmeTaskLast := none
      numPending := 0
      numRunning := l.length }
    log := .take c l.length :: s.log }

theorem Loaded.submit_empty (h : Loaded pend c s) (hempty : pend c = []) :
    aioSubmit s c = returnCall s := by
  have hcount := (h.pending c).count
  rw [hempty] at hcount
  unfold aioSubmit
  apply if_neg
  intro hpos
  exact hpos.1 hcount

theorem Loaded.submit (h : Loaded pend c s) (hne : pend c ≠ []) (hlt : (pend c).length < 2 ^ 31)
    (cfg : Config) : aioSubmit s c = .ok (taken s c (pend c)) ∧
      Core cfg (update pend c []) (pend c) (taken s c (pend c)) := by
  have hpend := h.pending c
  have hlen : 0 < (pend c).length := List.length_pos_of_ne_nil hne
  have hfirst : (s.ctxs c).nvmeTaskFirst = (pend c).head? := hpend.chain.head
  constructor
  · have hrun : int32 ((s.ctxs c).numRunning + (s.ctxs c).numPending) = (pend c).length := by
      rw [h.running c, hpend.count, Int.zero_add]
      exact int32_of_lt (by omega) (by omega)
    have hpending : int32 ((s.ctxs c).numPending - (s.ctxs c).numPending) = 0 := by
      rw [Int.sub_self]
      exact int32_of_lt (by omega) (by omega)
    have hsome : (s.ctxs c).nvmeTaskFirst ≠ none := by
      rw [hfirst]
      intro hnil
      exact hne (List.head?_eq_none_iff.mp hnil)
    unfold aioSubmit
    simp only
    rw [if_pos ⟨by rw [hpend.count]; omega, hsome⟩, hpending, if_neg (by simp), hrun, hfirst,
      hpend.count]
    exact rfl
  · have hlive : flight (taken s c (pend c)).inflight ++ pend c = pend c := by
      change flight s.inflight ++ pend c = pend c
      rw [h.inflight]
      exact rfl
    have hheld : heldSegs (taken s c (pend c)).tasks (taken s c (pend c)).inflight = [] := by
      change heldSegs s.tasks s.inflight = []
      rw [h.inflight]
      exact rfl
    have hin : (taken s c (pend c)).inflight = [] := h.inflight
    refine ⟨?_, ?_, ?_, ?_, ?_, ?_, ?_, ?_, ?_, ?_, ?_, ?_, ?_, h.fresh, ?_, ?_, ?_⟩
    · intro d
      change Pending s.tasks (update s.ctxs c _ d) _
      by_cases hd : d = c
      · subst hd
        rw [update_self, update_self]
        exact ⟨.nil, rfl, rfl⟩
      · rw [update_of_ne hd, update_of_ne hd]
        exact h.pending d
    · intro d p hp
      by_cases hd : d = c
      · rw [hd, update_self] at hp
        cases hp
      · rw [update_of_ne hd] at hp
        obtain ⟨task, htask, hready⟩ := h.waits d p hp
        rw [if_neg hd] at hready
        exact ⟨task, htask, hready⟩
    · intro n
      by_cases hn : CtxPtr.stack n = c
      · rw [hn, update_self]
      · rw [update_of_ne hn]
        exact h.locals n hn
    · change Chain (nextOf s.tasks) (pend c).head? (pend c)
      rw [← hfirst]
      exact hpend.chain
    · intro p hp
      obtain ⟨task, htask, hready⟩ := h.waits c p hp
      rw [if_pos rfl] at hready
      exact ⟨task, htask, hready⟩
    · rw [hin]
      simp
    · rw [hlive]
      exact hpend.chain.nodup
    · intro d
      rw [hlive]
      change (update s.ctxs c _ d).numRunning = if d = c then _ else 0
      by_cases hd : d = c
      · subst hd
        rw [update_self, if_pos rfl]
      · rw [update_of_ne hd, if_neg hd]
        exact h.running d
    · intro d
      rw [hheld]
      change (update s.ctxs c _ d).totalNseg = if d = c then _ else 0
      by_cases hd : d = c
      · subst hd
        rw [update_self, if_pos rfl]
        exact h.nseg d
      · rw [update_of_ne hd, if_neg hd]
        exact h.nseg d
    · rw [hheld, List.append_nil]
      exact h.pool
    · rw [hin]
      exact h.depth
    · rw [hin]
      exact Nat.zero_le _
    · intro q hq
      rw [hlive, if_neg hne]
      exact h.frame q hq
    · intro _
      exact update_self _ _ _
    · intro hidle
      cases hidle
    · rw [hlive]
      exact hlt

/-! The return. -/

def returned (s : Sys) (ret : Int) : Sys :=
  { s with
    pc := .idle
    ret := ret
    frame := none
    tasks := match s.frame with
      | none => s.tasks
      | some q => update s.tasks q none }

theorem returned_none {ret : Int} (hframe : s.frame = none) : (returned s ret).tasks = s.tasks := by
  unfold returned
  simp only [hframe]

theorem returned_some {ret : Int} {q : TaskPtr} (hframe : s.frame = some q) :
    (returned s ret).tasks = update s.tasks q none := by
  unfold returned
  simp only [hframe]

theorem returned_dead {ret : Int} {p : TaskPtr} (hp : s.tasks p = none) :
    (returned s ret).tasks p = none := by
  rcases Option.eq_none_or_eq_some s.frame with hframe | ⟨q, hframe⟩
  · rw [returned_none hframe]
    exact hp
  · rw [returned_some hframe]
    by_cases heq : p = q
    · rw [heq, update_self]
    · rw [update_of_ne heq]
      exact hp

theorem returnCall_none (hframe : s.frame = none) : returnCall s = .ok (returned s 0) := by
  unfold returnCall returned
  simp only [hframe]

theorem returnCall_some {q : TaskPtr} {prim : Task} (hframe : s.frame = some q)
    (hprim : s.tasks q = some prim) (hnseg : prim.ioRequest.nseg = 0) :
    returnCall s = .ok (returned s prim.returnCode) := by
  unfold returnCall returned
  simp only [hframe, Sys.task_some hprim]
  change (if prim.ioRequest.nseg ≠ 0 then _ else _) = _
  rw [if_neg (by omega)]

theorem Quiet.returned (h : Quiet pend s) (ret : Int)
    (hframe : ∀ q, s.frame = some q → ∃ n, q = .stack n) : Quiet pend (Blk.returned s ret) := by
  have hkeep : ∀ p, (∃ n, p = .heap n) → (Blk.returned s ret).tasks p = s.tasks p := by
    intro p hp
    obtain ⟨n, rfl⟩ := hp
    rcases Option.eq_none_or_eq_some s.frame with hq | ⟨q, hq⟩
    · rw [returned_none hq]
    · obtain ⟨m, rfl⟩ := hframe q hq
      rw [returned_some hq, update_of_ne fun heq => TaskPtr.noConfusion heq]
  have hwait : ∀ d, ∀ p ∈ pend d, (Blk.returned s ret).tasks p = s.tasks p := by
    intro d p hp
    obtain ⟨task, _, hready⟩ := h.waits d p hp
    exact hkeep p hready.kind.2.2
  refine ⟨?_, ?_, h.locals, h.inflight, h.running, h.nseg, h.pool, h.depth, ?_, h.t⟩
  · intro d
    exact (h.pending d).congr (fun p hp => nextOf_congr (hwait d p hp)) rfl rfl rfl
  · intro d p hp
    obtain ⟨task, htask, hready⟩ := h.waits d p hp
    exact ⟨task, (hwait d p hp).trans htask, hready⟩
  · intro n hn
    have hnone := h.fresh n hn
    refine ⟨(hkeep _ ⟨n, rfl⟩).trans hnone.1, ?_⟩
    rcases Option.eq_none_or_eq_some s.frame with hq | ⟨q, hq⟩
    · rw [returned_none hq]
      exact hnone.2
    · rw [returned_some hq]
      by_cases heq : TaskPtr.stack n = q
      · rw [heq, update_self]
      · rw [update_of_ne heq]
        exact hnone.2

end

end LockdepSpdk.Blk
