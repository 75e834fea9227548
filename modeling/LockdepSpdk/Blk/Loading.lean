import LockdepSpdk.Blk.Core

/-!
# Filling a context

The tasks that `write_split` and `make_read_tasks` make, and the chain that
`ioc_append_task` builds of them.
-/

namespace LockdepSpdk.Blk

set_option autoImplicit false

open Function Linked

/-- What a task moves. -/
structure Job where
  command : IOCommand
  offset : Nat
  len : Nat
  buf : Nat
  fillCb : Option FillCb
  deriving DecidableEq

def Task.job (task : Task) : Job := ⟨task.command, task.offset, task.len, task.buf, task.fillCb⟩

def jobOf (tasks : TaskPtr → Option Task) (p : TaskPtr) : Option Job := (tasks p).map Task.job

def linked (tasks : TaskPtr → Option Task) (last : Option TaskPtr) (p : TaskPtr) :
    TaskPtr → Option Task :=
  match last with
  | none => tasks
  | some q => update tasks q ((tasks q).map fun task => { task with next := some p })

section
variable {tasks : TaskPtr → Option Task} {last : Option TaskPtr} {p q : TaskPtr} {task : Task}

theorem linked_self (h : tasks q = some task) :
    linked tasks (some q) p = update tasks q (some { task with next := some p }) := by
  simp only [linked, h, Option.map_some]

theorem linked_of_ne (h : last ≠ some q) : linked tasks last p q = tasks q := by
  unfold linked
  split
  · rfl
  · next q' =>
    apply update_of_ne
    intro heq
    exact h (by rw [heq])

theorem linked_some (last : Option TaskPtr) (p : TaskPtr) (h : tasks q = some task) :
    ∃ n, linked tasks last p q = some { task with next := n } := by
  by_cases hq : last = some q
  · subst hq
    refine ⟨some p, ?_⟩
    rw [linked_self h, update_self]
  · exact ⟨task.next, (linked_of_ne hq).trans h⟩

theorem jobOf_linked : jobOf (linked tasks last p) q = jobOf tasks q := by
  unfold jobOf
  cases h : tasks q with
  | none =>
    by_cases hq : last = some q
    · subst hq
      change ((update tasks q _ q).map Task.job) = none
      rw [update_self, h]
      exact rfl
    · rw [linked_of_ne hq, h]
  | some task =>
    obtain ⟨n, hn⟩ := linked_some last p h
    rw [hn]
    exact rfl

theorem nextOf_linked (h : ∀ r, last = some r → tasks r ≠ none) :
    nextOf (linked tasks last p) = fun q => if last = some q then some p else nextOf tasks q := by
  funext q
  by_cases hq : last = some q
  · rw [if_pos hq]
    obtain ⟨task, htask⟩ := Option.ne_none_iff_exists'.mp (h q hq)
    subst hq
    unfold nextOf
    rw [linked_self htask, update_self]
    exact rfl
  · rw [if_neg hq]
    exact nextOf_congr (linked_of_ne hq)

end

theorem Ready.relink {frame : Option TaskPtr} {c : CtxPtr} {p : TaskPtr} {task : Task}
    (h : Ready frame c p task) (n : Option TaskPtr) : Ready frame c p { task with next := n } :=
  ⟨h.ctx, h.pos, h.le, h.command, h.request, h.kind, h.fills⟩

def appended (s : Sys) (c : CtxPtr) (p : TaskPtr) (l : List TaskPtr) : Sys :=
  { s with
    tasks := linked s.tasks l.getLast? p
    ctxs := update s.ctxs c { s.ctxs c with
      nvmeTaskFirst := (s.ctxs c).nvmeTaskFirst.orElse fun _ => some p
      nvmeTaskLast := some p
      numPending := l.length + 1 }
    log := .append c p :: s.log }

theorem iocAppendTask_ok {s : Sys} {c : CtxPtr} {l : List TaskPtr} (p : TaskPtr)
    (hpend : Pending s.tasks (s.ctxs c) l) (halloc : ∀ q ∈ l, s.tasks q ≠ none)
    (hlt : l.length + 1 < 2 ^ 31) : iocAppendTask s c p = .ok (appended s c p l) := by
  have hcount : int32 ((s.ctxs c).numPending + 1) = l.length + 1 := by
    rw [hpend.count]
    exact int32_of_lt (by omega) (by omega)
  have hlink : linkLast s (s.ctxs c).nvmeTaskLast p =
      .ok { s with tasks := linked s.tasks l.getLast? p } := by
    rw [hpend.last]
    cases hl : l.getLast? with
    | none => rfl
    | some q =>
      obtain ⟨task, htask⟩ :=
        Option.ne_none_iff_exists'.mp (halloc q (List.mem_of_getLast? hl))
      rw [linked_self htask]
      simp only [linkLast, Sys.task_some htask]
      exact rfl
  unfold iocAppendTask
  simp only [hlink, hcount]
  exact rfl

/-- Between two calls, or in a call that has not come to `aio_submit`: nothing runs, and `c` is
the context that is being filled. -/
structure Loaded (pend : CtxPtr → List TaskPtr) (c : CtxPtr) (s : Sys) : Prop where
  pending : ∀ d, Pending s.tasks (s.ctxs d) (pend d)
  waits : ∀ d, ∀ p ∈ pend d, ∃ task, s.tasks p = some task ∧
    Ready (if d = c then s.frame else none) d p task
  locals : ∀ n, CtxPtr.stack n ≠ c → pend (.stack n) = []
  inflight : s.inflight = []
  running : ∀ d, (s.ctxs d).numRunning = 0
  nseg : ∀ d, (s.ctxs d).totalNseg = 0
  pool : s.dataBufList.Perm (List.range dataBufferDefaultNum)
  depth : s.currentQueueDepth = 0
  frame : ∀ q, s.frame = some q → (∃ n, q = .stack n) ∧
    ∃ prim, s.tasks q = some prim ∧ Primary q (pend c) 1 prim
  fresh : ∀ n, s.fresh ≤ n → s.tasks (.heap n) = none ∧ s.tasks (.stack n) = none
  pc : s.pc = .idle
  t : s.t = none

section
variable {pend : CtxPtr → List TaskPtr} {c : CtxPtr} {s : Sys}

theorem Loaded.alloc (h : Loaded pend c s) {d : CtxPtr} {p : TaskPtr} (hp : p ∈ pend d) :
    s.tasks p ≠ none := by
  obtain ⟨task, htask, _⟩ := h.waits d p hp
  rw [htask]
  exact Option.some_ne_none task

theorem Loaded.disjoint (h : Loaded pend c s) {d e : CtxPtr} {p : TaskPtr} (hp : p ∈ pend d)
    (hp' : p ∈ pend e) : d = e := by
  obtain ⟨task, htask, hready⟩ := h.waits d p hp
  obtain ⟨task', htask', hready'⟩ := h.waits e p hp'
  rw [htask] at htask'
  obtain rfl := Option.some.inj htask'
  have hctx := hready'.ctx
  rw [hready.ctx] at hctx
  exact Option.some.inj hctx

theorem Loaded.append (h : Loaded pend c s) {tasks : TaskPtr → Option Task} {fresh : Nat}
    {p : TaskPtr} {task : Task} (htask : tasks p = some task) (hready : Ready s.frame c p task)
    (hnext : task.next = none) (hnew : ∀ d, p ∉ pend d)
    (hothers : ∀ p', p' ≠ p → s.frame ≠ some p' → tasks p' = s.tasks p')
    (hframe : ∀ q, s.frame = some q →
      ∃ prim, tasks q = some prim ∧ Primary q (pend c ++ [p]) 1 prim)
    (hfresh : ∀ n, fresh ≤ n → tasks (.heap n) = none ∧ tasks (.stack n) = none)
    (hlt : (pend c).length + 1 < 2 ^ 31) :
    iocAppendTask { s with tasks := tasks, fresh := fresh } c p =
        .ok (appended { s with tasks := tasks, fresh := fresh } c p (pend c)) ∧
      Loaded (update pend c (pend c ++ [p])) c
        (appended { s with tasks := tasks, fresh := fresh } c p (pend c)) := by
  -- the frame waits in a chain only when it is the whole chain
  have hwhole : ∀ q, s.frame = some q → q ∉ pend c := by
    intro q hq hmem
    obtain ⟨prim, _, hprim⟩ := hframe q hq
    have hlen := congrArg List.length (hprim.alone (List.mem_append_left _ hmem))
    have hpos := List.length_pos_of_mem hmem
    simp only [List.length_append, List.length_singleton] at hlen
    omega
  have hkept : ∀ d, ∀ p' ∈ pend d, tasks p' = s.tasks p' := by
    intro d p' hp'
    apply hothers
    · intro heq
      exact hnew d (heq ▸ hp')
    · intro hq
      by_cases hd : d = c
      · exact hwhole p' hq (hd ▸ hp')
      · obtain ⟨task', _, hready'⟩ := h.waits d p' hp'
        obtain ⟨n, hn⟩ := (h.frame p' hq).1
        have hkind := hready'.kind
        rw [if_neg hd] at hkind
        obtain ⟨_, _, m, hm⟩ := hkind
        rw [hn] at hm
        cases hm
  have hpend : ∀ d, Pending tasks (s.ctxs d) (pend d) := fun d =>
    (h.pending d).congr (fun p' hp' => nextOf_congr (hkept d p' hp')) rfl rfl rfl
  have halloc : ∀ d, ∀ q ∈ pend d, tasks q ≠ none := by
    intro d q hq
    rw [hkept d q hq]
    exact h.alloc hq
  have hlast : ∀ q, (pend c).getLast? = some q → q ∈ pend c := fun q => List.mem_of_getLast?
  refine ⟨iocAppendTask_ok p (hpend c) (halloc c) hlt, ?_⟩
  have hlinked : nextOf (linked tasks (pend c).getLast? p) =
      fun q => if (pend c).getLast? = some q then some p else nextOf tasks q :=
    nextOf_linked fun r hr => halloc c r (hlast r hr)
  refine ⟨?_, ?_, ?_, h.inflight, ?_, ?_, h.pool, h.depth, ?_, ?_, h.pc, h.t⟩
  · intro d
    change Pending (linked tasks (pend c).getLast? p) (update s.ctxs c _ d) _
    by_cases hd : d = c
    · subst hd
      rw [update_self, update_self]
      refine ⟨?_, by simp, by simp⟩
      rw [hlinked]
      apply (hpend d).chain.snoc _ (hnew d)
      unfold nextOf
      rw [htask]
      exact hnext
    · rw [update_of_ne hd, update_of_ne hd]
      apply (hpend d).congr _ rfl rfl rfl
      intro q hq
      rw [hlinked]
      apply if_neg
      intro heq
      exact hd (h.disjoint hq (hlast q heq))
  · intro d p' hp'
    have hold : p' ∈ pend d → ∃ task', linked tasks (pend c).getLast? p p' = some task' ∧
        Ready (if d = c then s.frame else none) d p' task' := by
      intro hmem
      obtain ⟨task', htask', hready'⟩ := h.waits d p' hmem
      rw [← hkept d p' hmem] at htask'
      obtain ⟨n, hn⟩ := linked_some (pend c).getLast? p htask'
      exact ⟨_, hn, hready'.relink n⟩
    by_cases hd : d = c
    · subst hd
      rw [update_self] at hp'
      rcases List.mem_append.mp hp' with hp' | hp'
      · exact hold hp'
      · obtain rfl : p' = p := List.mem_singleton.mp hp'
        obtain ⟨n, hn⟩ := linked_some (pend d).getLast? p' htask
        refine ⟨_, hn, ?_⟩
        rw [if_pos rfl]
        exact hready.relink n
    · rw [update_of_ne hd] at hp'
      exact hold hp'
  · intro n hn
    rw [update_of_ne hn]
    exact h.locals n hn
  · intro d
    change (update s.ctxs c _ d).numRunning = 0
    by_cases hd : d = c
    · subst hd
      rw [update_self]
      exact h.running d
    · rw [update_of_ne hd]
      exact h.running d
  · intro d
    change (update s.ctxs c _ d).totalNseg = 0
    by_cases hd : d = c
    · subst hd
      rw [update_self]
      exact h.nseg d
    · rw [update_of_ne hd]
      exact h.nseg d
  · intro q hq
    refine ⟨(h.frame q hq).1, ?_⟩
    obtain ⟨prim, hprim, hp⟩ := hframe q hq
    refine ⟨prim, ?_, ?_⟩
    · refine (linked_of_ne ?_).trans hprim
      intro heq
      exact hwhole q hq (hlast q heq)
    · rw [update_self]
      exact hp
  · intro n hn
    have hnone := hfresh n hn
    constructor
    · refine (linked_of_ne ?_).trans hnone.1
      intro heq
      exact halloc c _ (hlast _ heq) hnone.1
    · refine (linked_of_ne ?_).trans hnone.2
      intro heq
      exact halloc c _ (hlast _ heq) hnone.2

end

end LockdepSpdk.Blk
