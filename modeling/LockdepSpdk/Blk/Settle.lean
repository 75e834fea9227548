import LockdepSpdk.Blk.Dispatch

/-!
# Lists of any commands

`_aio_handle` with a list of writes, reads and flushes. `num_running` counts the
tasks that are not completed, and besides them every flush that is.
-/

namespace LockdepSpdk.Blk

set_option autoImplicit false

open Function Linked Transition

/-- A list handed to `_aio_handle`, with `num_running` equal to its length. Its tasks are as the
callers make them, whatever the command of those that are flushed; the log begins here. -/
structure Handed (ts : List TaskPtr) (s : Sys) : Prop where
  pc : s.pc = .test
  chain : Chain (nextOf s.tasks) s.t ts
  tasks : ∀ p ∈ ts, ∃ task, s.tasks p = some task ∧ task.ctx = some s.ioc ∧
    (task.command ≠ .flushCommand → Kind s.frame p task)
  running : (s.ctxs s.ioc).numRunning = ts.length
  small : ts.length < 2 ^ 31
  inflight : s.inflight = []
  log : s.log = []
  /-- The task of `read` itself: alone of its kind in the list, or never handed over. -/
  frame : ∀ q, s.frame = some q → (∃ n, q = .stack n) ∧ ∃ prim, s.tasks q = some prim ∧
    (q ∉ ts → prim.ioRequest.nseg = 0) ∧ (q ∈ ts → prim.command = .readCommand ∧
      ∀ p ∈ ts, ∀ task, s.tasks p = some task → task.command ≠ .flushCommand → p = q)

/-- `try_aio_wake` finds the last running task, and notifies. -/
def Wakes (s : Sys) (l : Label) : Prop :=
  ∃ i cmd task c, l = .complete i ∧ s.inflight[i]? = some cmd ∧ s.tasks cmd.task = some task ∧
    task.ctx = some c ∧ task.command ≠ .flushCommand ∧ task.returnCode = 0 ∧
    (s.ctxs c).priv = none ∧ (s.ctxs c).numRunning = 1

/-- The thread leaves the loop by itself. -/
def Leaving (cfg : Config) (s : Sys) : Prop :=
  ∃ n u, Run (Step cfg) s (List.replicate n .tick) u ∧ u.pc = .idle

/-- What is to hold once everything is completed. The thread itself waits for a synchronous read,
so that its context notifies nobody else. -/
structure AllDone (cfg : Config) (ts : List TaskPtr) (s : Sys) (ls : List Label) (t : Sys) :
    Prop where
  running : (t.ctxs s.ioc).numRunning = 0
  exits : Leaving cfg t
  called : ts ≠ [] → s.frame = none → (s.ctxs s.ioc).priv ≠ none →
    (calls s.ioc t.log).length = 1
  woken : ts ≠ [] → s.frame = none → (s.ctxs s.ioc).priv = none →
    ∃ ls₁ l ls₂ u, ls = ls₁ ++ l :: ls₂ ∧ Run (Working cfg) s ls₁ u ∧ Wakes u l
  deleted : ∀ p ∈ ts, p.isHeap = true → (deletes t.log).count p = 1

def isFlush (s : Sys) (p : TaskPtr) : Bool :=
  (s.tasks p).any fun task => decide (task.command = .flushCommand)

/-- Between the start `s0` of a run and its end: what is completed, what is in flight and what is
left make up the list, and `num_running` still counts the flushes that are completed. -/
structure Tally (s0 : Sys) (ts rest : List TaskPtr) (s : Sys) : Prop where
  ioc : s.ioc = s0.ioc
  priv : (s.ctxs s0.ioc).priv = (s0.ctxs s0.ioc).priv
  chain : Chain (nextOf s.tasks) s.t rest
  kept : ∀ p ∈ flight s.inflight ++ rest, ∃ task task0, s.tasks p = some task ∧
    s0.tasks p = some task0 ∧ task.Alike task0
  perm : (retires s.log ++ (flight s.inflight ++ rest)).Perm ts
  running : (s.ctxs s0.ioc).numRunning =
    (flight s.inflight ++ rest).length + (retires s.log).countP (isFlush s0)
  deleted : deletes s.log = (retires s.log).filter fun p => p.isHeap && !isFlush s0 p
  called : ts ≠ [] → s0.frame = none → (s0.ctxs s0.ioc).priv ≠ none →
    (calls s0.ioc s.log).length = if (s.ctxs s0.ioc).numRunning = 0 then 1 else 0
  frame : s.pc ≠ .idle → s.frame = s0.frame ∧ ∀ q, s0.frame = some q →
    ∃ prim, s.tasks q = some prim ∧ (q ∉ flight s.inflight ++ rest → prim.ioRequest.nseg = 0)

section
variable {cfg : Config} {s0 s s' : Sys} {ts rest : List TaskPtr}

theorem isFlush_iff {p : TaskPtr} {task : Task} (h : s0.tasks p = some task) :
    isFlush s0 p = true ↔ task.command = .flushCommand := by
  unfold isFlush
  rw [h]
  exact decide_eq_true_iff

/-- What the calls of the device hand over is such a list. -/
theorem Core.handed {pend : CtxPtr → List TaskPtr} (h : Core cfg pend ts s) (hpc : s.pc = .test)
    (hin : s.inflight = []) : Handed ts { s with log := [] } where
  pc := hpc
  chain := h.rest_chain
  tasks := by
    intro p hp
    obtain ⟨task, htask, hready⟩ := h.rest_ready p hp
    exact ⟨task, htask, hready.ctx, fun _ => hready.kind⟩
  running := by
    have hrun := h.running s.ioc
    rw [if_pos rfl, hin] at hrun
    exact hrun
  small := by
    have hsmall := h.small
    rw [hin] at hsmall
    exact hsmall
  inflight := hin
  log := rfl
  frame := by
    intro q hq
    obtain ⟨hstack, prim, hprim, hfacts⟩ := h.frame q hq
    rw [hin] at hfacts
    refine ⟨hstack, prim, hprim, hfacts.released, ?_⟩
    intro hmem
    obtain ⟨task, htask, hready⟩ := h.rest_ready q hmem
    rw [hprim] at htask
    obtain rfl := Option.some.inj htask
    refine ⟨(hready.kind.sync hq).1, ?_⟩
    intro p hp _ _ _
    have hone : ts = [q] := hfacts.alone hmem
    rw [hone] at hp
    exact List.mem_singleton.mp hp

theorem Handed.tally (h : Handed ts s0) : Tally s0 ts ts s0 where
  ioc := rfl
  priv := rfl
  chain := h.chain
  kept := by
    intro p hp
    rw [h.inflight] at hp
    obtain ⟨task, htask, -⟩ := h.tasks p hp
    exact ⟨task, task, htask, htask, .refl task⟩
  perm := by
    rw [h.log, h.inflight]
    exact .refl ts
  running := by
    rw [h.log, h.inflight, h.running]
    exact (Int.add_zero _).symm
  deleted := by
    rw [h.log]
    exact rfl
  called := by
    intro hne _ _
    have hpos := List.length_pos_of_ne_nil hne
    have hrun := h.running
    rw [h.log, if_neg (by omega)]
    exact rfl
  frame := by
    intro _
    refine ⟨rfl, ?_⟩
    intro q hq
    obtain ⟨-, prim, hprim, hnot, -⟩ := h.frame q hq
    refine ⟨prim, hprim, ?_⟩
    rw [h.inflight]
    exact hnot

structure Still (s s' : Sys) : Prop where
  tasks : ∀ p task, s.tasks p = some task → ∃ task', s'.tasks p = some task' ∧
    task'.Alike task ∧ task'.ioRequest.nseg = task.ioRequest.nseg
  flight : flight s'.inflight = flight s.inflight
  next : s'.t = s.t
  ioc : s'.ioc = s.ioc
  frame : s'.frame = s.frame
  log : s'.log = s.log
  ctxs : s'.ctxs = s.ctxs

theorem Still.setPc (s : Sys) (pc : Pc) : Still s { s with pc := pc } :=
  ⟨fun _ task h => ⟨task, h, .refl task, rfl⟩, rfl, rfl, rfl, rfl, rfl, rfl⟩

theorem Task.Alike.next {task' task : Task} (h : task'.Alike task) : task'.next = task.next := by
  obtain ⟨b, r, rfl⟩ := h
  exact rfl

theorem Tally.still (h : Tally s0 ts rest s) (hpc : s.pc ≠ .idle) (hstill : Still s s') :
    Tally s0 ts rest s' where
  ioc := hstill.ioc.trans h.ioc
  priv := by
    rw [hstill.ctxs]
    exact h.priv
  chain := by
    rw [hstill.next]
    apply h.chain.congr
    intro p hp
    obtain ⟨task, _, htask, -⟩ := h.kept p (List.mem_append_right _ hp)
    obtain ⟨task', htask', halike, -⟩ := hstill.tasks p task htask
    unfold nextOf
    rw [htask, htask']
    exact halike.next
  kept := by
    rw [hstill.flight]
    intro p hp
    obtain ⟨task, task0, htask, htask0, halike0⟩ := h.kept p hp
    obtain ⟨task', htask', halike, -⟩ := hstill.tasks p task htask
    exact ⟨task', task0, htask', htask0, halike.trans halike0⟩
  perm := by
    rw [hstill.log, hstill.flight]
    exact h.perm
  running := by
    rw [hstill.ctxs, hstill.log, hstill.flight]
    exact h.running
  deleted := by
    rw [hstill.log]
    exact h.deleted
  called := by
    rw [hstill.ctxs, hstill.log]
    exact h.called
  frame := by
    intro _
    obtain ⟨hframe, hprims⟩ := h.frame hpc
    refine ⟨hstill.frame.trans hframe, ?_⟩
    rw [hstill.flight]
    intro q hq
    obtain ⟨prim, hprim, hnot⟩ := hprims q hq
    obtain ⟨prim', hprim', -, hnseg⟩ := hstill.tasks q prim hprim
    exact ⟨prim', hprim', fun hmem => hnseg.trans (hnot hmem)⟩

theorem Tally.handing {p : TaskPtr} {task : Task} (h : Tally s0 ts (p :: rest) s)
    (hpc : s.pc ≠ .idle) (htask : s.tasks p = some task) (hhand : Handing s p task s') :
    Tally s0 ts rest s' := by
  obtain ⟨task', halike, htasks⟩ := hhand.tasks
  have hlive : flight s'.inflight ++ rest = flight s.inflight ++ p :: rest := by
    rw [hhand.flight, List.append_assoc, List.singleton_append]
  have hnext : nextOf s'.tasks = nextOf s.tasks := by
    rw [htasks]
    exact nextOf_update htask halike.next
  obtain ⟨c, hlog⟩ := hhand.log
  have hretires : retires s'.log = retires s.log := by
    rw [hlog]
    exact rfl
  refine ⟨hhand.ioc.trans h.ioc, ?_, ?_, ?_, ?_, ?_, ?_, ?_, ?_⟩
  · rw [hhand.priv]
    exact h.priv
  · rw [hnext, hhand.next]
    have hchain := h.chain
    generalize ht : s.t = t at hchain
    cases hchain with
    | cons hchain =>
      unfold nextOf at hchain ⊢
      rw [htask] at hchain
      exact hchain
  · rw [hlive]
    intro r hr
    obtain ⟨task1, task0, htask1, htask0, halike0⟩ := h.kept r hr
    rw [htasks]
    by_cases heq : r = p
    · subst heq
      rw [htask] at htask1
      obtain rfl := Option.some.inj htask1
      exact ⟨task', task0, update_self _ _ _, htask0, halike.trans halike0⟩
    · exact ⟨task1, task0, (update_of_ne heq _ _).trans htask1, htask0, halike0⟩
  · rw [hretires, hlive]
    exact h.perm
  · rw [hretires, hlive, hhand.running]
    exact h.running
  · have hdeletes : deletes s'.log = deletes s.log := by
      rw [hlog]
      exact rfl
    rw [hdeletes, hretires]
    exact h.deleted
  · have hcalls : calls s0.ioc s'.log = calls s0.ioc s.log := by
      rw [hlog]
      exact rfl
    rw [hcalls, hhand.running]
    exact h.called
  · intro _
    obtain ⟨hframe, hprims⟩ := h.frame hpc
    refine ⟨hhand.frame.trans hframe, ?_⟩
    rw [hlive, htasks]
    intro q hq
    obtain ⟨prim, hprim, hnot⟩ := hprims q hq
    by_cases heq : q = p
    · subst heq
      refine ⟨task', update_self _ _ _, ?_⟩
      intro hmem
      exact absurd (List.mem_append_right _ List.mem_cons_self) hmem
    · exact ⟨prim, (update_of_ne heq _ _).trans hprim, hnot⟩

theorem Tally.nodup (h : Tally s0 ts rest s) (hs0 : Handed ts s0) :
    (retires s.log ++ (flight s.inflight ++ rest)).Nodup :=
  h.perm.nodup_iff.mpr hs0.chain.nodup

theorem Tally.live (h : Tally s0 ts rest s) (hs0 : Handed ts s0) {p : TaskPtr}
    (hp : p ∈ flight s.inflight ++ rest) : p ∈ ts ∧ ∃ task, s.tasks p = some task ∧
      task.ctx = some s0.ioc ∧ (task.command ≠ .flushCommand → Kind s0.frame p task) ∧
      (isFlush s0 p = true ↔ task.command = .flushCommand) := by
  have hts : p ∈ ts := h.perm.mem_iff.mp (List.mem_append_right _ hp)
  obtain ⟨task, task0, htask, htask0, halike⟩ := h.kept p hp
  obtain ⟨task0', htask0', hctx, hkind⟩ := hs0.tasks p hts
  rw [htask0] at htask0'
  obtain rfl := Option.some.inj htask0'
  have hflush := isFlush_iff htask0
  obtain ⟨b, r, rfl⟩ := halike
  exact ⟨hts, _, htask, hctx, hkind, hflush⟩

theorem Tally.running_le (h : Tally s0 ts rest s) (hs0 : Handed ts s0) :
    ((flight s.inflight ++ rest).length : Int) ≤ (s.ctxs s0.ioc).numRunning ∧
      (s.ctxs s0.ioc).numRunning < 2 ^ 31 := by
  have hrun := h.running
  have hlen := h.perm.length_eq
  have hcount : (retires s.log).countP (isFlush s0) ≤ (retires s.log).length :=
    List.countP_le_length
  have hsmall := hs0.small
  rw [List.length_append] at hlen
  omega

section
variable {i : Nat} {cmd : Command}

theorem Tally.completed (h : Tally s0 ts rest s) (hi : s.inflight[i]? = some cmd)
    (hothers : ∀ r ∈ flight (s.inflight.eraseIdx i) ++ rest, s'.tasks r = s.tasks r)
    (hflight : s'.inflight = s.inflight.eraseIdx i) (hnext : s'.t = s.t) :
    Chain (nextOf s'.tasks) s'.t rest ∧
      ∀ p ∈ flight s'.inflight ++ rest, ∃ task task0, s'.tasks p = some task ∧
        s0.tasks p = some task0 ∧ task.Alike task0 := by
  have hlive := live_perm rest hi
  rw [hnext, hflight]
  constructor
  · apply h.chain.congr
    intro r hr
    exact nextOf_congr (hothers r (List.mem_append_right _ hr))
  · intro r hr
    obtain ⟨task, task0, htask, htask0, halike⟩ :=
      h.kept r (hlive.mem_iff.mpr (List.mem_cons_of_mem _ hr))
    exact ⟨task, task0, (hothers r hr).trans htask, htask0, halike⟩

theorem retires_perm (rest : List TaskPtr) (log : List Event) (hi : s.inflight[i]? = some cmd) :
    (cmd.task :: retires log ++ (flight (s.inflight.eraseIdx i) ++ rest)).Perm
      (retires log ++ (flight s.inflight ++ rest)) :=
  List.perm_middle.symm.trans ((live_perm rest hi).symm.append_left _)

theorem Tally.closing {task : Task} (h : Tally s0 ts rest s) (hs0 : Handed ts s0)
    (hpc : s.pc ≠ .idle) (hi : s.inflight[i]? = some cmd) (htask : s.tasks cmd.task = some task)
    (hcommand : task.command ≠ .flushCommand)
    (hdone : ioComplete { s with inflight := s.inflight.eraseIdx i } cmd.task = .ok s') :
    Tally s0 ts rest s' ∧ (s'.ctxs s0.ioc).numRunning = (s.ctxs s0.ioc).numRunning - 1 := by
  have hlive := live_perm rest hi
  have hmem : cmd.task ∈ flight s.inflight ++ rest := hlive.mem_iff.mpr List.mem_cons_self
  obtain ⟨hts, task', htask', hctx, hkind, hflush⟩ := h.live hs0 hmem
  rw [htask] at htask'
  obtain rfl := Option.some.inj htask'
  obtain ⟨hframe, hprims⟩ := h.frame hpc
  obtain ⟨hge, hlt⟩ := h.running_le hs0
  have hpos := List.length_pos_of_mem hmem
  have hnd := (List.nodup_append.mp (h.nodup hs0)).2.1
  have hgone := (List.nodup_cons.mp (hlive.nodup_iff.mp hnd)).1
  rw [← h.ioc] at hctx hge hlt
  rw [← hframe] at hkind
  have h1 : 1 ≤ (s.ctxs s.ioc).numRunning := by omega
  have hclose : Closing { s with inflight := s.inflight.eraseIdx i } cmd.task s' :=
    ioComplete_closing htask hctx hcommand (hkind hcommand)
      (fun q hq => (hs0.frame q (hframe ▸ hq)).1) h1 hlt hdone
  obtain ⟨events, hevents, hlog⟩ := hclose.log
  have hadds := hevents.adds (.complete s.ioc cmd.task :: s.log)
  have hothers : ∀ r ∈ flight (s.inflight.eraseIdx i) ++ rest, s'.tasks r = s.tasks r := by
    intro r hr
    have hne : r ≠ cmd.task := fun heq => hgone (heq ▸ hr)
    apply hclose.others r hne
    -- a frame that is left would be the only task that is not flushed
    intro hr'
    have hr'' : r ∈ ts :=
      h.perm.mem_iff.mp (List.mem_append_right _ (hlive.mem_iff.mpr (List.mem_cons_of_mem _ hr)))
    obtain ⟨-, _, -, -, hwhole⟩ := hs0.frame r (hframe ▸ hr')
    obtain ⟨task0, htask0, -, -⟩ := hs0.tasks cmd.task hts
    have hcommand0 : task0.command ≠ .flushCommand := by
      intro heq
      exact hcommand (hflush.mp ((isFlush_iff htask0).mpr heq))
    exact hne ((hwhole hr'').2 cmd.task hts task0 htask0 hcommand0).symm
  have hretires : retires s'.log = cmd.task :: retires s.log := by
    rw [hlog, hadds.retires]
    exact rfl
  have hnot : isFlush s0 cmd.task = false := by
    rw [← Bool.not_eq_true, hflush]
    exact hcommand
  obtain ⟨hchain, hkept⟩ := h.completed hi hothers hclose.beside.inflight hclose.beside.next
  have hinflight : s'.inflight = s.inflight.eraseIdx i := hclose.beside.inflight
  have hrun : (s'.ctxs s0.ioc).numRunning = (s.ctxs s0.ioc).numRunning - 1 := by
    rw [← h.ioc]
    exact hclose.running
  refine ⟨⟨hclose.beside.ioc.trans h.ioc, (hclose.beside.priv s0.ioc).trans h.priv, hchain, hkept,
    ?_, ?_, ?_, ?_, ?_⟩, hrun⟩
  · rw [hretires, hinflight]
    exact (retires_perm rest s.log hi).trans h.perm
  · have hlen := hlive.length_eq
    rw [List.length_cons] at hlen
    rw [hrun, hretires, hinflight, List.countP_cons_of_neg (by simp [hnot]), h.running, hlen]
    omega
  · have hdeletes : deletes s'.log = if cmd.task.isHeap then cmd.task :: deletes s.log
        else deletes s.log := by
      rw [hlog]
      exact hadds.deletes
    rw [hdeletes, hretires, h.deleted]
    by_cases hheap : cmd.task.isHeap = true
    · rw [if_pos hheap, List.filter_cons_of_pos (by simp [hheap, hnot])]
    · rw [if_neg hheap, List.filter_cons_of_neg (by simp [hheap])]
  · intro hne hnone hpriv
    have hcount := hadds.calls s.ioc
    have hbefore := h.called hne hnone hpriv
    have hpriv' : (s.ctxs s.ioc).priv ≠ none := by
      rw [h.ioc, h.priv]
      exact hpriv
    rw [← h.ioc] at hbefore hrun
    rw [if_neg (by omega)] at hbefore
    rw [← h.ioc, hlog, hcount, hrun]
    change (calls s.ioc s.log).length + (if _ then 1 else 0) = _
    rw [hbefore, Nat.zero_add]
    by_cases h0 : (s.ctxs s.ioc).numRunning - 1 = 0
    · rw [if_pos h0, if_pos ⟨rfl, hframe.trans hnone, hpriv', h0⟩]
    · rw [if_neg h0, if_neg fun hall => h0 hall.2.2.2]
  · intro _
    refine ⟨hclose.beside.frame.trans hframe, ?_⟩
    intro q hq
    obtain ⟨prim, hprim, hnot⟩ := hprims q hq
    obtain ⟨prim', hprim', hcases⟩ := hclose.frame q (hframe.trans hq) prim hprim
    refine ⟨prim', hprim', ?_⟩
    rw [hinflight]
    intro hq'
    rcases hcases with ⟨-, hnseg⟩ | ⟨hne, hreq⟩
    · exact hnseg
    · rw [hreq]
      apply hnot
      intro hmem'
      rcases List.mem_cons.mp (hlive.mem_iff.mp hmem') with heq | hin
      · exact hne heq.symm
      · exact hq' hin

/-- The completion of a flush does not count down, and deletes nothing. -/
theorem Tally.flushed {task : Task} (h : Tally s0 ts rest s) (hs0 : Handed ts s0)
    (hpc : s.pc ≠ .idle) (hi : s.inflight[i]? = some cmd) (htask : s.tasks cmd.task = some task)
    (hcommand : task.command = .flushCommand)
    (hdone : ioComplete { s with inflight := s.inflight.eraseIdx i } cmd.task = .ok s') :
    Tally s0 ts rest s' ∧ s'.ctxs = s.ctxs := by
  have hlive := live_perm rest hi
  have hmem : cmd.task ∈ flight s.inflight ++ rest := hlive.mem_iff.mpr List.mem_cons_self
  obtain ⟨hts, task', htask', hctx, -, hflush⟩ := h.live hs0 hmem
  rw [htask] at htask'
  obtain rfl := Option.some.inj htask'
  have hnd := (List.nodup_append.mp (h.nodup hs0)).2.1
  have hgone := (List.nodup_cons.mp (hlive.nodup_iff.mp hnd)).1
  have hyes : isFlush s0 cmd.task = true := hflush.mpr hcommand
  rw [← h.ioc] at hctx
  have heq : s' = (polled { s with inflight := s.inflight.eraseIdx i } cmd.task).setTask cmd.task
      { task with returnCode := 0 } := ioComplete_flush htask hctx hcommand hdone
  have hinflight : s'.inflight = s.inflight.eraseIdx i := by
    rw [heq]
    exact rfl
  have hretires : retires s'.log = cmd.task :: retires s.log := by
    rw [heq]
    exact rfl
  have hctxs : s'.ctxs = s.ctxs := by
    rw [heq]
    exact rfl
  have hother : ∀ r, r ≠ cmd.task → s'.tasks r = s.tasks r := by
    intro r hr
    rw [heq]
    exact update_of_ne hr _ _
  obtain ⟨hchain, hkept⟩ := h.completed hi
    (fun r hr => hother r fun heq' => hgone (heq' ▸ hr)) hinflight (by rw [heq]; exact rfl)
  refine ⟨⟨?_, ?_, hchain, hkept, ?_, ?_, ?_, ?_, ?_⟩, hctxs⟩
  · rw [heq]
    exact h.ioc
  · rw [hctxs]
    exact h.priv
  · rw [hretires, hinflight]
    exact (retires_perm rest s.log hi).trans h.perm
  · have hlen := hlive.length_eq
    rw [List.length_cons] at hlen
    rw [hctxs, hretires, hinflight, List.countP_cons_of_pos hyes, h.running, hlen]
    omega
  · have hdeletes : deletes s'.log = deletes s.log := by
      rw [heq]
      exact rfl
    rw [hdeletes, hretires, List.filter_cons_of_neg (by simp [hyes])]
    exact h.deleted
  · have hcalls : calls s0.ioc s'.log = calls s0.ioc s.log := by
      rw [heq]
      exact rfl
    rw [hcalls, hctxs]
    exact h.called
  · intro _
    obtain ⟨hframe, hprims⟩ := h.frame hpc
    refine ⟨by rw [heq]; exact hframe, ?_⟩
    rw [hinflight]
    intro q hq
    obtain ⟨prim, hprim, hnot⟩ := hprims q hq
    have hne : q ≠ cmd.task := by
      -- the frame is a read
      rintro rfl
      obtain ⟨-, prim0, hprim0, -, hwhole⟩ := hs0.frame _ hq
      have hflush0 := (isFlush_iff hprim0).mp hyes
      rw [(hwhole hts).1] at hflush0
      cases hflush0
    refine ⟨prim, (hother q hne).trans hprim, ?_⟩
    intro hq'
    apply hnot
    intro hmem'
    rcases List.mem_cons.mp (hlive.mem_iff.mp hmem') with heq' | hin
    · exact hne heq'
    · exact hq' hin

end

/-! The thread itself. -/

theorem returnCall_cases (h : returnCall s = .ok s') : s'.pc = .idle ∧ s'.ctxs = s.ctxs ∧
    s'.log = s.log ∧ s'.inflight = s.inflight ∧ s'.t = s.t ∧ s'.ioc = s.ioc := by
  unfold returnCall at h
  split at h
  · obtain rfl := Except.ok.inj h
    exact ⟨rfl, rfl, rfl, rfl, rfl, rfl⟩
  · obtain ⟨task, -, h⟩ := bind_ok h
    split at h
    · cases h
    · obtain rfl := Except.ok.inj h
      exact ⟨rfl, rfl, rfl, rfl, rfl, rfl⟩

theorem Tally.returned (h : Tally s0 ts rest s) (hs0 : Handed ts s0)
    (hzero : (s.ctxs s.ioc).numRunning = 0) (hret : returnCall s = .ok s') :
    Tally s0 ts rest s' := by
  obtain ⟨hpc, hctxs, hlog, hinflight, hnext, hioc⟩ := returnCall_cases hret
  have hge := (h.running_le hs0).1
  rw [h.ioc] at hzero
  have hnil : flight s.inflight ++ rest = [] := by
    apply List.length_eq_zero_iff.mp
    omega
  obtain ⟨-, rfl⟩ := List.append_eq_nil_iff.mp hnil
  refine ⟨hioc.trans h.ioc, ?_, ?_, ?_, ?_, ?_, ?_, ?_, fun hbusy => absurd hpc hbusy⟩
  · rw [hctxs]
    exact h.priv
  · rw [hnext, h.chain.head]
    exact .nil
  · intro p hp
    rw [hinflight, hnil] at hp
    cases hp
  · rw [hlog, hinflight]
    exact h.perm
  · rw [hctxs, hlog, hinflight]
    exact h.running
  · rw [hlog]
    exact h.deleted
  · rw [hctxs, hlog]
    exact h.called

theorem tick_cases (hhead : ∀ p, s.t = some p → ∃ task, s.tasks p = some task)
    (h : tick cfg s = .ok s') : (Still s s' ∧ s'.pc ≠ .idle) ∨
      (∃ p task, s.t = some p ∧ s.tasks p = some task ∧ Handing s p task s') ∨
      ((s.ctxs s.ioc).numRunning = 0 ∧ returnCall s = .ok s') := by
  unfold tick at h
  split at h
  · cases h
  · split at h
    · next hzero => exact .inr (.inr ⟨hzero, h⟩)
    · obtain rfl := Except.ok.inj h
      exact .inl ⟨.setPc s .again, Pc.noConfusion⟩
  · obtain rfl := Except.ok.inj h
    refine .inl ⟨.setPc s _, ?_⟩
    change (if _ then Pc.loop else Pc.polling) ≠ _
    split <;> exact Pc.noConfusion
  · obtain rfl := Except.ok.inj h
    exact .inl ⟨.setPc s .loop, Pc.noConfusion⟩
  · split at h
    · obtain rfl := Except.ok.inj h
      exact .inl ⟨.setPc s .test, Pc.noConfusion⟩
    · next p hp =>
      obtain ⟨task, htask⟩ := hhead p hp
      rcases submit_cases htask h with ⟨b, rfl⟩ | hhand
      · refine .inl ⟨⟨?_, rfl, rfl, rfl, rfl, rfl, rfl⟩, Pc.noConfusion⟩
        intro r task1 htask1
        by_cases hr : r = p
        · subst hr
          rw [htask] at htask1
          obtain rfl := Option.some.inj htask1
          exact ⟨_, update_self _ _ _, ⟨b, task.ioRequest, rfl⟩, rfl⟩
        · exact ⟨task1, (update_of_ne hr _ _).trans htask1, .refl task1, rfl⟩
      · exact .inr (.inl ⟨p, task, hp, htask, hhand⟩)

theorem transfer_still {i : Nat} {cmd : Command} (hi : s.inflight[i]? = some cmd) :
    Still s (move cfg { s with inflight := s.inflight.set i { cmd with moved := true } } cmd) := by
  have hflight : flight (s.inflight.set i { cmd with moved := true }) = flight s.inflight :=
    flight_set hi
  unfold move
  split
  · exact ⟨fun _ task h => ⟨task, h, .refl task, rfl⟩, hflight, rfl, rfl, rfl, rfl, rfl⟩
  · exact ⟨fun _ task h => ⟨task, h, .refl task, rfl⟩, hflight, rfl, rfl, rfl, rfl, rfl⟩

/-- The step lemma: `num_running` falls only with the completion of a write or a read. -/
theorem Tally.working {l : Label} (h : Tally s0 ts rest s) (hs0 : Handed ts s0)
    (hstep : Working cfg s l s') : ∃ rest', Tally s0 ts rest' s' ∧
      ((s'.ctxs s0.ioc).numRunning = (s.ctxs s0.ioc).numRunning ∨
        ∃ i cmd task, l = .complete i ∧ s.inflight[i]? = some cmd ∧
          s.tasks cmd.task = some task ∧ task.command ≠ .flushCommand ∧
          task.ctx = some s0.ioc ∧ Kind s0.frame cmd.task task ∧
          (s'.ctxs s0.ioc).numRunning = (s.ctxs s0.ioc).numRunning - 1) := by
  have hpc := hstep.1
  rcases hstep.cases with ⟨-, htick⟩ | ⟨i, cmd, -, hi, -, rfl⟩ | ⟨i, cmd, hl, hi, -, -, hdone⟩
  · have hhead : ∀ p, s.t = some p → ∃ rest', rest = p :: rest' := by
      intro p hp
      have hchain := h.chain
      rw [hp] at hchain
      cases hchain with
      | cons _ => exact ⟨_, rfl⟩
    have hfound : ∀ p, s.t = some p → ∃ task, s.tasks p = some task := by
      intro p hp
      obtain ⟨rest', hrest⟩ := hhead p hp
      obtain ⟨task, -, htask, -⟩ := h.kept p (by simp [hrest])
      exact ⟨task, htask⟩
    rcases tick_cases hfound htick with ⟨hstill, -⟩ | ⟨p, task, hp, htask, hhand⟩ | ⟨hzero, hret⟩
    · exact ⟨rest, h.still hpc hstill, .inl (by rw [hstill.ctxs])⟩
    · obtain ⟨rest', rfl⟩ := hhead p hp
      exact ⟨rest', h.handing hpc htask hhand, .inl (hhand.running s0.ioc)⟩
    · exact ⟨rest, h.returned hs0 hzero hret, .inl (by rw [(returnCall_cases hret).2.1])⟩
  · have hstill := @transfer_still cfg s i cmd hi
    exact ⟨rest, h.still hpc hstill, .inl (by rw [hstill.ctxs])⟩
  · have hmem : cmd.task ∈ flight s.inflight ++ rest :=
      (live_perm rest hi).mem_iff.mpr List.mem_cons_self
    obtain ⟨-, task, htask, hctx, hkind, -⟩ := h.live hs0 hmem
    by_cases hcommand : task.command = .flushCommand
    · obtain ⟨htally, hctxs⟩ := h.flushed hs0 hpc hi htask hcommand hdone
      exact ⟨rest, htally, .inl (by rw [hctxs])⟩
    · obtain ⟨htally, hrun⟩ := h.closing hs0 hpc hi htask hcommand hdone
      exact ⟨rest, htally, .inr ⟨i, cmd, task, hl, hi, htask, hcommand, hctx, hkind hcommand, hrun⟩⟩

theorem Handed.run {ls : List Label} (h : Handed ts s0) (hrun : Run (Working cfg) s0 ls s) :
    ∃ rest, Tally s0 ts rest s := by
  apply hrun.invariant _ ⟨ts, h.tally⟩
  rintro u l v ⟨rest, htally⟩ hstep
  obtain ⟨rest', htally', -⟩ := htally.working h hstep
  exact ⟨rest', htally'⟩

/-! Once everything is completed. -/

theorem Tally.drained (h : Tally s0 ts rest s) (hs0 : Handed ts s0)
    (hall : ∀ p ∈ ts, p ∈ retires s.log) : rest = [] ∧ s.inflight = [] := by
  have hnil : flight s.inflight ++ rest = [] := by
    apply List.eq_nil_iff_forall_not_mem.mpr
    intro p hp
    have hts : p ∈ ts := h.perm.mem_iff.mp (List.mem_append_right _ hp)
    exact (List.nodup_append.mp (h.nodup hs0)).2.2 p (hall p hts) p hp rfl
  obtain ⟨hflight, hrest⟩ := List.append_eq_nil_iff.mp hnil
  exact ⟨hrest, List.map_eq_nil_iff.mp hflight⟩

theorem Tally.exits_test (h : Tally s0 ts [] s) (hin : s.inflight = [])
    (hzero : (s.ctxs s.ioc).numRunning = 0) (hpc : s.pc = .test) (cfg : Config) :
    ∃ u, Step cfg s .tick u ∧ u.pc = .idle := by
  obtain ⟨hframe, hprims⟩ := h.frame (by rw [hpc]; exact Pc.noConfusion)
  have hret : ∃ u, returnCall s = .ok u := by
    unfold returnCall
    split
    · exact ⟨_, rfl⟩
    · next q hq =>
      obtain ⟨prim, hprim, hnot⟩ := hprims q (hframe.symm.trans hq)
      have hnseg : prim.ioRequest.nseg = 0 := by
        apply hnot
        rw [hin]
        exact List.not_mem_nil
      rw [Sys.task_some hprim, ok_bind, if_neg (by omega)]
      exact ⟨_, rfl⟩
  obtain ⟨u, hu⟩ := hret
  refine ⟨u, ?_, (returnCall_cases hu).1⟩
  change Blk.tick cfg s = .ok u
  unfold Blk.tick
  simp only [hpc, hzero, if_true]
  exact hu

theorem Leaving.tick (h : Leaving cfg s') (hstep : Step cfg s .tick s') : Leaving cfg s := by
  obtain ⟨n, u, hrun, hu⟩ := h
  exact ⟨n + 1, u, .cons hstep hrun, hu⟩

theorem Tally.exits (h : Tally s0 ts [] s) (hin : s.inflight = [])
    (hzero : (s.ctxs s.ioc).numRunning = 0) (cfg : Config) : Leaving cfg s := by
  by_cases hidle : s.pc = .idle
  · exact ⟨0, s, .nil s, hidle⟩
  have hnone : s.t = none := h.chain.head
  have htest : Leaving cfg { s with pc := .test } := by
    have htally : Tally s0 ts [] { s with pc := .test } := h.still hidle (.setPc s .test)
    obtain ⟨u, hstep, hu⟩ := htally.exits_test hin hzero rfl cfg
    exact ⟨1, u, .single hstep, hu⟩
  have hloop : Leaving cfg { s with pc := .loop } := by
    apply htest.tick
    change Blk.tick cfg { s with pc := .loop } = .ok { s with pc := .test }
    unfold Blk.tick
    simp only [hnone]
  have hpolling : Leaving cfg { s with pc := .polling } := hloop.tick rfl
  have hsame : ∀ pc, s.pc = pc → { s with pc := pc } = s := by
    intro pc hpc
    rw [← hpc]
  cases hpc : s.pc with
  | idle => exact absurd hpc hidle
  | test => exact hsame .test hpc ▸ htest
  | again =>
    have hagain : Step cfg { s with pc := .again } .tick
        { s with pc := if s.currentQueueDepth = 0 then .loop else .polling } := rfl
    rw [hsame .again hpc] at hagain
    split at hagain
    · exact hloop.tick hagain
    · exact hpolling.tick hagain
  | polling => exact hsame .polling hpc ▸ hpolling
  | loop => exact hsame .loop hpc ▸ hloop

/-- The run lemma for the last task: a completion that finds one running task. -/
theorem Handed.woken {ls : List Label} (h : Handed ts s0) (hrun : Run (Working cfg) s0 ls s)
    (hne : ts ≠ []) (hframe : s0.frame = none) (hpriv : (s0.ctxs s0.ioc).priv = none)
    (hzero : (s.ctxs s0.ioc).numRunning = 0) :
    ∃ ls₁ l ls₂ u, ls = ls₁ ++ l :: ls₂ ∧ Run (Working cfg) s0 ls₁ u ∧ Wakes u l := by
  have hpos := List.length_pos_of_ne_nil hne
  have hstart := h.running
  rcases hrun.entered (P := fun u => (u.ctxs s0.ioc).numRunning = 0) hzero with
    ⟨hbad, -⟩ | ⟨ls₁, l, ls₂, u, v, hls, hbefore, hu, hstep, hv, -⟩
  · omega
  refine ⟨ls₁, l, ls₂, u, hls, hbefore, ?_⟩
  obtain ⟨rest, htally⟩ := h.run hbefore
  obtain ⟨-, -, hsame | ⟨i, cmd, task, hl, hi, htask, hcommand, hctx, hkind, hdown⟩⟩ :=
    htally.working h hstep
  · exact absurd (hsame.symm.trans hv) hu
  · have hcode := (hkind.plain (s := s0) hframe).2.1
    exact ⟨i, cmd, task, s0.ioc, hl, hi, htask, hctx, hcommand, hcode,
      htally.priv.trans hpriv, by omega⟩

/-- Whatever the commands and the order of the completions: once all are delivered, everything is
settled exactly when no command is a flush. -/
theorem dispatch_settles_iff (cfg : Config) (ts : List TaskPtr) (s t : Sys) (ls : List Label)
    (h : Handed ts s) (hrun : Run (Working cfg) s ls t) (hall : ∀ p ∈ ts, p ∈ retires t.log) :
    AllDone cfg ts s ls t ↔
      ∀ p ∈ ts, ∀ task, s.tasks p = some task → task.command ≠ .flushCommand := by
  obtain ⟨rest, htally⟩ := h.run hrun
  obtain ⟨rfl, hin⟩ := htally.drained h hall
  have hcount := htally.running
  have hperm := htally.perm
  have hnil : flight [] ++ ([] : List TaskPtr) = [] := rfl
  rw [hin, hnil] at hcount hperm
  rw [List.append_nil] at hperm
  constructor
  · intro hsettled p hp task htask hflush
    have hpos : 0 < (retires t.log).countP (isFlush s) :=
      List.countP_pos_iff.mpr ⟨p, hall p hp, (isFlush_iff htask).mpr hflush⟩
    have hzero := hsettled.running
    rw [hzero] at hcount
    rw [List.length_nil] at hcount
    omega
  · intro hnone
    have hnot : ∀ p ∈ ts, isFlush s p = false := by
      intro p hp
      obtain ⟨task, htask, -⟩ := h.tasks p hp
      rw [← Bool.not_eq_true, isFlush_iff htask]
      exact hnone p hp task htask
    have hzero : (t.ctxs s.ioc).numRunning = 0 := by
      have hflushed : (retires t.log).countP (isFlush s) = 0 := by
        apply List.countP_eq_zero.mpr
        intro p hp
        rw [hnot p (hperm.mem_iff.mp hp)]
        exact Bool.false_ne_true
      rw [hcount, hflushed]
      exact rfl
    refine ⟨hzero, ?_, ?_, fun hne hframe hpriv => h.woken hrun hne hframe hpriv hzero, ?_⟩
    · exact htally.exits hin (by rw [htally.ioc]; exact hzero) cfg
    · intro hne hframe hpriv
      have hcalls := htally.called hne hframe hpriv
      rwa [if_pos hzero] at hcalls
    · intro p hp hheap
      have hdeletes := htally.deleted
      have hmem : p ∈ deletes t.log := by
        rw [hdeletes]
        apply List.mem_filter.mpr
        exact ⟨hall p hp, by rw [hheap, hnot p hp]; exact rfl⟩
      have hnd : (deletes t.log).Nodup := by
        rw [hdeletes]
        exact (hperm.nodup_iff.mpr h.chain.nodup).filter _
      rw [hnd.count, if_pos hmem]

end

def handedPair (command : IOCommand) : Sys :=
  { started with
    tasks := update (update started.tasks
      (.heap 0) (some { Task.new .writeCommand 0 4096 0 with
        ctx := some (.user 0), next := some (.heap 1) }))
      (.heap 1) (some { Task.new command 4096 4096 0 with ctx := some (.user 0) })
    ctxs := update started.ctxs (.user 0) { started.ctxs (.user 0) with numRunning := 2 }
    pc := .test
    t := some (.heap 0)
    ioc := .user 0 }

theorem handedPair_handed (command : IOCommand) :
    Handed [.heap 0, .heap 1] (handedPair command) where
  pc := rfl
  chain := .cons (.cons .nil)
  tasks := by
    intro p hp
    rcases List.mem_cons.mp hp with rfl | hp
    · exact ⟨_, rfl, rfl, fun _ => ⟨rfl, rfl, 0, rfl⟩⟩
    · obtain rfl := List.mem_singleton.mp hp
      exact ⟨_, rfl, rfl, fun _ => ⟨rfl, rfl, 1, rfl⟩⟩
  running := rfl
  small := by decide
  inflight := rfl
  log := rfl
  frame := by
    intro q hq
    cases hq

def pairLabels : List Label :=
  [.tick, .tick, .tick, .tick, .tick, .tick, .tick, .transfer 0, .transfer 1, .complete 1,
    .complete 0]

theorem dispatch_settles_write : ∃ t, Run (Working ⟨4096, 2 ^ 40, 2⟩) (handedPair .writeCommand)
    pairLabels t ∧
    AllDone ⟨4096, 2 ^ 40, 2⟩ [.heap 0, .heap 1] (handedPair .writeCommand) pairLabels t := by
  have hrun : ∃ t ∈ execAll (Label.exec ⟨4096, 2 ^ 40, 2⟩) (fun s _ => decide (s.pc ≠ .idle))
      (handedPair .writeCommand) pairLabels,
      ∀ p ∈ [TaskPtr.heap 0, TaskPtr.heap 1], p ∈ retires t.log := by
    decide +kernel
  obtain ⟨t, ht, hall⟩ := hrun
  have hwork : Run (Working ⟨4096, 2 ^ 40, 2⟩) (handedPair .writeCommand) pairLabels t :=
    execAll_run (fun _ _ _ hbusy hexec => ⟨of_decide_eq_true hbusy, hexec⟩) ht
  refine ⟨t, hwork, (dispatch_settles_iff _ _ _ _ _ (handedPair_handed _) hwork hall).mpr ?_⟩
  intro p hp task htask
  rcases List.mem_cons.mp hp with rfl | hp
  · obtain rfl := Option.some.inj htask
    exact IOCommand.noConfusion
  · obtain rfl := List.mem_singleton.mp hp
    obtain rfl := Option.some.inj htask
    exact IOCommand.noConfusion

/-- With a flush behind the write one task is left running for ever. -/
theorem flush_unsettled : ¬ ∀ (cfg : Config) (ts : List TaskPtr) (s t : Sys) (ls : List Label),
    Handed ts s → Run (Working cfg) s ls t → (∀ p ∈ ts, p ∈ retires t.log) →
    AllDone cfg ts s ls t := by
  intro hclaim
  have hrun : ∃ t ∈ execAll (Label.exec ⟨4096, 2 ^ 40, 2⟩) (fun s _ => decide (s.pc ≠ .idle))
      (handedPair .flushCommand) pairLabels,
      (∀ p ∈ [TaskPtr.heap 0, TaskPtr.heap 1], p ∈ retires t.log) ∧
        (t.ctxs (.user 0)).numRunning = 1 := by
    decide +kernel
  obtain ⟨t, ht, hall, hone⟩ := hrun
  have hwork : Run (Working ⟨4096, 2 ^ 40, 2⟩) (handedPair .flushCommand) pairLabels t :=
    execAll_run (fun _ _ _ hbusy hexec => ⟨of_decide_eq_true hbusy, hexec⟩) ht
  have hzero : (t.ctxs (.user 0)).numRunning = 0 :=
    (hclaim _ _ _ _ _ (handedPair_handed _) hwork hall).running
  omega

end LockdepSpdk.Blk
