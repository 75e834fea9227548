import LockdepSpdk.Blk.Accounting
import Mathlib.Data.List.Count

/-!
# Dispatch against completion

`_aio_handle` hands writes, reads and flushes to SPDK, and `io_complete` settles
what it handed. Here the list may hold any of the three commands, so what a
successful call did is read off the code again, without the invariant of the
device.
-/

namespace LockdepSpdk.Blk

set_option autoImplicit false

open Function Linked Transition

/-- What SPDK and the pool change in a task. -/
def Task.Alike (task' task : Task) : Prop :=
  ∃ b r, task' = { task with queue := b, ioRequest := r }

theorem Task.Alike.refl (task : Task) : task.Alike task := ⟨task.queue, task.ioRequest, rfl⟩

theorem Task.Alike.trans {task'' task' task : Task} (h' : task''.Alike task') (h : task'.Alike task) :
    task''.Alike task := by
  obtain ⟨b', r', rfl⟩ := h'
  obtain ⟨b, r, rfl⟩ := h
  exact ⟨b', r', rfl⟩

theorem update_field {β : Type} {ctxs : CtxPtr → IOContext} {c : CtxPtr} {ctx : IOContext}
    (f : IOContext → β) (h : f ctx = f (ctxs c)) (d : CtxPtr) :
    f (update ctxs c ctx d) = f (ctxs d) := by
  by_cases hd : d = c
  · subst hd
    rw [update_self, h]
  · rw [update_of_ne hd]

/-! A walk of the segments changes the cursor only. -/

section
variable {task task' : Task}

theorem dataBufResetSgl_alike {off : Nat} (h : dataBufResetSgl task off = .ok task') :
    task'.Alike task := by
  unfold dataBufResetSgl at h
  simp only at h
  split at h
  · cases h
  · obtain rfl := Except.ok.inj h
    exact ⟨_, _, rfl⟩

theorem dataBufNextSge_alike {sge : Option Sge} (h : dataBufNextSge task = .ok (sge, task')) :
    task'.Alike task := by
  unfold dataBufNextSge at h
  simp only at h
  split at h
  · obtain ⟨-, rfl⟩ := ok_mk_inj h
    exact .refl task
  · split at h
    · cases h
    · split at h
      · obtain ⟨-, rfl⟩ := ok_mk_inj h
        exact ⟨_, _, rfl⟩
      · split at h
        · cases h
        · obtain ⟨-, rfl⟩ := ok_mk_inj h
          exact ⟨_, _, rfl⟩

theorem walkSgl_alike {n : Nat} {sgl : List Sge} (h : walkSgl n task = .ok (sgl, task')) :
    task'.Alike task := by
  induction n generalizing task sgl with
  | zero =>
    obtain ⟨-, rfl⟩ := ok_mk_inj h
    exact .refl task
  | succ n ih =>
    unfold walkSgl at h
    obtain ⟨⟨sge, task1⟩, hnext, h⟩ := bind_ok h
    have hstep := dataBufNextSge_alike hnext
    cases sge with
    | none =>
      obtain ⟨-, rfl⟩ := ok_mk_inj h
      exact hstep
    | some e =>
      obtain ⟨⟨es, task2⟩, hwalk, h⟩ := bind_ok h
      obtain ⟨-, rfl⟩ := ok_mk_inj h
      exact (ih hwalk).trans hstep

theorem enumerateSgl_alike {sgl : List Sge} (h : enumerateSgl task = .ok (sgl, task')) :
    task'.Alike task := by
  obtain ⟨task1, hreset, hwalk⟩ := bind_ok h
  exact (walkSgl_alike hwalk).trans (dataBufResetSgl_alike hreset)

end

/-! A turn of the submission loop that succeeds. -/

section
variable {cfg : Config} {s s' : Sys} {p : TaskPtr} {task : Task} {write : Bool}

theorem allocBufFromPool_cases (h : allocBufFromPool s p task write = .ok (some s')) :
    ∃ dma pool c n task', task'.Alike task ∧ s' = { s with
      dma := dma
      dataBufList := pool
      ctxs := update s.ctxs c { s.ctxs c with totalNseg := n }
      tasks := update s.tasks p (some task') } := by
  unfold allocBufFromPool at h
  simp only at h
  split at h
  · cases h
  · split at h
    · cases h
    · obtain rfl := Option.some.inj (Except.ok.inj h)
      exact ⟨_, _, _, _, _, ⟨_, _, rfl⟩, rfl⟩

theorem sendCommand_cases (htask : s.tasks p = some task) (h : sendCommand cfg s p write = .ok s') :
    ∃ cmd task', cmd.task = p ∧ task'.Alike task ∧ s' = { s with
      tasks := update s.tasks p (some task')
      inflight := s.inflight ++ [cmd] } := by
  unfold sendCommand at h
  rw [Sys.task_some htask, ok_bind] at h
  obtain ⟨⟨sgl, task'⟩, hwalk, h⟩ := bind_ok h
  obtain rfl := Except.ok.inj h
  exact ⟨_, task', rfl, enumerateSgl_alike hwalk, rfl⟩

/-- What handing a task to SPDK leaves, whatever the command is. -/
structure Handing (s : Sys) (p : TaskPtr) (task : Task) (s' : Sys) : Prop where
  tasks : ∃ task', task'.Alike task ∧ s'.tasks = update s.tasks p (some task')
  flight : flight s'.inflight = flight s.inflight ++ [p]
  next : s'.t = task.next
  log : ∃ c, s'.log = .submit c p :: s.log
  running : ∀ c, (s'.ctxs c).numRunning = (s.ctxs c).numRunning
  priv : ∀ c, (s'.ctxs c).priv = (s.ctxs c).priv
  pc : s'.pc = s.pc
  ioc : s'.ioc = s.ioc
  frame : s'.frame = s.frame

theorem submitted_cases (task : Task) (htask : s.tasks p = some task)
    (h : submitted s p = .ok s') :
    ∃ c, s' = { s with
      currentQueueDepth := s.currentQueueDepth + 1
      t := task.next
      log := .submit c p :: s.log } := by
  unfold submitted at h
  rw [Sys.task_some htask, ok_bind] at h
  split at h
  · cases h
  · obtain rfl := Except.ok.inj h
    exact ⟨_, rfl⟩

theorem sendData_cases (h : sendData cfg (s.setTask p task.queued) p task.queued write = .ok s') :
    s' = { s.setTask p task.queued with pc := .again } ∨ Handing s p task s' := by
  unfold sendData at h
  split at h
  · cases h
  · exact .inl (Except.ok.inj h).symm
  · next s1 halloc =>
    obtain ⟨s2, hsend, h⟩ := bind_ok h
    obtain ⟨dma, pool, c, n, task1, halike1, rfl⟩ := allocBufFromPool_cases halloc
    obtain ⟨cmd, task2, hcmd, halike2, rfl⟩ := sendCommand_cases (update_self _ _ _) hsend
    obtain ⟨d, rfl⟩ := submitted_cases task2 (update_self _ _ _) h
    have halike : task2.Alike task := (halike2.trans halike1).trans ⟨true, task.ioRequest, rfl⟩
    refine .inr ⟨⟨task2, halike, ?_⟩, ?_, ?_, ⟨d, rfl⟩, ?_, ?_, rfl, rfl, rfl⟩
    · simp only [Sys.setTask, update_idem]
    · unfold flight
      rw [List.map_append, List.map_singleton, hcmd]
      exact rfl
    · obtain ⟨b, r, rfl⟩ := halike
      exact rfl
    · exact update_field IOContext.numRunning rfl
    · exact update_field IOContext.priv rfl

theorem submit_cases (htask : s.tasks p = some task) (h : submit cfg s p = .ok s') :
    (∃ b, s' = { s.setTask p { task with queue := b } with pc := .again }) ∨
      Handing s p task s' := by
  have hdata : ∀ write, sendData cfg (s.setTask p task.queued) p task.queued write = .ok s' →
      (∃ b, s' = { s.setTask p { task with queue := b } with pc := .again }) ∨
        Handing s p task s' := by
    intro write hsend
    rcases sendData_cases hsend with heq | hhand
    · exact .inl ⟨true, heq⟩
    · exact .inr hhand
  unfold submit at h
  split at h
  · obtain rfl := Except.ok.inj h
    refine .inl ⟨task.queue, ?_⟩
    unfold Sys.setTask
    rw [← htask, update_eq_self]
  · rw [Sys.task_some htask, ok_bind] at h
    simp only at h
    split at h
    · exact hdata true h
    · exact hdata false h
    · obtain ⟨c, rfl⟩ := submitted_cases task.queued (update_self _ _ _) h
      refine .inr ⟨⟨task.queued, ⟨true, task.ioRequest, rfl⟩, rfl⟩, ?_, rfl, ⟨c, rfl⟩, fun _ => rfl,
        fun _ => rfl, rfl, rfl, rfl⟩
      unfold flight
      exact List.map_append ..

end

/-! A completion that succeeds. -/

/-- The loop of `_aio_handle` stays where it is, and so does what it still has to hand over. -/
structure Beside (s s' : Sys) : Prop where
  inflight : s'.inflight = s.inflight
  next : s'.t = s.t
  pc : s'.pc = s.pc
  ioc : s'.ioc = s.ioc
  frame : s'.frame = s.frame
  priv : ∀ c, (s'.ctxs c).priv = (s.ctxs c).priv

theorem Beside.trans {s s' s'' : Sys} (h : Beside s s') (h' : Beside s' s'') : Beside s s'' where
  inflight := h'.inflight.trans h.inflight
  next := h'.next.trans h.next
  pc := h'.pc.trans h.pc
  ioc := h'.ioc.trans h.ioc
  frame := h'.frame.trans h.frame
  priv := fun c => (h'.priv c).trans (h.priv c)

section
variable {s s' : Sys} {p : TaskPtr} {task : Task} {c : CtxPtr}

theorem finished_beside : Beside s (finished s c) :=
  ⟨rfl, rfl, rfl, rfl, rfl, update_field IOContext.priv rfl⟩

theorem releaseSegs_cases (htask : s.tasks p = some task) (h : releaseSegs s p = .ok s') :
    Beside s s' ∧ s'.tasks = update s.tasks p (some task.released) ∧ s'.log = s.log ∧
      ∀ c, (s'.ctxs c).numRunning = (s.ctxs c).numRunning := by
  unfold releaseSegs at h
  rw [Sys.task_some htask, ok_bind] at h
  split at h
  · cases h
  · obtain rfl := Except.ok.inj h
    exact ⟨⟨rfl, rfl, rfl, rfl, rfl, update_field IOContext.priv rfl⟩, rfl, rfl,
      update_field IOContext.numRunning rfl⟩

theorem runFillCb_cases (h : runFillCb s task = .ok s') :
    Beside s s' ∧ s'.tasks = s.tasks ∧ s'.log = s.log ∧ s'.ctxs = s.ctxs := by
  unfold runFillCb at h
  split at h
  · cases h
  · obtain ⟨mem, -, h⟩ := bind_ok h
    obtain rfl := Except.ok.inj h
    exact ⟨⟨rfl, rfl, rfl, rfl, rfl, fun _ => rfl⟩, rfl, rfl, rfl⟩

theorem Sys.task_ok (h : s.task p = .ok task) : s.tasks p = some task := by
  unfold Sys.task at h
  split at h
  · next task' htask =>
    obtain rfl := Except.ok.inj h
    exact htask
  · cases h

theorem deleteTask_cases (htask : s.tasks p = some task) (h : deleteTask s p = .ok s') :
    p.isHeap = true ∧ Beside s s' ∧ s'.log = .delete p :: s.log ∧ s'.ctxs = s.ctxs ∧
      (∀ r, r ≠ p → task.primary ≠ some r → s'.tasks r = s.tasks r) ∧
      ∀ q, task.primary = some q → q ≠ p → ∃ prim prim', s.tasks q = some prim ∧
        s'.tasks q = some prim' ∧ prim'.ioRequest = prim.ioRequest := by
  unfold deleteTask at h
  split at h
  · cases h
  · rw [Sys.task_some htask, ok_bind] at h
    cases hprimary : task.primary with
    | none =>
      rw [hprimary] at h
      obtain ⟨s1, hs1, h⟩ := bind_ok h
      obtain rfl := Except.ok.inj hs1
      split at h
      · cases h
      · obtain rfl := Except.ok.inj h
        refine ⟨rfl, ⟨rfl, rfl, rfl, rfl, rfl, fun _ => rfl⟩, rfl, rfl, ?_, ?_⟩
        · intro r hr _
          exact update_of_ne hr _ _
        · intro q hq
          cases hq
    | some q =>
      rw [hprimary] at h
      obtain ⟨prim, hprim, h⟩ := bind_ok h
      obtain ⟨s1, hs1, h⟩ := bind_ok h
      obtain rfl := Except.ok.inj hs1
      split at h
      · cases h
      · obtain rfl := Except.ok.inj h
        refine ⟨rfl, ⟨rfl, rfl, rfl, rfl, rfl, fun _ => rfl⟩, rfl, rfl, ?_, ?_⟩
        · intro r hr hne
          have hq : r ≠ q := fun heq => hne (congrArg some heq.symm)
          exact (update_of_ne hr _ _).trans (update_of_ne hq _ _)
        · intro q' hq' hne
          obtain rfl : q = q' := Option.some.inj hq'
          exact ⟨prim, _, Sys.task_ok hprim, (update_of_ne hne _ _).trans (update_self _ _ _), rfl⟩

theorem finishSync_cases (htask : s.tasks p = some task) (h : finishSync s p task c = .ok s') :
    Beside s s' ∧
      (s'.ctxs c).numRunning = int32 ((s.ctxs c).numRunning - 1) ∧
      (∀ r, r ≠ p → task.primary ≠ some r → s'.tasks r = s.tasks r) ∧
      (task.primary = none → s'.log = s.log ∧ ∃ task', s'.tasks p = some task' ∧
        task'.ioRequest = task.ioRequest) ∧
      ∀ q, task.primary = some q → q ≠ p → p.isHeap = true ∧ s'.log = .delete p :: s.log ∧
        ∃ prim prim', s.tasks q = some prim ∧ s'.tasks q = some prim' ∧
          prim'.ioRequest = prim.ioRequest := by
  have hcount : ∀ s1 : Sys, s1.ctxs = s.ctxs → Beside s s1 →
      Beside s (s1.setCtx c { s1.ctxs c with numRunning := int32 ((s1.ctxs c).numRunning - 1) }) ∧
      ((s1.setCtx c { s1.ctxs c with
        numRunning := int32 ((s1.ctxs c).numRunning - 1) }).ctxs c).numRunning =
        int32 ((s.ctxs c).numRunning - 1) := by
    intro s1 hctxs hbeside
    have hset : Beside s1 (s1.setCtx c { s1.ctxs c with
        numRunning := int32 ((s1.ctxs c).numRunning - 1) }) :=
      ⟨rfl, rfl, rfl, rfl, rfl, update_field IOContext.priv rfl⟩
    refine ⟨hbeside.trans hset, ?_⟩
    rw [Sys.setCtx_ctxs, update_self, hctxs]
  unfold finishSync at h
  split at h
  · next q hprimary =>
    obtain ⟨s1, hs1, h⟩ := bind_ok h
    obtain ⟨prim, hprim, h⟩ := bind_ok h
    obtain ⟨s2, hs2, h⟩ := bind_ok h
    obtain ⟨hheap, hbeside, hlog, hctxs, hothers, hprimaries⟩ := deleteTask_cases htask hs1
    obtain ⟨hbeside2, hctxs2, hlog2, hothers2, hprim2⟩ : Beside s1 s2 ∧ s2.ctxs = s1.ctxs ∧
        s2.log = s1.log ∧ (∀ r, r ≠ q → s2.tasks r = s1.tasks r) ∧
        ∃ prim', s2.tasks q = some prim' ∧ prim'.ioRequest = prim.ioRequest := by
      have htask1 : s1.tasks q = some prim := Sys.task_ok hprim
      obtain rfl := Except.ok.inj hs2
      split
      · refine ⟨⟨rfl, rfl, rfl, rfl, rfl, fun _ => rfl⟩, rfl, rfl, ?_, _, update_self _ _ _, rfl⟩
        intro r hr
        exact update_of_ne hr _ _
      · exact ⟨⟨rfl, rfl, rfl, rfl, rfl, fun _ => rfl⟩, rfl, rfl, fun _ _ => rfl, prim, htask1, rfl⟩
    obtain rfl := Except.ok.inj h
    obtain ⟨hbesides, hrunning⟩ := hcount s2 (hctxs2.trans hctxs) (hbeside.trans hbeside2)
    refine ⟨hbesides, hrunning, ?_, ?_, ?_⟩
    · intro r hr hne
      have hq : r ≠ q := fun heq => hne (hprimary.trans (congrArg some heq.symm))
      exact (hothers2 r hq).trans (hothers r hr hne)
    · intro hnone
      rw [hprimary] at hnone
      cases hnone
    · intro q' hq' hne
      obtain rfl : q = q' := Option.some.inj (hprimary.symm.trans hq')
      obtain ⟨prim0, prim1, hprim0, hprim1, hreq1⟩ := hprimaries q hprimary hne
      rw [Sys.task_some hprim1] at hprim
      obtain rfl := Except.ok.inj hprim
      obtain ⟨prim'', hprim'', hreq''⟩ := hprim2
      exact ⟨hheap, hlog2.trans hlog, prim0, prim'', hprim0, hprim'', hreq''.trans hreq1⟩
  · next hprimary =>
    obtain ⟨s1, hs1, h⟩ := bind_ok h
    obtain rfl := Except.ok.inj hs1
    obtain rfl := Except.ok.inj h
    obtain ⟨hbeside, hrunning⟩ := hcount (s.setTask p { task with returnCode := 0 }) rfl
      ⟨rfl, rfl, rfl, rfl, rfl, fun _ => rfl⟩
    refine ⟨hbeside, hrunning, ?_, ?_, ?_⟩
    · intro r hr _
      exact update_of_ne hr _ _
    · intro _
      exact ⟨rfl, _, update_self _ _ _, rfl⟩
    · intro q hq
      rw [hprimary] at hq
      cases hq

/-- What `io_complete` of a write or a read leaves: one running task less, and the events and the
tasks of its branch. -/
structure Closing (s : Sys) (p : TaskPtr) (s' : Sys) : Prop where
  beside : Beside s s'
  running : (s'.ctxs s.ioc).numRunning = (s.ctxs s.ioc).numRunning - 1
  log : ∃ events, Retiring s p events ∧ s'.log = events ++ .complete s.ioc p :: s.log
  others : ∀ r, r ≠ p → s.frame ≠ some r → s'.tasks r = s.tasks r
  frame : ∀ q, s.frame = some q → ∀ prim, s.tasks q = some prim → ∃ prim', s'.tasks q = some prim' ∧
    ((p = q ∧ prim'.ioRequest.nseg = 0) ∨ (p ≠ q ∧ prim'.ioRequest = prim.ioRequest))

theorem ioComplete_queue (htask : s.tasks p = some task) (hctx : task.ctx = some c)
    (h : ioComplete s p = .ok s') : task.queue = true := by
  unfold ioComplete at h
  rw [Sys.task_some htask, ok_bind, hctx] at h
  simp only at h
  split at h
  · cases h
  · next hqueue => simpa using hqueue

theorem polled_beside : Beside s (polled s p) := ⟨rfl, rfl, rfl, rfl, rfl, fun _ => rfl⟩

theorem callbacks_retiring {ctx : IOContext} (pool : List Nat) (hframe : s.frame = none)
    (hp : p.isHeap = true) (hpriv : ctx.priv = (s.ctxs s.ioc).priv)
    (hrun : ctx.numRunning = (s.ctxs s.ioc).numRunning - 1) :
    Retiring s p (.delete p :: callbacks s.ioc ctx pool) := by
  refine .inl ⟨_, rfl, hp, ?_⟩
  rcases callbacks_cases ctx pool with ⟨hnil, hor⟩ | ⟨hcall, hsome, h0⟩
  · rw [hpriv, hrun] at hor
    exact .inl ⟨hnil, fun _ => hor⟩
  · rw [hpriv] at hsome
    rw [hrun] at h0
    exact .inr ⟨hframe, hsome, h0, ctx, pool, hcall⟩

theorem closing_plain {s1 s2 : Sys} {pool : List Nat} {ctx : IOContext} (hframe : s.frame = none)
    (hprimary : task.primary = none) (hbeside : Beside s s1)
    (htasks : s1.tasks = update s.tasks p (some task.released))
    (hrun : (s1.ctxs s.ioc).numRunning = (s.ctxs s.ioc).numRunning - 1)
    (hpriv : ctx.priv = (s.ctxs s.ioc).priv)
    (hctx : ctx.numRunning = (s.ctxs s.ioc).numRunning - 1)
    (hlog : s1.log = callbacks s.ioc ctx pool ++ .complete s.ioc p :: s.log)
    (hdelete : deleteTask s1 p = .ok s2) : Closing s p s2 := by
  have htask1 : s1.tasks p = some task.released := by rw [htasks, update_self]
  obtain ⟨hheap, hbeside2, hlog2, hctxs, hothers, -⟩ := deleteTask_cases htask1 hdelete
  refine ⟨hbeside.trans hbeside2, ?_, ⟨_, callbacks_retiring pool hframe hheap hpriv hctx, ?_⟩, ?_, ?_⟩
  · rw [hctxs]
    exact hrun
  · rw [hlog2, hlog]
    exact rfl
  · intro r hr _
    have hne : task.released.primary ≠ some r := by
      intro heq
      rw [show task.released.primary = none from hprimary] at heq
      cases heq
    rw [hothers r hr hne, htasks, update_of_ne hr]
  · intro q hq
    rw [hframe] at hq
    cases hq

theorem ioComplete_closing (htask : s.tasks p = some task) (hctx : task.ctx = some s.ioc)
    (hcommand : task.command ≠ .flushCommand) (hkind : Kind s.frame p task)
    (hstack : ∀ q, s.frame = some q → ∃ n, q = .stack n) (h1 : 1 ≤ (s.ctxs s.ioc).numRunning)
    (hlt : (s.ctxs s.ioc).numRunning < 2 ^ 31) (h : ioComplete s p = .ok s') : Closing s p s' := by
  have hqueue := ioComplete_queue htask hctx h
  rw [ioComplete_polled htask hctx hqueue] at h
  have hfinish : ∀ s1 : Sys, (s1.ctxs s.ioc).numRunning = (s.ctxs s.ioc).numRunning →
      finishOne s1 s.ioc = .ok (finished s1 s.ioc) := by
    intro s1 hs1
    exact finishOne_ok (by omega) (by omega)
  have hcounted : ∀ s1 : Sys, (s1.ctxs s.ioc).numRunning = (s.ctxs s.ioc).numRunning →
      ((finished s1 s.ioc).ctxs s.ioc).numRunning = (s.ctxs s.ioc).numRunning - 1 := by
    intro s1 hs1
    unfold finished
    simp only [update_self, hs1]
  split at h
  · next hwrite =>
    obtain ⟨s1, hs1, h⟩ := bind_ok h
    obtain ⟨s2, hs2, hdelete⟩ := bind_ok h
    rw [hfinish (polled s p) rfl] at hs1
    obtain rfl := Except.ok.inj hs1
    have htask1 : (finished (polled s p) s.ioc).tasks p = some task := htask
    obtain ⟨hbeside, htasks, hlog, hrun⟩ := releaseSegs_cases htask1 hs2
    rcases Option.eq_none_or_eq_some s.frame with hframe | ⟨q, hframe⟩
    · have hpriv : IOContext.priv { s.ctxs s.ioc with
          numRunning := (s.ctxs s.ioc).numRunning - 1 } = (s.ctxs s.ioc).priv := rfl
      exact closing_plain hframe (hkind.plain hframe).1
        ((polled_beside.trans finished_beside).trans hbeside) htasks
        ((hrun s.ioc).trans (hcounted _ rfl)) hpriv rfl hlog hdelete
    · have hread := (hkind.sync hframe).1
      rw [hwrite] at hread
      cases hread
  · next hread =>
    obtain ⟨s1, hs1, h⟩ := bind_ok h
    obtain ⟨s2, hs2, h⟩ := bind_ok h
    obtain ⟨hbeside1, htasks1, hlog1, hctxs1⟩ := runFillCb_cases hs1
    have htask1 : s1.tasks p = some task := by
      rw [htasks1]
      exact htask
    obtain ⟨hbeside2, htasks2, hlog2, hrun2⟩ := releaseSegs_cases htask1 hs2
    have htasks : s2.tasks = update s.tasks p (some task.released) := by
      rw [htasks2, htasks1]
      exact rfl
    have htask2 : s2.tasks p = some task.released := by rw [htasks, update_self]
    have hbeside := (polled_beside.trans hbeside1).trans hbeside2
    have hrun : (s2.ctxs s.ioc).numRunning = (s.ctxs s.ioc).numRunning := by
      rw [hrun2, hctxs1]
      exact rfl
    have hlog : s2.log = .complete s.ioc p :: s.log := by
      rw [hlog2, hlog1]
      exact rfl
    rw [Sys.task_some htask2, ok_bind] at h
    rcases Option.eq_none_or_eq_some s.frame with hframe | ⟨q, hframe⟩
    · obtain ⟨hprimary, hcode, -⟩ := hkind.plain hframe
      have hcode' : task.released.returnCode = 0 := hcode
      rw [if_pos hcode', hfinish s2 hrun, ok_bind] at h
      have hpriv : IOContext.priv { s2.ctxs s.ioc with
          numRunning := (s2.ctxs s.ioc).numRunning - 1 } = (s.ctxs s.ioc).priv := hbeside.priv s.ioc
      exact closing_plain hframe hprimary (hbeside.trans finished_beside) htasks
        (hcounted s2 hrun) hpriv (congrArg (· - 1) hrun) (congrArg _ hlog) h
    · obtain ⟨-, hcode, hsub⟩ := hkind.sync hframe
      have hcode' : task.released.returnCode ≠ 0 := by
        intro h0
        rw [show task.released.returnCode = 1 from hcode] at h0
        cases h0
      rw [if_neg hcode'] at h
      obtain ⟨hbeside3, hrun3, hothers, hsingle, hprimary⟩ := finishSync_cases htask2 h
      have hdec : int32 ((s2.ctxs s.ioc).numRunning - 1) = (s.ctxs s.ioc).numRunning - 1 := by
        rw [hrun]
        exact int32_of_lt (by omega) (by omega)
      obtain ⟨n, hq⟩ := hstack q hframe
      rcases hsub with ⟨heq, hnone⟩ | ⟨hne, hsome, hheap⟩
      · -- the read that is not split: its task stays
        subst heq
        obtain ⟨hlog3, task', htask', hreq'⟩ := hsingle hnone
        refine ⟨hbeside.trans hbeside3, hrun3.trans hdec, ⟨[], .inr ⟨rfl, ?_, hframe⟩, ?_⟩, ?_, ?_⟩
        · rw [hq]
          exact rfl
        · exact hlog3.trans hlog
        · intro r hr _
          have hne : task.released.primary ≠ some r := by
            rw [show task.released.primary = none from hnone]
            exact (Option.some_ne_none r).symm
          rw [hothers r hr hne, htasks, update_of_ne hr]
        · intro q' hq' prim hprim
          obtain rfl : p = q' := Option.some.inj (hframe.symm.trans hq')
          exact ⟨task', htask', .inl ⟨rfl, by rw [hreq']; exact rfl⟩⟩
      · have hother : ∀ r, r ≠ p → s.frame ≠ some r → s'.tasks r = s.tasks r := by
          intro r hr hr'
          have hne' : task.released.primary ≠ some r := by
            rw [show task.released.primary = some q from hsome, ← hframe]
            exact hr'
          rw [hothers r hr hne', htasks, update_of_ne hr]
        obtain ⟨hp, hlog3, prim0, prim', hprim0, hprim', hreq'⟩ := hprimary q hsome (Ne.symm hne)
        rw [htasks, update_of_ne (Ne.symm hne)] at hprim0
        refine ⟨hbeside.trans hbeside3, hrun3.trans hdec,
          ⟨[.delete p], .inl ⟨[], rfl, hp, .inl ⟨rfl, ?_⟩⟩, ?_⟩, hother, ?_⟩
        · intro hnone
          rw [hframe] at hnone
          cases hnone
        · rw [hlog3, hlog]
          exact rfl
        · intro q' hq' prim hprim
          obtain rfl : q = q' := Option.some.inj (hframe.symm.trans hq')
          rw [hprim0] at hprim
          obtain rfl := Option.some.inj hprim
          exact ⟨prim', hprim', .inr ⟨hne, hreq'⟩⟩
  · next hflush => exact absurd hflush hcommand

theorem ioComplete_flush (htask : s.tasks p = some task) (hctx : task.ctx = some s.ioc)
    (hcommand : task.command = .flushCommand) (h : ioComplete s p = .ok s') :
    s' = (polled s p).setTask p { task with returnCode := 0 } := by
  have hqueue := ioComplete_queue htask hctx h
  rw [ioComplete_polled htask hctx hqueue] at h
  split at h
  · next hwrite => cases hcommand.symm.trans hwrite
  · next hread => cases hcommand.symm.trans hread
  · exact (Except.ok.inj h).symm

end

end LockdepSpdk.Blk
