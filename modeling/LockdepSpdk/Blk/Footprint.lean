import LockdepSpdk.Blk.Dispatch
import LockdepSpdk.Blk.Threads
import LockdepSpdk.Blk.Unaligned

/-!
# What a thread touches

The part of the device and of the memory that a thread's calls name. Its tasks and
its commands stay inside, so what it reads and writes on the way does too.
-/

namespace LockdepSpdk.Blk

set_option autoImplicit false

open Function ByteRange Interleaving Transition

/-- The bytes that a thread may look at, and those it may write. -/
structure Region where
  uses : Place → Prop
  writes : Place → Prop
  writes_uses : ∀ x, writes x → uses x

def Moved (cfg : Config) (offset len x : Nat) : Prop :=
  Within (offset / cfg.blockSize * cfg.blockSize) (len / cfg.blockSize * cfg.blockSize) x

structure Task.Inside (cfg : Config) (r : Region) (task : Task) : Prop where
  written : task.command = .writeCommand →
    (∀ x, Moved cfg task.offset task.len x → r.writes (.disk x)) ∧
      ∀ x, Within task.buf task.len x → r.uses (.mem x)
  read : task.command = .readCommand →
    (∀ x, Moved cfg task.offset task.len x → r.uses (.disk x)) ∧
      ∀ f, task.fillCb = some f → ∀ x, Within f.buf f.tmpLen x → r.writes (.mem x)

def Command.Inside (cfg : Config) (r : Region) (c : Command) : Prop :=
  ∀ x, Within (c.lbaOff * cfg.blockSize) (c.lbaCount * cfg.blockSize) x →
    if c.write then r.writes (.disk x) else r.uses (.disk x)

structure Sys.Inside (cfg : Config) (r : Region) (s : Sys) : Prop where
  tasks : ∀ p task, s.tasks p = some task → task.Inside cfg r
  inflight : ∀ c ∈ s.inflight, c.Inside cfg r

/-- The blocks that `read_random` reads. -/
def window (cfg : Config) (off len : Nat) : Nat × Nat :=
  (p2align off cfg.blockSize,
    sub64 (p2roundup (add64 off len) cfg.blockSize) (p2align off cfg.blockSize))

/-- The ranges of a call are the thread's. -/
def Call.Inside (cfg : Config) (r : Region) : Call → Prop
  | .read off len buf | .aioRead off len buf _ => off + len ≤ cfg.size ∧
      (∀ x, Within off len x → r.uses (.disk x)) ∧ ∀ x, Within buf len x → r.writes (.mem x)
  | .readRandom off len buf => off + len ≤ cfg.size ∧
      (∀ x, Within (window cfg off len).1 (window cfg off len).2 x → r.uses (.disk x)) ∧
      ∀ x, Within buf len x → r.writes (.mem x)
  | .write off len buf | .aioWrite off len buf _ => off + len ≤ cfg.size ∧
      (∀ x, Within off len x → r.writes (.disk x)) ∧ ∀ x, Within buf len x → r.uses (.mem x)
  | .aioSubmit _ => True

def Label.Inside (cfg : Config) (r : Region) : Label → Prop
  | .call c => c.Inside cfg r
  | .store a _ => r.writes (.mem a)
  | _ => True

/-- What of a task decides where it goes. -/
def Task.plan (task : Task) : IOCommand × Nat × Nat × Nat × Option FillCb :=
  (task.command, task.offset, task.len, task.buf, task.fillCb)

theorem Task.Inside.congr {cfg : Config} {r : Region} {task task' : Task} (h : task.Inside cfg r)
    (heq : task'.plan = task.plan) : task'.Inside cfg r := by
  simp only [Task.plan, Prod.mk.injEq] at heq
  obtain ⟨hcmd, hoff, hlen, hbuf, hfill⟩ := heq
  refine ⟨fun hc => ?_, fun hc => ?_⟩
  · rw [hoff, hlen, hbuf]
    exact h.written (hcmd ▸ hc)
  · rw [hoff, hlen, hfill]
    exact h.read (hcmd ▸ hc)

/-- No task gets another plan, and SPDK gets no command. -/
structure Keeps (s s' : Sys) : Prop where
  tasks : ∀ p task', s'.tasks p = some task' →
    ∃ task, s.tasks p = some task ∧ task'.plan = task.plan
  inflight : s'.inflight = s.inflight

namespace Keeps
variable {s s' s'' : Sys} {p : TaskPtr} {task task' : Task}

theorem refl (s : Sys) : Keeps s s := ⟨fun _ task h => ⟨task, h, rfl⟩, rfl⟩

theorem of_same (htasks : s'.tasks = s.tasks) (hin : s'.inflight = s.inflight) : Keeps s s' := by
  refine ⟨fun p task h => ?_, hin⟩
  rw [htasks] at h
  exact ⟨task, h, rfl⟩

theorem trans (h : Keeps s s') (h' : Keeps s' s'') : Keeps s s'' := by
  refine ⟨fun p task'' hp => ?_, h'.inflight.trans h.inflight⟩
  obtain ⟨task', hp', heq'⟩ := h'.tasks p task'' hp
  obtain ⟨task, hp0, heq⟩ := h.tasks p task' hp'
  exact ⟨task, hp0, heq'.trans heq⟩

theorem of_update (htask : s.tasks p = some task)
    (htasks : s'.tasks = update s.tasks p (some task')) (hplan : task'.plan = task.plan)
    (hin : s'.inflight = s.inflight) : Keeps s s' := by
  refine ⟨fun q u hq => ?_, hin⟩
  rw [htasks] at hq
  by_cases hqp : q = p
  · subst q
    rw [update_self] at hq
    obtain rfl := Option.some.inj hq
    exact ⟨task, htask, hplan⟩
  · rw [update_of_ne hqp] at hq
    exact ⟨u, hq, rfl⟩

theorem of_erase (htasks : s'.tasks = update s.tasks p none) (hin : s'.inflight = s.inflight) :
    Keeps s s' := by
  refine ⟨fun q u hq => ?_, hin⟩
  rw [htasks] at hq
  by_cases hqp : q = p
  · subst q
    rw [update_self] at hq
    cases hq
  · rw [update_of_ne hqp] at hq
    exact ⟨u, hq, rfl⟩

theorem inside (h : Keeps s s') {cfg : Config} {r : Region} (hs : s.Inside cfg r) :
    s'.Inside cfg r := by
  refine ⟨fun p task' hp => ?_, ?_⟩
  · obtain ⟨task, htask, hplan⟩ := h.tasks p task' hp
    exact (hs.tasks p task htask).congr hplan
  · rw [h.inflight]
    exact hs.inflight

end Keeps

section
variable {s s' : Sys} {p : TaskPtr} {task : Task} {c : CtxPtr}

theorem deleteTask_keeps (h : deleteTask s p = .ok s') : Keeps s s' := by
  cases p with
  | stack n => cases h
  | heap n =>
    simp only [deleteTask] at h
    obtain ⟨task, htask, h⟩ := bind_ok h
    have htask := Sys.task_ok htask
    cases hprim : task.primary with
    | none =>
      simp only [hprim] at h
      split at h
      · cases h
      · obtain rfl := Except.ok.inj h
        exact .of_erase rfl rfl
    | some q =>
      simp only [hprim] at h
      obtain ⟨prim, hq, h⟩ := bind_ok h
      simp only [ok_bind] at h
      split at h
      · cases h
      · obtain rfl := Except.ok.inj h
        have hset : Keeps s (s.setTask q { prim with ref := int32 (prim.ref - 1) }) :=
          .of_update (Sys.task_ok hq) rfl rfl rfl
        exact hset.trans (.of_erase rfl rfl)

theorem iocAppendTask_keeps (h : iocAppendTask s c p = .ok s') : Keeps s s' := by
  simp only [iocAppendTask] at h
  obtain ⟨s1, hs1, h⟩ := bind_ok h
  obtain rfl := Except.ok.inj h
  cases hlast : (s.ctxs c).nvmeTaskLast with
  | none =>
    rw [hlast] at hs1
    obtain rfl := Except.ok.inj hs1
    exact .of_same rfl rfl
  | some q =>
    rw [hlast] at hs1
    simp only [linkLast] at hs1
    obtain ⟨task, hq, hs1⟩ := bind_ok hs1
    obtain rfl := Except.ok.inj hs1
    exact .of_update (Sys.task_ok hq) rfl rfl rfl

theorem releaseSegs_keeps (h : releaseSegs s p = .ok s') : Keeps s s' := by
  simp only [releaseSegs] at h
  obtain ⟨task, htask, h⟩ := bind_ok h
  split at h
  · cases h
  · obtain rfl := Except.ok.inj h
    exact .of_update (Sys.task_ok htask) rfl rfl rfl

theorem finishOne_keeps (h : finishOne s c = .ok s') : Keeps s s' := by
  simp only [finishOne] at h
  split at h
  · split at h
    · obtain rfl := Except.ok.inj h
      exact .of_same rfl rfl
    · obtain rfl := Except.ok.inj h
      exact .of_same rfl rfl
  · split at h
    · cases h
    · obtain rfl := Except.ok.inj h
      exact .of_same rfl rfl

theorem finishSync_keeps (htask : s.tasks p = some task) (h : finishSync s p task c = .ok s') :
    Keeps s s' := by
  have hctx : ∀ s1 : Sys, Keeps s1 (s1.setCtx c { s1.ctxs c with
      numRunning := int32 ((s1.ctxs c).numRunning - 1) }) := fun _ => .of_same rfl rfl
  simp only [finishSync] at h
  split at h
  · obtain ⟨s2, hs2, h⟩ := bind_ok h
    obtain ⟨prim, hprim, h⟩ := bind_ok h
    simp only [ok_bind] at h
    obtain rfl := Except.ok.inj h
    refine (deleteTask_keeps hs2).trans (Keeps.trans ?_ (hctx _))
    split
    · exact .of_update (Sys.task_ok hprim) rfl rfl rfl
    · exact .refl _
  · simp only [ok_bind] at h
    obtain rfl := Except.ok.inj h
    have hset : Keeps s (s.setTask p { task with returnCode := 0 }) := .of_update htask rfl rfl rfl
    exact hset.trans (hctx _)

theorem returnCall_keeps (h : returnCall s = .ok s') : Keeps s s' := by
  simp only [returnCall] at h
  split at h
  · obtain rfl := Except.ok.inj h
    exact .of_same rfl rfl
  · obtain ⟨task, htask, h⟩ := bind_ok h
    split at h
    · cases h
    · obtain rfl := Except.ok.inj h
      exact .of_erase rfl rfl

theorem aioSubmit_keeps (h : aioSubmit s c = .ok s') : Keeps s s' := by
  simp only [aioSubmit] at h
  split at h
  · split at h
    · cases h
    · obtain rfl := Except.ok.inj h
      exact .of_same rfl rfl
  · exact returnCall_keeps h

theorem submitted_keeps (h : submitted s p = .ok s') : Keeps s s' := by
  simp only [submitted] at h
  obtain ⟨task, htask, h⟩ := bind_ok h
  split at h
  · cases h
  · obtain rfl := Except.ok.inj h
    exact .of_same rfl rfl

theorem ioComplete_keeps (h : ioComplete s p = .ok s') : Keeps s s' := by
  simp only [ioComplete] at h
  obtain ⟨task, htask, h⟩ := bind_ok h
  have htask := Sys.task_ok htask
  split at h
  · cases h
  · split at h
    · cases h
    · next c _ _ =>
      have hstart : Keeps s ({ s with currentQueueDepth := s.currentQueueDepth - 1 }.record
        (.complete c p)) := .of_same rfl rfl
      split at h
      · obtain ⟨s1, h1, h⟩ := bind_ok h
        obtain ⟨s2, h2, h⟩ := bind_ok h
        exact hstart.trans ((finishOne_keeps h1).trans
          ((releaseSegs_keeps h2).trans (deleteTask_keeps h)))
      · obtain ⟨s1, h1, h⟩ := bind_ok h
        obtain ⟨s2, h2, h⟩ := bind_ok h
        obtain ⟨task2, htask2, h⟩ := bind_ok h
        have hfill : Keeps ({ s with currentQueueDepth := s.currentQueueDepth - 1 }.record
            (.complete c p)) s1 := by
          simp only [runFillCb] at h1
          split at h1
          · cases h1
          · obtain ⟨mem, -, h1⟩ := bind_ok h1
            obtain rfl := Except.ok.inj h1
            exact .of_same rfl rfl
        have hreleased := hstart.trans (hfill.trans (releaseSegs_keeps h2))
        split at h
        · obtain ⟨s3, h3, h⟩ := bind_ok h
          exact hreleased.trans ((finishOne_keeps h3).trans (deleteTask_keeps h))
        · exact hreleased.trans (finishSync_keeps (Sys.task_ok htask2) h)
      · obtain rfl := Except.ok.inj h
        exact hstart.trans (.of_update htask rfl rfl rfl)

end

theorem Task.Alike.plan {task task' : Task} (h : task'.Alike task) : task'.plan = task.plan := by
  obtain ⟨b, r, rfl⟩ := h
  rfl

/-! What adds tasks or commands. -/

section
variable {cfg : Config} {r : Region} {s s' : Sys} {p : TaskPtr} {task : Task} {c : CtxPtr}

theorem Sys.Inside.setTask (h : s.Inside cfg r) (htask : task.Inside cfg r) :
    (s.setTask p task).Inside cfg r := by
  refine ⟨fun q u hq => ?_, h.inflight⟩
  by_cases hqp : q = p
  · subst q
    rw [Sys.setTask_tasks, update_self] at hq
    obtain rfl := Option.some.inj hq
    exact htask
  · rw [Sys.setTask_tasks, update_of_ne hqp] at hq
    exact h.tasks q u hq

theorem Sys.Inside.of_same (h : s.Inside cfg r) (htasks : s'.tasks = s.tasks)
    (hin : s'.inflight = s.inflight) : s'.Inside cfg r := (Keeps.of_same htasks hin).inside h

theorem sendCommand_inside {write : Bool} (h : s.Inside cfg r) (htask : s.tasks p = some task)
    (hwrite : write = decide (task.command = .writeCommand)) (hflush : task.command ≠ .flushCommand)
    (hsend : sendCommand cfg s p write = .ok s') : s'.Inside cfg r := by
  unfold sendCommand at hsend
  rw [Sys.task_some htask, ok_bind] at hsend
  obtain ⟨⟨sgl, task'⟩, hwalk, hsend⟩ := bind_ok hsend
  obtain rfl := Except.ok.inj hsend
  have hold := h.tasks p task htask
  have hset : (s.setTask p task').Inside cfg r :=
    h.setTask (hold.congr (enumerateSgl_alike hwalk).plan)
  refine ⟨hset.tasks, ?_⟩
  change ∀ c ∈ s.inflight ++ [_], Command.Inside cfg r c
  rw [List.forall_mem_append]
  refine ⟨h.inflight, List.forall_mem_singleton.mpr fun x hx => ?_⟩
  rw [hwrite]
  cases hcmd : task.command with
  | writeCommand => exact (hold.written hcmd).1 x hx
  | readCommand => exact (hold.read hcmd).1 x hx
  | flushCommand => exact absurd hcmd hflush

theorem sendData_inside {write : Bool} (h : s.Inside cfg r) (htask : s.tasks p = some task)
    (hwrite : write = decide (task.command = .writeCommand)) (hflush : task.command ≠ .flushCommand)
    (hsend : sendData cfg s p task write = .ok s') : s'.Inside cfg r := by
  unfold sendData at hsend
  split at hsend
  · cases hsend
  · obtain rfl := Except.ok.inj hsend
    exact h.of_same rfl rfl
  · next s1 halloc =>
    obtain ⟨s2, hs2, hdone⟩ := bind_ok hsend
    obtain ⟨dma, pool, d, n, task1, halike, rfl⟩ := allocBufFromPool_cases halloc
    have hs1 : Keeps s { s with
        dma := dma
        dataBufList := pool
        ctxs := update s.ctxs d { s.ctxs d with totalNseg := n }
        tasks := update s.tasks p (some task1) } := .of_update htask rfl halike.plan rfl
    have hcmd : task1.command = task.command := by
      obtain ⟨b, q, rfl⟩ := halike
      rfl
    refine (submitted_keeps hdone).inside (sendCommand_inside (hs1.inside h) (update_self ..) ?_ ?_
      hs2)
    · rw [hcmd]
      exact hwrite
    · rwa [hcmd]

theorem submit_inside (h : s.Inside cfg r) (hsubmit : submit cfg s p = .ok s') :
    s'.Inside cfg r := by
  unfold submit at hsubmit
  split at hsubmit
  · obtain rfl := Except.ok.inj hsubmit
    exact h.of_same rfl rfl
  · obtain ⟨task, htask, hsubmit⟩ := bind_ok hsubmit
    have htask := Sys.task_ok htask
    have hqueued : (s.setTask p task.queued).Inside cfg r :=
      h.setTask ((h.tasks p task htask).congr rfl)
    have hself : (s.setTask p task.queued).tasks p = some task.queued := update_self ..
    have hcommand : task.queued.command = task.command := rfl
    simp only at hsubmit
    cases hcmd : task.command with
    | writeCommand =>
      rw [hcmd] at hsubmit hcommand
      exact sendData_inside hqueued hself (by rw [hcommand]; rfl) (by rw [hcommand]; simp) hsubmit
    | readCommand =>
      rw [hcmd] at hsubmit hcommand
      exact sendData_inside hqueued hself (by rw [hcommand]; rfl) (by rw [hcommand]; simp) hsubmit
    | flushCommand =>
      rw [hcmd] at hsubmit
      refine (submitted_keeps hsubmit).inside ⟨hqueued.tasks, ?_⟩
      change ∀ c ∈ s.inflight ++ [_], Command.Inside cfg r c
      rw [List.forall_mem_append]
      refine ⟨h.inflight, List.forall_mem_singleton.mpr fun x hx => ?_⟩
      have hempty : ¬ Within (0 * cfg.blockSize) (0 * cfg.blockSize) x := by
        simp [Within]
      exact absurd hx hempty

theorem tick_inside (h : s.Inside cfg r) (htick : tick cfg s = .ok s') : s'.Inside cfg r := by
  unfold tick at htick
  split at htick
  · cases htick
  · split at htick
    · exact (returnCall_keeps htick).inside h
    · obtain rfl := Except.ok.inj htick
      exact h.of_same rfl rfl
  · obtain rfl := Except.ok.inj htick
    exact h.of_same rfl rfl
  · obtain rfl := Except.ok.inj htick
    exact h.of_same rfl rfl
  · split at htick
    · obtain rfl := Except.ok.inj htick
      exact h.of_same rfl rfl
    · exact submit_inside h htick

def WriteChunk.Inside (cfg : Config) (r : Region) (c : WriteChunk) : Prop :=
  (∀ x, Moved cfg c.off c.len x → r.writes (.disk x)) ∧ ∀ x, Within c.buf c.len x → r.uses (.mem x)

def ReadChunk.Inside (cfg : Config) (r : Region) (c : ReadChunk) : Prop :=
  (∀ x, Moved cfg c.off c.len x → r.uses (.disk x)) ∧
    ∀ x, Within c.fill.buf c.fill.tmpLen x → r.writes (.mem x)

theorem newTask_inside {command : IOCommand} {off len : Nat} {primary : Option TaskPtr}
    (h : s.Inside cfg r)
    (hnew : (Task.new command off len 0).Inside cfg r)
    (hmake : newTask s command off len primary = .ok (p, s')) :
    s'.Inside cfg r ∧ ∃ task, s'.tasks p = some task ∧
      task.plan = (Task.new command off len 0).plan := by
  cases primary with
  | none =>
    obtain ⟨rfl, rfl⟩ := ok_mk_inj hmake
    have hs : Sys.Inside cfg r { s with fresh := s.fresh + 1 } := h.of_same rfl rfl
    exact ⟨hs.setTask hnew, _, update_self .., rfl⟩
  | some q =>
    simp only [newTask] at hmake
    obtain ⟨prim, hprim, hmake⟩ := bind_ok hmake
    obtain ⟨rfl, rfl⟩ := ok_mk_inj hmake
    have hs : Sys.Inside cfg r { s with fresh := s.fresh + 1 } := h.of_same rfl rfl
    have hprim' : Task.Inside cfg r { prim with ref := int32 (prim.ref + 1) } :=
      (h.tasks q prim (Sys.task_ok hprim)).congr rfl
    exact ⟨(hs.setTask hprim').setTask (hnew.congr rfl), _, update_self .., rfl⟩

theorem addWriteChunk_inside {w : WriteChunk} (h : s.Inside cfg r) (hw : w.Inside cfg r)
    (hadd : addWriteChunk c s w = .ok s') : s'.Inside cfg r := by
  unfold addWriteChunk at hadd
  obtain ⟨⟨p, s1⟩, hmake, hadd⟩ := bind_ok hadd
  obtain ⟨rfl, rfl⟩ := ok_mk_inj hmake
  obtain ⟨task, htask, happend⟩ := bind_ok hadd
  have hself := Sys.task_ok htask
  rw [Sys.setTask_tasks, update_self] at hself
  obtain rfl := Option.some.inj hself
  have hnew : Task.Inside cfg r { Task.new .writeCommand w.off w.len 0 with
      buf := w.buf, ctx := some c } := ⟨fun _ => hw, fun hc => (by cases hc)⟩
  have hs : Sys.Inside cfg r { s with fresh := s.fresh + 1 } := h.of_same rfl rfl
  refine (iocAppendTask_keeps happend).inside ((hs.setTask (p := .heap s.fresh) hnew).of_same ?_ rfl)
  exact update_idem ..

/-- The primary of a read, where there is one, is a read. -/
def ReadPrimary (primary : Option TaskPtr) (s : Sys) : Prop :=
  ∀ q, primary = some q → ∀ task, s.tasks q = some task → task.command = .readCommand

theorem Keeps.reads {primary : Option TaskPtr} (h : Keeps s s') (hs : ReadPrimary primary s) :
    ReadPrimary primary s' := by
  intro q hq task' htask'
  obtain ⟨task, htask, hplan⟩ := h.tasks q task' htask'
  exact (congrArg Prod.fst hplan).trans (hs q hq task htask)

theorem ReadPrimary.setTask {primary : Option TaskPtr} (h : ReadPrimary primary s)
    (hcmd : task.command = .readCommand) : ReadPrimary primary (s.setTask p task) := by
  intro q hq u hu
  by_cases hqp : q = p
  · subst q
    rw [Sys.setTask_tasks, update_self] at hu
    obtain rfl := Option.some.inj hu
    exact hcmd
  · rw [Sys.setTask_tasks, update_of_ne hqp] at hu
    exact h q hq u hu

theorem newTask_reads {off len : Nat} {primary q : Option TaskPtr} (h : ReadPrimary q s)
    (hmake : newTask s .readCommand off len primary = .ok (p, s')) : ReadPrimary q s' := by
  have hs : ReadPrimary q { s with fresh := s.fresh + 1 } := h
  cases primary with
  | none =>
    obtain ⟨rfl, rfl⟩ := ok_mk_inj hmake
    exact hs.setTask rfl
  | some o =>
    simp only [newTask] at hmake
    obtain ⟨prim, hprim, hmake⟩ := bind_ok hmake
    obtain ⟨rfl, rfl⟩ := ok_mk_inj hmake
    have hkeep : Keeps s ({ s with fresh := s.fresh + 1 }.setTask o
      { prim with ref := int32 (prim.ref + 1) }) := .of_update (Sys.task_ok hprim) rfl rfl rfl
    exact (hkeep.reads h).setTask rfl

theorem addReadChunk_inside {n : Nat} {primary : Option TaskPtr} {k : ReadChunk}
    (hk : k.Inside cfg r) (h : s.Inside cfg r ∧ ReadPrimary primary s)
    (hadd : addReadChunk c n primary s k = .ok s') : s'.Inside cfg r ∧ ReadPrimary primary s' := by
  have hnew : (Task.new .readCommand k.off k.len 0).Inside cfg r :=
    ⟨fun hc => (by cases hc), fun _ => ⟨hk.1, fun f hf => (by cases hf)⟩⟩
  unfold addReadChunk at hadd
  obtain ⟨⟨p, s1⟩, hchunk, hadd⟩ := bind_ok hadd
  obtain ⟨task, htask, happend⟩ := bind_ok hadd
  have htask := Sys.task_ok htask
  have hs1 : s1.Inside cfg r ∧ ReadPrimary primary s1 ∧ task.command = .readCommand := by
    unfold chunkTask at hchunk
    have hmade : ∀ q, newTask s .readCommand k.off k.len q = .ok (p, s1) →
        s1.Inside cfg r ∧ ReadPrimary primary s1 ∧ task.command = .readCommand := by
      intro q hmake
      obtain ⟨hin, u, hu, hplan⟩ := newTask_inside h.1 hnew hmake
      rw [htask] at hu
      obtain rfl := Option.some.inj hu
      exact ⟨hin, newTask_reads h.2 hmake, congrArg Prod.fst hplan⟩
    split at hchunk
    · next q =>
      split at hchunk
      · obtain ⟨rfl, rfl⟩ := ok_mk_inj hchunk
        exact ⟨h.1, h.2, h.2 q rfl task htask⟩
      · exact hmade _ hchunk
    · exact hmade _ hchunk
  obtain ⟨hin, hreads, hcmd⟩ := hs1
  have happended := iocAppendTask_keeps happend
  refine ⟨happended.inside (hin.setTask ⟨fun hc => ?_, fun _ => ?_⟩),
    happended.reads (hreads.setTask hcmd)⟩
  · rw [show task.command = .writeCommand from hc] at hcmd
    cases hcmd
  · refine ⟨((hin.tasks p task htask).read hcmd).1, fun f hf => ?_⟩
    obtain rfl := Option.some.inj hf
    exact hk.2

theorem writeSplit_inside {off len buf : Nat} (h : s.Inside cfg r)
    (hchunks : ∀ w ∈ writeChunks off len buf, w.Inside cfg r)
    (hsplit : writeSplit s off len buf c = .ok s') : s'.Inside cfg r :=
  foldlM_forall (I := Sys.Inside cfg r) (fun _ _ _ hw hs hadd => addWriteChunk_inside hs hw hadd)
    hchunks hsplit h

theorem makeReadTasks_inside {alignedOff buf alignedLen origOff origLen : Nat}
    {primary : Option TaskPtr} (h : s.Inside cfg r) (hreads : ReadPrimary primary s)
    (hchunks : ∀ cs, readChunks alignedOff buf alignedLen origOff origLen = some cs →
      ∀ k ∈ cs, k.Inside cfg r)
    (hmake : makeReadTasks s alignedOff c buf alignedLen primary origOff origLen = .ok s') :
    s'.Inside cfg r := by
  unfold makeReadTasks at hmake
  split at hmake
  · cases hmake
  · next cs hcs =>
    exact (foldlM_forall (I := fun s => s.Inside cfg r ∧ ReadPrimary primary s)
      (fun _ _ _ hk hs hadd => addReadChunk_inside hk hs hadd) (hchunks cs hcs) hmake
      ⟨h, hreads⟩).1

theorem readSync_inside {alignedOff alignedLen buf origOff origLen : Nat} (h : s.Inside cfg r)
    (hframe : ∀ x, Moved cfg alignedOff alignedLen x → r.uses (.disk x))
    (hchunks : ∀ cs, readChunks alignedOff buf alignedLen origOff origLen = some cs →
      ∀ k ∈ cs, k.Inside cfg r)
    (hread : readSync s alignedOff alignedLen buf origOff origLen = .ok s') :
    s'.Inside cfg r := by
  have hnew : (Task.new .readCommand alignedOff alignedLen 1).Inside cfg r :=
    ⟨fun hc => (by cases hc), fun _ => ⟨hframe, fun f hf => (by cases hf)⟩⟩
  have hopened : (opened s alignedOff alignedLen).Inside cfg r := by
    have hs : Sys.Inside cfg r { s with
        fresh := s.fresh + 1, frame := some (.stack s.fresh) } := h.of_same rfl rfl
    exact (hs.setTask (p := .stack s.fresh) hnew).of_same rfl rfl
  have hreads : ReadPrimary (some (.stack s.fresh)) (opened s alignedOff alignedLen) := by
    intro q hq task htask
    obtain rfl := Option.some.inj hq
    have hself : (opened s alignedOff alignedLen).tasks (.stack s.fresh) =
        some (Task.new .readCommand alignedOff alignedLen 1) := update_self ..
    rw [hself] at htask
    obtain rfl := Option.some.inj htask
    rfl
  unfold readSync at hread
  obtain ⟨s3, hmake, hsubmit⟩ := bind_ok hread
  exact (aioSubmit_keeps hsubmit).inside (makeReadTasks_inside hopened hreads hchunks hmake)

/-! Calls. -/

/-- A device of whole blocks that a task of `split_size` holds. -/
structure Config.Whole (cfg : Config) : Prop where
  pow : ∃ k, cfg.blockSize = 2 ^ k
  le : cfg.blockSize ≤ splitSize
  size : cfg.size < 2 ^ 63
  whole : cfg.blockSize ∣ cfg.size

theorem Config.Whole.split (h : cfg.Whole) : cfg.blockSize ∣ splitSize := by
  obtain ⟨k, hk⟩ := h.pow
  exact dvd_splitSize hk h.le

theorem moved_iff {off len x : Nat} (hoff : cfg.blockSize ∣ off) (hlen : cfg.blockSize ∣ len) :
    Moved cfg off len x ↔ Within off len x := by
  unfold Moved
  rw [Nat.div_mul_cancel hoff, Nat.div_mul_cancel hlen]

theorem writeChunks_inside (hcfg : cfg.Whole) {off len buf : Nat} (hoff : cfg.blockSize ∣ off)
    (hlen : cfg.blockSize ∣ len) (hend : off + len ≤ cfg.size)
    (hdisk : ∀ x, Within off len x → r.writes (.disk x))
    (hmem : ∀ x, Within buf len x → r.uses (.mem x)) :
    ∀ w ∈ writeChunks off len buf, w.Inside cfg r := by
  intro w hw
  have hsize := hcfg.size
  have hspec : WriteSplit off len buf (writeChunks off len buf) := writeChunks_spec (by omega)
  obtain ⟨hlo, hhi⟩ := hspec.tiles.bounds (List.mem_map_of_mem hw)
  obtain ⟨hwoff, hwlen⟩ := hspec.blocks cfg.blockSize hcfg.split hoff hlen w hw
  have hsource := hspec.source w hw
  refine ⟨fun x hx => hdisk x ?_, fun x hx => hmem x ?_⟩
  · have hin := (moved_iff hwoff hwlen).mp hx
    unfold Within at *
    omega
  · unfold Within at *
    omega

theorem readChunks_inside (hcfg : cfg.Whole) {a n off len buf : Nat} (ha : cfg.blockSize ∣ a)
    (hn : cfg.blockSize ∣ n) (hend : a + n ≤ cfg.size) (hle : a ≤ off)
    (hskip : off = a ∨ off - a < min n splitSize) (horig : off + len ≤ a + n)
    (hdisk : ∀ x, Within a n x → r.uses (.disk x))
    (hmem : ∀ x, Within buf len x → r.writes (.mem x)) :
    ∀ cs, readChunks a buf n off len = some cs → ∀ k ∈ cs, k.Inside cfg r := by
  intro cs hcs k hk
  have hsize := hcfg.size
  obtain ⟨cs', hcs', hspec⟩ : ∃ cs', readChunks a buf n off len = some cs' ∧
      ReadSplit a n (off - a) len buf cs' := readChunks_spec (by omega) hle hskip horig
  rw [hcs] at hcs'
  obtain rfl := Option.some.inj hcs'
  obtain ⟨hlo, hhi⟩ := hspec.tiles.bounds (List.mem_map_of_mem hk)
  obtain ⟨hblo, hbhi⟩ := hspec.fills.bounds (List.mem_map_of_mem hk)
  obtain ⟨hkoff, hklen⟩ := hspec.blocks cfg.blockSize hcfg.split ha hn k hk
  refine ⟨fun x hx => hdisk x ?_, fun x hx => hmem x ?_⟩
  · have hin := (moved_iff hkoff hklen).mp hx
    unfold Within at *
    omega
  · unfold Within at *
    omega

theorem isValidIo_inside (hcfg : cfg.Whole) {off len buf : Nat}
    (hvalid : isValidIo cfg off len = true) (hend : off + len ≤ cfg.size)
    (hdisk : ∀ x, Within off len x → r.uses (.disk x))
    (hmem : ∀ x, Within buf len x → r.writes (.mem x)) :
    (∀ x, Moved cfg off len x → r.uses (.disk x)) ∧
      ∀ cs, readChunks off buf len off len = some cs → ∀ k ∈ cs, k.Inside cfg r := by
  obtain ⟨hoff, hlen, -⟩ := isValidIo_iff.mp hvalid
  exact ⟨fun x hx => hdisk x ((moved_iff hoff hlen).mp hx),
    readChunks_inside hcfg hoff hlen hend (Nat.le_refl off) (Or.inl rfl) (Nat.le_refl _) hdisk hmem⟩

theorem readSync_inside_around (hcfg : cfg.Whole) {off len a n buf : Nat} (h : s.Inside cfg r)
    (ha : Around cfg off len a n) (hpos : 0 < len)
    (hdisk : ∀ x, Within a n x → r.uses (.disk x))
    (hmem : ∀ x, Within buf len x → r.writes (.mem x))
    (hread : readSync s a n buf off len = .ok s') : s'.Inside cfg r := by
  obtain ⟨k, hk⟩ := hcfg.pow
  have hb : 0 < cfg.blockSize := by
    rw [hk]
    exact Nat.two_pow_pos k
  have hmod := Nat.mod_lt off hb
  have hle := hcfg.le
  have hhead := ha.head
  have hstart := ha.le
  have hcovers := ha.covers
  have hskip : off - a < min n splitSize := Nat.lt_min.mpr ⟨by omega, by omega⟩
  refine readSync_inside h (fun x hx => hdisk x ((moved_iff ha.start ha.blocks).mp hx)) ?_ hread
  exact readChunks_inside hcfg ha.start ha.blocks ha.inside ha.le (Or.inr hskip) ha.covers hdisk hmem

theorem Call.exec_inside (hcfg : cfg.Whole) {call : Call} (h : s.Inside cfg r)
    (hcall : call.Inside cfg r) (hexec : call.exec cfg s = .ok s') : s'.Inside cfg r := by
  cases call with
  | read off len buf =>
    obtain ⟨hend, hdisk, hmem⟩ := hcall
    simp only [Call.exec, Blk.read] at hexec
    split at hexec
    · next hvalid =>
      obtain ⟨hframe, hchunks⟩ := isValidIo_inside hcfg hvalid hend hdisk hmem
      exact readSync_inside h hframe hchunks hexec
    · cases hexec
  | readRandom off len buf =>
    obtain ⟨hend, hdisk, hmem⟩ := hcall
    simp only [Call.exec, Blk.readRandom] at hexec
    split at hexec
    · next hvalid =>
      obtain ⟨k, hk⟩ := hcfg.pow
      have hlt : k < 64 := by
        have hle := hcfg.le
        rw [hk] at hle
        have hpow : 2 ^ k < 2 ^ 64 := Nat.lt_of_le_of_lt hle (by decide)
        exact (Nat.pow_lt_pow_iff_right (by decide)).mp hpow
      exact readSync_inside_around hcfg h (around hk hlt hcfg.size hcfg.whole hvalid.1 hend)
        hvalid.1 hdisk hmem hexec
    · cases hexec
  | write off len buf =>
    obtain ⟨hend, hdisk, hmem⟩ := hcall
    simp only [Call.exec, Blk.write] at hexec
    split at hexec
    · next hvalid =>
      obtain ⟨hoff, hlen, -⟩ := isValidIo_iff.mp hvalid
      obtain ⟨s2, hsplit, hsubmit⟩ := bind_ok hexec
      have hopened : (openContext s).2.Inside cfg r := h.of_same rfl rfl
      exact (aioSubmit_keeps hsubmit).inside (writeSplit_inside hopened
        (writeChunks_inside hcfg hoff hlen hend hdisk hmem) hsplit)
    · cases hexec
  | aioRead off len buf ioc =>
    obtain ⟨hend, hdisk, hmem⟩ := hcall
    simp only [Call.exec, Blk.aioRead] at hexec
    split at hexec
    · next hvalid =>
      obtain ⟨-, hchunks⟩ := isValidIo_inside hcfg hvalid hend hdisk hmem
      obtain ⟨s1, hmake, hexec⟩ := bind_ok hexec
      obtain rfl := Except.ok.inj hexec
      have hs1 : s1.Inside cfg r :=
        makeReadTasks_inside h (fun q hq => by cases hq) hchunks hmake
      exact hs1.of_same rfl rfl
    · cases hexec
  | aioWrite off len buf ioc =>
    obtain ⟨hend, hdisk, hmem⟩ := hcall
    simp only [Call.exec, Blk.aioWrite] at hexec
    split at hexec
    · next hvalid =>
      obtain ⟨hoff, hlen, -⟩ := isValidIo_iff.mp hvalid
      obtain ⟨s1, hsplit, hexec⟩ := bind_ok hexec
      obtain rfl := Except.ok.inj hexec
      have hs1 : s1.Inside cfg r :=
        writeSplit_inside h (writeChunks_inside hcfg hoff hlen hend hdisk hmem) hsplit
      exact hs1.of_same rfl rfl
    · cases hexec
  | aioSubmit ioc => exact (aioSubmit_keeps hexec).inside h

theorem Label.exec_inside (hcfg : cfg.Whole) {l : Label} (h : s.Inside cfg r)
    (hl : l.Inside cfg r) (hexec : l.exec cfg s = .ok s') : s'.Inside cfg r := by
  cases l with
  | call call =>
    simp only [Label.exec] at hexec
    split at hexec
    · exact Call.exec_inside hcfg h hl hexec
    · cases hexec
  | store a v =>
    simp only [Label.exec] at hexec
    split at hexec
    · obtain rfl := Except.ok.inj hexec
      exact h.of_same rfl rfl
    · cases hexec
  | tick => exact tick_inside h hexec
  | transfer i =>
    simp only [Label.exec] at hexec
    split at hexec
    · cases hexec
    · next cmd hi =>
      split at hexec
      · cases hexec
      · obtain rfl := Except.ok.inj hexec
        have hset : ∀ c ∈ s.inflight.set i { cmd with moved := true }, c.Inside cfg r := by
          intro c hc
          rcases List.mem_or_eq_of_mem_set hc with hc | rfl
          · exact h.inflight c hc
          · exact h.inflight cmd (List.mem_of_getElem? hi)
        unfold move
        split
        · exact ⟨h.tasks, hset⟩
        · exact ⟨h.tasks, hset⟩
  | complete i =>
    simp only [Label.exec] at hexec
    split at hexec
    · cases hexec
    · split at hexec
      · refine (ioComplete_keeps hexec).inside ⟨h.tasks, fun c hc => ?_⟩
        exact h.inflight c (List.mem_of_mem_eraseIdx hc)
      · cases hexec

end

end LockdepSpdk.Blk
