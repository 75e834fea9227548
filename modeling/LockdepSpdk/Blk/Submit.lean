import LockdepSpdk.Blk.Core
import LockdepSpdk.Lib.Transition

/-!
# A turn of the submission loop

What `_aio_handle` does with the next task: it goes back to polling, or takes
segments for the task and hands it to SPDK.
-/

namespace LockdepSpdk.Blk

set_option autoImplicit false

open Function Linked Transition

def sentTask (s : Sys) (task : Task) : Task :=
  { task with
    queue := true
    ioRequest := ⟨segCount task.len, segCount task.len, 0,
      s.dataBufList.take (segCount task.len), none⟩ }

def sentCommand (cfg : Config) (s : Sys) (p : TaskPtr) (task : Task) : Command where
  task := p
  write := decide (task.command = .writeCommand)
  lbaOff := (extent cfg.blockSize task.offset task.len).1
  lbaCount := (extent cfg.blockSize task.offset task.len).2
  sgl := pieces (s.dataBufList.take (segCount task.len)) task.len
  moved := false

def afterSubmit (cfg : Config) (s : Sys) (p : TaskPtr) (task : Task) : Sys :=
  { s with
    dma := if task.command = .writeCommand then
        loadSegs s.mem (s.dataBufList.take (segCount task.len)) task.buf task.len s.dma
      else s.dma
    tasks := update s.tasks p (some (sentTask s task))
    ctxs := update s.ctxs s.ioc
      { s.ctxs s.ioc with totalNseg := (s.ctxs s.ioc).totalNseg + segCount task.len }
    dataBufList := s.dataBufList.drop (segCount task.len)
    currentQueueDepth := s.currentQueueDepth + 1
    inflight := s.inflight ++ [sentCommand cfg s p task]
    t := task.next
    log := .submit s.ioc p :: s.log }

theorem allocBufFromPool_ok {s : Sys} {p : TaskPtr} {task : Task} {c : CtxPtr} {write : Bool}
    (hctx : task.ctx = some c) (hreq : task.ioRequest = .zero) (hle : task.len ≤ splitSize)
    (hpool : segCount task.len ≤ s.dataBufList.length) (h0 : 0 ≤ (s.ctxs c).totalNseg)
    (hlt : (s.ctxs c).totalNseg + segCount task.len < 2 ^ 31) :
    allocBufFromPool s p task write = .ok (some { s with
      dma := if write then
          loadSegs s.mem (s.dataBufList.take (segCount task.len)) task.buf task.len s.dma
        else s.dma
      tasks := update s.tasks p (some { task with
        ioRequest := ⟨0, segCount task.len, 0, s.dataBufList.take (segCount task.len), none⟩ })
      ctxs := update s.ctxs c
        { s.ctxs c with totalNseg := (s.ctxs c).totalNseg + segCount task.len }
      dataBufList := s.dataBufList.drop (segCount task.len) }) := by
  have hinline : segCount task.len ≤ inlineSegmentNum := by
    have hcount := segCount_le hle
    unfold inlineSegmentNum
    omega
  unfold allocBufFromPool
  simp only [hctx, hreq]
  rw [if_neg (by omega), if_pos hinline, int32_of_lt (by omega) hlt]
  exact rfl

theorem sendCommand_ok {cfg : Config} {s : Sys} {p : TaskPtr} {task : Task} {write : Bool}
    (hfit : SegsFit task) (htask : s.tasks p = some task) :
    sendCommand cfg s p write = .ok { s with
      tasks := update s.tasks p (some (task.atSeg task.ioRequest.nseg))
      inflight := s.inflight ++ [⟨p, write, (extent cfg.blockSize task.offset task.len).1,
        (extent cfg.blockSize task.offset task.len).2, pieces task.ioRequest.segs task.len,
        false⟩] } := by
  unfold sendCommand
  rw [Sys.task_some htask]
  simp only [ok_bind]
  rw [enumerateSgl_eq hfit]
  exact rfl

theorem submitted_ok {s : Sys} {p : TaskPtr} (task : Task) {c : CtxPtr}
    (htask : s.tasks p = some task) (hctx : task.ctx = some c) :
    submitted s p = .ok { s with
      currentQueueDepth := s.currentQueueDepth + 1
      t := task.next
      log := .submit c p :: s.log } := by
  unfold submitted
  rw [Sys.task_some htask]
  simp only [ok_bind]
  rw [hctx]
  exact rfl

theorem sendData_ok {cfg : Config} {s : Sys} {p : TaskPtr} {task : Task} {write : Bool}
    (hctx : task.ctx = some s.ioc) (hreq : task.ioRequest = .zero) (hpos : 0 < task.len)
    (hle : task.len ≤ splitSize) (hpool : segCount task.len ≤ s.dataBufList.length)
    (h0 : 0 ≤ (s.ctxs s.ioc).totalNseg)
    (hlt : (s.ctxs s.ioc).totalNseg + segCount task.len < 2 ^ 31) (hqueue : task.queue = true)
    (hwrite : write = decide (task.command = .writeCommand)) :
    sendData cfg s p task write = .ok (afterSubmit cfg s p task) := by
  have hfit : SegsFit { task with
      ioRequest := ⟨0, segCount task.len, 0, s.dataBufList.take (segCount task.len), none⟩ } := by
    refine ⟨?_, hpos, le_segCount _, segCount_lt _⟩
    change segCount task.len = (s.dataBufList.take (segCount task.len)).length
    rw [List.length_take, Nat.min_eq_left hpool]
  have htask : sentTask s task = Task.atSeg { task with
      ioRequest := ⟨0, segCount task.len, 0, s.dataBufList.take (segCount task.len), none⟩ }
      (segCount task.len) := by
    unfold sentTask Task.atSeg
    rw [hqueue]
  unfold sendData
  rw [allocBufFromPool_ok hctx hreq hle hpool h0 hlt]
  change (do
    let s2 ← sendCommand cfg _ p write
    submitted s2 p) = _
  rw [sendCommand_ok hfit (update_self _ _ _)]
  change submitted _ p = _
  rw [submitted_ok (sentTask s task) (by rw [htask]; exact update_self _ _ _) hctx]
  subst hwrite
  unfold afterSubmit
  rw [htask]
  simp only [update_idem, decide_eq_true_eq]
  exact rfl

theorem submit_ok {cfg : Config} {s : Sys} {p : TaskPtr} {task : Task}
    (htask : s.tasks p = some task) (hready : Ready s.frame s.ioc p task)
    (hslot : s.currentQueueDepth ≠ cfg.maxQueueDepth)
    (hpool : segCount task.len ≤ s.dataBufList.length) (h0 : 0 ≤ (s.ctxs s.ioc).totalNseg)
    (hlt : (s.ctxs s.ioc).totalNseg + segCount task.len < 2 ^ 31) :
    submit cfg s p = .ok (afterSubmit cfg s p task) := by
  have hctx : task.queued.ctx = some (s.setTask p task.queued).ioc := hready.ctx
  have hsame : afterSubmit cfg (s.setTask p task.queued) p task.queued =
      afterSubmit cfg s p task := by
    unfold afterSubmit
    simp only [Sys.setTask, update_idem]
    exact rfl
  have hsend : ∀ write, write = decide (task.command = .writeCommand) →
      sendData cfg (s.setTask p task.queued) p task.queued write =
        .ok (afterSubmit cfg s p task) := by
    intro write hwrite
    rw [sendData_ok hctx hready.request hready.pos hready.le hpool h0 hlt rfl hwrite, hsame]
  unfold submit
  rw [if_neg hslot, Sys.task_some htask]
  simp only [ok_bind]
  split
  · next hc => exact hsend true (by simp [hc])
  · next hc => exact hsend false (by simp [hc])
  · next hc => exact absurd hc hready.command

theorem submit_full {cfg : Config} {s : Sys} {p : TaskPtr}
    (hslot : s.currentQueueDepth = cfg.maxQueueDepth) :
    submit cfg s p = .ok { s with pc := .again } := by
  unfold submit
  rw [if_pos hslot]

theorem submit_nomem {cfg : Config} {s : Sys} {p : TaskPtr} {task : Task}
    (htask : s.tasks p = some task) (hcommand : task.command ≠ .flushCommand)
    (hslot : s.currentQueueDepth ≠ cfg.maxQueueDepth)
    (hpool : s.dataBufList.length < segCount task.len) :
    submit cfg s p = .ok { s.setTask p task.queued with pc := .again } := by
  have hnone : ∀ write, sendData cfg (s.setTask p task.queued) p task.queued write =
      .ok { s.setTask p task.queued with pc := .again } := by
    intro write
    have halloc : allocBufFromPool (s.setTask p task.queued) p task.queued write = .ok none :=
      if_pos hpool
    unfold sendData
    rw [halloc]
  unfold submit
  rw [if_neg hslot, Sys.task_some htask]
  simp only [ok_bind]
  split
  · exact hnone true
  · exact hnone false
  · next hc => exact absurd hc hcommand

theorem flight_append (inflight : List Command) (cmd : Command) (rest : List TaskPtr) :
    flight (inflight ++ [cmd]) ++ rest = flight inflight ++ cmd.task :: rest := by
  simp [flight]

section
variable {cfg : Config} {pend : CtxPtr → List TaskPtr} {rest : List TaskPtr} {s : Sys} {p : TaskPtr}
  {task : Task}

theorem Core.head (h : Core cfg pend rest s) (ht : s.t = some p) : ∃ rest', rest = p :: rest' := by
  have hchain := h.rest_chain
  rw [ht] at hchain
  cases hchain with
  | cons _ => exact ⟨_, rfl⟩

theorem Core.head_apart (h : Core cfg pend (p :: rest) s) :
    (∀ c, ∀ p' ∈ pend c, p' ≠ p) ∧ ∀ cmd ∈ s.inflight, cmd.task ≠ p := by
  constructor
  · intro c p' hp' heq
    subst heq
    exact h.not_taken hp' (by simp)
  · intro cmd hcmd
    have hnd := List.nodup_append.mp h.nodup
    exact hnd.2.2 cmd.task (List.mem_map_of_mem hcmd) p List.mem_cons_self

theorem Core.touch {task' : Task} (h : Core cfg pend (p :: rest) s) (htask : s.tasks p = some task)
    (hnext : task'.next = task.next) (hready : Ready s.frame s.ioc p task')
    (hprim : task'.ref = task.ref ∧ task'.returnCode = task.returnCode) :
    Core cfg pend (p :: rest) (s.setTask p task') := by
  obtain ⟨hne, hflight⟩ := h.head_apart
  have hheld : heldSegs (update s.tasks p (some task')) s.inflight =
      heldSegs s.tasks s.inflight :=
    heldSegs_congr fun cmd hcmd => update_of_ne (hflight cmd hcmd) _ _
  refine { h with
    pending := ?_, waits := ?_, rest_chain := ?_, rest_ready := ?_, sent := ?_, nseg := ?_,
    pool := ?_, frame := ?_, fresh := ?_ }
  · intro c
    apply (h.pending c).congr _ rfl rfl rfl
    intro q _
    exact congrFun (nextOf_update htask hnext) q
  · intro c p' hp'
    obtain ⟨task1, htask1, hready1⟩ := h.waits c p' hp'
    refine ⟨task1, ?_, hready1⟩
    exact (update_of_ne (hne c p' hp') _ _).trans htask1
  · change Chain (nextOf (update s.tasks p (some task'))) s.t (p :: rest)
    rw [nextOf_update htask hnext]
    exact h.rest_chain
  · intro p' hp'
    by_cases heq : p' = p
    · subst heq
      exact ⟨task', update_self _ _ _, hready⟩
    · obtain ⟨task1, htask1, hready1⟩ := h.rest_ready p' hp'
      refine ⟨task1, ?_, hready1⟩
      exact (update_of_ne heq _ _).trans htask1
  · intro cmd hcmd
    obtain ⟨task1, htask1, hsent⟩ := h.sent cmd hcmd
    refine ⟨task1, ?_, hsent⟩
    exact (update_of_ne (hflight cmd hcmd) _ _).trans htask1
  · intro c
    change (s.ctxs c).totalNseg = if c = s.ioc then
      ((heldSegs (update s.tasks p (some task')) s.inflight).length : Int) else 0
    rw [hheld]
    exact h.nseg c
  · change (s.dataBufList ++ heldSegs (update s.tasks p (some task')) s.inflight).Perm _
    rw [hheld]
    exact h.pool
  · intro q hq
    obtain ⟨hstack, prim, hprim0, hp⟩ := h.frame q hq
    refine ⟨hstack, ?_⟩
    by_cases heq : q = p
    · subst heq
      rw [htask] at hprim0
      obtain rfl := Option.some.inj hprim0
      refine ⟨task', update_self _ _ _, hprim.1.trans hp.ref, hprim.2.trans hp.code, hp.alone, ?_⟩
      intro hnot
      exact absurd (by simp) hnot
    · refine ⟨prim, ?_, hp⟩
      exact (update_of_ne heq _ _).trans hprim0
  · intro n hn
    obtain ⟨hheap, hstack⟩ := h.fresh n hn
    exact ⟨update_unused htask hheap, update_unused htask hstack⟩

theorem Core.submit (h : Core cfg pend (p :: rest) s) (htask : s.tasks p = some task)
    (hslot : s.currentQueueDepth ≠ cfg.maxQueueDepth)
    (hpool : segCount task.len ≤ s.dataBufList.length) :
    Core cfg pend rest (afterSubmit cfg s p task) := by
  obtain ⟨task0, htask0, hready⟩ := h.rest_ready p List.mem_cons_self
  rw [htask] at htask0
  obtain rfl := Option.some.inj htask0
  obtain ⟨hne, hflight⟩ := h.head_apart
  have hlive : flight (s.inflight ++ [sentCommand cfg s p task]) ++ rest =
      flight s.inflight ++ p :: rest := flight_append _ _ _
  have htake : (s.dataBufList.take (segCount task.len)).length = segCount task.len := by
    rw [List.length_take, Nat.min_eq_left hpool]
  have hself : segsHeld (update s.tasks p (some (sentTask s task))) p =
      s.dataBufList.take (segCount task.len) := by
    rw [segsHeld_of (update_self _ _ _)]
    change (s.dataBufList.take (segCount task.len)).take (segCount task.len) = _
    rw [List.take_take, Nat.min_self]
  have hheld : heldSegs (update s.tasks p (some (sentTask s task)))
      (s.inflight ++ [sentCommand cfg s p task]) =
      heldSegs s.tasks s.inflight ++ s.dataBufList.take (segCount task.len) := by
    have hsame : heldSegs (update s.tasks p (some (sentTask s task))) s.inflight =
        heldSegs s.tasks s.inflight :=
      heldSegs_congr fun cmd hcmd => update_of_ne (hflight cmd hcmd) _ _
    unfold heldSegs at *
    rw [List.flatMap_append, hsame, List.flatMap_singleton]
    exact congrArg _ hself
  have hnextOf : nextOf (update s.tasks p (some (sentTask s task))) = nextOf s.tasks :=
    nextOf_update htask rfl
  refine ⟨?_, ?_, h.local_empty, ?_, ?_, ?_, ?_, ?_, ?_, ?_, ?_, ?_, ?_, ?_, h.taken, ?_, ?_⟩
  · intro c
    have hpend := h.pending c
    have hnext : ∀ q ∈ pend c, nextOf (update s.tasks p (some (sentTask s task))) q =
        nextOf s.tasks q := fun q _ => congrFun hnextOf q
    by_cases hc : c = s.ioc
    · subst hc
      change Pending _ (update s.ctxs s.ioc _ s.ioc) _
      rw [update_self]
      exact hpend.congr hnext rfl rfl rfl
    · change Pending _ (update s.ctxs s.ioc _ c) _
      rw [update_of_ne hc]
      exact hpend.congr hnext rfl rfl rfl
  · intro c p' hp'
    obtain ⟨task1, htask1, hready1⟩ := h.waits c p' hp'
    exact ⟨task1, (update_of_ne (hne c p' hp') _ _).trans htask1, hready1⟩
  · have hchain := h.rest_chain
    change Chain (nextOf (update s.tasks p (some (sentTask s task)))) task.next rest
    rw [hnextOf]
    generalize ht : s.t = t at hchain
    cases hchain with
    | cons hchain =>
      unfold nextOf at hchain ⊢
      rw [htask] at hchain
      exact hchain
  · intro p' hp'
    have hp : p' ≠ p := by
      intro heq
      subst heq
      exact (List.nodup_cons.mp (List.nodup_append.mp h.nodup).2.1).1 hp'
    obtain ⟨task1, htask1, hready1⟩ := h.rest_ready p' (List.mem_cons_of_mem p hp')
    exact ⟨task1, (update_of_ne hp _ _).trans htask1, hready1⟩
  · intro cmd hcmd
    rcases List.mem_append.mp hcmd with hcmd | hcmd
    · obtain ⟨task1, htask1, hsent⟩ := h.sent cmd hcmd
      exact ⟨task1, (update_of_ne (hflight cmd hcmd) _ _).trans htask1, hsent⟩
    · rw [List.mem_singleton.mp hcmd]
      exact ⟨sentTask s task, update_self _ _ _, hready.ctx, hready.pos, hready.le, hready.command,
        rfl, rfl, htake, hready.kind, hready.fills, rfl, rfl, rfl⟩
  · exact hlive ▸ h.nodup
  · intro c
    have hrun := h.running c
    rw [← hlive] at hrun
    by_cases hc : c = s.ioc
    · subst hc
      change (update s.ctxs s.ioc _ s.ioc).numRunning = _
      rw [update_self]
      exact hrun
    · change (update s.ctxs s.ioc _ c).numRunning = _
      rw [update_of_ne hc]
      exact hrun
  · intro c
    have hseg := h.nseg c
    change (update s.ctxs s.ioc _ c).totalNseg =
      if c = s.ioc then ((heldSegs (update s.tasks p (some (sentTask s task)))
        (s.inflight ++ [sentCommand cfg s p task])).length : Int) else 0
    rw [hheld]
    by_cases hc : c = s.ioc
    · subst hc
      rw [if_pos rfl] at hseg ⊢
      rw [update_self, List.length_append, htake]
      change (s.ctxs s.ioc).totalNseg + _ = _
      rw [hseg]
      exact (Int.natCast_add _ _).symm
    · rw [if_neg hc] at hseg ⊢
      rw [update_of_ne hc]
      exact hseg
  · change (s.dataBufList.drop (segCount task.len) ++
      heldSegs (update s.tasks p (some (sentTask s task)))
        (s.inflight ++ [sentCommand cfg s p task])).Perm _
    rw [hheld]
    refine List.Perm.trans ?_ h.pool
    refine (List.perm_append_comm_assoc _ _ _).trans ?_
    refine (List.perm_append_comm).trans ?_
    refine List.Perm.append_right _ ?_
    refine (List.perm_append_comm).trans ?_
    rw [List.take_append_drop]
  · change s.currentQueueDepth + 1 = (s.inflight ++ [sentCommand cfg s p task]).length
    rw [h.depth, List.length_append, List.length_singleton]
  · change (s.inflight ++ [sentCommand cfg s p task]).length ≤ _
    have hle := h.depth_le
    have hdepth := h.depth
    rw [List.length_append, List.length_singleton]
    omega
  · intro q hq
    obtain ⟨hstack, prim, hprim, hp⟩ := h.frame q hq
    refine ⟨hstack, ?_⟩
    change ∃ prim, update s.tasks p (some (sentTask s task)) q = some prim ∧
      Primary q (flight (s.inflight ++ [sentCommand cfg s p task]) ++ rest)
        (if flight (s.inflight ++ [sentCommand cfg s p task]) ++ rest = [] then 0 else 1) prim
    rw [hlive]
    by_cases heq : q = p
    · subst heq
      rw [htask] at hprim
      obtain rfl := Option.some.inj hprim
      refine ⟨_, update_self _ _ _, hp.ref, hp.code, hp.alone, ?_⟩
      intro hnot
      exact absurd (by simp) hnot
    · exact ⟨prim, (update_of_ne heq _ _).trans hprim, hp⟩
  · intro n hn
    obtain ⟨hheap, hstack⟩ := h.fresh n hn
    exact ⟨update_unused htask hheap, update_unused htask hstack⟩
  · intro hidle
    obtain ⟨_, hrest, _⟩ := h.idle hidle
    cases hrest
  · change (flight (s.inflight ++ [sentCommand cfg s p task]) ++ rest).length < _
    rw [hlive]
    exact h.small

end

end LockdepSpdk.Blk
