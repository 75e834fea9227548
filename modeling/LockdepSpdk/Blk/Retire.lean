import LockdepSpdk.Blk.Complete

/-!
# The invariant through a completion

What the branches of `io_complete` leave behind is again a state of the
invariant, with the completed task gone from the commands in flight.
-/

namespace LockdepSpdk.Blk

set_option autoImplicit false

open Function Linked Transition

def retireTasks (s : Sys) (p : TaskPtr) (task : Task) : TaskPtr → Option Task :=
  match s.frame with
  | none => update s.tasks p none
  | some q =>
    if p = q then update s.tasks p (some { task.released with returnCode := 0 })
    else update (update s.tasks q ((s.tasks q).map Task.dropSub)) p none

/-- A write calls back before it releases its segments, a read afterwards. -/
def retireEvents (s : Sys) (p : TaskPtr) (task : Task) : List Event :=
  match s.frame with
  | none =>
    let ctx := { s.ctxs s.ioc with numRunning := (s.ctxs s.ioc).numRunning - 1 }
    if task.command = .writeCommand then .delete p :: callbacks s.ioc ctx s.dataBufList
    else .delete p :: callbacks s.ioc
      { ctx with totalNseg := (s.ctxs s.ioc).totalNseg - task.ioRequest.nseg }
      ((task.ioRequest.segs.take task.ioRequest.nseg).reverse ++ s.dataBufList)
  | some q => if p = q then [] else [.delete p]

section
variable {s : Sys} {p q : TaskPtr} {task : Task}

theorem retireTasks_none (hframe : s.frame = none) :
    retireTasks s p task = update s.tasks p none := by
  unfold retireTasks
  simp only [hframe]

theorem retireTasks_self (hframe : s.frame = some p) :
    retireTasks s p task = update s.tasks p (some { task.released with returnCode := 0 }) := by
  unfold retireTasks
  simp only [hframe, if_true]

theorem retireTasks_sub (hframe : s.frame = some q) (hne : p ≠ q) :
    retireTasks s p task = update (update s.tasks q ((s.tasks q).map Task.dropSub)) p none := by
  unfold retireTasks
  simp only [hframe, if_neg hne]

theorem retireTasks_of_ne {p' : TaskPtr} (hne : p' ≠ p) (hframe : s.frame ≠ some p') :
    retireTasks s p task p' = s.tasks p' := by
  rcases Option.eq_none_or_eq_some s.frame with hq | ⟨q, hq⟩
  · rw [retireTasks_none hq, update_of_ne hne]
  · by_cases heq : p = q
    · subst heq
      rw [retireTasks_self hq, update_of_ne hne]
    · have hne' : p' ≠ q := by
        intro heq'
        exact hframe (heq' ▸ hq)
      rw [retireTasks_sub hq heq, update_of_ne hne, update_of_ne hne']

theorem retireEvents_write (hframe : s.frame = none) (hcommand : task.command = .writeCommand) :
    retireEvents s p task = .delete p :: callbacks s.ioc
      { s.ctxs s.ioc with numRunning := (s.ctxs s.ioc).numRunning - 1 } s.dataBufList := by
  unfold retireEvents
  simp only [hframe, if_pos hcommand]

theorem retireEvents_read (hframe : s.frame = none) (hcommand : task.command ≠ .writeCommand) :
    retireEvents s p task = .delete p :: callbacks s.ioc { s.ctxs s.ioc with
      numRunning := (s.ctxs s.ioc).numRunning - 1
      totalNseg := (s.ctxs s.ioc).totalNseg - task.ioRequest.nseg }
      ((task.ioRequest.segs.take task.ioRequest.nseg).reverse ++ s.dataBufList) := by
  unfold retireEvents
  simp only [hframe, if_neg hcommand]

theorem retireEvents_sync (hframe : s.frame = some q) :
    retireEvents s p task = if p = q then [] else [.delete p] := by
  unfold retireEvents
  simp only [hframe]

end

section
variable {cfg : Config} {pend : CtxPtr → List TaskPtr} {rest : List TaskPtr} {s : Sys} {i : Nat}
  {cmd : Command} {task : Task}

theorem inflight_perm (hi : s.inflight[i]? = some cmd) :
    s.inflight.Perm (cmd :: s.inflight.eraseIdx i) := by
  obtain ⟨hlt, hget⟩ := List.getElem?_eq_some_iff.mp hi
  rw [← hget]
  exact (List.getElem_cons_eraseIdx_perm hlt).symm

theorem live_perm (rest : List TaskPtr) (hi : s.inflight[i]? = some cmd) :
    (flight s.inflight ++ rest).Perm (cmd.task :: (flight (s.inflight.eraseIdx i) ++ rest)) := by
  have hmap := (inflight_perm hi).map Command.task
  exact hmap.append_right rest

theorem held_perm (tasks : TaskPtr → Option Task) (hi : s.inflight[i]? = some cmd) :
    (heldSegs tasks s.inflight).Perm
      (segsHeld tasks cmd.task ++ heldSegs tasks (s.inflight.eraseIdx i)) :=
  (inflight_perm hi).flatMap_right _

theorem Sent.held {frame : Option TaskPtr} {c : CtxPtr} (hsent : Sent cfg frame c cmd task)
    (htask : s.tasks cmd.task = some task) :
    segsHeld s.tasks cmd.task = task.ioRequest.segs.take task.ioRequest.nseg ∧
      (segsHeld s.tasks cmd.task).length = task.ioRequest.nseg := by
  have hheld := segsHeld_of htask
  refine ⟨hheld, ?_⟩
  rw [hheld, List.length_take, hsent.segs, hsent.nseg, Nat.min_self]

theorem Core.charged (h : Core cfg pend rest s) (hi : s.inflight[i]? = some cmd)
    (htask : s.tasks cmd.task = some task) (hsent : Sent cfg s.frame s.ioc cmd task) :
    Charged (s.ctxs s.ioc) task := by
  have hrun := h.running s.ioc
  have hseg := h.nseg s.ioc
  have hlive := (live_perm rest hi).length_eq
  have hheld := (held_perm s.tasks hi).length_eq
  have htotal := h.held_le
  have hsmall := h.small
  have hnum : dataBufferDefaultNum = 1024 := rfl
  rw [if_pos rfl] at hrun hseg
  rw [List.length_cons] at hlive
  rw [List.length_append, (hsent.held htask).2] at hheld
  exact ⟨by omega, by omega, by omega, by omega⟩

theorem Core.not_live (h : Core cfg pend rest s) (hi : s.inflight[i]? = some cmd) :
    cmd.task ∉ flight (s.inflight.eraseIdx i) ++ rest :=
  (List.nodup_cons.mp ((live_perm rest hi).nodup_iff.mp h.nodup)).1

theorem Core.frame_left (h : Core cfg pend rest s) (hi : s.inflight[i]? = some cmd) (q : TaskPtr)
    (hq : s.frame = some q) : q ∉ flight (s.inflight.eraseIdx i) ++ rest := by
  intro hmem
  have hlive := live_perm rest hi
  obtain ⟨_, prim, _, hprim⟩ := h.frame q hq
  have halone := hprim.alone (hlive.mem_iff.mpr (List.mem_cons_of_mem _ hmem))
  rw [halone] at hlive
  have hlen := hlive.length_eq
  have hpos := List.length_pos_of_mem hmem
  simp only [List.length_cons, List.length_nil] at hlen
  omega

theorem Core.retire_other (h : Core cfg pend rest s) (hi : s.inflight[i]? = some cmd) (task : Task)
    {p : TaskPtr} (hp : p ∈ flight (s.inflight.eraseIdx i) ++ rest) :
    retireTasks s cmd.task task p = s.tasks p := by
  apply retireTasks_of_ne
  · intro heq
    exact h.not_live hi (heq ▸ hp)
  · intro hq
    exact h.frame_left hi p hq hp

theorem Core.complete (h : Core cfg pend rest s) (hpc : s.pc ≠ .idle)
    (hi : s.inflight[i]? = some cmd) (htask : s.tasks cmd.task = some task)
    (hsent : Sent cfg s.frame s.ioc cmd task) {tasks : TaskPtr → Option Task} (mem : Nat → UInt8)
    (events : List Event)
    (hothers : ∀ p, p ≠ cmd.task → s.frame ≠ some p → tasks p = s.tasks p)
    (hframe : ∀ q, s.frame = some q → ∃ prim, tasks q = some prim ∧
      Primary q (flight (s.inflight.eraseIdx i) ++ rest)
        (if flight (s.inflight.eraseIdx i) ++ rest = [] then 0 else 1) prim) :
    Core cfg pend rest (completed { s with inflight := s.inflight.eraseIdx i } cmd.task task tasks
      mem events) := by
  have hlive := live_perm rest hi
  have hgone := h.not_live hi
  have hwhole := h.frame_left hi
  have hkeep : ∀ p ∈ flight (s.inflight.eraseIdx i) ++ rest, tasks p = s.tasks p := by
    intro p hp
    apply hothers
    · intro heq
      exact hgone (heq ▸ hp)
    · intro hq
      exact hwhole p hq hp
  have hwait : ∀ c, ∀ p ∈ pend c, tasks p = s.tasks p := by
    intro c p hp
    apply hothers
    · intro heq
      apply h.not_taken hp
      rw [heq]
      exact hlive.mem_iff.mpr List.mem_cons_self
    · intro hq
      exact h.frame_not_pend hq c hp
  have hsegs := hsent.held htask
  have hheld : heldSegs tasks (s.inflight.eraseIdx i) =
      heldSegs s.tasks (s.inflight.eraseIdx i) := by
    apply heldSegs_congr
    intro cmd' hcmd'
    exact hkeep _ (List.mem_append_left _ (List.mem_map_of_mem hcmd'))
  have hperm := held_perm s.tasks hi
  refine ⟨?_, ?_, h.local_empty, ?_, ?_, ?_, ?_, ?_, ?_, ?_, ?_, ?_, ?_, ?_, h.taken, ?_, ?_⟩
  · intro c
    have hnext : ∀ q ∈ pend c, nextOf tasks q = nextOf s.tasks q := fun q hq =>
      nextOf_congr (hwait c q hq)
    change Pending tasks (update s.ctxs s.ioc _ c) _
    by_cases hc : c = s.ioc
    · subst hc
      rw [update_self]
      exact (h.pending _).congr hnext rfl rfl rfl
    · rw [update_of_ne hc]
      exact (h.pending c).congr hnext rfl rfl rfl
  · intro c p hp
    obtain ⟨task1, htask1, hready⟩ := h.waits c p hp
    exact ⟨task1, (hwait c p hp).trans htask1, hready⟩
  · apply h.rest_chain.congr
    intro q hq
    exact nextOf_congr (hkeep q (List.mem_append_right _ hq))
  · intro p hp
    obtain ⟨task1, htask1, hready⟩ := h.rest_ready p hp
    exact ⟨task1, (hkeep p (List.mem_append_right _ hp)).trans htask1, hready⟩
  · intro cmd' hcmd'
    obtain ⟨task1, htask1, hsent1⟩ := h.sent cmd' (List.mem_of_mem_eraseIdx hcmd')
    refine ⟨task1, ?_, hsent1⟩
    exact (hkeep _ (List.mem_append_left _ (List.mem_map_of_mem hcmd'))).trans htask1
  · exact (List.nodup_cons.mp (hlive.nodup_iff.mp h.nodup)).2
  · intro c
    have hrun := h.running c
    rw [hlive.length_eq, List.length_cons] at hrun
    change (update s.ctxs s.ioc _ c).numRunning = if c = s.ioc then
      ((flight (s.inflight.eraseIdx i) ++ rest).length : Int) else 0
    by_cases hc : c = s.ioc
    · subst hc
      rw [if_pos rfl] at hrun ⊢
      rw [update_self]
      change (s.ctxs s.ioc).numRunning - 1 = _
      omega
    · rw [if_neg hc] at hrun ⊢
      rw [update_of_ne hc]
      exact hrun
  · intro c
    have hseg := h.nseg c
    rw [hperm.length_eq, List.length_append, hsegs.2] at hseg
    change (update s.ctxs s.ioc _ c).totalNseg = if c = s.ioc then
      ((heldSegs tasks (s.inflight.eraseIdx i)).length : Int) else 0
    rw [hheld]
    by_cases hc : c = s.ioc
    · subst hc
      rw [if_pos rfl] at hseg ⊢
      rw [update_self]
      change (s.ctxs s.ioc).totalNseg - task.ioRequest.nseg = _
      omega
    · rw [if_neg hc] at hseg ⊢
      rw [update_of_ne hc]
      exact hseg
  · change ((task.ioRequest.segs.take task.ioRequest.nseg).reverse ++ s.dataBufList ++
      heldSegs tasks (s.inflight.eraseIdx i)).Perm _
    rw [hheld, ← hsegs.1, List.append_assoc]
    refine List.Perm.trans ?_ h.pool
    refine List.Perm.trans ?_ (hperm.symm.append_left s.dataBufList)
    refine List.Perm.trans ?_ (List.perm_append_comm_assoc _ _ _)
    exact (List.reverse_perm _).append_right _
  · change s.currentQueueDepth - 1 = (s.inflight.eraseIdx i).length
    have hlen := (inflight_perm hi).length_eq
    rw [List.length_cons] at hlen
    have hdepth := h.depth
    omega
  · have hlen := (inflight_perm hi).length_eq
    rw [List.length_cons] at hlen
    have hle := h.depth_le
    change (s.inflight.eraseIdx i).length ≤ cfg.maxQueueDepth
    omega
  · intro q hq
    exact ⟨(h.frame q hq).1, hframe q hq⟩
  · intro n hn
    have hnone := h.fresh n hn
    have hfresh : ∀ p, s.tasks p = none → tasks p = s.tasks p := by
      intro p hp
      apply hothers
      · intro heq
        rw [heq, htask] at hp
        cases hp
      · intro hq
        obtain ⟨_, prim, hprim, _⟩ := h.frame p hq
        rw [hp] at hprim
        cases hprim
    exact ⟨(hfresh _ hnone.1).trans hnone.1, (hfresh _ hnone.2).trans hnone.2⟩
  · intro hidle
    exact absurd hidle hpc
  · have hsmall := h.small
    rw [hlive.length_eq, List.length_cons] at hsmall
    change (flight (s.inflight.eraseIdx i) ++ rest).length < 2 ^ 31
    omega

theorem Kind.plain {p : TaskPtr} (h : Kind s.frame p task) (hframe : s.frame = none) :
    task.primary = none ∧ task.returnCode = 0 ∧ ∃ n, p = .heap n := by
  rwa [hframe] at h

theorem Kind.sync {p q : TaskPtr} (h : Kind s.frame p task) (hframe : s.frame = some q) :
    task.command = .readCommand ∧ task.returnCode = 1 ∧
      ((p = q ∧ task.primary = none) ∨ (p ≠ q ∧ task.primary = some q ∧ ∃ n, p = .heap n)) := by
  rwa [hframe] at h

theorem Core.primary_ref (h : Core cfg pend rest s) (hi : s.inflight[i]? = some cmd)
    {q : TaskPtr} (hq : s.frame = some q) (hne : cmd.task ≠ q) :
    ∃ prim, s.tasks q = some prim ∧ prim.returnCode = 1 ∧ q ∉ flight s.inflight ++ rest ∧
      prim.ref = (flight (s.inflight.eraseIdx i) ++ rest).length + 1 ∧
      prim.ioRequest.nseg = 0 := by
  obtain ⟨_, prim, hprim, hp⟩ := h.frame q hq
  have hlive := live_perm rest hi
  have hmem : cmd.task ∈ flight s.inflight ++ rest := hlive.mem_iff.mpr List.mem_cons_self
  have hnot : q ∉ flight s.inflight ++ rest := by
    intro hlive'
    rw [hp.alone hlive'] at hmem
    exact hne (List.mem_singleton.mp hmem)
  have hall : (flight s.inflight ++ rest).filter (· ≠ q) = flight s.inflight ++ rest := by
    apply List.filter_eq_self.mpr
    intro p hp'
    apply decide_eq_true
    intro heq
    exact hnot (heq ▸ hp')
  have href := hp.ref
  rw [hall, hlive.length_eq, List.length_cons] at href
  have hcode := hp.code
  rw [if_neg (List.ne_nil_of_mem hmem)] at hcode
  exact ⟨prim, hprim, hcode, hnot, href, hp.released hnot⟩

/-- What `io_complete` does with a task in flight, on every branch. -/
theorem Core.ioComplete_eq (h : Core cfg pend rest s) (hi : s.inflight[i]? = some cmd)
    (htask : s.tasks cmd.task = some task) (hsent : Sent cfg s.frame s.ioc cmd task) :
    ioComplete { s with inflight := s.inflight.eraseIdx i } cmd.task = (do
      let mem ← fillMem s task
      .ok (completed { s with inflight := s.inflight.eraseIdx i } cmd.task task
        (retireTasks s cmd.task task) mem (retireEvents s cmd.task task))) := by
  have hcharged := h.charged hi htask hsent
  have hread : ∀ mem, task.command = .readCommand → fillMem s task = .ok mem →
      ioComplete { s with inflight := s.inflight.eraseIdx i } cmd.task =
        .ok (completed { s with inflight := s.inflight.eraseIdx i } cmd.task task
          (retireTasks s cmd.task task) mem (retireEvents s cmd.task task)) := by
    intro mem hcommand hfill
    have hnot : task.command ≠ .writeCommand := by simp [hcommand]
    rcases Option.eq_none_or_eq_some s.frame with hframe | ⟨q, hframe⟩
    · obtain ⟨hprimary, hcode, hp⟩ := hsent.kind.plain hframe
      rw [retireTasks_none hframe, retireEvents_read hframe hnot]
      exact ioComplete_aioRead (s := { s with inflight := s.inflight.eraseIdx i }) htask hsent.ctx
        hsent.queue hcommand hp hprimary hcode hfill hcharged
    · obtain ⟨_, hcode, hkind⟩ := hsent.kind.sync hframe
      rcases hkind with ⟨heq, hprimary⟩ | ⟨hne, hprimary, hp⟩
      · subst heq
        rw [retireTasks_self hframe, retireEvents_sync hframe, if_pos rfl]
        exact ioComplete_single (s := { s with inflight := s.inflight.eraseIdx i }) htask hsent.ctx
          hsent.queue hcommand hprimary (by omega) hfill hcharged
      · obtain ⟨prim, hprim, _, _, href, _⟩ := h.primary_ref hi hframe hne
        have hsmall := h.small
        rw [(live_perm rest hi).length_eq, List.length_cons] at hsmall
        rw [retireTasks_sub hframe hne, hprim, retireEvents_sync hframe, if_neg hne]
        exact ioComplete_sub (s := { s with inflight := s.inflight.eraseIdx i }) htask hsent.ctx
          hsent.queue hcommand hp hprimary hne (by omega) hprim (by omega) (by omega) hfill hcharged
  cases hcommand : task.command with
  | readCommand =>
    cases hfill : fillMem s task with
    | error e => exact ioComplete_overrun htask hsent.ctx hsent.queue hcommand hfill
    | ok mem => exact hread mem hcommand hfill
  | writeCommand =>
    have hfill : fillMem s task = .ok s.mem := by
      unfold fillMem
      rw [hcommand]
    rcases Option.eq_none_or_eq_some s.frame with hframe | ⟨q, hframe⟩
    · obtain ⟨hprimary, _, hp⟩ := hsent.kind.plain hframe
      rw [hfill, ok_bind, retireTasks_none hframe, retireEvents_write hframe hcommand]
      exact ioComplete_write (s := { s with inflight := s.inflight.eraseIdx i }) htask hsent.ctx
        hsent.queue hcommand hp hprimary hcharged
    · have hread' := (hsent.kind.sync hframe).1
      rw [hcommand] at hread'
      cases hread'
  | flushCommand => exact absurd hcommand hsent.command

theorem Core.retire (h : Core cfg pend rest s) (hpc : s.pc ≠ .idle)
    (hi : s.inflight[i]? = some cmd) (htask : s.tasks cmd.task = some task)
    (hsent : Sent cfg s.frame s.ioc cmd task) (mem : Nat → UInt8) :
    Core cfg pend rest (completed { s with inflight := s.inflight.eraseIdx i } cmd.task task
      (retireTasks s cmd.task task) mem (retireEvents s cmd.task task)) := by
  apply h.complete hpc hi htask hsent
  · intro p hne hq
    exact retireTasks_of_ne hne hq
  · intro q hq
    by_cases heq : cmd.task = q
    · -- the frame was the only task
      subst heq
      rw [retireTasks_self hq]
      obtain ⟨_, prim, hprim, hp⟩ := h.frame _ hq
      have hlive := live_perm rest hi
      have hmem : cmd.task ∈ flight s.inflight ++ rest := hlive.mem_iff.mpr List.mem_cons_self
      have halone := hp.alone hmem
      have hnil : flight (s.inflight.eraseIdx i) ++ rest = [] := by
        have hlen := hlive.length_eq
        rw [halone] at hlen
        simp only [List.length_cons, List.length_nil] at hlen
        exact List.length_eq_zero_iff.mp (by omega)
      have href := hp.ref
      rw [hprim] at htask
      obtain rfl := Option.some.inj htask
      rw [hnil, if_pos rfl]
      refine ⟨_, update_self _ _ _, ?_, rfl, ?_, fun _ => rfl⟩
      · rw [halone] at href
        change prim.ref = 0
        simpa using href
      · intro hmem'
        cases hmem'
    · rw [retireTasks_sub hq heq]
      obtain ⟨prim, hprim, hcode, hnot, href, hnseg⟩ := h.primary_ref hi hq heq
      have hlive := live_perm rest hi
      have hnot' : q ∉ flight (s.inflight.eraseIdx i) ++ rest := by
        intro hmem
        exact hnot (hlive.mem_iff.mpr (List.mem_cons_of_mem _ hmem))
      refine ⟨prim.dropSub, ?_, ?_, ?_, fun hmem => absurd hmem hnot', fun _ => hnseg⟩
      · rw [update_of_ne (Ne.symm heq), update_self, hprim]
        exact rfl
      · have hall : (flight (s.inflight.eraseIdx i) ++ rest).filter (· ≠ q) =
            flight (s.inflight.eraseIdx i) ++ rest := by
          apply List.filter_eq_self.mpr
          intro p hp'
          apply decide_eq_true
          intro heq'
          exact hnot' (heq' ▸ hp')
        rw [hall]
        change prim.ref - 1 = _
        omega
      · change (if prim.ref - 1 = 0 then 0 else prim.returnCode) = _
        rw [hcode]
        by_cases hnil : flight (s.inflight.eraseIdx i) ++ rest = []
        · rw [hnil, List.length_nil] at href
          rw [if_pos hnil, if_pos (by omega)]
        · have hpos := List.length_pos_of_ne_nil hnil
          rw [if_neg hnil, if_neg (by omega)]

end

end LockdepSpdk.Blk
