import LockdepSpdk.Blk.Books

/-!
# Turns of the polling loop

Every step of `_aio_handle` itself, as one of eight turns, and the transfers
that SPDK makes meanwhile.
-/

namespace LockdepSpdk.Blk

set_option autoImplicit false

open Function Linked Transition

/-- A step of the thread in `_aio_handle`, with what is left to submit before and after it. -/
inductive Turn (cfg : Config) (s : Sys) : List TaskPtr → Sys → List TaskPtr → Prop where
  | done : s.pc = .test → s.inflight = [] → Turn cfg s [] (returned s 0) []
  | more {rest : List TaskPtr} : s.pc = .test → flight s.inflight ++ rest ≠ [] →
      Turn cfg s rest { s with pc := .again } rest
  | poll {rest : List TaskPtr} : s.pc = .again → s.inflight ≠ [] →
      Turn cfg s rest { s with pc := .polling } rest
  | skip {rest : List TaskPtr} : s.pc = .again → s.inflight = [] →
      Turn cfg s rest { s with pc := .loop } rest
  | polled {rest : List TaskPtr} : s.pc = .polling → Turn cfg s rest { s with pc := .loop } rest
  | last : s.pc = .loop → Turn cfg s [] { s with pc := .test } []
  /-- `goto again`, with or without `t->queue` set. -/
  | wait {p : TaskPtr} {rest : List TaskPtr} {task task' : Task} : s.pc = .loop →
      s.tasks p = some task → task' = task ∨ task' = task.queued →
      s.inflight ≠ [] ∨ cfg.maxQueueDepth = 0 →
      Turn cfg s (p :: rest) { s.setTask p task' with pc := .again } (p :: rest)
  | send {p : TaskPtr} {rest : List TaskPtr} {task : Task} : s.pc = .loop →
      s.tasks p = some task → Ready s.frame s.ioc p task → s.inflight.length < cfg.maxQueueDepth →
      segCount task.len ≤ s.dataBufList.length →
      Turn cfg s (p :: rest) (afterSubmit cfg s p task) rest

section
variable {cfg : Config} {pend : CtxPtr → List TaskPtr} {rest rest' : List TaskPtr} {s s' : Sys}

theorem Core.pool_full (h : Core cfg pend rest s) (hin : s.inflight = []) :
    s.dataBufList.length = dataBufferDefaultNum := by
  have hlen := h.held_le
  rw [hin] at hlen
  exact hlen

theorem Core.submit_turn {p : TaskPtr} (h : Core cfg pend (p :: rest) s) (hpc : s.pc = .loop) :
    ∃ s' rest', Blk.submit cfg s p = .ok s' ∧ Turn cfg s (p :: rest) s' rest' := by
  obtain ⟨task, htask, hready⟩ := h.rest_ready p List.mem_cons_self
  have hself : s.setTask p task = s := by
    unfold Sys.setTask
    rw [← htask, update_eq_self]
  have hcount := segCount_le hready.le
  have hnum : dataBufferDefaultNum = 1024 := rfl
  have hdepth := h.depth
  have hle := h.depth_le
  by_cases hfull : s.currentQueueDepth = cfg.maxQueueDepth
  · refine ⟨_, p :: rest, submit_full hfull, ?_⟩
    have hwait : s.inflight ≠ [] ∨ cfg.maxQueueDepth = 0 := by
      by_cases hin : s.inflight = []
      · rw [hin, List.length_nil] at hdepth
        exact Or.inr (by omega)
      · exact Or.inl hin
    have hturn : Turn cfg s (p :: rest) { s.setTask p task with pc := .again } (p :: rest) :=
      .wait hpc htask (Or.inl rfl) hwait
    rwa [hself] at hturn
  · by_cases hpool : s.dataBufList.length < segCount task.len
    · refine ⟨_, p :: rest, submit_nomem htask hready.command hfull hpool, ?_⟩
      refine Turn.wait hpc htask (Or.inr rfl) (Or.inl ?_)
      intro hin
      have hall := h.pool_full hin
      omega
    · have hseg := h.nseg s.ioc
      have htotal := h.held_le
      rw [if_pos rfl] at hseg
      refine ⟨_, rest, submit_ok htask hready hfull (by omega) (by omega) (by omega), ?_⟩
      exact Turn.send hpc htask hready (by omega) (by omega)

/-- The thread never stands still in `_aio_handle`. -/
theorem Core.tick_turn (h : Core cfg pend rest s) (hpc : s.pc ≠ .idle) :
    ∃ s' rest', tick cfg s = .ok s' ∧ Turn cfg s rest s' rest' := by
  have hdepth := h.depth
  unfold tick
  split
  · next hidle => exact absurd hidle hpc
  · next htest =>
    have hrun := h.running s.ioc
    rw [if_pos rfl] at hrun
    by_cases hlive : flight s.inflight ++ rest = []
    · have hzero : (s.ctxs s.ioc).numRunning = 0 := by
        rw [hrun, hlive]
        exact rfl
      obtain ⟨hflight, hrest⟩ := List.append_eq_nil_iff.mp hlive
      have hin : s.inflight = [] := List.map_eq_nil_iff.mp hflight
      have hreturn : returnCall s = .ok (returned s 0) := by
        rcases Option.eq_none_or_eq_some s.frame with hframe | ⟨q, hframe⟩
        · exact returnCall_none hframe
        · obtain ⟨_, prim, hprim, hp⟩ := h.frame q hframe
          have hcode := hp.code
          rw [if_pos hlive] at hcode
          have hnot : q ∉ flight s.inflight ++ rest := by
            rw [hlive]
            exact List.not_mem_nil
          rw [← hcode]
          exact returnCall_some hframe hprim (hp.released hnot)
      rw [if_pos hzero, hreturn, hrest]
      exact ⟨_, _, rfl, Turn.done htest hin⟩
    · have hpos := List.length_pos_of_ne_nil hlive
      rw [if_neg (by omega)]
      exact ⟨_, _, rfl, Turn.more htest hlive⟩
  · next hagain =>
    by_cases hin : s.inflight = []
    · rw [hin, List.length_nil] at hdepth
      rw [if_pos hdepth]
      exact ⟨_, _, rfl, Turn.skip hagain hin⟩
    · have hpos := List.length_pos_of_ne_nil hin
      rw [if_neg (by omega)]
      exact ⟨_, _, rfl, Turn.poll hagain hin⟩
  · next hpolling => exact ⟨_, _, rfl, Turn.polled hpolling⟩
  · next hloop =>
    have hhead := h.rest_chain.head
    split
    · next hnone =>
      obtain rfl : rest = [] := List.head?_eq_none_iff.mp (hhead.symm.trans hnone)
      exact ⟨_, _, rfl, Turn.last hloop⟩
    · next p hp =>
      obtain ⟨rest', rfl⟩ := h.head hp
      exact h.submit_turn hloop

theorem Core.turn (h : Core cfg pend rest s) (ht : Turn cfg s rest s' rest') :
    Core cfg pend rest' s' := by
  cases ht with
  | done hpc hin =>
    have hlive : flight s.inflight ++ [] = [] := by
      rw [hin]
      exact rfl
    exact ((h.quiet hlive).returned 0 fun q hq => (h.frame q hq).1).core cfg rfl rfl
  | more hpc hne => exact h.setPc (by simp [hpc]) (by simp)
  | poll hpc hin => exact h.setPc (by simp [hpc]) (by simp)
  | skip hpc hin => exact h.setPc (by simp [hpc]) (by simp)
  | polled hpc => exact h.setPc (by simp [hpc]) (by simp)
  | last hpc => exact h.setPc (by simp [hpc]) (by simp)
  | @wait p rest task task' hpc htask htask' _ =>
    obtain ⟨task0, htask0, hready⟩ := h.rest_ready p List.mem_cons_self
    rw [htask] at htask0
    obtain rfl := Option.some.inj htask0
    have htouch : Core cfg pend (p :: rest) (s.setTask p task') := by
      rcases htask' with rfl | rfl
      · exact h.touch htask rfl hready ⟨rfl, rfl⟩
      · refine h.touch htask rfl ?_ ⟨rfl, rfl⟩
        exact ⟨hready.ctx, hready.pos, hready.le, hready.command, hready.request, hready.kind,
          hready.fills⟩
    exact htouch.setPc (by simp [hpc]) (by simp)
  | send hpc htask hready hslot hpool =>
    have hdepth := h.depth
    exact h.submit htask (by omega) hpool

theorem Books.turn (h : Books pend rest s) (hcore : Core cfg pend rest s)
    (ht : Turn cfg s rest s' rest') : Books pend rest' s' := by
  have hsilent : ∀ pc, Books pend rest { s with pc := pc } := fun pc =>
    h.silent rfl rfl rfl (Nat.le_refl _) (fun _ hp _ => hp) (fun _ => rfl) fun _ hp => hp
  cases ht with
  | done hpc hin =>
    refine h.silent rfl rfl rfl (Nat.le_refl _) ?_ (fun _ => rfl) fun _ hp => hp
    exact fun p hp _ => returned_dead hp
  | more hpc hne => exact hsilent _
  | poll hpc hin => exact hsilent _
  | skip hpc hin => exact hsilent _
  | polled hpc => exact hsilent _
  | last hpc => exact hsilent _
  | wait hpc htask htask' hwait =>
    refine h.silent rfl rfl rfl (Nat.le_refl _) ?_ (fun _ => rfl) fun _ hp => hp
    intro p' hp' _
    exact update_unused htask hp'
  | send hpc htask hready hslot hpool => exact h.submit htask

/-! Transfers. -/

theorem heldSegs_flight (tasks : TaskPtr → Option Task) (inflight : List Command) :
    heldSegs tasks inflight = (flight inflight).flatMap (segsHeld tasks) := by
  unfold heldSegs flight
  rw [List.flatMap_map]

theorem flight_set {inflight : List Command} {i : Nat} {cmd : Command}
    (hi : inflight[i]? = some cmd) :
    flight (inflight.set i { cmd with moved := true }) = flight inflight := by
  obtain ⟨hlt, hget⟩ := List.getElem?_eq_some_iff.mp hi
  have hlt' : i < (inflight.map Command.task).length := by rwa [List.length_map]
  have htask : cmd.task = (inflight.map Command.task)[i] := by rw [List.getElem_map, hget]
  unfold flight
  rw [List.map_set]
  change (inflight.map Command.task).set i cmd.task = _
  rw [htask]
  exact List.set_getElem_self hlt'

theorem Core.transfer {i : Nat} {cmd : Command} (h : Core cfg pend rest s)
    (hi : s.inflight[i]? = some cmd) :
    Core cfg pend rest
      (move cfg { s with inflight := s.inflight.set i { cmd with moved := true } } cmd) := by
  have hflight := flight_set hi
  have hheld : heldSegs s.tasks (s.inflight.set i { cmd with moved := true }) =
      heldSegs s.tasks s.inflight := by
    rw [heldSegs_flight, heldSegs_flight, hflight]
  have hlen : (s.inflight.set i { cmd with moved := true }).length = s.inflight.length :=
    List.length_set
  have hsame : ∀ disk dma, Core cfg pend rest { s with
      inflight := s.inflight.set i { cmd with moved := true }, disk := disk, dma := dma } := by
    intro disk dma
    refine { h with
      sent := ?_, nodup := ?_, running := ?_, nseg := ?_, pool := ?_, depth := ?_, depth_le := ?_,
      frame := ?_, idle := ?_, small := ?_ }
    · intro cmd' hcmd'
      rcases List.mem_or_eq_of_mem_set hcmd' with hmem | heq
      · exact h.sent cmd' hmem
      · obtain ⟨task, htask, hsent⟩ := h.sent cmd (List.mem_of_getElem? hi)
        subst heq
        exact ⟨task, htask, hsent.ctx, hsent.pos, hsent.le, hsent.command, hsent.queue, hsent.nseg,
          hsent.segs, hsent.kind, hsent.fills, hsent.write, hsent.extent, hsent.sgl⟩
    · exact hflight ▸ h.nodup
    · exact hflight ▸ h.running
    · exact hheld ▸ h.nseg
    · exact hheld ▸ h.pool
    · exact hlen ▸ h.depth
    · exact hlen ▸ h.depth_le
    · exact hflight ▸ h.frame
    · intro hidle
      obtain ⟨hin, hrest, hframe⟩ := h.idle hidle
      refine ⟨?_, hrest, hframe⟩
      change s.inflight.set i _ = []
      rw [hin]
      exact rfl
    · exact hflight ▸ h.small
  unfold move
  split
  · exact hsame _ _
  · exact hsame _ _

theorem Books.transfer {i : Nat} {cmd : Command} (h : Books pend rest s)
    (hi : s.inflight[i]? = some cmd) :
    Books pend rest
      (move cfg { s with inflight := s.inflight.set i { cmd with moved := true } } cmd) := by
  unfold move
  split
  · exact h.silent rfl (flight_set hi) rfl (Nat.le_refl _) (fun _ hp _ => hp) (fun _ => rfl)
      fun _ hp => hp
  · exact h.silent rfl (flight_set hi) rfl (Nat.le_refl _) (fun _ hp _ => hp) (fun _ => rfl)
      fun _ hp => hp

end

end LockdepSpdk.Blk
