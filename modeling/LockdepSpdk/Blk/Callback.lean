import LockdepSpdk.Blk.Accounting

/-!
# What a callback finds

`io_complete` says that the callback may destroy the context. A read gives its
segments back before it calls back, a write afterwards: the callback finds the
context released when the last completion of its batch is that of a read, and
only then.
-/

namespace LockdepSpdk.Blk

set_option autoImplicit false

open Function Transition

/-- Of `c`, the callback of this step finds nothing running and nothing held, and the step leaves
the context as the callback found it. -/
def Clean (s s' : Sys) : Prop :=
  ∀ c ctx pool, calls c s'.log = (ctx, pool) :: calls c s.log →
    ctx.numRunning = 0 ∧ ctx.totalNseg = 0 ∧ pool.Perm (List.range dataBufferDefaultNum) ∧
      s'.ctxs c = ctx

/-- The completion is that of a write, the last task of a context with `priv`. -/
def WriteLast (s : Sys) : Label → Prop
  | .complete i => ∃ cmd ∈ s.inflight[i]?, cmd.write = true ∧
      (s.ctxs s.ioc).priv ≠ none ∧ (s.ctxs s.ioc).numRunning = 1
  | _ => False

instance (s : Sys) : (l : Label) → Decidable (WriteLast s l)
  | .complete i => inferInstanceAs (Decidable (∃ cmd ∈ s.inflight[i]?, cmd.write = true ∧
      (s.ctxs s.ioc).priv ≠ none ∧ (s.ctxs s.ioc).numRunning = 1))
  | .call _ => inferInstanceAs (Decidable False)
  | .store _ _ => inferInstanceAs (Decidable False)
  | .tick => inferInstanceAs (Decidable False)
  | .transfer _ => inferInstanceAs (Decidable False)

/-! Only `io_complete` calls back. -/

def Silent (s s' : Sys) : Prop := ∀ c, calls c s'.log = calls c s.log

section
variable {s s' : Sys} {c : CtxPtr} {p : TaskPtr}

theorem Silent.clean (h : Silent s s') : Clean s s' := by
  intro c ctx pool hcall
  rw [h c] at hcall
  have hlen := congrArg List.length hcall
  rw [List.length_cons] at hlen
  omega

theorem Silent.of_log (h : s'.log = s.log) : Silent s s' := by
  intro c
  rw [h]

theorem Silent.trans {s1 : Sys} (h : Silent s s1) (h' : Silent s1 s') : Silent s s' :=
  fun c => (h' c).trans (h c)

theorem newTask_silent {command : IOCommand} {off len : Nat} {primary : Option TaskPtr}
    (h : newTask s command off len primary = .ok (p, s')) : Silent s s' := by
  apply Silent.of_log
  unfold newTask at h
  cases primary with
  | none =>
    obtain ⟨_, rfl⟩ := ok_mk_inj h
    exact rfl
  | some q =>
    obtain ⟨prim, _, hnew⟩ := bind_ok h
    obtain ⟨_, rfl⟩ := ok_mk_inj hnew
    exact rfl

theorem iocAppendTask_silent (h : iocAppendTask s c p = .ok s') : Silent s s' := by
  obtain ⟨s1, hlink, happ⟩ := bind_ok h
  obtain rfl := Except.ok.inj happ
  have hlog : s1.log = s.log := by
    unfold linkLast at hlink
    split at hlink
    · obtain rfl := Except.ok.inj hlink
      exact rfl
    · obtain ⟨task, _, hset⟩ := bind_ok hlink
      obtain rfl := Except.ok.inj hset
      exact rfl
  intro d
  change calls d (.append c p :: s1.log) = _
  rw [hlog]
  exact rfl

theorem addWriteChunk_silent {ch : WriteChunk} (h : addWriteChunk c s ch = .ok s') :
    Silent s s' := by
  obtain ⟨⟨t, s1⟩, hnew, hrest⟩ := bind_ok h
  obtain ⟨task, _, happ⟩ := bind_ok hrest
  have htouch : Silent s1 (s1.setTask t { task with buf := ch.buf, ctx := some c }) :=
    Silent.of_log rfl
  exact ((newTask_silent hnew).trans htouch).trans (iocAppendTask_silent happ)

theorem addReadChunk_silent {alignedLen : Nat} {primary : Option TaskPtr} {ch : ReadChunk}
    (h : addReadChunk c alignedLen primary s ch = .ok s') : Silent s s' := by
  obtain ⟨⟨t, s1⟩, hnew, hrest⟩ := bind_ok h
  obtain ⟨task, _, happ⟩ := bind_ok hrest
  have hchunk : Silent s s1 := by
    unfold chunkTask at hnew
    split at hnew
    · split at hnew
      · obtain ⟨_, rfl⟩ := ok_mk_inj hnew
        exact Silent.of_log rfl
      · exact newTask_silent hnew
    · exact newTask_silent hnew
  have htouch : Silent s1 (s1.setTask t { task with ctx := some c, fillCb := some ch.fill }) :=
    Silent.of_log rfl
  exact (hchunk.trans htouch).trans (iocAppendTask_silent happ)

theorem writeSplit_silent {off len buf : Nat} (h : writeSplit s off len buf c = .ok s') :
    Silent s s' :=
  foldlM_invariant (I := Silent s) (fun _ _ _ hs hadd => hs.trans (addWriteChunk_silent hadd)) h
    (Silent.of_log rfl)

theorem makeReadTasks_silent {alignedOff buf alignedLen origOff origLen : Nat}
    {primary : Option TaskPtr}
    (h : makeReadTasks s alignedOff c buf alignedLen primary origOff origLen = .ok s') :
    Silent s s' := by
  unfold makeReadTasks at h
  split at h
  · cases h
  · exact foldlM_invariant (I := Silent s)
      (fun _ _ _ hs hadd => hs.trans (addReadChunk_silent hadd)) h (Silent.of_log rfl)

theorem returnCall_silent (h : returnCall s = .ok s') : Silent s s' := by
  apply Silent.of_log
  unfold returnCall at h
  split at h
  · obtain rfl := Except.ok.inj h
    exact rfl
  · obtain ⟨task, _, hret⟩ := bind_ok h
    split at hret
    · cases hret
    · obtain rfl := Except.ok.inj hret
      exact rfl

theorem aioSubmit_silent (h : aioSubmit s c = .ok s') : Silent s s' := by
  unfold aioSubmit at h
  simp only at h
  split at h
  · split at h
    · cases h
    · obtain rfl := Except.ok.inj h
      exact fun _ => rfl
  · exact returnCall_silent h

theorem readSync_silent {off len buf origOff origLen : Nat}
    (h : readSync s off len buf origOff origLen = .ok s') : Silent s s' := by
  obtain ⟨s3, hmake, hsubmit⟩ := bind_ok h
  have hopen : Silent s (opened s off len) := Silent.of_log rfl
  exact (hopen.trans (makeReadTasks_silent hmake)).trans (aioSubmit_silent hsubmit)

theorem Call.exec_silent {cfg : Config} {call : Call} (h : call.exec cfg s = .ok s') :
    Silent s s' := by
  cases call with
  | read off len buf =>
    change Blk.read cfg s off len buf = .ok s' at h
    unfold Blk.read at h
    split at h
    · exact readSync_silent h
    · cases h
  | readRandom off len buf =>
    change Blk.readRandom cfg s off len buf = .ok s' at h
    unfold Blk.readRandom at h
    split at h
    · exact readSync_silent h
    · cases h
  | write off len buf =>
    change Blk.write cfg s off len buf = .ok s' at h
    unfold Blk.write at h
    split at h
    · obtain ⟨s2, hsplit, hsubmit⟩ := bind_ok h
      have hopen : Silent s (openContext s).2 := Silent.of_log rfl
      exact (hopen.trans (writeSplit_silent hsplit)).trans (aioSubmit_silent hsubmit)
    · cases h
  | aioRead off len buf n =>
    change Blk.aioRead cfg s off len buf (.user n) = .ok s' at h
    unfold Blk.aioRead at h
    split at h
    · obtain ⟨s1, hmake, hret⟩ := bind_ok h
      obtain rfl := Except.ok.inj hret
      have hsilent := makeReadTasks_silent hmake
      exact hsilent
    · cases h
  | aioWrite off len buf n =>
    change Blk.aioWrite cfg s off len buf (.user n) = .ok s' at h
    unfold Blk.aioWrite at h
    split at h
    · obtain ⟨s1, hsplit, hret⟩ := bind_ok h
      obtain rfl := Except.ok.inj hret
      have hsilent := writeSplit_silent hsplit
      exact hsilent
    · cases h
  | aioSubmit n => exact aioSubmit_silent h

theorem Turn.silent {cfg : Config} {rest rest' : List TaskPtr} (h : Turn cfg s rest s' rest') :
    Silent s s' := by
  cases h with
  | done hpc hin => exact fun _ => rfl
  | more hpc hne => exact fun _ => rfl
  | poll hpc hin => exact fun _ => rfl
  | skip hpc hin => exact fun _ => rfl
  | polled hpc => exact fun _ => rfl
  | last hpc => exact fun _ => rfl
  | wait hpc htask htask' hwait => exact fun _ => rfl
  | send hpc htask hready hslot hpool => exact fun _ => rfl

end

/-! A completion. -/

section
variable {cfg : Config} {pend : CtxPtr → List TaskPtr} {rest : List TaskPtr} {s : Sys} {i : Nat}
  {cmd : Command} {task : Task}

/-- What the callback of a completion finds. -/
def found (s : Sys) (task : Task) : IOContext × List Nat :=
  if task.command = .writeCommand then
    ({ s.ctxs s.ioc with numRunning := (s.ctxs s.ioc).numRunning - 1 }, s.dataBufList)
  else
    ({ s.ctxs s.ioc with
      numRunning := (s.ctxs s.ioc).numRunning - 1
      totalNseg := (s.ctxs s.ioc).totalNseg - task.ioRequest.nseg },
    (task.ioRequest.segs.take task.ioRequest.nseg).reverse ++ s.dataBufList)

theorem retireEvents_callback (p : TaskPtr) (hframe : s.frame = none)
    (hpriv : (s.ctxs s.ioc).priv ≠ none) (hrun : (s.ctxs s.ioc).numRunning = 1) :
    retireEvents s p task =
      [.delete p, .callback s.ioc (found s task).1 (found s task).2] := by
  have hzero : (s.ctxs s.ioc).numRunning - 1 = 0 := by omega
  unfold found
  by_cases hcommand : task.command = .writeCommand
  · rw [retireEvents_write hframe hcommand, if_pos hcommand]
    unfold callbacks
    rw [if_pos ⟨hpriv, hzero⟩]
  · rw [retireEvents_read hframe hcommand, if_neg hcommand]
    unfold callbacks
    rw [if_pos ⟨hpriv, hzero⟩]

/-- The last completion of a context with `priv` calls back, and no other. -/
theorem Core.calls_retire (h : Core cfg pend rest s)
    (hsent : Sent cfg s.frame s.ioc cmd task)
    (hsync : s.frame ≠ none → (s.ctxs s.ioc).priv = none) (d : CtxPtr) (log : List Event) :
    calls d (retireEvents s cmd.task task ++ log) =
      if d = s.ioc ∧ (s.ctxs s.ioc).priv ≠ none ∧ (s.ctxs s.ioc).numRunning = 1 then
        found s task :: calls d log
      else calls d log := by
  by_cases hlast : (s.ctxs s.ioc).priv ≠ none ∧ (s.ctxs s.ioc).numRunning = 1
  · have hframe : s.frame = none := by
      by_contra hne
      exact hlast.1 (hsync hne)
    rw [retireEvents_callback cmd.task hframe hlast.1 hlast.2]
    change calls d (.callback s.ioc (found s task).1 (found s task).2 :: log) = _
    rw [calls_cons]
    by_cases hd : d = s.ioc
    · rw [if_pos hd, if_pos ⟨hd, hlast⟩]
    · rw [if_neg hd, if_neg fun hand => hd hand.1]
  · rw [if_neg fun hand => hlast hand.2]
    have hlog := ((retireEvents_cases hsent.kind fun q hq => (h.frame q hq).1).adds log).calls d
    rcases retireEvents_cases hsent.kind (fun q hq => (h.frame q hq).1) with
      ⟨es, hes, _, ⟨rfl, _⟩ | ⟨_, hpriv, hzero, _⟩⟩ | ⟨hes, _⟩
    · rw [hes]
      exact rfl
    · exact absurd ⟨hpriv, by omega⟩ hlast
    · rw [hes]
      exact rfl

theorem Core.found_released (h : Core cfg pend rest s) (hi : s.inflight[i]? = some cmd)
    (htask : s.tasks cmd.task = some task) (hsent : Sent cfg s.frame s.ioc cmd task)
    (hrun : (s.ctxs s.ioc).numRunning = 1) (hread : cmd.write = false) :
    (found s task).1 = { s.ctxs s.ioc with numRunning := 0, totalNseg := 0 } ∧
      (found s task).2.Perm (List.range dataBufferDefaultNum) ∧
      (s.ctxs s.ioc).totalNseg = task.ioRequest.nseg := by
  have hcommand : task.command ≠ .writeCommand := by
    have hwrite := hsent.write
    rw [hread] at hwrite
    exact of_decide_eq_false hwrite.symm
  obtain ⟨hheld, hlen⟩ := hsent.held htask
  have hcount := h.running s.ioc
  rw [if_pos rfl, hrun, (live_perm rest hi).length_eq, List.length_cons] at hcount
  have hnil : s.inflight.eraseIdx i = [] := by
    have hmap : (flight (s.inflight.eraseIdx i)).length = (s.inflight.eraseIdx i).length :=
      List.length_map _
    rw [List.length_append] at hcount
    exact List.length_eq_zero_iff.mp (by omega)
  have hsegs := held_perm s.tasks hi
  rw [hnil] at hsegs
  have hall : (heldSegs s.tasks s.inflight).Perm (segsHeld s.tasks cmd.task) :=
    hsegs.trans (List.Perm.of_eq (List.append_nil _))
  have hnseg : (s.ctxs s.ioc).totalNseg = task.ioRequest.nseg := by
    rw [h.nseg s.ioc, if_pos rfl, hall.length_eq, hlen]
  unfold found
  rw [if_neg hcommand]
  refine ⟨?_, ?_, hnseg⟩
  · simp only [hrun, hnseg, Int.sub_self]
  · rw [hheld] at hall
    have hpool := (hall.append_left s.dataBufList).symm.trans h.pool
    refine List.Perm.trans ?_ hpool
    refine List.Perm.trans ?_ List.perm_append_comm
    exact (List.reverse_perm _).append_right _

end

/-! Runs. -/

section
variable {cfg : Config} {s s' : Sys} {l : Label}

theorem Inv.called (h : Inv cfg s) (hstep : Runs cfg s l s') : (Silent s s' ∧ ¬ WriteLast s l) ∨
    ∃ pend rest i cmd task, Core cfg pend rest s ∧ l = .complete i ∧ s.inflight[i]? = some cmd ∧
      s.tasks cmd.task = some task ∧ Sent cfg s.frame s.ioc cmd task ∧
      (s.ctxs s.ioc).priv ≠ none ∧ (s.ctxs s.ioc).numRunning = 1 ∧
      s'.ctxs s.ioc = { s.ctxs s.ioc with
        numRunning := 0, totalNseg := (s.ctxs s.ioc).totalNseg - task.ioRequest.nseg } ∧
      ∀ d, calls d s'.log = if d = s.ioc then found s task :: calls d s.log else calls d s.log := by
  have hquiet : Silent s s' → (∀ i, l ≠ .complete i) → Silent s s' ∧ ¬ WriteLast s l := by
    intro hsilent hne
    refine ⟨hsilent, ?_⟩
    cases l with
    | complete i => exact absurd rfl (hne i)
    | _ => exact id
  by_cases hpc : s.pc = .idle
  · obtain ⟨pend, rest, hcore, _, _⟩ := id h
    have hin : s.inflight = [] := (hcore.idle hpc).1
    have hdo := hstep.2
    cases l with
    | call c =>
      have hcall : (if s.pc = .idle then c.exec cfg s else .error .disabled) = .ok s' := hdo
      rw [if_pos hpc] at hcall
      exact Or.inl (hquiet (Call.exec_silent hcall) fun i heq => Label.noConfusion heq)
    | store a v =>
      have hstore : (if s.pc = .idle then Except.ok { s with mem := update s.mem a v }
        else Except.error Fault.disabled) = .ok s' := hdo
      rw [if_pos hpc] at hstore
      obtain rfl := Except.ok.inj hstore
      exact Or.inl (hquiet (fun _ => rfl) fun i heq => Label.noConfusion heq)
    | tick =>
      have htick : Blk.tick cfg s = .ok s' := hdo
      unfold Blk.tick at htick
      rw [hpc] at htick
      cases htick
    | transfer i =>
      unfold Step Label.exec at hdo
      simp [hin] at hdo
    | complete i =>
      unfold Step Label.exec at hdo
      simp [hin] at hdo
  · have hwork : Working cfg s l s' := ⟨hpc, hstep.2⟩
    obtain ⟨pend, rest, hcore, hbooks, hsync⟩ := h
    rcases hwork.cases with ⟨rfl, htick⟩ | ⟨i, cmd, rfl, hi, _, rfl⟩ |
      ⟨i, cmd, rfl, hi, _, _, hdone⟩
    · obtain ⟨s1, rest', hs1, hturn⟩ := hcore.tick_turn hpc
      obtain rfl : s1 = s' := Except.ok.inj (hs1.symm.trans htick)
      exact Or.inl (hquiet hturn.silent fun i heq => Label.noConfusion heq)
    · refine Or.inl (hquiet ?_ fun i heq => Label.noConfusion heq)
      apply Silent.of_log
      unfold move
      split <;> rfl
    · obtain ⟨task, htask, hsent⟩ := hcore.sent cmd (List.mem_of_getElem? hi)
      rw [hcore.ioComplete_eq hi htask hsent] at hdone
      obtain ⟨mem, _, heq⟩ := bind_ok hdone
      obtain rfl := Except.ok.inj heq
      have hcalls := fun d => hcore.calls_retire hsent hsync d (.complete s.ioc cmd.task :: s.log)
      by_cases hlast : (s.ctxs s.ioc).priv ≠ none ∧ (s.ctxs s.ioc).numRunning = 1
      · refine Or.inr ⟨pend, rest, i, cmd, task, hcore, rfl, hi, htask, hsent, hlast.1, hlast.2,
          ?_, ?_⟩
        · refine (update_self _ _ _).trans ?_
          rw [← hlast.2, Int.sub_self]
        · intro d
          refine (hcalls d).trans ?_
          by_cases hd : d = s.ioc
          · rw [if_pos ⟨hd, hlast⟩, if_pos hd]
            exact rfl
          · rw [if_neg fun hand => hd hand.1, if_neg hd]
            exact rfl
      · refine Or.inl ⟨?_, ?_⟩
        · intro d
          exact (hcalls d).trans (if_neg fun hand => hlast hand.2)
        · intro hwrite
          obtain ⟨_, _, _, hand⟩ := hwrite
          exact hlast hand

theorem Inv.clean_iff (h : Inv cfg s) (hstep : Runs cfg s l s') : Clean s s' ↔ ¬ WriteLast s l := by
  rcases h.called hstep with ⟨hsilent, hnot⟩ |
    ⟨pend, rest, i, cmd, task, hcore, rfl, hi, htask, hsent, hpriv, hrun, hctx', hcalls⟩
  · exact iff_of_true hsilent.clean hnot
  · cases hwrite : cmd.write with
    | true =>
      -- the segments of the write are still charged to the context
      refine iff_of_false ?_ (not_not_intro ⟨cmd, hi, hwrite, hpriv, hrun⟩)
      intro hclean
      obtain ⟨_, hzero, _⟩ := hclean s.ioc (found s task).1 (found s task).2
        ((hcalls s.ioc).trans (if_pos rfl))
      have hle := (hcore.charged hi htask hsent).nseg
      have hpos := segCount_pos hsent.pos
      have hnseg := hsent.nseg
      have hcommand : task.command = .writeCommand :=
        of_decide_eq_true (hsent.write.symm.trans hwrite)
      unfold found at hzero
      rw [if_pos hcommand] at hzero
      change (s.ctxs s.ioc).totalNseg = 0 at hzero
      omega
    | false =>
      obtain ⟨hctx, hpool, hnseg⟩ := hcore.found_released hi htask hsent hrun hwrite
      refine iff_of_true ?_ ?_
      · intro d ctx pool hcall
        have hcall' := (hcalls d).symm.trans hcall
        by_cases hd : d = s.ioc
        · rw [if_pos hd, hd] at hcall'
          have hfound := (List.cons.inj hcall').1
          rw [hfound] at hctx hpool
          change ctx = _ at hctx
          rw [hnseg, Int.sub_self] at hctx'
          rw [hctx, hd, hctx']
          exact ⟨rfl, rfl, hpool, rfl⟩
        · rw [if_neg hd] at hcall'
          have hlen := congrArg List.length hcall'
          rw [List.length_cons] at hlen
          omega
      · intro hlast
        obtain ⟨cmd', hi', hwrite', _⟩ := hlast
        obtain rfl : cmd = cmd' := Option.some.inj (hi.symm.trans hi')
        rw [hwrite] at hwrite'
        cases hwrite'

theorem Inv.run_clean_iff {s0 : Sys} {ls : List Label} (h : Inv cfg s0) :
    Run (fun s l s' => Runs cfg s l s' ∧ Clean s s') s0 ls s ↔
      Run (fun s l s' => Runs cfg s l s' ∧ ¬ WriteLast s l) s0 ls s := by
  constructor
  · intro hrun
    induction hrun with
    | nil s => exact .nil s
    | cons hstep _ ih =>
      exact .cons ⟨hstep.1, (h.clean_iff hstep.1).mp hstep.2⟩ (ih (h.runs hstep.1))
  · intro hrun
    induction hrun with
    | nil s => exact .nil s
    | cons hstep _ ih =>
      exact .cons ⟨hstep.1, (h.clean_iff hstep.1).mpr hstep.2⟩ (ih (h.runs hstep.1))

/-- All callbacks so far found their context released. -/
def Released (s : Sys) : Prop :=
  ∀ c, ∀ x ∈ calls c s.log, x.1.numRunning = 0 ∧ x.1.totalNseg = 0 ∧
    x.2.Perm (List.range dataBufferDefaultNum)

theorem Inv.released (h : Inv cfg s) (hstep : Runs cfg s l s') (hclean : Clean s s')
    (hall : Released s) : Released s' := by
  intro c x hx
  rcases h.called hstep with ⟨hsilent, _⟩ | ⟨_, _, _, _, task, _, _, _, _, _, _, _, _, hcalls⟩
  · rw [hsilent c] at hx
    exact hall c x hx
  · by_cases hc : c = s.ioc
    · have hcall := (hcalls c).trans (if_pos hc)
      obtain ⟨hrun, hseg, hpool, _⟩ := hclean c (found s task).1 (found s task).2 hcall
      rw [hcall] at hx
      rcases List.mem_cons.mp hx with rfl | hx
      · exact ⟨hrun, hseg, hpool⟩
      · exact hall c x hx
    · rw [hcalls c, if_neg hc] at hx
      exact hall c x hx

end

/-- In the runs from the start, all callbacks find their context released, and leave it alone
from then on, exactly when no batch ends with the completion of a write. -/
theorem callback_clean_iff (cfg : Config) (s0 s : Sys) (ls : List Label) (h : Initial s0) :
    (Run (fun s l s' => Runs cfg s l s' ∧ Clean s s') s0 ls s ↔
      Run (fun s l s' => Runs cfg s l s' ∧ ¬ WriteLast s l) s0 ls s) ∧
    (Run (fun s l s' => Runs cfg s l s' ∧ ¬ WriteLast s l) s0 ls s → Released s) := by
  refine ⟨Inv.run_clean_iff h.inv, ?_⟩
  intro hrun
  have hstart : Released s0 := by
    intro c x hx
    rw [h.log] at hx
    cases hx
  have hboth := hrun.invariant (I := fun s => Inv cfg s ∧ Released s)
    (fun _ _ _ hs hstep => ⟨hs.1.runs hstep.1,
      hs.1.released hstep.1 ((hs.1.clean_iff hstep.1).mpr hstep.2) hs.2⟩) ⟨h.inv, hstart⟩
  exact hboth.2

/-- The callback of a batch of a write and a read, with the completion of the read last. -/
theorem callback_clean_read : ∃ s, (calls (.user 0) s.log).length = 1 ∧ Released s := by
  have hrun : ∃ s ∈ execAll (Label.exec ⟨4096, 2 ^ 40, 2⟩)
      (fun s l => decide (Fits ⟨4096, 2 ^ 40, 2⟩ s l ∧ ¬ WriteLast s l)) started
      [.call (.aioWrite 0 4096 0 0), .call (.aioRead 8192 4096 0 0), .call (.aioSubmit 0), .tick,
        .tick, .tick, .tick, .tick, .tick, .tick, .transfer 1, .transfer 0, .complete 0,
        .complete 0], (calls (.user 0) s.log).length = 1 := by
    decide +kernel
  obtain ⟨s, hs, hlen⟩ := hrun
  refine ⟨s, hlen, (callback_clean_iff ⟨4096, 2 ^ 40, 2⟩ started s _ started_initial).2 (execAll_run ?_ hs)⟩
  intro s l s' hallowed hexec
  obtain ⟨hfits, hnot⟩ := of_decide_eq_true hallowed
  exact ⟨⟨hfits, hexec⟩, hnot⟩

/-- A batch of one write: its callback finds a segment that goes back to the pool later. -/
theorem callback_before_release : ∃ s s' : Sys, ∃ x, Reached ⟨4096, 2 ^ 40, 2⟩ s ∧
    Runs ⟨4096, 2 ^ 40, 2⟩ s (.complete 0) s' ∧ calls (.user 0) s.log = [] ∧
    calls (.user 0) s'.log = [x] ∧ x.1.numRunning = 0 ∧ x.1.totalNseg = 1 ∧
    x.2.length = 1023 ∧ (s'.ctxs (.user 0)).totalNseg = 0 ∧ s'.dataBufList.length = 1024 := by
  have hrun : ∃ s ∈ runLabels ⟨4096, 2 ^ 40, 2⟩ [.call (.aioWrite 0 4096 0 0),
      .call (.aioSubmit 0), .tick, .tick, .tick, .tick, .tick, .tick, .transfer 0],
      ∃ s' ∈ (Label.exec ⟨4096, 2 ^ 40, 2⟩ s (.complete 0)).toOption,
      ∃ x ∈ (calls (.user 0) s'.log).head?, (calls (.user 0) s.log).length = 0 ∧
        (calls (.user 0) s'.log).length = 1 ∧ x.1.numRunning = 0 ∧ x.1.totalNseg = 1 ∧
        x.2.length = 1023 ∧ (s'.ctxs (.user 0)).totalNseg = 0 ∧
        s'.dataBufList.length = 1024 := by
    decide +kernel
  obtain ⟨s, hs, s', hs', x, hx, hnone, hone, hfound⟩ := hrun
  refine ⟨s, s', x, runLabels_reached hs, ⟨trivial, ok_of_toOption hs'⟩,
    List.length_eq_zero_iff.mp hnone, ?_, hfound⟩
  obtain ⟨y, hy⟩ := List.length_eq_one_iff.mp hone
  rw [hy] at hx ⊢
  rw [Option.some.inj hx]

end LockdepSpdk.Blk
