import LockdepSpdk.Blk.Bytes

/-!
# Calls that return

A call in progress is in no danger, and under fair delivery it comes to its end:
each task counts down to its completion, and between two deliveries the polling
loop does not go round more than once. Where the call ends, the plan is carried
out.
-/

namespace LockdepSpdk.Blk

set_option autoImplicit false

open Function ByteRange Transition

/-- SPDK moves the bytes of a command, or delivers its completion. -/
def Label.Delivers : Label → Prop
  | .call _ => False
  | .store _ _ => False
  | .tick => False
  | .transfer _ => True
  | .complete _ => True

/-- A call in progress has a next step, and nothing that can happen in it is a fault. -/
def Safe (cfg : Config) (s : Sys) : Prop :=
  s.pc ≠ .idle → (∃ s', tick cfg s = .ok s') ∧
    ∀ (l : Label) (e : Fault), l.exec cfg s = .error e → e = .disabled

/-- The call in progress returns with `Q`, in whatever order SPDK moves and completes commands, as
long as it goes on to do so while some are in flight. -/
def Returns (cfg : Config) (Q : Sys → Prop) : Sys → Prop :=
  Total (Working cfg) (fun s => s.inflight ≠ []) Label.Delivers (Safe cfg) (fun s => s.pc = .idle) Q

/-! The measures. -/

def unsent (s : Sys) : Nat := (s.ctxs s.ioc).numRunning.toNat - s.inflight.length

/-- Deliveries that a command waits for. -/
def Command.due (c : Command) : Nat := if c.moved then 1 else 2

def due (inflight : List Command) : Nat := (inflight.map Command.due).sum

def work (s : Sys) : Nat := 3 * unsent s + due s.inflight

/-- Steps of the loop up to a submission, or to the return when there is none to come. -/
def stepsLeft : Bool → Pc → Nat
  | true, .test => 2
  | true, .again => 1
  | true, .polling => 1
  | true, .loop => 0
  | true, .idle => 0
  | false, .again => 3
  | false, .polling => 3
  | false, .loop => 2
  | false, .test => 1
  | false, .idle => 0

def delay (s : Sys) : Nat := stepsLeft (decide (0 < unsent s)) s.pc

theorem stepsLeft_again (more : Bool) : stepsLeft more .loop < stepsLeft more .again := by
  cases more <;> decide

theorem stepsLeft_polling (more : Bool) : stepsLeft more .loop < stepsLeft more .polling := by
  cases more <;> decide

section
variable {cfg : Config} {pend : CtxPtr → List TaskPtr} {rest rest' : List TaskPtr} {s s' : Sys}
  {i : Nat} {cmd : Command}

theorem Core.unsent_eq (h : Core cfg pend rest s) : unsent s = rest.length := by
  have hrun := h.running s.ioc
  have hflight : (flight s.inflight).length = s.inflight.length := List.length_map _
  rw [if_pos rfl, List.length_append, hflight] at hrun
  unfold unsent
  omega

theorem Core.work_eq (h : Core cfg pend rest s) : work s = 3 * rest.length + due s.inflight := by
  unfold work
  rw [h.unsent_eq]

theorem Core.delay_eq (h : Core cfg pend rest s) :
    delay s = stepsLeft (decide (0 < rest.length)) s.pc := by
  unfold delay
  rw [h.unsent_eq]

theorem due_erase (hi : s.inflight[i]? = some cmd) :
    due s.inflight = cmd.due + due (s.inflight.eraseIdx i) := by
  have hperm := (inflight_perm hi).map Command.due
  unfold due
  rw [hperm.sum_nat, List.map_cons, List.sum_cons]

theorem due_set (hi : s.inflight[i]? = some cmd) (hmoved : cmd.moved = false) :
    due s.inflight = due (s.inflight.set i { cmd with moved := true }) + 1 := by
  have hperm := (set_perm { cmd with moved := true } hi).map Command.due
  have herase := due_erase hi
  have hcmd : cmd.due = 2 := by
    unfold Command.due
    rw [hmoved, if_neg Bool.false_ne_true]
  have hset : due (s.inflight.set i { cmd with moved := true }) =
      1 + due (s.inflight.eraseIdx i) := by
    unfold due
    rw [hperm.sum_nat, List.map_cons, List.sum_cons]
    exact rfl
  omega

theorem due_pos (hi : s.inflight[i]? = some cmd) :
    due (s.inflight.eraseIdx i) < due s.inflight := by
  have herase := due_erase hi
  have hpos : 0 < cmd.due := by
    unfold Command.due
    split <;> omega
  omega

/-- A turn of the loop hands a task over, or comes nearer to that while nothing is in flight. -/
theorem Turn.progress (h : Turn cfg s rest s' rest') (hcore : Core cfg pend rest s)
    (hcore' : Core cfg pend rest' s') : work s' < work s ∨ (work s' = work s ∧
      (s.inflight = [] → 0 < cfg.maxQueueDepth → delay s' < delay s)) := by
  rw [hcore.work_eq, hcore'.work_eq, hcore.delay_eq, hcore'.delay_eq]
  cases h with
  | done hpc hin =>
    right
    refine ⟨rfl, fun _ _ => ?_⟩
    rw [hpc]
    exact Nat.zero_lt_one
  | more hpc hne =>
    right
    refine ⟨rfl, fun hin _ => ?_⟩
    have hrest : 0 < rest.length := by
      apply List.length_pos_of_ne_nil
      intro hnil
      apply hne
      rw [hin, hnil]
      exact rfl
    rw [hpc, decide_eq_true hrest]
    exact Nat.one_lt_two
  | poll hpc hne => exact Or.inr ⟨rfl, fun hin => absurd hin hne⟩
  | skip hpc hin =>
    right
    refine ⟨rfl, fun _ _ => ?_⟩
    rw [hpc]
    exact stepsLeft_again _
  | polled hpc =>
    right
    refine ⟨rfl, fun _ _ => ?_⟩
    rw [hpc]
    exact stepsLeft_polling _
  | last hpc =>
    right
    refine ⟨rfl, fun _ _ => ?_⟩
    rw [hpc]
    exact Nat.one_lt_two
  | wait hpc htask htask' hwait =>
    right
    refine ⟨rfl, fun hin hdepth => ?_⟩
    rcases hwait with hne | hzero
    · exact absurd hin hne
    · omega
  | @send p _ task hpc htask hready hslot hpool =>
    left
    have hdue : due (s.inflight ++ [sentCommand cfg s p task]) = due s.inflight + 2 := by
      unfold due
      rw [List.map_append, List.sum_append]
      exact rfl
    change 3 * rest'.length + due (s.inflight ++ [sentCommand cfg s p task]) < _
    rw [hdue, List.length_cons]
    omega

theorem Core.working {l : Label} (h : Core cfg pend rest s) (hstep : Working cfg s l s') :
    ∃ rest', Core cfg pend rest' s' ∧ (l.Delivers → work s' < work s) ∧
      (work s' < work s ∨ (work s' = work s ∧
        (s.inflight = [] → 0 < cfg.maxQueueDepth → delay s' < delay s))) := by
  rcases hstep.cases with ⟨rfl, htick⟩ | ⟨i, cmd, rfl, hi, hmoved, rfl⟩ |
    ⟨i, cmd, rfl, hi, _, hpc, hdone⟩
  · obtain ⟨s1, rest', hs1, hturn⟩ := h.tick_turn hstep.1
    obtain rfl := Except.ok.inj (hs1.symm.trans htick)
    have hcore' := h.turn hturn
    exact ⟨rest', hcore', False.elim, hturn.progress h hcore'⟩
  · have hcore' := h.transfer hi
    have hdue := due_set hi hmoved
    have hinflight : (move cfg { s with
        inflight := s.inflight.set i { cmd with moved := true } } cmd).inflight =
        s.inflight.set i { cmd with moved := true } := by
      unfold move
      split
      · exact rfl
      · exact rfl
    have hlt : work (move cfg { s with
        inflight := s.inflight.set i { cmd with moved := true } } cmd) < work s := by
      rw [h.work_eq, hcore'.work_eq, hinflight]
      omega
    exact ⟨rest, hcore', fun _ => hlt, Or.inl hlt⟩
  · obtain ⟨task, htask, hsent⟩ := h.sent cmd (List.mem_of_getElem? hi)
    rw [h.ioComplete_eq hi htask hsent] at hdone
    obtain ⟨m, _, heq⟩ := bind_ok hdone
    obtain rfl := Except.ok.inj heq
    have hcore' := h.retire (by simp [hpc]) hi htask hsent m
    have hdue := due_pos hi
    have hlt : work (completed { s with inflight := s.inflight.eraseIdx i } cmd.task task
        (retireTasks s cmd.task task) m (retireEvents s cmd.task task)) < work s := by
      rw [h.work_eq, hcore'.work_eq]
      change 3 * rest.length + due (s.inflight.eraseIdx i) < _
      omega
    exact ⟨rest, hcore', fun _ => hlt, Or.inl hlt⟩

end

/-! The rule. -/

/-- A call that carries out a plan, while it is in progress and where it has returned. -/
def Underway (cfg : Config) (pend : CtxPtr → List TaskPtr) (disk mem : Nat → UInt8) (s : Sys) :
    Prop :=
  ∃ rest, Core cfg pend rest s ∧ Carries cfg disk mem rest s ∧ (s.pc = .idle → s.ret = 0)

structure Returned (cfg : Config) (pend : CtxPtr → List TaskPtr) (disk mem : Nat → UInt8)
    (s : Sys) : Prop where
  pc : s.pc = .idle
  core : Core cfg pend [] s
  disk : s.disk = disk
  mem : s.mem = mem
  ret : s.ret = 0

section
variable {cfg : Config} {pend : CtxPtr → List TaskPtr} {rest rest' : List TaskPtr} {s s' : Sys}
  {disk mem : Nat → UInt8} {Q Q' : Sys → Prop}

theorem Turn.ret (h : Turn cfg s rest s' rest') (hidle : s'.pc = .idle) : s'.ret = 0 := by
  cases h with
  | done hpc hin => exact rfl
  | more hpc hne => cases hidle
  | poll hpc hne => cases hidle
  | skip hpc hin => cases hidle
  | polled hpc => cases hidle
  | last hpc => cases hidle
  | wait hpc htask htask' hwait => cases hidle
  | send hpc htask hready hslot hpool =>
    have hpc' : s.pc = .idle := hidle
    rw [hpc] at hpc'
    cases hpc'

theorem Working.ret {l : Label} (h : Working cfg s l s') (hcore : Core cfg pend rest s)
    (hidle : s'.pc = .idle) : s'.ret = 0 := by
  rcases h.cases with ⟨_, htick⟩ | ⟨i, cmd, _, hi, _, rfl⟩ | ⟨i, cmd, _, hi, _, hpc, hdone⟩
  · obtain ⟨s1, rest', hs1, hturn⟩ := hcore.tick_turn h.1
    obtain rfl := Except.ok.inj (hs1.symm.trans htick)
    exact hturn.ret hidle
  · have hpc : s.pc = .idle := by
      unfold move at hidle
      split at hidle
      · exact hidle
      · exact hidle
    exact absurd hpc h.1
  · obtain ⟨task, htask, hsent⟩ := hcore.sent cmd (List.mem_of_getElem? hi)
    rw [hcore.ioComplete_eq hi htask hsent] at hdone
    obtain ⟨m, _, heq⟩ := bind_ok hdone
    obtain rfl := Except.ok.inj heq
    have hpc' : s.pc = .idle := hidle
    exact absurd hpc' h.1

theorem Underway.working {l : Label} (h : Underway cfg pend disk mem s)
    (hstep : Working cfg s l s') : Underway cfg pend disk mem s' := by
  obtain ⟨rest, hcore, hcarries, _⟩ := h
  obtain ⟨rest', hcore', hcarries'⟩ := hcarries.working hcore hstep
  exact ⟨rest', hcore', hcarries', hstep.ret hcore⟩

/-- Where the bytes that a completion brings are in its segments, the call is in no danger. -/
theorem Core.safe (hcore : Core cfg pend rest s)
    (hfill : ∀ (i : Nat) (cmd : Command) (task : Task), s.inflight[i]? = some cmd →
    cmd.moved = true → s.tasks cmd.task = some task → Sent cfg s.frame s.ioc cmd task →
    ∃ m, fillMem s task = .ok m) : Safe cfg s := by
  intro hpc
  obtain ⟨s', rest', hs', hturn⟩ := hcore.tick_turn hpc
  refine ⟨⟨s', hs'⟩, ?_⟩
  intro l e herror
  cases l with
  | call c =>
    have hcall : (if s.pc = .idle then c.exec cfg s else .error .disabled) = .error e := herror
    rw [if_neg hpc] at hcall
    exact (Except.error.inj hcall).symm
  | store a v =>
    have hstore : (if s.pc = .idle then Except.ok { s with mem := update s.mem a v }
      else Except.error Fault.disabled) = .error e := herror
    rw [if_neg hpc] at hstore
    exact (Except.error.inj hstore).symm
  | tick =>
    have htick : tick cfg s = .error e := herror
    rw [hs'] at htick
    cases htick
  | transfer i =>
    unfold Label.exec at herror
    simp only at herror
    split at herror
    · exact (Except.error.inj herror).symm
    · split at herror
      · exact (Except.error.inj herror).symm
      · cases herror
  | complete i =>
    unfold Label.exec at herror
    simp only at herror
    split at herror
    · exact (Except.error.inj herror).symm
    · next cmd hi =>
      split at herror
      · next hpoll =>
        obtain ⟨task, htask, hsent⟩ := hcore.sent cmd (List.mem_of_getElem? hi)
        obtain ⟨m, hm⟩ := hfill i cmd task hi hpoll.2 htask hsent
        rw [hcore.ioComplete_eq hi htask hsent, hm] at herror
        cases herror
      · exact (Except.error.inj herror).symm

theorem Underway.safe (h : Underway cfg pend disk mem s) : Safe cfg s := by
  obtain ⟨rest, hcore, hcarries, _⟩ := h
  apply hcore.safe
  intro i cmd task hi hmoved htask hsent
  obtain ⟨m, hm, _⟩ := hcarries.fill hi hmoved htask hsent
  exact ⟨m, hm⟩

theorem Sent.fill_ok {cmd : Command} {task : Task} {c : CtxPtr} (h : Sent cfg none c cmd task) :
    ∃ m, fillMem s task = .ok m := by
  unfold fillMem
  cases hcommand : task.command with
  | readCommand =>
    obtain ⟨f, hf, hhead, hfit⟩ := h.fills rfl hcommand
    have hle : f.tmpOff + f.tmpLen ≤ task.ioRequest.segs.length * dataBufferSize :=
      Nat.le_trans hfit h.segs_fit
    simp only [hf]
    exact ⟨_, copyToBuf_ok s.dma s.mem hhead hle⟩
  | writeCommand => exact ⟨_, rfl⟩
  | flushCommand => exact ⟨_, rfl⟩

theorem Core.safe_async (hcore : Core cfg pend rest s) (hframe : s.frame = none) : Safe cfg s := by
  apply hcore.safe
  intro i cmd task hi hmoved htask hsent
  rw [hframe] at hsent
  exact hsent.fill_ok

theorem Underway.returned (h : Underway cfg pend disk mem s) (hidle : s.pc = .idle) :
    Returned cfg pend disk mem s := by
  obtain ⟨rest, hcore, hcarries, hret⟩ := h
  obtain ⟨hin, rfl, _⟩ := hcore.idle hidle
  obtain ⟨hdisk, hmem⟩ := hcarries.through (by rw [hin]; rfl)
  exact ⟨hidle, hcore, hdisk, hmem, hret hidle⟩

theorem Returned.quiet (h : Returned cfg pend disk mem s) : Quiet pend s ∧ s.frame = none := by
  obtain ⟨hin, _, hframe⟩ := h.core.idle h.pc
  refine ⟨h.core.quiet ?_, hframe⟩
  rw [hin]
  exact rfl

/-- The rule for a call: an invariant of its steps over the device, safe and right at the end. -/
theorem Returns.of_invariant {I : Sys → Prop} (hdepth : 0 < cfg.maxQueueDepth)
    (hcore : ∀ s, I s → ∃ pend rest, Core cfg pend rest s)
    (hinv : ∀ s l t, I s → Working cfg s l t → I t) (hsafe : ∀ s, I s → Safe cfg s)
    (hstop : ∀ s, I s → s.pc = .idle → Q s) (hs : I s) : Returns cfg Q s := by
  have hworking : ∀ s l t, I s → Working cfg s l t →
      (l.Delivers → work t < work s) ∧ (work t < work s ∨ (work t = work s ∧
        (s.inflight = [] → 0 < cfg.maxQueueDepth → delay t < delay s))) := by
    intro s l t hs hstep
    obtain ⟨pend, rest, hc⟩ := hcore s hs
    obtain ⟨_, _, hmeasures⟩ := hc.working hstep
    exact hmeasures
  refine Total.of_invariant work delay hinv hsafe hstop ?_ ?_ ?_ hs
  · intro s l t hs hstep
    rcases (hworking s l t hs hstep).2 with hlt | ⟨heq, _⟩
    · exact Nat.le_of_lt hlt
    · exact Nat.le_of_eq heq
  · intro s l t hs hstep
    exact (hworking s l t hs hstep).1
  · intro s l t hs hstep hidle heq
    rcases (hworking s l t hs hstep).2 with hlt | ⟨_, hdelay⟩
    · omega
    · exact hdelay (Classical.not_not.mp hidle) hdepth

theorem Underway.returns (h : Underway cfg pend disk mem s) (hdepth : 0 < cfg.maxQueueDepth) :
    Returns cfg (Returned cfg pend disk mem) s := by
  apply Returns.of_invariant hdepth _ (fun _ _ _ hs hstep => hs.working hstep)
    (fun _ hs => hs.safe) (fun _ hs => hs.returned) h
  intro s hs
  obtain ⟨rest, hcore, _⟩ := hs
  exact ⟨pend, rest, hcore⟩

theorem Returns.mono (h : Returns cfg Q s) (hQ : ∀ t, Q t → Q' t) : Returns cfg Q' s :=
  Total.mono h hQ

theorem Returns.at_once (hidle : s.pc = .idle) (hQ : Q s) : Returns cfg Q s where
  safe := by
    intro ls t hrun hpc
    cases hrun with
    | nil => exact absurd hidle hpc
    | cons hstep _ => exact absurd hidle hstep.1
  stop := by
    intro ls t hrun _
    cases hrun with
    | nil => exact hQ
    | cons hstep _ => exact absurd hidle hstep.1
  ends := by
    intro r _
    have hstep := r.step 0
    rw [r.start] at hstep
    exact hstep.1 hidle

/-! Submission. -/

theorem jobsOf_map {tasks : TaskPtr → Option Task} {ps : List TaskPtr} {js : List Job}
    (h : ps.map (jobOf tasks) = js.map some) : jobsOf tasks ps = js := by
  have hall : (ps.map (jobOf tasks)).filterMap id = (js.map some).filterMap id := by
    rw [h]
  rw [List.filterMap_map, List.filterMap_map] at hall
  exact hall.trans List.filterMap_some

/-- `aio_submit` has taken the tasks `ps`, made for `js` in a context that was empty in `s0`. -/
structure Begun (cfg : Config) (pend : CtxPtr → List TaskPtr) (ps : List TaskPtr) (js : List Job)
    (s0 s : Sys) : Prop where
  core : Core cfg pend ps s
  pc : s.pc = .test
  inflight : s.inflight = []
  jobs : ps.map (jobOf s.tasks) = js.map some
  disk : s.disk = s0.disk
  mem : s.mem = s0.mem

theorem Extends.begun {c : CtxPtr} {ps : List TaskPtr} {js : List Job}
    (h : Extends pend c s ps js s') (hempty : pend c = []) (hne : ps ≠ [])
    (hlt : ps.length < 2 ^ 31) (cfg : Config) :
    ∃ s1, aioSubmit s' c = .ok s1 ∧ Begun cfg pend ps js s s1 := by
  have hpend : update pend c (pend c ++ ps) c = ps := by
    rw [update_self, hempty, List.nil_append]
  have hback : update (update pend c (pend c ++ ps)) c [] = pend := by
    rw [update_idem, ← hempty, update_eq_self]
  obtain ⟨hs1, hcore⟩ := h.loaded.submit (by rwa [hpend]) (by rwa [hpend]) cfg
  rw [hpend] at hs1
  rw [hback, hpend] at hcore
  have hjobs := h.jobs
  rw [hempty] at hjobs
  refine ⟨_, hs1, hcore, rfl, h.loaded.inflight, hjobs, ?_, ?_⟩
  · change s'.disk = s.disk
    rw [h.same]
  · change s'.mem = s.mem
    rw [h.same]

theorem Begun.returns {ps : List TaskPtr} {l : List Job}
    (h : Begun cfg pend ps (l.flatMap Job.split) s s') (hdepth : 0 < cfg.maxQueueDepth)
    (hplan : Planned cfg.blockSize disk mem l)
    (hdivide : ∀ j ∈ l, Divides cfg.blockSize j j.split)
    (hwritten : Settled s.disk disk (firstTargets (l.map Job.copy)))
    (hfilled : Settled s.mem mem (secondTargets (l.map Job.copy))) :
    Returns cfg (Returned cfg pend disk mem) s' := by
  have hlive : flight s'.inflight ++ ps = ps := by
    rw [h.inflight]
    exact rfl
  have hunmoved : unmoved s'.inflight ++ ps = ps := by
    rw [h.inflight]
    exact rfl
  refine Underway.returns ⟨ps, h.core, ⟨?_, ?_, ?_, ?_⟩, ?_⟩ hdepth
  · rw [hlive, jobsOf_map h.jobs]
    exact hplan.divide hdivide
  · rw [hunmoved, jobsOf_map h.jobs, h.disk]
    exact settled_first_divide hwritten hdivide
  · rw [hlive, jobsOf_map h.jobs, h.mem]
    exact settled_second_divide hfilled hdivide
  · rw [h.inflight]
    intro cmd hcmd
    cases hcmd
  · intro hidle
    rw [h.pc] at hidle
    cases hidle

theorem Begun.returns_one {ps : List TaskPtr} {j : Job} (h : Begun cfg pend ps j.split s s')
    (hdepth : 0 < cfg.maxQueueDepth)
    (hkind : (j.command = .writeCommand ∧ j.fillCb = none) ∨
      (j.command = .readCommand ∧ ∃ f, j.fillCb = some f))
    (hblocks : cfg.blockSize ∣ j.offset ∧ cfg.blockSize ∣ j.len)
    (hfit : j.skip + j.count ≤ j.len ∧ j.skip ≤ dataBufferSize)
    (hdivide : Divides cfg.blockSize j j.split) :
    Returns cfg (Returned cfg pend (j.copy.run (s.disk, s.mem)).1
      (j.copy.run (s.disk, s.mem)).2) s' := by
  have hplan : Planned cfg.blockSize (j.copy.run (s.disk, s.mem)).1
      (j.copy.run (s.disk, s.mem)).2 [j] := by
    apply planned_of_independent (l := [j]) (s.disk, s.mem)
    · simpa using hkind
    · simpa using hblocks
    · simpa using hfit
    · intro r hr w hw hread hwrite
      rw [List.mem_singleton.mp hr, ← List.mem_singleton.mp hw, hwrite] at hread
      cases hread
    · exact List.pairwise_singleton _ _
  have hall : Begun cfg pend ps ([j].flatMap Job.split) s s' := by
    rw [List.flatMap_singleton]
    exact h
  apply hall.returns hdepth hplan
  · simpa using hdivide
  · exact runAll_first [j.copy] (s.disk, s.mem)
  · exact runAll_second [j.copy] (s.disk, s.mem)

end

end LockdepSpdk.Blk
