import LockdepSpdk.Blk.Core

/-!
# Completions

The branches of `io_complete`: a write, a read that was appended for later, and
the subtasks and the single task of a synchronous read.
-/

namespace LockdepSpdk.Blk

set_option autoImplicit false

open Function Transition

/-- What all branches of `io_complete` do, and what each does of its own: to the tasks, the memory
and the log. -/
def completed (s : Sys) (p : TaskPtr) (task : Task) (tasks : TaskPtr → Option Task)
    (mem : Nat → UInt8) (events : List Event) : Sys :=
  { s with
    mem := mem
    tasks := tasks
    dataBufList := (task.ioRequest.segs.take task.ioRequest.nseg).reverse ++ s.dataBufList
    ctxs := update s.ctxs s.ioc { s.ctxs s.ioc with
      numRunning := (s.ctxs s.ioc).numRunning - 1
      totalNseg := (s.ctxs s.ioc).totalNseg - task.ioRequest.nseg }
    currentQueueDepth := s.currentQueueDepth - 1
    log := events ++ .complete s.ioc p :: s.log }

def callbacks (c : CtxPtr) (ctx : IOContext) (pool : List Nat) : List Event :=
  if ctx.priv ≠ none ∧ ctx.numRunning = 0 then [.callback c ctx pool] else []

structure Charged (ctx : IOContext) (task : Task) : Prop where
  running : 1 ≤ ctx.numRunning
  running_lt : ctx.numRunning < 2 ^ 31
  nseg : task.ioRequest.nseg ≤ ctx.totalNseg
  nseg_lt : ctx.totalNseg < 2 ^ 31

def Task.released (task : Task) : Task :=
  { task with ioRequest := { task.ioRequest with nseg := 0 } }

section
variable {s : Sys} {p : TaskPtr} {task : Task} {c : CtxPtr}

def finished (s : Sys) (c : CtxPtr) : Sys :=
  { s with
    ctxs := update s.ctxs c { s.ctxs c with numRunning := (s.ctxs c).numRunning - 1 }
    log := callbacks c { s.ctxs c with numRunning := (s.ctxs c).numRunning - 1 } s.dataBufList ++
      s.log }

def released (s : Sys) (p : TaskPtr) (task : Task) (c : CtxPtr) : Sys :=
  { s with
    dataBufList := (task.ioRequest.segs.take task.ioRequest.nseg).reverse ++ s.dataBufList
    ctxs := update s.ctxs c
      { s.ctxs c with totalNseg := (s.ctxs c).totalNseg - task.ioRequest.nseg }
    tasks := update s.tasks p
      (some task.released) }

/-- `io_complete` before it looks at the command. -/
def polled (s : Sys) (p : TaskPtr) : Sys :=
  { s with
    currentQueueDepth := s.currentQueueDepth - 1
    log := .complete s.ioc p :: s.log }

theorem finishOne_ok (h1 : 1 ≤ (s.ctxs c).numRunning) (hlt : (s.ctxs c).numRunning < 2 ^ 31) :
    finishOne s c = .ok (finished s c) := by
  have hdec : int32 ((s.ctxs c).numRunning - 1) = (s.ctxs c).numRunning - 1 :=
    int32_of_lt (by omega) (by omega)
  unfold finishOne finished
  simp only [hdec]
  split
  · next n hpriv =>
    by_cases h0 : (s.ctxs c).numRunning - 1 = 0
    · have hcall : callbacks c { s.ctxs c with numRunning := (s.ctxs c).numRunning - 1 }
          s.dataBufList = [.callback c
            { s.ctxs c with numRunning := (s.ctxs c).numRunning - 1 } s.dataBufList] :=
        if_pos ⟨by rw [hpriv]; exact Option.some_ne_none n, h0⟩
      rw [if_pos h0, hcall]
      exact rfl
    · have hcall : callbacks c { s.ctxs c with numRunning := (s.ctxs c).numRunning - 1 }
          s.dataBufList = [] := if_neg fun h => h0 h.2
      rw [if_neg h0, hcall]
      exact rfl
  · next hpriv =>
    have hcall : callbacks c { s.ctxs c with numRunning := (s.ctxs c).numRunning - 1 }
        s.dataBufList = [] := if_neg fun h => h.1 hpriv
    rw [if_neg (by omega), hcall]
    exact rfl

theorem releaseSegs_ok (htask : s.tasks p = some task) (hctx : task.ctx = some c)
    (hle : task.ioRequest.nseg ≤ (s.ctxs c).totalNseg) (hlt : (s.ctxs c).totalNseg < 2 ^ 31) :
    releaseSegs s p = .ok (released s p task c) := by
  have hdec : int32 ((s.ctxs c).totalNseg - task.ioRequest.nseg) =
      (s.ctxs c).totalNseg - task.ioRequest.nseg := int32_of_lt (by omega) (by omega)
  unfold releaseSegs
  simp only [Sys.task_some htask, ok_bind]
  split
  · next hnone =>
    rw [hctx] at hnone
    cases hnone
  · next d hd =>
    obtain rfl : c = d := Option.some.inj (hctx.symm.trans hd)
    rw [hdec]
    exact rfl

theorem deleteTask_plain (task : Task) (htask : s.tasks p = some task) (hp : ∃ n, p = .heap n)
    (hprimary : task.primary = none) (hnseg : task.ioRequest.nseg = 0) :
    deleteTask s p = .ok { s with
      tasks := update s.tasks p none
      log := .delete p :: s.log } := by
  obtain ⟨n, rfl⟩ := hp
  unfold deleteTask
  simp only [Sys.task_some htask, ok_bind, hprimary]
  rw [if_neg (by omega)]
  exact rfl

theorem deleteTask_sub (task : Task) {q : TaskPtr} {prim : Task} (htask : s.tasks p = some task)
    (hp : ∃ n, p = .heap n) (hprimary : task.primary = some q) (hprim : s.tasks q = some prim)
    (href : 1 ≤ prim.ref) (hlt : prim.ref < 2 ^ 31) (hnseg : task.ioRequest.nseg = 0) :
    deleteTask s p = .ok { s with
      tasks := update (update s.tasks q (some { prim with ref := prim.ref - 1 })) p none
      log := .delete p :: s.log } := by
  obtain ⟨n, rfl⟩ := hp
  have hdec : int32 (prim.ref - 1) = prim.ref - 1 := int32_of_lt (by omega) (by omega)
  unfold deleteTask
  simp only [Sys.task_some htask, ok_bind, hprimary, Sys.task_some hprim, hdec]
  rw [if_neg (by omega)]
  exact rfl

theorem ioComplete_polled (htask : s.tasks p = some task) (hctx : task.ctx = some s.ioc)
    (hqueue : task.queue = true) :
    ioComplete s p = match task.command with
      | .writeCommand => do
        let s1 ← finishOne (polled s p) s.ioc
        let s2 ← releaseSegs s1 p
        deleteTask s2 p
      | .readCommand => do
        let s1 ← runFillCb (polled s p) task
        let s2 ← releaseSegs s1 p
        let task ← s2.task p
        if task.returnCode = 0 then do
          let s3 ← finishOne s2 s.ioc
          deleteTask s3 p
        else finishSync s2 p task s.ioc
      | .flushCommand => .ok ((polled s p).setTask p { task with returnCode := 0 }) := by
  unfold ioComplete
  simp only [Sys.task_some htask, ok_bind]
  split
  · next hnone =>
    rw [hctx] at hnone
    cases hnone
  · next c hc =>
    obtain rfl : s.ioc = c := Option.some.inj (hctx.symm.trans hc)
    rw [hqueue, if_neg (by simp)]
    exact rfl

theorem ioComplete_write (htask : s.tasks p = some task) (hctx : task.ctx = some s.ioc)
    (hqueue : task.queue = true) (hcommand : task.command = .writeCommand)
    (hp : ∃ n, p = .heap n) (hprimary : task.primary = none)
    (hcharged : Charged (s.ctxs s.ioc) task) :
    ioComplete s p = .ok (completed s p task (update s.tasks p none) s.mem
      (.delete p :: callbacks s.ioc
        { s.ctxs s.ioc with numRunning := (s.ctxs s.ioc).numRunning - 1 } s.dataBufList)) := by
  have hfinish := finishOne_ok (s := polled s p) hcharged.running hcharged.running_lt
  have hself : ((finished (polled s p) s.ioc).ctxs s.ioc).totalNseg = (s.ctxs s.ioc).totalNseg := by
    unfold finished
    simp only [update_self]
    exact rfl
  have hrelease : releaseSegs (finished (polled s p) s.ioc) p =
      .ok (released (finished (polled s p) s.ioc) p task s.ioc) :=
    releaseSegs_ok htask hctx (by rw [hself]; exact hcharged.nseg)
      (by rw [hself]; exact hcharged.nseg_lt)
  rw [ioComplete_polled htask hctx hqueue, hcommand]
  simp only [hfinish, hrelease, ok_bind]
  rw [deleteTask_plain task.released (update_self _ _ _) hp hprimary rfl]
  unfold completed released finished polled
  simp only [update_idem, update_self, List.cons_append]

/-- The bytes a completion brings to the caller's memory. -/
def fillMem (s : Sys) (task : Task) : Except Fault (Nat → UInt8) :=
  match task.command with
  | .readCommand =>
    match task.fillCb with
    | none => .error .abort
    | some f => copyToBuf s.dma task.ioRequest.segs f.tmpOff f.tmpLen f.buf s.mem
  | _ => .ok s.mem

theorem runFillCb_eq (hcommand : task.command = .readCommand) :
    runFillCb s task = (do
      let mem ← fillMem s task
      .ok { s with mem := mem }) := by
  unfold runFillCb fillMem
  rw [hcommand]
  cases task.fillCb with
  | none => rfl
  | some f => rfl

theorem ioComplete_overrun {e : Fault} (htask : s.tasks p = some task)
    (hctx : task.ctx = some s.ioc) (hqueue : task.queue = true)
    (hcommand : task.command = .readCommand) (hfill : fillMem s task = .error e) :
    ioComplete s p = .error e := by
  have hfill' : fillMem (polled s p) task = .error e := hfill
  rw [ioComplete_polled htask hctx hqueue, hcommand]
  simp only [runFillCb_eq hcommand, hfill']
  exact rfl

def filled (s : Sys) (p : TaskPtr) (task : Task) (mem : Nat → UInt8) : Sys :=
  released { polled s p with mem := mem } p task s.ioc

theorem ioComplete_filled {mem : Nat → UInt8} (htask : s.tasks p = some task)
    (hctx : task.ctx = some s.ioc) (hqueue : task.queue = true)
    (hcommand : task.command = .readCommand)
    (hfill : fillMem s task = .ok mem)
    (hcharged : Charged (s.ctxs s.ioc) task) :
    ioComplete s p = if task.returnCode = 0 then do
        let s3 ← finishOne (filled s p task mem) s.ioc
        deleteTask s3 p
      else finishSync (filled s p task mem) p task.released s.ioc := by
  have hfill' : runFillCb (polled s p) task = .ok { polled s p with mem := mem } := by
    have hmem : fillMem (polled s p) task = .ok mem := hfill
    rw [runFillCb_eq hcommand]
    simp only [hmem, ok_bind]
  have hrelease : releaseSegs { polled s p with mem := mem } p =
      .ok (filled s p task mem) := releaseSegs_ok htask hctx hcharged.nseg hcharged.nseg_lt
  have hread : (filled s p task mem).task p = .ok task.released :=
    Sys.task_some (update_self _ _ _)
  rw [ioComplete_polled htask hctx hqueue, hcommand]
  simp only [hfill', hrelease, hread, ok_bind]
  exact rfl

theorem ioComplete_aioRead {mem : Nat → UInt8} (htask : s.tasks p = some task)
    (hctx : task.ctx = some s.ioc) (hqueue : task.queue = true)
    (hcommand : task.command = .readCommand) (hp : ∃ n, p = .heap n)
    (hprimary : task.primary = none) (hcode : task.returnCode = 0)
    (hfill : fillMem s task = .ok mem)
    (hcharged : Charged (s.ctxs s.ioc) task) :
    ioComplete s p = .ok (completed s p task (update s.tasks p none) mem
      (.delete p :: callbacks s.ioc { s.ctxs s.ioc with
        numRunning := (s.ctxs s.ioc).numRunning - 1
        totalNseg := (s.ctxs s.ioc).totalNseg - task.ioRequest.nseg }
        ((task.ioRequest.segs.take task.ioRequest.nseg).reverse ++ s.dataBufList))) := by
  have hself : ((filled s p task mem).ctxs s.ioc).numRunning = (s.ctxs s.ioc).numRunning := by
    unfold filled released
    simp only [update_self]
    exact rfl
  have hfinish : finishOne (filled s p task mem) s.ioc =
      .ok (finished (filled s p task mem) s.ioc) :=
    finishOne_ok (by rw [hself]; exact hcharged.running) (by rw [hself]; exact hcharged.running_lt)
  rw [ioComplete_filled htask hctx hqueue hcommand hfill hcharged, if_pos hcode]
  simp only [hfinish, ok_bind]
  rw [deleteTask_plain task.released (update_self _ _ _) hp hprimary rfl]
  unfold completed finished filled released polled
  simp only [update_idem, update_self, List.cons_append]

theorem finishSync_one (task : Task) (hprimary : task.primary = none) (h1 : 1 ≤ (s.ctxs c).numRunning)
    (hlt : (s.ctxs c).numRunning < 2 ^ 31) :
    finishSync s p task c = .ok { s with
      tasks := update s.tasks p (some { task with returnCode := 0 })
      ctxs := update s.ctxs c { s.ctxs c with numRunning := (s.ctxs c).numRunning - 1 } } := by
  have hdec : int32 ((s.ctxs c).numRunning - 1) = (s.ctxs c).numRunning - 1 :=
    int32_of_lt (by omega) (by omega)
  unfold finishSync
  split
  · next q hq =>
    rw [hprimary] at hq
    cases hq
  · change Except.ok (Sys.setCtx _ c { s.ctxs c with
      numRunning := int32 ((s.ctxs c).numRunning - 1) }) = _
    rw [hdec]
    exact rfl

theorem ioComplete_single {mem : Nat → UInt8} (htask : s.tasks p = some task)
    (hctx : task.ctx = some s.ioc) (hqueue : task.queue = true)
    (hcommand : task.command = .readCommand) (hprimary : task.primary = none)
    (hcode : task.returnCode ≠ 0) (hfill : fillMem s task = .ok mem)
    (hcharged : Charged (s.ctxs s.ioc) task) :
    ioComplete s p = .ok (completed s p task
      (update s.tasks p (some { task.released with returnCode := 0 })) mem []) := by
  have hself : ((filled s p task mem).ctxs s.ioc).numRunning = (s.ctxs s.ioc).numRunning := by
    unfold filled released
    simp only [update_self]
    exact rfl
  rw [ioComplete_filled htask hctx hqueue hcommand hfill hcharged, if_neg hcode,
    finishSync_one task.released hprimary (by rw [hself]; exact hcharged.running)
      (by rw [hself]; exact hcharged.running_lt)]
  unfold completed filled released polled
  simp only [update_idem, update_self, List.nil_append]

def Task.dropSub (prim : Task) : Task :=
  { prim with
    ref := prim.ref - 1
    returnCode := if prim.ref - 1 = 0 then 0 else prim.returnCode }

theorem finishSync_sub (task : Task) {q : TaskPtr} {prim : Task} (htask : s.tasks p = some task)
    (hp : ∃ n, p = .heap n) (hprimary : task.primary = some q) (hne : p ≠ q)
    (hprim : s.tasks q = some prim) (href : 1 ≤ prim.ref) (hreflt : prim.ref < 2 ^ 31)
    (hnseg : task.ioRequest.nseg = 0) (h1 : 1 ≤ (s.ctxs c).numRunning)
    (hlt : (s.ctxs c).numRunning < 2 ^ 31) :
    finishSync s p task c = .ok { s with
      tasks := update (update s.tasks q (some prim.dropSub)) p none
      ctxs := update s.ctxs c { s.ctxs c with numRunning := (s.ctxs c).numRunning - 1 }
      log := .delete p :: s.log } := by
  have hdec : int32 ((s.ctxs c).numRunning - 1) = (s.ctxs c).numRunning - 1 :=
    int32_of_lt (by omega) (by omega)
  have hdelete := deleteTask_sub task htask hp hprimary hprim href hreflt hnseg
  have hread : update (update s.tasks q (some { prim with ref := prim.ref - 1 })) p none q =
      some { prim with ref := prim.ref - 1 } := by
    rw [update_of_ne (Ne.symm hne), update_self]
  unfold finishSync
  split
  · next q' hq' =>
    obtain rfl : q = q' := Option.some.inj (hprimary.symm.trans hq')
    simp only [hdelete, ok_bind, Sys.task, hread]
    have hcode : (if prim.ref - 1 = 0 then
        some { prim with ref := prim.ref - 1, returnCode := 0 } else
        some { prim with ref := prim.ref - 1 }) = some prim.dropSub := by
      unfold Task.dropSub
      split <;> rfl
    by_cases h0 : prim.ref - 1 = 0
    · rw [if_pos h0] at hcode ⊢
      have hmerge : update (update (update s.tasks q (some { prim with ref := prim.ref - 1 })) p none)
          q (some prim.dropSub) = update (update s.tasks q (some prim.dropSub)) p none := by
        rw [update_comm hne, update_idem]
      change Except.ok { s with
        tasks := update (update (update s.tasks q (some { prim with ref := prim.ref - 1 })) p none)
          q (some { prim with ref := prim.ref - 1, returnCode := 0 })
        ctxs := update s.ctxs c
          { s.ctxs c with numRunning := int32 ((s.ctxs c).numRunning - 1) }
        log := .delete p :: s.log } = _
      rw [hdec, hcode, hmerge]
    · rw [if_neg h0] at hcode ⊢
      change Except.ok (Sys.setCtx _ c { s.ctxs c with
        numRunning := int32 ((s.ctxs c).numRunning - 1) }) = _
      rw [hdec, ← hcode]
      exact rfl
  · next hnone =>
    rw [hprimary] at hnone
    cases hnone

theorem ioComplete_sub {mem : Nat → UInt8} {q : TaskPtr} {prim : Task}
    (htask : s.tasks p = some task) (hctx : task.ctx = some s.ioc) (hqueue : task.queue = true)
    (hcommand : task.command = .readCommand) (hp : ∃ n, p = .heap n)
    (hprimary : task.primary = some q) (hne : p ≠ q) (hcode : task.returnCode ≠ 0)
    (hprim : s.tasks q = some prim) (href : 1 ≤ prim.ref) (hreflt : prim.ref < 2 ^ 31)
    (hfill : fillMem s task = .ok mem)
    (hcharged : Charged (s.ctxs s.ioc) task) :
    ioComplete s p = .ok (completed s p task
      (update (update s.tasks q (some prim.dropSub)) p none) mem [.delete p]) := by
  have hself : ((filled s p task mem).ctxs s.ioc).numRunning = (s.ctxs s.ioc).numRunning := by
    unfold filled released
    simp only [update_self]
    exact rfl
  have hprim' : (filled s p task mem).tasks q = some prim :=
    (update_of_ne (Ne.symm hne) _ _).trans hprim
  rw [ioComplete_filled htask hctx hqueue hcommand hfill hcharged, if_neg hcode,
    finishSync_sub task.released (update_self _ _ _) hp hprimary hne hprim' href hreflt rfl
      (by rw [hself]; exact hcharged.running) (by rw [hself]; exact hcharged.running_lt)]
  have hmerge : update (update (update s.tasks p (some task.released)) q (some prim.dropSub)) p none =
      update (update s.tasks q (some prim.dropSub)) p none := by
    rw [update_comm hne, update_idem]
  unfold completed filled released polled
  simp only [update_idem, update_self, hmerge]
  exact rfl

end

end LockdepSpdk.Blk
