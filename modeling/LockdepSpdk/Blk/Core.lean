import LockdepSpdk.Blk.Device
import LockdepSpdk.Lib.Chain
import Mathlib.Data.List.Perm.Basic

/-!
# The invariant of the device

`pend` are the chains of the contexts, `rest` is what the current submission has
not handed to SPDK yet, and the tasks of the commands in flight come before it.
-/

namespace LockdepSpdk.Blk

set_option autoImplicit false

open Function Linked

variable {tasks tasks' : TaskPtr → Option Task}

def nextOf (tasks : TaskPtr → Option Task) (p : TaskPtr) : Option TaskPtr :=
  (tasks p).bind Task.next

/-- The intrusive list of a context is `l`. -/
structure Pending (tasks : TaskPtr → Option Task) (ctx : IOContext) (l : List TaskPtr) : Prop where
  chain : Chain (nextOf tasks) ctx.nvmeTaskFirst l
  last : ctx.nvmeTaskLast = l.getLast?
  count : ctx.numPending = l.length

/-- What a read copies is in its payload, from the first segment on. -/
def Task.Fills (task : Task) : Prop :=
  task.command = .readCommand → ∃ f, task.fillCb = some f ∧ f.tmpOff ≤ dataBufferSize ∧
    f.tmpOff + f.tmpLen ≤ task.len

/-- A task of a synchronous read with the primary `q` is `q` itself or a subtask of it. -/
def Kind (frame : Option TaskPtr) (p : TaskPtr) (task : Task) : Prop :=
  match frame with
  | none => task.primary = none ∧ task.returnCode = 0 ∧ ∃ n, p = .heap n
  | some q => task.command = .readCommand ∧ task.returnCode = 1 ∧
      ((p = q ∧ task.primary = none) ∨ (p ≠ q ∧ task.primary = some q ∧ ∃ n, p = .heap n))

structure Ready (frame : Option TaskPtr) (c : CtxPtr) (p : TaskPtr) (task : Task) : Prop where
  ctx : task.ctx = some c
  pos : 0 < task.len
  le : task.len ≤ splitSize
  command : task.command ≠ .flushCommand
  request : task.ioRequest = .zero
  kind : Kind frame p task
  fills : frame = none → task.Fills

/-- The task of a command in flight. -/
structure Sent (cfg : Config) (frame : Option TaskPtr) (c : CtxPtr) (cmd : Command) (task : Task) :
    Prop where
  ctx : task.ctx = some c
  pos : 0 < task.len
  le : task.len ≤ splitSize
  command : task.command ≠ .flushCommand
  queue : task.queue = true
  nseg : task.ioRequest.nseg = segCount task.len
  segs : task.ioRequest.segs.length = segCount task.len
  kind : Kind frame cmd.task task
  fills : frame = none → task.Fills
  write : cmd.write = decide (task.command = .writeCommand)
  extent : (cmd.lbaOff, cmd.lbaCount) = extent cfg.blockSize task.offset task.len
  sgl : cmd.sgl = pieces task.ioRequest.segs task.len

/-- The primary of a synchronous read, while the tasks `live` are not completed. -/
structure Primary (q : TaskPtr) (live : List TaskPtr) (code : Int) (prim : Task) : Prop where
  ref : prim.ref = (live.filter (· ≠ q)).length
  code : prim.returnCode = code
  alone : q ∈ live → live = [q]
  released : q ∉ live → prim.ioRequest.nseg = 0

def flight (inflight : List Command) : List TaskPtr := inflight.map Command.task

def segsHeld (tasks : TaskPtr → Option Task) (p : TaskPtr) : List Nat :=
  match tasks p with
  | none => []
  | some task => task.ioRequest.segs.take task.ioRequest.nseg

def heldSegs (tasks : TaskPtr → Option Task) (inflight : List Command) : List Nat :=
  inflight.flatMap fun c => segsHeld tasks c.task

structure Core (cfg : Config) (pend : CtxPtr → List TaskPtr) (rest : List TaskPtr) (s : Sys) :
    Prop where
  pending : ∀ c, Pending s.tasks (s.ctxs c) (pend c)
  waits : ∀ c, ∀ p ∈ pend c, ∃ task, s.tasks p = some task ∧ Ready none c p task
  local_empty : ∀ n, pend (.stack n) = []
  rest_chain : Chain (nextOf s.tasks) s.t rest
  rest_ready : ∀ p ∈ rest, ∃ task, s.tasks p = some task ∧ Ready s.frame s.ioc p task
  sent : ∀ cmd ∈ s.inflight, ∃ task, s.tasks cmd.task = some task ∧
    Sent cfg s.frame s.ioc cmd task
  nodup : (flight s.inflight ++ rest).Nodup
  running : ∀ c, (s.ctxs c).numRunning =
    if c = s.ioc then ((flight s.inflight ++ rest).length : Int) else 0
  nseg : ∀ c, (s.ctxs c).totalNseg =
    if c = s.ioc then ((heldSegs s.tasks s.inflight).length : Int) else 0
  pool : (s.dataBufList ++ heldSegs s.tasks s.inflight).Perm (List.range dataBufferDefaultNum)
  depth : s.currentQueueDepth = s.inflight.length
  depth_le : s.inflight.length ≤ cfg.maxQueueDepth
  frame : ∀ q, s.frame = some q → (∃ n, q = .stack n) ∧
    ∃ prim, s.tasks q = some prim ∧ Primary q (flight s.inflight ++ rest)
      (if flight s.inflight ++ rest = [] then 0 else 1) prim
  fresh : ∀ n, s.fresh ≤ n → s.tasks (.heap n) = none ∧ s.tasks (.stack n) = none
  taken : s.pc ≠ .idle → pend s.ioc = []
  idle : s.pc = .idle → s.inflight = [] ∧ rest = [] ∧ s.frame = none
  small : (flight s.inflight ++ rest).length < 2 ^ 31

namespace Core
variable {cfg : Config} {pend : CtxPtr → List TaskPtr} {rest : List TaskPtr} {s : Sys}

theorem held_le (h : Core cfg pend rest s) :
    s.dataBufList.length + (heldSegs s.tasks s.inflight).length = dataBufferDefaultNum := by
  have hlen := h.pool.length_eq
  rwa [List.length_append, List.length_range] at hlen

theorem not_taken (h : Core cfg pend rest s) {c : CtxPtr} {p : TaskPtr} (hp : p ∈ pend c) :
    p ∉ flight s.inflight ++ rest := by
  intro hlive
  have hpc : s.pc ≠ .idle := by
    intro hidle
    obtain ⟨hin, hrest, _⟩ := h.idle hidle
    simp [flight, hin, hrest] at hlive
  obtain ⟨task, htask, hready⟩ := h.waits c p hp
  have hctx : task.ctx = some s.ioc := by
    rcases List.mem_append.mp hlive with hin | hin
    · obtain ⟨cmd, hcmd, hcp⟩ := List.mem_map.mp hin
      obtain ⟨task', htask', hsent⟩ := h.sent cmd hcmd
      rw [hcp, htask] at htask'
      obtain rfl := Option.some.inj htask'
      exact hsent.ctx
    · obtain ⟨task', htask', hready'⟩ := h.rest_ready p hin
      rw [htask] at htask'
      obtain rfl := Option.some.inj htask'
      exact hready'.ctx
  rw [hready.ctx] at hctx
  obtain rfl := Option.some.inj hctx
  rw [h.taken hpc] at hp
  cases hp

theorem frame_not_pend (h : Core cfg pend rest s) {q : TaskPtr} (hq : s.frame = some q)
    (c : CtxPtr) : q ∉ pend c := by
  intro hp
  obtain ⟨⟨n, hn⟩, _⟩ := h.frame q hq
  obtain ⟨task, _, hready⟩ := h.waits c q hp
  obtain ⟨_, _, m, hm⟩ := hready.kind
  rw [hn] at hm
  cases hm

theorem setPc (h : Core cfg pend rest s) {pc : Pc} (hpc : s.pc ≠ .idle) (hpc' : pc ≠ .idle) :
    Core cfg pend rest { s with pc := pc } :=
  { h with
    taken := fun _ => h.taken hpc
    idle := fun heq => absurd heq hpc' }

end Core

theorem segsHeld_of {p : TaskPtr} {task : Task} (h : tasks p = some task) :
    segsHeld tasks p = task.ioRequest.segs.take task.ioRequest.nseg := by
  unfold segsHeld
  rw [h]

theorem segsHeld_congr {p : TaskPtr} (h : tasks' p = tasks p) :
    segsHeld tasks' p = segsHeld tasks p := by
  unfold segsHeld
  rw [h]

theorem heldSegs_congr {inflight : List Command}
    (h : ∀ c ∈ inflight, tasks' c.task = tasks c.task) :
    heldSegs tasks' inflight = heldSegs tasks inflight := by
  unfold heldSegs
  induction inflight with
  | nil => rfl
  | cons c l ih =>
    rw [List.flatMap_cons, List.flatMap_cons, segsHeld_congr (h c List.mem_cons_self),
      ih fun c' hc' => h c' (List.mem_cons_of_mem c hc')]

theorem update_unused {p q : TaskPtr} {task : Task} {x : Option Task} (htask : tasks p = some task)
    (hnone : tasks q = none) : update tasks p x q = none := by
  refine (update_of_ne ?_ _ _).trans hnone
  intro heq
  rw [heq, htask] at hnone
  cases hnone

theorem nextOf_congr {p : TaskPtr} (h : tasks' p = tasks p) : nextOf tasks' p = nextOf tasks p := by
  unfold nextOf
  rw [h]

theorem nextOf_update {p : TaskPtr} {task task' : Task} (h : tasks p = some task)
    (hnext : task'.next = task.next) : nextOf (update tasks p (some task')) = nextOf tasks := by
  funext q
  unfold nextOf
  by_cases hq : q = p
  · subst hq
    rw [update_self, h]
    exact hnext
  · rw [update_of_ne hq]

theorem Pending.congr {ctx ctx' : IOContext} {l : List TaskPtr} (h : Pending tasks ctx l)
    (hnext : ∀ p ∈ l, nextOf tasks' p = nextOf tasks p)
    (hfirst : ctx'.nvmeTaskFirst = ctx.nvmeTaskFirst)
    (hlast : ctx'.nvmeTaskLast = ctx.nvmeTaskLast) (hcount : ctx'.numPending = ctx.numPending) :
    Pending tasks' ctx' l :=
  ⟨hfirst ▸ h.chain.congr hnext, hlast.trans h.last, hcount.trans h.count⟩

theorem segCount_pos {len : Nat} (h : 0 < len) : 0 < segCount len := by
  unfold segCount dataBufferSize
  split <;> omega

theorem segCount_le {len : Nat} (h : len ≤ splitSize) : segCount len ≤ 16 := by
  unfold segCount dataBufferSize
  unfold splitSize at h
  split <;> omega

theorem le_segCount (len : Nat) : len ≤ segCount len * dataBufferSize := by
  unfold segCount dataBufferSize
  split <;> omega

theorem segCount_lt (len : Nat) :
    segCount len * dataBufferSize < len + dataBufferSize := by
  unfold segCount dataBufferSize
  split <;> omega

end LockdepSpdk.Blk
