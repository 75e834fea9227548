import LockdepSpdk.Lib.Int32
import Mathlib.Logic.Function.Basic
import Mathlib.Tactic.Simps.Basic

/-!
# Tasks and I/O contexts

The objects of the SPDK block device: tasks on the heap and on the stack, the
intrusive list of an `IOContext`, the DMA segments of a request. Of the device
only what its functions read is kept; what is printed is left out.
-/

namespace LockdepSpdk.Blk

set_option autoImplicit false

open Function

def dataBufferDefaultNum : Nat := 1024

def dataBufferSize : Nat := 8192

def inlineSegmentNum : Nat := 32

def splitSize : Nat := 131072

/-- Why the program does not go on: an assert or `abort()`, a read or write outside the object a
pointer belongs to, an endless loop, or a label that cannot be taken. -/
inductive Fault where
  | abort
  | overrun
  | hang
  | disabled
  deriving DecidableEq, Repr

inductive IOCommand where
  | readCommand
  | writeCommand
  | flushCommand
  deriving DecidableEq, Repr

/-- The address of a `Task`: from `new`, or a local of `read` and `read_random`. -/
inductive TaskPtr where
  | heap (n : Nat)
  | stack (n : Nat)
  deriving DecidableEq, Repr

/-- The address of an `IOContext`: the caller's, or a local of a synchronous call. -/
inductive CtxPtr where
  | user (n : Nat)
  | stack (n : Nat)
  deriving DecidableEq, Repr

/-- A segment is the number of its DMA buffer; the arrays hold the entries in use. -/
structure IORequest where
  curSegIdx : Nat
  nseg : Nat
  curSegLeft : Nat
  inlineSegs : List Nat
  extraSegs : Option (List Nat)

def IORequest.zero : IORequest := ⟨0, 0, 0, [], none⟩

def IORequest.segs (r : IORequest) : List Nat := r.extraSegs.getD r.inlineSegs

/-- What the lambda in `fill_cb` captures, besides its task. -/
structure FillCb where
  buf : Nat
  tmpOff : Nat
  tmpLen : Nat
  deriving DecidableEq, Repr

structure Task where
  ctx : Option CtxPtr
  command : IOCommand
  offset : Nat
  len : Nat
  buf : Nat
  fillCb : Option FillCb
  next : Option TaskPtr
  returnCode : Int
  primary : Option TaskPtr
  ioRequest : IORequest
  /-- `queue` points to the queue of the thread. -/
  queue : Bool
  ref : Int

def Task.new (command : IOCommand) (off len : Nat) (rc : Int) : Task where
  ctx := none
  command := command
  offset := off
  len := len
  buf := 0
  fillCb := none
  next := none
  returnCode := rc
  primary := none
  ioRequest := .zero
  queue := false
  ref := 0

structure IOContext where
  priv : Option Nat
  nvmeTaskFirst : Option TaskPtr
  nvmeTaskLast : Option TaskPtr
  totalNseg : Int
  numPending : Int
  numRunning : Int

def IOContext.new (priv : Option Nat) : IOContext := ⟨priv, none, none, 0, 0, 0⟩

/-- What SPDK is asked to move: the blocks, and the pieces the SGL callbacks named. -/
structure Sge where
  seg : Nat
  off : Nat
  len : Nat
  deriving DecidableEq, Repr

structure Command where
  task : TaskPtr
  write : Bool
  lbaOff : Nat
  lbaCount : Nat
  sgl : List Sge
  moved : Bool

/-- Nothing in the program reads these; the newest event is the first of a log. -/
inductive Event where
  | append (c : CtxPtr) (p : TaskPtr)
  | take (c : CtxPtr) (n : Int)
  | submit (c : CtxPtr) (p : TaskPtr)
  | complete (c : CtxPtr) (p : TaskPtr)
  | delete (p : TaskPtr)
  /-- `aio_callback`, with the context and the pool as it finds them. -/
  | callback (c : CtxPtr) (ctx : IOContext) (pool : List Nat)

/-- Where the thread is in `_aio_handle`. -/
inductive Pc where
  | idle
  | test
  | again
  | polling
  | loop
  deriving DecidableEq, Repr

/-- One thread with its queue, the device and the memory it works on. -/
structure Sys where
  disk : Nat → UInt8
  mem : Nat → UInt8
  dma : Nat → Nat → UInt8
  tasks : TaskPtr → Option Task
  ctxs : CtxPtr → IOContext
  fresh : Nat
  dataBufList : List Nat
  currentQueueDepth : Nat
  inflight : List Command
  pc : Pc
  t : Option TaskPtr
  ioc : CtxPtr
  /-- The stack task of the synchronous read in progress. -/
  frame : Option TaskPtr
  ret : Int
  log : List Event

namespace Sys

def task (s : Sys) (p : TaskPtr) : Except Fault Task :=
  match s.tasks p with
  | some task => .ok task
  | none => .error .overrun

@[simps]
def setTask (s : Sys) (p : TaskPtr) (task : Task) : Sys :=
  { s with tasks := update s.tasks p (some task) }

@[simps]
def setCtx (s : Sys) (c : CtxPtr) (ctx : IOContext) : Sys :=
  { s with ctxs := update s.ctxs c ctx }

@[simps]
def record (s : Sys) (e : Event) : Sys := { s with log := e :: s.log }

theorem task_some {s : Sys} {p : TaskPtr} {task : Task} (h : s.tasks p = some task) :
    s.task p = .ok task := by
  unfold Sys.task
  rw [h]

end Sys

/-- `new Task(dev, c, off, l, rc, primary)`, for `l`, `rc` and `primary` as the callers pass them. -/
def newTask (s : Sys) (command : IOCommand) (off len : Nat) (primary : Option TaskPtr) :
    Except Fault (TaskPtr × Sys) :=
  let p := TaskPtr.heap s.fresh
  let s1 := { s with fresh := s.fresh + 1 }
  match primary with
  | none => .ok (p, s1.setTask p (Task.new command off len 0))
  | some q => do
    let prim ← s.task q
    .ok (p, (s1.setTask q { prim with ref := int32 (prim.ref + 1) }).setTask p
      { Task.new command off len prim.returnCode with primary := some q })

/-- `delete` runs `~Task`, which wants the segments released. -/
def deleteTask (s : Sys) (p : TaskPtr) : Except Fault Sys :=
  match p with
  | .stack _ => .error .overrun
  | .heap _ => do
    let task ← s.task p
    let s1 ← match task.primary with
      | none => .ok s
      | some q => do
        let prim ← s.task q
        .ok (s.setTask q { prim with ref := int32 (prim.ref - 1) })
    if task.ioRequest.nseg ≠ 0 then .error .abort
    else .ok ({ s1 with tasks := update s1.tasks p none }.record (.delete p))

def linkLast (s : Sys) (last : Option TaskPtr) (p : TaskPtr) : Except Fault Sys :=
  match last with
  | none => .ok s
  | some q => do
    let task ← s.task q
    .ok (s.setTask q { task with next := some p })

def iocAppendTask (s : Sys) (c : CtxPtr) (p : TaskPtr) : Except Fault Sys := do
  let ctx := s.ctxs c
  let s1 ← linkLast s ctx.nvmeTaskLast p
  .ok ((s1.setCtx c { ctx with
    nvmeTaskFirst := ctx.nvmeTaskFirst.orElse fun _ => some p
    nvmeTaskLast := some p
    numPending := int32 (ctx.numPending + 1) }).record (.append c p))

/-- The segments of a task go back to the pool, one at a time to its front. -/
def releaseSegs (s : Sys) (p : TaskPtr) : Except Fault Sys := do
  let task ← s.task p
  match task.ctx with
  | none => .error .overrun
  | some c =>
    let r := task.ioRequest
    let ctx := s.ctxs c
    .ok (({ s with dataBufList := (r.segs.take r.nseg).reverse ++ s.dataBufList }.setCtx c
      { ctx with totalNseg := int32 (ctx.totalNseg - r.nseg) }).setTask p
        { task with ioRequest := { r with nseg := 0 } })

end LockdepSpdk.Blk
