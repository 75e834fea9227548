import LockdepSpdk.Blk.Sgl
import LockdepSpdk.Blk.Split
import LockdepSpdk.Lib.Transition

/-!
# The device

The calls of `NVMEDevice` up to `_aio_handle`, its polling loop one turn at a
time, and `io_complete`. SPDK is the environment: between submission and
completion it moves the bytes of a command, in any order, and while it is polled
it delivers completions of moved commands, in any order.
-/

namespace LockdepSpdk.Blk

set_option autoImplicit false

open Function ByteRange

/-! Making tasks. -/

def addWriteChunk (ioc : CtxPtr) (s : Sys) (c : WriteChunk) : Except Fault Sys := do
  let (t, s1) ← newTask s .writeCommand c.off c.len none
  let task ← s1.task t
  iocAppendTask (s1.setTask t { task with buf := c.buf, ctx := some ioc }) ioc t

def writeSplit (s : Sys) (off len buf : Nat) (ioc : CtxPtr) : Except Fault Sys :=
  (writeChunks off len buf).foldlM (addWriteChunk ioc) s

/-- `primary && aligned_len <= split_size`: then the primary is the task. -/
def chunkTask (s : Sys) (alignedLen : Nat) (primary : Option TaskPtr) (c : ReadChunk) :
    Except Fault (TaskPtr × Sys) :=
  match primary with
  | some q =>
    if alignedLen ≤ splitSize then .ok (q, s) else newTask s .readCommand c.off c.len (some q)
  | none => newTask s .readCommand c.off c.len none

def addReadChunk (ioc : CtxPtr) (alignedLen : Nat) (primary : Option TaskPtr) (s : Sys)
    (c : ReadChunk) : Except Fault Sys := do
  let (t, s1) ← chunkTask s alignedLen primary c
  let task ← s1.task t
  iocAppendTask (s1.setTask t { task with ctx := some ioc, fillCb := some c.fill }) ioc t

def makeReadTasks (s : Sys) (alignedOff : Nat) (ioc : CtxPtr) (buf alignedLen : Nat)
    (primary : Option TaskPtr) (origOff origLen : Nat) : Except Fault Sys :=
  match readChunks alignedOff buf alignedLen origOff origLen with
  | none => .error .hang
  | some cs => cs.foldlM (addReadChunk ioc alignedLen primary) s

/-! Submission. -/

def segCount (len : Nat) : Nat :=
  len / dataBufferSize + if len % dataBufferSize = 0 then 0 else 1

/-- `none` is `-ENOMEM`. -/
def allocBufFromPool (s : Sys) (p : TaskPtr) (task : Task) (write : Bool) :
    Except Fault (Option Sys) :=
  let count := segCount task.len
  if s.dataBufList.length < count then .ok none
  else
    match task.ctx with
    | none => .error .overrun
    | some c =>
      let segs := s.dataBufList.take count
      let r := task.ioRequest
      let r' := if count ≤ inlineSegmentNum then { r with inlineSegs := segs, nseg := count }
        else { r with extraSegs := some segs, nseg := count }
      let ctx := s.ctxs c
      .ok (some (({ s with
        dataBufList := s.dataBufList.drop count
        dma := if write then loadSegs s.mem segs task.buf task.len s.dma else s.dma }.setCtx c
          { ctx with totalNseg := int32 (ctx.totalNseg + count) }).setTask p
            { task with ioRequest := r' }))

/-- `spdk_nvme_ns_cmd_writev` and `readv` take the command and walk its SGL. -/
def sendCommand (cfg : Config) (s : Sys) (p : TaskPtr) (write : Bool) : Except Fault Sys := do
  let task ← s.task p
  let (sgl, task') ← enumerateSgl task
  let (lbaOff, lbaCount) := extent cfg.blockSize task.offset task.len
  .ok { s.setTask p task' with inflight := s.inflight ++ [⟨p, write, lbaOff, lbaCount, sgl, false⟩] }

def sendFlush (s : Sys) (p : TaskPtr) : Sys :=
  { s with inflight := s.inflight ++ [⟨p, false, 0, 0, [], false⟩] }

def submitted (s : Sys) (p : TaskPtr) : Except Fault Sys := do
  let task ← s.task p
  match task.ctx with
  | none => .error .overrun
  | some c =>
    .ok ({ s with currentQueueDepth := s.currentQueueDepth + 1, t := task.next }.record
      (.submit c p))

def Task.queued (task : Task) : Task := { task with queue := true }

/-- The write and the read case of the switch; `goto again` when there is no memory. -/
def sendData (cfg : Config) (s : Sys) (p : TaskPtr) (task : Task) (write : Bool) :
    Except Fault Sys :=
  match allocBufFromPool s p task write with
  | .error e => .error e
  | .ok none => .ok { s with pc := .again }
  | .ok (some s1) => do
    let s2 ← sendCommand cfg s1 p write
    submitted s2 p

/-- A turn of the `for` loop on task `p`; `goto again` when there is no slot. -/
def submit (cfg : Config) (s : Sys) (p : TaskPtr) : Except Fault Sys :=
  if s.currentQueueDepth = cfg.maxQueueDepth then .ok { s with pc := .again }
  else do
    let task ← s.task p
    let s0 := s.setTask p task.queued
    match task.command with
    | .writeCommand => sendData cfg s0 p task.queued true
    | .readCommand => sendData cfg s0 p task.queued false
    | .flushCommand => submitted (sendFlush s0 p) p

/-! Completion. -/

/-- One running task less; the last one calls back, or wakes whoever waits. -/
def finishOne (s : Sys) (c : CtxPtr) : Except Fault Sys :=
  let ctx := s.ctxs c
  let ctx' := { ctx with numRunning := int32 (ctx.numRunning - 1) }
  match ctx.priv with
  | some _ =>
    let s' := s.setCtx c ctx'
    if ctx'.numRunning = 0 then .ok (s'.record (.callback c ctx' s.dataBufList)) else .ok s'
  | none => if ctx.numRunning < 1 then .error .abort else .ok (s.setCtx c ctx')

def runFillCb (s : Sys) (task : Task) : Except Fault Sys :=
  match task.fillCb with
  | none => .error .abort
  | some f => do
    let mem ← copyToBuf s.dma task.ioRequest.segs f.tmpOff f.tmpLen f.buf s.mem
    .ok { s with mem := mem }

/-- The end of a read that `read` or `read_random` waits for. -/
def finishSync (s : Sys) (p : TaskPtr) (task : Task) (c : CtxPtr) : Except Fault Sys := do
  let s1 ← match task.primary with
    | some q => do
      let s1 ← deleteTask s p
      let prim ← s1.task q
      .ok (if prim.ref = 0 then s1.setTask q { prim with returnCode := 0 } else s1)
    | none => .ok (s.setTask p { task with returnCode := 0 })
  let ctx := s1.ctxs c
  .ok (s1.setCtx c { ctx with numRunning := int32 (ctx.numRunning - 1) })

def ioComplete (s : Sys) (p : TaskPtr) : Except Fault Sys := do
  let task ← s.task p
  match task.ctx with
  | none => .error .abort
  | some c =>
    if task.queue = false then .error .abort
    else do
      let s := { s with currentQueueDepth := s.currentQueueDepth - 1 }.record (.complete c p)
      match task.command with
      | .writeCommand => do
        let s1 ← finishOne s c
        let s2 ← releaseSegs s1 p
        deleteTask s2 p
      | .readCommand => do
        let s1 ← runFillCb s task
        let s2 ← releaseSegs s1 p
        let task ← s2.task p
        if task.returnCode = 0 then do
          let s3 ← finishOne s2 c
          deleteTask s3 p
        else finishSync s2 p task c
      | .flushCommand => .ok (s.setTask p { task with returnCode := 0 })

/-! The calls. -/

/-- The call in progress is over: `t.return_code`, or 0 from `write`. -/
def returnCall (s : Sys) : Except Fault Sys :=
  match s.frame with
  | none => .ok { s with pc := .idle, ret := 0 }
  | some q => do
    let task ← s.task q
    if task.ioRequest.nseg ≠ 0 then .error .abort
    else .ok { s with
      pc := .idle
      ret := task.returnCode
      frame := none
      tasks := update s.tasks q none }

def aioSubmit (s : Sys) (ioc : CtxPtr) : Except Fault Sys :=
  let ctx := s.ctxs ioc
  let pending := ctx.numPending
  if pending ≠ 0 ∧ ctx.nvmeTaskFirst ≠ none then
    if int32 (ctx.numPending - pending) ≠ 0 then .error .abort
    else .ok (({ s with pc := .test, t := ctx.nvmeTaskFirst, ioc := ioc }.setCtx ioc { ctx with
      numRunning := int32 (ctx.numRunning + pending)
      numPending := int32 (ctx.numPending - pending)
      nvmeTaskFirst := none
      nvmeTaskLast := none }).record (.take ioc pending))
  else returnCall s

def isValidIo (cfg : Config) (off len : Nat) : Bool :=
  off % cfg.blockSize == 0 && len % cfg.blockSize == 0 && decide (0 < len) &&
    decide (off < cfg.size) && decide (add64 off len ≤ cfg.size)

def openContext (s : Sys) : CtxPtr × Sys :=
  let c := CtxPtr.stack s.fresh
  (c, { s with fresh := s.fresh + 1 }.setCtx c (IOContext.new none))

def openFrame (s : Sys) (off len : Nat) : TaskPtr × Sys :=
  let q := TaskPtr.stack s.fresh
  (q, { s with fresh := s.fresh + 1, frame := some q }.setTask q (Task.new .readCommand off len 1))

/-- `read` and `read_random` from their tasks on. -/
def readSync (s : Sys) (alignedOff alignedLen buf origOff origLen : Nat) : Except Fault Sys := do
  let (q, s1) := openFrame s alignedOff alignedLen
  let (c, s2) := openContext s1
  let s3 ← makeReadTasks s2 alignedOff c buf alignedLen (some q) origOff origLen
  aioSubmit s3 c

def read (cfg : Config) (s : Sys) (off len buf : Nat) : Except Fault Sys :=
  if isValidIo cfg off len then readSync s off len buf off len else .error .abort

def readRandom (cfg : Config) (s : Sys) (off len buf : Nat) : Except Fault Sys :=
  if 0 < len ∧ off < cfg.size ∧ add64 off len ≤ cfg.size then
    let alignedOff := p2align off cfg.blockSize
    let alignedLen := sub64 (p2roundup (add64 off len) cfg.blockSize) alignedOff
    readSync s alignedOff alignedLen buf off len
  else .error .abort

def write (cfg : Config) (s : Sys) (off len buf : Nat) : Except Fault Sys :=
  if isValidIo cfg off len then do
    let (c, s1) := openContext s
    let s2 ← writeSplit s1 off len buf c
    aioSubmit s2 c
  else .error .abort

def aioRead (cfg : Config) (s : Sys) (off len buf : Nat) (ioc : CtxPtr) : Except Fault Sys :=
  if isValidIo cfg off len then do
    let s1 ← makeReadTasks s off ioc buf len none off len
    .ok { s1 with ret := 0 }
  else .error .abort

def aioWrite (cfg : Config) (s : Sys) (off len buf : Nat) (ioc : CtxPtr) : Except Fault Sys :=
  if isValidIo cfg off len then do
    let s1 ← writeSplit s off len buf ioc
    .ok { s1 with ret := 0 }
  else .error .abort

inductive Call where
  | read (off len buf : Nat)
  | readRandom (off len buf : Nat)
  | write (off len buf : Nat)
  | aioRead (off len buf : Nat) (ioc : Nat)
  | aioWrite (off len buf : Nat) (ioc : Nat)
  | aioSubmit (ioc : Nat)

def Call.exec (cfg : Config) (s : Sys) : Call → Except Fault Sys
  | .read off len buf => Blk.read cfg s off len buf
  | .readRandom off len buf => Blk.readRandom cfg s off len buf
  | .write off len buf => Blk.write cfg s off len buf
  | .aioRead off len buf ioc => Blk.aioRead cfg s off len buf (.user ioc)
  | .aioWrite off len buf ioc => Blk.aioWrite cfg s off len buf (.user ioc)
  | .aioSubmit ioc => Blk.aioSubmit s (.user ioc)

/-! Steps. -/

def move (cfg : Config) (s : Sys) (c : Command) : Sys :=
  let a := c.lbaOff * cfg.blockSize
  let n := c.lbaCount * cfg.blockSize
  if c.write then { s with disk := blit s.disk a (min (sglLen c.sgl) n) (gather s.dma c.sgl) }
  else { s with dma := scatter c.sgl (fun j => s.disk (a + j)) n s.dma }

/-- The caller starts a call or, between two calls, writes to its memory; the thread takes its next
step; SPDK moves a command, or delivers its completion. -/
inductive Label where
  | call (c : Call)
  | store (a : Nat) (v : UInt8)
  | tick
  | transfer (i : Nat)
  | complete (i : Nat)

/-- The next step of the thread itself. While it polls, that is the return to `_aio_handle`. -/
def tick (cfg : Config) (s : Sys) : Except Fault Sys :=
  match s.pc with
  | .idle => .error .disabled
  | .test =>
    if (s.ctxs s.ioc).numRunning = 0 then returnCall s else .ok { s with pc := .again }
  | .again => .ok { s with pc := if s.currentQueueDepth = 0 then .loop else .polling }
  | .polling => .ok { s with pc := .loop }
  | .loop =>
    match s.t with
    | none => .ok { s with pc := .test }
    | some p => submit cfg s p

def Label.exec (cfg : Config) (s : Sys) : Label → Except Fault Sys
  | .call c => if s.pc = .idle then c.exec cfg s else .error .disabled
  | .store a v => if s.pc = .idle then .ok { s with mem := update s.mem a v } else .error .disabled
  | .tick => Blk.tick cfg s
  | .transfer i =>
    match s.inflight[i]? with
    | none => .error .disabled
    | some c =>
      if c.moved then .error .disabled
      else .ok (move cfg { s with inflight := s.inflight.set i { c with moved := true } } c)
  | .complete i =>
    match s.inflight[i]? with
    | none => .error .disabled
    | some c =>
      if s.pc = .polling ∧ c.moved = true then
        ioComplete { s with inflight := s.inflight.eraseIdx i } c.task
      else .error .disabled

def Step (cfg : Config) (s : Sys) (l : Label) (s' : Sys) : Prop := l.exec cfg s = .ok s'

/-- The queue as its constructor leaves it, a device and a memory with any contents, and contexts
that have seen no I/O. -/
structure Initial (s : Sys) : Prop where
  tasks : ∀ p, s.tasks p = none
  ctxs : ∀ c, s.ctxs c = IOContext.new (s.ctxs c).priv
  pool : s.dataBufList = (List.range dataBufferDefaultNum).reverse
  depth : s.currentQueueDepth = 0
  inflight : s.inflight = []
  pc : s.pc = .idle
  t : s.t = none
  frame : s.frame = none
  log : s.log = []

end LockdepSpdk.Blk
