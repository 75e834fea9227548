import LockdepSpdk.Lib.Transition
import LockdepSpdk.Nvme.CoreMask
import Mathlib.Algebra.Group.Nat.Defs
import Mathlib.Logic.Function.Basic

/-!
# The NVMe manager

`NVMEManager::try_get` with the thread that probes for it. A call holds `lock` from
the look-up to its return; in between its `ProbeContext` goes through `probe_queue`.
SPDK is a parameter: what a probe comes to is an input of the step.
-/

namespace LockdepSpdk.Nvme

set_option autoImplicit false

open Function

/-- What the manager uses of SPDK. -/
structure Spdk (Trid Ctrlr Ns : Type) where
  /-- `trtype` is `SPDK_NVME_TRANSPORT_PCIE`. -/
  pcie : Trid → Bool
  /-- `spdk_pci_addr_parse` takes the `traddr`. -/
  pciAddr : Trid → Bool
  /-- `spdk_nvme_transport_id_compare` gives 0. -/
  same : Trid → Trid → Bool
  same_refl : ∀ a, same a a = true
  same_symm : ∀ a b, same a b = true → same b a = true
  numNs : Ctrlr → Int
  getNs : Ctrlr → Nat → Option Ns
  extendedSectorSize : Ns → Nat
  nsSize : Ns → Nat

structure Driver (Trid Ctrlr Ns : Type) where
  id : Nat
  trid : Trid
  ctrlr : Ctrlr
  ns : Ns
  blockSize : Nat
  size : Nat

structure Context (Trid Ctrlr Ns : Type) where
  trid : Trid
  driver : Option (Driver Trid Ctrlr Ns)
  done : Bool

/-- `K` are the threads that call; a pointer in `probe_queue` is the thread whose stack it leads
to. -/
structure Manager (K Trid Ctrlr Ns : Type) where
  lock : Option K
  sharedDriverDatas : List (Driver Trid Ctrlr Ns)
  /-- `dpdk_thread`, with the `trid` its lambda has captured. -/
  dpdkThread : Option Trid
  probeQueue : List K
  calls : K → Option (Context Trid Ctrlr Ns)
  /-- What has been returned with 0. Nothing in the program reads this. -/
  returned : List (Trid × Driver Trid Ctrlr Ns)

/-- Why a step is not taken: the assert of `probe_cb` fails, another one does or `abort()` is
called, the thread waits, or there is nothing to run. -/
inductive Halt where
  | mismatch
  | abort
  | waits
  | disabled
  deriving DecidableEq

def enoent : Int := 2

def coremaskArg : List Char := ['0', 'x', '1']

theorem findFirstBitset_coremask : findFirstBitset coremaskArg = some 1 := by decide

section Probe
variable {K Trid Ctrlr Ns : Type}

def Driver.isEqual (sp : Spdk Trid Ctrlr Ns) (d : Driver Trid Ctrlr Ns) (trid : Trid) : Bool :=
  sp.same d.trid trid

/-- `local_pci_device ? NULL : &trid`. -/
def probeArg (sp : Spdk Trid Ctrlr Ns) (trid : Trid) : Option Trid :=
  if sp.pciAddr trid then none else some trid

def probeCb (sp : Spdk Trid Ctrlr Ns) (want got : Trid) : Except Halt Bool :=
  if sp.pcie got then .ok (sp.same want got)
  else if sp.same want got then .ok true
  else .error .mismatch

def registerCtrlr (sp : Spdk Trid Ctrlr Ns) (m : Manager K Trid Ctrlr Ns) (trid : Trid)
    (c : Ctrlr) : Except Halt (Manager K Trid Ctrlr Ns × Driver Trid Ctrlr Ns) :=
  if m.lock.isNone then .error .abort
  else if sp.numNs c < 1 then .error .abort
  else
    match sp.getNs c 1 with
    | none => .error .abort
    | some ns =>
      -- assert(shared_driver_datas.empty())
      if m.sharedDriverDatas.isEmpty then
        let d : Driver Trid Ctrlr Ns :=
          ⟨m.sharedDriverDatas.length + 1, trid, c, ns, sp.extendedSectorSize ns, sp.nsSize ns⟩
        .ok ({ m with sharedDriverDatas := m.sharedDriverDatas ++ [d] }, d)
      else .error .abort

def attachCb (sp : Spdk Trid Ctrlr Ns)
    (x : Manager K Trid Ctrlr Ns × Context Trid Ctrlr Ns) (c : Ctrlr) :
    Except Halt (Manager K Trid Ctrlr Ns × Context Trid Ctrlr Ns) := do
  let (m, d) ← registerCtrlr sp x.1 x.2.trid c
  .ok (m, { x.2 with driver := some d })

/-- What `spdk_nvme_probe` comes to: the devices it finds, each with the controller it becomes
when it is attached and that succeeds, and the result. -/
structure Outcome (Trid Ctrlr : Type) where
  found : List (Trid × Option Ctrlr)
  rc : Int

/-- Given NULL the local PCI devices are enumerated, given an id `probe_cb` is called with it. -/
def Outcome.Of (sp : Spdk Trid Ctrlr Ns) (arg : Option Trid) (o : Outcome Trid Ctrlr) : Prop :=
  match arg with
  | none => ∀ x ∈ o.found, sp.pcie x.1 = true
  | some trid => ∀ x ∈ o.found, x.1 = trid

def probeAll (sp : Spdk Trid Ctrlr Ns) (want : Trid) :
    List (Trid × Option Ctrlr) → Except Halt (List Ctrlr)
  | [] => .ok []
  | (got, c) :: rest => do
    let doAttach ← probeCb sp want got
    let cs ← probeAll sp want rest
    .ok (if doAttach then c.toList ++ cs else cs)

def nvmeProbe (sp : Spdk Trid Ctrlr Ns) (m : Manager K Trid Ctrlr Ns)
    (ctx : Context Trid Ctrlr Ns) (o : Outcome Trid Ctrlr) :
    Except Halt (Manager K Trid Ctrlr Ns × Context Trid Ctrlr Ns) := do
  let cs ← probeAll sp ctx.trid o.found
  cs.foldlM (attachCb sp) (m, ctx)

end Probe

section Steps
variable {K Trid Ctrlr Ns : Type} [DecidableEq K]

/-- What `try_get` returns, and `*driver`. -/
structure Reply (Trid Ctrlr Ns : Type) where
  rc : Int
  driver : Option (Driver Trid Ctrlr Ns)

/-- `try_get` up to its wait, or to its return. -/
def tryGet (sp : Spdk Trid Ctrlr Ns) (m : Manager K Trid Ctrlr Ns) (k : K) (trid : Trid) :
    Except Halt (Manager K Trid Ctrlr Ns × Option (Reply Trid Ctrlr Ns)) :=
  if (m.calls k).isSome then .error .disabled
  else if m.lock.isSome then .error .waits
  else
    match m.sharedDriverDatas.find? fun d => d.isEqual sp trid with
    | some d => .ok ({ m with returned := (trid, d) :: m.returned }, some ⟨0, some d⟩)
    | none =>
      if ∀ r ∈ findFirstBitset coremaskArg, r ≤ 0 then .ok (m, some ⟨-enoent, none⟩)
      else
        .ok ({ m with
          lock := some k
          -- if (!dpdk_thread.joinable())
          dpdkThread := some (m.dpdkThread.getD trid)
          probeQueue := m.probeQueue ++ [k]
          calls := update m.calls k (some ⟨trid, none, false⟩) }, none)

def serve (sp : Spdk Trid Ctrlr Ns) (m : Manager K Trid Ctrlr Ns) (o : Outcome Trid Ctrlr) :
    Except Halt (Manager K Trid Ctrlr Ns) :=
  match m.dpdkThread, m.probeQueue with
  | some _, k :: rest =>
    match m.calls k with
    | none => .error .disabled
    | some ctx => do
      let (m1, ctx1) ← nvmeProbe sp { m with probeQueue := rest } ctx o
      if o.rc < 0 ∧ ctx1.driver.isSome = true then .error .abort
      else .ok { m1 with calls := update m1.calls k (some { ctx1 with done := true }) }
  | _, _ => .error .disabled

def finish (m : Manager K Trid Ctrlr Ns) (k : K) :
    Except Halt (Manager K Trid Ctrlr Ns × Reply Trid Ctrlr Ns) :=
  match m.calls k with
  | none => .error .disabled
  | some ctx =>
    if ctx.done then
      let m1 := { m with lock := none, calls := update m.calls k none }
      match ctx.driver with
      | none => .ok (m1, ⟨-1, none⟩)
      | some d => .ok ({ m1 with returned := (ctx.trid, d) :: m.returned }, ⟨0, some d⟩)
    else .error .waits

inductive Act (K Trid Ctrlr : Type) where
  | tryGet (k : K) (trid : Trid)
  | serve (o : Outcome Trid Ctrlr)
  | finish (k : K)

def exec (sp : Spdk Trid Ctrlr Ns) (m : Manager K Trid Ctrlr Ns) :
    Act K Trid Ctrlr → Except Halt (Manager K Trid Ctrlr Ns)
  | .tryGet k trid => (tryGet sp m k trid).map Prod.fst
  | .serve o => serve sp m o
  | .finish k => (finish m k).map Prod.fst

def Probes (sp : Spdk Trid Ctrlr Ns) (m : Manager K Trid Ctrlr Ns) : Act K Trid Ctrlr → Prop
  | .serve o => ∀ captured ∈ m.dpdkThread, o.Of sp (probeArg sp captured)
  | _ => True

def Step (sp : Spdk Trid Ctrlr Ns) (m : Manager K Trid Ctrlr Ns) (a : Act K Trid Ctrlr)
    (m' : Manager K Trid Ctrlr Ns) : Prop :=
  Probes sp m a ∧ exec sp m a = .ok m'

def Manager.start : Manager K Trid Ctrlr Ns where
  lock := none
  sharedDriverDatas := []
  dpdkThread := none
  probeQueue := []
  calls := fun _ => none
  returned := []

end Steps

end LockdepSpdk.Nvme
