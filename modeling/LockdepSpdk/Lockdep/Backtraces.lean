import LockdepSpdk.Lib.Ownership
import LockdepSpdk.Lockdep.Session

/-!
# The backtraces of lockdep

`held` and `follows_bt` with the `ClibBackTrace` objects they point to, and what is printed
before `abort()`. No call deletes a backtrace twice or reads one that is gone; what is lost
is what a thread holds when it locks the class again, or when lockdep is shut down.
-/

namespace LockdepSpdk.Lockdep

set_option autoImplicit false

open Function Relation Transition Ownership

variable {T : Type}

inductive Slot (T : Type) where
  /-- `held[p][id]` -/
  | held (p : T) (id : Nat)
  /-- `follows_bt[a][b]` -/
  | follows (a b : Nat)
  deriving DecidableEq

def Slot.isHeld : Slot T → Bool
  | .held _ _ => true
  | .follows _ _ => false

/-- The slots of the first `n` rows of `follows_bt`. -/
def Slot.inRows (n : Nat) : Slot T → Bool
  | .held _ _ => false
  | .follows a _ => decide (a < n)

structure Traced (T : Type) where
  state : State T
  heap : Heap (Slot T)

/-- A dependency as `does_follow` prints it. -/
structure Line where
  src : Nat
  srcName : String
  dst : Nat
  dstName : String
  trace : Option Nat
  deriving DecidableEq

structure HeldLine where
  id : Nat
  name : String
  trace : Option Nat
  deriving DecidableEq

/-- What `lockdep_will_lock` prints before `abort()`. -/
inductive Report where
  | recursive (name : String) (id : Nat) (previously : Option Nat)
  /-- The new dependency leads from `src` to `dst`. -/
  | cycle (path : List Line) (src dst : Nat) (holding : List HeldLine)
  deriving DecidableEq

inductive Fault where
  | stop (why : Stop)
  | report (r : Report)
  /-- A backtrace is read or deleted that is gone. -/
  | dangling

def Fault.ofStop {α : Type} : Except Stop α → Except Fault α
  | .ok a => .ok a
  | .error why => .error (.stop why)

def Fault.ofHeap {α : Type} : Option α → Except Fault α
  | some a => .ok a
  | none => .error .dangling

def printTraces (h : Heap (Slot T)) (ls : List (Slot T)) : Except Fault Unit :=
  if ls.all fun l => h.reads (h.slot l) then .ok () else .error .dangling

/-- `does_follow(a, b)` with the dependencies it prints, the last one of the path first. -/
def printFollow (g : Graph) (n : Nat) : Nat → Nat → Nat → Option (Option (List (Nat × Nat)))
  | 0, _, _ => none
  | fuel + 1, a, b =>
    if g a b then some (some [(a, b)])
    else (List.range n).findSomeM? fun i =>
      if g a i then (printFollow g n fuel i b).map (Option.map (· ++ [(a, i)])) else some none

def State.name (s : State T) (id : Nat) : String := (s.lockNames id).getD ""

def lineOf (s : State T) (h : Heap (Slot T)) (e : Nat × Nat) : Line :=
  ⟨e.1, s.name e.1, e.2, s.name e.2, h.slot (.follows e.1 e.2)⟩

def heldLineOf (s : State T) (h : Heap (Slot T)) (p : T) (id : Nat) : HeldLine :=
  ⟨id, s.name id, h.slot (.held p id)⟩

section Calls
variable [DecidableEq T]

def checkTraces (s : State T) (p : T) (name : String) (id : Nat) (force recursive : Bool) :
    List Nat → Graph → Heap (Slot T) → Except Fault (Graph × Heap (Slot T))
  | [], g, h => .ok (g, h)
  | k :: ks, g, h =>
    if k = id then
      if recursive then checkTraces s p name id force recursive ks g h
      else do
        printTraces h [.held p k]
        .error (.report (.recursive name id (h.slot (.held p k))))
    else if g k id then checkTraces s p name id force recursive ks g h
    else
      match printFollow g s.currentMaxid (s.currentMaxid + 1) id k with
      | none => .error (.stop .diverge)
      | some (some path) => do
        printTraces h (path.map fun e => .follows e.1 e.2)
        printTraces h ((s.held p).map (.held p))
        .error (.report (.cycle (path.map (lineOf s h)) k id ((s.held p).map (heldLineOf s h p))))
      | some none =>
        checkTraces s p name id force recursive ks (setEdge g k id) (h.put (.follows k id) force)

namespace Traced

def lockdepWillLock (s : Traced T) (p : T) (name : String) (id : Int) (force recursive : Bool) :
    Except Fault (Traced T × Int) :=
  if s.state.gLockdep = false then .ok (s, id)
  else do
    let (s1, i) ← Fault.ofStop (ensureId s.state name id)
    let (follows, heap) ←
      checkTraces s1 p name i.toNat force recursive (s1.held p) s1.follows s.heap
    .ok (⟨setFollows s1 follows, heap⟩, i)

def lockdepLocked (s : Traced T) (p : T) (name : String) (id : Int) (force : Bool) :
    Except Fault (Traced T × Int) :=
  if s.state.gLockdep = false then .ok (s, id)
  else do
    let (s1, i) ← Fault.ofStop (ensureId s.state name id)
    .ok (⟨setHeld s1 p (insertKey i.toNat (s1.held p)), s.heap.put (.held p i.toNat) force⟩, i)

def lockdepWillUnlock (s : Traced T) (p : T) (id : Int) : Except Fault (Traced T × Int) :=
  if id < 0 then
    if id = -1 then .ok (s, id) else .error (.stop .abort)
  else if s.state.gLockdep = false then .ok (s, id)
  else do
    let heap ← Fault.ofHeap (s.heap.free (.held p id.toNat))
    .ok (⟨setHeld s.state p ((s.state.held p).filter (· ≠ id.toNat)), heap⟩, id)

def crossing (n id : Nat) : List (Slot T) :=
  (List.range n).flatMap fun i => [.follows id i, .follows i id]

def lockdepUnregister (s : Traced T) (id : Int) : Except Fault (Traced T) :=
  if id < 0 then .ok s
  else
    match s.state.lockNames id.toNat with
    | none => .error (.stop .abort)
    | some name =>
      let refs := (s.state.lockRefs id.toNat).getD 0 - 1
      if refs = 0 then do
        let heap ← Fault.ofHeap ((crossing s.state.currentMaxid id.toNat).foldlM Heap.free s.heap)
        .ok ⟨freeClass s.state name id.toNat, heap⟩
      else .ok ⟨setRefs s.state id.toNat refs, s.heap⟩

def square (n : Nat) : List (Slot T) :=
  (List.range n).flatMap fun i => (List.range n).map (.follows i)

def lockdepGlobalDestroy (s : Traced T) : Except Fault (Traced T) :=
  if s.state.gLockdep then do
    let heap ← Fault.ofHeap ((square s.state.currentMaxid).foldlM Heap.delete s.heap)
    .ok ⟨Lockdep.lockdepGlobalDestroy s.state,
      (heap.forget Slot.isHeld).forget (Slot.inRows s.state.currentMaxid)⟩
  else .ok s

/-- `lock_names[id]` makes an empty name where there is none. -/
def touchNames (names : Nat → Option String) (ids : List Nat) : Nat → Option String :=
  fun id => if id ∈ ids then some ((names id).getD "") else names id

def lockdepDumpLocks (s : Traced T) (ps : List T) :
    Except Fault (Traced T × List (T × List HeldLine)) :=
  if s.state.gLockdep = false then .ok (s, [])
  else do
    printTraces s.heap (ps.flatMap fun p => (s.state.held p).map (.held p))
    .ok (⟨{ s.state with
        lockNames := touchNames s.state.lockNames (ps.flatMap s.state.held) }, s.heap⟩,
      ps.map fun p => (p, (s.state.held p).map (heldLineOf s.state s.heap p)))

end Traced

inductive TracedCall (T : Type) where
  | call (c : Call T) (force : Bool)
  | dumpLocks (ps : List T)

def TracedCall.ids : TracedCall T → List Int
  | .call c _ => c.ids
  | .dumpLocks _ => []

def Traced.exec (s : Traced T) : TracedCall T → Except Fault (Traced T × Option Int)
  | .call .globalInit _ => .ok (⟨lockdepGlobalInit s.state, s.heap⟩, none)
  | .call .globalDestroy _ => do
    let s' ← s.lockdepGlobalDestroy
    .ok (s', none)
  | .call (.register name) _ => do
    let (s', i) ← Fault.ofStop (lockdepRegister s.state name)
    .ok (⟨s', s.heap⟩, some i)
  | .call (.unregister id) _ => do
    let s' ← s.lockdepUnregister id
    .ok (s', none)
  | .call (.willLock p name id recursive) force => do
    let (s', i) ← s.lockdepWillLock p name id force recursive
    .ok (s', some i)
  | .call (.locked p name id) force => do
    let (s', i) ← s.lockdepLocked p name id force
    .ok (s', some i)
  | .call (.willUnlock p id) _ => do
    let (s', i) ← s.lockdepWillUnlock p id
    .ok (s', some i)
  | .dumpLocks ps => do
    let (s', _) ← s.lockdepDumpLocks ps
    .ok (s', none)

/-- The call loses the backtrace `n`: the thread locks a class that it holds, or what is held is
forgotten. -/
def Traced.Loses (s : Traced T) (n : Nat) : TracedCall T → Prop
  | .call (.locked p name id) _ => s.state.gLockdep = true ∧
      ∃ s1 i, ensureId s.state name id = .ok (s1, i) ∧ s.heap.slot (.held p i.toNat) = some n
  | .call .globalDestroy _ => s.state.gLockdep = true ∧ ∃ p k, s.heap.slot (.held p k) = some n
  | _ => False

structure TracedProcess (T : Type) where
  traced : Traced T
  returned : List Int
  lost : Nat → Prop

def TracedProcess.start : TracedProcess T := ⟨⟨initial, Heap.empty⟩, [], fun _ => False⟩

def TracedProcess.exec (p : TracedProcess T) (c : TracedCall T) :
    Except Fault (TracedProcess T) := do
  let (s, r) ← p.traced.exec c
  .ok ⟨s, r.toList ++ p.returned, fun n => p.lost n ∨ p.traced.Loses n c⟩

def TracedProcess.allows (p : TracedProcess T) (c : TracedCall T) : Bool :=
  c.ids.all fun id => decide (id = -1 ∨ id ∈ p.returned)

def TracedProcess.Step (p : TracedProcess T) (c : TracedCall T) (q : TracedProcess T) : Prop :=
  p.allows c = true ∧ p.exec c = .ok q

def TracedProcess.Reachable (p : TracedProcess T) : Prop :=
  Transition.Reachable (· = TracedProcess.start) TracedProcess.Step p

end Calls

section Search
variable {g : Graph} {n : Nat}

theorem findSomeM_isSome {α : Type} {f : Nat → Option (Option α)} {is : List Nat} :
    (is.findSomeM? f).map Option.isSome = is.anyM fun i => (f i).map Option.isSome := by
  induction is with
  | nil => rfl
  | cons i is ih =>
    rw [List.findSomeM?_cons, List.anyM_cons]
    cases f i with
    | none => rfl
    | some x =>
      cases x with
      | none => exact ih
      | some y => rfl

theorem findSomeM_mem {α : Type} {f : Nat → Option (Option α)} {is : List Nat} {x : α}
    (h : is.findSomeM? f = some (some x)) : ∃ i ∈ is, f i = some (some x) := by
  induction is with
  | nil => cases h
  | cons i is ih =>
    rw [List.findSomeM?_cons] at h
    obtain ⟨y, hy, h⟩ := Option.bind_eq_some_iff.mp h
    cases y with
    | none =>
      obtain ⟨j, hj, hf⟩ := ih h
      exact ⟨j, List.mem_cons_of_mem i hj, hf⟩
    | some y =>
      obtain rfl : y = x := Option.some.inj (Option.some.inj h)
      exact ⟨i, List.mem_cons_self, hy⟩

theorem printFollow_isSome (fuel a b : Nat) :
    (printFollow g n fuel a b).map Option.isSome = doesFollow g n fuel a b := by
  induction fuel generalizing a with
  | zero => rfl
  | succ fuel ih =>
    simp only [printFollow, doesFollow]
    split
    · rfl
    · rw [findSomeM_isSome]
      congr 1
      funext i
      split
      · rw [← ih i, Option.map_map]
        congr 1
        funext x
        exact Option.isSome_map
      · rfl

/-- What it prints is a path. -/
theorem printFollow_route {fuel a b : Nat} {l : List (Nat × Nat)}
    (h : printFollow g n fuel a b = some (some l)) : Digraph.Route (Edge g) a b l := by
  induction fuel generalizing a l with
  | zero => cases h
  | succ fuel ih =>
    simp only [printFollow] at h
    split at h
    · next hab =>
      obtain rfl : [(a, b)] = l := Option.some.inj (Option.some.inj h)
      exact .last hab
    · obtain ⟨i, -, hi⟩ := findSomeM_mem h
      split at hi
      · next hai =>
        obtain ⟨x, hx, hmap⟩ := Option.map_eq_some_iff.mp hi
        obtain ⟨l', rfl, rfl⟩ := Option.map_eq_some_iff.mp hmap
        exact .before hai (ih hx)
      · cases hi

end Search

section Loop
variable {s : State T} {h0 h : Heap (Slot T)} {p : T} {name : String} {id : Nat}
  {force recursive : Bool} {g : Graph} {lost : Nat → Prop}

/-- The lock is held and not recursive; or the printed dependencies lead from it to a held lock,
were there before the call, and come once each. -/
def Report.Accurate (s : State T) (h : Heap (Slot T)) (p : T) (name : String) (id : Nat)
    (recursive : Bool) : Report → Prop
  | .recursive name' id' previously =>
    recursive = false ∧ name' = name ∧ id' = id ∧ id ∈ s.held p ∧ previously = h.slot (.held p id)
  | .cycle path src dst holding =>
    dst = id ∧ src ∈ s.held p ∧ src ≠ id ∧ holding = (s.held p).map (heldLineOf s h p) ∧
      ∃ l, Digraph.Route (Edge s.follows) id src l ∧ (l.map Prod.fst).Nodup ∧
        path = l.map (lineOf s h)

/-- Since the loop began with `h0`, only dependencies on `id` are new. -/
structure Loop (s : State T) (h0 : Heap (Slot T)) (id : Nat) (g : Graph) (h : Heap (Slot T))
    (lost : Nat → Prop) : Prop where
  acyclic : Digraph.Acyclic (Edge g)
  targets : Targets g s.currentMaxid
  older : ∀ a b, b ≠ id → (Edge g a b ↔ Edge s.follows a b)
  accounts : Accounts h lost
  backed : ∀ a b n, h.slot (.follows a b) = some n → Edge g a b
  same : ∀ l, (∀ a, l ≠ .follows a id) → h.slot l = h0.slot l

theorem printTraces_ok (hs : Accounts h lost) (ls : List (Slot T)) : printTraces h ls = .ok () :=
  if_pos (List.all_eq_true.mpr fun l _ => hs.reads l)

variable [DecidableEq T]

theorem Loop.add (hl : Loop s h0 id g h lost) {k : Nat} (hid : id < s.currentMaxid) (hk : k ≠ id)
    (hpath : ¬ TransGen (Edge g) id k) (hedge : ¬ Edge g k id) :
    Loop s h0 id (setEdge g k id) (h.put (.follows k id) force) lost := by
  have hlost : (fun n => lost n ∨ h.slot (.follows k id) = some n) = lost := by
    funext n
    exact propext (or_iff_left fun hn => hedge (hl.backed k id n hn))
  have hslot : ∀ l, l ≠ .follows k id → (h.put (.follows k id) force).slot l = h.slot l := by
    intro l hne
    cases force with
    | false => exact update_of_ne hne _ _
    | true => exact update_of_ne hne _ _
  refine ⟨setEdge_acyclic hl.acyclic hk hpath, ?_, ?_, ?_, ?_, ?_⟩
  · intro a b hab
    rcases (setEdge_edge g k id a b).mp hab with hab | ⟨-, rfl⟩
    · exact hl.targets a b hab
    · exact hid
  · intro a b hb
    rw [setEdge_edge, hl.older a b hb]
    exact or_iff_left fun heq => hb heq.2
  · rw [← hlost]
    exact hl.accounts.put _ _
  · intro a b n hn
    rw [setEdge_edge]
    by_cases heq : a = k ∧ b = id
    · exact Or.inr heq
    · have hne : Slot.follows (T := T) a b ≠ .follows k id := by
        intro hslots
        exact heq (Slot.follows.inj hslots)
      rw [hslot _ hne] at hn
      exact Or.inl (hl.backed a b n hn)
  · intro l hne
    rw [hslot l (hne k)]
    exact hl.same l hne

theorem checkTraces_spec (p : T) (name : String) (force recursive : Bool)
    (hid : id < s.currentMaxid) {ks : List Nat}
    (hks : ∀ k ∈ ks, k ∈ s.held p) (hl : Loop s h0 id g h lost) :
    (∃ g' h', checkTraces s p name id force recursive ks g h = .ok (g', h') ∧
      checkHeld s.currentMaxid id recursive ks g = .ok g' ∧ Loop s h0 id g' h' lost) ∨
    ∃ r, checkTraces s p name id force recursive ks g h = .error (.report r) ∧
      r.Accurate s h0 p name id recursive := by
  induction ks generalizing g h with
  | nil => exact Or.inl ⟨g, h, rfl, rfl, hl⟩
  | cons k ks ih =>
    obtain ⟨hk, hks⟩ := List.forall_mem_cons.mp hks
    simp only [checkTraces, checkHeld]
    split
    · next heq =>
      cases recursive with
      | true => exact ih hks hl
      | false =>
        refine Or.inr ⟨.recursive name id (h.slot (.held p k)), ?_, rfl, rfl, rfl, heq ▸ hk, ?_⟩
        · simp only [Bool.false_eq_true, if_false, printTraces_ok hl.accounts, ok_bind]
        · rw [heq]
          exact hl.same _ fun _ hslots => by cases hslots
    · next hne =>
      split
      · exact ih hks hl
      · next hedge =>
        obtain ⟨r, hr, hanswer⟩ :=
          doesFollow_spec hl.acyclic hl.targets (Nat.lt_succ_self _) hid k
        have hprint := printFollow_isSome (g := g) (n := s.currentMaxid) (s.currentMaxid + 1) id k
        rw [hr] at hprint
        obtain ⟨found, hfound, hsome⟩ := Option.map_eq_some_iff.mp hprint
        rw [hr, hfound]
        cases found with
        | some path =>
          have hroute := printFollow_route hfound
          refine Or.inr ⟨.cycle (path.map (lineOf s h)) k id ((s.held p).map (heldLineOf s h p)),
            ?_, rfl, hk, hne, ?_, path, ?_, hroute.nodup hl.acyclic, ?_⟩
          · simp only [printTraces_ok hl.accounts, ok_bind]
          · refine List.map_congr_left fun q _ => ?_
            unfold heldLineOf
            rw [hl.same _ fun _ hslots => by cases hslots]
          · exact hroute.mono fun e he hedge' =>
              (hl.older _ _ (hroute.snd_ne hl.acyclic he)).mp hedge'
          · refine List.map_congr_left fun e he => ?_
            unfold lineOf
            rw [hl.same _ fun _ hslots => hroute.snd_ne hl.acyclic he (Slot.follows.inj hslots).2]
        | none =>
          obtain rfl : false = r := hsome
          have hpath : ¬ TransGen (Edge g) id k := fun hpath => by cases hanswer.mpr hpath
          exact ih hks (hl.add hid hne hpath hedge)

end Loop

section Runs
variable {s t : Traced T} {lost : Nat → Prop} {p : T} {name : String} {id : Int}
  {force recursive : Bool}

/-- A backtrace belongs to a lock that is held or to a dependency, or it is lost. -/
structure Traced.Sound (s : Traced T) (lost : Nat → Prop) : Prop where
  graph : GraphInv s.state
  accounts : Accounts s.heap lost
  backed : ∀ a b n, s.heap.slot (.follows a b) = some n → Edge s.state.follows a b
  keyed : ∀ p k n, s.heap.slot (.held p k) = some n → k ∈ s.state.held p

/-- What a call does that does not stop: the plain call, and the account of the backtraces. -/
structure Traced.Keeps (s t : Traced T) (lost : Nat → Prop) : Prop where
  accounts : Accounts t.heap lost
  backed : ∀ a b n, t.heap.slot (.follows a b) = some n → Edge t.state.follows a b
  keyed : ∀ p k n, t.heap.slot (.held p k) = some n → k ∈ t.state.held p

theorem registerLocked_keeps {s s' : State T} {i : Int} (h : registerLocked s name = .ok (s', i)) :
    s'.follows = s.follows ∧ s'.held = s.held := by
  cases hg : s.gLockdep with
  | false =>
    rw [registerLocked_off hg] at h
    obtain ⟨rfl, -⟩ := ok_mk_inj h
    exact ⟨rfl, rfl⟩
  | true =>
    rcases registerLocked_cases hg h with ⟨k, -, -, -, rfl⟩ | ⟨k, -, -, hfresh⟩
    · exact ⟨rfl, rfl⟩
    · exact ⟨hfresh.follows, hfresh.held⟩

theorem ensureId_keeps {s s' : State T} {i : Int} (h : ensureId s name id = .ok (s', i)) :
    s'.follows = s.follows ∧ s'.held = s.held := by
  unfold ensureId at h
  split at h
  · exact registerLocked_keeps h
  · obtain ⟨rfl, -⟩ := ok_mk_inj h
    exact ⟨rfl, rfl⟩

theorem globalInit_keeps (s : State T) : (lockdepGlobalInit s).follows = s.follows ∧
    (lockdepGlobalInit s).held = s.held := by
  unfold lockdepGlobalInit
  split
  · exact ⟨rfl, rfl⟩
  · split <;> exact ⟨rfl, rfl⟩

theorem mem_crossing {n id a b : Nat} : Slot.follows (T := T) a b ∈ Traced.crossing n id ↔
    (a = id ∧ b < n) ∨ (b = id ∧ a < n) := by
  unfold Traced.crossing
  rw [List.mem_flatMap]
  constructor
  · rintro ⟨i, hi, hmem⟩
    have hlt := List.mem_range.mp hi
    rcases List.mem_cons.mp hmem with heq | hmem
    · obtain ⟨rfl, rfl⟩ := Slot.follows.inj heq
      exact Or.inl ⟨rfl, hlt⟩
    · obtain ⟨rfl, rfl⟩ := Slot.follows.inj (List.mem_singleton.mp hmem)
      exact Or.inr ⟨rfl, hlt⟩
  · rintro (⟨rfl, hlt⟩ | ⟨rfl, hlt⟩)
    · exact ⟨b, List.mem_range.mpr hlt, List.mem_cons_self⟩
    · exact ⟨a, List.mem_range.mpr hlt, List.mem_cons_of_mem _ (List.mem_singleton_self _)⟩

theorem held_not_mem_crossing {n id k : Nat} : Slot.held p k ∉ Traced.crossing n id := by
  intro hmem
  obtain ⟨i, -, hmem⟩ := List.mem_flatMap.mp hmem
  rcases List.mem_cons.mp hmem with heq | hmem
  · cases heq
  · cases List.mem_singleton.mp hmem

theorem mem_square {n : Nat} {l : Slot T} :
    l ∈ Traced.square n ↔ ∃ a b, l = .follows a b ∧ a < n ∧ b < n := by
  unfold Traced.square
  rw [List.mem_flatMap]
  constructor
  · rintro ⟨a, ha, hmem⟩
    obtain ⟨b, hb, rfl⟩ := List.mem_map.mp hmem
    exact ⟨a, b, rfl, List.mem_range.mp ha, List.mem_range.mp hb⟩
  · rintro ⟨a, b, rfl, ha, hb⟩
    exact ⟨a, List.mem_range.mpr ha, List.mem_map.mpr ⟨b, List.mem_range.mpr hb, rfl⟩⟩

theorem square_nodup (n : Nat) : (Traced.square n : List (Slot T)).Nodup := by
  unfold Traced.square
  refine List.nodup_flatMap.mpr ⟨fun a _ => ?_, ?_⟩
  · exact List.nodup_range.map fun b c hbc => (Slot.follows.inj hbc).2
  · refine List.nodup_range.imp fun {a b} hne => ?_
    intro l ha hb
    obtain ⟨x, -, rfl⟩ := List.mem_map.mp ha
    obtain ⟨y, -, heq⟩ := List.mem_map.mp hb
    exact hne (Slot.follows.inj heq).1.symm

variable [DecidableEq T]

namespace Traced.Sound

omit [DecidableEq T] in
theorem unchanged (hs : s.Sound lost) {s' : State T} (hfollows : s'.follows = s.state.follows)
    (hheld : s'.held = s.state.held) : s.Keeps ⟨s', s.heap⟩ lost where
  accounts := hs.accounts
  backed := by
    rw [hfollows]
    exact hs.backed
  keyed := by
    rw [hheld]
    exact hs.keyed

omit [DecidableEq T] in
/-- `held` and the rows below `current_maxid` are all there is. -/
theorem globalDestroy (hs : s.Sound lost) (hon : s.state.gLockdep = true) :
    ∃ t, s.lockdepGlobalDestroy = .ok t ∧ t.state = Lockdep.lockdepGlobalDestroy s.state ∧
      s.Keeps t fun n => lost n ∨ ∃ p k, s.heap.slot (.held p k) = some n := by
  have hrows : ∀ l, Slot.inRows s.state.currentMaxid l = true ∧ (s.heap.slot l).isSome = true →
      l ∈ Traced.square s.state.currentMaxid := by
    rintro l ⟨hrow, hsome⟩
    cases l with
    | held => cases hrow
    | follows a b =>
      obtain ⟨n, hn⟩ := Option.isSome_iff_exists.mp hsome
      obtain ⟨ha, hb⟩ := hs.graph.below a b (hs.backed a b n hn)
      exact mem_square.mpr ⟨a, b, rfl, ha, hb⟩
  have hsquare : ∀ l ∈ (Traced.square s.state.currentMaxid : List (Slot T)),
      Slot.inRows s.state.currentMaxid l = true := by
    intro l hl
    obtain ⟨a, b, rfl, ha, -⟩ := mem_square.mp hl
    exact decide_eq_true ha
  obtain ⟨h', hfold, hslot, hacc⟩ := hs.accounts.deleteAll_forget (square_nodup _) hrows hsquare
  refine ⟨⟨Lockdep.lockdepGlobalDestroy s.state,
    (h'.forget Slot.isHeld).forget (Slot.inRows s.state.currentMaxid)⟩, ?_, rfl, ?_, ?_, ?_⟩
  · rw [Traced.lockdepGlobalDestroy, if_pos hon, hfold]
    rfl
  · rw [Heap.forget_comm]
    refine (hacc.forget Slot.isHeld).congr fun n => or_congr_right ?_
    constructor
    · rintro ⟨l, hl, hn⟩
      cases l with
      | held p k =>
        refine ⟨p, k, ?_⟩
        rw [← hslot]
        exact hn
      | follows => cases hl
    · rintro ⟨p, k, hn⟩
      refine ⟨.held p k, rfl, ?_⟩
      rw [← hslot] at hn
      exact hn
  · intro a b n hn
    change (if decide (a < s.state.currentMaxid) = true then none else h'.slot _) = some n at hn
    rw [hslot] at hn
    split at hn
    · cases hn
    · next ha =>
      exact absurd (decide_eq_true (hs.graph.below a b (hs.backed a b n hn)).1) ha
  · intro p k n hn
    cases hn

theorem unregister (hs : s.Sound lost) (id : Int) :
    (∃ t, s.lockdepUnregister id = .ok t ∧ Lockdep.lockdepUnregister s.state id = .ok t.state ∧
      s.Keeps t lost) ∨ ∃ why, s.lockdepUnregister id = .error (.stop why) := by
  unfold Traced.lockdepUnregister Lockdep.lockdepUnregister
  split
  · exact Or.inl ⟨s, rfl, rfl, hs.unchanged rfl rfl⟩
  · cases s.state.lockNames id.toNat with
    | none => exact Or.inr ⟨.abort, rfl⟩
    | some name =>
      simp only
      split
      · obtain ⟨h', hfold, hslot, hacc⟩ :=
          hs.accounts.freeAll (Traced.crossing s.state.currentMaxid id.toNat)
        refine Or.inl ⟨⟨freeClass s.state name id.toNat, h'⟩, ?_, rfl, hacc, ?_, ?_⟩
        · rw [hfold]
          rfl
        · intro a b n hn
          rw [hslot] at hn
          split at hn
          · cases hn
          · next hnot =>
            have hedge := hs.backed a b n hn
            obtain ⟨ha, hb⟩ := hs.graph.below a b hedge
            rw [mem_crossing] at hnot
            exact purge_edge_of_ne hedge (fun heq => hnot (Or.inl ⟨heq, hb⟩))
              (fun heq => hnot (Or.inr ⟨heq, ha⟩))
        · intro p k n hn
          rw [hslot, if_neg held_not_mem_crossing] at hn
          exact hs.keyed p k n hn
      · exact Or.inl ⟨⟨setRefs s.state id.toNat _, s.heap⟩, rfl, rfl, hs.unchanged rfl rfl⟩

theorem willLock (hs : s.Sound lost) (p : T) (name : String) (force recursive : Bool)
    (hid : id < s.state.currentMaxid) :
    (∃ t i, s.lockdepWillLock p name id force recursive = .ok (t, i) ∧
      Lockdep.lockdepWillLock s.state p name id recursive = .ok (t.state, i) ∧ s.Keeps t lost) ∨
    (∃ why, s.lockdepWillLock p name id force recursive = .error (.stop why)) ∨
    ∃ s1 i r, ensureId s.state name id = .ok (s1, i) ∧
      s.lockdepWillLock p name id force recursive = .error (.report r) ∧
      r.Accurate s1 s.heap p name i.toNat recursive := by
  unfold Traced.lockdepWillLock Lockdep.lockdepWillLock
  split
  · exact Or.inl ⟨s, id, rfl, rfl, hs.unchanged rfl rfl⟩
  · next hon =>
    have hon : s.state.gLockdep = true := Bool.not_eq_false _ ▸ hon
    cases hens : ensureId s.state name id with
    | error why => exact Or.inr (Or.inl ⟨why, rfl⟩)
    | ok x =>
      obtain ⟨s1, i⟩ := x
      obtain ⟨hs1, -, hi⟩ := ensureId_inv hs.graph hid hens
      obtain ⟨hfollows, hheld⟩ := ensureId_keeps hens
      have hnn := ensureId_nonneg hon hens
      have hloop : Loop s1 s.heap i.toNat s1.follows s.heap lost := by
        refine ⟨hs1.acyclic, hs1.below.targets, fun _ _ _ => Iff.rfl, hs.accounts, ?_,
          fun _ _ => rfl⟩
        rw [hfollows]
        exact hs.backed
      rcases checkTraces_spec p name force recursive (by omega) (fun k hk => hk) hloop with
        ⟨g, h', hcheck, hplain, hl⟩ | ⟨r, hcheck, hr⟩
      · refine Or.inl ⟨⟨setFollows s1 g, h'⟩, i, ?_, ?_, hl.accounts, hl.backed, ?_⟩
        · simp only [Fault.ofStop, ok_bind, hcheck]
        · simp only [ok_bind, hplain]
        · intro q k n hn
          rw [hl.same _ fun _ hslots => by cases hslots] at hn
          change k ∈ s1.held q
          rw [hheld]
          exact hs.keyed q k n hn
      · refine Or.inr (Or.inr ⟨s1, i, r, rfl, ?_, hr⟩)
        simp only [Fault.ofStop, ok_bind, hcheck]
        rfl

theorem locked (hs : s.Sound lost) (p : T) (name : String) (id : Int) (force : Bool) :
    (∃ t i, s.lockdepLocked p name id force = .ok (t, i) ∧
      Lockdep.lockdepLocked s.state p name id = .ok (t.state, i) ∧
      s.Keeps t fun n => lost n ∨ s.Loses n (.call (.locked p name id) force)) ∨
    ∃ why, s.lockdepLocked p name id force = .error (.stop why) := by
  unfold Traced.lockdepLocked Lockdep.lockdepLocked
  split
  · next hoff =>
    have hkeeps : s.Keeps s lost := hs.unchanged rfl rfl
    refine Or.inl ⟨s, id, rfl, rfl, hkeeps.accounts.congr fun n => ?_, hkeeps.backed, hkeeps.keyed⟩
    refine (or_iff_left ?_).symm
    rintro ⟨hon, -⟩
    rw [hoff] at hon
    cases hon
  · next hon =>
    have hon : s.state.gLockdep = true := Bool.not_eq_false _ ▸ hon
    cases hens : ensureId s.state name id with
    | error why => exact Or.inr ⟨why, rfl⟩
    | ok x =>
      obtain ⟨s1, i⟩ := x
      obtain ⟨hfollows, hheld⟩ := ensureId_keeps hens
      have hother : ∀ l, l ≠ .held p i.toNat →
          (s.heap.put (.held p i.toNat) force).slot l = s.heap.slot l := by
        intro l hne
        cases force with
        | false => exact update_of_ne hne _ _
        | true => exact update_of_ne hne _ _
      refine Or.inl ⟨⟨setHeld s1 p (insertKey i.toNat (s1.held p)),
        s.heap.put (.held p i.toNat) force⟩, i, rfl, rfl, ?_, ?_, ?_⟩
      · refine (hs.accounts.put _ force).congr fun n => or_congr_right ?_
        constructor
        · exact fun hn => ⟨hon, s1, i, hens, hn⟩
        · rintro ⟨-, s1', i', hens', hn⟩
          rw [hens] at hens'
          obtain ⟨-, rfl⟩ := ok_mk_inj hens'
          exact hn
      · intro a b n hn
        rw [hother _ fun hslots => by cases hslots] at hn
        change Edge s1.follows a b
        rw [hfollows]
        exact hs.backed a b n hn
      · intro q k n hn
        refine mem_setHeld.mpr ?_
        by_cases heq : q = p ∧ k = i.toNat
        · exact Or.inl ⟨heq.1, mem_insertKey.mpr (Or.inl heq.2)⟩
        · rw [hother _ fun hslots => heq (Slot.held.inj hslots)] at hn
          have hmem := hs.keyed q k n hn
          rw [hheld]
          by_cases hq : q = p
          · exact Or.inl ⟨hq, mem_insertKey.mpr (Or.inr (hq ▸ hmem))⟩
          · exact Or.inr ⟨hq, hmem⟩

theorem willUnlock (hs : s.Sound lost) (p : T) (id : Int) :
    (∃ t i, s.lockdepWillUnlock p id = .ok (t, i) ∧
      Lockdep.lockdepWillUnlock s.state p id = .ok (t.state, i) ∧ s.Keeps t lost) ∨
    ∃ why, s.lockdepWillUnlock p id = .error (.stop why) := by
  unfold Traced.lockdepWillUnlock Lockdep.lockdepWillUnlock
  split
  · split
    · exact Or.inl ⟨s, id, rfl, rfl, hs.unchanged rfl rfl⟩
    · exact Or.inr ⟨.abort, rfl⟩
  · split
    · exact Or.inl ⟨s, id, rfl, rfl, hs.unchanged rfl rfl⟩
    · obtain ⟨h', hfree, hslot, hacc⟩ := hs.accounts.free (.held p id.toNat)
      refine Or.inl ⟨⟨setHeld s.state p ((s.state.held p).filter (· ≠ id.toNat)), h'⟩, id, ?_, rfl,
        hacc, ?_, ?_⟩
      · rw [hfree]
        rfl
      · intro a b n hn
        rw [hslot, update_of_ne (fun hslots => by cases hslots)] at hn
        exact hs.backed a b n hn
      · intro q k n hn
        rw [hslot] at hn
        refine mem_setHeld.mpr ?_
        by_cases heq : Slot.held q k = .held p id.toNat
        · rw [heq, update_self] at hn
          cases hn
        · rw [update_of_ne heq] at hn
          have hmem := hs.keyed q k n hn
          by_cases hq : q = p
          · refine Or.inl ⟨hq, List.mem_filter.mpr ⟨hq ▸ hmem, decide_eq_true ?_⟩⟩
            exact fun hk => heq (by rw [hq, hk])
          · exact Or.inr ⟨hq, hmem⟩

/-- A call that stops, stops for a reason of its own, never over a backtrace. -/
theorem call (hs : s.Sound lost) {c : Call T} (force : Bool)
    (hids : ∀ id ∈ c.ids, id < s.state.currentMaxid) :
    (∃ t r, s.exec (.call c force) = .ok (t, r) ∧ c.exec s.state = .ok (t.state, r) ∧
      s.Keeps t fun n => lost n ∨ s.Loses n (.call c force)) ∨
    ∃ f, s.exec (.call c force) = .error f ∧ f ≠ .dangling := by
  have hsame : ∀ {t : Traced T} {d : TracedCall T}, s.Keeps t lost → (∀ n, ¬ s.Loses n d) →
      s.Keeps t fun n => lost n ∨ s.Loses n d := fun hkeeps hnot =>
    ⟨hkeeps.accounts.congr fun n => (or_iff_left (hnot n)).symm, hkeeps.backed, hkeeps.keyed⟩
  cases c with
  | globalInit =>
    obtain ⟨hfollows, hheld⟩ := globalInit_keeps s.state
    exact Or.inl ⟨_, none, rfl, rfl, hsame (hs.unchanged hfollows hheld) fun _ hn => hn⟩
  | globalDestroy =>
    simp only [Traced.exec, Call.exec]
    cases hon : s.state.gLockdep with
    | false =>
      have hoff : ¬ s.state.gLockdep = true := by
        rw [hon]
        exact Bool.false_ne_true
      refine Or.inl ⟨s, none, ?_, ?_, hsame (hs.unchanged rfl rfl) fun n hn => hoff hn.1⟩
      · rw [Traced.lockdepGlobalDestroy, if_neg hoff]
        rfl
      · rw [Lockdep.lockdepGlobalDestroy, if_neg hoff]
    | true =>
      obtain ⟨t, ht, hstate, hkeeps⟩ := hs.globalDestroy hon
      refine Or.inl ⟨t, none, ?_, ?_, ?_, hkeeps.backed, hkeeps.keyed⟩
      · rw [ht]
        rfl
      · rw [hstate]
      · exact hkeeps.accounts.congr fun n => or_congr_right ⟨fun hn => ⟨hon, hn⟩, fun hn => hn.2⟩
  | register name =>
    simp only [Traced.exec, Call.exec]
    cases hreg : lockdepRegister s.state name with
    | error why => exact Or.inr ⟨.stop why, rfl, fun heq => by cases heq⟩
    | ok x =>
      obtain ⟨s1, i⟩ := x
      have hkept := registerLocked_keeps hreg
      exact Or.inl ⟨⟨s1, s.heap⟩, some i, rfl, rfl,
        hsame (hs.unchanged hkept.1 hkept.2) fun _ hn => hn⟩
  | unregister id =>
    simp only [Traced.exec, Call.exec]
    rcases hs.unregister id with ⟨t, ht, hplain, hkeeps⟩ | ⟨why, herr⟩
    · refine Or.inl ⟨t, none, ?_, ?_, hsame hkeeps fun _ hn => hn⟩
      · rw [ht]
        rfl
      · rw [hplain]
        rfl
    · exact Or.inr ⟨.stop why, by rw [herr]; rfl, fun heq => by cases heq⟩
  | willLock p name id recursive =>
    simp only [Traced.exec, Call.exec]
    rcases hs.willLock p name force recursive (hids id List.mem_cons_self) with
      ⟨t, i, ht, hplain, hkeeps⟩ | ⟨why, herr⟩ | ⟨_, _, r, -, herr, -⟩
    · refine Or.inl ⟨t, some i, ?_, ?_, hsame hkeeps fun _ hn => hn⟩
      · rw [ht]
        rfl
      · rw [hplain]
        rfl
    · exact Or.inr ⟨.stop why, by rw [herr]; rfl, fun heq => by cases heq⟩
    · exact Or.inr ⟨.report r, by rw [herr]; rfl, fun heq => by cases heq⟩
  | locked p name id =>
    simp only [Traced.exec, Call.exec]
    rcases hs.locked p name id force with
      ⟨t, i, ht, hplain, hkeeps⟩ | ⟨why, herr⟩
    · refine Or.inl ⟨t, some i, ?_, ?_, hkeeps⟩
      · rw [ht]
        rfl
      · rw [hplain]
        rfl
    · exact Or.inr ⟨.stop why, by rw [herr]; rfl, fun heq => by cases heq⟩
  | willUnlock p id =>
    simp only [Traced.exec, Call.exec]
    rcases hs.willUnlock p id with ⟨t, i, ht, hplain, hkeeps⟩ | ⟨why, herr⟩
    · refine Or.inl ⟨t, some i, ?_, ?_, hsame hkeeps fun _ hn => hn⟩
      · rw [ht]
        rfl
      · rw [hplain]
        rfl
    · exact Or.inr ⟨.stop why, by rw [herr]; rfl, fun heq => by cases heq⟩

theorem exec (hs : s.Sound lost) {c : TracedCall T}
    (hids : ∀ id ∈ c.ids, id < s.state.currentMaxid) :
    (∃ t r, s.exec c = .ok (t, r) ∧ t.Sound (fun n => lost n ∨ s.Loses n c) ∧
      s.state.currentMaxid ≤ t.state.currentMaxid ∧
      ∀ i ∈ r.toList, i < t.state.currentMaxid) ∨
    ∃ f, s.exec c = .error f ∧ f ≠ .dangling := by
  cases c with
  | call c force =>
    rcases hs.call force hids with ⟨t, r, ht, hplain, hkeeps⟩ | herr
    · obtain ⟨hgraph, hle, hr⟩ := exec_inv hs.graph hids hplain
      exact Or.inl ⟨t, r, ht, ⟨hgraph, hkeeps.accounts, hkeeps.backed, hkeeps.keyed⟩, hle, hr⟩
    · exact Or.inr herr
  | dumpLocks ps =>
    simp only [Traced.exec, Traced.lockdepDumpLocks]
    have hacc := hs.accounts.congr fun n =>
      (or_iff_left (fun hn : s.Loses n (.dumpLocks ps) => hn)).symm
    cases s.state.gLockdep with
    | false =>
      exact Or.inl ⟨s, none, rfl, ⟨hs.graph, hacc, hs.backed, hs.keyed⟩, Nat.le_refl _, by simp⟩
    | true =>
      rw [printTraces_ok hs.accounts]
      exact Or.inl ⟨_, none, rfl, ⟨⟨hs.graph.acyclic, hs.graph.below, hs.graph.held_lt,
        hs.graph.lockIds_lt⟩, hacc, hs.backed, hs.keyed⟩, Nat.le_refl _, by simp⟩

end Traced.Sound

structure TracedProcess.Sound (q : TracedProcess T) : Prop where
  traced : q.traced.Sound q.lost
  returned_lt : ∀ id ∈ q.returned, id < q.traced.state.currentMaxid

omit [DecidableEq T] in
theorem TracedProcess.Sound.allowed {q : TracedProcess T} (hq : q.Sound) {c : TracedCall T}
    (h : q.allows c = true) : ∀ id ∈ c.ids, id < q.traced.state.currentMaxid := by
  intro id hid
  rcases of_decide_eq_true (List.all_eq_true.mp h id hid) with rfl | hmem
  · omega
  · exact hq.returned_lt id hmem

theorem TracedProcess.Sound.step {q q' : TracedProcess T} {c : TracedCall T} (hq : q.Sound)
    (h : q.Step c q') : q'.Sound := by
  obtain ⟨hallows, hexec⟩ := h
  obtain ⟨⟨t, r⟩, hcall, hq'⟩ := bind_ok hexec
  obtain rfl := Except.ok.inj hq'
  rcases hq.traced.exec (hq.allowed hallows) with ⟨t', r', ht, hsound, hle, hr⟩ | ⟨f, herr, -⟩
  · rw [hcall] at ht
    obtain ⟨rfl, rfl⟩ := ok_mk_inj ht
    refine ⟨hsound, fun id hid => ?_⟩
    rcases List.mem_append.mp hid with hid | hid
    · exact hr id hid
    · exact Int.lt_of_lt_of_le (hq.returned_lt id hid) (Int.ofNat_le.mpr hle)
  · rw [hcall] at herr
    cases herr

theorem TracedProcess.Reachable.sound {q : TracedProcess T} (h : q.Reachable) : q.Sound := by
  refine Transition.Reachable.invariant ?_ (fun _ _ _ hq hstep => hq.step hstep) h
  rintro q rfl
  exact ⟨⟨GraphInv.initial, Accounts.empty, fun _ _ _ h => (by cases h),
    fun _ _ _ h => (by cases h)⟩,
    fun _ h => (by cases h)⟩

def nest (p : Bool) : List (TracedCall Bool) :=
  [.call .globalInit false, .call (.willLock p "lock1" (-1) false) true,
    .call (.locked p "lock1" 0) true, .call (.willLock p "lock2" (-1) false) true,
    .call (.locked p "lock2" 1) true]

def swap (p : Bool) : List (TracedCall Bool) :=
  List.flatten [nest p, [.call (.willUnlock p 1) true, .call (.willUnlock p 0) true,
    .call (.willLock (!p) "lock2" 1 false) true, .call (.locked (!p) "lock2" 1) true]]

theorem TracedProcess.Reachable.of_execAll {q : TracedProcess T} {cs : List (TracedCall T)}
    (h : execAll TracedProcess.exec TracedProcess.allows .start cs = some q) : q.Reachable :=
  Transition.Reachable.run (.start rfl) (execAll_run (fun _ _ _ ha he => ⟨ha, he⟩) h)

/-- Whatever the threads call, no backtrace is read or deleted that is gone. -/
theorem traces_never_dangle {q : TracedProcess T} (h : q.Reachable) {c : TracedCall T}
    (hallows : q.allows c = true) : q.traced.exec c ≠ .error .dangling := by
  have hq := h.sound
  rcases hq.traced.exec (hq.allowed hallows) with ⟨t, r, ht, -⟩ | ⟨f, herr, hne⟩
  · rw [ht]
    exact fun heq => by cases heq
  · rw [herr]
    exact fun heq => hne (Except.error.inj heq)

/-- A shutdown while both locks are held. -/
theorem traces_never_dangle_held : ∃ q : TracedProcess Bool, q.Reachable ∧
    q.traced.state.held true = [0, 1] ∧
      q.traced.exec (.call .globalDestroy false) ≠ .error .dangling := by
  have hexec : ∃ q ∈ execAll TracedProcess.exec TracedProcess.allows .start (nest true),
      q.traced.state.held true = [0, 1] := by
    decide +kernel
  obtain ⟨q, hq, hheld⟩ := hexec
  have hreach := TracedProcess.Reachable.of_execAll hq
  exact ⟨q, hreach, hheld, traces_never_dangle hreach rfl⟩

/-- A backtrace is on the heap as long as it belongs to a class that a thread holds or to a
dependency of the graph, to one of them alone; what does not is lost, by a thread that locked a
class it held, or by a shutdown while a class was held. -/
theorem traces_accounted {q : TracedProcess T} (h : q.Reachable) :
    (∀ n, q.traced.heap.live n = true ↔
      (∃ p, ∃ k ∈ q.traced.state.held p, q.traced.heap.slot (.held p k) = some n) ∨
      (∃ a b, Edge q.traced.state.follows a b ∧ q.traced.heap.slot (.follows a b) = some n) ∨
      q.lost n) ∧
    (∀ l m n, q.traced.heap.slot l = some n → q.traced.heap.slot m = some n → l = m) ∧
    ∀ n, q.lost n → ∀ l, q.traced.heap.slot l ≠ some n := by
  obtain ⟨hs, -⟩ := h.sound
  refine ⟨fun n => ⟨fun hn => ?_, ?_⟩, hs.accounts.single, ?_⟩
  · rcases hs.accounts.found n hn with ⟨l, hl⟩ | hlost
    · cases l with
      | held p k => exact Or.inl ⟨p, k, hs.keyed p k n hl, hl⟩
      | follows a b => exact Or.inr (Or.inl ⟨a, b, hs.backed a b n hl, hl⟩)
    · exact Or.inr (Or.inr hlost)
  · rintro (⟨p, k, -, hl⟩ | ⟨a, b, -, hl⟩ | hlost)
    · exact hs.accounts.live _ n hl
    · exact hs.accounts.live _ n hl
    · exact (hs.accounts.gone n hlost).1
  · intro n hlost l hl
    exact (hs.accounts.gone n hlost).2 ⟨l, hl⟩

/-- The first lock is taken again, and its first backtrace is with no held lock any more. -/
theorem traces_accounted_again : ∃ q : TracedProcess Bool, q.Reachable ∧
    q.traced.heap.slot (.held true 0) = some 3 ∧
      ((∃ a b, Edge q.traced.state.follows a b ∧ q.traced.heap.slot (.follows a b) = some 0) ∨
        q.lost 0) := by
  have hexec : ∃ q ∈ execAll TracedProcess.exec TracedProcess.allows .start
      (List.flatten [nest true, [.call (.locked true "lock1" 0) true]]),
      q.traced.heap.slot (.held true 0) = some 3 ∧ q.traced.heap.live 0 = true ∧
      ∀ p, ∀ k ∈ q.traced.state.held p, q.traced.heap.slot (.held p k) ≠ some 0 := by
    decide +kernel
  obtain ⟨q, hq, hslot, hlive, hnot⟩ := hexec
  have hreach := TracedProcess.Reachable.of_execAll hq
  rcases ((traces_accounted hreach).1 0).mp hlive with ⟨p, k, hk, hheld⟩ | hrest
  · exact absurd hheld (hnot p k hk)
  · exact ⟨q, hreach, hslot, hrest⟩

/-- What `lockdep_will_lock` prints before `abort()` is so: either the thread holds the class, or
the dependencies lead from it to one that the thread holds, each printed once and recorded before
the call, with the backtraces that belong to them. -/
theorem report_accurate {q : TracedProcess T} (h : q.Reachable)
    (hallows : q.allows (.call (.willLock p name id recursive) force) = true) {r : Report}
    (herr : q.traced.lockdepWillLock p name id force recursive = .error (.report r)) :
    ∃ s1 i, ensureId q.traced.state name id = .ok (s1, i) ∧
      r.Accurate s1 q.traced.heap p name i.toNat recursive := by
  have hq := h.sound
  have hlt := hq.allowed hallows id (List.mem_singleton_self id)
  rcases hq.traced.willLock p name force recursive hlt with
    ⟨t, i, ht, -⟩ | ⟨why, hstop⟩ | ⟨s1, i, r', hens, hr', hacc⟩
  · rw [herr] at ht
    cases ht
  · rw [herr] at hstop
    cases hstop
  · rw [herr] at hr'
    obtain rfl := Fault.report.inj (Except.error.inj hr')
    exact ⟨s1, i, hens, hacc⟩

/-- The report a call ends with. -/
def Fault.reported {α : Type} : Except Fault α → Option Report
  | .error (.report r) => some r
  | _ => none

omit [DecidableEq T] in
theorem Fault.of_reported {α : Type} {x : Except Fault α} {r : Report}
    (h : Fault.reported x = some r) : x = .error (.report r) := by
  unfold Fault.reported at h
  split at h
  · rw [Option.some.inj h]
  · cases h

/-- And goes on to the first: the backtrace of the dependency is in the report. -/
theorem report_accurate_swapped : ∃ q : TracedProcess Bool, q.Reachable ∧
    (Report.cycle [⟨0, "lock1", 1, "lock2", some 1⟩] 1 0 [⟨1, "lock2", some 3⟩]).Accurate
      q.traced.state q.traced.heap false "lock1" 0 false := by
  have hexec : ∃ q ∈ execAll TracedProcess.exec TracedProcess.allows .start (swap true),
      q.allows (.call (.willLock false "lock1" 0 false) true) = true ∧
      Fault.reported (q.traced.lockdepWillLock false "lock1" 0 true false) =
        some (.cycle [⟨0, "lock1", 1, "lock2", some 1⟩] 1 0 [⟨1, "lock2", some 3⟩]) := by
    decide +kernel
  obtain ⟨q, hq, hallows, hreported⟩ := hexec
  have hreach := TracedProcess.Reachable.of_execAll hq
  obtain ⟨s1, i, hens, hacc⟩ := report_accurate hreach hallows (Fault.of_reported hreported)
  obtain ⟨rfl, rfl⟩ := ok_mk_inj hens
  exact ⟨q, hreach, hacc⟩

end Runs

end LockdepSpdk.Lockdep
