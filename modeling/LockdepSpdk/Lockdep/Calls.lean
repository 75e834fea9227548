import LockdepSpdk.Lib.Transition
import Mathlib.Algebra.Ring.Int.Defs
import Mathlib.Logic.Function.Basic
import Mathlib.Tactic.Common
import Mathlib.Tactic.Simps.Basic

/-!
# The lockdep calls

The file-scope variables of lockdep.cpp as one state, and each function as it
reads and writes them under `lockdep_mutex`. `held p` is the ascending key list of
a `std::map`, and of `follows_bt` only the size is kept: the backtraces in both are
added in Lockdep/Backtraces.lean.
-/

namespace LockdepSpdk.Lockdep

set_option autoImplicit false

open Function Transition

variable {T : Type}

/-- Why a call does not return: `abort()` or a failed assert, an endless `does_follow`, or a signed
overflow, after which nothing is said of the program. -/
inductive Stop where
  | abort
  | diverge
  | overflow
  deriving DecidableEq, Repr

abbrev Graph := Nat → Nat → Bool

def Edge (g : Graph) (a b : Nat) : Prop := g a b = true

def maxLocks : Nat := 128 * 1024

def nrLocks : Nat := 4096

structure State (T : Type) where
  gLockdep : Bool
  lockIds : String → Option Nat
  lockNames : Nat → Option String
  lockRefs : Nat → Option Int
  freeIds : Nat → Bool
  held : T → List Nat
  follows : Graph
  followsSize : Nat
  followsBtSize : Nat
  currentMaxid : Nat
  lastFreedId : Int
  freeIdsInited : Bool

/-- Static storage before `main`. -/
def initial : State T where
  gLockdep := false
  lockIds := fun _ => none
  lockNames := fun _ => none
  lockRefs := fun _ => none
  freeIds := fun _ => false
  held := fun _ => []
  follows := fun _ _ => false
  followsSize := nrLocks
  followsBtSize := nrLocks
  currentMaxid := 0
  lastFreedId := -1
  freeIdsInited := false

def lockdepGlobalInit (s : State T) : State T :=
  if s.gLockdep then s
  else if s.freeIdsInited then { s with gLockdep := true }
  else { s with gLockdep := true, freeIdsInited := true, freeIds := fun _ => true }

def lockdepGlobalDestroy (s : State T) : State T :=
  if s.gLockdep then
    { s with
      gLockdep := false
      held := fun _ => []
      lockNames := fun _ => none
      lockIds := fun _ => none
      follows := fun a b => if a < s.currentMaxid then false else s.follows a b }
  else s

/-- The walk through `free_ids` from bit `i`, with `n` bits left. -/
def scanFreeIds (freeIds : Nat → Bool) : Nat → Nat → Option Nat
  | 0, _ => none
  | n + 1, i => if freeIds i then some i else scanFreeIds freeIds n (i + 1)

def lockdepGetFreeId (s : State T) : Int × State T :=
  if 0 ≤ s.lastFreedId ∧ s.freeIds s.lastFreedId.toNat = true then
    (s.lastFreedId, { s with
      lastFreedId := -1
      freeIds := update s.freeIds s.lastFreedId.toNat false })
  else
    match scanFreeIds s.freeIds maxLocks 0 with
    | some i => (i, { s with freeIds := update s.freeIds i false })
    | none => (-1, s)

/-- Raise `current_maxid` over `id`; the vectors grow by one row when it reaches their size. -/
def growMaxid (s : State T) (id : Nat) : State T :=
  if s.currentMaxid ≤ id then
    { s with
      currentMaxid := id + 1
      followsSize := if id + 1 = s.followsSize then id + 2 else s.followsSize
      followsBtSize := if id + 1 = s.followsSize then id + 2 else s.followsBtSize }
  else s

@[simp] theorem growMaxid_lockRefs (s : State T) (id : Nat) :
    (growMaxid s id).lockRefs = s.lockRefs := by
  unfold growMaxid
  split <;> rfl

@[simps]
def setRefs (s : State T) (id : Nat) (refs : Int) : State T :=
  { s with lockRefs := update s.lockRefs id (some refs) }

def addRef (s : State T) (id : Nat) : State T := setRefs s id ((s.lockRefs id).getD 0 + 1)

/-- The `int` that `lock_refs` has for `id` is not the largest one. -/
def HasRoom (s : State T) (id : Nat) : Prop := (s.lockRefs id).getD 0 < 2 ^ 31 - 1

instance (s : State T) (id : Nat) : Decidable (HasRoom s id) :=
  inferInstanceAs (Decidable ((s.lockRefs id).getD 0 < 2 ^ 31 - 1))

def incRef (s : State T) (id : Nat) : Except Stop (State T) :=
  if HasRoom s id then .ok (addRef s id) else .error .overflow

/-- `_lockdep_register`, called with `lockdep_mutex` held. -/
def registerLocked (s : State T) (name : String) : Except Stop (State T × Int) :=
  if s.gLockdep = false then .ok (s, -1)
  else
    match s.lockIds name with
    | some id => do
      let s' ← incRef s id
      .ok (s', id)
    | none =>
      let (id, s1) := lockdepGetFreeId s
      if id < 0 then .error .abort
      else do
        let s2 := growMaxid s1 id.toNat
        let s3 := { s2 with
          lockIds := update s2.lockIds name (some id.toNat)
          lockNames := update s2.lockNames id.toNat (some name) }
        let s' ← incRef s3 id.toNat
        .ok (s', id)

def lockdepRegister (s : State T) (name : String) : Except Stop (State T × Int) :=
  registerLocked s name

def purge (g : Graph) (maxid id : Nat) : Graph :=
  fun a b => if a = id then false else if b = id ∧ a < maxid then false else g a b

@[simps]
def freeClass (s : State T) (name : String) (id : Nat) : State T where
  gLockdep := s.gLockdep
  lockIds := update s.lockIds name none
  lockNames := update s.lockNames id none
  lockRefs := update s.lockRefs id none
  freeIds := update s.freeIds id true
  held := s.held
  follows := purge s.follows s.currentMaxid id
  followsSize := s.followsSize
  followsBtSize := s.followsBtSize
  currentMaxid := s.currentMaxid
  lastFreedId := id
  freeIdsInited := s.freeIdsInited

def lockdepUnregister (s : State T) (id : Int) : Except Stop (State T) :=
  if id < 0 then .ok s
  else
    match s.lockNames id.toNat with
    | none => .error .abort
    | some name =>
      let refs := (s.lockRefs id.toNat).getD 0 - 1
      if refs = 0 then .ok (freeClass s name id.toNat)
      else .ok (setRefs s id.toNat refs)

/-- `does_follow(a, b)` with `n = current_maxid`. The source recurses without a bound; here a
nesting deeper than the fuel gives `none`. -/
def doesFollow (g : Graph) (n : Nat) : Nat → Nat → Nat → Option Bool
  | 0, _, _ => none
  | fuel + 1, a, b =>
    if g a b then some true
    else (List.range n).anyM fun i => if g a i then doesFollow g n fuel i b else some false

def setEdge (g : Graph) (a b : Nat) : Graph :=
  fun x y => if x = a ∧ y = b then true else g x y

/-- The loop of `lockdep_will_lock` over the locks the thread holds. -/
def checkHeld (n id : Nat) (recursive : Bool) : List Nat → Graph → Except Stop Graph
  | [], g => .ok g
  | h :: hs, g =>
    if h = id then
      if recursive then checkHeld n id recursive hs g else .error .abort
    else if g h id then checkHeld n id recursive hs g
    else
      match doesFollow g n (n + 1) id h with
      | none => .error .diverge
      | some true => .error .abort
      | some false => checkHeld n id recursive hs (setEdge g h id)

/-- A call with `id < 0` registers its name first. -/
def ensureId (s : State T) (name : String) (id : Int) : Except Stop (State T × Int) :=
  if id < 0 then registerLocked s name else .ok (s, id)

@[simps]
def setFollows (s : State T) (g : Graph) : State T := { s with follows := g }

def lockdepWillLock (s : State T) (p : T) (name : String) (id : Int) (recursive : Bool) :
    Except Stop (State T × Int) :=
  if s.gLockdep = false then .ok (s, id)
  else do
    let (s1, i) ← ensureId s name id
    let follows ← checkHeld s1.currentMaxid i.toNat recursive (s1.held p) s1.follows
    .ok (setFollows s1 follows, i)

def insertKey (k : Nat) : List Nat → List Nat
  | [] => [k]
  | h :: hs => if k < h then k :: h :: hs else if k = h then h :: hs else h :: insertKey k hs

@[simps]
def setHeld [DecidableEq T] (s : State T) (p : T) (l : List Nat) : State T :=
  { s with held := update s.held p l }

def lockdepLocked [DecidableEq T] (s : State T) (p : T) (name : String) (id : Int) :
    Except Stop (State T × Int) :=
  if s.gLockdep = false then .ok (s, id)
  else do
    let (s1, i) ← ensureId s name id
    .ok (setHeld s1 p (insertKey i.toNat (s1.held p)), i)

def lockdepWillUnlock [DecidableEq T] (s : State T) (p : T) (id : Int) : Except Stop (State T × Int) :=
  if id < 0 then
    if id = -1 then .ok (s, id) else .error .abort
  else if s.gLockdep = false then .ok (s, id)
  else .ok (setHeld s p ((s.held p).filter (· ≠ id.toNat)), id)

/-! What each call does, for the proofs that follow. -/

@[simp] theorem mem_insertKey {k a : Nat} {l : List Nat} : a ∈ insertKey k l ↔ a = k ∨ a ∈ l := by
  induction l with
  | nil => simp [insertKey]
  | cons h hs ih =>
    simp only [insertKey]
    split
    · simp
    · split
      · next heq => subst heq; simp
      · simp only [List.mem_cons, ih]
        constructor
        · rintro (h | h | h)
          · exact Or.inr (Or.inl h)
          · exact Or.inl h
          · exact Or.inr (Or.inr h)
        · rintro (h | h | h)
          · exact Or.inr (Or.inl h)
          · exact Or.inl h
          · exact Or.inr (Or.inr h)

theorem mem_setHeld [DecidableEq T] {s : State T} {p q : T} {l : List Nat} {a : Nat} :
    a ∈ (setHeld s p l).held q ↔ (q = p ∧ a ∈ l) ∨ (q ≠ p ∧ a ∈ s.held q) := by
  by_cases hq : q = p
  · subst hq
    simp
  · simp [hq]

@[simp] theorem setEdge_edge (g : Graph) (a b : Nat) (x y : Nat) :
    Edge (setEdge g a b) x y ↔ Edge g x y ∨ (x = a ∧ y = b) := by
  simp only [Edge, setEdge]
  split
  · next h => simp [h]
  · next h => simp [h]

theorem purge_edge {g : Graph} {maxid id a b : Nat} (h : Edge (purge g maxid id) a b) :
    Edge g a b ∧ a ≠ id ∧ (a < maxid → b ≠ id) := by
  simp only [Edge, purge] at h
  split at h
  · simp at h
  · split at h
    · simp at h
    · next ha hb =>
      refine ⟨h, ha, ?_⟩
      intro hlt heq
      exact hb ⟨heq, hlt⟩

theorem purge_edge_of_ne {g : Graph} {maxid id a b : Nat} (h : Edge g a b) (ha : a ≠ id)
    (hb : b ≠ id) : Edge (purge g maxid id) a b := by
  simpa [Edge, purge, ha, hb] using h

theorem scanFreeIds_spec {freeIds : Nat → Bool} {n i k : Nat}
    (h : scanFreeIds freeIds n i = some k) :
    freeIds k = true ∧ k < i + n ∧ ∀ j, i ≤ j → j < k → freeIds j = false := by
  induction n generalizing i with
  | zero => simp [scanFreeIds] at h
  | succ n ih =>
    simp only [scanFreeIds] at h
    split at h
    · next hi =>
      obtain rfl : i = k := Option.some.inj h
      exact ⟨hi, by omega, fun j hij hji => by omega⟩
    · next hi =>
      obtain ⟨hk, hlt, hfirst⟩ := ih h
      refine ⟨hk, by omega, ?_⟩
      intro j hij hjk
      by_cases hj : j = i
      · rw [hj]
        exact Bool.not_eq_true _ ▸ hi
      · exact hfirst j (by omega) hjk

/-- The id handed out is free; it was freed last, or it is the smallest of the free ones. -/
structure PicksId (s : State T) (k : Nat) : Prop where
  free : s.freeIds k = true
  first : s.lastFreedId = k ∨ (k < maxLocks ∧ ∀ j, j < k → s.freeIds j = false)

theorem lockdepGetFreeId_spec {s s1 : State T} {id : Int} (h : lockdepGetFreeId s = (id, s1))
    (hid : 0 ≤ id) : PicksId s id.toNat ∧
      ∃ last, (last = -1 ∨ last = s.lastFreedId) ∧
        s1 = { s with freeIds := update s.freeIds id.toNat false, lastFreedId := last } := by
  unfold lockdepGetFreeId at h
  split at h
  · next hlast =>
    obtain ⟨rfl, rfl⟩ := Prod.mk.inj h
    exact ⟨⟨hlast.2, Or.inl (by omega)⟩, -1, Or.inl rfl, rfl⟩
  · split at h
    · next i hscan =>
      obtain ⟨rfl, rfl⟩ := Prod.mk.inj h
      obtain ⟨hfree, hlt, hfirst⟩ := scanFreeIds_spec hscan
      refine ⟨⟨hfree, Or.inr ⟨?_, ?_⟩⟩, s.lastFreedId, Or.inr rfl, rfl⟩
      · change i < maxLocks
        omega
      · intro j hj
        exact hfirst j (Nat.zero_le j) hj
    · obtain ⟨rfl, rfl⟩ := Prod.mk.inj h
      omega

/-- What registering `name` under the new id `k` does. -/
structure FreshId (s s' : State T) (name : String) (k : Nat) : Prop where
  unnamed : s.lockIds name = none
  picks : PicksId s k
  gLockdep : s'.gLockdep = s.gLockdep
  lockIds : s'.lockIds = update s.lockIds name (some k)
  lockNames : s'.lockNames = update s.lockNames k (some name)
  freeIds : s'.freeIds = update s.freeIds k false
  held : s'.held = s.held
  follows : s'.follows = s.follows
  maxid : s'.currentMaxid = max s.currentMaxid (k + 1)
  inited : s'.freeIdsInited = s.freeIdsInited
  refs : s'.lockRefs = update s.lockRefs k (some ((s.lockRefs k).getD 0 + 1))
  last : s'.lastFreedId = -1 ∨ s'.lastFreedId = s.lastFreedId
  size : s'.followsSize = if s.currentMaxid ≤ k ∧ k + 1 = s.followsSize then k + 2
    else s.followsSize
  btSize : s'.followsBtSize = if s.currentMaxid ≤ k ∧ k + 1 = s.followsSize then k + 2
    else s.followsBtSize

theorem FreshId.free {s s' : State T} {name : String} {k : Nat} (h : FreshId s s' name k) :
    s.freeIds k = true := h.picks.free

theorem incRef_ok {s s' : State T} {k : Nat} (h : incRef s k = .ok s') :
    HasRoom s k ∧ s' = addRef s k := by
  unfold incRef at h
  split at h
  · next hroom => exact ⟨hroom, (Except.ok.inj h).symm⟩
  · cases h

/-- A registration finds the class of its name, or gives it a free id. -/
theorem registerLocked_cases {s s' : State T} {name : String} {i : Int}
    (hg : s.gLockdep = true) (h : registerLocked s name = .ok (s', i)) :
    (∃ k : Nat, i = k ∧ s.lockIds name = some k ∧ HasRoom s k ∧ s' = addRef s k) ∨
      ∃ k : Nat, i = k ∧ HasRoom s k ∧ FreshId s s' name k := by
  simp only [registerLocked, hg, Bool.true_eq_false, if_false] at h
  cases hname : s.lockIds name with
  | some k =>
    rw [hname] at h
    obtain ⟨s1, hinc, hret⟩ := bind_ok h
    obtain ⟨hroom, rfl⟩ := incRef_ok hinc
    obtain ⟨rfl, rfl⟩ := ok_mk_inj hret
    exact Or.inl ⟨k, rfl, rfl, hroom, rfl⟩
  | none =>
    rw [hname] at h
    obtain ⟨id, s1, hget⟩ : ∃ id s1, lockdepGetFreeId s = (id, s1) := ⟨_, _, rfl⟩
    simp only [hget] at h
    split at h
    · cases h
    · next hneg =>
      obtain ⟨s2, hinc, hret⟩ := bind_ok h
      obtain ⟨hroom, hs2⟩ := incRef_ok hinc
      obtain ⟨hs', rfl⟩ := ok_mk_inj hret
      have hid : 0 ≤ id := by omega
      obtain ⟨hpicks, last, hlast, rfl⟩ := lockdepGetFreeId_spec hget hid
      refine Or.inr ⟨id.toNat, by omega, ?_, ?_⟩
      · simpa [HasRoom, growMaxid_lockRefs] using hroom
      rw [← hs', hs2]
      clear hs' hs2 hinc hroom
      by_cases hmax : s.currentMaxid ≤ id.toNat
      · simp only [addRef, setRefs, growMaxid, hmax, if_true]
        exact ⟨hname, hpicks, rfl, rfl, rfl, rfl, rfl, rfl, by simp only; omega, rfl, rfl, hlast,
          by simp only [true_and, hmax], by simp only [true_and, hmax]⟩
      · simp only [addRef, setRefs, growMaxid, hmax, if_false]
        exact ⟨hname, hpicks, rfl, rfl, rfl, rfl, rfl, rfl, by simp only; omega, rfl, rfl, hlast,
          by simp [hmax], by simp [hmax]⟩

theorem registerLocked_found {s : State T} {name : String} {k : Nat} (hg : s.gLockdep = true)
    (hname : s.lockIds name = some k) : registerLocked s name =
      if HasRoom s k then .ok (addRef s k, (k : Int)) else .error .overflow := by
  simp only [registerLocked, hg, hname, Bool.true_eq_false, if_false, incRef]
  split
  · rfl
  · rfl

theorem registerLocked_none {s : State T} {name : String} (hg : s.gLockdep = true)
    (hname : s.lockIds name = none) (hid : (lockdepGetFreeId s).1 < 0) :
    registerLocked s name = .error .abort := by
  simp only [registerLocked, hg, hname, Bool.true_eq_false, if_false, if_pos hid]

theorem lockdepGetFreeId_lockRefs (s : State T) : (lockdepGetFreeId s).2.lockRefs = s.lockRefs := by
  unfold lockdepGetFreeId
  split
  · rfl
  · split <;> rfl

theorem registerLocked_new {s : State T} {name : String} {k : Nat} (hg : s.gLockdep = true)
    (hname : s.lockIds name = none) (hid : (lockdepGetFreeId s).1 = k) :
    (HasRoom s k → ∃ s', registerLocked s name = .ok (s', (k : Int)) ∧
      s'.lastFreedId = (lockdepGetFreeId s).2.lastFreedId) ∧
    (¬ HasRoom s k → registerLocked s name = .error .overflow) := by
  have hrefs := lockdepGetFreeId_lockRefs s
  simp only [registerLocked, hg, hname, Bool.true_eq_false, if_false, hid, Int.toNat_natCast,
    show ¬ ((k : Int) < 0) by omega, incRef, HasRoom, growMaxid_lockRefs, hrefs]
  refine ⟨fun hroom => ?_, fun hfull => ?_⟩
  · rw [if_pos hroom]
    refine ⟨_, rfl, ?_⟩
    simp only [addRef, setRefs, growMaxid]
    split <;> rfl
  · rw [if_neg hfull]
    rfl

theorem registerLocked_off {s : State T} {name : String} (hg : s.gLockdep = false) :
    registerLocked s name = .ok (s, -1) := by
  simp [registerLocked, hg]

end LockdepSpdk.Lockdep
