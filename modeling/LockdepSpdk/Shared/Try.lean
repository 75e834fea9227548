import LockdepSpdk.Lib.Transition
import LockdepSpdk.Shared.Machine

/-!
# Try operations

`try_lock` and `try_lock_shared` of `shared_mutex_debug_impl`, as a thread runs
them alone from any state of the object, and when they leave no trace of a
failed attempt.
-/

namespace LockdepSpdk.Shared

set_option autoImplicit false

open Function Lockdep Transition

/-- What the operations on `rwlock` return. -/
inductive RwCode where
  | ok
  | ebusy
  | eagain
  | edeadlk
  deriving DecidableEq

/-- How a call ends, with what it leaves of lockdep and of the object. -/
inductive Outcome (T : Type) where
  | returned (b : Bool) (l : State T) (o : Obj T)
  | threw (code : RwCode) (l : State T) (o : Obj T)
  /-- It waits inside `pthread_rwlock_rdlock`. -/
  | waiting (l : State T) (o : Obj T)
  | stopped (why : Halt)

section
variable {T : Type} [DecidableEq T]

def trywrlock (t : T) (o : Obj T) : RwCode × Obj T :=
  if o.writer = none ∧ o.readers = [] then (.ok, { o with writer := some t }) else (.ebusy, o)

def pthreadRdlock (maxReaders : Nat) (t : T) (o : Obj T) : Option (RwCode × Obj T) :=
  match o.writer with
  | some u => if u = t then some (.edeadlk, o) else none
  | none =>
    if o.readers.length < maxReaders then some (.ok, { o with readers := t :: o.readers })
    else some (.eagain, o)

def hooked (l : State T) (t : T) (o : Obj T) (h : Hook) : Except Halt (State T × Obj T) :=
  if lockdepEnabled l o then
    match hookCall l t o o.id h with
    | .ok (l', i) => .ok (l', { o with id := i })
    | .error e => .error (.lockdep e)
  else .ok (l, o)

def postLock (t : T) (o : Obj T) : Except Halt (Obj T) :=
  if o.track then
    if o.nlock = 0 then .ok { o with lockedBy := some t, nlock := o.nlock + 1 } else .error .assert
  else .ok o

def postLockShared (o : Obj T) : Obj T := if o.track then { o with nrlock := incr o.nrlock } else o

def tryLock (l : State T) (t : T) (o : Obj T) : Outcome T :=
  match trywrlock t o with
  | (.ok, o1) =>
    match hooked l t o1 .locked with
    | .error e => .stopped e
    | .ok (l1, o2) =>
      match postLock t o2 with
      | .error e => .stopped e
      | .ok o3 => .returned true l1 o3
  | (.ebusy, o1) => .returned false l o1
  | (code, o1) => .threw code l o1

/-- It takes the class out of `held` first, and calls `pthread_rwlock_rdlock`. -/
def tryLockShared (maxReaders : Nat) (l : State T) (t : T) (o : Obj T) : Outcome T :=
  match hooked l t o .willUnlock with
  | .error e => .stopped e
  | .ok (l1, o1) =>
    match pthreadRdlock maxReaders t o1 with
    | none => .waiting l1 o1
    | some (.ok, o2) =>
      match hooked l1 t o2 .locked with
      | .error e => .stopped e
      | .ok (l2, o3) => .returned true l2 (postLockShared o3)
    | some (.ebusy, o2) => .returned false l1 o2
    | some (code, o2) => .threw code l1 o2

/-! What a try operation is to do. -/

/-- The bookkeeping is as it was. -/
structure Undisturbed (l : State T) (o : Obj T) (l' : State T) (o' : Obj T) : Prop where
  held : l'.held = l.held
  nlock : o'.nlock = o.nlock
  nrlock : o'.nrlock = o.nrlock
  lockedBy : o'.lockedBy = o.lockedBy

/-- The call comes back; with `true` it has what `acquired` says, and its class is held. -/
def Outcome.Clean (acquired : Obj T → Prop) (l : State T) (t : T) (o : Obj T) : Outcome T → Prop
  | .returned true l' o' =>
    acquired o' ∧ (lockdepEnabled l o = true → ∃ k : Nat, o'.id = k ∧ k ∈ l'.held t)
  | .returned false l' o' => Undisturbed l o l' o'
  | .threw _ l' o' => Undisturbed l o l' o'
  | .waiting _ _ => False
  | .stopped _ => False

/-- Both try operations of `t`, in this state. -/
structure TryClean (maxReaders : Nat) (l : State T) (t : T) (o : Obj T) : Prop where
  exclusive : (tryLock l t o).Clean
    (fun o' => o.writer = none ∧ o.readers = [] ∧ o'.writer = some t) l t o
  shared : (tryLockShared maxReaders l t o).Clean
    (fun o' => o.writer = none ∧ o'.readers = t :: o.readers) l t o

def idFor (l : State T) (name : String) : Int :=
  match l.lockIds name with
  | some k => k
  | none => (lockdepGetFreeId l).1

/-- `_lockdep_register` has an id for the name, and can count one more reference to it. -/
def FindsId (l : State T) (name : String) : Prop :=
  0 ≤ idFor l name ∧ HasRoom l (idFor l name).toNat

/-- What the locked hook needs. -/
def Registrable (l : State T) (o : Obj T) : Prop :=
  lockdepEnabled l o = true → o.id < 0 → FindsId l o.group

def Admits (maxReaders : Nat) (o : Obj T) : Prop :=
  o.writer = none ∧ o.readers.length < maxReaders

variable {l l' : State T} {t : T} {o o' : Obj T} {maxReaders : Nat}

theorem hooked_off (h : lockdepEnabled l o = false) (k : Hook) : hooked l t o k = .ok (l, o) := by
  unfold hooked
  rw [h]
  exact rfl

omit [DecidableEq T] in
theorem registerLocked_finds {name : String} (hon : l.gLockdep = true) (h : FindsId l name) :
    ∃ l' k, registerLocked l name = .ok (l', (k : Nat)) := by
  obtain ⟨hid, hroom⟩ := h
  unfold idFor at hid hroom
  cases hname : l.lockIds name with
  | some k =>
    rw [hname] at hroom
    exact ⟨_, k, (registerLocked_found hon hname).trans (if_pos hroom)⟩
  | none =>
    rw [hname] at hid hroom
    obtain ⟨k, hk⟩ := Int.eq_ofNat_of_zero_le hid
    rw [hk, Int.toNat_natCast] at hroom
    obtain ⟨l', hok, _⟩ := (registerLocked_new hon hname hk).1 hroom
    exact ⟨l', k, hok⟩

omit [DecidableEq T] in
theorem registerLocked_lost {name : String} (hon : l.gLockdep = true) (h : ¬ FindsId l name) :
    ∃ e, registerLocked l name = .error e := by
  unfold FindsId idFor at h
  cases hname : l.lockIds name with
  | some k =>
    rw [hname] at h
    refine ⟨.overflow, (registerLocked_found hon hname).trans (if_neg ?_)⟩
    exact fun hroom => h ⟨Int.natCast_nonneg k, hroom⟩
  | none =>
    rw [hname] at h
    change ¬ (0 ≤ (lockdepGetFreeId l).1 ∧ HasRoom l (lockdepGetFreeId l).1.toNat) at h
    by_cases hneg : (lockdepGetFreeId l).1 < 0
    · exact ⟨.abort, registerLocked_none hon hname hneg⟩
    · obtain ⟨k, hk⟩ := Int.eq_ofNat_of_zero_le (Int.not_lt.mp hneg)
      refine ⟨.overflow, (registerLocked_new hon hname hk).2 ?_⟩
      intro hroom
      refine h ⟨by omega, ?_⟩
      rw [hk, Int.toNat_natCast]
      exact hroom

/-! The hooks. -/

theorem hooked_locked (hreg : Registrable l o) :
    ∃ l' i, hooked l t o .locked = .ok (l', { o with id := i }) ∧
      (lockdepEnabled l o = true → ∃ k : Nat, i = k ∧ k ∈ l'.held t) := by
  cases henabled : lockdepEnabled l o with
  | false =>
    refine ⟨l, o.id, hooked_off henabled _, ?_⟩
    intro hon
    cases hon
  | true =>
    have hon : l.gLockdep = true := (Bool.and_eq_true_iff.mp henabled).2
    obtain ⟨l1, k, hens⟩ : ∃ l1, ∃ k : Nat, ensureId l o.group o.id = .ok (l1, (k : Int)) := by
      by_cases hid : o.id < 0
      · obtain ⟨l1, k, hk⟩ := registerLocked_finds hon (hreg henabled hid)
        exact ⟨l1, k, (if_pos hid).trans hk⟩
      · obtain ⟨k, hk⟩ := Int.eq_ofNat_of_zero_le (Int.not_lt.mp hid)
        exact ⟨l, k, (if_neg hid).trans (by rw [hk])⟩
    have hcall : hookCall l t o o.id .locked =
        .ok (setHeld l1 t (insertKey k (l1.held t)), (k : Int)) := by
      unfold hookCall lockdepLocked
      rw [if_neg (by rw [hon]; decide), hens]
      exact rfl
    refine ⟨setHeld l1 t (insertKey k (l1.held t)), k, ?_, fun _ => ⟨k, rfl, ?_⟩⟩
    · unfold hooked
      rw [if_pos henabled, hcall]
    · rw [setHeld_held, update_self]
      exact mem_insertKey.mpr (Or.inl rfl)

theorem hooked_locked_stops (hreg : ¬ Registrable l o) :
    ∃ e, hooked l t o .locked = .error e := by
  unfold Registrable at hreg
  push Not at hreg
  obtain ⟨henabled, hid, hlost⟩ := hreg
  have hon : l.gLockdep = true := (Bool.and_eq_true_iff.mp henabled).2
  obtain ⟨e, hreg⟩ := registerLocked_lost hon hlost
  have hcall : hookCall l t o o.id .locked = .error e := by
    unfold hookCall lockdepLocked ensureId
    rw [if_neg (by rw [hon]; decide), if_pos hid, hreg]
    exact rfl
  refine ⟨.lockdep e, ?_⟩
  unfold hooked
  rw [if_pos henabled, hcall]

/-- `held` without the class of the object. -/
def unheld (l : State T) (t : T) (o : Obj T) : State T :=
  if lockdepEnabled l o = true ∧ 0 ≤ o.id then
    setHeld l t ((l.held t).filter (· ≠ o.id.toNat))
  else l

theorem hooked_willUnlock (h : lockdepEnabled l o = true → -1 ≤ o.id) :
    hooked l t o .willUnlock = .ok (unheld l t o, o) := by
  cases henabled : lockdepEnabled l o with
  | false =>
    have hsame : unheld l t o = l := if_neg (by simp [henabled])
    rw [hsame]
    exact hooked_off henabled _
  | true =>
    have hon : l.gLockdep = true := (Bool.and_eq_true_iff.mp henabled).2
    have hcall : hookCall l t o o.id .willUnlock = .ok (unheld l t o, o.id) := by
      unfold hookCall lockdepWillUnlock unheld
      by_cases hid : o.id < 0
      · have hge := h henabled
        rw [if_pos hid, if_pos (by omega), if_neg (by omega)]
      · rw [if_neg hid, if_neg (by rw [hon]; decide), if_pos ⟨henabled, by omega⟩]
    unfold hooked
    rw [if_pos henabled, hcall]

theorem hooked_willUnlock_stops (henabled : lockdepEnabled l o = true) (hid : o.id < -1) :
    ∃ e, hooked l t o .willUnlock = .error e := by
  have hcall : hookCall l t o o.id .willUnlock = .error .abort := by
    unfold hookCall lockdepWillUnlock
    rw [if_pos (by omega), if_neg (by omega)]
  refine ⟨.lockdep .abort, ?_⟩
  unfold hooked
  rw [if_pos henabled, hcall]

theorem unheld_gLockdep : (unheld l t o).gLockdep = l.gLockdep := by
  unfold unheld
  split <;> rfl

/-- The hook leaves `held` alone only when the class is not in it. -/
theorem unheld_held : (unheld l t o).held = l.held ↔
    (lockdepEnabled l o = true → 0 ≤ o.id → o.id.toNat ∉ l.held t) := by
  unfold unheld
  by_cases hcond : lockdepEnabled l o = true ∧ 0 ≤ o.id
  · rw [if_pos hcond]
    constructor
    · intro hsame _ _ hmem
      have hlist := congrFun hsame t
      rw [setHeld_held, update_self] at hlist
      rw [← hlist, List.mem_filter] at hmem
      simp at hmem
    · intro hnot
      have hmem := hnot hcond.1 hcond.2
      change update l.held t ((l.held t).filter (· ≠ o.id.toNat)) = l.held
      rw [List.filter_eq_self.mpr, update_eq_self]
      intro a ha
      rw [decide_eq_true_iff]
      intro heq
      exact hmem (heq ▸ ha)
  · rw [if_neg hcond]
    exact ⟨fun _ henabled hid => absurd ⟨henabled, hid⟩ hcond, fun _ => rfl⟩

omit [DecidableEq T] in
theorem registrable_congr (hl : l'.gLockdep = l.gLockdep) (hids : l'.lockIds = l.lockIds)
    (hrefs : l'.lockRefs = l.lockRefs) (hfree : (lockdepGetFreeId l').1 = (lockdepGetFreeId l).1)
    (hlock : o'.lockdep = o.lockdep) (hid : o'.id = o.id) (hgroup : o'.group = o.group) :
    Registrable l' o' ↔ Registrable l o := by
  unfold Registrable FindsId idFor HasRoom lockdepEnabled
  rw [hl, hids, hrefs, hfree, hlock, hid, hgroup]

theorem lockdepGetFreeId_setHeld (ls : List Nat) :
    (lockdepGetFreeId (setHeld l t ls)).1 = (lockdepGetFreeId l).1 := by
  unfold lockdepGetFreeId setHeld
  simp only
  split
  · rfl
  · split <;> rfl

theorem registrable_unheld (hlock : o'.lockdep = o.lockdep) (hid : o'.id = o.id)
    (hgroup : o'.group = o.group) : Registrable (unheld l t o) o' ↔ Registrable l o := by
  unfold unheld
  split
  · exact registrable_congr rfl rfl rfl (lockdepGetFreeId_setHeld _) hlock hid hgroup
  · exact registrable_congr rfl rfl rfl rfl hlock hid hgroup

/-! The calls. -/

omit [DecidableEq T] in
theorem postLock_clear (h : o.track = true → o.nlock = 0) :
    ∃ o', postLock t o = .ok o' ∧ o'.writer = o.writer ∧ o'.id = o.id := by
  unfold postLock
  by_cases htrack : o.track = true
  · rw [if_pos htrack, if_pos (h htrack)]
    exact ⟨_, rfl, rfl, rfl⟩
  · rw [if_neg htrack]
    exact ⟨o, rfl, rfl, rfl⟩

theorem tryLock_clean_iff : (tryLock l t o).Clean
    (fun o' => o.writer = none ∧ o.readers = [] ∧ o'.writer = some t) l t o ↔
      ((o.writer = none ∧ o.readers = []) →
        (o.track = true → o.nlock = 0) ∧ Registrable l o) := by
  unfold tryLock trywrlock
  by_cases hfree : o.writer = none ∧ o.readers = []
  · rw [if_pos hfree]
    simp only
    by_cases hreg : Registrable l o
    · obtain ⟨l1, i, hhook, hheld⟩ : ∃ l1 i, hooked l t { o with writer := some t } .locked =
          .ok (l1, { o with writer := some t, id := i }) ∧
          (lockdepEnabled l o = true → ∃ k : Nat, i = k ∧ k ∈ l1.held t) := hooked_locked hreg
      rw [hhook]
      simp only
      by_cases hnlock : o.track = true → o.nlock = 0
      · obtain ⟨o3, hpost, hwriter, hid⟩ : ∃ o3, postLock t { o with writer := some t, id := i } =
            .ok o3 ∧ o3.writer = some t ∧ o3.id = i := postLock_clear hnlock
        rw [hpost]
        refine ⟨fun _ _ => ⟨hnlock, hreg⟩, fun _ => ⟨⟨hfree.1, hfree.2, hwriter⟩, ?_⟩⟩
        intro henabled
        rw [hid]
        exact hheld henabled
      · have hbad := hnlock
        push Not at hbad
        have hpost : postLock t { o with writer := some t, id := i } = .error .assert := by
          unfold postLock
          rw [if_pos hbad.1, if_neg hbad.2]
        rw [hpost]
        exact ⟨False.elim, fun h => absurd (h hfree).1 hnlock⟩
    · obtain ⟨e, hhook⟩ : ∃ e, hooked l t { o with writer := some t } .locked = .error e :=
        hooked_locked_stops hreg
      rw [hhook]
      exact ⟨False.elim, fun h => absurd (h hfree).2 hreg⟩
  · rw [if_neg hfree]
    exact ⟨fun _ h => absurd h hfree, fun _ => ⟨rfl, rfl, rfl, rfl⟩⟩

/-- What `try_lock_shared` takes to be clean: an id that `_will_unlock` accepts, no writer to wait
for, a class it can hold once let in, and otherwise none that `_will_unlock` takes away. -/
structure SharedClean (maxReaders : Nat) (l : State T) (t : T) (o : Obj T) : Prop where
  id : lockdepEnabled l o = true → -1 ≤ o.id
  writer : o.writer = none ∨ o.writer = some t
  admitted : Admits maxReaders o → Registrable l o
  refused : ¬ Admits maxReaders o → lockdepEnabled l o = true → 0 ≤ o.id →
    o.id.toNat ∉ l.held t

theorem undisturbed_unheld : Undisturbed l o (unheld l t o) o ↔
    (lockdepEnabled l o = true → 0 ≤ o.id → o.id.toNat ∉ l.held t) :=
  ⟨fun h => unheld_held.mp h.held, fun h => ⟨unheld_held.mpr h, rfl, rfl, rfl⟩⟩

theorem tryLockShared_clean_iff : (tryLockShared maxReaders l t o).Clean
    (fun o' => o.writer = none ∧ o'.readers = t :: o.readers) l t o ↔
      SharedClean maxReaders l t o := by
  unfold tryLockShared
  by_cases hid : lockdepEnabled l o = true → -1 ≤ o.id
  · rw [hooked_willUnlock hid]
    simp only
    cases hw : o.writer with
    | some u =>
      have hnot : ¬ Admits maxReaders o := by
        intro hadmits
        rw [hadmits.1] at hw
        cases hw
      by_cases hu : u = t
      · -- the writer itself
        subst hu
        have hcode : pthreadRdlock maxReaders u o = some (.edeadlk, o) := by
          unfold pthreadRdlock
          rw [hw]
          exact if_pos rfl
        rw [hcode]
        refine undisturbed_unheld.trans ⟨?_, fun h => h.refused hnot⟩
        intro h
        exact ⟨hid, Or.inr hw, fun hadmits => absurd hadmits hnot, fun _ => h⟩
      · have hcode : pthreadRdlock maxReaders t o = none := by
          unfold pthreadRdlock
          rw [hw]
          exact if_neg hu
        rw [hcode]
        refine ⟨False.elim, fun h => ?_⟩
        rcases h.writer with hnone | hself
        · rw [hw] at hnone
          cases hnone
        · rw [hw] at hself
          exact absurd (Option.some.inj hself) hu
    | none =>
      by_cases hroom : o.readers.length < maxReaders
      · have hcode : pthreadRdlock maxReaders t o =
            some (.ok, { o with readers := t :: o.readers }) := by
          unfold pthreadRdlock
          rw [hw]
          exact if_pos hroom
        have hadmits : Admits maxReaders o := ⟨hw, hroom⟩
        have hreg' : Registrable (unheld l t o) { o with readers := t :: o.readers } ↔
            Registrable l o := registrable_unheld rfl rfl rfl
        rw [hcode]
        simp only
        by_cases hreg : Registrable l o
        · obtain ⟨l1, i, hhook, hheld⟩ := hooked_locked (t := t) (hreg'.mpr hreg)
          rw [hhook]
          refine ⟨fun _ => ⟨hid, Or.inl hw, fun _ => hreg, fun hno => absurd hadmits hno⟩, ?_⟩
          intro _
          have henabled' : lockdepEnabled (unheld l t o) { o with readers := t :: o.readers } =
              lockdepEnabled l o := by
            unfold lockdepEnabled
            rw [unheld_gLockdep]
          rw [henabled'] at hheld
          have hpost : ∀ o' : Obj T, (postLockShared o').readers = o'.readers ∧
              (postLockShared o').id = o'.id := by
            intro o'
            unfold postLockShared
            split
            · exact ⟨rfl, rfl⟩
            · exact ⟨rfl, rfl⟩
          refine ⟨⟨trivial, (hpost _).1⟩, ?_⟩
          intro henabled
          rw [(hpost _).2]
          exact hheld henabled
        · obtain ⟨e, hhook⟩ := hooked_locked_stops (t := t) (fun h => hreg (hreg'.mp h))
          rw [hhook]
          exact ⟨False.elim, fun h => absurd (h.admitted hadmits) hreg⟩
      · have hcode : pthreadRdlock maxReaders t o = some (.eagain, o) := by
          unfold pthreadRdlock
          rw [hw]
          exact if_neg hroom
        have hnot : ¬ Admits maxReaders o := fun hadmits => hroom hadmits.2
        rw [hcode]
        refine undisturbed_unheld.trans ⟨?_, fun h => h.refused hnot⟩
        intro h
        exact ⟨hid, Or.inl hw, fun hadmits => absurd hadmits hnot, fun _ => h⟩
  · have hbad := hid
    push Not at hbad
    obtain ⟨e, hhook⟩ := hooked_willUnlock_stops (t := t) hbad.1 hbad.2
    rw [hhook]
    exact ⟨False.elim, fun h => absurd h.id hid⟩

/-- Exactly when both try operations come back, and a failed one leaves the bookkeeping alone. -/
theorem try_clean_iff (maxReaders : Nat) (l : State T) (t : T) (o : Obj T) :
    TryClean maxReaders l t o ↔
      ((o.writer = none ∧ o.readers = []) → (o.track = true → o.nlock = 0) ∧ Registrable l o) ∧
        SharedClean maxReaders l t o := by
  constructor
  · intro h
    exact ⟨tryLock_clean_iff.mp h.exclusive, tryLockShared_clean_iff.mp h.shared⟩
  · rintro ⟨hexclusive, hshared⟩
    exact ⟨tryLock_clean_iff.mpr hexclusive, tryLockShared_clean_iff.mpr hshared⟩

/-! The calls as runs of a thread alone. -/

def Own (t : T) : Act T → Prop
  | .call u _ => u = t
  | .step u _ => u = t
  | .elsewhere _ => False

def Solo (maxReaders : Nat) (t : T) (s s' : Sys T) : Prop :=
  ∃ ls, Run (fun s a s' => exec maxReaders s a = .ok s') s ls s' ∧ ∀ a ∈ ls, Own t a

section
variable {calls : T → Option Call} {op : Op} {h : Hook} {s s' s'' : Sys T}

theorem Solo.refl (s : Sys T) : Solo maxReaders t s s :=
  ⟨[], .nil s, fun a ha => by cases ha⟩

theorem Solo.trans (hs : Solo maxReaders t s s') (hs' : Solo maxReaders t s' s'') :
    Solo maxReaders t s s'' := by
  obtain ⟨ls, hrun, hown⟩ := hs
  obtain ⟨ls', hrun', hown'⟩ := hs'
  refine ⟨ls ++ ls', hrun.trans hrun', ?_⟩
  intro a ha
  rcases List.mem_append.mp ha with ha | ha
  · exact hown a ha
  · exact hown' a ha

theorem solo_call (maxReaders : Nat) (l : State T) (t : T) (o : Obj T) (calls : T → Option Call)
    (op : Op) : Solo maxReaders t ⟨l, o, update calls t none⟩
      ⟨l, o, update calls t (some ⟨op, op.first o⟩)⟩ := by
  refine ⟨[.call t op], .single ?_, ?_⟩
  · unfold exec
    simp only [update_self, update_idem]
  · intro a ha
    rw [List.mem_singleton.mp ha]
    exact rfl

theorem solo_step {p : Point} {p' : Option Point} (r : Reply)
    (hstep : stepCall maxReaders l t ⟨op, p⟩ o r = .ok (l', o', p')) :
    Solo maxReaders t ⟨l, o, update calls t (some ⟨op, p⟩)⟩
      ⟨l', o', update calls t (p'.map (Call.mk op))⟩ := by
  refine ⟨[.step t r], .single ?_, ?_⟩
  · unfold exec
    simp only [update_self, hstep, update_idem]
  · intro a ha
    rw [List.mem_singleton.mp ha]
    exact rfl

theorem solo_hook (maxReaders : Nat) (calls : T → Option Call) (op : Op)
    (hhook : hooked l t o h = .ok (l', o')) :
    Solo maxReaders t ⟨l, o, update calls t (some ⟨op, .hook h .test⟩)⟩
      ⟨l', o', update calls t ((op.afterHook o h).map (Call.mk op))⟩ := by
  have htest : stepCall maxReaders l t ⟨op, .hook h .test⟩ o .granted =
      .ok (l, o, if lockdepEnabled l o then some (.hook h .read) else op.afterHook o h) := rfl
  have hfirst : Solo maxReaders t ⟨l, o, update calls t (some ⟨op, .hook h .test⟩)⟩
      ⟨l, o, update calls t ((if lockdepEnabled l o then some (.hook h .read)
        else op.afterHook o h).map (Call.mk op))⟩ := solo_step .granted htest
  unfold hooked at hhook
  by_cases henabled : lockdepEnabled l o = true
  · rw [if_pos henabled] at hhook hfirst
    cases hcall : hookCall l t o o.id h with
    | error e =>
      rw [hcall] at hhook
      cases hhook
    | ok res =>
      obtain ⟨l1, i⟩ := res
      rw [hcall] at hhook
      obtain ⟨rfl, rfl⟩ := ok_mk_inj hhook
      have hread : stepCall maxReaders l t ⟨op, .hook h .read⟩ o .granted =
          .ok (l, o, some (.hook h (.body o.id))) := rfl
      have hbody : stepCall maxReaders l t ⟨op, .hook h (.body o.id)⟩ o .granted =
          .ok (l1, o, some (.hook h (.store i))) := by
        unfold stepCall stepHook
        simp only [hcall]
      have hstore : stepCall maxReaders l1 t ⟨op, .hook h (.store i)⟩ o .granted =
          .ok (l1, { o with id := i }, op.afterHook o h) := rfl
      exact hfirst.trans ((solo_step .granted hread).trans
        ((solo_step .granted hbody).trans (solo_step .granted hstore)))
  · rw [if_neg henabled] at hhook hfirst
    obtain ⟨rfl, rfl⟩ := ok_mk_inj hhook
    exact hfirst

theorem hooked_track (hhook : hooked l t o h = .ok (l', o')) : o'.track = o.track := by
  unfold hooked at hhook
  split at hhook
  · split at hhook
    · obtain ⟨_, rfl⟩ := ok_mk_inj hhook
      exact rfl
    · cases hhook
  · obtain ⟨_, rfl⟩ := ok_mk_inj hhook
    exact rfl

theorem solo_postLock (hex : op.exclusive = true) (hpost : postLock t o = .ok o') :
    Solo maxReaders t ⟨l, o, update calls t ((op.afterHook o .locked).map (Call.mk op))⟩
      ⟨l, o', update calls t none⟩ := by
  unfold postLock at hpost
  unfold Op.afterHook
  by_cases htrack : o.track = true
  · rw [if_pos htrack] at hpost
    simp only [if_pos htrack, if_pos hex]
    by_cases hnlock : o.nlock = 0
    · rw [if_pos hnlock] at hpost
      obtain rfl := Except.ok.inj hpost
      have hcheck : stepCall maxReaders l t ⟨op, .postLockCheck⟩ o .granted =
          .ok (l, o, some .postLockOwner) := if_pos (beq_iff_eq.mpr hnlock)
      have howner : stepCall maxReaders l t ⟨op, .postLockOwner⟩ o .granted =
          .ok (l, { o with lockedBy := some t }, some .postLockCount) := rfl
      have hcount : stepCall maxReaders l t ⟨op, .postLockCount⟩ { o with lockedBy := some t }
          .granted = .ok (l, { o with lockedBy := some t, nlock := o.nlock + 1 }, none) := rfl
      exact (solo_step .granted hcheck).trans
        ((solo_step .granted howner).trans (solo_step .granted hcount))
    · rw [if_neg hnlock] at hpost
      cases hpost
  · rw [if_neg htrack] at hpost
    obtain rfl := Except.ok.inj hpost
    simp only [if_neg htrack]
    exact Solo.refl _

theorem solo_postLockShared (hex : op.exclusive = false) :
    Solo maxReaders t ⟨l, o, update calls t ((op.afterHook o .locked).map (Call.mk op))⟩
      ⟨l, postLockShared o, update calls t none⟩ := by
  unfold postLockShared Op.afterHook
  by_cases htrack : o.track = true
  · have hcount : stepCall maxReaders l t ⟨op, .postLockShared⟩ o .granted =
        .ok (l, { o with nrlock := incr o.nrlock }, none) := rfl
    simp only [if_pos htrack, hex, Bool.false_eq_true, if_false]
    exact solo_step .granted hcount
  · simp only [if_neg htrack]
    exact Solo.refl _

end

theorem solo_refused {calls : T → Option Call} {op : Op} :
    Solo maxReaders t ⟨l, o, update calls t (some ⟨op, .acquire⟩)⟩
      ⟨l, o, update calls t none⟩ := by
  have hrefused : stepCall maxReaders l t ⟨op, .acquire⟩ o .refused = .ok (l, o, none) := rfl
  exact solo_step .refused hrefused

/-- The state a call leaves when it comes back. -/
def Outcome.left : Outcome T → Option (State T × Obj T)
  | .returned _ l o => some (l, o)
  | .threw _ l o => some (l, o)
  | .waiting _ _ => none
  | .stopped _ => none

theorem tryLock_solo {calls : T → Option Call} (h : (tryLock l t o).left = some (l', o')) :
    Solo maxReaders t ⟨l, o, update calls t none⟩ ⟨l', o', update calls t none⟩ := by
  apply (solo_call maxReaders l t o calls .tryLock).trans
  unfold tryLock trywrlock at h
  by_cases hfree : o.writer = none ∧ o.readers = []
  · rw [if_pos hfree] at h
    simp only at h
    cases hhook : hooked l t { o with writer := some t } .locked with
    | error e =>
      rw [hhook] at h
      cases h
    | ok res =>
      obtain ⟨l1, o2⟩ := res
      rw [hhook] at h
      simp only at h
      cases hpost : postLock t o2 with
      | error e =>
        rw [hpost] at h
        cases h
      | ok o3 =>
        rw [hpost] at h
        obtain ⟨rfl, rfl⟩ := Prod.mk.inj (Option.some.inj h)
        have hacquire : stepCall maxReaders l t ⟨.tryLock, .acquire⟩ o .granted =
            .ok (l, { o with writer := some t }, some (.hook .locked .test)) := by
          unfold stepCall wrlock
          simp only [Op.exclusive, if_true, if_pos hfree]
        have htrack : (Op.afterHook .tryLock { o with writer := some t } .locked) =
            Op.afterHook .tryLock o2 .locked := by
          unfold Op.afterHook
          rw [hooked_track hhook]
        have hlocked := solo_hook maxReaders calls .tryLock hhook
        rw [htrack] at hlocked
        exact (solo_step .granted hacquire).trans (hlocked.trans (solo_postLock rfl hpost))
  · rw [if_neg hfree] at h
    obtain ⟨rfl, rfl⟩ := Prod.mk.inj (Option.some.inj h)
    exact solo_refused

theorem tryLockShared_solo {calls : T → Option Call}
    (h : (tryLockShared maxReaders l t o).left = some (l', o')) :
    Solo maxReaders t ⟨l, o, update calls t none⟩ ⟨l', o', update calls t none⟩ := by
  apply (solo_call maxReaders l t o calls .tryLockShared).trans
  unfold tryLockShared at h
  cases hwill : hooked l t o .willUnlock with
  | error e =>
    rw [hwill] at h
    cases h
  | ok res =>
    obtain ⟨l1, o1⟩ := res
    rw [hwill] at h
    apply (solo_hook maxReaders calls .tryLockShared hwill).trans
    simp only at h
    cases hw : o1.writer with
    | some u =>
      have hcode : pthreadRdlock maxReaders t o1 = if u = t then some (.edeadlk, o1) else none := by
        unfold pthreadRdlock
        rw [hw]
      by_cases hu : u = t
      · rw [hcode, if_pos hu] at h
        obtain ⟨rfl, rfl⟩ := Prod.mk.inj (Option.some.inj h)
        exact solo_refused
      · rw [hcode, if_neg hu] at h
        cases h
    | none =>
      have hcode : pthreadRdlock maxReaders t o1 = if o1.readers.length < maxReaders then
          some (.ok, { o1 with readers := t :: o1.readers }) else some (.eagain, o1) := by
        unfold pthreadRdlock
        rw [hw]
      by_cases hroom : o1.readers.length < maxReaders
      · rw [hcode, if_pos hroom] at h
        simp only at h
        cases hhook : hooked l1 t { o1 with readers := t :: o1.readers } .locked with
        | error e =>
          rw [hhook] at h
          cases h
        | ok res =>
          obtain ⟨l2, o3⟩ := res
          rw [hhook] at h
          obtain ⟨rfl, rfl⟩ := Prod.mk.inj (Option.some.inj h)
          have hacquire : stepCall maxReaders l1 t ⟨.tryLockShared, .acquire⟩ o1 .granted =
              .ok (l1, { o1 with readers := t :: o1.readers }, some (.hook .locked .test)) := by
            unfold stepCall rdlock
            simp only [Op.exclusive, Bool.false_eq_true, if_false, if_pos (And.intro hw hroom)]
          have htrack : Op.afterHook .tryLockShared { o1 with readers := t :: o1.readers } .locked =
              Op.afterHook .tryLockShared o3 .locked := by
            unfold Op.afterHook
            rw [hooked_track hhook]
          have hlocked := solo_hook maxReaders calls .tryLockShared hhook
          rw [htrack] at hlocked
          exact (solo_step .granted hacquire).trans (hlocked.trans (solo_postLockShared rfl))
      · rw [hcode, if_neg hroom] at h
        obtain ⟨rfl, rfl⟩ := Prod.mk.inj (Option.some.inj h)
        exact solo_refused

def ownedState : State Bool × Obj Bool :=
  ({ (Lockdep.initial : State Bool) with
      gLockdep := true
      lockIds := fun _ => some 0
      held := fun t => if t then [0] else []
      currentMaxid := 1 },
    ⟨"rwlock", 0, true, 1, some true, true, 0, some true, []⟩)

/-- The owner's own `try_lock_shared` throws, and the lock it still has is gone from `held`. -/
theorem try_lock_shared_forgets : ¬ ∀ (maxReaders : Nat) (l : State Bool) (t : Bool) (o : Obj Bool),
    TryClean maxReaders l t o := by
  intro h
  have hshared := (h 8 ownedState.1 true ownedState.2).shared
  have hheld : (setHeld ownedState.1 true []).held true = ownedState.1.held true :=
    congrFun hshared.held true
  exact absurd hheld (by decide)

end

end LockdepSpdk.Shared
