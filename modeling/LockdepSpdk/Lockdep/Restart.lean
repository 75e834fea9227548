import LockdepSpdk.Lockdep.Refs

/-!
# Starting again

Two states of lockdep that agree up to `current_maxid`, the sizes and a
`last_freed_id` that does not matter answer every call alike. A restarted lockdep
answers like that of a fresh process exactly when the teardown found no class and
no freed id but 0.
-/

namespace LockdepSpdk.Lockdep

set_option autoImplicit false

open Function Transition

variable {T : Type}

def LastAlike (a b : Int) : Prop := a = b ∨ (a ≤ 0 ∧ b ≤ 0)

structure Alike (l l' : State T) : Prop where
  enabled : l.gLockdep = true
  enabled' : l'.gLockdep = true
  lockIds : l.lockIds = l'.lockIds
  lockNames : l.lockNames = l'.lockNames
  lockRefs : l.lockRefs = l'.lockRefs
  freeIds : l.freeIds = l'.freeIds
  held : l.held = l'.held
  follows : l.follows = l'.follows
  last : LastAlike l.lastFreedId l'.lastFreedId

/-- Both stop for the same reason, or both return the same from states that stay alike. -/
def AlikeResult {α : Type} (x x' : Except Stop (State T × α)) : Prop :=
  (∃ e, x = .error e ∧ x' = .error e) ∨
    ∃ l l' a, x = .ok (l, a) ∧ x' = .ok (l', a) ∧ Alike l l'

theorem AlikeResult.bind {α β : Type} {x x' : Except Stop (State T × α)}
    {f f' : State T × α → Except Stop (State T × β)} (h : AlikeResult x x')
    (hf : ∀ l l' a, x = .ok (l, a) → x' = .ok (l', a) → Alike l l' →
      AlikeResult (f (l, a)) (f' (l', a))) : AlikeResult (x >>= f) (x' >>= f') := by
  rcases h with ⟨e, hx, hx'⟩ | ⟨l, l', a, hx, hx', halike⟩
  · exact Or.inl ⟨e, by rw [hx]; rfl, by rw [hx']; rfl⟩
  · rw [hx, hx']
    exact hf l l' a hx hx' halike

section Register
variable {l l' : State T} {name : String}

theorem scanFreeIds_zero {freeIds : Nat → Bool} {n : Nat} (hfree : freeIds 0 = true) (hn : 0 < n) :
    scanFreeIds freeIds n 0 = some 0 := by
  cases n with
  | zero => cases hn
  | succ n => simp only [scanFreeIds, hfree, if_true]

/-- With a `last_freed_id` of at most 0 it makes no difference whether it is looked at. -/
theorem getFreeId_small (h : l.lastFreedId ≤ 0) :
    (lockdepGetFreeId l).1 = (match scanFreeIds l.freeIds maxLocks 0 with
      | some i => (i : Int)
      | none => -1) ∧ (lockdepGetFreeId l).2.lastFreedId ≤ 0 := by
  unfold lockdepGetFreeId
  split
  · next hlast =>
    have hzero : l.lastFreedId = 0 := by omega
    have hfree : l.freeIds 0 = true := by
      have hf := hlast.2
      rw [hzero] at hf
      exact hf
    rw [scanFreeIds_zero hfree (by decide)]
    refine ⟨hzero, ?_⟩
    change (-1 : Int) ≤ 0
    omega
  · cases hscan : scanFreeIds l.freeIds maxLocks 0 with
    | none => exact ⟨rfl, h⟩
    | some i => exact ⟨rfl, h⟩

theorem Alike.getFreeId (h : Alike l l') :
    (lockdepGetFreeId l).1 = (lockdepGetFreeId l').1 ∧
      LastAlike (lockdepGetFreeId l).2.lastFreedId (lockdepGetFreeId l').2.lastFreedId := by
  rcases h.last with heq | ⟨hl, hl'⟩
  · unfold lockdepGetFreeId
    rw [heq, h.freeIds]
    split
    · exact ⟨rfl, Or.inl rfl⟩
    · split
      · exact ⟨rfl, Or.inl rfl⟩
      · exact ⟨rfl, Or.inl heq⟩
  · obtain ⟨hid, hlast⟩ := getFreeId_small hl
    obtain ⟨hid', hlast'⟩ := getFreeId_small hl'
    rw [hid, hid', h.freeIds]
    exact ⟨rfl, Or.inr ⟨hlast, hlast'⟩⟩

theorem registerLocked_fresh {i : Int} (hon : l.gLockdep = true) (hname : l.lockIds name = none)
    (h : registerLocked l name = .ok (l', i)) : ∃ k : Nat, i = k ∧ HasRoom l k ∧
      FreshId l l' name k := by
  rcases registerLocked_cases hon h with ⟨k, _, hsome, _⟩ | hfresh
  · rw [hname] at hsome
    cases hsome
  · exact hfresh

theorem Alike.register (h : Alike l l') :
    AlikeResult (registerLocked l name) (registerLocked l' name) := by
  have hroom : ∀ k, HasRoom l k ↔ HasRoom l' k := by
    intro k
    unfold HasRoom
    rw [h.lockRefs]
  cases hname : l'.lockIds name with
  | some k =>
    have hname0 : l.lockIds name = some k := by rw [h.lockIds, hname]
    rw [registerLocked_found h.enabled hname0, registerLocked_found h.enabled' hname]
    by_cases hk : HasRoom l' k
    · rw [if_pos ((hroom k).mpr hk), if_pos hk]
      refine Or.inr ⟨addRef l k, addRef l' k, k, rfl, rfl, ?_⟩
      refine ⟨h.enabled, h.enabled', h.lockIds, h.lockNames, ?_, h.freeIds, h.held, h.follows, h.last⟩
      simp only [addRef, setRefs, h.lockRefs]
    · rw [if_neg (mt (hroom k).mp hk), if_neg hk]
      exact Or.inl ⟨.overflow, rfl, rfl⟩
  | none =>
    have hname0 : l.lockIds name = none := by rw [h.lockIds, hname]
    obtain ⟨hid, hlast⟩ := h.getFreeId
    by_cases hneg : (lockdepGetFreeId l').1 < 0
    · refine Or.inl ⟨.abort, ?_, registerLocked_none h.enabled' hname hneg⟩
      exact registerLocked_none h.enabled hname0 (hid ▸ hneg)
    · obtain ⟨k, hk⟩ := Int.eq_ofNat_of_zero_le (Int.not_lt.mp hneg)
      obtain ⟨hok, hfull⟩ := registerLocked_new h.enabled hname0 (hid.trans hk)
      obtain ⟨hok', hfull'⟩ := registerLocked_new h.enabled' hname hk
      by_cases hk' : HasRoom l' k
      · obtain ⟨l1, hreg, hl1⟩ := hok ((hroom k).mpr hk')
        obtain ⟨l1', hreg', hl1'⟩ := hok' hk'
        refine Or.inr ⟨l1, l1', k, hreg, hreg', ?_⟩
        obtain ⟨k1, hk1, _, hf⟩ := registerLocked_fresh h.enabled hname0 hreg
        obtain ⟨k2, hk2, _, hf'⟩ := registerLocked_fresh h.enabled' hname hreg'
        obtain rfl : k1 = k2 := by omega
        refine ⟨hf.gLockdep.trans h.enabled, hf'.gLockdep.trans h.enabled', ?_, ?_, ?_, ?_, ?_, ?_, ?_⟩
        · rw [hf.lockIds, hf'.lockIds, h.lockIds]
        · rw [hf.lockNames, hf'.lockNames, h.lockNames]
        · rw [hf.refs, hf'.refs, h.lockRefs]
        · rw [hf.freeIds, hf'.freeIds, h.freeIds]
        · rw [hf.held, hf'.held, h.held]
        · rw [hf.follows, hf'.follows, h.follows]
        · rw [hl1, hl1']
          exact hlast
      · exact Or.inl ⟨.overflow, hfull (mt (hroom k).mp hk'), hfull' hk'⟩

theorem Alike.ensure {id : Int} (h : Alike l l') :
    AlikeResult (ensureId l name id) (ensureId l' name id) := by
  unfold ensureId
  split
  · exact h.register
  · exact Or.inr ⟨l, l', id, rfl, rfl, h⟩

end Register

/-- The search does not depend on how far above the edges it looks. -/
theorem checkHeld_congr {n n' id : Nat} {recursive : Bool} {hs : List Nat} {g : Graph}
    (hac : Digraph.Acyclic (Edge g)) (hn : Below g n) (hn' : Below g n') (hid : id < n)
    (hid' : id < n') (hhs : ∀ h ∈ hs, h < n ∧ h < n') :
    checkHeld n id recursive hs g = checkHeld n' id recursive hs g := by
  induction hs generalizing g with
  | nil => rfl
  | cons h hs ih =>
    obtain ⟨hh, hh'⟩ := hhs h List.mem_cons_self
    have hrest : ∀ x ∈ hs, x < n ∧ x < n' := fun x hx => hhs x (List.mem_cons_of_mem h hx)
    obtain ⟨r, hr, hpath⟩ := doesFollow_spec hac hn.targets (Nat.lt_succ_self n) hid h
    obtain ⟨r', hr', hpath'⟩ := doesFollow_spec hac hn'.targets (Nat.lt_succ_self n') hid' h
    have hrr : r = r' := Bool.eq_iff_iff.mpr (hpath.trans hpath'.symm)
    subst hrr
    simp only [checkHeld]
    split
    · split
      · exact ih hac hn hn' hrest
      · rfl
    · next hne =>
      split
      · exact ih hac hn hn' hrest
      · rw [hr, hr']
        cases r with
        | true => rfl
        | false =>
          have hnot : ¬ Relation.TransGen (Edge g) id h := fun hp => by cases hpath.mpr hp
          exact ih (setEdge_acyclic hac hne hnot) (setEdge_below hn hh hid)
            (setEdge_below hn' hh' hid') hrest

theorem purge_congr {g : Graph} {n n' : Nat} (hn : Below g n) (hn' : Below g n') (id : Nat) :
    purge g n id = purge g n' id := by
  have key : ∀ {m : Nat}, Below g m → ∀ a b,
      purge g m id a b = if a = id ∨ b = id then false else g a b := by
    intro m hm a b
    unfold purge
    by_cases ha : a = id
    · rw [if_pos ha, if_pos (Or.inl ha)]
    · rw [if_neg ha]
      by_cases hb : b = id
      · rw [if_pos (Or.inr hb)]
        split
        · rfl
        · next hnot =>
          by_contra htrue
          have hab : g a b = true := by simpa using htrue
          exact hnot ⟨hb, (hm a b hab).1⟩
      · rw [if_neg (fun h => hb h.1), if_neg (not_or.mpr ⟨ha, hb⟩)]
  funext a b
  rw [key hn, key hn']

section Exec
variable [DecidableEq T] {l l' : State T}

def Call.Local : Call T → Prop
  | .globalInit => False
  | .globalDestroy => False
  | _ => True

omit [DecidableEq T] in
theorem Alike.unregister (h : Alike l l') (hl : GraphInv l) (hl' : GraphInv l') (id : Int) :
    (∃ e, lockdepUnregister l id = .error e ∧ lockdepUnregister l' id = .error e) ∨
      ∃ l1 l1', lockdepUnregister l id = .ok l1 ∧ lockdepUnregister l' id = .ok l1' ∧
        Alike l1 l1' := by
  unfold lockdepUnregister
  split
  · exact Or.inr ⟨l, l', rfl, rfl, h⟩
  · rw [h.lockNames, h.lockRefs]
    split
    · exact Or.inl ⟨.abort, rfl, rfl⟩
    · next name _ =>
      dsimp only
      split
      · refine Or.inr ⟨_, _, rfl, rfl, h.enabled, h.enabled', ?_, ?_, ?_, ?_, h.held, ?_, Or.inl rfl⟩
        · change update l.lockIds name none = update l'.lockIds name none
          rw [h.lockIds]
        · change update l.lockNames id.toNat none = update l'.lockNames id.toNat none
          rw [h.lockNames]
        · change update l.lockRefs id.toNat none = update l'.lockRefs id.toNat none
          rw [h.lockRefs]
        · change update l.freeIds id.toNat true = update l'.freeIds id.toNat true
          rw [h.freeIds]
        · change purge l.follows _ _ = purge l'.follows _ _
          rw [h.follows]
          exact purge_congr (h.follows ▸ hl.below) hl'.below _
      · refine Or.inr ⟨_, _, rfl, rfl, h.enabled, h.enabled', h.lockIds, h.lockNames, ?_, h.freeIds, h.held,
          h.follows, h.last⟩
        change update l.lockRefs id.toNat _ = update l'.lockRefs id.toNat _
        rw [h.lockRefs]

omit [DecidableEq T] in
theorem Alike.willLock {t : T} {name : String} {id : Int} {recursive : Bool} (h : Alike l l')
    (hl : GraphInv l) (hl' : GraphInv l') (hid : id < l.currentMaxid) (hid' : id < l'.currentMaxid) :
    AlikeResult (lockdepWillLock l t name id recursive) (lockdepWillLock l' t name id recursive) := by
  simp only [lockdepWillLock, h.enabled, h.enabled', Bool.true_eq_false, if_false]
  apply h.ensure.bind
  intro l1 l1' i hens hens' h1
  obtain ⟨hl1, _, hi⟩ := ensureId_inv hl hid hens
  obtain ⟨hl1', _, hi'⟩ := ensureId_inv hl' hid' hens'
  have hnn := ensureId_nonneg h.enabled hens
  have hsame : checkHeld l1.currentMaxid i.toNat recursive (l1.held t) l1.follows =
      checkHeld l1'.currentMaxid i.toNat recursive (l1'.held t) l1'.follows := by
    rw [h1.held, h1.follows]
    apply checkHeld_congr hl1'.acyclic (h1.follows ▸ hl1.below) hl1'.below (by omega) (by omega)
    intro a ha
    exact ⟨hl1.held_lt t a (by rw [h1.held]; exact ha), hl1'.held_lt t a ha⟩
  change AlikeResult (checkHeld l1.currentMaxid i.toNat recursive (l1.held t) l1.follows >>= _) _
  rw [hsame]
  change AlikeResult _ (checkHeld l1'.currentMaxid i.toNat recursive (l1'.held t) l1'.follows >>= _)
  cases checkHeld l1'.currentMaxid i.toNat recursive (l1'.held t) l1'.follows with
  | error e => exact Or.inl ⟨e, rfl, rfl⟩
  | ok g =>
    exact Or.inr ⟨_, _, i, rfl, rfl, h1.enabled, h1.enabled', h1.lockIds, h1.lockNames, h1.lockRefs,
      h1.freeIds, h1.held, rfl, h1.last⟩

theorem Alike.setHeld {t : T} {ks ks' : List Nat} (h : Alike l l') (hks : ks = ks') :
    Alike (setHeld l t ks) (setHeld l' t ks') := by
  refine ⟨h.enabled, h.enabled', h.lockIds, h.lockNames, h.lockRefs, h.freeIds, ?_, h.follows, h.last⟩
  change update l.held t ks = update l'.held t ks'
  rw [h.held, hks]

theorem Alike.exec {c : Call T} (h : Alike l l') (hl : GraphInv l) (hl' : GraphInv l')
    (hlocal : c.Local) (hids : ∀ id ∈ c.ids, id < l.currentMaxid)
    (hids' : ∀ id ∈ c.ids, id < l'.currentMaxid) : AlikeResult (c.exec l) (c.exec l') := by
  cases c with
  | globalInit => exact hlocal.elim
  | globalDestroy => exact hlocal.elim
  | register name =>
    have hregister : AlikeResult (registerLocked l name) (registerLocked l' name) := h.register
    apply hregister.bind
    intro l1 l1' i _ _ h1
    exact Or.inr ⟨l1, l1', some i, rfl, rfl, h1⟩
  | unregister id =>
    rcases h.unregister hl hl' id with ⟨e, herr, herr'⟩ | ⟨l1, l1', hok, hok', h1⟩
    · exact Or.inl ⟨e, by rw [Call.exec, herr]; rfl, by rw [Call.exec, herr']; rfl⟩
    · exact Or.inr ⟨l1, l1', none, by rw [Call.exec, hok]; rfl, by rw [Call.exec, hok']; rfl, h1⟩
  | willLock t name id recursive =>
    apply (h.willLock hl hl' (hids id List.mem_cons_self) (hids' id List.mem_cons_self)).bind
    intro l1 l1' i _ _ h1
    exact Or.inr ⟨l1, l1', some i, rfl, rfl, h1⟩
  | locked t name id =>
    have hlocked : AlikeResult (lockdepLocked l t name id) (lockdepLocked l' t name id) := by
      simp only [lockdepLocked, h.enabled, h.enabled', Bool.true_eq_false, if_false]
      apply h.ensure.bind
      intro l1 l1' i _ _ h1
      exact Or.inr ⟨_, _, i, rfl, rfl, h1.setHeld (by rw [h1.held])⟩
    apply hlocked.bind
    intro l1 l1' i _ _ h1
    exact Or.inr ⟨l1, l1', some i, rfl, rfl, h1⟩
  | willUnlock t id =>
    have hunlock : AlikeResult (lockdepWillUnlock l t id) (lockdepWillUnlock l' t id) := by
      simp only [lockdepWillUnlock, h.enabled, h.enabled', Bool.true_eq_false, if_false]
      split
      · split
        · exact Or.inr ⟨l, l', id, rfl, rfl, h⟩
        · exact Or.inl ⟨.abort, rfl, rfl⟩
      · exact Or.inr ⟨_, _, id, rfl, rfl, h.setHeld (by rw [h.held])⟩
    apply hunlock.bind
    intro l1 l1' i _ _ h1
    exact Or.inr ⟨l1, l1', some i, rfl, rfl, h1⟩

/-! The answers of a session. -/

/-- What the calls return, up to the first that does not return. -/
def answers : State T → List (Call T) → List (Except Stop (Option Int))
  | _, [] => []
  | l, c :: cs =>
    match c.exec l with
    | .ok (l', r) => .ok r :: answers l' cs
    | .error e => [.error e]

/-- The calls of new mutexes: an id they pass is -1 or was returned since. -/
def FromNew : State T → List Int → List (Call T) → Prop
  | _, _, [] => True
  | l, given, c :: cs => c.Local ∧ (∀ id ∈ c.ids, id = -1 ∨ id ∈ given) ∧
    ∀ l' r, c.exec l = .ok (l', r) → FromNew l' (r.toList ++ given) cs

/-- By induction on the calls; the ids given out so far are below both `current_maxid`s. -/
theorem Alike.answers {cs : List (Call T)} {given : List Int} (h : Alike l l') (hl : GraphInv l)
    (hl' : GraphInv l') (hgiven : ∀ id ∈ given, id < l.currentMaxid ∧ id < l'.currentMaxid)
    (hnew : FromNew l' given cs) : answers l cs = answers l' cs := by
  induction cs generalizing l l' given with
  | nil => rfl
  | cons c cs ih =>
    obtain ⟨hlocal, hids, hrest⟩ := hnew
    have hlt : ∀ id ∈ c.ids, id < l.currentMaxid ∧ id < l'.currentMaxid := by
      intro id hid
      rcases hids id hid with hneg | hmem
      · omega
      · exact hgiven id hmem
    have hlt1 : ∀ id ∈ c.ids, id < l.currentMaxid := fun id hid => (hlt id hid).1
    have hlt2 : ∀ id ∈ c.ids, id < l'.currentMaxid := fun id hid => (hlt id hid).2
    simp only [Lockdep.answers]
    rcases h.exec hl hl' hlocal hlt1 hlt2 with ⟨e, herr, herr'⟩ | ⟨l1, l1', r, hok, hok', h1⟩
    · rw [herr, herr']
    · rw [hok, hok']
      obtain ⟨hl1, hle, hr⟩ := exec_inv hl hlt1 hok
      obtain ⟨hl1', hle', hr'⟩ := exec_inv hl' hlt2 hok'
      simp only [List.cons.injEq, true_and]
      apply ih h1 hl1 hl1' _ (hrest l1' r hok')
      intro id hid
      rcases List.mem_append.mp hid with hid | hid
      · exact ⟨hr id hid, hr' id hid⟩
      · have hold := hgiven id hid
        omega

def freshInit : State T := lockdepGlobalInit initial

/-- Lockdep as in a fresh process, for whoever registers now. -/
structure Clean (l : State T) : Prop where
  freeIds : ∀ k, l.freeIds k = true
  lockRefs : ∀ k, l.lockRefs k = none
  lockIds : ∀ name, l.lockIds name = none
  lockNames : ∀ k, l.lockNames k = none
  held : ∀ t, l.held t = []
  follows : ∀ a b, ¬ Edge l.follows a b
  answers : ∀ cs, FromNew freshInit [] cs → Lockdep.answers l cs = Lockdep.answers freshInit cs

theorem Clean.of_empty (hon : l.gLockdep = true) (hl : GraphInv l) (hempty : OffEmpty l)
    (hfree : ∀ k, l.freeIds k = true) (hrefs : ∀ k, l.lockRefs k = none)
    (hlast : l.lastFreedId ≤ 0) : Clean l := by
  refine ⟨hfree, hrefs, hempty.lockIds, hempty.lockNames, hempty.held, hempty.follows, ?_⟩
  intro cs hnew
  have halike : Alike l (freshInit : State T) := by
    refine ⟨hon, rfl, funext hempty.lockIds, funext hempty.lockNames, funext hrefs, funext hfree,
      funext hempty.held, ?_, Or.inr ⟨hlast, ?_⟩⟩
    · funext a b
      have hnot := hempty.follows a b
      exact Bool.eq_false_iff.mpr hnot
    · change (-1 : Int) ≤ 0
      omega
  refine halike.answers hl GraphInv.initial.globalInit ?_ hnew
  nofun

/-- At the teardown of a session: no class is live, and no id but 0 was the last freed. -/
def Restartable (l : State T) : Prop :=
  l.gLockdep = true → (∀ k, l.lockRefs k = none) ∧ l.lastFreedId ≤ 0

/-- What a start leaves of a state that lockdep was off in. -/
structure Restarted (l l' : State T) : Prop where
  enabled : l'.gLockdep = true
  graph : GraphInv l'
  empty : OffEmpty l'
  lockRefs : l'.lockRefs = l.lockRefs
  last : l'.lastFreedId = l.lastFreedId
  freeIds : (l.freeIdsInited = true ∧ l'.freeIds = l.freeIds) ∨ ∀ k, l'.freeIds k = true

omit [DecidableEq T] in
theorem restarted_off (hl : GraphInv l) (hoff : l.gLockdep = false) (hempty : OffEmpty l) :
    Restarted l (lockdepGlobalInit l) := by
  have hgraph := hl.globalInit
  unfold lockdepGlobalInit at hgraph ⊢
  rw [if_neg (by simp [hoff])] at hgraph ⊢
  split at hgraph
  · next hinited =>
    rw [if_pos hinited]
    exact ⟨rfl, hgraph, ⟨hempty.lockNames, hempty.lockIds, hempty.held, hempty.follows⟩, rfl, rfl,
      Or.inl ⟨hinited, rfl⟩⟩
  · next hnot =>
    rw [if_neg hnot]
    exact ⟨rfl, hgraph, ⟨hempty.lockNames, hempty.lockIds, hempty.held, hempty.follows⟩, rfl, rfl,
      Or.inr fun _ => rfl⟩

omit [DecidableEq T] in
theorem restarted (hl : GraphInv l) (hon : l.gLockdep = true) :
    Restarted l (lockdepGlobalInit (lockdepGlobalDestroy l)) := by
  have hdes : lockdepGlobalDestroy l =
      { l with
        gLockdep := false
        held := fun _ => []
        lockNames := fun _ => none
        lockIds := fun _ => none
        follows := fun a b => if a < l.currentMaxid then false else l.follows a b } := by
    unfold lockdepGlobalDestroy
    rw [if_pos hon]
  have h := restarted_off hl.globalDestroy (by rw [hdes]) (OffEmpty.destroy hl hon)
  have hrefs := h.lockRefs
  have hlast := h.last
  have hfree := h.freeIds
  rw [hdes] at hrefs hlast hfree ⊢
  rw [hdes] at h
  exact ⟨h.enabled, h.graph, h.empty, hrefs, hlast, hfree⟩

omit [DecidableEq T] in
theorem globalDestroy_off (hoff : l.gLockdep = false) : lockdepGlobalDestroy l = l := by
  unfold lockdepGlobalDestroy
  rw [if_neg]
  simp [hoff]

theorem answers_register (hon : l.gLockdep = true) (hname : l.lockIds "" = none)
    (hpos : 0 < l.lastFreedId) (hfree : l.freeIds l.lastFreedId.toNat = true)
    (hrefs : l.lockRefs l.lastFreedId.toNat = none) :
    Lockdep.answers l [.register ""] = [.ok (some l.lastFreedId)] := by
  have hget : (lockdepGetFreeId l).1 = l.lastFreedId := by
    unfold lockdepGetFreeId
    rw [if_pos ⟨by omega, hfree⟩]
  have hroom : HasRoom l l.lastFreedId.toNat := by
    unfold HasRoom
    rw [hrefs]
    decide
  have hid : (lockdepGetFreeId l).1 = (l.lastFreedId.toNat : Int) := by omega
  obtain ⟨l1, hok, _⟩ := (registerLocked_new hon hname hid).1 hroom
  have hlast : (l.lastFreedId.toNat : Int) = l.lastFreedId := by omega
  simp only [Lockdep.answers, Call.exec, lockdepRegister, hok, ok_bind, hlast]

/-- The conditions are exact. -/
theorem restartable_iff (hl : RegistryInv l) (hr : RefsInv l) (ht : Tight l) :
    Restartable l ↔ Clean (lockdepGlobalInit (lockdepGlobalDestroy l)) := by
  have hre := restarted hl.graph hl.enabled
  have free : (∀ k, l.lockRefs k = none) →
      ∀ k, (lockdepGlobalInit (lockdepGlobalDestroy l)).freeIds k = true := by
    intro hnone k
    rcases hre.freeIds with ⟨_, hsame⟩ | htrue
    · rw [hsame]
      by_contra hused
      have hlive := hr.live k (ht k (by simpa using hused))
      unfold refCount at hlive
      rw [hnone k] at hlive
      exact absurd hlive (by decide)
    · exact htrue k
  constructor
  · intro h
    obtain ⟨hnone, hlast⟩ := h hl.enabled
    exact Clean.of_empty hre.enabled hre.graph hre.empty (free hnone)
      (by rw [hre.lockRefs]; exact hnone) (by rw [hre.last]; exact hlast)
  · intro h _
    have hnone : ∀ k, l.lockRefs k = none := by
      intro k
      rw [← hre.lockRefs]
      exact h.lockRefs k
    refine ⟨hnone, ?_⟩
    by_contra hpos
    -- the first class would get the freed id instead of 0
    have hanswer := h.answers [.register ""] ⟨trivial, nofun, fun _ _ _ => trivial⟩
    rw [answers_register hre.enabled (hre.empty.lockIds "") (by rw [hre.last]; omega)
      (free hnone _) (by rw [hre.lockRefs]; exact hnone _)] at hanswer
    have hzero : Lockdep.answers (freshInit : State T) [.register ""] = [.ok (some 0)] := rfl
    rw [hzero, hre.last] at hanswer
    have heq : l.lastFreedId = 0 := by simpa using hanswer
    omega

end Exec

end LockdepSpdk.Lockdep
