import LockdepSpdk.Lockdep.Graph

/-!
# Runs of lockdep calls

Any threads make any of the seven calls in any order, over any number of
sessions. A call passes -1, the value of a fresh `id` member, or an id that an
earlier call returned. A run goes on only while nothing aborts.
-/

namespace LockdepSpdk.Lockdep

set_option autoImplicit false

open Function Relation Transition

variable {T : Type}

inductive Call (T : Type) where
  | globalInit
  | globalDestroy
  | register (name : String)
  | unregister (id : Int)
  | willLock (p : T) (name : String) (id : Int) (recursive : Bool)
  | locked (p : T) (name : String) (id : Int)
  | willUnlock (p : T) (id : Int)

def Call.ids : Call T → List Int
  | .globalInit => []
  | .globalDestroy => []
  | .register _ => []
  | .unregister id => [id]
  | .willLock _ _ id _ => [id]
  | .locked _ _ id => [id]
  | .willUnlock _ id => [id]

theorem ensureId_nonneg {s s' : State T} {name : String} {id i : Int} (hg : s.gLockdep = true)
    (h : ensureId s name id = .ok (s', i)) : 0 ≤ i := by
  unfold ensureId at h
  split at h
  · rcases registerLocked_cases hg h with h | h
    · obtain ⟨k, rfl, _⟩ := h
      omega
    · obtain ⟨k, rfl, _⟩ := h
      omega
  · obtain ⟨_, rfl⟩ := ok_mk_inj h
    omega

theorem registerLocked_ne_diverge {s : State T} {name : String} :
    registerLocked s name ≠ .error .diverge := by
  intro h
  cases hg : s.gLockdep with
  | false =>
    rw [registerLocked_off hg] at h
    cases h
  | true =>
    cases hname : s.lockIds name with
    | some k =>
      rw [registerLocked_found hg hname] at h
      split at h
      · cases h
      · cases h
    | none =>
      by_cases hneg : (lockdepGetFreeId s).1 < 0
      · rw [registerLocked_none hg hname hneg] at h
        cases h
      · obtain ⟨k, hk⟩ := Int.eq_ofNat_of_zero_le (Int.not_lt.mp hneg)
        obtain ⟨hok, hfull⟩ := registerLocked_new hg hname hk
        by_cases hroom : HasRoom s k
        · obtain ⟨s', hs', _⟩ := hok hroom
          rw [hs'] at h
          cases h
        · rw [hfull hroom] at h
          cases h

theorem ensureId_ne_diverge {s : State T} {name : String} {id : Int} :
    ensureId s name id ≠ .error .diverge := by
  intro h
  unfold ensureId at h
  split at h
  · exact registerLocked_ne_diverge h
  · cases h

theorem lockdepWillLock_cases {s s' : State T} {p : T} {name : String} {id i : Int}
    {recursive : Bool} (hg : s.gLockdep = true)
    (h : lockdepWillLock s p name id recursive = .ok (s', i)) :
    ∃ s1 g, ensureId s name id = .ok (s1, i) ∧
      checkHeld s1.currentMaxid i.toNat recursive (s1.held p) s1.follows = .ok g ∧
      s' = setFollows s1 g := by
  simp only [lockdepWillLock, hg, Bool.true_eq_false, if_false] at h
  obtain ⟨⟨s1, i1⟩, hens, h⟩ := bind_ok h
  obtain ⟨g, hcheck, h⟩ := bind_ok h
  obtain ⟨rfl, rfl⟩ := ok_mk_inj h
  exact ⟨s1, g, hens, hcheck, rfl⟩

theorem lockdepLocked_cases [DecidableEq T] {s s' : State T} {p : T} {name : String} {id i : Int}
    (hg : s.gLockdep = true) (h : lockdepLocked s p name id = .ok (s', i)) :
    ∃ s1, ensureId s name id = .ok (s1, i) ∧
      s' = setHeld s1 p (insertKey i.toNat (s1.held p)) := by
  simp only [lockdepLocked, hg, Bool.true_eq_false, if_false] at h
  obtain ⟨⟨s1, i1⟩, hens, h⟩ := bind_ok h
  obtain ⟨rfl, rfl⟩ := ok_mk_inj h
  exact ⟨s1, hens, rfl⟩

/-- A drop of the last reference frees the id and purges its edges; any other only counts. -/
theorem lockdepUnregister_cases {s s' : State T} {id : Int}
    (h : lockdepUnregister s id = .ok s') :
    (id < 0 ∧ s' = s) ∨
      ∃ (k : Nat) (name : String), id = k ∧ s.lockNames k = some name ∧
        (((s.lockRefs k).getD 0 = 1 ∧ s' = freeClass s name k) ∨
          ((s.lockRefs k).getD 0 ≠ 1 ∧ s' = setRefs s k ((s.lockRefs k).getD 0 - 1))) := by
  unfold lockdepUnregister at h
  split at h
  · next hneg => exact Or.inl ⟨hneg, (Except.ok.inj h).symm⟩
  · next hneg =>
    have hk : id = (id.toNat : Int) := by omega
    cases hname : s.lockNames id.toNat with
    | none => simp [hname] at h
    | some name =>
      simp only [hname] at h
      refine Or.inr ⟨id.toNat, name, hk, hname, ?_⟩
      split at h
      · exact Or.inl ⟨by omega, (Except.ok.inj h).symm⟩
      · exact Or.inr ⟨by omega, (Except.ok.inj h).symm⟩

theorem willLock_inv {s s' : State T} {p : T} {name : String} {id i : Int} {recursive : Bool}
    (hs : GraphInv s) (hid : id < s.currentMaxid)
    (h : lockdepWillLock s p name id recursive = .ok (s', i)) :
    GraphInv s' ∧ s.currentMaxid ≤ s'.currentMaxid ∧ i < s'.currentMaxid := by
  cases hg : s.gLockdep with
  | false =>
    simp only [lockdepWillLock, hg, if_true] at h
    obtain ⟨rfl, rfl⟩ := ok_mk_inj h
    exact ⟨hs, Nat.le_refl _, hid⟩
  | true =>
    obtain ⟨s1, g, hens, hcheck, rfl⟩ := lockdepWillLock_cases hg h
    obtain ⟨hs1, hle, hi⟩ := ensureId_inv hs hid hens
    have hnn := ensureId_nonneg hg hens
    rcases checkHeld_spec hs1.acyclic hs1.below (show i.toNat < _ by omega) (hs1.held_lt p) with herr | hok
    · rw [hcheck] at herr
      cases herr
    · obtain ⟨g', hg', hext⟩ := hok
      rw [hcheck] at hg'
      obtain rfl : g = g' := Except.ok.inj hg'
      exact ⟨⟨hext.acyclic, hext.below, hs1.held_lt, hs1.lockIds_lt⟩, hle, hi⟩

theorem locked_inv [DecidableEq T] {s s' : State T} {p : T} {name : String} {id i : Int}
    (hs : GraphInv s) (hid : id < s.currentMaxid)
    (h : lockdepLocked s p name id = .ok (s', i)) :
    GraphInv s' ∧ s.currentMaxid ≤ s'.currentMaxid ∧ i < s'.currentMaxid := by
  cases hg : s.gLockdep with
  | false =>
    simp only [lockdepLocked, hg, if_true] at h
    obtain ⟨rfl, rfl⟩ := ok_mk_inj h
    exact ⟨hs, Nat.le_refl _, hid⟩
  | true =>
    obtain ⟨s1, hens, rfl⟩ := lockdepLocked_cases hg h
    obtain ⟨hs1, hle, hi⟩ := ensureId_inv hs hid hens
    have hnn := ensureId_nonneg hg hens
    refine ⟨⟨hs1.acyclic, hs1.below, ?_, hs1.lockIds_lt⟩, hle, hi⟩
    intro q a ha
    rcases mem_setHeld.mp ha with ⟨_, ha⟩ | ⟨_, ha⟩
    · rcases mem_insertKey.mp ha with ha | ha
      · subst ha
        show i.toNat < s1.currentMaxid
        omega
      · exact hs1.held_lt p a ha
    · exact hs1.held_lt q a ha

theorem unregister_inv {s s' : State T} {id : Int} (hs : GraphInv s)
    (h : lockdepUnregister s id = .ok s') :
    GraphInv s' ∧ s.currentMaxid ≤ s'.currentMaxid := by
  rcases lockdepUnregister_cases h with ⟨_, rfl⟩ | ⟨k, name, _, _, ⟨_, rfl⟩ | ⟨_, rfl⟩⟩
  · exact ⟨hs, Nat.le_refl _⟩
  · refine ⟨⟨purge_acyclic hs.acyclic _ _, purge_below hs.below _ _, hs.held_lt, ?_⟩, Nat.le_refl _⟩
    intro n a ha
    rw [freeClass_lockIds] at ha
    by_cases hn : n = name
    · subst hn
      simp at ha
    · rw [update_of_ne hn] at ha
      exact hs.lockIds_lt n a ha
  · exact ⟨⟨hs.acyclic, hs.below, hs.held_lt, hs.lockIds_lt⟩, Nat.le_refl _⟩

theorem willUnlock_inv [DecidableEq T] {s s' : State T} {p : T} {id i : Int} (hs : GraphInv s)
    (hid : id < s.currentMaxid) (h : lockdepWillUnlock s p id = .ok (s', i)) :
    GraphInv s' ∧ s.currentMaxid ≤ s'.currentMaxid ∧ i < s'.currentMaxid := by
  have keep : ∀ {t : State T}, (.ok (s, id) : Except Stop _) = .ok (t, i) →
      GraphInv t ∧ s.currentMaxid ≤ t.currentMaxid ∧ i < t.currentMaxid := by
    intro t ht
    obtain ⟨rfl, rfl⟩ := ok_mk_inj ht
    exact ⟨hs, Nat.le_refl _, hid⟩
  unfold lockdepWillUnlock at h
  split at h
  · split at h
    · exact keep h
    · cases h
  · split at h
    · exact keep h
    · obtain ⟨rfl, rfl⟩ := ok_mk_inj h
      refine ⟨⟨hs.acyclic, hs.below, ?_, hs.lockIds_lt⟩, Nat.le_refl _, hid⟩
      intro q a ha
      rcases mem_setHeld.mp ha with ⟨_, ha⟩ | ⟨_, ha⟩
      · exact hs.held_lt p a (List.mem_of_mem_filter ha)
      · exact hs.held_lt q a ha

theorem globalDestroy_maxid (s : State T) :
    (lockdepGlobalDestroy s).currentMaxid = s.currentMaxid := by
  unfold lockdepGlobalDestroy
  split <;> rfl

theorem globalInit_maxid (s : State T) :
    (lockdepGlobalInit s).currentMaxid = s.currentMaxid := by
  unfold lockdepGlobalInit
  split
  · rfl
  · split <;> rfl

section Runs
variable [DecidableEq T]

def Call.exec (s : State T) : Call T → Except Stop (State T × Option Int)
  | .globalInit => .ok (lockdepGlobalInit s, none)
  | .globalDestroy => .ok (lockdepGlobalDestroy s, none)
  | .register name => do
    let (s', i) ← lockdepRegister s name
    .ok (s', some i)
  | .unregister id => do
    let s' ← lockdepUnregister s id
    .ok (s', none)
  | .willLock p name id recursive => do
    let (s', i) ← lockdepWillLock s p name id recursive
    .ok (s', some i)
  | .locked p name id => do
    let (s', i) ← lockdepLocked s p name id
    .ok (s', some i)
  | .willUnlock p id => do
    let (s', i) ← lockdepWillUnlock s p id
    .ok (s', some i)

structure Process (T : Type) where
  state : State T
  returned : List Int

def Process.start : Process T := ⟨initial, []⟩

def Process.Step (p : Process T) (c : Call T) (q : Process T) : Prop :=
  (∀ id ∈ c.ids, id = -1 ∨ id ∈ p.returned) ∧
    ∃ r, c.exec p.state = .ok (q.state, r) ∧ q.returned = r.toList ++ p.returned

theorem exec_inv {s s' : State T} {c : Call T} {r : Option Int} (hs : GraphInv s)
    (hids : ∀ id ∈ c.ids, id < s.currentMaxid) (h : c.exec s = .ok (s', r)) :
    GraphInv s' ∧ s.currentMaxid ≤ s'.currentMaxid ∧ ∀ i ∈ r.toList, i < s'.currentMaxid := by
  cases c with
  | globalInit =>
    obtain ⟨rfl, rfl⟩ := ok_mk_inj h
    exact ⟨hs.globalInit, by rw [globalInit_maxid], by simp⟩
  | globalDestroy =>
    obtain ⟨rfl, rfl⟩ := ok_mk_inj h
    exact ⟨hs.globalDestroy, by rw [globalDestroy_maxid], by simp⟩
  | register name =>
    obtain ⟨⟨s1, i⟩, hreg, h⟩ := bind_ok h
    obtain ⟨rfl, rfl⟩ := ok_mk_inj h
    simpa using registerLocked_inv hs hreg
  | unregister id =>
    obtain ⟨s1, hun, h⟩ := bind_ok h
    obtain ⟨rfl, rfl⟩ := ok_mk_inj h
    simpa using unregister_inv hs hun
  | willLock p name id recursive =>
    obtain ⟨⟨s1, i⟩, hwl, h⟩ := bind_ok h
    obtain ⟨rfl, rfl⟩ := ok_mk_inj h
    simpa using willLock_inv hs (hids id List.mem_cons_self) hwl
  | locked p name id =>
    obtain ⟨⟨s1, i⟩, hl, h⟩ := bind_ok h
    obtain ⟨rfl, rfl⟩ := ok_mk_inj h
    simpa using locked_inv hs (hids id List.mem_cons_self) hl
  | willUnlock p id =>
    obtain ⟨⟨s1, i⟩, hu, h⟩ := bind_ok h
    obtain ⟨rfl, rfl⟩ := ok_mk_inj h
    simpa using willUnlock_inv hs (hids id List.mem_cons_self) hu

structure ProcessInv (p : Process T) : Prop where
  graph : GraphInv p.state
  returned_lt : ∀ id ∈ p.returned, id < p.state.currentMaxid

omit [DecidableEq T] in
theorem ProcessInv.allowed {p : Process T} (hp : ProcessInv p) {id : Int}
    (h : id = -1 ∨ id ∈ p.returned) : id < p.state.currentMaxid := by
  rcases h with h | h
  · omega
  · exact hp.returned_lt id h

theorem Process.step_inv {p q : Process T} {c : Call T} (hp : ProcessInv p) (h : p.Step c q) :
    ProcessInv q := by
  obtain ⟨hids, r, hexec, hret⟩ := h
  obtain ⟨hs, hle, hr⟩ := exec_inv hp.graph (fun id hid => hp.allowed (hids id hid)) hexec
  refine ⟨hs, fun id hid => ?_⟩
  rw [hret] at hid
  rcases List.mem_append.mp hid with hid | hid
  · exact hr id hid
  · have hlt := hp.returned_lt id hid
    omega

def Process.Reachable (p : Process T) : Prop :=
  Transition.Reachable (· = Process.start) Process.Step p

theorem Process.Reachable.inv {p : Process T} (h : p.Reachable) : ProcessInv p := by
  refine Transition.Reachable.invariant ?_ (fun _ _ _ hp hstep => Process.step_inv hp hstep) h
  intro q hq
  subst hq
  exact ⟨GraphInv.initial, by simp [Process.start]⟩

/-- `lockdep_will_lock` of `id` by `t` evaluates `does_follow(a, b)` on the graph `g`: its loop
has come as far as the held lock `b`, which is not `id` and has no edge to it yet. -/
def Consults (s : State T) (t : T) (name : String) (id : Int) (recursive : Bool)
    (g : Graph) (n a b : Nat) : Prop :=
  ∃ s1 i before after, s.gLockdep = true ∧ ensureId s name id = .ok (s1, i) ∧
    n = s1.currentMaxid ∧ a = i.toNat ∧ s1.held t = before ++ b :: after ∧
    checkHeld n a recursive before s1.follows = .ok g ∧ b ≠ a ∧ g b a = false

omit [DecidableEq T] in
theorem consults_answers {s : State T} {t : T} {name : String} {id : Int} {recursive : Bool}
    {g : Graph} {n a b : Nat} (hs : GraphInv s) (hid : id < s.currentMaxid)
    (h : Consults s t name id recursive g n a b) :
    ∃ r, (∀ fuel, n < fuel → doesFollow g n fuel a b = some r) ∧
      (r = true ↔ TransGen (Edge g) a b) := by
  obtain ⟨s1, i, before, after, hg, hens, rfl, rfl, hheld, hcheck, _, _⟩ := h
  obtain ⟨hs1, _, hi⟩ := ensureId_inv hs hid hens
  have hnn := ensureId_nonneg hg hens
  have hbefore : ∀ x ∈ before, x < s1.currentMaxid := by
    intro x hx
    apply hs1.held_lt t x
    rw [hheld]
    exact List.mem_append_left _ hx
  rcases checkHeld_spec hs1.acyclic hs1.below (show i.toNat < _ by omega) hbefore with herr | hok
  · rw [hcheck] at herr
    cases herr
  · obtain ⟨g', hg', hext⟩ := hok
    rw [hcheck] at hg'
    obtain rfl : g = g' := Except.ok.inj hg'
    have hlt : i.toNat < s1.currentMaxid := by omega
    obtain ⟨r, hr, hpath⟩ :=
      doesFollow_spec hext.acyclic hext.below.targets (Nat.lt_succ_self _) hlt b
    refine ⟨r, fun fuel hfuel => ?_, hpath⟩
    obtain ⟨r', hr', hpath'⟩ := doesFollow_spec hext.acyclic hext.below.targets hfuel hlt b
    rw [hr', Bool.eq_iff_iff.mpr (hpath'.trans hpath.symm)]

omit [DecidableEq T] in
theorem willLock_returns {s : State T} {t : T} {name : String} {id : Int} {recursive : Bool}
    (hs : GraphInv s) (hid : id < s.currentMaxid) :
    lockdepWillLock s t name id recursive ≠ .error .diverge := by
  intro h
  cases hg : s.gLockdep with
  | false => simp [lockdepWillLock, hg] at h
  | true =>
    simp only [lockdepWillLock, hg, Bool.true_eq_false, if_false] at h
    rcases bind_error h with herr | ⟨⟨s1, i⟩, hens, h⟩
    · exact ensureId_ne_diverge herr
    · obtain ⟨hs1, _, hi⟩ := ensureId_inv hs hid hens
      have hnn := ensureId_nonneg hg hens
      rcases bind_error h with hdiv | ⟨g, _, h⟩
      · exact checkHeld_ne_diverge hs1.acyclic hs1.below (by omega) (hs1.held_lt t) hdiv
      · cases h

/-- In every state a run reaches, the graph is acyclic, without self-loops and below
`current_maxid`; and whatever lock a thread is about to take, every search `lockdep_will_lock`
makes returns and answers whether there is a path. -/
theorem follows_sound {p : Process T} (h : p.Reachable) :
    Digraph.Acyclic (Edge p.state.follows) ∧
      (∀ a, ¬ Edge p.state.follows a a) ∧
      (∀ a b, Edge p.state.follows a b →
        a < p.state.currentMaxid ∧ b < p.state.currentMaxid) ∧
      ∀ t name id recursive, (id = -1 ∨ id ∈ p.returned) →
        lockdepWillLock p.state t name id recursive ≠ .error .diverge ∧
        ∀ g n a b, Consults p.state t name id recursive g n a b →
          ∃ r, (∀ fuel, n < fuel → doesFollow g n fuel a b = some r) ∧
            (r = true ↔ TransGen (Edge g) a b) := by
  have hp := h.inv
  refine ⟨hp.graph.acyclic, hp.graph.acyclic.irrefl, hp.graph.below, ?_⟩
  intro t name id recursive hid
  exact ⟨willLock_returns hp.graph (hp.allowed hid), fun g n a b hc =>
    consults_answers hp.graph (hp.allowed hid) hc⟩

/-- The run of `lock_in_order` up to its second lock. -/
theorem follows_sound_nested : ∃ p : Process Bool, p.Reachable ∧ Edge p.state.follows 0 1 ∧
    Digraph.Acyclic (Edge p.state.follows) := by
  have h0 : Process.Reachable (Process.start : Process Bool) := .start rfl
  have h1 := h0.step (show Process.Step _ .globalInit ⟨_, _⟩ from
    ⟨by simp [Call.ids], none, rfl, rfl⟩)
  have h2 := h1.step (show Process.Step _ (.willLock true "lock1" (-1) false) ⟨_, _⟩ from
    ⟨by simp [Call.ids], some 0, rfl, rfl⟩)
  have h3 := h2.step (show Process.Step _ (.locked true "lock1" 0) ⟨_, _⟩ from
    ⟨by simp [Call.ids], some 0, rfl, rfl⟩)
  have h4 := h3.step (show Process.Step _ (.willLock true "lock2" (-1) false) ⟨_, _⟩ from
    ⟨by simp [Call.ids], some 1, rfl, rfl⟩)
  exact ⟨_, h4, rfl, (follows_sound h4).1⟩

end Runs

end LockdepSpdk.Lockdep
