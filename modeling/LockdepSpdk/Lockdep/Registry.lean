import LockdepSpdk.Lockdep.Session

/-!
# The registry inside a session

Names and ids are inverse to each other and a free id has no name. A session
starts from a state that lockdep, while it was off, left without names, held
locks and edges.
-/

namespace LockdepSpdk.Lockdep

set_option autoImplicit false

open Function Transition

variable {T : Type}

def Registered (s : State T) (k : Nat) : Prop := ∃ name, s.lockNames k = some name

structure RegistryInv (s : State T) : Prop where
  enabled : s.gLockdep = true
  graph : GraphInv s
  name_iff : ∀ name k, s.lockIds name = some k ↔ s.lockNames k = some name
  free : ∀ k, s.freeIds k = true → s.lockNames k = none

theorem RegistryInv.lt {s : State T} (h : RegistryInv s) {k : Nat} (hk : Registered s k) :
    k < s.currentMaxid := by
  obtain ⟨name, hk⟩ := hk
  exact h.graph.lockIds_lt name k ((h.name_iff name k).mpr hk)

theorem RegistryInv.id_lt {s : State T} (h : RegistryInv s) {id : Int}
    (hid : ∀ k : Nat, id = k → Registered s k) : id < s.currentMaxid := by
  by_cases hneg : id < 0
  · omega
  · have hk := h.lt (hid id.toNat (by omega))
    omega

theorem FreshId.registered_iff {s s' : State T} {name : String} {k a : Nat}
    (hf : FreshId s s' name k) : Registered s' a ↔ a = k ∨ Registered s a := by
  unfold Registered
  rw [hf.lockNames]
  by_cases ha : a = k
  · subst ha
    simp
  · simp [ha]

theorem FreshId.name_iff {s s' : State T} {name : String} {k : Nat} (hf : FreshId s s' name k)
    (hnone : s.lockNames k = none)
    (hs : ∀ name k, s.lockIds name = some k ↔ s.lockNames k = some name) (n : String) (j : Nat) :
    s'.lockIds n = some j ↔ s'.lockNames j = some n := by
  rw [hf.lockIds, hf.lockNames]
  by_cases hn : n = name
  · subst hn
    by_cases hj : j = k
    · subst hj
      simp
    · have hnot : s.lockNames j ≠ some n := by
        intro hname
        have hid := (hs n j).mpr hname
        rw [hf.unnamed] at hid
        cases hid
      rw [update_self, update_of_ne hj]
      simp [hnot, Ne.symm hj]
  · rw [update_of_ne hn]
    by_cases hj : j = k
    · subst hj
      rw [update_self, hs n j, hnone]
      simp [Ne.symm hn]
    · rw [update_of_ne hj]
      exact hs n j

theorem RegistryInv.register {s s' : State T} {name : String} {i : Int} (h : RegistryInv s)
    (hreg : registerLocked s name = .ok (s', i)) : RegistryInv s' := by
  have hgraph := (registerLocked_inv h.graph hreg).1
  rcases registerLocked_cases h.enabled hreg with ⟨k, _, _, _, hs'⟩ | ⟨k, _, _, hf⟩
  · subst hs'
    exact ⟨h.enabled, hgraph, h.name_iff, h.free⟩
  · have hnone : s.lockNames k = none := h.free k hf.free
    refine ⟨by rw [hf.gLockdep, h.enabled], hgraph, hf.name_iff hnone h.name_iff, ?_⟩
    intro j hj
    rw [hf.freeIds] at hj
    by_cases hjk : j = k
    · subst hjk
      simp at hj
    · rw [update_of_ne hjk] at hj
      rw [hf.lockNames, update_of_ne hjk]
      exact h.free j hj

theorem RegistryInv.ensure {s s' : State T} {name : String} {id i : Int} (h : RegistryInv s)
    (hens : ensureId s name id = .ok (s', i)) : RegistryInv s' := by
  unfold ensureId at hens
  split at hens
  · exact h.register hens
  · obtain ⟨hs, _⟩ := ok_mk_inj hens
    exact hs ▸ h

theorem RegistryInv.willLock {s s' : State T} {t : T} {name : String} {id i : Int}
    {recursive : Bool} (h : RegistryInv s) (hid : id < s.currentMaxid)
    (hwl : lockdepWillLock s t name id recursive = .ok (s', i)) : RegistryInv s' := by
  have hgraph := (willLock_inv h.graph hid hwl).1
  obtain ⟨s1, g, hens, _, hs'⟩ := lockdepWillLock_cases h.enabled hwl
  subst hs'
  have h1 := h.ensure hens
  exact ⟨h1.enabled, hgraph, h1.name_iff, h1.free⟩

theorem RegistryInv.locked [DecidableEq T] {s s' : State T} {t : T} {name : String} {id i : Int}
    (h : RegistryInv s) (hid : id < s.currentMaxid)
    (hl : lockdepLocked s t name id = .ok (s', i)) : RegistryInv s' := by
  have hgraph := (locked_inv h.graph hid hl).1
  obtain ⟨s1, hens, hs'⟩ := lockdepLocked_cases h.enabled hl
  subst hs'
  have h1 := h.ensure hens
  exact ⟨h1.enabled, hgraph, h1.name_iff, h1.free⟩

theorem lockdepWillUnlock_cases [DecidableEq T] {s s' : State T} {t : T} {id i : Int}
    (hg : s.gLockdep = true) (h : lockdepWillUnlock s t id = .ok (s', i)) :
    i = id ∧ ((id < 0 ∧ s' = s) ∨
      (0 ≤ id ∧ s' = setHeld s t ((s.held t).filter (· ≠ id.toNat)))) := by
  unfold lockdepWillUnlock at h
  split at h
  · next hneg =>
    split at h
    · obtain ⟨hs, hi⟩ := ok_mk_inj h
      exact ⟨hi.symm, Or.inl ⟨hneg, hs.symm⟩⟩
    · cases h
  · next hneg =>
    rw [hg] at h
    obtain ⟨hs, hi⟩ := ok_mk_inj h
    exact ⟨hi.symm, Or.inr ⟨by omega, hs.symm⟩⟩

theorem mem_willUnlock [DecidableEq T] {s s' : State T} {t q : T} {id i : Int} {a : Nat}
    (hg : s.gLockdep = true) (hu : lockdepWillUnlock s t id = .ok (s', i))
    (ha : a ∈ s'.held q) : a ∈ s.held q := by
  obtain ⟨_, ⟨_, hs'⟩ | ⟨_, hs'⟩⟩ := lockdepWillUnlock_cases hg hu
  · exact hs' ▸ ha
  · subst hs'
    rcases mem_setHeld.mp ha with ⟨hq, ha⟩ | ⟨_, ha⟩
    · exact hq ▸ List.mem_of_mem_filter ha
    · exact ha

theorem RegistryInv.willUnlock [DecidableEq T] {s s' : State T} {t : T} {id i : Int}
    (h : RegistryInv s) (hu : lockdepWillUnlock s t id = .ok (s', i)) : RegistryInv s' := by
  have hheld : ∀ q, ∀ a ∈ s'.held q, a ∈ s.held q := fun q a => mem_willUnlock h.enabled hu
  obtain ⟨_, ⟨_, hs'⟩ | ⟨_, hs'⟩⟩ := lockdepWillUnlock_cases h.enabled hu
  · exact hs' ▸ h
  · subst hs'
    exact ⟨h.enabled, ⟨h.graph.acyclic, h.graph.below,
      fun q a ha => h.graph.held_lt q a (hheld q a ha), h.graph.lockIds_lt⟩, h.name_iff, h.free⟩

theorem freeClass_registered {s : State T} {name : String} {k a : Nat} :
    Registered (freeClass s name k) a ↔ a ≠ k ∧ Registered s a := by
  unfold Registered
  rw [freeClass_lockNames]
  by_cases ha : a = k
  · subst ha
    simp
  · simp [ha]

theorem RegistryInv.freeClass {s : State T} {name : String} {k : Nat} (h : RegistryInv s)
    (hname : s.lockNames k = some name) : RegistryInv (freeClass s name k) := by
  refine ⟨h.enabled, ⟨purge_acyclic h.graph.acyclic _ _, purge_below h.graph.below _ _,
    h.graph.held_lt, ?_⟩, ?_, ?_⟩
  · intro n a ha
    rw [freeClass_lockIds] at ha
    by_cases hn : n = name
    · subst hn
      simp at ha
    · rw [update_of_ne hn] at ha
      exact h.graph.lockIds_lt n a ha
  · intro n j
    rw [freeClass_lockIds, freeClass_lockNames]
    by_cases hn : n = name
    · subst hn
      rw [update_self]
      by_cases hj : j = k
      · subst hj
        simp
      · have hne : s.lockNames j ≠ some n := by
          intro hj'
          have h1 := (h.name_iff n j).mpr hj'
          have h2 := (h.name_iff n k).mpr hname
          rw [h1] at h2
          exact hj (Option.some.inj h2)
        rw [update_of_ne hj]
        simp [hne]
    · rw [update_of_ne hn]
      by_cases hj : j = k
      · subst hj
        rw [update_self, h.name_iff, hname]
        simp [Ne.symm hn]
      · rw [update_of_ne hj]
        exact h.name_iff n j
  · intro j hj
    rw [freeClass_freeIds] at hj
    rw [freeClass_lockNames]
    by_cases hjk : j = k
    · subst hjk
      simp
    · rw [update_of_ne hjk] at hj ⊢
      exact h.free j hj

theorem RegistryInv.unregister {s s' : State T} {id : Int} (h : RegistryInv s)
    (hun : lockdepUnregister s id = .ok s') : RegistryInv s' := by
  rcases lockdepUnregister_cases hun with ⟨_, hs'⟩ | ⟨k, name, _, hname, ⟨_, hs'⟩ | ⟨_, hs'⟩⟩
  · exact hs' ▸ h
  · exact hs' ▸ h.freeClass hname
  · subst hs'
    exact ⟨h.enabled, ⟨h.graph.acyclic, h.graph.below, h.graph.held_lt, h.graph.lockIds_lt⟩,
      h.name_iff, h.free⟩

/-! Where a session starts. -/

/-- What a state with lockdep switched off still holds. -/
structure OffEmpty (s : State T) : Prop where
  lockNames : ∀ k, s.lockNames k = none
  lockIds : ∀ name, s.lockIds name = none
  held : ∀ p, s.held p = []
  follows : ∀ a b, ¬ Edge s.follows a b

theorem OffEmpty.destroy {s : State T} (hs : GraphInv s) (hg : s.gLockdep = true) :
    OffEmpty (lockdepGlobalDestroy s) := by
  refine ⟨?_, ?_, ?_, destroyed_edge hs hg⟩
  · simp [lockdepGlobalDestroy, hg]
  · simp [lockdepGlobalDestroy, hg]
  · simp [lockdepGlobalDestroy, hg]

/-- While lockdep is off a call changes nothing, except that `lockdep_global_init` turns it on. -/
theorem exec_off [DecidableEq T] {s s' : State T} {c : Call T} {r : Option Int} (hs : OffEmpty s)
    (hg : s.gLockdep = false) (h : c.exec s = .ok (s', r)) :
    s' = s ∨ s'.gLockdep = true := by
  cases c with
  | globalInit =>
    obtain ⟨rfl, rfl⟩ := ok_mk_inj h
    refine Or.inr ?_
    simp only [lockdepGlobalInit, hg, Bool.false_eq_true, if_false]
    split <;> rfl
  | globalDestroy =>
    obtain ⟨rfl, rfl⟩ := ok_mk_inj h
    exact Or.inl (by simp [lockdepGlobalDestroy, hg])
  | register name =>
    obtain ⟨⟨s1, i⟩, hreg, h⟩ := bind_ok h
    obtain ⟨rfl, rfl⟩ := ok_mk_inj h
    rw [lockdepRegister, registerLocked_off hg] at hreg
    exact Or.inl (ok_mk_inj hreg).1.symm
  | unregister id =>
    obtain ⟨s1, hun, h⟩ := bind_ok h
    obtain ⟨rfl, rfl⟩ := ok_mk_inj h
    rcases lockdepUnregister_cases hun with ⟨_, heq⟩ | ⟨k, name, _, hname, _⟩
    · exact Or.inl heq
    · rw [hs.lockNames k] at hname
      cases hname
  | willLock p name id recursive =>
    obtain ⟨⟨s1, i⟩, hwl, h⟩ := bind_ok h
    obtain ⟨rfl, rfl⟩ := ok_mk_inj h
    simp only [lockdepWillLock, hg, if_true] at hwl
    exact Or.inl (ok_mk_inj hwl).1.symm
  | locked p name id =>
    obtain ⟨⟨s1, i⟩, hl, h⟩ := bind_ok h
    obtain ⟨rfl, rfl⟩ := ok_mk_inj h
    simp only [lockdepLocked, hg, if_true] at hl
    exact Or.inl (ok_mk_inj hl).1.symm
  | willUnlock p id =>
    obtain ⟨⟨s1, i⟩, hu, h⟩ := bind_ok h
    obtain ⟨rfl, rfl⟩ := ok_mk_inj h
    simp only [lockdepWillUnlock, hg, if_true] at hu
    split at hu
    · split at hu
      · exact Or.inl (ok_mk_inj hu).1.symm
      · cases hu
    · exact Or.inl (ok_mk_inj hu).1.symm

theorem registerLocked_on {s s' : State T} {name : String} {i : Int} (hg : s.gLockdep = true)
    (h : registerLocked s name = .ok (s', i)) : s'.gLockdep = true := by
  rcases registerLocked_cases hg h with ⟨k, _, _, _, rfl⟩ | ⟨k, _, _, hf⟩
  · exact hg
  · rw [hf.gLockdep, hg]

theorem ensureId_on {s s' : State T} {name : String} {id i : Int} (hg : s.gLockdep = true)
    (h : ensureId s name id = .ok (s', i)) : s'.gLockdep = true := by
  unfold ensureId at h
  split at h
  · exact registerLocked_on hg h
  · obtain ⟨rfl, rfl⟩ := ok_mk_inj h
    exact hg

theorem exec_on [DecidableEq T] {s s' : State T} {c : Call T} {r : Option Int} (hg : s.gLockdep = true)
    (h : c.exec s = .ok (s', r)) : s'.gLockdep = true ∨ s' = lockdepGlobalDestroy s := by
  cases c with
  | globalInit =>
    obtain ⟨rfl, rfl⟩ := ok_mk_inj h
    exact Or.inl (by simp [lockdepGlobalInit, hg])
  | globalDestroy =>
    obtain ⟨rfl, rfl⟩ := ok_mk_inj h
    exact Or.inr rfl
  | register name =>
    obtain ⟨⟨s1, i⟩, hreg, h⟩ := bind_ok h
    obtain ⟨rfl, rfl⟩ := ok_mk_inj h
    exact Or.inl (registerLocked_on hg hreg)
  | unregister id =>
    obtain ⟨s1, hun, h⟩ := bind_ok h
    obtain ⟨rfl, rfl⟩ := ok_mk_inj h
    rcases lockdepUnregister_cases hun with ⟨_, rfl⟩ | ⟨k, name, _, _, ⟨_, rfl⟩ | ⟨_, rfl⟩⟩
    · exact Or.inl hg
    · exact Or.inl hg
    · exact Or.inl hg
  | willLock p name id recursive =>
    obtain ⟨⟨s1, i⟩, hwl, h⟩ := bind_ok h
    obtain ⟨rfl, rfl⟩ := ok_mk_inj h
    obtain ⟨s2, g, hens, _, rfl⟩ := lockdepWillLock_cases hg hwl
    exact Or.inl (show s2.gLockdep = true from ensureId_on hg hens)
  | locked p name id =>
    obtain ⟨⟨s1, i⟩, hl, h⟩ := bind_ok h
    obtain ⟨rfl, rfl⟩ := ok_mk_inj h
    obtain ⟨s2, hens, rfl⟩ := lockdepLocked_cases hg hl
    exact Or.inl (show s2.gLockdep = true from ensureId_on hg hens)
  | willUnlock p id =>
    obtain ⟨⟨s1, i⟩, hu, h⟩ := bind_ok h
    obtain ⟨rfl, rfl⟩ := ok_mk_inj h
    unfold lockdepWillUnlock at hu
    split at hu
    · split at hu
      · exact Or.inl ((ok_mk_inj hu).1 ▸ hg)
      · cases hu
    · split at hu
      · exact Or.inl ((ok_mk_inj hu).1 ▸ hg)
      · exact Or.inl ((ok_mk_inj hu).1 ▸ hg)

theorem Process.Reachable.off_empty [DecidableEq T] {p : Process T} (h : p.Reachable)
    (hoff : p.state.gLockdep = false) : OffEmpty p.state := by
  induction h with
  | start hp =>
    subst hp
    exact ⟨fun _ => rfl, fun _ => rfl, fun _ => rfl, fun a b hab => by cases hab⟩
  | @step p q c hr hstep ih =>
    obtain ⟨_, r, hexec, _⟩ := hstep
    cases hg : p.state.gLockdep with
    | false =>
      rcases exec_off (ih hg) hg hexec with heq | hon
      · rw [heq]
        exact ih hg
      · rw [hon] at hoff
        cases hoff
    | true =>
      rcases exec_on hg hexec with hon | heq
      · rw [hon] at hoff
        cases hoff
      · rw [heq]
        exact OffEmpty.destroy (Process.Reachable.inv hr).graph hg

/-- The state right after `lockdep_global_init` has switched lockdep on. -/
def SessionStart [DecidableEq T] (s : State T) : Prop :=
  ∃ p : Process T, p.Reachable ∧ p.state.gLockdep = false ∧ s = lockdepGlobalInit p.state

theorem SessionStart.empty [DecidableEq T] {s : State T} (h : SessionStart s) :
    s.gLockdep = true ∧ OffEmpty s ∧ GraphInv s := by
  obtain ⟨p, hp, hg, rfl⟩ := h
  have hoff := hp.off_empty hg
  refine ⟨?_, ?_, hp.inv.graph.globalInit⟩
  · simp only [lockdepGlobalInit, hg, Bool.false_eq_true, if_false]
    split <;> rfl
  · simp only [lockdepGlobalInit, hg, Bool.false_eq_true, if_false]
    split
    · exact ⟨hoff.lockNames, hoff.lockIds, hoff.held, hoff.follows⟩
    · exact ⟨hoff.lockNames, hoff.lockIds, hoff.held, hoff.follows⟩

theorem SessionStart.registry [DecidableEq T] {s : State T} (h : SessionStart s) :
    RegistryInv s := by
  obtain ⟨hon, hempty, hgraph⟩ := h.empty
  refine ⟨hon, hgraph, ?_, fun k _ => hempty.lockNames k⟩
  intro name k
  rw [hempty.lockIds, hempty.lockNames]
  simp

end LockdepSpdk.Lockdep
