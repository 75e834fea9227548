import LockdepSpdk.Lockdep.Registry

/-!
# The graph as a record of what was observed

Inside one enabled session the edges are compared with a log of the calls. The
log is a history variable, newest entry first: which ids were assigned, and
which locks a thread held each time it was about to take another one.
-/

namespace LockdepSpdk.Lockdep

set_option autoImplicit false

open Function Transition

variable {T : Type} [DecidableEq T]

inductive Event (T : Type) where
  | assigned (id : Nat)
  | asked (p : T) (id : Nat) (held : List Nat)
  deriving DecidableEq

/-- The log entries younger than the current registrations of `a` and of `b`. -/
def sinceBoth (a b : Nat) (log : List (Event T)) : List (Event T) :=
  log.takeWhile fun e => e ≠ .assigned a ∧ e ≠ .assigned b

/-- Some thread called `lockdep_will_lock` for `b` with `a` in its held map, since the later
registration. -/
def Observed (log : List (Event T)) (a b : Nat) : Prop :=
  ∃ p held, .asked p b held ∈ sinceBoth a b log ∧ a ∈ held

omit [DecidableEq T] in
theorem Observed.not_of_assigned {log : List (Event T)} {a b k : Nat} [DecidableEq T]
    (hk : a = k ∨ b = k) : ¬ Observed (.assigned k :: log) a b := by
  rintro ⟨p, held, hmem, _⟩
  rcases hk with rfl | rfl
  · simp [sinceBoth] at hmem
  · simp [sinceBoth] at hmem

theorem observed_assigned {log : List (Event T)} {a b k : Nat} (ha : a ≠ k) (hb : b ≠ k) :
    Observed (.assigned k :: log) a b ↔ Observed log a b := by
  simp [Observed, sinceBoth, ha.symm, hb.symm]

theorem observed_asked {log : List (Event T)} {p : T} {held : List Nat} {a b k : Nat} :
    Observed (.asked p k held :: log) a b ↔ Observed log a b ∨ (b = k ∧ a ∈ held) := by
  constructor
  · intro h
    obtain ⟨q, l, hmem, ha⟩ := h
    simp only [sinceBoth, List.takeWhile_cons, ne_eq, reduceCtorEq, not_false_eq_true, and_self,
      decide_true, if_true, List.mem_cons, Event.asked.injEq] at hmem
    rcases hmem with ⟨_, rfl, rfl⟩ | hmem
    · exact Or.inr ⟨rfl, ha⟩
    · exact Or.inl ⟨q, l, hmem, ha⟩
  · intro h
    rcases h with ⟨q, l, hmem, ha⟩ | ⟨rfl, ha⟩
    · refine ⟨q, l, ?_, ha⟩
      simp only [sinceBoth, List.takeWhile_cons, ne_eq, reduceCtorEq, not_false_eq_true, and_self,
        decide_true, if_true]
      exact List.mem_cons_of_mem _ hmem
    · exact ⟨p, held, by simp [sinceBoth], ha⟩

/-- A session with its history: `waiting p` are the ids `p` has passed `lockdep_will_lock` for
and not yet `lockdep_locked`. -/
structure Tracked (T : Type) where
  state : State T
  waiting : T → List Nat
  log : List (Event T)

def newId (s : State T) (i : Int) : List (Event T) :=
  if s.lockNames i.toNat = none then [.assigned i.toNat] else []

/-- What the callers keep to: they pass -1 or an id whose registration stands, and the last
reference to an id is dropped only while nobody holds it or waits for it. -/
def Tracked.Allows (p : Tracked T) : Call T → Prop
  | .globalInit => False
  | .globalDestroy => False
  | .register _ => True
  | .unregister id => ∀ k : Nat, id = k → (p.state.lockRefs k).getD 0 = 1 →
      ∀ t, k ∉ p.state.held t ∧ k ∉ p.waiting t
  | .willLock _ _ id _ => ∀ k : Nat, id = k → Registered p.state k
  | .locked t _ id => ∀ k : Nat, id = k → Registered p.state k ∨ k ∈ p.waiting t
  | .willUnlock _ _ => True

def Tracked.record (p : Tracked T) (s' : State T) (r : Option Int) : Call T → Tracked T
  | .register _ => ⟨s', p.waiting, newId p.state (r.getD 0) ++ p.log⟩
  | .willLock t _ _ _ =>
    ⟨s', update p.waiting t ((r.getD 0).toNat :: p.waiting t),
      .asked t (r.getD 0).toNat (p.state.held t) :: (newId p.state (r.getD 0) ++ p.log)⟩
  | .locked t _ _ =>
    ⟨s', update p.waiting t ((p.waiting t).filter (· ≠ (r.getD 0).toNat)),
      newId p.state (r.getD 0) ++ p.log⟩
  | _ => ⟨s', p.waiting, p.log⟩

def Tracked.Step (p : Tracked T) (c : Call T) (q : Tracked T) : Prop :=
  p.Allows c ∧ ∃ s' r, c.exec p.state = .ok (s', r) ∧ q = p.record s' r c

def Tracked.Start (p : Tracked T) : Prop :=
  SessionStart p.state ∧ (∀ t, p.waiting t = []) ∧ p.log = []

def Tracked.Reachable (p : Tracked T) : Prop := Transition.Reachable Tracked.Start Tracked.Step p

/-- The invariant: names and ids agree, what is held or waited for is registered, and an edge
stands exactly for an observation. -/
structure HistoryInv (s : State T) (waiting : T → List Nat) (log : List (Event T)) : Prop where
  registry : RegistryInv s
  held : ∀ t, ∀ a ∈ s.held t, Registered s a
  waiting : ∀ t, ∀ a ∈ waiting t, Registered s a
  edge_iff : ∀ a b, Edge s.follows a b ↔
    a ≠ b ∧ Registered s a ∧ Registered s b ∧ Observed log a b

theorem HistoryInv.register {s s' : State T} {waiting : T → List Nat} {log : List (Event T)}
    {name : String} {i : Int} (h : HistoryInv s waiting log)
    (hreg : registerLocked s name = .ok (s', i)) :
    HistoryInv s' waiting (newId s i ++ log) ∧ s'.held = s.held ∧
      ∃ k : Nat, i = k ∧ Registered s' k := by
  have hregistry := h.registry.register hreg
  rcases registerLocked_cases h.registry.enabled hreg with ⟨k, hi, hid, _, hs'⟩ | ⟨k, hi, _, hf⟩
  · subst hi hs'
    have hk : s.lockNames k = some name := (h.registry.name_iff name k).mp hid
    have hnew : newId (T := T) s k = [] := by simp [newId, hk]
    rw [hnew]
    exact ⟨⟨hregistry, h.held, h.waiting, h.edge_iff⟩, rfl, k, rfl, name, hk⟩
  · subst hi
    have hnone : s.lockNames k = none := h.registry.free k hf.free
    have hnew : newId (T := T) s k = [.assigned k] := by simp [newId, hnone]
    have hnot : ¬ Registered s k := by
      intro ⟨n, hn⟩
      rw [hnone] at hn
      cases hn
    rw [hnew]
    refine ⟨⟨hregistry, ?_, ?_, ?_⟩, hf.held, k, rfl, hf.registered_iff.mpr (Or.inl rfl)⟩
    · intro t a ha
      rw [hf.held] at ha
      exact hf.registered_iff.mpr (Or.inr (h.held t a ha))
    · intro t a ha
      exact hf.registered_iff.mpr (Or.inr (h.waiting t a ha))
    · intro a b
      rw [hf.follows, h.edge_iff, hf.registered_iff, hf.registered_iff]
      simp only [List.singleton_append]
      by_cases hab : a = k ∨ b = k
      · have hno : ¬ Observed (.assigned k :: log) a b := Observed.not_of_assigned hab
        constructor
        · intro hedge
          rcases hab with hak | hbk
          · exact absurd (hak ▸ hedge.2.1) hnot
          · exact absurd (hbk ▸ hedge.2.2.1) hnot
        · intro hedge
          exact absurd hedge.2.2.2 hno
      · have ha : a ≠ k := fun hak => hab (Or.inl hak)
        have hb : b ≠ k := fun hbk => hab (Or.inr hbk)
        rw [observed_assigned ha hb]
        simp [ha, hb]

theorem HistoryInv.ensure {s s' : State T} {waiting : T → List Nat} {log : List (Event T)}
    {name : String} {id i : Int} (h : HistoryInv s waiting log)
    (hid : ∀ k : Nat, id = k → Registered s k) (hens : ensureId s name id = .ok (s', i)) :
    HistoryInv s' waiting (newId s i ++ log) ∧ s'.held = s.held ∧
      ∃ k : Nat, i = k ∧ Registered s' k := by
  unfold ensureId at hens
  split at hens
  · exact h.register hens
  · next hneg =>
    obtain ⟨hs, hi⟩ := ok_mk_inj hens
    subst hs hi
    have hk : id = (id.toNat : Int) := by omega
    have hreg := hid id.toNat hk
    have hnew : newId (T := T) s id = [] := by
      obtain ⟨n, hn⟩ := hreg
      simp [newId, hn]
    rw [hnew]
    exact ⟨h, rfl, id.toNat, hk, hreg⟩

theorem HistoryInv.willLock {s s' : State T} {waiting : T → List Nat} {log : List (Event T)}
    {t : T} {name : String} {id i : Int} {recursive : Bool} (h : HistoryInv s waiting log)
    (hid : ∀ k : Nat, id = k → Registered s k)
    (hwl : lockdepWillLock s t name id recursive = .ok (s', i)) :
    HistoryInv s' (update waiting t (i.toNat :: waiting t))
      (.asked t i.toNat (s.held t) :: (newId s i ++ log)) := by
  have hregistry := h.registry.willLock (h.registry.id_lt hid) hwl
  obtain ⟨s1, g, hens, hcheck, hs'⟩ := lockdepWillLock_cases h.registry.enabled hwl
  subst hs'
  obtain ⟨h1, hheld, k, hi, hk⟩ := h.ensure hid hens
  subst hi
  have hext := checkHeld_extended h1.registry.graph (h1.registry.lt hk) hcheck
  refine ⟨hregistry, h1.held, ?_, ?_⟩
  · intro q a ha
    by_cases hq : q = t
    · subst hq
      rw [update_self] at ha
      rcases List.mem_cons.mp ha with hak | ha
      · have hak' : a = k := hak
        subst hak'
        exact hk
      · exact h1.waiting q a ha
    · rw [update_of_ne hq] at ha
      exact h1.waiting q a ha
  · intro a b
    change Edge g a b ↔ a ≠ b ∧ Registered s1 a ∧ Registered s1 b ∧ _
    rw [hext.edge_iff, h1.edge_iff, observed_asked, ← hheld]
    constructor
    · intro hab
      rcases hab with ⟨hne, ha, hb, hobs⟩ | ⟨hb, ha, hne⟩
      · exact ⟨hne, ha, hb, Or.inl hobs⟩
      · rw [hb]
        exact ⟨hne, h1.held t a ha, hk, Or.inr ⟨rfl, ha⟩⟩
    · intro hab
      obtain ⟨hne, ha, hb, hobs | ⟨hbk, hah⟩⟩ := hab
      · exact Or.inl ⟨hne, ha, hb, hobs⟩
      · have hbk' : b = k := hbk
        rw [← hbk']
        exact Or.inr ⟨rfl, hah, hne⟩

theorem HistoryInv.locked {s s' : State T} {waiting : T → List Nat} {log : List (Event T)}
    {t : T} {name : String} {id i : Int} (h : HistoryInv s waiting log)
    (hid : ∀ k : Nat, id = k → Registered s k ∨ k ∈ waiting t)
    (hl : lockdepLocked s t name id = .ok (s', i)) :
    HistoryInv s' (update waiting t ((waiting t).filter (· ≠ i.toNat))) (newId s i ++ log) := by
  have hreg : ∀ k : Nat, id = k → Registered s k := by
    intro k hk
    rcases hid k hk with hreg | hwait
    · exact hreg
    · exact h.waiting t k hwait
  have hregistry := h.registry.locked (h.registry.id_lt hreg) hl
  obtain ⟨s1, hens, hs'⟩ := lockdepLocked_cases h.registry.enabled hl
  subst hs'
  obtain ⟨h1, _, k, hi, hk⟩ := h.ensure hreg hens
  subst hi
  refine ⟨hregistry, ?_, ?_, h1.edge_iff⟩
  · intro q a ha
    rcases mem_setHeld.mp ha with ⟨_, ha⟩ | ⟨_, ha⟩
    · rcases mem_insertKey.mp ha with hak | ha
      · have hak' : a = k := hak
        subst hak'
        exact hk
      · exact h1.held t a ha
    · exact h1.held q a ha
  · intro q a ha
    by_cases hq : q = t
    · subst hq
      rw [update_self] at ha
      exact h1.waiting q a (List.mem_of_mem_filter ha)
    · rw [update_of_ne hq] at ha
      exact h1.waiting q a ha

theorem HistoryInv.willUnlock {s s' : State T} {waiting : T → List Nat} {log : List (Event T)}
    {t : T} {id i : Int} (h : HistoryInv s waiting log)
    (hu : lockdepWillUnlock s t id = .ok (s', i)) : HistoryInv s' waiting log := by
  have hregistry := h.registry.willUnlock hu
  have hheld : ∀ q, ∀ a ∈ s'.held q, a ∈ s.held q := fun q a => mem_willUnlock h.registry.enabled hu
  obtain ⟨_, ⟨_, hs'⟩ | ⟨_, hs'⟩⟩ := lockdepWillUnlock_cases h.registry.enabled hu
  · exact hs' ▸ h
  · subst hs'
    exact ⟨hregistry, fun q a ha => h.held q a (hheld q a ha), h.waiting, h.edge_iff⟩

/-- Dropping the last reference takes the id, its name and every edge at it away. -/
theorem HistoryInv.freeClass {s : State T} {waiting : T → List Nat} {log : List (Event T)}
    {name : String} {k : Nat} (h : HistoryInv s waiting log) (hname : s.lockNames k = some name)
    (hidle : ∀ t, k ∉ s.held t ∧ k ∉ waiting t) :
    HistoryInv (freeClass s name k) waiting log := by
  refine ⟨h.registry.freeClass hname, ?_, ?_, ?_⟩
  · intro t a ha
    apply freeClass_registered.mpr
    refine ⟨?_, h.held t a ha⟩
    intro hak
    exact (hidle t).1 (hak ▸ ha)
  · intro t a ha
    apply freeClass_registered.mpr
    refine ⟨?_, h.waiting t a ha⟩
    intro hak
    exact (hidle t).2 (hak ▸ ha)
  · intro a b
    rw [freeClass_registered, freeClass_registered]
    constructor
    · intro hab
      obtain ⟨hedge, hak, hbk⟩ := purge_edge hab
      obtain ⟨hne, ha, hb, hobs⟩ := (h.edge_iff a b).mp hedge
      have halt := (h.registry.graph.below a b hedge).1
      exact ⟨hne, ⟨hak, ha⟩, ⟨hbk halt, hb⟩, hobs⟩
    · intro hab
      obtain ⟨hne, ⟨hak, ha⟩, ⟨hbk, hb⟩, hobs⟩ := hab
      exact purge_edge_of_ne ((h.edge_iff a b).mpr ⟨hne, ha, hb, hobs⟩) hak hbk

theorem HistoryInv.unregister {s s' : State T} {waiting : T → List Nat} {log : List (Event T)}
    {id : Int} (h : HistoryInv s waiting log)
    (hidle : ∀ k : Nat, id = k → (s.lockRefs k).getD 0 = 1 →
      ∀ t, k ∉ s.held t ∧ k ∉ waiting t)
    (hun : lockdepUnregister s id = .ok s') : HistoryInv s' waiting log := by
  have hregistry := h.registry.unregister hun
  rcases lockdepUnregister_cases hun with ⟨_, hs'⟩ | ⟨k, name, hk, hname, ⟨href, hs'⟩ | ⟨_, hs'⟩⟩
  · exact hs' ▸ h
  · exact hs' ▸ h.freeClass hname (hidle k hk href)
  · subst hs'
    exact ⟨hregistry, h.held, h.waiting, h.edge_iff⟩

theorem HistoryInv.start {p : Tracked T} (h : p.Start) :
    HistoryInv p.state p.waiting p.log := by
  obtain ⟨hs, hw, _⟩ := h
  obtain ⟨_, hempty, _⟩ := hs.empty
  refine ⟨hs.registry, ?_, ?_, ?_⟩
  · intro t a ha
    rw [hempty.held] at ha
    cases ha
  · intro t a ha
    rw [hw] at ha
    cases ha
  · intro a b
    constructor
    · intro hab
      exact absurd hab (hempty.follows a b)
    · intro hab
      obtain ⟨_, ⟨name, ha⟩, _⟩ := hab
      rw [hempty.lockNames] at ha
      cases ha

theorem Tracked.step_inv {p q : Tracked T} {c : Call T}
    (h : HistoryInv p.state p.waiting p.log) (hstep : p.Step c q) :
    HistoryInv q.state q.waiting q.log := by
  obtain ⟨hallow, s', r, hexec, rfl⟩ := hstep
  cases c with
  | globalInit => exact False.elim hallow
  | globalDestroy => exact False.elim hallow
  | register name =>
    obtain ⟨⟨s1, i⟩, hreg, hexec⟩ := bind_ok hexec
    obtain ⟨rfl, rfl⟩ := ok_mk_inj hexec
    exact (h.register hreg).1
  | unregister id =>
    obtain ⟨s1, hun, hexec⟩ := bind_ok hexec
    obtain ⟨rfl, rfl⟩ := ok_mk_inj hexec
    exact h.unregister hallow hun
  | willLock t name id recursive =>
    obtain ⟨⟨s1, i⟩, hwl, hexec⟩ := bind_ok hexec
    obtain ⟨rfl, rfl⟩ := ok_mk_inj hexec
    exact h.willLock hallow hwl
  | locked t name id =>
    obtain ⟨⟨s1, i⟩, hl, hexec⟩ := bind_ok hexec
    obtain ⟨rfl, rfl⟩ := ok_mk_inj hexec
    exact h.locked hallow hl
  | willUnlock t id =>
    obtain ⟨⟨s1, i⟩, hu, hexec⟩ := bind_ok hexec
    obtain ⟨rfl, rfl⟩ := ok_mk_inj hexec
    exact h.willUnlock hu

theorem Tracked.Reachable.inv {p : Tracked T} (h : p.Reachable) :
    HistoryInv p.state p.waiting p.log := by
  change (fun q : Tracked T => HistoryInv q.state q.waiting q.log) p
  apply Transition.Reachable.invariant _ _ h
  · exact fun q hq => HistoryInv.start hq
  · exact fun q c r hq hstep => Tracked.step_inv hq hstep

/-- The edges of every reachable state of a session are exactly the observations, and an id that
`lockdep_get_free_id` hands out has no edge and no holder. -/
theorem follows_eq_history {p : Tracked T} (h : p.Reachable) :
    (∀ a b, Edge p.state.follows a b ↔ a ≠ b ∧ Registered p.state a ∧ Registered p.state b ∧
      ∃ t held, .asked t b held ∈ sinceBoth a b p.log ∧ a ∈ held) ∧
    ∀ (k : Nat) s1, lockdepGetFreeId p.state = ((k : Int), s1) →
      (∀ a, ¬ Edge s1.follows k a ∧ ¬ Edge s1.follows a k) ∧ ∀ t, k ∉ s1.held t := by
  have hinv := h.inv
  refine ⟨hinv.edge_iff, ?_⟩
  intro k s1 hget
  obtain ⟨hpicks, last, _, rfl⟩ := lockdepGetFreeId_spec hget (by omega)
  have hnone : p.state.lockNames k = none := hinv.registry.free k hpicks.free
  have hnot : ¬ Registered p.state k := by
    intro hk
    obtain ⟨n, hn⟩ := hk
    rw [hnone] at hn
    cases hn
  refine ⟨fun a => ⟨?_, ?_⟩, ?_⟩
  · intro hka
    exact hnot ((hinv.edge_iff k a).mp hka).2.1
  · intro hak
    exact hnot ((hinv.edge_iff a k).mp hak).2.2.1
  · intro t ht
    exact hnot (hinv.held t k ht)

/-- The run of `lock_in_order`: `lock2` is asked for with `lock1` held. -/
theorem follows_eq_history_nested : ∃ p : Tracked Bool, p.Reachable ∧ Edge p.state.follows 0 1 ∧
    ∃ t held, .asked t 1 held ∈ sinceBoth 0 1 p.log ∧ 0 ∈ held := by
  have h0 : Tracked.Reachable (⟨lockdepGlobalInit initial, fun _ => [], []⟩ : Tracked Bool) :=
    .start ⟨⟨Process.start, .start rfl, rfl, rfl⟩, fun _ => rfl, rfl⟩
  have h1 := h0.step (show Tracked.Step _ (.willLock true "lock1" (-1) false) _ from
    ⟨fun k hk => by omega, _, _, rfl, rfl⟩)
  have h2 := h1.step (show Tracked.Step _ (.locked true "lock1" 0) _ from
    ⟨fun k hk => Or.inl ⟨"lock1", by
      obtain rfl : k = 0 := by omega
      rfl⟩, _, _, rfl, rfl⟩)
  have h3 := h2.step (show Tracked.Step _ (.willLock true "lock2" (-1) false) _ from
    ⟨fun k hk => by omega, _, _, rfl, rfl⟩)
  refine ⟨_, h3, rfl, ?_⟩
  exact (((follows_eq_history h3).1 0 1).mp rfl).2.2.2

end LockdepSpdk.Lockdep
