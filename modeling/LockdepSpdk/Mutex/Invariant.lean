import LockdepSpdk.Mutex.Machine

/-!
# What ties ownership to the lockdep state

The invariant of all threads and mutexes while lockdep stays on. A class is what
its mutex is registered under: every mutex a thread owns is in its `held` map
outside the few points between an acquisition and its record, and a thread that
is past `_will_lock` has an edge from each of its mutexes to the one it wants.
-/

namespace LockdepSpdk.Mutex

set_option autoImplicit false

open Function Lockdep Transition

section LockdepCalls
variable {T : Type}

/-- Names keep their ids and edges stay. -/
structure Grows (l l' : State T) : Prop where
  ids : ∀ c k, l.lockIds c = some k → l'.lockIds c = some k
  edges : ∀ a b, Edge l.follows a b → Edge l'.follows a b

theorem Grows.refl (l : State T) : Grows l l := ⟨fun _ _ h => h, fun _ _ h => h⟩

/-- A value of `id`, or a copy of it: still -1, or the id of the class. -/
def IdOk (l : State T) (o : Obj T) (i : Int) : Prop :=
  (i = -1 ∧ o.cls = o.group) ∨ ∃ k : Nat, i = k ∧ l.lockIds o.cls = some k

def ClassEdge (l : State T) (c c' : String) : Prop :=
  ∃ a b, l.lockIds c = some a ∧ l.lockIds c' = some b ∧ Edge l.follows a b

def HeldClass (l : State T) (t : T) (c : String) : Prop :=
  ∃ k, l.lockIds c = some k ∧ k ∈ l.held t

theorem ClassEdge.grow {l l' : State T} {c c' : String} (hl : Grows l l')
    (h : ClassEdge l c c') : ClassEdge l' c c' := by
  obtain ⟨a, b, ha, hb, hab⟩ := h
  exact ⟨a, b, hl.ids c a ha, hl.ids c' b hb, hl.edges a b hab⟩

theorem IdOk.grow {l l' : State T} {o : Obj T} {i : Int} (hl : Grows l l') (h : IdOk l o i) :
    IdOk l' o i := by
  rcases h with h | ⟨k, hi, hk⟩
  · exact Or.inl h
  · exact Or.inr ⟨k, hi, hl.ids _ k hk⟩

theorem IdOk.lt {l : State T} {o : Obj T} {i : Int} (hl : RegistryInv l) (h : IdOk l o i) :
    i < l.currentMaxid := by
  rcases h with ⟨hi, _⟩ | ⟨k, hi, hk⟩
  · omega
  · have hlt := hl.graph.lockIds_lt _ k hk
    omega

theorem register_grows {l l' : State T} {name : String} {i : Int} (hl : RegistryInv l)
    (h : registerLocked l name = .ok (l', i)) :
    Grows l l' ∧ l'.held = l.held ∧ ∃ k : Nat, i = k ∧ l'.lockIds name = some k := by
  rcases registerLocked_cases hl.enabled h with ⟨k, hi, hname, _, hs⟩ | ⟨k, hi, _, hf⟩
  · subst hs
    exact ⟨⟨fun _ _ hc => hc, fun _ _ hab => hab⟩, rfl, k, hi, hname⟩
  · refine ⟨⟨?_, ?_⟩, hf.held, k, hi, by rw [hf.lockIds, update_self]⟩
    · intro c j hc
      have hne : c ≠ name := by
        intro heq
        rw [heq, hf.unnamed] at hc
        cases hc
      rw [hf.lockIds, update_of_ne hne]
      exact hc
    · intro a b hab
      rw [hf.follows]
      exact hab

/-- Whatever copy of `id` a thread passes, it gets the id of the class. -/
theorem IdOk.ensure {l l' : State T} {o : Obj T} {id i : Int} (hl : RegistryInv l)
    (hid : IdOk l o id) (h : ensureId l o.group id = .ok (l', i)) :
    Grows l l' ∧ l'.held = l.held ∧ ∃ k : Nat, i = k ∧ l'.lockIds o.cls = some k := by
  unfold ensureId at h
  rcases hid with ⟨hneg, hcls⟩ | ⟨k, hk, hname⟩
  · rw [if_pos (by omega)] at h
    rw [hcls]
    exact register_grows hl h
  · rw [if_neg (by omega)] at h
    obtain ⟨hs, hi⟩ := ok_mk_inj h
    subst hs
    exact ⟨Grows.refl _, rfl, k, by omega, hname⟩

/-- `_will_lock` adds the edges from what the thread holds to the id it comes back with. -/
theorem IdOk.willLock_extended {l l' : State T} {t : T} {o : Obj T} {id i : Int} {recursive : Bool}
    (hl : RegistryInv l) (hid : IdOk l o id)
    (h : lockdepWillLock l t o.group id recursive = .ok (l', i)) :
    Grows l l' ∧ l'.held = l.held ∧ ∃ k : Nat, i = k ∧ l'.lockIds o.cls = some k ∧
      (∀ a ∈ l.held t, a ≠ k → Edge l'.follows a k) ∧ (recursive = false → k ∉ l.held t) := by
  obtain ⟨l1, g, hens, hcheck, hs⟩ := lockdepWillLock_cases hl.enabled h
  subst hs
  obtain ⟨hgrow, hheld, k, hi, hk⟩ := hid.ensure hl hens
  subst hi
  have hl1 := hl.ensure hens
  have hext := checkHeld_extended hl1.graph (hl1.graph.lockIds_lt _ k hk) hcheck
  refine ⟨⟨hgrow.ids, ?_⟩, hheld, k, rfl, hk, ?_, ?_⟩
  · intro a b hab
    exact (hext.edge_iff a b).mpr (Or.inl (hgrow.edges a b hab))
  · intro a hmem hne
    rw [← hheld] at hmem
    exact (hext.edge_iff a k).mpr (Or.inr ⟨rfl, hmem, hne⟩)
  · intro hrec
    subst hrec
    rw [← hheld]
    exact checkHeld_not_mem hcheck

theorem IdOk.willLock {l l' : State T} {t : T} {o : Obj T} {id i : Int} (hl : RegistryInv l)
    (hid : IdOk l o id) (h : lockdepWillLock l t o.group id false = .ok (l', i)) :
    Grows l l' ∧ l'.held = l.held ∧ IdOk l' o i ∧
      ∀ c, HeldClass l t c → ClassEdge l' c o.cls := by
  obtain ⟨hgrow, hheld, k, hi, hk, hedges, hnot⟩ := hid.willLock_extended hl h
  refine ⟨hgrow, hheld, Or.inr ⟨k, hi, hk⟩, ?_⟩
  intro c hc
  obtain ⟨a, ha, hmem⟩ := hc
  have hne : a ≠ k := by
    intro heq
    rw [heq] at hmem
    exact hnot rfl hmem
  exact ⟨a, k, hgrow.ids c a ha, hk, hedges a hmem hne⟩

/-- A dropped reference touches no other class. -/
theorem unregister_keeps {l l' : State T} {o : Obj T} (hl : RegistryInv l) (hid : IdOk l o o.id)
    (h : lockdepUnregister l o.id = .ok l') :
    l'.held = l.held ∧
      (∀ c, c ≠ o.cls → ∀ k, l.lockIds c = some k → l'.lockIds c = some k) ∧
      ∀ c c', c ≠ o.cls → c' ≠ o.cls → ClassEdge l c c' → ClassEdge l' c c' := by
  rcases lockdepUnregister_cases h with ⟨_, hs⟩ | ⟨k, name, hk, hname, ⟨_, hs⟩ | ⟨_, hs⟩⟩
  · subst hs
    exact ⟨rfl, fun _ _ _ hc => hc, fun _ _ _ _ hedge => hedge⟩
  · subst hs
    obtain ⟨j, hj, hcls⟩ : ∃ j : Nat, o.id = j ∧ l.lockIds o.cls = some j := by
      rcases hid with ⟨hneg, _⟩ | hid
      · omega
      · exact hid
    have hjk : j = k := by omega
    subst hjk
    have hown := (hl.name_iff o.cls j).mp hcls
    rw [hname] at hown
    obtain rfl := Option.some.inj hown
    have hids : ∀ c, c ≠ o.cls → ∀ a, l.lockIds c = some a →
        (freeClass l o.cls j).lockIds c = some a := by
      intro c hne a ha
      rw [freeClass_lockIds, update_of_ne hne]
      exact ha
    have hother : ∀ c, c ≠ o.cls → ∀ a, l.lockIds c = some a → a ≠ j := by
      intro c hne a ha heq
      have h1 := (hl.name_iff c a).mp ha
      rw [heq, hname] at h1
      exact hne (Option.some.inj h1).symm
    refine ⟨rfl, hids, ?_⟩
    intro c c' hc hc' hedge
    obtain ⟨a, b, ha, hb, hab⟩ := hedge
    exact ⟨a, b, hids c hc a ha, hids c' hc' b hb,
      purge_edge_of_ne hab (hother c hc a ha) (hother c' hc' b hb)⟩
  · subst hs
    exact ⟨rfl, fun _ _ _ hc => hc, fun _ _ _ _ hedge => hedge⟩

variable [DecidableEq T]

theorem IdOk.locked {l l' : State T} {t : T} {o : Obj T} {id i : Int} (hl : RegistryInv l)
    (hid : IdOk l o id) (h : lockdepLocked l t o.group id = .ok (l', i)) :
    Grows l l' ∧ (∀ q, q ≠ t → l'.held q = l.held q) ∧ IdOk l' o i ∧ HeldClass l' t o.cls ∧
      ∀ c, HeldClass l t c → HeldClass l' t c := by
  obtain ⟨l1, hens, hs⟩ := lockdepLocked_cases hl.enabled h
  subst hs
  obtain ⟨hgrow, hheld, k, hi, hk⟩ := hid.ensure hl hens
  subst hi
  refine ⟨⟨hgrow.ids, hgrow.edges⟩, ?_, Or.inr ⟨k, rfl, hk⟩, ⟨k, hk, ?_⟩, ?_⟩
  · intro q hq
    rw [setHeld_held, update_of_ne hq, hheld]
  · simp
  · intro c hc
    obtain ⟨a, ha, hmem⟩ := hc
    refine ⟨a, hgrow.ids c a ha, mem_setHeld.mpr (Or.inl ⟨rfl, mem_insertKey.mpr (Or.inr ?_)⟩)⟩
    rw [hheld]
    exact hmem

theorem IdOk.willUnlock {l l' : State T} {t : T} {o : Obj T} {id i : Int} (hl : RegistryInv l)
    (hid : IdOk l o id) (h : lockdepWillUnlock l t id = .ok (l', i)) :
    Grows l l' ∧ (∀ q, q ≠ t → l'.held q = l.held q) ∧ IdOk l' o i ∧
      ∀ c, c ≠ o.cls → HeldClass l t c → HeldClass l' t c := by
  obtain ⟨hi, ⟨_, hs⟩ | ⟨hnn, hs⟩⟩ := lockdepWillUnlock_cases hl.enabled h
  · subst hs hi
    exact ⟨Grows.refl _, fun _ _ => rfl, hid, fun _ _ hc => hc⟩
  · subst hs hi
    refine ⟨⟨fun _ _ hc => hc, fun _ _ hab => hab⟩, ?_, hid, ?_⟩
    · intro q hq
      rw [setHeld_held, update_of_ne hq]
    · intro c hne hc
      obtain ⟨a, ha, hmem⟩ := hc
      refine ⟨a, ha, mem_setHeld.mpr (Or.inl ⟨rfl, ?_⟩)⟩
      rcases hid with ⟨hneg, _⟩ | ⟨k, hk, hname⟩
      · omega
      · have hak : a ≠ k := by
          intro heq
          rw [heq] at ha
          have h1 := (hl.name_iff c k).mp ha
          have h2 := (hl.name_iff o.cls k).mp hname
          rw [h1] at h2
          exact hne (Option.some.inj h2)
        simp [hmem, hk, hak]

end LockdepCalls

section Threads
variable {T M : Type}

@[simp]
def Point.copy : Point → Option Int
  | .willLockBody i => some i
  | .willLockStore i => some i
  | .lockedBody i => some i
  | .lockedStore i => some i
  | .willUnlockBody i => some i
  | .willUnlockStore i => some i
  | _ => none

/-- The mutex is owned, but it is not in `held` yet, or no more. -/
@[simp]
def Point.unrecorded : Point → Bool
  | .lockedTest => true
  | .lockedRead => true
  | .lockedBody _ => true
  | .willUnlockStore _ => true
  | .unlockImpl => true
  | _ => false

/-- The call is past `_will_lock` and has not acquired the mutex. -/
@[simp]
def Frame.waiting (f : Frame M) : Bool :=
  match f.point with
  | .willLockStore _ => true
  | .lockImpl => true
  | .tryImpl => f.inLock
  | _ => false

/-- No call of the thread is between owning `m` and recording that. -/
def Recorded (c : Option (Frame M)) (m : M) : Prop :=
  ∀ f ∈ c, f.obj = m → f.point.unrecorded = false

structure ThreadInv (s : Sys T M) (t : T) : Prop where
  call : ∀ f ∈ s.calls t, f.noLockdep = false ∧
    ∃ o, s.objs f.obj = some o ∧ ∀ i ∈ f.point.copy, IdOk s.lockdep o i
  holds : ∀ m o, s.objs m = some o → o.owner = some t → Recorded (s.calls t) m →
    HeldClass s.lockdep t o.cls
  waits : ∀ f ∈ s.calls t, f.waiting = true → ∀ o m' o', s.objs f.obj = some o →
    s.objs m' = some o' → o'.owner = some t → ClassEdge s.lockdep o'.cls o.cls

/-- A `mutex_debug`, with lockdep. -/
structure Plain (o : Obj T) : Prop where
  lockdep : o.lockdep = true
  recursive : o.recursive = false
  depth : o.depth ≤ 1

structure Inv (s : Sys T M) : Prop where
  registry : RegistryInv s.lockdep
  plain : ∀ m o, s.objs m = some o → Plain o
  apart : ∀ m m' o o', s.objs m = some o → s.objs m' = some o' → o.cls = o'.cls → m = m'
  idOk : ∀ m o, s.objs m = some o → IdOk s.lockdep o o.id
  thread : ∀ t, ThreadInv s t

/-- What a step of something else leaves to thread `t`. -/
structure Keeps (s s' : Sys T M) (t : T) : Prop where
  calls : s'.calls t = s.calls t
  held : s'.lockdep.held t = s.lockdep.held t
  back : ∀ m o', s'.objs m = some o' → o'.owner = some t →
    ∃ o, s.objs m = some o ∧ o.owner = some t ∧ o'.cls = o.cls
  forth : ∀ f ∈ s.calls t, ∀ o, s.objs f.obj = some o →
    ∃ o', s'.objs f.obj = some o' ∧ o'.cls = o.cls ∧ o'.group = o.group
  ids : ∀ m o', s'.objs m = some o' → ∀ k, s.lockdep.lockIds o'.cls = some k →
    s'.lockdep.lockIds o'.cls = some k
  edges : ∀ m o m' o', s'.objs m = some o → s'.objs m' = some o' →
    ClassEdge s.lockdep o.cls o'.cls → ClassEdge s'.lockdep o.cls o'.cls

theorem ThreadInv.keep {s s' : Sys T M} {t : T} (h : ThreadInv s t) (hk : Keeps s s' t) :
    ThreadInv s' t := by
  refine ⟨?_, ?_, ?_⟩
  · intro f hf
    rw [hk.calls] at hf
    obtain ⟨hno, o, ho, hcopy⟩ := h.call f hf
    obtain ⟨o', ho', hcls, hgroup⟩ := hk.forth f hf o ho
    refine ⟨hno, o', ho', ?_⟩
    intro i hi
    rcases hcopy i hi with ⟨hneg, hname⟩ | ⟨k, hik, hname⟩
    · exact Or.inl ⟨hneg, by rw [hcls, hgroup, hname]⟩
    · exact Or.inr ⟨k, hik, hk.ids f.obj o' ho' k (by rw [hcls, hname])⟩
  · intro m o' ho' howner hrec
    obtain ⟨o, ho, howner0, hcls⟩ := hk.back m o' ho' howner
    rw [hk.calls] at hrec
    obtain ⟨k, hname, hmem⟩ := h.holds m o ho howner0 hrec
    refine ⟨k, hk.ids m o' ho' k (by rw [hcls, hname]), ?_⟩
    rw [hk.held]
    exact hmem
  · intro f hf hwait o' m1 o1' ho' ho1' howner
    rw [hk.calls] at hf
    obtain ⟨_, o, ho, _⟩ := h.call f hf
    obtain ⟨o2, ho2, hcls, _⟩ := hk.forth f hf o ho
    rw [ho'] at ho2
    obtain rfl : o' = o2 := Option.some.inj ho2
    obtain ⟨o1, ho1, howner1, hcls1⟩ := hk.back m1 o1' ho1' howner
    apply hk.edges m1 o1' f.obj o' ho1' ho'
    rw [hcls, hcls1]
    exact h.waits f hf hwait o m1 o1 ho ho1 howner1

variable [DecidableEq M]

theorem joined_obj {objs : M → Option (Obj T)} {m m1 : M} {o o1 : Obj T}
    (h : update objs m (some o) m1 = some o1) : (m1 = m ∧ o1 = o) ∨ (m1 ≠ m ∧ objs m1 = some o1) := by
  by_cases hne : m1 = m
  · rw [hne, update_self] at h
    exact Or.inl ⟨hne, (Option.some.inj h).symm⟩
  · rw [update_of_ne hne] at h
    exact Or.inr ⟨hne, h⟩

theorem left_obj {objs : M → Option (Obj T)} {m m1 : M} {o1 : Obj T}
    (h : update objs m none m1 = some o1) : m1 ≠ m ∧ objs m1 = some o1 := by
  by_cases hne : m1 = m
  · rw [hne, update_self] at h
    cases h
  · rw [update_of_ne hne] at h
    exact ⟨hne, h⟩

variable [DecidableEq T]

/-- What every step of a thread inside a call on `m` keeps: its mutex becomes `o'`, lockdep grows,
and the call goes on as `c`. -/
theorem Inv.act {s : Sys T M} {t : T} {m : M} {o o' : Obj T} {l : State T}
    {c : Option (Frame M)} (h : Inv s) (ho : s.objs m = some o)
    (hcall : ∀ f ∈ s.calls t, f.obj = m) (hl : RegistryInv l) (hgrow : Grows s.lockdep l)
    (hothers : ∀ q, q ≠ t → l.held q = s.lockdep.held q) (hplain : Plain o')
    (hcls : o'.cls = o.cls) (hgroup : o'.group = o.group) (hid : IdOk l o' o'.id)
    (howner : ∀ q, q ≠ t → o'.owner = some q → o.owner = some q)
    (hc : ∀ f ∈ c, f.obj = m ∧ f.noLockdep = false ∧ ∀ i ∈ f.point.copy, IdOk l o' i)
    (hrest : ∀ c, c ≠ o.cls → HeldClass s.lockdep t c → HeldClass l t c)
    (hself : o'.owner = some t → Recorded c m → HeldClass l t o.cls)
    (hwait : ∀ f ∈ c, f.waiting = true → (o'.owner = some t → ClassEdge l o.cls o.cls) ∧
      ∀ m1 o1, m1 ≠ m → s.objs m1 = some o1 → o1.owner = some t → ClassEdge l o1.cls o.cls) :
    Inv ⟨l, update s.objs m (some o'), update s.calls t c⟩ := by
  -- every mutex of the new state stands for one of the old state with its class
  have hold : ∀ m1 o1, update s.objs m (some o') m1 = some o1 →
      ∃ o0, s.objs m1 = some o0 ∧ o1.cls = o0.cls := by
    intro m1 o1 h1
    rcases joined_obj h1 with ⟨hm, heq⟩ | ⟨_, h1⟩
    · subst hm heq
      exact ⟨o, ho, hcls⟩
    · exact ⟨o1, h1, rfl⟩
  refine ⟨hl, ?_, ?_, ?_, ?_⟩
  · intro m1 o1 h1
    rcases joined_obj h1 with ⟨_, heq⟩ | ⟨_, h1⟩
    · subst heq
      exact hplain
    · exact h.plain m1 o1 h1
  · intro m1 m2 o1 o2 h1 h2 heq
    obtain ⟨p1, hp1, hc1⟩ := hold m1 o1 h1
    obtain ⟨p2, hp2, hc2⟩ := hold m2 o2 h2
    apply h.apart m1 m2 p1 p2 hp1 hp2
    rw [← hc1, ← hc2, heq]
  · intro m1 o1 h1
    rcases joined_obj h1 with ⟨_, heq⟩ | ⟨_, h1⟩
    · subst heq
      exact hid
    · exact (h.idOk m1 o1 h1).grow hgrow
  · intro q
    by_cases hq : q = t
    · subst hq
      refine ⟨?_, ?_, ?_⟩
      · intro f hf
        change f ∈ update s.calls q c q at hf
        rw [update_self] at hf
        obtain ⟨hm, hno, hcopy⟩ := hc f hf
        refine ⟨hno, o', ?_, hcopy⟩
        change update s.objs m (some o') f.obj = some o'
        rw [hm, update_self]
      · intro m1 o1 h1 howner1 hrec
        change Recorded (update s.calls q c q) m1 at hrec
        rw [update_self] at hrec
        rcases joined_obj h1 with ⟨hm, heq⟩ | ⟨hm, h1⟩
        · subst hm heq
          rw [hcls]
          exact hself howner1 hrec
        · have hne : o1.cls ≠ o.cls := fun heq => hm (h.apart m1 m o1 o h1 ho heq)
          apply hrest o1.cls hne
          apply (h.thread q).holds m1 o1 h1 howner1
          intro f hf hfm
          exact absurd (hfm.symm.trans (hcall f hf)) hm
      · intro f hf hw o2 m1 o1 h2 h1 howner1
        change f ∈ update s.calls q c q at hf
        rw [update_self] at hf
        have hfm := (hc f hf).1
        obtain ⟨hown, hothers1⟩ := hwait f hf hw
        have ho2 : o2.cls = o.cls := by
          rcases joined_obj h2 with ⟨_, h2⟩ | ⟨hne, _⟩
          · rw [h2, hcls]
          · exact absurd hfm hne
        rw [ho2]
        rcases joined_obj h1 with ⟨_, heq⟩ | ⟨hm, h1⟩
        · subst heq
          rw [hcls]
          exact hown howner1
        · exact hothers1 m1 o1 hm h1 howner1
    · apply (h.thread q).keep
      refine ⟨update_of_ne hq _ _, hothers q hq, ?_, ?_, fun _ _ _ k hk => hgrow.ids _ k hk,
        fun _ _ _ _ _ _ hedge => hedge.grow hgrow⟩
      · intro m1 o1 h1 howner1
        rcases joined_obj h1 with ⟨hm, heq⟩ | ⟨_, h1⟩
        · subst hm heq
          exact ⟨o, ho, howner q hq howner1, hcls⟩
        · exact ⟨o1, h1, howner1, rfl⟩
      · intro f hf o1 h1
        by_cases hm : f.obj = m
        · rw [hm, ho] at h1
          obtain rfl : o = o1 := Option.some.inj h1
          refine ⟨o', ?_, hcls, hgroup⟩
          change update s.objs m (some o') f.obj = some o'
          rw [hm, update_self]
        · refine ⟨o1, ?_, rfl, rfl⟩
          change update s.objs m (some o') f.obj = some o1
          rw [update_of_ne hm]
          exact h1

end Threads

end LockdepSpdk.Mutex
