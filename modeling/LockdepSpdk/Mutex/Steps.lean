import LockdepSpdk.Mutex.Invariant

/-!
# Every step keeps the invariant

With lockdep on: the points of a call, the start of a call, and the construction
and destruction of mutexes.
-/

namespace LockdepSpdk.Mutex

set_option autoImplicit false

open Function Lockdep

variable {T M : Type}

/-- The fields that matter to lockdep and to waiting threads. -/
structure SameMutex (o o' : Obj T) : Prop where
  cls : o'.cls = o.cls
  group : o'.group = o.group
  lockdep : o'.lockdep = o.lockdep
  recursive : o'.recursive = o.recursive
  owner : o'.owner = o.owner
  depth : o'.depth = o.depth

theorem SameMutex.refl (o : Obj T) : SameMutex o o := ⟨rfl, rfl, rfl, rfl, rfl, rfl⟩

theorem SameMutex.plain {o o' : Obj T} (h : SameMutex o o') (ho : Plain o) : Plain o' :=
  ⟨h.lockdep.trans ho.lockdep, h.recursive.trans ho.recursive, h.depth ▸ ho.depth⟩

theorem IdOk.of_same {l : State T} {o o' : Obj T} {i : Int} (hcls : o'.cls = o.cls)
    (hgroup : o'.group = o.group) (h : IdOk l o i) : IdOk l o' i := by
  unfold IdOk
  rw [hcls, hgroup]
  exact h

theorem Inv.enabled {s : Sys T M} (h : Inv s) {m : M} {o : Obj T} (ho : s.objs m = some o) :
    lockdepEnabled s.lockdep o false = true := by
  have hplain := h.plain m o ho
  simp [lockdepEnabled, hplain.recursive, hplain.lockdep, h.registry.enabled]

theorem withLockdep_ok {s s' : Sys T M} {x : Except Stop (State T × Int)}
    {k : Sys T M → Int → Sys T M} (h : withLockdep s x k = .ok s') :
    ∃ l i, x = .ok (l, i) ∧ s' = k (s.setLockdep l) i := by
  unfold withLockdep at h
  split at h
  · next l i => exact ⟨l, i, rfl, (Except.ok.inj h).symm⟩
  · cases h

theorem check_ok {s s' : Sys T M} {c : Bool} (h : check c s = .ok s') : s' = s := by
  unfold check at h
  split at h
  · exact (Except.ok.inj h).symm
  · cases h

variable [DecidableEq M]

theorem setObj_self {s : Sys T M} {m : M} {o : Obj T} (h : s.objs m = some o) :
    s.setObj m o = s := by
  unfold Sys.setObj
  rw [← h, update_eq_self]

variable [DecidableEq T]

theorem tryLockImpl_ok {t : T} {o o' : Obj T} (hplain : Plain o)
    (h : tryLockImpl t o = .ok (some o')) : o' = { o with owner := some t, depth := 1 } := by
  unfold tryLockImpl at h
  split at h
  · exact (Option.some.inj (Except.ok.inj h)).symm
  · simp [hplain.recursive] at h

theorem lockImpl_ok {t : T} {o o' : Obj T} (hplain : Plain o)
    (h : lockImpl t o = .ok o') : o' = { o with owner := some t, depth := 1 } := by
  unfold lockImpl at h
  split at h
  · exact (Except.ok.inj h).symm
  · split at h
    · simp [hplain.recursive] at h
    · cases h

theorem unlockImpl_ok {t : T} {o o' : Obj T} (hplain : Plain o)
    (h : unlockImpl t o = .ok o') : o' = { o with owner := none, depth := 0 } := by
  unfold unlockImpl at h
  split at h
  · rw [if_pos hplain.depth] at h
    exact (Except.ok.inj h).symm
  · cases h

theorem Inv.goto {s : Sys T M} {t : T} {f : Frame M} {o o' : Obj T} {p : Point} (h : Inv s)
    (hf : s.calls t = some f) (ho : s.objs f.obj = some o) (hsame : SameMutex o o')
    (hid : IdOk s.lockdep o o'.id) (hcopy : ∀ i ∈ p.copy, IdOk s.lockdep o i)
    (hrec : f.point.unrecorded = true → p.unrecorded = true)
    (hwait : ({ f with point := p } : Frame M).waiting = true → f.waiting = true) :
    Inv ((s.setObj f.obj o').goto t f p) := by
  have hf' : f ∈ s.calls t := hf
  apply h.act ho (c := some { f with point := p })
  · intro g hg
    rw [hf] at hg
    rw [Option.some.inj hg]
  · exact h.registry
  · exact Grows.refl _
  · exact fun _ _ => rfl
  · exact hsame.plain (h.plain _ o ho)
  · exact hsame.cls
  · exact hsame.group
  · exact hid.of_same hsame.cls hsame.group
  · intro q _ howner
    rw [← hsame.owner]
    exact howner
  · intro g hg
    obtain rfl := Option.some.inj hg
    exact ⟨rfl, ((h.thread t).call f hf').1, fun i hi =>
      (hcopy i hi).of_same hsame.cls hsame.group⟩
  · exact fun _ _ hc => hc
  · intro howner hrec'
    apply (h.thread t).holds f.obj o ho (hsame.owner ▸ howner)
    intro g hg hgm
    rw [hf] at hg
    obtain rfl := Option.some.inj hg
    by_contra hnot
    have hp := hrec' _ rfl rfl
    rw [hrec (Bool.not_eq_false _ ▸ hnot)] at hp
    cases hp
  · intro g hg hw
    obtain rfl := Option.some.inj hg
    have hedge := (h.thread t).waits f hf' (hwait hw) o
    refine ⟨?_, ?_⟩
    · intro howner
      exact hedge f.obj o ho ho (hsame.owner ▸ howner)
    · intro m1 o1 _ h1 howner1
      exact hedge m1 o1 ho h1 howner1

theorem Inv.ret {s : Sys T M} {t : T} {f : Frame M} {o o' : Obj T} (h : Inv s)
    (hf : s.calls t = some f) (ho : s.objs f.obj = some o) (hsame : SameMutex o o')
    (hid : IdOk s.lockdep o o'.id) (hrec : f.point.unrecorded = false) :
    Inv ((s.setObj f.obj o').ret t) := by
  apply h.act ho (c := none)
  · intro g hg
    rw [hf] at hg
    rw [Option.some.inj hg]
  · exact h.registry
  · exact Grows.refl _
  · exact fun _ _ => rfl
  · exact hsame.plain (h.plain _ o ho)
  · exact hsame.cls
  · exact hsame.group
  · exact hid.of_same hsame.cls hsame.group
  · intro q _ howner
    rw [← hsame.owner]
    exact howner
  · nofun
  · exact fun _ _ hc => hc
  · intro howner _
    apply (h.thread t).holds f.obj o ho (hsame.owner ▸ howner)
    intro g hg _
    rw [hf] at hg
    obtain rfl := Option.some.inj hg
    exact hrec
  · nofun

/-- A pthread mutex is acquired; `held` does not have it yet. -/
theorem Inv.acquire {s : Sys T M} {t : T} {f : Frame M} {o : Obj T} (h : Inv s)
    (hf : s.calls t = some f) (ho : s.objs f.obj = some o) :
    Inv ((s.setObj f.obj { o with owner := some t, depth := 1 }).goto t f .lockedTest) := by
  have hplain := h.plain _ o ho
  apply h.act ho (c := some { f with point := .lockedTest })
  · intro g hg
    rw [hf] at hg
    rw [Option.some.inj hg]
  · exact h.registry
  · exact Grows.refl _
  · exact fun _ _ => rfl
  · exact ⟨hplain.lockdep, hplain.recursive, Nat.le_refl 1⟩
  · exact rfl
  · exact rfl
  · exact h.idOk _ o ho
  · intro q hq howner
    exact absurd (Option.some.inj howner).symm hq
  · intro g hg
    obtain rfl := Option.some.inj hg
    exact ⟨rfl, ((h.thread t).call f hf).1, by nofun⟩
  · exact fun _ _ hc => hc
  · intro _ hrec
    have hp := hrec _ rfl rfl
    cases hp
  · intro g hg hw
    obtain rfl := Option.some.inj hg
    cases hw

theorem Inv.release {s : Sys T M} {t : T} {f : Frame M} {o : Obj T} (h : Inv s)
    (hf : s.calls t = some f) (ho : s.objs f.obj = some o) :
    Inv ((s.setObj f.obj { o with owner := none, depth := 0 }).ret t) := by
  have hplain := h.plain _ o ho
  apply h.act ho (c := none)
  · intro g hg
    rw [hf] at hg
    rw [Option.some.inj hg]
  · exact h.registry
  · exact Grows.refl _
  · exact fun _ _ => rfl
  · exact ⟨hplain.lockdep, hplain.recursive, Nat.zero_le 1⟩
  · exact rfl
  · exact rfl
  · exact h.idOk _ o ho
  · nofun
  · nofun
  · exact fun _ _ hc => hc
  · nofun
  · nofun

theorem Inv.call {s : Sys T M} {t : T} {f : Frame M} {o : Obj T} {l : State T} {p : Point}
    (h : Inv s) (hf : s.calls t = some f) (ho : s.objs f.obj = some o) (hl : RegistryInv l)
    (hgrow : Grows s.lockdep l) (hothers : ∀ q, q ≠ t → l.held q = s.lockdep.held q)
    (hcopy : ∀ i ∈ p.copy, IdOk l o i)
    (hrest : ∀ c, c ≠ o.cls → HeldClass s.lockdep t c → HeldClass l t c)
    (hself : o.owner = some t → p.unrecorded = false → HeldClass l t o.cls)
    (hwait : ({ f with point := p } : Frame M).waiting = true → ∀ m1 o1, s.objs m1 = some o1 →
      o1.owner = some t → ClassEdge l o1.cls o.cls) :
    Inv ((s.setLockdep l).goto t f p) := by
  have key : Inv ⟨l, update s.objs f.obj (some o), update s.calls t (some { f with point := p })⟩ := by
    apply h.act ho (c := some { f with point := p }) _ hl hgrow hothers (h.plain _ o ho) rfl rfl
      ((h.idOk _ o ho).grow hgrow) (fun _ _ howner => howner) _ hrest
    · intro howner hrec
      exact hself howner (hrec _ rfl rfl)
    · intro g hg hw
      obtain rfl := Option.some.inj hg
      exact ⟨fun howner => hwait hw f.obj o ho howner, fun m1 o1 _ h1 howner1 =>
        hwait hw m1 o1 h1 howner1⟩
    · intro g hg
      rw [hf] at hg
      rw [Option.some.inj hg]
    · intro g hg
      obtain rfl := Option.some.inj hg
      exact ⟨rfl, ((h.thread t).call f hf).1, hcopy⟩
  rw [← ho, update_eq_self] at key
  exact key

theorem Inv.stepCall {s s' : Sys T M} {t : T} {f : Frame M} {o : Obj T} (h : Inv s)
    (hf : s.calls t = some f) (ho : s.objs f.obj = some o) (hs : stepCall s t f o = .ok s') :
    Inv s' := by
  have hplain := h.plain _ o ho
  have hid := h.idOk _ o ho
  have hsame := SameMutex.refl o
  obtain ⟨hno, o1, ho1, hcopy⟩ := (h.thread t).call f hf
  rw [ho] at ho1
  obtain rfl := Option.some.inj ho1
  -- a step that only moves on
  have move : ∀ p : Point, (∀ i ∈ p.copy, IdOk s.lockdep o i) →
      (f.point.unrecorded = true → p.unrecorded = true) →
      (({ f with point := p } : Frame M).waiting = true → f.waiting = true) →
      Inv (s.goto t f p) := by
    intro p hp hrec hwait
    have hgoto := h.goto hf ho hsame hid hp hrec hwait
    rwa [setObj_self ho] at hgoto
  unfold Mutex.stepCall at hs
  cases hpoint : f.point with
  | lockTest =>
    simp only [hpoint, hno, h.enabled ho, if_true] at hs
    obtain rfl := Except.ok.inj hs
    apply move
    · simp
    · simp [hpoint]
    · simp
  | willLockRead =>
    simp only [hpoint] at hs
    obtain rfl := Except.ok.inj hs
    apply move
    · simpa using hid
    · simp [hpoint]
    · simp
  | willLockBody i =>
    simp only [hpoint, hplain.recursive] at hs
    obtain ⟨l, i', hwl, rfl⟩ := withLockdep_ok hs
    have hi := hcopy i (by simp [hpoint])
    obtain ⟨hgrow, hheld, hi', hedges⟩ := hi.willLock h.registry hwl
    have hl := h.registry.willLock (hi.lt h.registry) hwl
    have hholds : ∀ m1 o1, s.objs m1 = some o1 → o1.owner = some t →
        HeldClass s.lockdep t o1.cls := by
      intro m1 o1 h1 howner
      apply (h.thread t).holds m1 o1 h1 howner
      intro g hg _
      rw [hf] at hg
      obtain rfl := Option.some.inj hg
      simp [hpoint]
    have hkeep : ∀ c, HeldClass s.lockdep t c → HeldClass l t c := by
      intro c hc
      obtain ⟨a, ha, hmem⟩ := hc
      exact ⟨a, hgrow.ids c a ha, by rwa [hheld]⟩
    apply h.call hf ho hl hgrow (fun q _ => by rw [hheld]) _ (fun c _ => hkeep c)
    · intro howner _
      exact hkeep _ (hholds _ o ho howner)
    · intro _ m1 o1 h1 howner
      exact hedges _ (hholds m1 o1 h1 howner)
    · intro j hj
      obtain rfl := Option.some.inj hj
      exact hi'
  | willLockStore i =>
    simp only [hpoint] at hs
    obtain rfl := Except.ok.inj hs
    have hi := hcopy i (by simp [hpoint])
    exact h.goto hf ho ⟨rfl, rfl, rfl, rfl, rfl, rfl⟩ hi (by simp) (by simp [hpoint]) (by simp [hpoint])
  | tryImpl =>
    simp only [hpoint] at hs
    split at hs
    · next o2 htry =>
      obtain rfl := tryLockImpl_ok hplain htry
      obtain rfl := Except.ok.inj hs
      exact h.acquire hf ho
    · obtain rfl := Except.ok.inj hs
      split
      · next hin =>
        apply move
        · simp
        · simp [hpoint]
        · simp [hpoint, hin]
      · have hret := h.ret hf ho hsame hid (by simp [hpoint])
        rwa [setObj_self ho] at hret
    · cases hs
  | lockImpl =>
    simp only [hpoint] at hs
    split at hs
    · next o2 hlock =>
      obtain rfl := lockImpl_ok hplain hlock
      obtain rfl := Except.ok.inj hs
      exact h.acquire hf ho
    · cases hs
  | lockedTest =>
    simp only [hpoint, hno, h.enabled ho, if_true] at hs
    obtain rfl := Except.ok.inj hs
    apply move
    · simp
    · simp [hpoint]
    · simp
  | lockedRead =>
    simp only [hpoint] at hs
    obtain rfl := Except.ok.inj hs
    apply move
    · simpa using hid
    · simp [hpoint]
    · simp
  | lockedBody i =>
    simp only [hpoint] at hs
    obtain ⟨l, i', hlo, rfl⟩ := withLockdep_ok hs
    have hi := hcopy i (by simp [hpoint])
    obtain ⟨hgrow, hothers, hi', hself, hrest⟩ := hi.locked h.registry hlo
    have hl := h.registry.locked (hi.lt h.registry) hlo
    apply h.call hf ho hl hgrow hothers _ (fun c _ => hrest c) (fun _ _ => hself) (by simp)
    intro j hj
    obtain rfl := Option.some.inj hj
    exact hi'
  | lockedStore i =>
    simp only [hpoint] at hs
    obtain rfl := Except.ok.inj hs
    have hi := hcopy i (by simp [hpoint])
    exact h.goto hf ho ⟨rfl, rfl, rfl, rfl, rfl, rfl⟩ hi (by simp) (by simp [hpoint]) (by simp)
  | postLockCheck =>
    simp only [hpoint] at hs
    obtain rfl := check_ok hs
    apply move
    · simp
    · simp [hpoint]
    · simp
  | postLockOwner =>
    simp only [hpoint] at hs
    obtain rfl := Except.ok.inj hs
    exact h.goto hf ho ⟨rfl, rfl, rfl, rfl, rfl, rfl⟩ hid (by simp)
      (by simp [hpoint]) (by simp)
  | postLockCount =>
    simp only [hpoint] at hs
    obtain rfl := Except.ok.inj hs
    exact h.ret hf ho ⟨rfl, rfl, rfl, rfl, rfl, rfl⟩ hid (by simp [hpoint])
  | preUnlockCheck =>
    simp only [hpoint] at hs
    obtain rfl := check_ok hs
    apply move
    · simp
    · simp [hpoint]
    · simp
  | preUnlockOwner =>
    simp only [hpoint] at hs
    obtain rfl := check_ok hs
    apply move
    · simp
    · simp [hpoint]
    · simp
  | preUnlockTest =>
    simp only [hpoint] at hs
    obtain rfl := Except.ok.inj hs
    split
    · exact move _ nofun (by simp [hpoint]) nofun
    · exact move _ nofun (by simp [hpoint]) nofun
  | preUnlockClear =>
    simp only [hpoint] at hs
    obtain rfl := Except.ok.inj hs
    exact h.goto hf ho ⟨rfl, rfl, rfl, rfl, rfl, rfl⟩ hid (by simp)
      (by simp [hpoint]) (by simp)
  | preUnlockCount =>
    simp only [hpoint] at hs
    obtain rfl := Except.ok.inj hs
    exact h.goto hf ho ⟨rfl, rfl, rfl, rfl, rfl, rfl⟩ hid (by simp)
      (by simp [hpoint]) (by simp)
  | unlockTest =>
    simp only [hpoint, hno, h.enabled ho, if_true] at hs
    obtain rfl := Except.ok.inj hs
    apply move
    · simp
    · simp [hpoint]
    · simp
  | willUnlockRead =>
    simp only [hpoint] at hs
    obtain rfl := Except.ok.inj hs
    apply move
    · simpa using hid
    · simp [hpoint]
    · simp
  | willUnlockBody i =>
    simp only [hpoint] at hs
    obtain ⟨l, i', hwu, rfl⟩ := withLockdep_ok hs
    have hi := hcopy i (by simp [hpoint])
    obtain ⟨hgrow, hothers, hi', hrest⟩ := hi.willUnlock h.registry hwu
    apply h.call hf ho (h.registry.willUnlock hwu) hgrow hothers _ hrest (by simp) (by simp)
    intro j hj
    obtain rfl := Option.some.inj hj
    exact hi'
  | willUnlockStore i =>
    simp only [hpoint] at hs
    obtain rfl := Except.ok.inj hs
    have hi := hcopy i (by simp [hpoint])
    exact h.goto hf ho ⟨rfl, rfl, rfl, rfl, rfl, rfl⟩ hi (by simp) (by simp) (by simp)
  | unlockImpl =>
    simp only [hpoint] at hs
    split at hs
    · next o2 hun =>
      obtain rfl := unlockImpl_ok hplain hun
      obtain rfl := Except.ok.inj hs
      exact h.release hf ho
    · cases hs

theorem Inv.enter {s s' : Sys T M} {t : T} {f : Frame M} (h : Inv s) (hno : f.noLockdep = false)
    (hwait : f.waiting = false) (hcopy : f.point.copy = none)
    (hs : enter s t f = .ok s') : Inv s' := by
  unfold Mutex.enter at hs
  split at hs
  · cases hs
  · next hfree =>
    obtain rfl := Except.ok.inj hs
    have hcalls : s.calls t = none := by
      cases hc : s.calls t with
      | none => rfl
      | some g => simp [hc] at hfree
    obtain ⟨o, ho⟩ : ∃ o, s.objs f.obj = some o := by
      cases hm : s.objs f.obj with
      | none => simp [hm] at hfree
      | some o => exact ⟨o, rfl⟩
    have key : Inv ⟨s.lockdep, update s.objs f.obj (some o), update s.calls t (some f)⟩ := by
      apply h.act ho (c := some f)
      · intro g hg
        rw [hcalls] at hg
        cases hg
      · exact h.registry
      · exact Grows.refl _
      · exact fun _ _ => rfl
      · exact h.plain _ o ho
      · exact rfl
      · exact rfl
      · exact h.idOk _ o ho
      · exact fun _ _ howner => howner
      · intro g hg
        obtain rfl := Option.some.inj hg
        refine ⟨rfl, hno, ?_⟩
        rw [hcopy]
        nofun
      · exact fun _ _ hc => hc
      · intro howner _
        apply (h.thread t).holds f.obj o ho howner
        intro g hg
        rw [hcalls] at hg
        cases hg
      · intro g hg hw
        obtain rfl := Option.some.inj hg
        rw [hwait] at hw
        cases hw
    rw [← ho, update_eq_self] at key
    exact key

omit [DecidableEq T] in
theorem Inv.join {s : Sys T M} {m : M} {o : Obj T} {l : State T} (h : Inv s)
    (hm : s.objs m = none) (hl : RegistryInv l) (hgrow : Grows s.lockdep l)
    (hheld : l.held = s.lockdep.held) (hplain : Plain o) (howner : o.owner = none)
    (hid : IdOk l o o.id) (hcls : ∀ m1 o1, s.objs m1 = some o1 → o1.cls ≠ o.cls) :
    Inv ((s.setLockdep l).setObj m o) := by
  refine ⟨hl, ?_, ?_, ?_, ?_⟩
  · intro m1 o1 h1
    rcases joined_obj h1 with ⟨_, heq⟩ | ⟨_, h1⟩
    · subst heq
      exact hplain
    · exact h.plain m1 o1 h1
  · intro m1 m2 o1 o2 h1 h2 heq
    rcases joined_obj h1 with ⟨hm1, ho1⟩ | ⟨_, hs1⟩
    · rcases joined_obj h2 with ⟨hm2, _⟩ | ⟨_, hs2⟩
      · rw [hm1, hm2]
      · subst ho1
        exact absurd heq.symm (hcls m2 o2 hs2)
    · rcases joined_obj h2 with ⟨_, ho2⟩ | ⟨_, hs2⟩
      · subst ho2
        exact absurd heq (hcls m1 o1 hs1)
      · exact h.apart m1 m2 o1 o2 hs1 hs2 heq
  · intro m1 o1 h1
    rcases joined_obj h1 with ⟨_, heq⟩ | ⟨_, h1⟩
    · subst heq
      exact hid
    · exact (h.idOk m1 o1 h1).grow hgrow
  · intro q
    apply (h.thread q).keep
    refine ⟨rfl, congrFun hheld q, ?_, ?_, fun _ _ _ k hk => hgrow.ids _ k hk,
      fun _ _ _ _ _ _ hedge => hedge.grow hgrow⟩
    · intro m1 o1 h1 howner1
      rcases joined_obj h1 with ⟨_, heq⟩ | ⟨_, h1⟩
      · rw [heq, howner] at howner1
        cases howner1
      · exact ⟨o1, h1, howner1, rfl⟩
    · intro f _ o1 h1
      have hne : f.obj ≠ m := by
        intro heq
        rw [heq, hm] at h1
        cases h1
      refine ⟨o1, ?_, rfl, rfl⟩
      change update s.objs m (some o) f.obj = some o1
      rw [update_of_ne hne]
      exact h1

omit [DecidableEq T] in
theorem Inv.construct {movedFrom : String → String} {s s' : Sys T M} {m : M} {group : String}
    (h : Inv s) (hcls : ∀ m1 o1, s.objs m1 = some o1 → o1.cls ≠ movedFrom group)
    (hs : construct movedFrom s m group true false = .ok s') : Inv s' := by
  unfold Mutex.construct at hs
  rw [h.registry.enabled] at hs
  split at hs
  · cases hs
  · next hm =>
    simp only [Bool.and_self, if_true] at hs
    obtain ⟨l, i, hreg, rfl⟩ := withLockdep_ok hs
    obtain ⟨hgrow, hheld, k, hi, hk⟩ := register_grows h.registry hreg
    apply h.join _ (h.registry.register hreg) hgrow hheld ⟨rfl, rfl, Nat.zero_le 1⟩ rfl
      (Or.inr ⟨k, hi, hk⟩) hcls
    simpa using hm

omit [DecidableEq T] in
theorem Inv.destroy {s s' : Sys T M} {m : M} (h : Inv s)
    (hidle : ∀ t, ∀ f ∈ s.calls t, f.obj ≠ m) (hs : destroy s m = .ok s') : Inv s' := by
  unfold Mutex.destroy at hs
  cases hm : s.objs m with
  | none => simp [hm] at hs
  | some o =>
    simp only [hm] at hs
    split at hs
    · cases hs
    · simp only [(h.plain m o hm).lockdep, h.registry.enabled, Bool.and_self, if_true] at hs
      split at hs
      · next l hun =>
        obtain rfl := Except.ok.inj hs
        have hcls : ∀ m1 o1, update s.objs m none m1 = some o1 → o1.cls ≠ o.cls := by
          intro m1 o1 h1 heq
          obtain ⟨hne, h1⟩ := left_obj h1
          exact hne (h.apart m1 m o1 o h1 hm heq)
        obtain ⟨hheld, hids, hedges⟩ := unregister_keeps h.registry (h.idOk m o hm) hun
        refine ⟨h.registry.unregister hun, ?_, ?_, ?_, ?_⟩
        · intro m1 o1 h1
          exact h.plain m1 o1 (left_obj h1).2
        · intro m1 m2 o1 o2 h1 h2
          exact h.apart m1 m2 o1 o2 (left_obj h1).2 (left_obj h2).2
        · intro m1 o1 h1
          rcases h.idOk m1 o1 (left_obj h1).2 with hneg | ⟨k, hi, hk⟩
          · exact Or.inl hneg
          · exact Or.inr ⟨k, hi, hids _ (hcls m1 o1 h1) k hk⟩
        · intro q
          apply (h.thread q).keep
          refine ⟨rfl, congrFun hheld q, ?_, ?_, ?_, ?_⟩
          · intro m1 o1 h1 howner
            exact ⟨o1, (left_obj h1).2, howner, rfl⟩
          · intro f hf o1 h1
            refine ⟨o1, ?_, rfl, rfl⟩
            change update s.objs m none f.obj = some o1
            rw [update_of_ne (hidle q f hf)]
            exact h1
          · intro m1 o1 h1 k hk
            exact hids _ (hcls m1 o1 h1) k hk
          · intro m1 o1 m2 o2 h1 h2 hedge
            exact hedges _ _ (hcls m1 o1 h1) (hcls m2 o2 h2) hedge
      · cases hs

end LockdepSpdk.Mutex
