import LockdepSpdk.Locks.Machine

/-!
# What ties both kinds of locks to the one graph

The invariant while lockdep stays on. Over that of the mutexes: the classes of all
locks differ, what a thread has of a shared mutex is in its `held` map outside the
few points around an acquisition and a release, and a thread on its way to block
has an edge from each lock of either kind it holds to the one it wants.
-/

namespace LockdepSpdk.Locks

set_option autoImplicit false

open Function Lockdep Transition Mutex

section Points

@[simp]
def copy : Shared.Point → Option Int
  | .hook _ (.body i) => some i
  | .hook _ (.store i) => some i
  | _ => none

/-- `rwlock` may be held and not be in `held` yet, or no more. -/
@[simp]
def unrecorded : Shared.Point → Bool
  | .hook .locked (.store _) => false
  | .hook .locked _ => true
  | .hook .willUnlock (.store _) => true
  | .release => true
  | _ => false

/-- The points between what lockdep is told and the acquisition. -/
@[simp]
def waiting (c : Shared.Call) : Bool :=
  match c.point with
  | .hook .willLock (.store _) => true
  | .hook .willUnlock _ => c.op == .tryLockShared
  | .acquire => blocks c.op
  | _ => false

/-- The points that a call of its kind passes. -/
@[simp]
def onPath (c : Shared.Call) : Bool :=
  match c.point with
  | .hook .willLock _ => c.op == .lock || c.op == .lockShared
  | .hook .willUnlock _ => c.op.releases || c.op == .tryLockShared
  | .preUnlockCheck | .preUnlockCount | .preUnlockOwner | .preUnlockZero | .preUnlockClear
  | .preUnlockSharedCheck | .preUnlockSharedCount => c.op.releases
  | .acquire => !c.op.releases
  | _ => true

end Points

section Inv
variable {T M R : Type}

/-- What a shared mutex has of a mutex. -/
def Rw.face (w : Rw T) : Obj T :=
  { Obj.fresh w.obj.group w.obj.lockdep false with id := w.obj.id, cls := w.cls }

/-- No call of the thread is between having `r` and recording that. -/
def Recorded (c : Option (Frame R)) (r : R) : Prop :=
  ∀ f ∈ c, f.obj = r → unrecorded f.call.point = false

structure ThreadInv (s : Sys T M R) (t : T) : Prop where
  alone : ∀ f ∈ s.calls t, s.plain.calls t = none
  call : ∀ f ∈ s.calls t, onPath f.call = true ∧
    ∃ w, s.rws f.obj = some w ∧ ∀ i ∈ copy f.call.point, IdOk s.plain.lockdep w.face i
  holds : ∀ r w, s.rws r = some w → w.Held t → Recorded (s.calls t) r →
    HeldClass s.plain.lockdep t w.cls
  waits : ∀ f ∈ s.calls t, waiting f.call = true → ∀ w, s.rws f.obj = some w →
    ∀ c, Holds s t c → ClassEdge s.plain.lockdep c w.cls
  plainWaits : ∀ f ∈ s.plain.calls t, f.waiting = true → ∀ o, s.plain.objs f.obj = some o →
    ∀ r w, s.rws r = some w → w.Held t → ClassEdge s.plain.lockdep w.cls o.cls

/-- A `shared_mutex_debug` with lockdep: one writer or any number of readers. -/
structure Good (w : Rw T) : Prop where
  lockdep : w.obj.lockdep = true
  alone : w.obj.writer ≠ none → w.obj.readers = []
  once : w.obj.readers.Nodup

structure Inv (s : Sys T M R) : Prop where
  plain : Mutex.Inv s.plain
  good : ∀ r w, s.rws r = some w → Good w
  apart : ∀ r r' w w', s.rws r = some w → s.rws r' = some w' → w.cls = w'.cls → r = r'
  across : ∀ m r o w, s.plain.objs m = some o → s.rws r = some w → o.cls ≠ w.cls
  idOk : ∀ r w, s.rws r = some w → IdOk s.plain.lockdep w.face w.obj.id
  thread : ∀ t, ThreadInv s t

theorem ClassEdge.irrefl {l : State T} (hl : RegistryInv l) (c : String) : ¬ ClassEdge l c c := by
  intro hedge
  obtain ⟨a, b, ha, hb, hab⟩ := hedge
  rw [ha] at hb
  obtain rfl := Option.some.inj hb
  exact hl.graph.acyclic.irrefl a hab

theorem Inv.held_class {s : Sys T M R} (h : Inv s) {t : T} (hidle : s.plain.calls t = none)
    (hrec : ∀ f ∈ s.calls t, unrecorded f.call.point = false) {c : String} (hc : Holds s t c) :
    HeldClass s.plain.lockdep t c := by
  rcases hc with ⟨m, o, ho, howner, hcls⟩ | ⟨r, w, hw, hheld, hcls⟩
  · rw [← hcls]
    apply (h.plain.thread t).holds m o ho howner
    intro f hf
    rw [hidle] at hf
    cases hf
  · rw [← hcls]
    exact (h.thread t).holds r w hw hheld fun f hf _ => hrec f hf

theorem relock {p : Mutex.Sys T M} {l : State T} (h : Mutex.Inv p) (hl : RegistryInv l)
    (hids : ∀ m o, p.objs m = some o → ∀ k, p.lockdep.lockIds o.cls = some k →
      l.lockIds o.cls = some k)
    (hheld : ∀ t m o, p.objs m = some o → HeldClass p.lockdep t o.cls → HeldClass l t o.cls)
    (hedges : ∀ m m' o o', p.objs m = some o → p.objs m' = some o' →
      ClassEdge p.lockdep o.cls o'.cls → ClassEdge l o.cls o'.cls) :
    Mutex.Inv { p with lockdep := l } := by
  have known : ∀ m o, p.objs m = some o → ∀ i, IdOk p.lockdep o i → IdOk l o i := by
    intro m o ho i hi
    rcases hi with hneg | ⟨k, hik, hk⟩
    · exact Or.inl hneg
    · exact Or.inr ⟨k, hik, hids m o ho k hk⟩
  refine ⟨hl, h.plain, h.apart, ?_, ?_⟩
  · intro m o ho
    exact known m o ho _ (h.idOk m o ho)
  · intro t
    refine ⟨?_, ?_, ?_⟩
    · intro f hf
      obtain ⟨hno, o, ho, hcopy⟩ := (h.thread t).call f hf
      exact ⟨hno, o, ho, fun i hi => known f.obj o ho i (hcopy i hi)⟩
    · intro m o ho howner hrec
      exact hheld t m o ho ((h.thread t).holds m o ho howner hrec)
    · intro f hf hwait o m' o' ho ho' howner
      exact hedges m' f.obj o' o ho' ho ((h.thread t).waits f hf hwait o m' o' ho ho' howner)

theorem Inv.beside {s : Sys T M R} {p : Mutex.Sys T M} (h : Inv s) (hp : Mutex.Inv p)
    (hacross : ∀ m r o w, p.objs m = some o → s.rws r = some w → o.cls ≠ w.cls)
    (halone : ∀ t, ∀ f ∈ s.calls t, p.calls t = none)
    (hids : ∀ r w, s.rws r = some w → ∀ k, s.plain.lockdep.lockIds w.cls = some k →
      p.lockdep.lockIds w.cls = some k)
    (hheld : ∀ t r w, s.rws r = some w → HeldClass s.plain.lockdep t w.cls →
      HeldClass p.lockdep t w.cls)
    (hwaits : ∀ t, ∀ f ∈ s.calls t, ∀ w, s.rws f.obj = some w →
      ∀ c, Holds ⟨p, s.rws, s.calls⟩ t c → Holds s t c ∧
        (ClassEdge s.plain.lockdep c w.cls → ClassEdge p.lockdep c w.cls))
    (hplain : ∀ t, ∀ f ∈ p.calls t, f.waiting = true → ∀ o, p.objs f.obj = some o →
      ∀ r w, s.rws r = some w → w.Held t → ClassEdge p.lockdep w.cls o.cls) :
    Inv ⟨p, s.rws, s.calls⟩ := by
  have known : ∀ r w, s.rws r = some w → ∀ i, IdOk s.plain.lockdep w.face i →
      IdOk p.lockdep w.face i := by
    intro r w hw i hi
    rcases hi with hneg | ⟨k, hik, hk⟩
    · exact Or.inl hneg
    · exact Or.inr ⟨k, hik, hids r w hw k hk⟩
  refine ⟨hp, h.good, h.apart, hacross, ?_, ?_⟩
  · intro r w hw
    exact known r w hw _ (h.idOk r w hw)
  · intro t
    refine ⟨halone t, ?_, ?_, ?_, hplain t⟩
    · intro f hf
      obtain ⟨hpath, w, hw, hcopy⟩ := (h.thread t).call f hf
      exact ⟨hpath, w, hw, fun i hi => known f.obj w hw i (hcopy i hi)⟩
    · intro r w hw hwheld hrec
      exact hheld t r w hw ((h.thread t).holds r w hw hwheld hrec)
    · intro f hf hwait w hw c hc
      obtain ⟨hc0, hedge⟩ := hwaits t f hf w hw c hc
      exact hedge ((h.thread t).waits f hf hwait w hw c hc0)

theorem Inv.waiting_free {s : Sys T M R} (h : Inv s) {t : T} {f : Frame R} (hf : s.calls t = some f)
    (hwait : waiting f.call = true) {w : Rw T} (hw : s.rws f.obj = some w) : ¬ w.Held t := by
  intro hheld
  have hself := (h.thread t).waits f hf hwait w hw w.cls (Or.inr ⟨f.obj, w, hw, hheld, rfl⟩)
  exact ClassEdge.irrefl h.plain.registry w.cls hself

variable [DecidableEq R]

theorem joined_rw {rws : R → Option (Rw T)} {r r1 : R} {w w1 : Rw T}
    (h : update rws r (some w) r1 = some w1) : (r1 = r ∧ w1 = w) ∨ (r1 ≠ r ∧ rws r1 = some w1) := by
  by_cases hne : r1 = r
  · rw [hne, update_self] at h
    exact Or.inl ⟨hne, (Option.some.inj h).symm⟩
  · rw [update_of_ne hne] at h
    exact Or.inr ⟨hne, h⟩

theorem left_rw {rws : R → Option (Rw T)} {r r1 : R} {w1 : Rw T}
    (h : update rws r none r1 = some w1) : r1 ≠ r ∧ rws r1 = some w1 := by
  by_cases hne : r1 = r
  · rw [hne, update_self] at h
    cases h
  · rw [update_of_ne hne] at h
    exact ⟨hne, h⟩

variable [DecidableEq T]

/-- A step of thread `t` inside a call on `r`: its shared mutex becomes `w'`, lockdep grows to `l`,
and the call goes on as `c`. -/
structure Acts (s : Sys T M R) (t : T) (r : R) (w w' : Rw T) (l : State T)
    (c : Option (Frame R)) : Prop where
  rw : s.rws r = some w
  call : ∀ f ∈ s.calls t, f.obj = r
  idle : s.plain.calls t = none
  registry : RegistryInv l
  grows : Grows s.plain.lockdep l
  others : ∀ q, q ≠ t → l.held q = s.plain.lockdep.held q
  rest : ∀ k, k ≠ w.cls → HeldClass s.plain.lockdep t k → HeldClass l t k
  good : Good w'
  cls : w'.cls = w.cls
  group : w'.obj.group = w.obj.group
  id : IdOk l w'.face w'.obj.id
  held : ∀ q, q ≠ t → w'.Held q → w.Held q
  next : ∀ f ∈ c, f.obj = r ∧ onPath f.call = true ∧ ∀ i ∈ copy f.call.point, IdOk l w'.face i
  records : w'.Held t → Recorded c r → HeldClass l t w.cls
  waits : ∀ f ∈ c, waiting f.call = true → ¬ w'.Held t ∧
    ∀ k, k ≠ w.cls → Holds s t k → ClassEdge l k w.cls

section Acts
variable {s : Sys T M R} {t : T} {r : R} {w w' : Rw T} {l : State T} {c : Option (Frame R)}

@[simps rws calls]
def Sys.after (s : Sys T M R) (t : T) (r : R) (w : Rw T) (l : State T) (c : Option (Frame R)) :
    Sys T M R where
  plain := { s.plain with lockdep := l }
  rws := update s.rws r (some w)
  calls := update s.calls t c

omit [DecidableEq T] in
/-- Every shared mutex of the new state stands for one of the old state with its class. -/
theorem Acts.old (a : Acts s t r w w' l c) {r1 : R} {w1 : Rw T}
    (h1 : update s.rws r (some w') r1 = some w1) : ∃ w0, s.rws r1 = some w0 ∧ w1.cls = w0.cls ∧
      ∀ q, q ≠ t → w1.Held q → w0.Held q := by
  rcases joined_rw h1 with ⟨hr1, heq⟩ | ⟨_, h1⟩
  · subst hr1 heq
    exact ⟨w, a.rw, a.cls, a.held⟩
  · exact ⟨w1, h1, rfl, fun _ _ hq => hq⟩

omit [DecidableEq R] in
theorem Acts.held_class (a : Acts s t r w w' l c) {q : T} {k : String} (hk : k ≠ w.cls ∨ q ≠ t)
    (hq : HeldClass s.plain.lockdep q k) : HeldClass l q k := by
  by_cases hqt : q = t
  · subst hqt
    exact a.rest k (hk.resolve_right fun hne => hne rfl) hq
  · obtain ⟨x, hx, hmem⟩ := hq
    exact ⟨x, a.grows.ids k x hx, by rwa [a.others q hqt]⟩

theorem Acts.self (a : Acts s t r w w' l c) (h : Inv s) : ThreadInv (s.after t r w' l c) t := by
  refine ⟨fun _ _ => a.idle, ?_, ?_, ?_, ?_⟩
  · intro f hf
    rw [Sys.after_calls, update_self] at hf
    obtain ⟨hfr, hpath, hcopy⟩ := a.next f hf
    refine ⟨hpath, w', ?_, hcopy⟩
    rw [Sys.after_rws, hfr, update_self]
  · intro r1 w1 h1 hheld hrec
    rw [Sys.after_calls, update_self] at hrec
    rcases joined_rw h1 with ⟨hr1, heq⟩ | ⟨hr1, h1⟩
    · subst hr1 heq
      rw [a.cls]
      exact a.records hheld hrec
    · have hne : w1.cls ≠ w.cls := fun heq => hr1 (h.apart r1 r w1 w h1 a.rw heq)
      apply a.rest w1.cls hne
      apply (h.thread t).holds r1 w1 h1 hheld
      intro f hf hfr
      exact absurd (hfr.symm.trans (a.call f hf)) hr1
  · intro f hf hwait w1 h1 k hk
    rw [Sys.after_calls, update_self] at hf
    have hfr := (a.next f hf).1
    obtain ⟨hnot, hedges⟩ := a.waits f hf hwait
    have hw1 : w1.cls = w.cls := by
      rcases joined_rw h1 with ⟨_, heq⟩ | ⟨hne, _⟩
      · rw [heq, a.cls]
      · exact absurd hfr hne
    rw [hw1]
    rcases hk with ⟨m, o, ho, howner, hko⟩ | ⟨r2, w2, h2, hheld, hk2⟩
    · apply hedges k _ (Or.inl ⟨m, o, ho, howner, hko⟩)
      rw [← hko]
      exact h.across m r o w ho a.rw
    · rcases joined_rw h2 with ⟨_, heq⟩ | ⟨hr2, h2⟩
      · rw [heq] at hheld
        exact absurd hheld hnot
      · apply hedges k _ (Or.inr ⟨r2, w2, h2, hheld, hk2⟩)
        rw [← hk2]
        exact fun heq => hr2 (h.apart r2 r w2 w h2 a.rw heq)
  · intro f hf
    change f ∈ s.plain.calls t at hf
    rw [a.idle] at hf
    cases hf

theorem Acts.other (a : Acts s t r w w' l c) (h : Inv s) {q : T} (hq : q ≠ t) :
    ThreadInv (s.after t r w' l c) q := by
  have hcalls : (s.after t r w' l c).calls q = s.calls q := update_of_ne hq _ _
  refine ⟨?_, ?_, ?_, ?_, ?_⟩
  · intro f hf
    rw [hcalls] at hf
    exact (h.thread q).alone f hf
  · intro f hf
    rw [hcalls] at hf
    obtain ⟨hpath, w1, h1, hcopy⟩ := (h.thread q).call f hf
    refine ⟨hpath, ?_⟩
    by_cases hfr : f.obj = r
    · rw [hfr, a.rw] at h1
      obtain rfl := Option.some.inj h1
      have hsame : ∀ i, IdOk l w.face i → IdOk l w'.face i := fun i hi =>
        hi.of_same (show w'.face.cls = w.face.cls from a.cls) a.group
      refine ⟨w', ?_, fun i hi => hsame i ((hcopy i hi).grow a.grows)⟩
      rw [Sys.after_rws, hfr, update_self]
    · refine ⟨w1, ?_, fun i hi => (hcopy i hi).grow a.grows⟩
      rw [Sys.after_rws, update_of_ne hfr]
      exact h1
  · intro r1 w1 h1 hheld hrec
    rw [hcalls] at hrec
    obtain ⟨w0, h0, hcls, hless⟩ := a.old h1
    rw [hcls]
    exact a.held_class (Or.inr hq) ((h.thread q).holds r1 w0 h0 (hless q hq hheld) hrec)
  · intro f hf hwait w1 h1 k hk
    rw [hcalls] at hf
    obtain ⟨w0, h0, hcls, _⟩ := a.old h1
    have hk0 : Holds s q k := by
      rcases hk with hk | ⟨r2, w2, h2, hheld, hk2⟩
      · exact Or.inl hk
      · obtain ⟨w3, h3, hcls3, hless⟩ := a.old h2
        exact Or.inr ⟨r2, w3, h3, hless q hq hheld, hcls3 ▸ hk2⟩
    rw [hcls]
    exact ((h.thread q).waits f hf hwait w0 h0 k hk0).grow a.grows
  · intro f hf hwait o ho r1 w1 h1 hheld
    obtain ⟨w0, h0, hcls, hless⟩ := a.old h1
    rw [hcls]
    exact ((h.thread q).plainWaits f hf hwait o ho r1 w0 h0 (hless q hq hheld)).grow a.grows

theorem Acts.inv (a : Acts s t r w w' l c) (h : Inv s) : Inv (s.after t r w' l c) := by
  refine ⟨?_, ?_, ?_, ?_, ?_, ?_⟩
  · apply relock h.plain a.registry
    · exact fun _ o _ k hk => a.grows.ids o.cls k hk
    · exact fun q m o ho hq => a.held_class (Or.inl (h.across m r o w ho a.rw)) hq
    · exact fun _ _ _ _ _ _ hedge => hedge.grow a.grows
  · intro r1 w1 h1
    rcases joined_rw h1 with ⟨_, heq⟩ | ⟨_, h1⟩
    · subst heq
      exact a.good
    · exact h.good r1 w1 h1
  · intro r1 r2 w1 w2 h1 h2 heq
    obtain ⟨p1, hp1, hc1, _⟩ := a.old h1
    obtain ⟨p2, hp2, hc2, _⟩ := a.old h2
    exact h.apart r1 r2 p1 p2 hp1 hp2 (by rw [← hc1, ← hc2, heq])
  · intro m r1 o w1 ho h1
    obtain ⟨p1, hp1, hc1, _⟩ := a.old h1
    rw [hc1]
    exact h.across m r1 o p1 ho hp1
  · intro r1 w1 h1
    rcases joined_rw h1 with ⟨_, heq⟩ | ⟨_, h1⟩
    · subst heq
      exact a.id
    · exact (h.idOk r1 w1 h1).grow a.grows
  · intro q
    by_cases hq : q = t
    · subst hq
      exact a.self h
    · exact a.other h hq

end Acts

end Inv

end LockdepSpdk.Locks
