import LockdepSpdk.Locks.Invariant
import LockdepSpdk.Mutex.Moves
import LockdepSpdk.Shared.Tracking

/-!
# Every step on a lock of either kind keeps the invariant

The points of a call on a shared mutex, its start, the construction and destruction
of shared mutexes, and what a step on a mutex does to them.
-/

namespace LockdepSpdk.Locks

set_option autoImplicit false

open Function Lockdep Transition Mutex

section Calls
variable {T M R : Type} [DecidableEq T] [DecidableEq R] {s : Sys T M R} {t : T} {f : Frame R}
  {w : Rw T} {o : Shared.Obj T} {l : State T}

/-- The fields that matter to lockdep and to waiting threads. -/
structure SameLock (o o' : Shared.Obj T) : Prop where
  group : o'.group = o.group
  lockdep : o'.lockdep = o.lockdep
  writer : o'.writer = o.writer
  readers : o'.readers = o.readers

omit [DecidableEq T] in
theorem SameLock.refl (o : Shared.Obj T) : SameLock o o := ⟨rfl, rfl, rfl, rfl⟩

omit [DecidableEq T] in
theorem SameLock.good (h : SameLock w.obj o) (hgood : Good w) : Good { w with obj := o } where
  lockdep := h.lockdep.trans hgood.lockdep
  alone := fun hw => by
    rw [show ({ w with obj := o } : Rw T).obj.writer = w.obj.writer from h.writer] at hw
    exact h.readers.trans (hgood.alone hw)
  once := h.readers ▸ hgood.once

omit [DecidableEq T] in
theorem SameLock.held (h : SameLock w.obj o) {q : T} :
    ({ w with obj := o } : Rw T).Held q ↔ w.Held q := by
  change (o.writer = some q ∨ q ∈ o.readers) ↔ _
  rw [h.writer, h.readers]
  rfl

omit [DecidableEq T] in
theorem idOk_face {i : Int} (hgroup : o.group = w.obj.group) (h : IdOk l w.face i) :
    IdOk l ({ w with obj := o } : Rw T).face i :=
  IdOk.of_same (o := w.face) rfl hgroup h

def Frame.next (f : Frame R) (p : Option Shared.Point) : Option (Frame R) :=
  p.map fun q => { f with call := { f.call with point := q } }

omit [DecidableEq R] in
theorem Frame.mem_next {p : Option Shared.Point} {g : Frame R} (h : g ∈ f.next p) :
    ∃ q ∈ p, g = { f with call := { f.call with point := q } } := by
  obtain ⟨q, hq, rfl⟩ := Option.mem_map.mp h
  exact ⟨q, hq, rfl⟩

omit [DecidableEq T] [DecidableEq R] in
theorem Inv.same_call (hf : s.calls t = some f) : ∀ g ∈ s.calls t, g.obj = f.obj := by
  intro g hg
  rw [hf] at hg
  rw [Option.some.inj hg]

theorem Inv.quiet (h : Inv s) (hf : s.calls t = some f) (hw : s.rws f.obj = some w)
    (hsame : SameLock w.obj o) (hid : IdOk s.plain.lockdep w.face o.id) {p : Option Shared.Point}
    (hpath : ∀ q ∈ p, onPath ⟨f.call.op, q⟩ = true)
    (hcopy : ∀ q ∈ p, ∀ i ∈ copy q, IdOk s.plain.lockdep w.face i)
    (hrec : w.Held t → unrecorded f.call.point = true → ∃ q ∈ p, unrecorded q = true)
    (hwait : ∀ q ∈ p, waiting ⟨f.call.op, q⟩ = true → waiting f.call = true) :
    Inv (s.after t f.obj { w with obj := o } s.plain.lockdep (f.next p)) := by
  have hmem : f ∈ s.calls t := hf
  refine Acts.inv (w := w) ?_ h
  refine
    { rw := hw
      call := Inv.same_call hf
      idle := (h.thread t).alone f hmem
      registry := h.plain.registry
      grows := Grows.refl _
      others := fun _ _ => rfl
      rest := fun _ _ hk => hk
      good := hsame.good (h.good _ w hw)
      cls := rfl
      group := hsame.group
      id := idOk_face hsame.group hid
      held := fun _ _ hq => hsame.held.mp hq
      next := ?_
      records := ?_
      waits := ?_ }
  · intro g hg
    obtain ⟨q, hq, rfl⟩ := Frame.mem_next hg
    exact ⟨rfl, hpath q hq, fun i hi => idOk_face hsame.group (hcopy q hq i hi)⟩
  · intro hheld hrecorded
    have hheld0 := hsame.held.mp hheld
    refine (h.thread t).holds f.obj w hw hheld0 fun g hg _ => ?_
    rw [hf] at hg
    obtain rfl := Option.some.inj hg
    by_contra hnot
    obtain ⟨q, hq, hun⟩ := hrec hheld0 (Bool.not_eq_false _ ▸ hnot)
    have hp := hrecorded { f with call := { f.call with point := q } }
      (Option.mem_map.mpr ⟨q, hq, rfl⟩) rfl
    rw [show unrecorded q = false from hp] at hun
    cases hun
  · intro g hg hgwait
    obtain ⟨q, hq, rfl⟩ := Frame.mem_next hg
    have hwaiting := hwait q hq hgwait
    refine ⟨fun hheld => h.waiting_free hf hwaiting hw (hsame.held.mp hheld), fun k _ hk => ?_⟩
    exact (h.thread t).waits f hmem hwaiting w hw k hk

theorem Inv.told (h : Inv s) (hf : s.calls t = some f) (hw : s.rws f.obj = some w)
    {p : Shared.Point} (hl : RegistryInv l) (hgrow : Grows s.plain.lockdep l)
    (hothers : ∀ q, q ≠ t → l.held q = s.plain.lockdep.held q)
    (hrest : ∀ k, k ≠ w.cls → HeldClass s.plain.lockdep t k → HeldClass l t k)
    (hpath : onPath ⟨f.call.op, p⟩ = true) (hcopy : ∀ i ∈ copy p, IdOk l w.face i)
    (hself : w.Held t → unrecorded p = false → HeldClass l t w.cls)
    (hwait : waiting ⟨f.call.op, p⟩ = true → ¬ w.Held t ∧
      ∀ k, k ≠ w.cls → Holds s t k → ClassEdge l k w.cls) :
    Inv (s.after t f.obj w l (f.next (some p))) := by
  refine Acts.inv (w := w) ?_ h
  refine
    { rw := hw
      call := Inv.same_call hf
      idle := (h.thread t).alone f hf
      registry := hl
      grows := hgrow
      others := hothers
      rest := hrest
      good := h.good _ w hw
      cls := rfl
      group := rfl
      id := (h.idOk _ w hw).grow hgrow
      held := fun _ _ hq => hq
      next := ?_
      records := fun hheld hrec => hself hheld (hrec _ rfl rfl)
      waits := ?_ }
  · intro g hg
    obtain rfl := Option.some.inj hg
    exact ⟨rfl, hpath, hcopy⟩
  · intro g hg hgwait
    obtain rfl := Option.some.inj hg
    exact hwait hgwait

theorem Inv.grant (h : Inv s) (hf : s.calls t = some f) (hw : s.rws f.obj = some w)
    (hgood : Good { w with obj := o }) (hgroup : o.group = w.obj.group) (hid : o.id = w.obj.id)
    (hheld : ∀ q, q ≠ t → ({ w with obj := o } : Rw T).Held q → w.Held q) :
    Inv (s.after t f.obj { w with obj := o } s.plain.lockdep
      (f.next (some (.hook .locked .test)))) := by
  refine Acts.inv (w := w) ?_ h
  refine
    { rw := hw
      call := Inv.same_call hf
      idle := (h.thread t).alone f hf
      registry := h.plain.registry
      grows := Grows.refl _
      others := fun _ _ => rfl
      rest := fun _ _ hk => hk
      good := hgood
      cls := rfl
      group := hgroup
      id := idOk_face hgroup (hid ▸ h.idOk _ w hw)
      held := hheld
      next := ?_
      records := ?_
      waits := ?_ }
  · intro g hg
    obtain rfl := Option.some.inj hg
    exact ⟨rfl, rfl, fun i hi => by cases hi⟩
  · intro _ hrec
    cases hrec _ rfl rfl
  · intro g hg hgwait
    obtain rfl := Option.some.inj hg
    cases hgwait

omit [DecidableEq R] in
theorem rwUnlock_names (t : T) (o : Shared.Obj T) :
    (Shared.rwUnlock t o).group = o.group ∧ (Shared.rwUnlock t o).id = o.id := by
  unfold Shared.rwUnlock
  split <;> exact ⟨rfl, rfl⟩

theorem Inv.release (h : Inv s) (hf : s.calls t = some f) (hw : s.rws f.obj = some w) :
    Inv (s.after t f.obj { w with obj := Shared.rwUnlock t w.obj } s.plain.lockdep none) := by
  obtain ⟨hgroup, hid⟩ := rwUnlock_names t w.obj
  have hgood := h.good _ w hw
  have hless : ∀ q, ({ w with obj := Shared.rwUnlock t w.obj } : Rw T).Held q →
      w.Held q ∧ q ≠ t := by
    intro q hq
    change (Shared.rwUnlock t w.obj).writer = some q ∨ q ∈ (Shared.rwUnlock t w.obj).readers at hq
    unfold Shared.rwUnlock at hq
    split at hq
    · next hwriter =>
      -- beside a writer there are no readers
      rcases hq with hq | hq
      · cases hq
      · rw [hgood.alone (by rw [hwriter]; exact fun heq => by cases heq)] at hq
        cases hq
    · next hwriter =>
      rcases hq with hq | hq
      · exact ⟨Or.inl hq, fun heq => hwriter (heq ▸ hq)⟩
      · obtain ⟨hne, hmem⟩ := (hgood.once.mem_erase_iff).mp hq
        exact ⟨Or.inr hmem, hne⟩
  refine Acts.inv (w := w) ?_ h
  refine
    { rw := hw
      call := Inv.same_call hf
      idle := (h.thread t).alone f hf
      registry := h.plain.registry
      grows := Grows.refl _
      others := fun _ _ => rfl
      rest := fun _ _ hk => hk
      good := ?_
      cls := rfl
      group := hgroup
      id := idOk_face hgroup (hid ▸ h.idOk _ w hw)
      held := fun q _ hq => (hless q hq).1
      next := fun g hg => by cases hg
      records := fun hheld _ => absurd rfl (hless t hheld).2
      waits := fun g hg => by cases hg }
  · unfold Shared.rwUnlock
    split
    · exact ⟨hgood.lockdep, fun hne => absurd rfl hne, hgood.once⟩
    · refine ⟨hgood.lockdep, fun hne => ?_, hgood.once.erase t⟩
      have hnone : w.obj.readers = [] := hgood.alone hne
      change w.obj.readers.erase t = []
      rw [hnone]
      rfl

omit [DecidableEq R] [DecidableEq T] in
theorem Inv.lockdepEnabled (h : Inv s) {r : R} (hw : s.rws r = some w) :
    Shared.lockdepEnabled s.plain.lockdep w.obj = true := by
  simp [Shared.lockdepEnabled, (h.good r w hw).lockdep, h.plain.registry.enabled]

omit [DecidableEq T] in
theorem afterHook_next {op : Shared.Op} {k : Shared.Hook} {i : Int} {q : Shared.Point}
    (hpath : onPath ⟨op, .hook k (.store i)⟩ = true) (hq : q ∈ op.afterHook o k) :
    onPath ⟨op, q⟩ = true ∧ copy q = none ∧
      (waiting ⟨op, q⟩ = true → waiting ⟨op, .hook k (.store i)⟩ = true) := by
  cases k with
  | locked =>
    simp only [Shared.Op.afterHook] at hq
    split at hq
    · obtain rfl := Option.some.inj hq
      cases op <;> exact ⟨rfl, rfl, fun hwait => by cases hwait⟩
    · cases hq
  | willLock =>
    obtain rfl := Option.some.inj hq
    cases op <;> exact ⟨rfl, rfl, fun _ => rfl⟩
  | willUnlock =>
    obtain rfl := Option.some.inj hq
    cases op <;> first | exact ⟨rfl, rfl, fun hwait => hwait⟩ | cases hpath

omit [DecidableEq T] in
/-- The points after a hook that leaves the lock out of `held`. -/
theorem afterHook_unrecorded {op : Shared.Op} {k : Shared.Hook} {i : Int}
    (hpath : onPath ⟨op, .hook k (.store i)⟩ = true)
    (hun : unrecorded (.hook k (.store i)) = true) :
    ∃ q ∈ op.afterHook o k, unrecorded q = true ∨ waiting ⟨op, .hook k (.store i)⟩ = true := by
  cases k with
  | locked | willLock => cases hun
  | willUnlock =>
    refine ⟨_, rfl, ?_⟩
    cases op with
    | unlock | unlockShared => exact Or.inl rfl
    | tryLockShared => exact Or.inr rfl
    | lock | tryLock | lockShared => cases hpath

/-- The lockdep call of a hook. -/
theorem Inv.hookCall (h : Inv s) (hf : s.calls t = some f) (hw : s.rws f.obj = some w)
    {k : Shared.Hook} {i i' : Int} (hpoint : f.call.point = .hook k (.body i))
    (hpath : onPath ⟨f.call.op, .hook k (.store i')⟩ = true) (hi : IdOk s.plain.lockdep w.face i)
    (hcall : Shared.hookCall s.plain.lockdep t w.obj i k = .ok (l, i')) :
    Inv (s.after t f.obj w l (f.next (some (.hook k (.store i'))))) := by
  obtain ⟨r, op, point⟩ := f
  obtain rfl : point = .hook k (.body i) := hpoint
  have hcopy : IdOk l w.face i' → ∀ j ∈ copy (.hook k (.store i')), IdOk l w.face j := by
    intro hi' j hj
    obtain rfl : i' = j := by cases k <;> exact Option.some.inj hj
    exact hi'
  cases k with
  | willLock =>
    obtain ⟨hgrow, hheld, hi', hedges⟩ := hi.willLock h.plain.registry hcall
    have hl := h.plain.registry.willLock (hi.lt h.plain.registry) hcall
    have hkeep : ∀ c, HeldClass s.plain.lockdep t c → HeldClass l t c := by
      rintro c ⟨a, ha, hmem⟩
      exact ⟨a, hgrow.ids c a ha, by rwa [hheld]⟩
    have hclass : ∀ c, Holds s t c → HeldClass s.plain.lockdep t c := fun c hc =>
      h.held_class ((h.thread t).alone _ hf) (fun g hg => by
        rw [hf] at hg
        obtain rfl := Option.some.inj hg
        rfl) hc
    refine h.told hf hw hl hgrow (fun q _ => by rw [hheld]) (fun c _ => hkeep c) hpath
      (hcopy hi') (fun hwheld _ => ?_) fun _ => ⟨fun hwheld => ?_, fun c _ hc => ?_⟩
    · exact hkeep _ (hclass _ (Or.inr ⟨r, w, hw, hwheld, rfl⟩))
    · have hself := hedges _ (hclass _ (Or.inr ⟨r, w, hw, hwheld, rfl⟩))
      exact ClassEdge.irrefl hl w.cls hself
    · exact hedges c (hclass c hc)
  | locked =>
    obtain ⟨hgrow, hothers, hi', hself, hrest⟩ := hi.locked h.plain.registry hcall
    have hl := h.plain.registry.locked (hi.lt h.plain.registry) hcall
    exact h.told hf hw hl hgrow hothers (fun c _ => hrest c) hpath (hcopy hi')
      (fun _ _ => hself) fun hwait => by cases hwait
  | willUnlock =>
    obtain ⟨hgrow, hothers, hi', hrest⟩ := hi.willUnlock h.plain.registry hcall
    refine h.told hf hw (h.plain.registry.willUnlock hcall) hgrow hothers hrest hpath
      (hcopy hi') (fun _ hun => by cases hun) fun hwait => ?_
    have hwaiting : waiting (⟨r, op, .hook .willUnlock (.body i)⟩ : Frame R).call = true := hwait
    refine ⟨h.waiting_free hf hwaiting hw, fun c _ hc => ?_⟩
    exact ((h.thread t).waits _ hf hwaiting w hw c hc).grow hgrow

theorem Inv.hook (h : Inv s) (hf : s.calls t = some f) (hw : s.rws f.obj = some w)
    {k : Shared.Hook} {st : Shared.Stage} (hpoint : f.call.point = .hook k st)
    {p : Option Shared.Point}
    (hok : Shared.stepHook s.plain.lockdep t w.obj f.call.op k st = .ok (l, o, p)) :
    Inv (s.after t f.obj { w with obj := o } l (f.next p)) := by
  obtain ⟨r, op, point⟩ := f
  obtain rfl : point = .hook k st := hpoint
  have hid := h.idOk _ w hw
  obtain ⟨hpath, w1, hw1, hcopy⟩ := (h.thread t).call _ hf
  rw [hw] at hw1
  obtain rfl := Option.some.inj hw1
  have hpath' : ∀ st', onPath ⟨op, .hook k st'⟩ = true := by
    intro st'
    cases k <;> exact hpath
  -- a step to another stage of the hook, lockdep and the object left alone
  have move : ∀ st', (∀ i ∈ copy (.hook k st'), IdOk s.plain.lockdep w.face i) →
      (unrecorded (.hook k st) = true → unrecorded (.hook k st') = true) →
      (waiting ⟨op, .hook k st'⟩ = true → waiting ⟨op, .hook k st⟩ = true) →
      Inv (s.after t r w s.plain.lockdep (some ⟨r, op, .hook k st'⟩)) := by
    intro st' hcopy' hrec hwait
    refine h.quiet (p := some (.hook k st')) hf hw (SameLock.refl _) hid ?_ ?_ ?_ ?_
    · intro q hq
      obtain rfl := Option.some.inj hq
      exact hpath' st'
    · intro q hq
      obtain rfl := Option.some.inj hq
      exact hcopy'
    · exact fun _ hun => ⟨_, rfl, hrec hun⟩
    · intro q hq
      obtain rfl := Option.some.inj hq
      exact hwait
  cases st with
  | test =>
    simp only [Shared.stepHook, h.lockdepEnabled hw, if_true] at hok
    obtain ⟨rfl, rfl, rfl⟩ := Shared.result_inj hok
    refine move .read (fun i hi => by cases k <;> cases hi) ?_ ?_
    · cases k <;> simp
    · cases k <;> simp
  | read =>
    obtain ⟨rfl, rfl, rfl⟩ := Shared.result_inj hok
    refine move (.body w.obj.id) (fun i hi => ?_) ?_ ?_
    · obtain rfl : w.obj.id = i := by cases k <;> exact Option.some.inj hi
      exact hid
    · cases k <;> simp
    · cases k <;> simp
  | body i =>
    simp only [Shared.stepHook] at hok
    split at hok
    case h_2 => cases hok
    case h_1 l1 i' hcall =>
    obtain ⟨rfl, rfl, rfl⟩ := Shared.result_inj hok
    have hi : IdOk s.plain.lockdep w.face i := hcopy i (by cases k <;> rfl)
    exact h.hookCall hf hw rfl (hpath' _) hi hcall
  | store i =>
    obtain ⟨rfl, rfl, rfl⟩ := Shared.result_inj hok
    have hi : IdOk s.plain.lockdep w.face i := hcopy i (by cases k <;> rfl)
    have hsame : SameLock w.obj { w.obj with id := i } := ⟨rfl, rfl, rfl, rfl⟩
    refine h.quiet hf hw hsame hi (fun q hq => ?_) (fun q hq j hj => ?_) (fun hheld hun => ?_)
      (fun q hq => ?_)
    · exact (afterHook_next hpath hq).1
    · rw [(afterHook_next hpath hq).2.1] at hj
      cases hj
    · obtain ⟨q, hq, hnext⟩ := afterHook_unrecorded (o := w.obj) hpath hun
      refine ⟨q, hq, hnext.resolve_right fun hwait => ?_⟩
      exact h.waiting_free hf hwait hw hheld
    · exact (afterHook_next hpath hq).2.2

theorem Inv.wrlock (h : Inv s) (hf : s.calls t = some f) (hw : s.rws f.obj = some w)
    (hok : Shared.wrlock t w.obj = .ok o) :
    Inv (s.after t f.obj { w with obj := o } s.plain.lockdep
      (f.next (some (.hook .locked .test)))) := by
  unfold Shared.wrlock at hok
  split at hok
  · next hfree =>
    obtain rfl := Except.ok.inj hok
    refine h.grant hf hw ⟨(h.good _ w hw).lockdep, fun _ => hfree.2, ?_⟩ rfl rfl fun q hq hheld => ?_
    · exact (h.good _ w hw).once
    · rcases hheld with hwriter | hreader
      · exact absurd (Option.some.inj hwriter).symm hq
      · exact Or.inr hreader
  · cases hok

theorem Inv.rdlock {maxReaders : Nat} (h : Inv s) (hf : s.calls t = some f)
    (hw : s.rws f.obj = some w) (hwait : waiting f.call = true)
    (hok : Shared.rdlock maxReaders t w.obj = .ok o) :
    Inv (s.after t f.obj { w with obj := o } s.plain.lockdep
      (f.next (some (.hook .locked .test)))) := by
  unfold Shared.rdlock at hok
  split at hok
  · next hfree =>
    obtain rfl := Except.ok.inj hok
    have hnot : t ∉ w.obj.readers := fun hmem => h.waiting_free hf hwait hw (Or.inr hmem)
    refine h.grant hf hw ⟨(h.good _ w hw).lockdep, fun hne => absurd hfree.1 hne, ?_⟩ rfl rfl
      fun q hq hheld => ?_
    · exact List.nodup_cons.mpr ⟨hnot, (h.good _ w hw).once⟩
    · rcases hheld with hwriter | hreader
      · exact Or.inl hwriter
      · exact Or.inr ((List.mem_cons.mp hreader).resolve_left hq)
  · cases hok

theorem Inv.stepCall {maxReaders : Nat} (h : Inv s) (hf : s.calls t = some f)
    (hw : s.rws f.obj = some w) {reply : Shared.Reply} {p : Option Shared.Point}
    (hok : Shared.stepCall maxReaders s.plain.lockdep t f.call w.obj reply = .ok (l, o, p)) :
    Inv (s.after t f.obj { w with obj := o } l (f.next p)) := by
  obtain ⟨r, op, point⟩ := f
  obtain ⟨hpath, -⟩ := (h.thread t).call _ hf
  -- a step to a point that no other thread can tell from this one
  have pass : ∀ {o' p'}, SameLock w.obj o' → o'.id = w.obj.id → unrecorded point = false →
      (∀ q ∈ p', onPath ⟨op, q⟩ = true ∧ copy q = none ∧ waiting ⟨op, q⟩ = false) →
      Inv (s.after t r { w with obj := o' } s.plain.lockdep
        (Frame.next ⟨r, op, point⟩ p')) := by
    intro o' p' hsame hid hun hp
    refine h.quiet hf hw hsame (hid ▸ h.idOk _ w hw) (fun q hq => (hp q hq).1) (fun q hq i hi => ?_)
      (fun _ hrec => ?_) (fun q hq hwait => ?_)
    · rw [(hp q hq).2.1] at hi
      cases hi
    · rw [hun] at hrec
      cases hrec
    · rw [(hp q hq).2.2] at hwait
      cases hwait
  have here : ∀ {q : Shared.Point}, onPath ⟨op, q⟩ = true → copy q = none →
      waiting ⟨op, q⟩ = false → ∀ q' ∈ some q,
        onPath ⟨op, q'⟩ = true ∧ copy q' = none ∧ waiting ⟨op, q'⟩ = false := by
    intro q h1 h2 h3 q' hq'
    obtain rfl := Option.some.inj hq'
    exact ⟨h1, h2, h3⟩
  cases point with
  | hook k st => exact h.hook hf hw rfl hok
  | release =>
    obtain ⟨rfl, rfl, rfl⟩ := Shared.result_inj hok
    exact h.release hf hw
  | acquire =>
    cases reply with
    | refused =>
      obtain ⟨rfl, rfl, rfl⟩ := Shared.result_inj hok
      exact pass (SameLock.refl _) rfl rfl fun q hq => by cases hq
    | granted =>
      simp only [Shared.stepCall] at hok
      split at hok
      · next o1 hgrant =>
        obtain ⟨rfl, rfl, rfl⟩ := Shared.result_inj hok
        split at hgrant
        · exact h.wrlock hf hw hgrant
        · next hshared =>
          refine h.rdlock hf hw ?_ hgrant
          cases op with
          | lockShared | tryLockShared => rfl
          | unlockShared => cases hpath
          | lock | tryLock | unlock => exact absurd rfl hshared
      · cases hok
  | postLockCheck =>
    obtain ⟨rfl, rfl, rfl⟩ := Shared.check_inj hok
    exact pass (SameLock.refl _) rfl rfl (here rfl rfl rfl)
  | postLockOwner =>
    obtain ⟨rfl, rfl, rfl⟩ := Shared.result_inj hok
    exact pass ⟨rfl, rfl, rfl, rfl⟩ rfl rfl (here rfl rfl rfl)
  | postLockCount | postLockShared =>
    obtain ⟨rfl, rfl, rfl⟩ := Shared.result_inj hok
    exact pass ⟨rfl, rfl, rfl, rfl⟩ rfl rfl fun q hq => by cases hq
  | preUnlockCheck | preUnlockOwner | preUnlockZero | preUnlockSharedCheck =>
    obtain ⟨rfl, rfl, rfl⟩ := Shared.check_inj hok
    exact pass (SameLock.refl _) rfl rfl (here hpath rfl rfl)
  | preUnlockCount =>
    obtain ⟨rfl, rfl, rfl⟩ := Shared.result_inj hok
    exact pass ⟨rfl, rfl, rfl, rfl⟩ rfl rfl (here hpath rfl rfl)
  | preUnlockClear | preUnlockSharedCount =>
    obtain ⟨rfl, rfl, rfl⟩ := Shared.result_inj hok
    refine pass ⟨rfl, rfl, rfl, rfl⟩ rfl rfl (here ?_ rfl ?_)
    · cases op <;> first | rfl | cases hpath
    · cases op <;> first | rfl | cases hpath

/-- A thread starts a call; before `try_lock_shared` lockdep has the lock after all that the thread
holds. -/
theorem Inv.call (h : Inv s) {r : R} {op : Shared.Op} (hw : s.rws r = some w)
    (hplain : s.plain.calls t = none) (hfree : s.calls t = none)
    (horder : op = .tryLockShared → ∀ k, Holds s t k → ClassEdge s.plain.lockdep k w.cls) :
    Inv { s with calls := update s.calls t (some ⟨r, op, op.first w.obj⟩) } := by
  have hfirst : onPath ⟨op, op.first w.obj⟩ = true ∧ copy (op.first w.obj) = none ∧
      (waiting ⟨op, op.first w.obj⟩ = true → op = .tryLockShared) := by
    cases op with
    | unlock | unlockShared =>
      simp only [Shared.Op.first]
      split <;> exact ⟨rfl, rfl, fun hwait => by cases hwait⟩
    | tryLockShared => exact ⟨rfl, rfl, fun _ => rfl⟩
    | lock | tryLock | lockShared => exact ⟨rfl, rfl, fun hwait => by cases hwait⟩
  obtain ⟨hpath, hcopy, hwait⟩ := hfirst
  have key : Inv (s.after t r w s.plain.lockdep (some ⟨r, op, op.first w.obj⟩)) := by
    refine Acts.inv (w := w) ?_ h
    refine
      { rw := hw
        call := fun g hg => by rw [hfree] at hg; cases hg
        idle := hplain
        registry := h.plain.registry
        grows := Grows.refl _
        others := fun _ _ => rfl
        rest := fun _ _ hk => hk
        good := h.good _ w hw
        cls := rfl
        group := rfl
        id := h.idOk _ w hw
        held := fun _ _ hq => hq
        next := ?_
        records := ?_
        waits := ?_ }
    · intro g hg
      obtain rfl := Option.some.inj hg
      refine ⟨rfl, hpath, fun i hi => ?_⟩
      rw [hcopy] at hi
      cases hi
    · intro hheld _
      refine (h.thread t).holds r w hw hheld fun g hg => ?_
      rw [hfree] at hg
      cases hg
    · intro g hg hgwait
      obtain rfl := Option.some.inj hg
      have hedges := horder (hwait hgwait)
      refine ⟨fun hheld => ?_, fun k _ hk => hedges k hk⟩
      have hself := hedges w.cls (Or.inr ⟨r, w, hw, hheld, rfl⟩)
      exact ClassEdge.irrefl h.plain.registry w.cls hself
  have hsame : update s.rws r (some w) = s.rws := by rw [← hw, update_eq_self]
  unfold Sys.after at key
  rw [hsame] at key
  exact key

omit [DecidableEq T] [DecidableEq R] in
/-- Shared mutexes that no call uses come or go, and lockdep keeps the classes with `P`, which are
those of all the others. -/
theorem Inv.replace (h : Inv s) {rws' : R → Option (Rw T)} {P : String → Prop}
    (hl : RegistryInv l) (hheld : l.held = s.plain.lockdep.held)
    (hids : ∀ c, P c → ∀ k, s.plain.lockdep.lockIds c = some k → l.lockIds c = some k)
    (hedges : ∀ c c', P c → P c' → ClassEdge s.plain.lockdep c c' → ClassEdge l c c')
    (hobjs : ∀ m o, s.plain.objs m = some o → P o.cls) (hrws : ∀ r w, rws' r = some w → P w.cls)
    (hback : ∀ r w q, rws' r = some w → w.Held q → s.rws r = some w)
    (hforth : ∀ t, ∀ f ∈ s.calls t, rws' f.obj = s.rws f.obj)
    (hgood : ∀ r w, rws' r = some w → Good w)
    (hapart : ∀ r r' w w', rws' r = some w → rws' r' = some w' → w.cls = w'.cls → r = r')
    (hacross : ∀ m r o w, s.plain.objs m = some o → rws' r = some w → o.cls ≠ w.cls)
    (hidOk : ∀ r w, rws' r = some w → IdOk l w.face w.obj.id) :
    Inv ⟨{ s.plain with lockdep := l }, rws', s.calls⟩ := by
  have hclass : ∀ t c, P c → HeldClass s.plain.lockdep t c → HeldClass l t c := by
    rintro t c hc ⟨a, ha, hmem⟩
    exact ⟨a, hids c hc a ha, by rwa [hheld]⟩
  have holds : ∀ t c, Holds (⟨{ s.plain with lockdep := l }, rws', s.calls⟩ : Sys T M R) t c →
      Holds s t c ∧ P c := by
    rintro t c (⟨m, o, ho, howner, rfl⟩ | ⟨r, w, hw, hwheld, rfl⟩)
    · exact ⟨Or.inl ⟨m, o, ho, howner, rfl⟩, hobjs m o ho⟩
    · exact ⟨Or.inr ⟨r, w, hback r w t hw hwheld, hwheld, rfl⟩, hrws r w hw⟩
  refine ⟨?_, hgood, hapart, hacross, hidOk, fun t => ⟨(h.thread t).alone, ?_, ?_, ?_, ?_⟩⟩
  · refine relock h.plain hl (fun m o ho => hids _ (hobjs m o ho)) (fun t m o ho => ?_)
      fun m m' o o' ho ho' => hedges _ _ (hobjs m o ho) (hobjs m' o' ho')
    exact hclass t _ (hobjs m o ho)
  · intro f hf
    obtain ⟨hpath, w, hw, hcopy⟩ := (h.thread t).call f hf
    have hw' : rws' f.obj = some w := (hforth t f hf).trans hw
    refine ⟨hpath, w, hw', fun i hi => ?_⟩
    rcases hcopy i hi with hneg | ⟨k, hik, hk⟩
    · exact Or.inl hneg
    · exact Or.inr ⟨k, hik, hids _ (hrws _ w hw') k hk⟩
  · intro r w hw hwheld hrec
    exact hclass t _ (hrws r w hw) ((h.thread t).holds r w (hback r w t hw hwheld) hwheld hrec)
  · intro f hf hwait w hw c hc
    obtain ⟨hc0, hPc⟩ := holds t c hc
    have hw0 : s.rws f.obj = some w := (hforth t f hf).symm.trans hw
    exact hedges c _ hPc (hrws _ w hw) ((h.thread t).waits f hf hwait w hw0 c hc0)
  · intro f hf hwait o ho r w hw hwheld
    refine hedges _ _ (hrws r w hw) (hobjs _ o ho) ?_
    exact (h.thread t).plainWaits f hf hwait o ho r w (hback r w t hw hwheld) hwheld

omit [DecidableEq T] in
theorem Inv.construct {movedFrom : String → String} {s' : Sys T M R} {r : R} {group : String}
    {track prioritizeWrite : Bool} (h : Inv s) (hunused : Unused s (movedFrom group))
    (hs : construct movedFrom s r group track true prioritizeWrite = .ok s') : Inv s' := by
  unfold Locks.construct at hs
  simp only [h.plain.registry.enabled, Bool.and_self, if_true] at hs
  split at hs
  · cases hs
  · next hnone =>
    split at hs
    · next l i hreg =>
      obtain rfl := Except.ok.inj hs
      obtain ⟨hgrow, hheld, k, hi, hk⟩ := register_grows h.plain.registry hreg
      have hr : s.rws r = none := by simpa using hnone
      refine h.replace (P := fun _ => True) (h.plain.registry.register hreg) hheld
        (fun c _ => hgrow.ids c) (fun _ _ _ _ hedge => hedge.grow hgrow) (fun _ _ _ => trivial)
        (fun _ _ _ => trivial) ?_ ?_ ?_ ?_ ?_ ?_
      · intro r1 w1 q h1 hq
        rcases joined_rw h1 with ⟨-, rfl⟩ | ⟨-, h1⟩
        · rcases hq with hq | hq <;> cases hq
        · exact h1
      · intro t f hf
        obtain ⟨-, w, hw, -⟩ := (h.thread t).call f hf
        refine update_of_ne (fun heq => ?_) _ _
        rw [heq, hr] at hw
        cases hw
      · intro r1 w1 h1
        rcases joined_rw h1 with ⟨-, rfl⟩ | ⟨-, h1⟩
        · exact ⟨rfl, fun hne => absurd rfl hne, List.nodup_nil⟩
        · exact h.good r1 w1 h1
      · intro r1 r2 w1 w2 h1 h2 heq
        rcases joined_rw h1 with ⟨hr1, rfl⟩ | ⟨-, h1⟩
        · rcases joined_rw h2 with ⟨hr2, -⟩ | ⟨-, h2⟩
          · rw [hr1, hr2]
          · exact absurd heq.symm (hunused.2 r2 w2 h2)
        · rcases joined_rw h2 with ⟨-, rfl⟩ | ⟨-, h2⟩
          · exact absurd heq (hunused.2 r1 w1 h1)
          · exact h.apart r1 r2 w1 w2 h1 h2 heq
      · intro m r1 o w1 ho h1
        rcases joined_rw h1 with ⟨-, rfl⟩ | ⟨-, h1⟩
        · exact hunused.1 m o ho
        · exact h.across m r1 o w1 ho h1
      · intro r1 w1 h1
        rcases joined_rw h1 with ⟨-, rfl⟩ | ⟨-, h1⟩
        · exact Or.inr ⟨k, hi, hk⟩
        · exact (h.idOk r1 w1 h1).grow hgrow
    · cases hs

omit [DecidableEq T] in
theorem Inv.destroy {s' : Sys T M R} {r : R} (h : Inv s)
    (hidle : ∀ t, ∀ f ∈ s.calls t, f.obj ≠ r) (hs : destroy s r = .ok s') : Inv s' := by
  unfold Locks.destroy at hs
  split at hs
  · cases hs
  · next w hw =>
    split at hs
    · cases hs
    · simp only [h.lockdepEnabled hw, if_true] at hs
      split at hs
      · next l hun =>
        obtain rfl := Except.ok.inj hs
        obtain ⟨hheld, hids, hedges⟩ :=
          unregister_keeps (o := w.face) h.plain.registry (h.idOk r w hw) hun
        refine h.replace (P := fun c => c ≠ w.cls) (h.plain.registry.unregister hun) hheld hids
          hedges (fun m o ho => h.across m r o w ho hw) ?_ (fun _ _ _ h1 _ => (left_rw h1).2)
          (fun t f hf => update_of_ne (hidle t f hf) _ _) (fun r1 w1 h1 => h.good r1 w1 (left_rw h1).2)
          (fun r1 r2 w1 w2 h1 h2 => h.apart r1 r2 w1 w2 (left_rw h1).2 (left_rw h2).2)
          (fun m r1 o w1 ho h1 => h.across m r1 o w1 ho (left_rw h1).2) ?_
        · intro r1 w1 h1 heq
          obtain ⟨hne, h1⟩ := left_rw h1
          exact hne (h.apart r1 r w1 w h1 hw heq)
        · intro r1 w1 h1
          obtain ⟨hne, h1⟩ := left_rw h1
          have hcls : w1.cls ≠ w.cls := fun heq => hne (h.apart r1 r w1 w h1 hw heq)
          rcases h.idOk r1 w1 h1 with hneg | ⟨k, hik, hk⟩
          · exact Or.inl hneg
          · exact Or.inr ⟨k, hik, hids _ hcls k hk⟩
      · cases hs

end Calls

section Plain
variable {T M : Type} {l l' : State T} {t : T} {f : Mutex.Frame M} {o o' : Obj T}
  {p : Option Mutex.Point}

/-- What a step of a call on a mutex does to lockdep, to the mutex and to the call. -/
structure Effect (l : State T) (t : T) (f : Mutex.Frame M) (o : Obj T) (l' : State T) (o' : Obj T)
    (p : Option Mutex.Point) : Prop where
  grows : Grows l l'
  others : ∀ q, q ≠ t → l'.held q = l.held q
  rest : ∀ c, c ≠ o.cls → HeldClass l t c → HeldClass l' t c
  cls : o'.cls = o.cls
  owner : ∀ q, q ≠ t → o'.owner = some q → o.owner = some q
  waits : ∀ q ∈ p, ({ f with point := q } : Mutex.Frame M).waiting = true →
    f.waiting = true ∨ ∀ c, HeldClass l t c → ClassEdge l' c o.cls

theorem Effect.still (hcls : o'.cls = o.cls)
    (howner : ∀ q, q ≠ t → o'.owner = some q → o.owner = some q)
    (hwaits : ∀ q ∈ p, ({ f with point := q } : Mutex.Frame M).waiting = true →
      f.waiting = true) : Effect l t f o l o' p :=
  ⟨Grows.refl _, fun _ _ => rfl, fun _ _ hc => hc, hcls, howner,
    fun q hq hwait => Or.inl (hwaits q hq hwait)⟩

theorem Effect.acquired (h : Acquires t o o') : Effect l t f o l o' (some .lockedTest) := by
  have hwaits : ∀ q ∈ some Mutex.Point.lockedTest,
      ({ f with point := q } : Mutex.Frame M).waiting = true → f.waiting = true := by
    intro q hq hwait
    obtain rfl := Option.some.inj hq
    cases hwait
  cases h with
  | first => exact .still rfl (fun q hq howner => absurd (Option.some.inj howner).symm hq) hwaits
  | again => exact .still rfl (fun _ _ howner => howner) hwaits

variable [DecidableEq T]

theorem takes_effect (hl : RegistryInv l) (hplain : Plain o) (hno : f.noLockdep = false)
    (hcopy : ∀ i ∈ f.point.copy, IdOk l o i) (h : Takes l t f o f.point l' o' p) :
    Effect l t f o l' o' p := by
  have henabled : Mutex.lockdepEnabled l o f.noLockdep = true := by
    simp [Mutex.lockdepEnabled, hno, hplain.recursive, hplain.lockdep, hl.enabled]
  have here : ∀ {q : Mutex.Point}, ({ f with point := q } : Mutex.Frame M).waiting = false →
      ∀ q' ∈ some q, ({ f with point := q' } : Mutex.Frame M).waiting = true →
        f.waiting = true := by
    intro q hq q' hq' hwait
    obtain rfl := Option.some.inj hq'
    rw [hq] at hwait
    cases hwait
  have gone : ∀ q' ∈ (none : Option Mutex.Point),
      ({ f with point := q' } : Mutex.Frame M).waiting = true → f.waiting = true :=
    fun q' hq' => by cases hq'
  generalize hpoint : f.point = point at h hcopy
  cases h with
  | lockTest =>
    rw [if_pos henabled]
    exact .still rfl (fun _ _ hq => hq) (here rfl)
  | willLockRead => exact .still rfl (fun _ _ hq => hq) (here rfl)
  | @willLockBody i i' _ hcall =>
    rw [hplain.recursive] at hcall
    obtain ⟨hgrow, hheld, -, hedges⟩ := (hcopy i rfl).willLock hl hcall
    refine ⟨hgrow, fun _ _ => by rw [hheld], ?_, rfl, fun _ _ hq => hq, fun _ _ _ => Or.inr hedges⟩
    rintro c - ⟨a, ha, hmem⟩
    exact ⟨a, hgrow.ids c a ha, by rwa [hheld]⟩
  | willLockStore i =>
    refine .still rfl (fun _ _ hq => hq) fun _ _ _ => ?_
    simp [Frame.waiting, hpoint]
  | tryImpl hacq | lockImpl hacq => exact .acquired hacq
  | busy =>
    refine .still rfl (fun _ _ hq => hq) fun q hq hwait => ?_
    split at hq
    · next hin => simpa [Frame.waiting, hpoint] using hin
    · cases hq
  | full | throws => exact .still rfl (fun _ _ hq => hq) gone
  | lockedTest =>
    rw [if_pos henabled]
    exact .still rfl (fun _ _ hq => hq) (here rfl)
  | lockedRead => exact .still rfl (fun _ _ hq => hq) (here rfl)
  | @lockedBody i i' _ hcall =>
    obtain ⟨hgrow, hothers, -, -, hrest⟩ := (hcopy i rfl).locked hl hcall
    refine ⟨hgrow, hothers, fun c _ => hrest c, rfl, fun _ _ hq => hq, fun q hq hwait => ?_⟩
    exact Or.inl (here (q := .lockedStore i') rfl q hq hwait)
  | @willUnlockBody i i' _ hcall =>
    obtain ⟨hgrow, hothers, -, hrest⟩ := (hcopy i rfl).willUnlock hl hcall
    refine ⟨hgrow, hothers, hrest, rfl, fun _ _ hq => hq, fun q hq hwait => ?_⟩
    exact Or.inl (here (q := .willUnlockStore i') rfl q hq hwait)
  | preUnlockTest =>
    split
    · exact .still rfl (fun _ _ hq => hq) (here rfl)
    · exact .still rfl (fun _ _ hq => hq) (here rfl)
  | unlockTest =>
    rw [if_pos henabled]
    exact .still rfl (fun _ _ hq => hq) (here rfl)
  | unlockImpl hrel =>
    cases hrel with
    | last => exact .still rfl (fun _ _ hq => by cases hq) gone
    | one => exact .still rfl (fun _ _ hq => hq) gone
  | postLockCount => exact .still rfl (fun _ _ hq => hq) gone
  | _ => exact .still rfl (fun _ _ hq => hq) (here rfl)

end Plain

section Beside
variable {T M R : Type} [DecidableEq T] [DecidableEq M] {movedFrom : String → String}
  {s : Sys T M R} {p : Mutex.Sys T M}

theorem Inv.plainConstruct {m : M} {group : String} (h : Inv s) (hp : Mutex.Inv p)
    (hunused : Unused s (movedFrom group))
    (hs : Mutex.Moves movedFrom s.plain (.construct m group true false) p) :
    Inv ⟨p, s.rws, s.calls⟩ := by
  obtain ⟨hnone, ⟨-, -, l, i, hreg, rfl⟩ | ⟨hoff, -⟩⟩ := construct_cases hs
  case inr =>
    rw [h.plain.registry.enabled] at hoff
    rcases hoff with hoff | hoff <;> cases hoff
  obtain ⟨hgrow, hheld, -, -, -⟩ := register_grows h.plain.registry hreg
  refine h.beside hp ?_ (fun t => (h.thread t).alone) (fun _ w _ k => hgrow.ids w.cls k) ?_ ?_ ?_
  · intro m1 r o w ho hw
    rcases joined_obj ho with ⟨-, rfl⟩ | ⟨-, ho⟩
    · exact fun heq => hunused.2 r w hw heq.symm
    · exact h.across m1 r o w ho hw
  · rintro t r w hw ⟨a, ha, hmem⟩
    exact ⟨a, hgrow.ids _ a ha, by rwa [hheld]⟩
  · intro t f _ w _ c hc
    refine ⟨?_, fun hedge => hedge.grow hgrow⟩
    rcases hc with ⟨m1, o, ho, howner, rfl⟩ | hc
    · rcases joined_obj ho with ⟨-, rfl⟩ | ⟨-, ho⟩
      · cases howner
      · exact Or.inl ⟨m1, o, ho, howner, rfl⟩
    · exact Or.inr hc
  · intro t f hf hwait o ho r w hw hwheld
    rcases joined_obj ho with ⟨hm, -⟩ | ⟨-, ho⟩
    · obtain ⟨-, o1, ho1, -⟩ := (h.plain.thread t).call f hf
      rw [hm, hnone] at ho1
      cases ho1
    · exact ((h.thread t).plainWaits f hf hwait o ho r w hw hwheld).grow hgrow

theorem Inv.plainDestroy {m : M} (h : Inv s) (hp : Mutex.Inv p)
    (hs : Mutex.Moves movedFrom s.plain (.destroy m) p) : Inv ⟨p, s.rws, s.calls⟩ := by
  obtain ⟨o, ho, -, -, ⟨-, -, l, hun, rfl⟩ | ⟨hoff, -⟩⟩ := destroy_cases hs
  case inr =>
    rw [(h.plain.plain m o ho).lockdep, h.plain.registry.enabled] at hoff
    rcases hoff with hoff | hoff <;> cases hoff
  obtain ⟨hheld, hids, hedges⟩ := unregister_keeps h.plain.registry (h.plain.idOk m o ho) hun
  have hrw : ∀ r w, s.rws r = some w → w.cls ≠ o.cls := fun r w hw heq =>
    h.across m r o w ho hw heq.symm
  have hobj : ∀ m1 o1, update s.plain.objs m none m1 = some o1 →
      s.plain.objs m1 = some o1 ∧ o1.cls ≠ o.cls := by
    intro m1 o1 h1
    obtain ⟨hne, h1⟩ := left_obj h1
    exact ⟨h1, fun heq => hne (h.plain.apart m1 m o1 o h1 ho heq)⟩
  refine h.beside hp ?_ (fun t => (h.thread t).alone) (fun r w hw k => hids _ (hrw r w hw) k)
    ?_ ?_ ?_
  · intro m1 r o1 w h1 hw
    exact h.across m1 r o1 w (hobj m1 o1 h1).1 hw
  · rintro t r w hw ⟨a, ha, hmem⟩
    exact ⟨a, hids _ (hrw r w hw) a ha, by rwa [hheld]⟩
  · intro t f _ w hw c hc
    rcases hc with ⟨m1, o1, h1, howner, rfl⟩ | ⟨r, w1, hw1, hwheld, rfl⟩
    · obtain ⟨h1, hne⟩ := hobj m1 o1 h1
      exact ⟨Or.inl ⟨m1, o1, h1, howner, rfl⟩, hedges _ _ hne (hrw _ w hw)⟩
    · exact ⟨Or.inr ⟨r, w1, hw1, hwheld, rfl⟩, hedges _ _ (hrw r w1 hw1) (hrw _ w hw)⟩
  · intro t f hf hwait o1 h1 r w hw hwheld
    obtain ⟨h1, hne⟩ := hobj f.obj o1 h1
    refine hedges _ _ (hrw r w hw) hne ?_
    exact (h.thread t).plainWaits f hf hwait o1 h1 r w hw hwheld

omit [DecidableEq M] in
theorem Inv.plainEnter {t : T} {f : Mutex.Frame M} {a : Mutex.Act T M} (h : Inv s)
    (hp : Mutex.Inv ⟨s.plain.lockdep, s.plain.objs, update s.plain.calls t (some f)⟩)
    (hfree : s.calls t = none) (henters : Enters t f a) :
    Inv ⟨⟨s.plain.lockdep, s.plain.objs, update s.plain.calls t (some f)⟩, s.rws, s.calls⟩ := by
  have hwait : f.waiting = false := by
    cases henters with
    | lock _ hpoint | unlock _ hpoint => simp [Frame.waiting, hpoint]
    | tryLock hin hpoint => simp [Frame.waiting, hpoint, hin]
  refine h.beside hp h.across (fun q g hg => ?_) (fun _ _ _ _ hk => hk) (fun _ _ _ _ hc => hc)
    (fun _ _ _ _ _ _ hc => ⟨hc, fun hedge => hedge⟩) (fun q g hg hgwait => ?_)
  · have hne : q ≠ t := by
      rintro rfl
      rw [hfree] at hg
      cases hg
    exact (update_of_ne hne _ _).trans ((h.thread q).alone g hg)
  · change update s.plain.calls t (some f) q = some g at hg
    by_cases hq : q = t
    · rw [hq, update_self] at hg
      obtain rfl := Option.some.inj hg
      rw [hwait] at hgwait
      cases hgwait
    · rw [update_of_ne hq] at hg
      exact (h.thread q).plainWaits g hg hgwait

theorem Inv.plainCall {t : T} (h : Inv s) (hp : Mutex.Inv p) (hfree : s.calls t = none)
    (hs : Mutex.Moves movedFrom s.plain (.step t) p) : Inv ⟨p, s.rws, s.calls⟩ := by
  obtain ⟨f, o, l, o', q', hf, ho, htakes, rfl⟩ := hs.takes
  obtain ⟨hno, o1, ho1, hcopy⟩ := (h.plain.thread t).call f hf
  rw [ho] at ho1
  obtain rfl := Option.some.inj ho1
  have heffect := takes_effect h.plain.registry (h.plain.plain _ o ho) hno hcopy htakes
  have hobj : ∀ m1 o1, update s.plain.objs f.obj (some o') m1 = some o1 →
      ∃ o0, s.plain.objs m1 = some o0 ∧ o1.cls = o0.cls ∧
        ∀ q, q ≠ t → o1.owner = some q → o0.owner = some q := by
    intro m1 o1 h1
    rcases joined_obj h1 with ⟨rfl, rfl⟩ | ⟨-, h1⟩
    · exact ⟨o, ho, heffect.cls, heffect.owner⟩
    · exact ⟨o1, h1, rfl, fun _ _ hq => hq⟩
  have hacross : ∀ m1 r o1 w, update s.plain.objs f.obj (some o') m1 = some o1 →
      s.rws r = some w → o1.cls ≠ w.cls := by
    intro m1 r o1 w h1 hw
    obtain ⟨o0, h0, hcls, -⟩ := hobj m1 o1 h1
    rw [hcls]
    exact h.across m1 r o0 w h0 hw
  refine h.beside hp hacross (fun q g hg => ?_) (fun _ w _ k => heffect.grows.ids w.cls k) ?_ ?_ ?_
  · have hne : q ≠ t := by
      rintro rfl
      rw [hfree] at hg
      cases hg
    exact (update_of_ne hne _ _).trans ((h.thread q).alone g hg)
  · intro q r w hw hheld
    by_cases hq : q = t
    · subst q
      exact heffect.rest _ (fun heq => h.across f.obj r o w ho hw heq.symm) hheld
    · obtain ⟨a, ha, hmem⟩ := hheld
      exact ⟨a, heffect.grows.ids _ a ha, by
        rw [show (s.plain.after t f l o' q').lockdep.held q = s.plain.lockdep.held q from
          heffect.others q hq]
        exact hmem⟩
  · intro q g hg w _ c hc
    have hne : q ≠ t := by
      rintro rfl
      rw [hfree] at hg
      cases hg
    refine ⟨?_, fun hedge => hedge.grow heffect.grows⟩
    rcases hc with ⟨m1, o1, h1, howner, rfl⟩ | hc
    · obtain ⟨o0, h0, hcls, hback⟩ := hobj m1 o1 h1
      exact Or.inl ⟨m1, o0, h0, hback q hne howner, hcls.symm⟩
    · exact Or.inr hc
  · intro q g hg hwait o1 h1 r w hw hwheld
    obtain ⟨o0, h0, hcls, -⟩ := hobj g.obj o1 h1
    rw [hcls]
    by_cases hq : q = t
    · subst q
      obtain ⟨point, hpoint, rfl⟩ : ∃ point ∈ q', g = { f with point := point } := by
        have hmap : g ∈ q'.map fun point => { f with point := point } := by
          rw [← show (s.plain.after t f l o' q').calls t = _ from update_self ..]
          exact hg
        obtain ⟨point, hpoint, rfl⟩ := Option.mem_map.mp hmap
        exact ⟨point, hpoint, rfl⟩
      rw [show s.plain.objs f.obj = some o0 from h0] at ho
      obtain rfl := Option.some.inj ho
      rcases heffect.waits point hpoint hwait with hold | hedges
      · exact ((h.thread t).plainWaits f hf hold o0 h0 r w hw hwheld).grow heffect.grows
      · refine hedges _ ((h.thread t).holds r w hw hwheld fun g hg => ?_)
        rw [hfree] at hg
        cases hg
    · rw [show (s.plain.after t f l o' q').calls q = s.plain.calls q from update_of_ne hq _ _] at hg
      exact ((h.thread q).plainWaits g hg hwait o0 h0 r w hw hwheld).grow heffect.grows

end Beside

end LockdepSpdk.Locks
