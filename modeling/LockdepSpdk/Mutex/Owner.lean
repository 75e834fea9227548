import LockdepSpdk.Mutex.Moves
import Mathlib.Data.Fintype.Basic

/-!
# Who owns a mutex

`nlock` and `locked_by` follow the pthread mutex they are kept beside: they lag
behind it from an acquisition to the end of `_post_lock`, and run ahead of it from
`_pre_unlock` to the release. The invariant is one about a mutex and the points of
all threads in calls on it. A recursive pthread mutex counts higher than an `int`
does, so that `nlock` tells who owns it to a depth of 2^31 - 1 only.
-/

namespace LockdepSpdk.Mutex

set_option autoImplicit false

open Function Lockdep Transition

section Points

/-- Between the acquisition and the return, or past the asserts of `_pre_unlock`. -/
@[simp]
def Point.inside : Point → Bool
  | .lockedTest | .lockedRead | .lockedBody _ | .lockedStore _ | .postLockCheck | .postLockOwner
  | .postLockCount | .preUnlockTest | .preUnlockClear | .preUnlockCount | .unlockTest
  | .willUnlockRead | .willUnlockBody _ | .willUnlockStore _ | .unlockImpl => true
  | _ => false

/-- The pthread mutex is acquired once more than `nlock` says. -/
@[simp]
def Point.uncounted : Point → Bool
  | .lockedTest | .lockedRead | .lockedBody _ | .lockedStore _ | .postLockCheck | .postLockOwner
  | .postLockCount | .unlockTest | .willUnlockRead | .willUnlockBody _ | .willUnlockStore _
  | .unlockImpl => true
  | _ => false

/-- `locked_by` is what it was before the last acquisition. -/
@[simp]
def Point.unmarked : Point → Bool
  | .lockedTest | .lockedRead | .lockedBody _ | .lockedStore _ | .postLockCheck | .postLockOwner
  | .preUnlockCount | .unlockTest | .willUnlockRead | .willUnlockBody _ | .willUnlockStore _
  | .unlockImpl => true
  | _ => false

/-- `unlock` is at its first two asserts. -/
@[simp]
def Point.asks : Point → Bool
  | .preUnlockCheck | .preUnlockOwner => true
  | _ => false

@[simp]
def Point.clears : Point → Bool
  | .preUnlockClear => true
  | _ => false

theorem Point.clears_inside {p : Option Point} (h : p.any Point.clears = true) :
    p.any Point.inside = true := by
  cases p with
  | none => cases h
  | some p => cases p <;> first | rfl | cases h

end Points

section Tracks
variable {T M : Type}

/-- The members of `o` while every thread `t` is at the point `c t` of a call on it, if any. -/
structure Tracks (c : T → Option Point) (o : Obj T) : Prop where
  free : o.owner = none → o.depth = 0 ∧ o.nlock = 0 ∧ o.lockedBy = none
  deep : ∀ t, o.owner = some t →
    1 ≤ o.depth ∧ o.depth ≤ maxDepth ∧ (o.recursive = false → o.depth = 1)
  counted : ∀ t, o.owner = some t →
    o.nlock = int32 (o.depth - if (c t).any Point.uncounted then 1 else 0)
  marked : ∀ t, o.owner = some t →
    o.lockedBy = if (c t).any Point.unmarked ∧ o.depth = 1 then none else some t
  inside : ∀ t, (c t).any Point.inside = true → o.owner = some t
  clears : ∀ t, (c t).any Point.clears = true → o.nlock = 1

theorem Tracks.owner_of_lockedBy {c : T → Option Point} {o : Obj T} {t : T} (h : Tracks c o)
    (hby : o.lockedBy = some t) : o.owner = some t := by
  rcases Option.eq_none_or_eq_some o.owner with hnone | ⟨q, hq⟩
  · rw [(h.free hnone).2.2] at hby
    cases hby
  · have hmark := h.marked q hq
    rw [hby] at hmark
    split at hmark
    · cases hmark
    · obtain rfl := Option.some.inj hmark
      exact hq

variable [DecidableEq T] {c : T → Option Point} {o o' : Obj T} {t : T} {p : Option Point}

theorem Tracks.quiet (h : Tracks c o) (hown : o'.owner = o.owner) (hdepth : o'.depth = o.depth)
    (hrec : o'.recursive = o.recursive) (hn : o'.nlock = o.nlock)
    (hby : o'.lockedBy = o.lockedBy) (hinside : p.any Point.inside = (c t).any Point.inside)
    (huncounted : p.any Point.uncounted = (c t).any Point.uncounted)
    (hunmarked : p.any Point.unmarked = (c t).any Point.unmarked)
    (hclears : p.any Point.clears = false) : Tracks (update c t p) o' := by
  have same : ∀ (P : Point → Bool), p.any P = (c t).any P →
      ∀ q, (update c t p q).any P = (c q).any P := by
    intro P hP q
    by_cases hq : q = t
    · subst hq
      rw [update_self]
      exact hP
    · rw [update_of_ne hq]
  refine ⟨?_, ?_, ?_, ?_, ?_, ?_⟩
  · rw [hown, hdepth, hn, hby]
    exact h.free
  · rw [hown, hdepth, hrec]
    exact h.deep
  · intro q hq
    rw [same _ huncounted, hn, hdepth]
    exact h.counted q (hown ▸ hq)
  · intro q hq
    rw [same _ hunmarked, hby, hdepth]
    exact h.marked q (hown ▸ hq)
  · intro q hq
    rw [same _ hinside] at hq
    rw [hown]
    exact h.inside q hq
  · intro q hq
    rw [hn]
    by_cases hqt : q = t
    · subst hqt
      rw [update_self, hclears] at hq
      cases hq
    · rw [update_of_ne hqt] at hq
      exact h.clears q hq

omit [DecidableEq T] in
theorem Tracks.others (h : Tracks c o) (howner : o.owner = some t) {q : T} (hq : q ≠ t) :
    (c q).any Point.inside = false := by
  by_contra hin
  have hq' := h.inside q (Bool.not_eq_false _ ▸ hin)
  rw [howner] at hq'
  exact hq (Option.some.inj hq').symm

theorem Tracks.own (h : Tracks c o) (howner : o.owner = some t) (hown : o'.owner = some t)
    (hdeep : 1 ≤ o'.depth ∧ o'.depth ≤ maxDepth ∧ (o'.recursive = false → o'.depth = 1))
    (hcount : o'.nlock = int32 (o'.depth - if p.any Point.uncounted then 1 else 0))
    (hmark : o'.lockedBy = if p.any Point.unmarked ∧ o'.depth = 1 then none else some t)
    (hclears : p.any Point.clears = true → o'.nlock = 1) : Tracks (update c t p) o' := by
  have only : ∀ q, o'.owner = some q → q = t := by
    intro q hq
    rw [hown] at hq
    exact (Option.some.inj hq).symm
  refine ⟨?_, ?_, ?_, ?_, ?_, ?_⟩
  · intro hnone
    rw [hown] at hnone
    cases hnone
  · intro q _
    exact hdeep
  · intro q hq
    obtain rfl := only q hq
    rw [update_self]
    exact hcount
  · intro q hq
    obtain rfl := only q hq
    rw [update_self]
    exact hmark
  · intro q hq
    by_cases hqt : q = t
    · rw [hqt, hown]
    · rw [update_of_ne hqt, h.others howner hqt] at hq
      cases hq
  · intro q hq
    by_cases hqt : q = t
    · subst hqt
      rw [update_self] at hq
      exact hclears hq
    · rw [update_of_ne hqt] at hq
      have hin := Point.clears_inside hq
      rw [h.others howner hqt] at hin
      cases hin

section At
-- what the members say of the thread that moves, at its point
variable {p₀ : Point}

omit [DecidableEq T] in
theorem Tracks.owns (h : Tracks c o) (ht : c t = some p₀) (hin : p₀.inside = true) :
    o.owner = some t := by
  apply h.inside t
  rw [ht]
  exact hin

omit [DecidableEq T] in
theorem Tracks.count (h : Tracks c o) (ht : c t = some p₀) (howner : o.owner = some t) :
    o.nlock = int32 (o.depth - if p₀.uncounted then 1 else 0) := by
  have hc := h.counted t howner
  rw [ht] at hc
  exact hc

omit [DecidableEq T] in
theorem Tracks.mark (h : Tracks c o) (ht : c t = some p₀) (howner : o.owner = some t) :
    o.lockedBy = if p₀.unmarked ∧ o.depth = 1 then none else some t := by
  have hm := h.marked t howner
  rw [ht] at hm
  exact hm

theorem Tracks.acquire (h : Tracks c o) (ht : c t = some p₀) (hacq : Acquires t o o')
    (hun : p₀.uncounted = false) (hmk : p₀.unmarked = false) :
    Tracks (update c t (some .lockedTest)) o' := by
  cases hacq with
  | first hfree =>
    obtain ⟨_, hn, hby⟩ := h.free hfree
    refine ⟨nofun, ?_, ?_, ?_, ?_, ?_⟩
    · intro q _
      exact ⟨Nat.le_refl 1, (by decide : 1 ≤ maxDepth), fun _ => rfl⟩
    · intro q hq
      obtain rfl := Option.some.inj hq
      rw [update_self]
      simpa using hn
    · intro q hq
      obtain rfl := Option.some.inj hq
      rw [update_self]
      exact hby
    · intro q hq
      by_cases hqt : q = t
      · rw [hqt]
      · rw [update_of_ne hqt] at hq
        rw [h.inside q hq] at hfree
        cases hfree
    · intro q hq
      by_cases hqt : q = t
      · subst hqt
        rw [update_self] at hq
        cases hq
      · rw [update_of_ne hqt] at hq
        rw [h.inside q (Point.clears_inside hq)] at hfree
        cases hfree
  | again howner hrec hroom =>
    obtain ⟨hpos, _⟩ := h.deep t howner
    have hn := h.count ht howner
    have hby := h.mark ht howner
    rw [hun] at hn
    rw [hmk] at hby
    have hdeep : ¬ o.depth = 0 := by omega
    apply h.own howner
    · exact howner
    · refine ⟨Nat.le_add_left 1 _, hroom, ?_⟩
      intro hnot
      rw [hrec] at hnot
      cases hnot
    · simp [hn]
    · simpa [hdeep] using hby
    · simp

theorem Tracks.release (h : Tracks c o) (ht : c t = some .unlockImpl) (hrel : Releases t o o') :
    Tracks (update c t none) o' := by
  have howner := h.owns ht rfl
  have hn := h.count ht howner
  have hby := h.mark ht howner
  obtain ⟨hpos, hle, hplain⟩ := h.deep t howner
  cases hrel with
  | last _ hlast =>
    have hdeep : o.depth = 1 := by omega
    refine ⟨?_, nofun, nofun, nofun, ?_, ?_⟩
    · intro _
      refine ⟨rfl, ?_, ?_⟩
      · rw [hn, hdeep]
        exact rfl
      · simp [hby, hdeep]
    · intro q hq
      by_cases hqt : q = t
      · subst hqt
        rw [update_self] at hq
        cases hq
      · rw [update_of_ne hqt, h.others howner hqt] at hq
        cases hq
    · intro q hq
      by_cases hqt : q = t
      · subst hqt
        rw [update_self] at hq
        cases hq
      · rw [update_of_ne hqt] at hq
        have hin := Point.clears_inside hq
        rw [h.others howner hqt] at hin
        cases hin
  | one _ hlt =>
    have hdeep : ¬ o.depth = 1 := by omega
    apply h.own howner
    · exact howner
    · refine ⟨?_, ?_, ?_⟩
      · change 1 ≤ o.depth - 1
        omega
      · change o.depth - 1 ≤ maxDepth
        omega
      · intro hnot
        exact absurd (hplain hnot) hdeep
    · have hcast : ((o.depth - 1 : Nat) : Int) = o.depth - 1 := by omega
      simp [hn, hcast]
    · simpa [hdeep] using hby
    · simp

end At

theorem Tracks.step {l l' : State T} {f : Frame M} {p₀ : Point} (h : Tracks c o)
    (ht : c t = some p₀) (htakes : Takes l t f o p₀ l' o' p) : Tracks (update c t p) o' := by
  -- the steps that change no tracked member and keep the point's place
  have quiet : ∀ (o' : Obj T) (p : Option Point), o'.owner = o.owner → o'.depth = o.depth →
      o'.recursive = o.recursive → o'.nlock = o.nlock → o'.lockedBy = o.lockedBy →
      p.any Point.inside = p₀.inside → p.any Point.uncounted = p₀.uncounted →
      p.any Point.unmarked = p₀.unmarked → p.any Point.clears = false →
      Tracks (update c t p) o' := by
    intro o' p hown hdepth hrec hn hby hin hun hmk hcl
    apply h.quiet hown hdepth hrec hn hby
    · rw [ht]
      exact hin
    · rw [ht]
      exact hun
    · rw [ht]
      exact hmk
    · exact hcl
  cases htakes with
  | lockTest =>
    apply quiet <;> first | rfl | (split <;> rfl)
  | willLockRead => apply quiet <;> rfl
  | willLockBody => apply quiet <;> rfl
  | willLockStore => apply quiet <;> rfl
  | tryImpl hacq => exact h.acquire ht hacq rfl rfl
  | busy =>
    apply quiet <;> first | rfl | (split <;> rfl)
  | lockImpl hacq => exact h.acquire ht hacq rfl rfl
  | throws => apply quiet <;> rfl
  | full => apply quiet <;> rfl
  | lockedTest =>
    apply quiet <;> first | rfl | (split <;> rfl)
  | lockedRead => apply quiet <;> rfl
  | lockedBody => apply quiet <;> rfl
  | lockedStore => apply quiet <;> rfl
  | postLockCheck => apply quiet <;> rfl
  | postLockOwner =>
    have howner := h.owns ht rfl
    have hn := h.count ht howner
    apply h.own howner
    · exact howner
    · exact h.deep t howner
    · exact hn
    · simp
    · simp
  | postLockCount =>
    have howner := h.owns ht rfl
    have hn := h.count ht howner
    have hby := h.mark ht howner
    apply h.own howner
    · exact howner
    · exact h.deep t howner
    · simp [hn, int32_add]
    · simpa using hby
    · simp
  | preUnlockCheck => apply quiet <;> rfl
  | preUnlockOwner hby =>
    have howner := h.owner_of_lockedBy hby
    have hn := h.count ht howner
    apply h.own howner
    · exact howner
    · exact h.deep t howner
    · exact hn
    · simpa using hby
    · simp
  | preUnlockTest =>
    have howner := h.owns ht rfl
    have hn := h.count ht howner
    have hby := h.mark ht howner
    apply h.own howner
    · exact howner
    · exact h.deep t howner
    · split <;> simpa using hn
    · split
      · simpa using hby
      · next hmany =>
        have hdeep : ¬ o.depth = 1 := by
          intro heq
          rw [heq] at hn
          exact hmany hn
        simpa [hdeep] using hby
    · split
      · next hone => exact fun _ => hone
      · simp
  | preUnlockClear =>
    have howner := h.owns ht rfl
    have hn := h.count ht howner
    have hone := h.clears t (by rw [ht]; rfl)
    obtain ⟨_, hle, _⟩ := h.deep t howner
    have hdeep : o.depth = 1 := by
      simp only [hone, Point.uncounted, Bool.false_eq_true, if_false, Int.sub_zero] at hn
      exact (int32_eq_one (Nat.lt_of_le_of_lt hle (by decide))).mp hn.symm
    apply h.own howner
    · exact howner
    · exact h.deep t howner
    · simpa using hn
    · simp [hdeep]
    · simp
  | preUnlockCount =>
    have howner := h.owns ht rfl
    have hn := h.count ht howner
    have hby := h.mark ht howner
    apply h.own howner
    · exact howner
    · exact h.deep t howner
    · simp [hn, Int.sub_eq_add_neg, int32_add]
    · simpa using hby
    · simp
  | unlockTest =>
    apply quiet <;> first | rfl | (split <;> rfl)
  | willUnlockRead => apply quiet <;> rfl
  | willUnlockBody => apply quiet <;> rfl
  | willUnlockStore => apply quiet <;> rfl
  | unlockImpl hrel => exact h.release ht hrel

/-- Only what the thread's step does to a mutex can change its owner, from or to that thread. -/
theorem Takes.owner {l l' : State T} {f : Frame M} {p₀ : Point}
    (htakes : Takes l t f o p₀ l' o' p) :
    o'.owner = o.owner ∨ (o.owner = none ∧ o'.owner = some t) ∨
      (o.owner = some t ∧ o'.owner = none) := by
  have acquire : ∀ {o'}, Acquires t o o' → o'.owner = o.owner ∨
      (o.owner = none ∧ o'.owner = some t) ∨ (o.owner = some t ∧ o'.owner = none) := by
    intro o' hacq
    cases hacq with
    | first hfree => exact Or.inr (Or.inl ⟨hfree, rfl⟩)
    | again _ _ _ => exact Or.inl rfl
  cases htakes with
  | tryImpl hacq => exact acquire hacq
  | lockImpl hacq => exact acquire hacq
  | unlockImpl hrel =>
    cases hrel with
    | last howner _ => exact Or.inr (Or.inr ⟨howner, rfl⟩)
    | one _ _ => exact Or.inl rfl
  | _ => exact Or.inl rfl

end Tracks

section Runs
variable {T M : Type}

/-- A call is on a mutex that exists, and every mutex is tracked. -/
structure OwnerInv (s : Sys T M) [DecidableEq M] : Prop where
  called : ∀ t f, s.calls t = some f → ∃ o, s.objs f.obj = some o
  tracks : ∀ m o, s.objs m = some o → Tracks (s.on m) o

/-- A mutex goes while no call uses it. -/
def Lifetimes (s : Sys T M) : Act T M → Prop
  | .destroy m => ∀ t, ∀ f ∈ s.calls t, f.obj ≠ m
  | _ => True

variable [DecidableEq M] {s : Sys T M}

theorem OwnerInv.on_none (h : OwnerInv s) {m : M} (hm : s.objs m = none) (t : T) :
    s.on m t = none := by
  unfold Sys.on
  split
  · next f hf =>
    obtain ⟨o, ho⟩ := h.called t f hf
    rw [if_neg]
    intro heq
    rw [heq, hm] at ho
    cases ho
  · rfl

theorem Tracks.unlocked {c : T → Option Point} {o : Obj T} (hc : ∀ t, c t = none)
    (howner : o.owner = none) (hdepth : o.depth = 0) (hn : o.nlock = 0) (hby : o.lockedBy = none) :
    Tracks c o := by
  refine ⟨fun _ => ⟨hdepth, hn, hby⟩, ?_, ?_, ?_, ?_, ?_⟩
  · intro t ht
    rw [howner] at ht
    cases ht
  · intro t ht
    rw [howner] at ht
    cases ht
  · intro t ht
    rw [howner] at ht
    cases ht
  · intro t ht
    rw [hc t] at ht
    cases ht
  · intro t ht
    rw [hc t] at ht
    cases ht

theorem OwnerInv.construct (h : OwnerInv s) {m : M} {o : Obj T} {l : State T}
    (hm : s.objs m = none) (howner : o.owner = none) (hdepth : o.depth = 0) (hn : o.nlock = 0)
    (hby : o.lockedBy = none) : OwnerInv ⟨l, update s.objs m (some o), s.calls⟩ := by
  refine ⟨?_, ?_⟩
  · intro t f hf
    obtain ⟨o', ho'⟩ := h.called t f hf
    have hne : f.obj ≠ m := by
      intro heq
      rw [heq, hm] at ho'
      cases ho'
    exact ⟨o', (update_of_ne hne _ _).trans ho'⟩
  · intro m' o' ho'
    rcases joined_obj ho' with ⟨rfl, rfl⟩ | ⟨_, ho'⟩
    · exact Tracks.unlocked (h.on_none hm) howner hdepth hn hby
    · exact h.tracks m' o' ho'

theorem OwnerInv.destroy (h : OwnerInv s) {m : M} {l : State T}
    (hidle : ∀ t, ∀ f ∈ s.calls t, f.obj ≠ m) : OwnerInv ⟨l, update s.objs m none, s.calls⟩ := by
  refine ⟨?_, ?_⟩
  · intro t f hf
    obtain ⟨o', ho'⟩ := h.called t f hf
    exact ⟨o', (update_of_ne (hidle t f hf) _ _).trans ho'⟩
  · intro m' o' ho'
    exact h.tracks m' o' (left_obj ho').2

variable [DecidableEq T]

omit [DecidableEq M] [DecidableEq T] in
theorem Enters.point {t : T} {f : Frame M} {a : Act T M} (h : Enters t f a) :
    f.point.inside = false ∧ f.point.uncounted = false ∧ f.point.unmarked = false ∧
      f.point.clears = false ∧ f.point.copy = none := by
  cases h with
  | lock _ hp =>
    rw [hp]
    exact ⟨rfl, rfl, rfl, rfl, rfl⟩
  | tryLock _ hp =>
    rw [hp]
    exact ⟨rfl, rfl, rfl, rfl, rfl⟩
  | unlock _ hp =>
    rw [hp]
    exact ⟨rfl, rfl, rfl, rfl, rfl⟩

theorem enter_on (s : Sys T M) (t : T) (f : Frame M) (m : M) (ht : s.calls t = none) :
    (⟨s.lockdep, s.objs, update s.calls t (some f)⟩ : Sys T M).on m =
      update (s.on m) t (if f.obj = m then some f.point else none) := by
  funext q
  unfold Sys.on
  by_cases hq : q = t
  · subst hq
    simp
  · simp [hq]

theorem enter_reads {α : Type} (F : Option Point → α) {t : T} {f : Frame M} (ht : s.calls t = none)
    (hF : F (some f.point) = F none) (m : M) (q : T) :
    F ((⟨s.lockdep, s.objs, update s.calls t (some f)⟩ : Sys T M).on m q) = F (s.on m q) := by
  rw [enter_on s t f m ht]
  by_cases hq : q = t
  · subst hq
    rw [update_self, Sys.on_idle ht]
    split
    · exact hF
    · rfl
  · rw [update_of_ne hq]

theorem OwnerInv.enter (h : OwnerInv s) {t : T} {f : Frame M} {a : Act T M} (hf : Enters t f a)
    (ht : s.calls t = none) (hobj : ∃ o, s.objs f.obj = some o) :
    OwnerInv ⟨s.lockdep, s.objs, update s.calls t (some f)⟩ := by
  obtain ⟨hin, hun, hmk, hcl, _⟩ := hf.point
  refine ⟨?_, ?_⟩
  · intro q g hg
    change update s.calls t (some f) q = some g at hg
    by_cases hq : q = t
    · subst hq
      rw [update_self] at hg
      obtain rfl := Option.some.inj hg
      exact hobj
    · rw [update_of_ne hq] at hg
      exact h.called q g hg
  · intro m o ho
    have hnone : s.on m t = none := Sys.on_idle ht m
    rw [enter_on s t f m ht]
    apply (h.tracks m o ho).quiet rfl rfl rfl rfl rfl
    · rw [hnone]
      split
      · exact hin
      · rfl
    · rw [hnone]
      split
      · exact hun
      · rfl
    · rw [hnone]
      split
      · exact hmk
      · rfl
    · split
      · exact hcl
      · rfl

theorem OwnerInv.step {movedFrom : String → String} {s' : Sys T M} {a : Act T M} (h : OwnerInv s)
    (hlife : Lifetimes s a) (hmoves : Moves movedFrom s a s') : OwnerInv s' := by
  rcases hmoves.cases with ⟨_, rfl⟩ | ⟨_, rfl⟩ | ⟨m, group, ld, recursive, rfl⟩ | ⟨m, rfl⟩ |
    ⟨t, f, hf, ht, hobj, rfl⟩ | ⟨t, rfl⟩
  · exact ⟨h.called, h.tracks⟩
  · exact ⟨h.called, h.tracks⟩
  · obtain ⟨hm, ⟨_, _, l, i, _, rfl⟩ | ⟨_, rfl⟩⟩ := construct_cases hmoves
    · exact h.construct hm rfl rfl rfl rfl
    · exact h.construct hm rfl rfl rfl rfl
  · obtain ⟨o, _, _, _, ⟨_, _, l, _, rfl⟩ | ⟨_, rfl⟩⟩ := destroy_cases hmoves
    · exact h.destroy hlife
    · exact h.destroy hlife
  · exact h.enter hf ht hobj
  · obtain ⟨f, o, l, o', p, hf, ho, htakes, rfl⟩ := hmoves.takes
    refine ⟨?_, ?_⟩
    · intro q g hg
      change ∃ o1, update s.objs f.obj (some o') g.obj = some o1
      by_cases hobj : g.obj = f.obj
      · rw [hobj, update_self]
        exact ⟨o', rfl⟩
      · rw [update_of_ne hobj]
        change update s.calls t _ q = some g at hg
        by_cases hq : q = t
        · subst hq
          rw [update_self] at hg
          obtain ⟨p1, _, rfl⟩ := Option.map_eq_some_iff.mp hg
          exact absurd rfl hobj
        · rw [update_of_ne hq] at hg
          exact h.called q g hg
    · intro m o1 ho1
      rcases joined_obj ho1 with ⟨rfl, rfl⟩ | ⟨hm, ho1⟩
      · rw [after_on_self]
        exact (h.tracks _ o ho).step (Sys.on_self hf) htakes
      · rw [after_on_ne hf hm]
        exact h.tracks m o1 ho1

omit [DecidableEq T] in
theorem OwnerInv.start : OwnerInv (Sys.start : Sys T M) :=
  ⟨nofun, nofun⟩

/-! Callers that unlock what they have locked. -/

/-- `Lifetimes`, and a thread unlocks only a mutex it has locked more often than unlocked. -/
def Balanced (s : Sys T M) : Act T M → Prop
  | .destroy m => ∀ t, ∀ f ∈ s.calls t, f.obj ≠ m
  | .unlock t m _ => ∃ o ∈ s.objs m, o.owner = some t
  | _ => True

omit [DecidableEq M] [DecidableEq T] in
theorem Balanced.lifetimes {a : Act T M} (h : Balanced s a) : Lifetimes s a := by
  cases a with
  | destroy m => exact h
  | _ => exact trivial

/-- Whoever is about to pass the asserts of `_pre_unlock` owns the mutex. -/
def AsksOwner (s : Sys T M) : Prop :=
  ∀ m o t, s.objs m = some o → (s.on m t).any Point.asks = true → o.owner = some t

omit [DecidableEq M] in
theorem Takes.asks {l l' : State T} {t : T} {f : Frame M} {o o' : Obj T} {p₀ : Point}
    {p : Option Point} (h : Takes l t f o p₀ l' o' p) (hp : p.any Point.asks = true) :
    p₀.asks = true ∧ o' = o := by
  cases h with
  | preUnlockCheck => exact ⟨rfl, rfl⟩
  | lockTest | busy | lockedTest | preUnlockTest | unlockTest =>
    split at hp
    · cases hp
    · cases hp
  | _ => cases hp

theorem AsksOwner.step {movedFrom : String → String} {s' : Sys T M} {a : Act T M}
    (h : AsksOwner s) (hinv : OwnerInv s) (hok : Balanced s a) (hmoves : Moves movedFrom s a s') :
    AsksOwner s' := by
  have joined : ∀ (m : M) (o : Obj T) (l : State T), s.objs m = none →
      AsksOwner (⟨l, update s.objs m (some o), s.calls⟩ : Sys T M) := by
    intro m o l hm m1 o1 t ho1 hp
    change (s.on m1 t).any Point.asks = true at hp
    rcases joined_obj ho1 with ⟨rfl, _⟩ | ⟨_, ho1⟩
    · rw [hinv.on_none hm] at hp
      cases hp
    · exact h m1 o1 t ho1 hp
  have left : ∀ (m : M) (l : State T),
      AsksOwner (⟨l, update s.objs m none, s.calls⟩ : Sys T M) := by
    intro m l m1 o1 t ho1 hp
    exact h m1 o1 t (left_obj ho1).2 hp
  rcases hmoves.cases with ⟨_, rfl⟩ | ⟨_, rfl⟩ | ⟨m, group, ld, recursive, rfl⟩ | ⟨m, rfl⟩ |
    ⟨t, f, hf, ht, _, rfl⟩ | ⟨t, rfl⟩
  · exact h
  · exact h
  · obtain ⟨hm, ⟨_, _, l, i, _, rfl⟩ | ⟨_, rfl⟩⟩ := construct_cases hmoves
    · exact joined m _ _ hm
    · exact joined m _ _ hm
  · obtain ⟨o, _, _, _, ⟨_, _, l, _, rfl⟩ | ⟨_, rfl⟩⟩ := destroy_cases hmoves
    · exact left m _
    · exact left m _
  · intro m o q ho hp
    rw [enter_on s t f m ht] at hp
    by_cases hq : q = t
    · subst hq
      rw [update_self] at hp
      split at hp
      · next hfm =>
        subst hfm
        cases hf with
        | lock _ hpoint =>
          rw [hpoint] at hp
          cases hp
        | tryLock _ hpoint =>
          rw [hpoint] at hp
          cases hp
        | unlock _ _ =>
          obtain ⟨o1, ho1, howner⟩ := hok
          rw [Option.mem_def.mp ho1] at ho
          obtain rfl := Option.some.inj ho
          exact howner
      · cases hp
    · rw [update_of_ne hq] at hp
      exact h m o q ho hp
  · obtain ⟨f, o, l, o', p, hf, ho, htakes, rfl⟩ := hmoves.takes
    intro m o1 q ho1 hp
    rcases joined_obj ho1 with ⟨rfl, rfl⟩ | ⟨hm, ho1⟩
    · rw [after_on_self] at hp
      by_cases hq : q = t
      · subst hq
        rw [update_self] at hp
        obtain ⟨hp0, heq⟩ := htakes.asks hp
        rw [heq]
        apply h _ o q ho
        rw [Sys.on_self hf]
        exact hp0
      · rw [update_of_ne hq] at hp
        have howner := h _ o q ho hp
        rcases htakes.owner with heq | ⟨hnone, _⟩ | ⟨ht, _⟩
        · rw [heq, howner]
        · rw [hnone] at howner
          cases howner
        · rw [ht] at howner
          exact absurd (Option.some.inj howner).symm hq
    · rw [after_on_ne hf hm] at hp
      exact h m o1 q ho1 hp

/-! `is_locked_by_me`. -/

/-- `nlock` is read first, `locked_by` some steps later. -/
def isLockedByMe (t : T) (first second : Obj T) : Bool :=
  decide (0 < first.nlock) && second.lockedBy == some t

def Others (t : T) (m : M) : Act T M → Prop
  | .destroy m' => m' ≠ m
  | .lock q _ _ => q ≠ t
  | .tryLock q _ _ => q ≠ t
  | .unlock q _ _ => q ≠ t
  | .step q => q ≠ t
  | _ => True

omit [DecidableEq M] [DecidableEq T] in
theorem Enters.ne {t q : T} {m : M} {f : Frame M} {a : Act T M} (h : Enters q f a)
    (ho : Others t m a) : q ≠ t := by
  cases h with
  | lock _ _ => exact ho
  | tryLock _ _ => exact ho
  | unlock _ _ => exact ho

theorem Moves.others {movedFrom : String → String} {s' : Sys T M} {a : Act T M} {t : T} {m : M}
    {o : Obj T} (hmoves : Moves movedFrom s a s') (hothers : Others t m a)
    (hcalls : s.calls t = none) (ho : s.objs m = some o) :
    s'.calls t = none ∧ ∃ o', s'.objs m = some o' ∧ (o'.owner = some t ↔ o.owner = some t) := by
  rcases hmoves.cases with ⟨_, rfl⟩ | ⟨_, rfl⟩ | ⟨m1, group, ld, recursive, rfl⟩ | ⟨m1, rfl⟩ |
    ⟨q, f, hf, _, _, rfl⟩ | ⟨q, rfl⟩
  · exact ⟨hcalls, o, ho, Iff.rfl⟩
  · exact ⟨hcalls, o, ho, Iff.rfl⟩
  · obtain ⟨hm, hcase⟩ := construct_cases hmoves
    have hne : m ≠ m1 := by
      intro heq
      rw [heq, hm] at ho
      cases ho
    rcases hcase with ⟨_, _, l, i, _, rfl⟩ | ⟨_, rfl⟩
    · exact ⟨hcalls, o, (update_of_ne hne _ _).trans ho, Iff.rfl⟩
    · exact ⟨hcalls, o, (update_of_ne hne _ _).trans ho, Iff.rfl⟩
  · have hne : m ≠ m1 := Ne.symm hothers
    obtain ⟨o1, _, _, _, ⟨_, _, l, _, rfl⟩ | ⟨_, rfl⟩⟩ := destroy_cases hmoves
    · exact ⟨hcalls, o, (update_of_ne hne _ _).trans ho, Iff.rfl⟩
    · exact ⟨hcalls, o, (update_of_ne hne _ _).trans ho, Iff.rfl⟩
  · exact ⟨(update_of_ne (hf.ne hothers).symm _ _).trans hcalls, o, ho, Iff.rfl⟩
  · have hq : q ≠ t := hothers
    obtain ⟨f, o1, l, o', p, _, ho1, htakes, rfl⟩ := hmoves.takes
    refine ⟨(update_of_ne hq.symm _ _).trans hcalls, ?_⟩
    change ∃ o2, update s.objs f.obj (some o') m = some o2 ∧ _
    by_cases hm : m = f.obj
    · subst hm
      rw [ho] at ho1
      obtain rfl := Option.some.inj ho1
      rw [update_self]
      refine ⟨o', rfl, ?_⟩
      rcases htakes.owner with heq | ⟨hnone, howner⟩ | ⟨howner, hnone⟩
      · rw [heq]
      · rw [hnone, howner]
        exact ⟨fun hqt => absurd (Option.some.inj hqt) hq, nofun⟩
      · rw [hnone, howner]
        exact ⟨nofun, fun hqt => absurd (Option.some.inj hqt) hq⟩
    · rw [update_of_ne hm]
      exact ⟨o, ho, Iff.rfl⟩

omit [DecidableEq T] in
/-- Outside of its steps `nlock` is the depth, as far as an `int` shows it. -/
theorem OwnerInv.nlock (h : OwnerInv s) {m : M} {o : Obj T} {t : T} (ho : s.objs m = some o)
    (howner : o.owner = some t) (hon : s.on m t = none ∨ s.on m t = some .preUnlockCheck) :
    o.nlock = int32 o.depth ∧ (0 < o.nlock ↔ o.depth < 2 ^ 31) := by
  have hn : o.nlock = int32 o.depth := by
    have hc := (h.tracks m o ho).counted t howner
    rcases hon with hon | hon
    · rw [hon] at hc
      simpa using hc
    · rw [hon] at hc
      simpa using hc
  obtain ⟨hpos, hle, _⟩ := (h.tracks m o ho).deep t howner
  refine ⟨hn, ?_⟩
  rw [hn]
  exact int32_pos hpos (Nat.lt_of_le_of_lt hle maxDepth_lt)

theorem OwnerInv.reads {movedFrom : String → String} {s' : Sys T M} {as : List (Act T M)} {t : T}
    {m : M} {o : Obj T} (h : OwnerInv s)
    (hrun : Run (fun s a s' => Balanced s a ∧ Others t m a ∧ Moves movedFrom s a s') s as s')
    (hcalls : s.calls t = none) (ho : s.objs m = some o)
    (hsmall : o.owner = some t → o.depth < 2 ^ 31) :
    ∃ o', s'.objs m = some o' ∧ (o'.owner = some t ↔ o.owner = some t) ∧
      isLockedByMe t o o' = decide (o.owner = some t) := by
  obtain ⟨hinv, hcalls', o', ho', hiff⟩ : OwnerInv s' ∧ s'.calls t = none ∧
      ∃ o', s'.objs m = some o' ∧ (o'.owner = some t ↔ o.owner = some t) := by
    refine hrun.invariant (I := fun s1 => OwnerInv s1 ∧ s1.calls t = none ∧
      ∃ o1, s1.objs m = some o1 ∧ (o1.owner = some t ↔ o.owner = some t)) ?_
      ⟨h, hcalls, o, ho, Iff.rfl⟩
    intro s1 a s2 hs1 hstep
    obtain ⟨hinv, hc, o1, ho1, hiff⟩ := hs1
    obtain ⟨hok, hothers, hmoves⟩ := hstep
    obtain ⟨hc2, o2, ho2, hiff2⟩ := hmoves.others hothers hc ho1
    exact ⟨hinv.step hok.lifetimes hmoves, hc2, o2, ho2, hiff2.trans hiff⟩
  refine ⟨o', ho', hiff, ?_⟩
  have htracks := hinv.tracks m o' ho'
  unfold isLockedByMe
  by_cases howner : o.owner = some t
  · have hlocked : 0 < o.nlock :=
      (h.nlock ho howner (Or.inl (Sys.on_idle hcalls m))).2.mpr (hsmall howner)
    have hby := htracks.marked t (hiff.mpr howner)
    rw [Sys.on_idle hcalls'] at hby
    simp [howner, hlocked, hby]
  · have hby : o'.lockedBy ≠ some t := by
      intro heq
      exact howner (hiff.mp (htracks.owner_of_lockedBy heq))
    simp [howner, hby]

/-- What the owner tracking promises. -/
structure OwnerTracked (movedFrom : String → String) (s : Sys T M) : Prop where
  /-- The asserts of `_post_lock` and `_pre_unlock`. -/
  asserts : ∀ t f o, s.calls t = some f → s.objs f.obj = some o →
    f.point = .postLockCheck ∨ f.point = .preUnlockCheck ∨ f.point = .preUnlockOwner →
    ∃ s', stepCall s t f o = .ok s'
  reads : ∀ t m o, s.calls t = none → s.objs m = some o → ∀ as s',
    Run (fun s a s' => Balanced s a ∧ Others t m a ∧ Moves movedFrom s a s') s as s' →
    ∃ o', s'.objs m = some o' ∧ (o'.owner = some t ↔ o.owner = some t) ∧
      isLockedByMe t o o' = decide (o.owner = some t)
  depth : ∀ m o t, s.objs m = some o → o.owner = some t → s.on m t = none → o.nlock = o.depth
  free : ∀ m o, s.objs m = some o → o.owner = none → o.nlock = 0

/-- Whoever is in no call on a mutex it has, or begins to unlock it, has it fewer than 2^31
times. -/
def Shallow (s : Sys T M) : Prop :=
  ∀ m o t, s.objs m = some o → o.owner = some t →
    (s.on m t = none ∨ s.on m t = some .preUnlockCheck) → o.depth < 2 ^ 31

theorem OwnerInv.asserts (h : OwnerInv s) (hasks : AsksOwner s) (hshallow : Shallow s) {t : T}
    {f : Frame M} {o : Obj T} (hf : s.calls t = some f) (ho : s.objs f.obj = some o)
    (hpoint : f.point = .postLockCheck ∨ f.point = .preUnlockCheck ∨ f.point = .preUnlockOwner) :
    ∃ s', stepCall s t f o = .ok s' := by
  have htracks := h.tracks f.obj o ho
  have hon : s.on f.obj t = some f.point := Sys.on_self hf
  have owned : o.owner = some t := by
    rcases hpoint with hp | hp | hp
    · apply htracks.owns hon
      rw [hp]
      exact rfl
    · apply hasks f.obj o t ho
      rw [hon, hp]
      exact rfl
    · apply hasks f.obj o t ho
      rw [hon, hp]
      exact rfl
  obtain ⟨_, _, hplain⟩ := htracks.deep t owned
  have hn := htracks.count hon owned
  have hby := htracks.mark hon owned
  unfold stepCall check
  rcases hpoint with hp | hp | hp
  · simp only [hp, Point.uncounted, if_true] at hn ⊢
    rw [if_pos]
    · exact ⟨_, rfl⟩
    · cases hrec : o.recursive with
      | true => rfl
      | false =>
        rw [hplain hrec] at hn
        simp [hn]
  · have hcheck : s.on f.obj t = some .preUnlockCheck := by rw [hon, hp]
    obtain ⟨heq, hpos⟩ := h.nlock ho owned (Or.inr hcheck)
    simp only [hp]
    rw [if_pos]
    · exact ⟨_, rfl⟩
    · cases hrec : o.recursive with
      | true =>
        simp only [if_true, decide_eq_true_eq]
        exact hpos.mpr (hshallow f.obj o t ho owned (Or.inr hcheck))
      | false =>
        rw [heq, hplain hrec]
        exact rfl
  · simp only [hp, Point.unmarked, Bool.false_eq_true, false_and, if_false] at hby ⊢
    rw [if_pos]
    · exact ⟨_, rfl⟩
    · rw [hby]
      exact beq_self_eq_true _

/-- From 2^31 on, `nlock` is negative. -/
theorem OwnerTracked.shallow {movedFrom : String → String} (htracked : OwnerTracked movedFrom s)
    (h : OwnerInv s) : Shallow s := by
  intro m o t ho howner hon
  obtain ⟨_, hpos⟩ := h.nlock ho howner hon
  obtain ⟨hone, _, hplain⟩ := (h.tracks m o ho).deep t howner
  rcases hon with hon | hon
  · have hn := htracked.depth m o t ho howner hon
    exact hpos.mp (by omega)
  · obtain ⟨f, hf, rfl, hp⟩ := Sys.on_some hon
    obtain ⟨s', hs'⟩ := htracked.asserts t f o hf ho (Or.inr (Or.inl hp))
    unfold stepCall at hs'
    simp only [hp] at hs'
    have hc := check_true hs'
    cases hrec : o.recursive with
    | true =>
      simp only [hrec, if_true, decide_eq_true_eq] at hc
      exact hpos.mp hc
    | false =>
      rw [hplain hrec]
      decide

theorem inv_of_balanced {movedFrom : String → String}
    (h : Reachable (· = Sys.start) (fun s a s' => Balanced s a ∧ Moves movedFrom s a s') s) :
    OwnerInv s ∧ AsksOwner s := by
  refine h.invariant (I := fun s => OwnerInv s ∧ AsksOwner s) ?_ ?_
  · intro s hs
    subst hs
    exact ⟨OwnerInv.start, nofun⟩
  · intro s a s' hs hstep
    exact ⟨hs.1.step hstep.1.lifetimes hstep.2, hs.2.step hs.1 hstep.1 hstep.2⟩

/-- In every run of callers that unlock only what they have locked, on mutexes of both kinds, the
asserts hold and `nlock` and `locked_by` tell each thread outside a call whether it is the owner,
as long as nobody has a mutex 2^31 times, and no longer. -/
theorem owner_tracked_iff (movedFrom : String → String) {s : Sys T M}
    (h : Reachable (· = Sys.start) (fun s a s' => Balanced s a ∧ Moves movedFrom s a s') s) :
    OwnerTracked movedFrom s ↔ Shallow s := by
  obtain ⟨hinv, hasks⟩ := inv_of_balanced h
  refine ⟨fun htracked => htracked.shallow hinv, fun hshallow => ?_⟩
  refine ⟨fun t f o hf ho => hinv.asserts hasks hshallow hf ho, ?_, ?_, ?_⟩
  · intro t m o hcalls ho as s' hrun
    apply hinv.reads hrun hcalls ho
    intro howner
    exact hshallow m o t ho howner (Or.inl (Sys.on_idle hcalls m))
  · intro m o t ho howner hon
    have hlt := hshallow m o t ho howner (Or.inl hon)
    rw [(hinv.nlock ho howner (Or.inl hon)).1, int32_of_lt (by omega) (by omega)]
  · intro m o ho howner
    exact ((hinv.tracks m o ho).free howner).2.1

instance [Fintype T] (s : Sys T M) (a : Act T M) : Decidable (Balanced s a) :=
  match a with
  | .destroy m => inferInstanceAs (Decidable (∀ t, ∀ f ∈ s.calls t, f.obj ≠ m))
  | .unlock t m _ => inferInstanceAs (Decidable (∃ o ∈ s.objs m, o.owner = some t))
  | .globalInit | .globalDestroy | .construct _ _ _ _ | .lock _ _ _ | .tryLock _ _ _ | .step _ =>
    inferInstanceAs (Decidable True)

/-- A recursive mutex, locked twice by one thread while the other is about to wait for it. -/
theorem owner_tracked_iff_twice : ∃ s : Sys Bool (Fin 1),
    (∃ o ∈ s.objs 0, o.owner = some true ∧ o.nlock = 2) ∧
      (OwnerTracked (fun _ => "") s ↔ Shallow s) := by
  have hrun : ∃ s ∈ execAll (exec fun _ => "") (fun s a => decide (Balanced s a))
      (Sys.start : Sys Bool (Fin 1))
      ([.construct 0 "m" true true] ++ .lock true 0 false :: List.replicate 6 (.step true) ++
        .lock false 0 false :: List.replicate 2 (.step false) ++
        .lock true 0 false :: List.replicate 6 (.step true)),
      ∃ o ∈ s.objs 0, o.owner = some true ∧ o.nlock = 2 := by
    decide +kernel
  obtain ⟨s, hs, howner⟩ := hrun
  refine ⟨s, howner, owner_tracked_iff (fun _ => "") ?_⟩
  refine Reachable.run (.start rfl) (execAll_run ?_ hs)
  intro s a s' hok hexec
  exact ⟨of_decide_eq_true hok, .step hexec⟩

/-! A thread that goes on locking. -/

/-- `t` has the recursive mutex `m` just `d` times, and is at `p` in a `lock` of it, if any. -/
structure Deep (t : T) (m : M) (d : Nat) (p : Option Point) (s : Sys T M) : Prop where
  call : s.calls t = p.map fun p => ⟨m, false, true, p⟩
  obj : ∃ o, s.objs m = some o ∧ o.recursive = true ∧ o.depth = d ∧
    o.owner = if d = 0 then none else some t

omit [DecidableEq M] in
theorem tryLockImpl_deep {t : T} {o : Obj T} (hrec : o.recursive = true)
    (howner : o.owner = if o.depth = 0 then none else some t) (h : o.depth < maxDepth) :
    tryLockImpl t o = .ok (some { o with owner := some t, depth := o.depth + 1 }) := by
  unfold tryLockImpl
  by_cases hd : o.depth = 0
  · rw [if_pos hd] at howner
    simp [howner, hd]
  · rw [if_neg hd] at howner
    simp [howner, hrec, h]

theorem Deep.next (movedFrom : String → String) (d' : Nat) (p' : Option Point) {t : T} {m : M}
    {d : Nat} {p : Point} (h : Deep t m d (some p) s)
    (hstep : ∀ o, s.objs m = some o → o.recursive = true → o.depth = d →
      (o.owner = if d = 0 then none else some t) →
      ∃ s', stepCall s t ⟨m, false, true, p⟩ o = .ok s' ∧ Deep t m d' p' s') :
    ∃ s', (Balanced s (.step t) ∧ Moves movedFrom s (.step t) s') ∧ Deep t m d' p' s' := by
  obtain ⟨o, ho, hrec, hd, howner⟩ := h.obj
  obtain ⟨s', hs', hdeep⟩ := hstep o ho hrec hd howner
  have hcall : s.calls t = some ⟨m, false, true, p⟩ := h.call
  refine ⟨s', ⟨trivial, .step ?_⟩, hdeep⟩
  unfold Step
  simp only [exec, hcall, ho]
  exact hs'

theorem Deep.lock {movedFrom : String → String} {t : T} {m : M} {d : Nat}
    (h : Deep t m d none s) (hroom : d < maxDepth) :
    ∃ as s', Run (fun s a s' => Balanced s a ∧ Moves movedFrom s a s') s as s' ∧
      Deep t m (d + 1) none s' := by
  obtain ⟨s1, h1, d1⟩ : ∃ s1, (Balanced s (.lock t m false) ∧
      Moves movedFrom s (.lock t m false) s1) ∧ Deep t m d (some .lockTest) s1 := by
    obtain ⟨o, ho, hobj⟩ := h.obj
    have hcall : s.calls t = none := h.call
    refine ⟨s.goto t ⟨m, false, true, .lockTest⟩ .lockTest, ⟨trivial, .step ?_⟩, ?_, o, ho, hobj⟩
    · unfold Step
      simp [exec, enter, hcall, ho]
    · simp
  obtain ⟨s2, h2, d2⟩ := d1.next movedFrom d (some .tryImpl) <| by
    intro o ho hrec hd howner
    refine ⟨_, rfl, ?_, o, ho, hrec, hd, howner⟩
    simp [lockdepEnabled, hrec]
  obtain ⟨s3, h3, d3⟩ := d2.next movedFrom (d + 1) (some .lockedTest) <| by
    intro o ho hrec hd howner
    subst hd
    refine ⟨(s2.setObj m { o with owner := some t, depth := o.depth + 1 }).goto t
      ⟨m, false, true, .tryImpl⟩ .lockedTest, ?_, ?_, _, update_self _ _ _, hrec, rfl, rfl⟩
    · simp only [stepCall, tryLockImpl_deep hrec howner hroom]
    · simp
  obtain ⟨s4, h4, d4⟩ := d3.next movedFrom (d + 1) (some .postLockCheck) <| by
    intro o ho hrec hd howner
    refine ⟨_, rfl, ?_, o, ho, hrec, hd, howner⟩
    simp [lockdepEnabled, hrec]
  obtain ⟨s5, h5, d5⟩ := d4.next movedFrom (d + 1) (some .postLockOwner) <| by
    intro o ho hrec hd howner
    refine ⟨s4.goto t ⟨m, false, true, .postLockCheck⟩ .postLockOwner, ?_, ?_, o, ho, hrec, hd,
      howner⟩
    · simp [stepCall, check, hrec]
    · simp
  obtain ⟨s6, h6, d6⟩ := d5.next movedFrom (d + 1) (some .postLockCount) <| by
    intro o ho hrec hd howner
    refine ⟨_, rfl, ?_, _, update_self _ _ _, hrec, hd, howner⟩
    simp
  obtain ⟨s7, h7, d7⟩ := d6.next movedFrom (d + 1) none <| by
    intro o ho hrec hd howner
    refine ⟨_, rfl, ?_, _, update_self _ _ _, hrec, hd, howner⟩
    simp
  exact ⟨_, s7, .cons h1 (.cons h2 (.cons h3 (.cons h4 (.cons h5 (.cons h6 (.single h7)))))), d7⟩

theorem deep_reachable (movedFrom : String → String) (t : T) (m : M) {d : Nat} (h : d ≤ maxDepth) :
    ∃ s : Sys T M, Reachable (· = Sys.start) (fun s a s' => Balanced s a ∧ Moves movedFrom s a s') s ∧
      Deep t m d none s := by
  induction d with
  | zero =>
    refine ⟨Sys.start.setObj m (Obj.fresh "m" true true), ?_, ?_⟩
    · exact .step (.start rfl) (l := .construct m "m" true true) ⟨trivial, .step rfl⟩
    · exact ⟨rfl, _, update_self _ _ _, rfl, rfl, rfl⟩
  | succ d ih =>
    obtain ⟨s, hs, hdeep⟩ := ih (Nat.le_of_succ_le h)
    obtain ⟨as, s', hrun, hdeep'⟩ := hdeep.lock h
    exact ⟨s', hs.run hrun, hdeep'⟩

/-- A thread that has locked a recursive mutex 2^31 times is told that it has not locked it. -/
theorem owner_overflows : ∃ s : Sys Bool (Fin 1),
    Reachable (· = Sys.start) (fun s a s' => Balanced s a ∧ Moves (fun _ => "") s a s') s ∧
      s.calls true = none ∧
      (∃ o ∈ s.objs 0, o.owner = some true ∧ o.depth = 2 ^ 31 ∧ o.nlock = -2 ^ 31 ∧
        isLockedByMe true o o = false) ∧
      ¬ OwnerTracked (fun _ => "") s := by
  obtain ⟨s, hs, hdeep⟩ :=
    deep_reachable (M := Fin 1) (fun _ => "") true 0 (by decide : 2 ^ 31 ≤ maxDepth)
  obtain ⟨o, ho, _, hd, howner⟩ := hdeep.obj
  have hidle : s.on 0 true = none := Sys.on_idle hdeep.call 0
  obtain ⟨hinv, _⟩ := inv_of_balanced hs
  have howned : o.owner = some true := by simpa using howner
  have hn : o.nlock = -2 ^ 31 := by
    rw [(hinv.nlock ho howned (Or.inl hidle)).1, hd]
    decide
  refine ⟨s, hs, hdeep.call, ⟨o, ho, howned, hd, hn, ?_⟩, ?_⟩
  · simp [isLockedByMe, hn]
  · intro htracked
    have hlt := htracked.shallow hinv 0 o true ho howned (Or.inl hidle)
    omega

end Runs

end LockdepSpdk.Mutex
