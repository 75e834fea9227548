import LockdepSpdk.Lockdep.Registry

/-!
# References

A live class has a reference and a free id has none. A registration adds one
reference to its class, whatever else it does, and an unregistration takes one.
-/

namespace LockdepSpdk.Lockdep

set_option autoImplicit false

open Function Transition

variable {T : Type}

def refCount (l : State T) (k : Nat) : Int := (l.lockRefs k).getD 0

structure RefsInv (l : State T) : Prop where
  free : ∀ k, l.freeIds k = true → l.lockRefs k = none
  live : ∀ k, Registered l k → 1 ≤ refCount l k

/-- No id is lost: what is not free has a name. -/
def Tight (l : State T) : Prop := ∀ k, l.freeIds k = false → Registered l k

structure SameRegistry (l l' : State T) : Prop where
  lockNames : l'.lockNames = l.lockNames
  lockRefs : l'.lockRefs = l.lockRefs
  freeIds : l'.freeIds = l.freeIds

theorem SameRegistry.refl (l : State T) : SameRegistry l l := ⟨rfl, rfl, rfl⟩

theorem SameRegistry.refsInv {l l' : State T} (h : SameRegistry l l') (hl : RefsInv l) :
    RefsInv l' := by
  refine ⟨?_, ?_⟩
  · rw [h.freeIds, h.lockRefs]
    exact hl.free
  · unfold Registered refCount
    rw [h.lockNames, h.lockRefs]
    exact hl.live

theorem SameRegistry.tight {l l' : State T} (h : SameRegistry l l') (hl : Tight l) : Tight l' := by
  unfold Tight Registered
  rw [h.freeIds, h.lockNames]
  exact hl

theorem SameRegistry.refCount {l l' : State T} (h : SameRegistry l l') (k : Nat) :
    refCount l' k = refCount l k := by
  unfold Lockdep.refCount
  rw [h.lockRefs]

theorem refCount_set {l l' : State T} {k : Nat} {r : Option Int}
    (h : l'.lockRefs = update l.lockRefs k r) (j : Nat) :
    refCount l' j = if j = k then r.getD 0 else refCount l j := by
  unfold refCount
  rw [h]
  by_cases hj : j = k
  · rw [hj, update_self, if_pos rfl]
  · rw [update_of_ne hj, if_neg hj]

def OneMore (l l' : State T) (k : Nat) : Prop :=
  ∀ j, refCount l' j = refCount l j + if j = k then 1 else 0

theorem register_refs {l l' : State T} {name : String} {i : Int} (hl : RegistryInv l)
    (hr : RefsInv l) (h : registerLocked l name = .ok (l', i)) :
    RefsInv l' ∧ (Tight l → Tight l') ∧ ∃ k : Nat, i = k ∧ OneMore l l' k := by
  rcases registerLocked_cases hl.enabled h with ⟨k, hi, hname, _, rfl⟩ | ⟨k, hi, _, hf⟩
  · have hone : OneMore l (addRef l k) k := by
      intro j
      rw [refCount_set (l := l) (k := k) rfl j]
      by_cases hj : j = k
      · rw [if_pos hj, if_pos hj, hj]
        rfl
      · rw [if_neg hj, if_neg hj, Int.add_zero]
    have hused : l.freeIds k = false := by
      by_contra hfree
      have hnone := hl.free k (Bool.not_eq_false _ ▸ hfree)
      rw [(hl.name_iff name k).mp hname] at hnone
      cases hnone
    refine ⟨⟨?_, ?_⟩, fun ht => ht, k, hi, hone⟩
    · intro j hj
      have hjk : j ≠ k := by
        intro heq
        have hj' : l.freeIds j = true := hj
        rw [heq, hused] at hj'
        cases hj'
      exact (update_of_ne hjk _ _).trans (hr.free j hj)
    · intro j hj
      have h1 := hr.live j hj
      rw [hone j]
      split <;> omega
  · have hone : OneMore l l' k := by
      intro j
      rw [refCount_set hf.refs j]
      by_cases hj : j = k
      · rw [if_pos hj, if_pos hj, hj]
        rfl
      · rw [if_neg hj, if_neg hj, Int.add_zero]
    refine ⟨⟨?_, ?_⟩, ?_, k, hi, hone⟩
    · intro j hj
      rw [hf.freeIds] at hj
      have hjk : j ≠ k := by
        intro heq
        rw [heq, update_self] at hj
        cases hj
      rw [update_of_ne hjk] at hj
      rw [hf.refs, update_of_ne hjk]
      exact hr.free j hj
    · intro j hj
      rw [hone j]
      rcases hf.registered_iff.mp hj with heq | hreg
      · subst heq
        unfold refCount
        rw [hr.free j hf.free, if_pos rfl]
        exact Int.le_refl 1
      · have h1 := hr.live j hreg
        split <;> omega
    · intro ht j hj
      rw [hf.registered_iff]
      by_cases hjk : j = k
      · exact Or.inl hjk
      · rw [hf.freeIds, update_of_ne hjk] at hj
        exact Or.inr (ht j hj)

theorem ensure_refs {l l' : State T} {name : String} {id i : Int} (hl : RegistryInv l)
    (hr : RefsInv l) (h : ensureId l name id = .ok (l', i)) :
    RefsInv l' ∧ (Tight l → Tight l') ∧
      ((0 ≤ id ∧ i = id ∧ SameRegistry l l') ∨ (id < 0 ∧ ∃ k : Nat, i = k ∧ OneMore l l' k)) := by
  unfold ensureId at h
  split at h
  · next hneg =>
    obtain ⟨hr', ht, k, hi, hone⟩ := register_refs hl hr h
    exact ⟨hr', ht, Or.inr ⟨hneg, k, hi, hone⟩⟩
  · next hneg =>
    obtain ⟨rfl, rfl⟩ := ok_mk_inj h
    exact ⟨hr, fun ht => ht, Or.inl ⟨by omega, rfl, SameRegistry.refl _⟩⟩

theorem unregister_refs {l l' : State T} {k : Nat} (hl : RegistryInv l) (hr : RefsInv l)
    (h : lockdepUnregister l k = .ok l') :
    RefsInv l' ∧ (Tight l → Tight l') ∧
      ∀ j, refCount l' j = refCount l j - if j = k then 1 else 0 := by
  rcases lockdepUnregister_cases h with ⟨hneg, _⟩ | ⟨k', name, hk, hname, hcase⟩
  · omega
  · obtain rfl : k = k' := by omega
    have hlive : Registered l k := ⟨name, hname⟩
    rcases hcase with ⟨hone, rfl⟩ | ⟨hmore, rfl⟩
    · have hrefs : ∀ j, refCount (freeClass l name k) j = refCount l j - if j = k then 1 else 0 := by
        intro j
        rw [refCount_set (l := l) (k := k) rfl j]
        by_cases hj : j = k
        · have hlast : refCount l k = 1 := hone
          rw [if_pos hj, if_pos hj, hj, hlast]
          rfl
        · rw [if_neg hj, if_neg hj, Int.sub_zero]
      refine ⟨⟨?_, ?_⟩, ?_, hrefs⟩
      · intro j hj
        change update l.lockRefs k none j = none
        by_cases hjk : j = k
        · rw [hjk, update_self]
        · rw [freeClass_freeIds, update_of_ne hjk] at hj
          rw [update_of_ne hjk]
          exact hr.free j hj
      · intro j hj
        obtain ⟨hjk, hreg⟩ := freeClass_registered.mp hj
        rw [hrefs j, if_neg hjk]
        have h1 := hr.live j hreg
        omega
      · intro ht j hj
        have hjk : j ≠ k := by
          intro heq
          rw [freeClass_freeIds, heq, update_self] at hj
          cases hj
        rw [freeClass_freeIds, update_of_ne hjk] at hj
        exact freeClass_registered.mpr ⟨hjk, ht j hj⟩
    · have hrefs : ∀ j, refCount (setRefs l k ((l.lockRefs k).getD 0 - 1)) j =
          refCount l j - if j = k then 1 else 0 := by
        intro j
        rw [refCount_set (l := l) (k := k) rfl j]
        by_cases hj : j = k
        · rw [if_pos hj, if_pos hj, hj]
          rfl
        · rw [if_neg hj, if_neg hj, Int.sub_zero]
      refine ⟨⟨?_, ?_⟩, fun ht => ht, hrefs⟩
      · intro j hj
        have hjk : j ≠ k := by
          intro heq
          have hnone := hl.free j hj
          rw [heq, hname] at hnone
          cases hnone
        exact (update_of_ne hjk _ _).trans (hr.free j hj)
      · intro j hj
        rw [hrefs j]
        have h1 := hr.live j hj
        split
        · next hjk =>
          subst hjk
          change 1 ≤ refCount l j - 1
          have h2 : refCount l j ≠ 1 := hmore
          omega
        · omega

end LockdepSpdk.Lockdep
