import LockdepSpdk.Lockdep.Refs
import LockdepSpdk.Mutex.Owner
import Mathlib.Data.Set.Card

/-!
# Who uses a class

A mutex uses a class when its `id` is that of the class, or when a thread in a call
on it carries a copy that is. While lockdep is on, a class has at least as many
references as users, whatever copies of `id` are stale.
-/

namespace LockdepSpdk.Mutex

set_option autoImplicit false

open Function Lockdep Transition

section AtMost
variable {M : Type}

def AtMost (U : Set M) (n : Int) : Prop := U.Finite ∧ (U.ncard : Int) ≤ n

theorem AtMost.mono {U U' : Set M} {n n' : Int} (h : AtMost U n) (hsub : U' ⊆ U) (hle : n ≤ n') :
    AtMost U' n' := by
  refine ⟨h.1.subset hsub, ?_⟩
  have hcard := Set.ncard_le_ncard hsub h.1
  have hn := h.2
  omega

theorem AtMost.insert {U U' : Set M} {n : Int} {m : M} (h : AtMost U n)
    (hsub : ∀ x ∈ U', x ∈ U ∨ x = m) : AtMost U' (n + 1) := by
  have hsub' : U' ⊆ Insert.insert m U := by
    intro x hx
    rcases hsub x hx with hU | heq
    · exact Set.mem_insert_of_mem m hU
    · exact heq ▸ Set.mem_insert m U
  refine ⟨(h.1.insert m).subset hsub', ?_⟩
  have hcard := Set.ncard_le_ncard hsub' (h.1.insert m)
  have hins := Set.ncard_insert_le m U
  have hn := h.2
  omega

theorem AtMost.remove {U U' : Set M} {n : Int} {m : M} (h : AtMost U n) (hm : m ∈ U)
    (hsub : ∀ x ∈ U', x ∈ U ∧ x ≠ m) : AtMost U' (n - 1) := by
  have hfin : U'.Finite := h.1.subset fun x hx => (hsub x hx).1
  have hnot : m ∉ U' := fun hx => (hsub m hx).2 rfl
  have hins : Insert.insert m U' ⊆ U := by
    intro x hx
    rcases Set.mem_insert_iff.mp hx with heq | hx
    · exact heq ▸ hm
    · exact (hsub x hx).1
  refine ⟨hfin, ?_⟩
  have hcard := Set.ncard_le_ncard hins h.1
  rw [Set.ncard_insert_of_notMem hnot hfin] at hcard
  have hn := h.2
  omega

theorem AtMost.none {U : Set M} {n : Int} (h : AtMost U n) (hn : n ≤ 0) (m : M) : m ∉ U := by
  intro hm
  have hpos := (Set.ncard_pos h.1).mpr ⟨m, hm⟩
  have hle := h.2
  omega

theorem AtMost.eq {U : Set M} {n : Int} (h : AtMost U n) (hn : n ≤ 1) {m m' : M} (hm : m ∈ U)
    (hm' : m' ∈ U) : m = m' := by
  by_contra hne
  have h1 : AtMost {x | x ∈ U ∧ x ≠ m} (n - 1) := h.remove hm fun x hx => hx
  exact h1.none (by omega) m' ⟨hm', Ne.symm hne⟩

end AtMost

section Users
variable {T M : Type} [DecidableEq M]

/-- A lockdep call that is about to register, since its copy of `id` is -1. -/
@[simp]
def Point.registers : Point → Bool
  | .willLockBody i => i == -1
  | .lockedBody i => i == -1
  | _ => false

@[simp]
def Point.resets : Point → Bool
  | .willLockStore i => i == -1
  | .lockedStore i => i == -1
  | .willUnlockStore i => i == -1
  | _ => false

def Sys.copy (s : Sys T M) (m : M) (t : T) : Option Int := (s.on m t).bind Point.copy

def Sys.users (s : Sys T M) (k : Nat) : Set M :=
  {m | ∃ o, s.objs m = some o ∧ (o.id = k ∨ ∃ t, s.copy m t = some (k : Int))}

/-- Lockdep is on. Ids and their copies are those of the class or still -1. -/
structure UserInv (s : Sys T M) : Prop where
  registry : RegistryInv s.lockdep
  refs : RefsInv s.lockdep
  tight : Tight s.lockdep
  idOk : ∀ m o, s.objs m = some o → IdOk s.lockdep o o.id
  copyOk : ∀ m o t i, s.objs m = some o → s.copy m t = some i → IdOk s.lockdep o i
  count : ∀ k, AtMost (s.users k) (refCount s.lockdep k)

end Users

section Lands
variable {T M : Type}

/-- Where a step of a thread leaves the ids of its mutex and the references: new values of `id` are
old ones, or the step was one with a copy that is -1, and registered. -/
structure Lands (l : State T) (o : Obj T) (p₀ : Point) (l' : State T) (o' : Obj T)
    (p : Option Point) : Prop where
  registry : RegistryInv l'
  refs : RefsInv l'
  tight : Tight l → Tight l'
  grows : Grows l l'
  cls : o'.cls = o.cls
  group : o'.group = o.group
  lockdep : o'.lockdep = o.lockdep
  idOk : IdOk l' o' o'.id
  copyOk : ∀ i, p.bind Point.copy = some i → IdOk l' o' i
  charge : (p₀.registers = false ∧ (∀ k, refCount l' k = refCount l k) ∧
      ∀ k : Nat, o'.id = k ∨ p.bind Point.copy = some (k : Int) →
        o.id = k ∨ p₀.copy = some (k : Int)) ∨
    (p₀.registers = true ∧ o' = o ∧
      ∃ k : Nat, p.bind Point.copy = some (k : Int) ∧ OneMore l l' k)
  reset : p₀.resets = true → o'.id = -1 ∧ p.bind Point.copy = none
  keeps : ∀ k : Nat, o.id = k ∨ p₀.copy = some (k : Int) →
    o'.id = k ∨ p.bind Point.copy = some (k : Int) ∨ p₀.resets = true

variable {l l' : State T} {o : Obj T} {id i : Int}

theorem IdOk.neg (h : IdOk l o id) (hneg : id < 0) : id = -1 := by
  rcases h with ⟨hid, _⟩ | ⟨k, hk, _⟩
  · exact hid
  · omega

theorem IdOk.willLock_any {t : T} {recursive : Bool} (hl : RegistryInv l) (hid : IdOk l o id)
    (h : lockdepWillLock l t o.group id recursive = .ok (l', i)) : Grows l l' ∧ IdOk l' o i := by
  obtain ⟨hgrow, _, k, hi, hk, _⟩ := hid.willLock_extended hl h
  exact ⟨hgrow, Or.inr ⟨k, hi, hk⟩⟩

theorem Lands.still {o' : Obj T} {p₀ : Point} {p : Option Point} (hl : RegistryInv l)
    (hr : RefsInv l) (hcls : o'.cls = o.cls) (hgroup : o'.group = o.group)
    (hld : o'.lockdep = o.lockdep) (hid : IdOk l o o'.id)
    (hcopy : ∀ i, p.bind Point.copy = some i → IdOk l o i)
    (hreg : p₀.registers = false)
    (hnew : ∀ k : Nat, o'.id = k ∨ p.bind Point.copy = some (k : Int) →
      o.id = k ∨ p₀.copy = some (k : Int))
    (hreset : p₀.resets = true → o'.id = -1 ∧ p.bind Point.copy = none)
    (hkeep : ∀ k : Nat, o.id = k ∨ p₀.copy = some (k : Int) →
      o'.id = k ∨ p.bind Point.copy = some (k : Int) ∨ p₀.resets = true) :
    Lands l o p₀ l o' p where
  registry := hl
  refs := hr
  tight := fun ht => ht
  grows := Grows.refl l
  cls := hcls
  group := hgroup
  lockdep := hld
  idOk := hid.of_same hcls hgroup
  copyOk := fun i hi => (hcopy i hi).of_same hcls hgroup
  charge := Or.inl ⟨hreg, fun _ => rfl, hnew⟩
  reset := hreset
  keeps := hkeep

theorem Point.registers_none {p : Point} (h : p.copy = none) : p.registers = false := by
  cases p <;> first | rfl | cases h

theorem Point.resets_none {p : Point} (h : p.copy = none) : p.resets = false := by
  cases p <;> first | rfl | cases h

theorem Lands.call {l1 : State T} {p₀ p : Point} (hl : RegistryInv l) (hr : RefsInv l)
    (hid : IdOk l o o.id) (hp₀ : p₀.copy = some id) (hreg : p₀.registers = (id == -1))
    (hreset : p₀.resets = false) (hp : p.copy = some i) (hok : IdOk l o id)
    (hens : ensureId l o.group id = .ok (l1, i)) (hsame : SameRegistry l1 l')
    (hl' : RegistryInv l') (hgrow : Grows l l') (hi : IdOk l' o i) :
    Lands l o p₀ l' o (some p) := by
  obtain ⟨hr1, ht, hcase⟩ := ensure_refs hl hr hens
  refine ⟨hl', hsame.refsInv hr1, fun h => hsame.tight (ht h), hgrow, rfl, rfl, rfl, hid.grow hgrow,
    ?_, ?_, by rw [hreset]; nofun, ?_⟩
  · intro j hj
    have hj' : p.copy = some j := hj
    rw [hp] at hj'
    obtain rfl := Option.some.inj hj'
    exact hi
  · rcases hcase with ⟨hnn, heq, hsame1⟩ | ⟨hneg, k, hik, hone⟩
    · refine Or.inl ⟨?_, fun k => ?_, fun k hk => ?_⟩
      · rw [hreg, beq_eq_false_iff_ne]
        omega
      · rw [hsame.refCount, hsame1.refCount]
      · rcases hk with hk | hk
        · exact Or.inl hk
        · have hk' : p.copy = some (k : Int) := hk
          rw [hp, heq] at hk'
          rw [hp₀]
          exact Or.inr hk'
    · refine Or.inr ⟨by rw [hreg, hok.neg hneg]; rfl, rfl, k, by rw [← hik]; exact hp, fun j => ?_⟩
      rw [hsame.refCount]
      exact hone j
  · intro k hk
    rcases hk with hk | hk
    · exact Or.inl hk
    · rw [hp₀] at hk
      obtain rfl := Option.some.inj hk
      rcases hcase with ⟨_, heq, _⟩ | ⟨hneg, _⟩
      · exact Or.inr (Or.inl (hp.trans (congrArg some heq)))
      · omega

theorem Takes.lands [DecidableEq T] {t : T} {f : Frame M} {o' : Obj T} {p₀ : Point} {p : Option Point}
    (htakes : Takes l t f o p₀ l' o' p) (hl : RegistryInv l) (hr : RefsInv l)
    (hid : IdOk l o o.id) (hcopy : ∀ i, p₀.copy = some i → IdOk l o i) :
    Lands l o p₀ l' o' p := by
  -- steps that touch neither lockdep nor `id`, to a point without a copy
  have plain : ∀ {o' : Obj T} {p : Option Point}, o'.cls = o.cls → o'.group = o.group →
      o'.lockdep = o.lockdep → o'.id = o.id → p₀.copy = none → p.bind Point.copy = none →
      Lands l o p₀ l o' p := by
    intro o' p hcls hgroup hld hio hp₀ hp
    apply Lands.still hl hr hcls hgroup hld (by rw [hio]; exact hid)
    · rw [hp]
      nofun
    · exact Point.registers_none hp₀
    · rw [hp, hio]
      intro k hk
      rcases hk with hk | hk
      · exact Or.inl hk
      · cases hk
    · rw [Point.resets_none hp₀]
      nofun
    · rw [hp₀, hio]
      intro k hk
      rcases hk with hk | hk
      · exact Or.inl hk
      · cases hk
  have read : ∀ {p : Point}, p₀.copy = none → p.copy = some o.id →
      Lands l o p₀ l o (some p) := by
    intro p hp₀ hp
    have hp' : (some p).bind Point.copy = some o.id := hp
    apply Lands.still hl hr rfl rfl rfl hid
    · intro i hi
      rw [hp'] at hi
      obtain rfl := Option.some.inj hi
      exact hid
    · exact Point.registers_none hp₀
    · intro k hk
      rw [hp'] at hk
      rcases hk with hk | hk
      · exact Or.inl hk
      · exact Or.inl (Option.some.inj hk)
    · rw [Point.resets_none hp₀]
      nofun
    · rw [hp₀]
      intro k hk
      rcases hk with hk | hk
      · exact Or.inl hk
      · cases hk
  have store : ∀ {i : Int} {p : Point}, p₀.copy = some i → p₀.registers = false →
      p₀.resets = (i == -1) → p.copy = none → Lands l o p₀ l { o with id := i } (some p) := by
    intro i p hi hreg hreset hp
    have hp' : (some p).bind Point.copy = none := hp
    apply Lands.still hl hr
    · exact rfl
    · exact rfl
    · exact rfl
    · exact hcopy i hi
    · rw [hp']
      nofun
    · exact hreg
    · intro k hk
      rw [hp'] at hk
      rcases hk with hk | hk
      · rw [hi]
        exact Or.inr (congrArg some hk)
      · cases hk
    · rw [hreset]
      exact fun heq => ⟨eq_of_beq heq, hp'⟩
    · intro k hk
      rcases hcopy i hi with ⟨hneg, _⟩ | ⟨j, hj, hcls⟩
      · subst hneg
        exact Or.inr (Or.inr hreset)
      · refine Or.inl ?_
        rcases hk with hk | hk
        · rcases hid with ⟨hneg, _⟩ | ⟨j', hj', hcls'⟩
          · omega
          · rw [hcls] at hcls'
            obtain rfl := Option.some.inj hcls'
            change i = k
            omega
        · rw [hi] at hk
          exact Option.some.inj hk
  cases htakes with
  | lockTest => exact plain rfl rfl rfl rfl rfl (by split <;> rfl)
  | willLockRead => exact read rfl rfl
  | willLockBody hwl =>
    have hok := hcopy _ rfl
    obtain ⟨hgrow, hi⟩ := hok.willLock_any hl hwl
    obtain ⟨l1, g, hens, _, rfl⟩ := lockdepWillLock_cases hl.enabled hwl
    exact Lands.call hl hr hid rfl rfl rfl rfl hok hens ⟨rfl, rfl, rfl⟩
      (hl.willLock (hok.lt hl) hwl) hgrow hi
  | willLockStore i => exact store rfl rfl rfl rfl
  | tryImpl hacq => cases hacq <;> exact plain rfl rfl rfl rfl rfl rfl
  | busy => exact plain rfl rfl rfl rfl rfl (by split <;> rfl)
  | lockImpl hacq => cases hacq <;> exact plain rfl rfl rfl rfl rfl rfl
  | throws => exact plain rfl rfl rfl rfl rfl rfl
  | full => exact plain rfl rfl rfl rfl rfl rfl
  | lockedTest => exact plain rfl rfl rfl rfl rfl (by split <;> rfl)
  | lockedRead => exact read rfl rfl
  | lockedBody hlo =>
    have hok := hcopy _ rfl
    obtain ⟨hgrow, _, hi, _, _⟩ := hok.locked hl hlo
    obtain ⟨l1, hens, rfl⟩ := lockdepLocked_cases hl.enabled hlo
    exact Lands.call hl hr hid rfl rfl rfl rfl hok hens ⟨rfl, rfl, rfl⟩
      (hl.locked (hok.lt hl) hlo) hgrow hi
  | lockedStore i => exact store rfl rfl rfl rfl
  | postLockCheck => exact plain rfl rfl rfl rfl rfl rfl
  | postLockOwner => exact plain rfl rfl rfl rfl rfl rfl
  | postLockCount => exact plain rfl rfl rfl rfl rfl rfl
  | preUnlockCheck => exact plain rfl rfl rfl rfl rfl rfl
  | preUnlockOwner => exact plain rfl rfl rfl rfl rfl rfl
  | preUnlockTest => exact plain rfl rfl rfl rfl rfl (by split <;> rfl)
  | preUnlockClear => exact plain rfl rfl rfl rfl rfl rfl
  | preUnlockCount => exact plain rfl rfl rfl rfl rfl rfl
  | unlockTest => exact plain rfl rfl rfl rfl rfl (by split <;> rfl)
  | willUnlockRead => exact read rfl rfl
  | @willUnlockBody i i' _ hwu =>
    have hok := hcopy _ rfl
    obtain ⟨hgrow, _, hi, _⟩ := hok.willUnlock hl hwu
    have hsame : SameRegistry l l' ∧ i' = i := by
      obtain ⟨heq, ⟨_, rfl⟩ | ⟨_, rfl⟩⟩ := lockdepWillUnlock_cases hl.enabled hwu
      · exact ⟨SameRegistry.refl _, heq⟩
      · exact ⟨⟨rfl, rfl, rfl⟩, heq⟩
    obtain ⟨hsame, rfl⟩ := hsame
    refine ⟨hl.willUnlock hwu, hsame.refsInv hr, hsame.tight, hgrow, rfl, rfl, rfl, hid.grow hgrow,
      ?_, Or.inl ⟨rfl, hsame.refCount, fun k hk => hk⟩, nofun, fun k hk => hk.imp_right Or.inl⟩
    intro j hj
    obtain rfl := Option.some.inj hj
    exact hi
  | willUnlockStore i => exact store rfl rfl rfl rfl
  | unlockImpl hrel => cases hrel <;> exact plain rfl rfl rfl rfl rfl rfl

end Lands

section Runs
variable {T M : Type} [DecidableEq M] {s : Sys T M}

theorem copy_eq_none {m : M} {t : T} (h : s.on m t = none) : s.copy m t = none := by
  unfold Sys.copy
  rw [h]
  exact rfl

theorem after_users [DecidableEq T] {t : T} {f : Frame M} {l : State T} {o o' : Obj T}
    {p : Option Point} {k : Nat} {m : M} (hf : s.calls t = some f) (ho : s.objs f.obj = some o)
    (h : m ∈ (s.after t f l o' p).users k) :
    m ∈ s.users k ∨ (m = f.obj ∧ (o'.id = k ∨ p.bind Point.copy = some (k : Int))) := by
  obtain ⟨o1, ho1, huse⟩ := h
  change update s.objs f.obj (some o') m = some o1 at ho1
  unfold Sys.copy at huse
  by_cases hm : m = f.obj
  · subst hm
    rw [update_self] at ho1
    obtain rfl := Option.some.inj ho1
    rw [after_on_self] at huse
    rcases huse with hid | ⟨q, hq⟩
    · exact Or.inr ⟨rfl, Or.inl hid⟩
    · by_cases hqt : q = t
      · rw [hqt, update_self] at hq
        exact Or.inr ⟨rfl, Or.inr hq⟩
      · rw [update_of_ne hqt] at hq
        exact Or.inl ⟨o, ho, Or.inr ⟨q, hq⟩⟩
  · rw [update_of_ne hm] at ho1
    rw [after_on_ne hf hm] at huse
    exact Or.inl ⟨o1, ho1, huse⟩

theorem UserInv.after [DecidableEq T] {t : T} {f : Frame M} {o o' : Obj T} {l : State T}
    {p : Option Point} (h : UserInv s) (hf : s.calls t = some f) (ho : s.objs f.obj = some o)
    (hlands : Lands s.lockdep o f.point l o' p) : UserInv (s.after t f l o' p) := by
  have hon : s.copy f.obj t = f.point.copy := by
    unfold Sys.copy
    rw [Sys.on_self hf]
    exact rfl
  refine ⟨hlands.registry, hlands.refs, hlands.tight h.tight, ?_, ?_, ?_⟩
  · intro m o1 ho1
    change update s.objs f.obj (some o') m = some o1 at ho1
    by_cases hm : m = f.obj
    · subst hm
      rw [update_self] at ho1
      obtain rfl := Option.some.inj ho1
      exact hlands.idOk
    · rw [update_of_ne hm] at ho1
      exact (h.idOk m o1 ho1).grow hlands.grows
  · intro m o1 q i ho1 hi
    change update s.objs f.obj (some o') m = some o1 at ho1
    unfold Sys.copy at hi
    by_cases hm : m = f.obj
    · subst hm
      rw [update_self] at ho1
      obtain rfl := Option.some.inj ho1
      rw [after_on_self] at hi
      by_cases hq : q = t
      · rw [hq, update_self] at hi
        exact hlands.copyOk i hi
      · rw [update_of_ne hq] at hi
        exact ((h.copyOk _ o q i ho hi).grow hlands.grows).of_same hlands.cls hlands.group
    · rw [update_of_ne hm] at ho1
      rw [after_on_ne hf hm] at hi
      exact (h.copyOk m o1 q i ho1 hi).grow hlands.grows
  · intro k
    rcases hlands.charge with ⟨_, hrefs, hnew⟩ | ⟨_, heq, k₀, hk₀, hone⟩
    · apply (h.count k).mono
      · intro m hm
        rcases after_users hf ho hm with hm | ⟨hm, hcase⟩
        · exact hm
        · refine ⟨o, hm ▸ ho, ?_⟩
          rcases hnew k hcase with hid | hcopy
          · exact Or.inl hid
          · exact Or.inr ⟨t, by rw [hm, hon, hcopy]⟩
      · exact (hrefs k).ge
    · have hother : ∀ m ∈ (s.after t f l o' p).users k, m ∈ s.users k ∨ (m = f.obj ∧ k = k₀) := by
        intro m hm
        rcases after_users hf ho hm with hm | ⟨hm, hid | hcopy⟩
        · exact Or.inl hm
        · exact Or.inl ⟨o, hm ▸ ho, Or.inl (heq ▸ hid)⟩
        · rw [hk₀] at hcopy
          exact Or.inr ⟨hm, by have hi := Option.some.inj hcopy; omega⟩
      change AtMost _ (refCount l k)
      rw [hone k]
      by_cases hk : k = k₀
      · rw [if_pos hk]
        exact (h.count k).insert fun m hm => (hother m hm).imp_right And.left
      · rw [if_neg hk, Int.add_zero]
        apply (h.count k).mono _ (Int.le_refl _)
        intro m hm
        rcases hother m hm with hm | ⟨_, heq⟩
        · exact hm
        · exact absurd heq hk

theorem joined_users {m : M} {o : Obj T} {l : State T} {k : Nat} {x : M} (hinv : OwnerInv s)
    (hm : s.objs m = none) : x ∈ (⟨l, update s.objs m (some o), s.calls⟩ : Sys T M).users k ↔
      x ∈ s.users k ∨ (x = m ∧ o.id = k) := by
  constructor
  · rintro ⟨o1, ho1, huse⟩
    rcases joined_obj ho1 with ⟨rfl, rfl⟩ | ⟨_, ho1⟩
    · rcases huse with hid | ⟨t, ht⟩
      · exact Or.inr ⟨rfl, hid⟩
      · change s.copy x t = some (k : Int) at ht
        rw [copy_eq_none (hinv.on_none hm t)] at ht
        cases ht
    · exact Or.inl ⟨o1, ho1, huse⟩
  · rintro (⟨o1, ho1, huse⟩ | ⟨rfl, hid⟩)
    · have hne : x ≠ m := by
        intro heq
        rw [heq, hm] at ho1
        cases ho1
      exact ⟨o1, (update_of_ne hne _ _).trans ho1, huse⟩
    · exact ⟨o, update_self _ _ _, Or.inl hid⟩

theorem UserInv.join {m : M} {o : Obj T} {l : State T} (h : UserInv s) (hinv : OwnerInv s)
    (hm : s.objs m = none) (hl : RegistryInv l) (hr : RefsInv l) (ht : Tight l)
    (hgrow : Grows s.lockdep l) (hid : IdOk l o o.id)
    (hcharge : (o.id = -1 ∧ ∀ k, refCount l k = refCount s.lockdep k) ∨
      ∃ k : Nat, o.id = k ∧ OneMore s.lockdep l k) :
    UserInv ⟨l, update s.objs m (some o), s.calls⟩ := by
  have husers := fun k x => (joined_users (l := l) (o := o) (k := k) (x := x) hinv hm).mp
  refine ⟨hl, hr, ht, ?_, ?_, ?_⟩
  · intro m1 o1 h1
    rcases joined_obj h1 with ⟨_, rfl⟩ | ⟨_, h1⟩
    · exact hid
    · exact (h.idOk m1 o1 h1).grow hgrow
  · intro m1 o1 t i h1 hi
    change s.copy m1 t = some i at hi
    rcases joined_obj h1 with ⟨rfl, _⟩ | ⟨_, h1⟩
    · rw [copy_eq_none (hinv.on_none hm t)] at hi
      cases hi
    · exact (h.copyOk m1 o1 t i h1 hi).grow hgrow
  · intro k
    change AtMost _ (refCount l k)
    rcases hcharge with ⟨hneg, hrefs⟩ | ⟨k₀, hk₀, hone⟩
    · apply (h.count k).mono _ (hrefs k).ge
      intro x hx
      rcases husers k x hx with hx | ⟨_, hid⟩
      · exact hx
      · omega
    · rw [hone k]
      by_cases hk : k = k₀
      · rw [if_pos hk]
        exact (h.count k).insert fun x hx => (husers k x hx).imp_right And.left
      · rw [if_neg hk, Int.add_zero]
        apply (h.count k).mono _ (Int.le_refl _)
        intro x hx
        rcases husers k x hx with hx | ⟨_, hid⟩
        · exact hx
        · omega

theorem gone_users {m : M} {l : State T} {k : Nat} {x : M} :
    x ∈ (⟨l, update s.objs m none, s.calls⟩ : Sys T M).users k ↔ x ∈ s.users k ∧ x ≠ m := by
  constructor
  · rintro ⟨o1, ho1, huse⟩
    obtain ⟨hne, ho1⟩ := left_obj ho1
    exact ⟨⟨o1, ho1, huse⟩, hne⟩
  · rintro ⟨⟨o1, ho1, huse⟩, hne⟩
    exact ⟨o1, (update_of_ne hne _ _).trans ho1, huse⟩

theorem UserInv.registered {m : M} {k : Nat} (h : UserInv s) (hm : m ∈ s.users k) :
    ∃ o, s.objs m = some o ∧ s.lockdep.lockIds o.cls = some k := by
  obtain ⟨o, ho, hid | ⟨t, ht⟩⟩ := hm
  · rcases h.idOk m o ho with ⟨hneg, _⟩ | ⟨j, hj, hcls⟩
    · omega
    · obtain rfl : j = k := by omega
      exact ⟨o, ho, hcls⟩
  · rcases h.copyOk m o t k ho ht with ⟨hneg, _⟩ | ⟨j, hj, hcls⟩
    · omega
    · obtain rfl : j = k := by omega
      exact ⟨o, ho, hcls⟩

theorem UserInv.leave {m : M} {o : Obj T} {l : State T} (h : UserInv s) (hm : s.objs m = some o)
    (hun : lockdepUnregister s.lockdep o.id = .ok l) :
    UserInv ⟨l, update s.objs m none, s.calls⟩ := by
  have hl := h.registry.unregister hun
  rcases h.idOk m o hm with ⟨hneg, _⟩ | ⟨k, hk, hcls⟩
  · -- it was never registered
    have hsame : l = s.lockdep := by
      rw [hneg] at hun
      exact (Except.ok.inj hun).symm
    subst hsame
    refine ⟨hl, h.refs, h.tight, ?_, ?_, ?_⟩
    · intro m1 o1 h1
      exact h.idOk m1 o1 (left_obj h1).2
    · intro m1 o1 t i h1 hi
      exact h.copyOk m1 o1 t i (left_obj h1).2 hi
    · intro j
      exact (h.count j).mono (fun x hx => (gone_users.mp hx).1) (Int.le_refl _)
  · rw [hk] at hun
    obtain ⟨hr, ht, hrefs⟩ := unregister_refs h.registry h.refs hun
    have hmem : m ∈ s.users k := ⟨o, hm, Or.inl hk⟩
    -- whoever else has the id keeps the class alive
    have keep : ∀ m1 o1 i, m1 ≠ m → s.objs m1 = some o1 → IdOk s.lockdep o1 i →
        (∀ j : Nat, i = j → m1 ∈ s.users j) → IdOk l o1 i := by
      intro m1 o1 i hne h1 hi huses
      rcases hi with hneg | ⟨j, hj, hcls1⟩
      · exact Or.inl hneg
      · refine Or.inr ⟨j, hj, ?_⟩
        rcases lockdepUnregister_cases hun with ⟨hneg, _⟩ | ⟨k', name, hk', hname, hcase⟩
        · omega
        · obtain rfl : k = k' := by omega
          rcases hcase with ⟨hone, rfl⟩ | ⟨_, rfl⟩
          · rw [freeClass_lockIds]
            have hne' : o1.cls ≠ name := by
              intro heq
              have h2 := (h.registry.name_iff name k).mpr hname
              rw [← heq, hcls1] at h2
              obtain rfl := Option.some.inj h2
              have hle : refCount s.lockdep j ≤ 1 := by
                unfold refCount
                omega
              exact hne ((h.count j).eq hle (huses j hj) hmem)
            rw [update_of_ne hne']
            exact hcls1
          · exact hcls1
    refine ⟨hl, hr, ht h.tight, ?_, ?_, ?_⟩
    · intro m1 o1 h1
      obtain ⟨hne, h1⟩ := left_obj h1
      exact keep m1 o1 o1.id hne h1 (h.idOk m1 o1 h1) fun j hj => ⟨o1, h1, Or.inl hj⟩
    · intro m1 o1 t i h1 hi
      obtain ⟨hne, h1⟩ := left_obj h1
      change s.copy m1 t = some i at hi
      exact keep m1 o1 i hne h1 (h.copyOk m1 o1 t i h1 hi) fun j hj =>
        ⟨o1, h1, Or.inr ⟨t, hj ▸ hi⟩⟩
    · intro j
      change AtMost _ (refCount l j)
      rw [hrefs j]
      by_cases hj : j = k
      · subst hj
        rw [if_pos rfl]
        exact (h.count j).remove hmem fun x hx => gone_users.mp hx
      · rw [if_neg hj, Int.sub_zero]
        exact (h.count j).mono (fun x hx => (gone_users.mp hx).1) (Int.le_refl _)

theorem UserInv.forget {m : M} (h : UserInv s) :
    UserInv ⟨s.lockdep, update s.objs m none, s.calls⟩ := by
  refine ⟨h.registry, h.refs, h.tight, ?_, ?_, ?_⟩
  · intro m1 o1 h1
    exact h.idOk m1 o1 (left_obj h1).2
  · intro m1 o1 t i h1 hi
    exact h.copyOk m1 o1 t i (left_obj h1).2 hi
  · intro k
    exact (h.count k).mono (fun x hx => (gone_users.mp hx).1) (Int.le_refl _)

theorem Obj.fresh_idOk {l : State T} (group : String) (ld recursive : Bool) :
    IdOk l (Obj.fresh group ld recursive : Obj T) (Obj.fresh group ld recursive : Obj T).id :=
  Or.inl ⟨rfl, rfl⟩

variable [DecidableEq T]

theorem enter_copy {t : T} {f : Frame M} {a : Act T M} (hf : Enters t f a)
    (ht : s.calls t = none) (m : M) (q : T) :
    (⟨s.lockdep, s.objs, update s.calls t (some f)⟩ : Sys T M).copy m q = s.copy m q := by
  apply enter_reads (fun p => p.bind Point.copy) ht
  exact hf.point.2.2.2.2

theorem UserInv.step {movedFrom : String → String} {s' : Sys T M} {a : Act T M} (h : UserInv s)
    (hinv : OwnerInv s) (hon : a ≠ .globalDestroy) (hmoves : Moves movedFrom s a s') :
    UserInv s' := by
  rcases hmoves.cases with ⟨_, rfl⟩ | ⟨heq, _⟩ | ⟨m, group, ld, recursive, rfl⟩ | ⟨m, rfl⟩ |
    ⟨t, f, hf, ht, _, rfl⟩ | ⟨t, rfl⟩
  · have hsame : lockdepGlobalInit s.lockdep = s.lockdep := by
      unfold lockdepGlobalInit
      rw [if_pos h.registry.enabled]
    rw [hsame]
    exact h
  · exact absurd heq hon
  · obtain ⟨hm, ⟨_, _, l, i, hreg, rfl⟩ | ⟨_, rfl⟩⟩ := construct_cases hmoves
    · obtain ⟨hr, ht, k, hk, hone⟩ := register_refs h.registry h.refs hreg
      obtain ⟨hgrow, _, j, hj, hcls⟩ := register_grows h.registry hreg
      exact h.join hinv hm (h.registry.register hreg) hr (ht h.tight) hgrow
        (Or.inr ⟨j, hj, hcls⟩) (Or.inr ⟨k, hk, hone⟩)
    · exact h.join hinv hm h.registry h.refs h.tight (Grows.refl _) (Obj.fresh_idOk _ _ _)
        (Or.inl ⟨rfl, fun _ => rfl⟩)
  · obtain ⟨o, hm, _, _, ⟨_, _, l, hun, rfl⟩ | ⟨_, rfl⟩⟩ := destroy_cases hmoves
    · exact h.leave hm hun
    · exact h.forget
  · have hcopy := enter_copy hf ht
    refine ⟨h.registry, h.refs, h.tight, h.idOk, ?_, ?_⟩
    · intro m o q i ho hi
      rw [hcopy] at hi
      exact h.copyOk m o q i ho hi
    · intro k
      apply (h.count k).mono _ (Int.le_refl _)
      intro m hm
      obtain ⟨o, ho, huse⟩ := hm
      refine ⟨o, ho, huse.imp_right ?_⟩
      rintro ⟨q, hq⟩
      exact ⟨q, hcopy m q ▸ hq⟩
  · obtain ⟨f, o, l, o', p, hf, ho, htakes, rfl⟩ := hmoves.takes
    apply h.after hf ho
    apply htakes.lands h.registry h.refs (h.idOk _ o ho)
    intro i hi
    apply h.copyOk f.obj o t i ho
    unfold Sys.copy
    rw [Sys.on_self hf]
    exact hi

end Runs

end LockdepSpdk.Mutex
