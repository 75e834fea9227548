import LockdepSpdk.Lockdep.Registry
import Mathlib.Algebra.Group.Nat.Defs

/-!
# The registry and its ledger

Within the first session the ids and references are compared with a ledger of
all registrations, newest entry first, and every index that a call makes into
`follows` and `follows_bt` with their size.
-/

namespace LockdepSpdk.Lockdep

set_option autoImplicit false

open Function Transition

variable {T : Type}

inductive Entry where
  /-- `new` when the name had no id before. -/
  | registered (name : String) (id : Nat) (new : Bool)
  | unregistered (name : String) (id : Nat)

def sinceAssigned (id : Nat) : List Entry → List Entry
  | [] => []
  | .registered name k new :: es =>
    if k = id ∧ new = true then [.registered name k new]
    else .registered name k new :: sinceAssigned id es
  | .unregistered name k :: es => .unregistered name k :: sinceAssigned id es

/-- Registrations minus unregistrations of `name`. -/
def balance (name : String) : List Entry → Int
  | [] => 0
  | .registered n _ _ :: es => balance name es + if n = name then 1 else 0
  | .unregistered n _ :: es => balance name es - if n = name then 1 else 0

/-- Registrations minus unregistrations of `id`, over all times it was assigned. -/
def outstanding (id : Nat) : List Entry → Int
  | [] => 0
  | .registered _ k _ :: es => outstanding id es + if k = id then 1 else 0
  | .unregistered _ k :: es => outstanding id es - if k = id then 1 else 0

/-- The first session with its ledger. -/
structure Ledger (T : Type) where
  state : State T
  entries : List Entry

/-- What the callers keep to: they pass -1 or an id they were given, and unregister only what is
registered. -/
def Ledger.Allows (p : Ledger T) : Call T → Prop
  | .globalInit => True
  | .globalDestroy => False
  | .register _ => True
  | .unregister id => id = -1 ∨ ∃ k : Nat, id = k ∧ 0 < outstanding k p.entries
  | .willLock _ _ id _ => id = -1 ∨ ∃ k : Nat, id = k ∧ ∃ n new, .registered n k new ∈ p.entries
  | .locked _ _ id => id = -1 ∨ ∃ k : Nat, id = k ∧ ∃ n new, .registered n k new ∈ p.entries
  | .willUnlock _ id => id = -1 ∨ ∃ k : Nat, id = k ∧ ∃ n new, .registered n k new ∈ p.entries

def registration (s : State T) (name : String) (id : Int) : Entry :=
  .registered name id.toNat (s.lockIds name).isNone

/-- The entries of a call that returns `r`. -/
def Call.entries (s : State T) (r : Option Int) : Call T → List Entry
  | .register name => [registration s name (r.getD 0)]
  | .willLock _ name id _ => if id < 0 then [registration s name (r.getD 0)] else []
  | .locked _ name id => if id < 0 then [registration s name (r.getD 0)] else []
  | .unregister id =>
    if id < 0 then [] else [.unregistered ((s.lockNames id.toNat).getD "") id.toNat]
  | _ => []

/-- The name that a call registers. -/
def Call.registers : Call T → Option String
  | .register name => some name
  | .willLock _ name id _ => if id < 0 then some name else none
  | .locked _ name id => if id < 0 then some name else none
  | _ => none

/-! Indexes into the vectors. -/

/-- `does_follow(a, b)` on the graph `g` looks at bit `c` of row `r`. -/
inductive Scans (g : Graph) (n b : Nat) : Nat → Nat → Nat → Prop where
  | target (a : Nat) : Scans g n b a a b
  | scan {a i : Nat} : i < n → Scans g n b a a i
  | inner {a i r c : Nat} : i < n → Edge g a i → Scans g n b i r c → Scans g n b a r c

/-- A call indexes bit `c` of row `r` while the vectors have `size` and `btSize` rows. -/
def Call.Indexes (s : State T) (size btSize r c : Nat) : Call T → Prop
  | .globalInit => False
  | .globalDestroy => size = s.followsSize ∧ btSize = s.followsBtSize ∧
      r < s.currentMaxid ∧ c < s.currentMaxid
  | .register _ => False
  | .unregister id => size = s.followsSize ∧ btSize = s.followsBtSize ∧ ∃ k : Nat, id = k ∧
      ((r = k ∧ c < s.currentMaxid) ∨ (r < s.currentMaxid ∧ c = k))
  | .willLock p name id _ => ∃ s1 i, s.gLockdep = true ∧ ensureId s name id = .ok (s1, i) ∧
      size = s1.followsSize ∧ btSize = s1.followsBtSize ∧ ∃ h ∈ s1.held p,
        (r = h ∧ c = i.toNat) ∨ ∃ g, Scans g s1.currentMaxid h i.toNat r c
  | .locked _ _ _ => False
  | .willUnlock _ _ => False

theorem Scans.lt {g : Graph} {n b a r c m : Nat} (h : Scans g n b a r c) (ha : a < m) (hb : b < m)
    (hn : n ≤ m) : r < m ∧ c < m := by
  induction h with
  | target a => exact ⟨ha, hb⟩
  | scan hi => exact ⟨ha, by omega⟩
  | inner hi _ _ ih => exact ih (by omega)

/-! The invariant. -/

structure LedgerInv (s : State T) (es : List Entry) : Prop where
  registry : RegistryInv s
  unused : ∀ k, s.freeIds k = true → s.lockRefs k = none
  used : ∀ k, s.freeIds k = false → ∃ name, s.lockNames k = some name ∧
    s.lockRefs k = some (balance name (sinceAssigned k es)) ∧
    1 ≤ balance name (sinceAssigned k es)
  beyond : ∀ k, s.currentMaxid ≤ k → s.freeIds k = true
  last : s.lastFreedId < s.currentMaxid
  maxid : s.currentMaxid ≤ maxLocks
  size : s.currentMaxid < s.followsSize ∧ s.followsBtSize = s.followsSize
  outstanding : ∀ k, outstanding k es = (s.lockRefs k).getD 0
  width : ∀ k, (s.lockRefs k).getD 0 < 2 ^ 31
  named : ∀ n k new, .registered n k new ∈ sinceAssigned k es → s.freeIds k = false →
    s.lockNames k = some n
  known : ∀ n k new, .registered n k new ∈ es → k < s.currentMaxid

section
variable {s s' : State T} {es : List Entry} {name : String} {id i : Int}

theorem LedgerInv.of_same (h : LedgerInv s es) (hreg : RegistryInv s')
    (hnames : s'.lockNames = s.lockNames) (hrefs : s'.lockRefs = s.lockRefs)
    (hfree : s'.freeIds = s.freeIds) (hmax : s'.currentMaxid = s.currentMaxid)
    (hlast : s'.lastFreedId = s.lastFreedId) (hsize : s'.followsSize = s.followsSize)
    (hbt : s'.followsBtSize = s.followsBtSize) :
    LedgerInv s' es where
  registry := hreg
  unused := by
    rw [hfree, hrefs]
    exact h.unused
  used := by
    rw [hfree, hnames, hrefs]
    exact h.used
  beyond := by
    rw [hmax, hfree]
    exact h.beyond
  last := by
    rw [hlast, hmax]
    exact h.last
  maxid := by
    rw [hmax]
    exact h.maxid
  size := by
    rw [hmax, hsize, hbt]
    exact h.size
  outstanding := by
    rw [hrefs]
    exact h.outstanding
  width := by
    rw [hrefs]
    exact h.width
  named := by
    rw [hfree, hnames]
    exact h.named
  known := by
    rw [hmax]
    exact h.known

theorem LedgerInv.picks_le {k : Nat} (h : LedgerInv s es) (hk : PicksId s k) :
    k ≤ s.currentMaxid ∧ k < maxLocks := by
  have hmax := h.maxid
  rcases hk.first with hlast | ⟨hlt, hfirst⟩
  · have hl := h.last
    omega
  · refine ⟨?_, hlt⟩
    by_contra hgt
    have hused := hfirst s.currentMaxid (by omega)
    rw [h.beyond s.currentMaxid (Nat.le_refl _)] at hused
    cases hused

theorem sinceAssigned_of_ne {k j : Nat} {new : Bool} (h : j ≠ k ∨ new = false) :
    sinceAssigned k (.registered name j new :: es) =
      .registered name j new :: sinceAssigned k es := by
  simp only [sinceAssigned]
  rw [if_neg]
  rintro ⟨heq, hnew⟩
  rcases h with h | h
  · exact h heq
  · rw [hnew] at h
    cases h

theorem LedgerInv.names_apart {j k : Nat} {m n : String} (h : LedgerInv s es) (hjk : j ≠ k)
    (hm : s.lockNames j = some m) (hn : s.lockNames k = some n) : n ≠ m := by
  rintro rfl
  have h1 := (h.registry.name_iff n j).mpr hm
  have h2 := (h.registry.name_iff n k).mpr hn
  exact hjk (Option.some.inj (h1.symm.trans h2))

/-- An entry that changes the count of a live class by `d`. -/
theorem LedgerInv.recount {k : Nat} {d : Int} {e : Entry} (h : LedgerInv s es)
    (hused : s.freeIds k = false) (hname : s.lockNames k = some name)
    (hlow : 1 ≤ (s.lockRefs k).getD 0 + d) (hhigh : (s.lockRefs k).getD 0 + d < 2 ^ 31)
    (hsince : ∀ j, sinceAssigned j (e :: es) = e :: sinceAssigned j es)
    (hbalance : ∀ n l, balance n (e :: l) = balance n l + if name = n then d else 0)
    (hout : ∀ j, Lockdep.outstanding j (e :: es) =
      Lockdep.outstanding j es + if k = j then d else 0)
    (hentry : ∀ n j new, Entry.registered n j new = e → n = name ∧ j = k) :
    LedgerInv (setRefs s k ((s.lockRefs k).getD 0 + d)) (e :: es) := by
  obtain ⟨n, hn, hrefs, hpos⟩ := h.used k hused
  rw [hname] at hn
  obtain rfl := Option.some.inj hn
  have hself : ∀ j, j = k →
      (setRefs s k ((s.lockRefs k).getD 0 + d)).lockRefs j = some ((s.lockRefs k).getD 0 + d) := by
    rintro j rfl
    exact update_self _ _ _
  have hother : ∀ j, j ≠ k →
      (setRefs s k ((s.lockRefs k).getD 0 + d)).lockRefs j = s.lockRefs j :=
    fun j hjk => update_of_ne hjk _ _
  refine ⟨⟨h.registry.enabled, ⟨h.registry.graph.acyclic, h.registry.graph.below,
    h.registry.graph.held_lt, h.registry.graph.lockIds_lt⟩, h.registry.name_iff, h.registry.free⟩,
    ?_, ?_, h.beyond, h.last, h.maxid, h.size, ?_, ?_, ?_, ?_⟩
  · intro j hj
    have hjk : j ≠ k := by
      rintro rfl
      have hj' : s.freeIds j = true := hj
      rw [hused] at hj'
      cases hj'
    rw [hother j hjk]
    exact h.unused j hj
  · intro j hj
    rw [hsince]
    by_cases hjk : j = k
    · subst hjk
      have hsum : balance name (e :: sinceAssigned j es) = (s.lockRefs j).getD 0 + d := by
        rw [hbalance, if_pos rfl, hrefs]
        exact rfl
      refine ⟨name, hname, ?_, ?_⟩
      · rw [hself j rfl, hsum]
      · rw [hsum]
        exact hlow
    · obtain ⟨m, hm, hrefs', hpos'⟩ := h.used j hj
      have hsum : balance m (e :: sinceAssigned j es) = balance m (sinceAssigned j es) := by
        rw [hbalance, if_neg (h.names_apart hjk hm hname), Int.add_zero]
      refine ⟨m, hm, ?_, ?_⟩
      · rw [hother j hjk, hsum]
        exact hrefs'
      · rw [hsum]
        exact hpos'
  · intro j
    rw [hout, h.outstanding j]
    by_cases hjk : j = k
    · rw [hself j hjk, hjk, if_pos rfl]
      exact rfl
    · rw [hother j hjk, if_neg (Ne.symm hjk), Int.add_zero]
  · intro j
    by_cases hjk : j = k
    · rw [hself j hjk]
      exact hhigh
    · rw [hother j hjk]
      exact h.width j
  · intro n j new hmem hj
    rw [hsince] at hmem
    rcases List.mem_cons.mp hmem with heq | hmem
    · obtain ⟨rfl, rfl⟩ := hentry n j new heq
      exact hname
    · exact h.named n j new hmem hj
  · intro n j new hmem
    rcases List.mem_cons.mp hmem with heq | hmem
    · obtain ⟨rfl, rfl⟩ := hentry n j new heq
      exact h.registry.graph.lockIds_lt n j ((h.registry.name_iff n j).mpr hname)
    · exact h.known n j new hmem

theorem LedgerInv.addRef {k : Nat} (h : LedgerInv s es) (hname : s.lockIds name = some k)
    (hroom : HasRoom s k) : LedgerInv (addRef s k) (.registered name k false :: es) := by
  have hk : s.lockNames k = some name := (h.registry.name_iff name k).mp hname
  have hused : s.freeIds k = false := by
    by_contra hfree
    have hnone := h.registry.free k (Bool.not_eq_false _ ▸ hfree)
    rw [hk] at hnone
    cases hnone
  obtain ⟨n, -, hrefs, hpos⟩ := h.used k hused
  have hget : (s.lockRefs k).getD 0 = balance n (sinceAssigned k es) := by
    rw [hrefs]
    exact rfl
  unfold HasRoom at hroom
  refine h.recount hused hk (by omega) (by omega) (fun j => sinceAssigned_of_ne (Or.inr rfl))
    (fun _ _ => rfl) (fun _ => rfl) ?_
  intro m j new heq
  obtain ⟨rfl, rfl, -⟩ := Entry.registered.inj heq
  exact ⟨rfl, rfl⟩

theorem LedgerInv.assign {k : Nat} (h : LedgerInv s es) (hf : FreshId s s' name k)
    (hreg : RegistryInv s') : LedgerInv s' (.registered name k true :: es) := by
  obtain ⟨hle, hlt⟩ := h.picks_le hf.picks
  have hrefs := h.unused k hf.free
  have hmax := hf.maxid
  have hsize := h.size
  have hfree : ∀ j, j ≠ k → s'.freeIds j = s.freeIds j := by
    intro j hjk
    rw [hf.freeIds, update_of_ne hjk]
  have hself : s'.freeIds k = false := by
    rw [hf.freeIds, update_self]
  refine ⟨hreg, ?_, ?_, ?_, ?_, ?_, ?_, ?_, ?_, ?_, ?_⟩
  · intro j hj
    have hjk : j ≠ k := by
      intro heq
      rw [heq, hself] at hj
      cases hj
    rw [hf.refs, update_of_ne hjk]
    exact h.unused j (hfree j hjk ▸ hj)
  · intro j hj
    by_cases hjk : j = k
    · subst hjk
      have hone : balance name (sinceAssigned j (.registered name j true :: es)) = 1 := by
        simp [sinceAssigned, balance]
      refine ⟨name, ?_, ?_, ?_⟩
      · rw [hf.lockNames, update_self]
      · rw [hf.refs, update_self, hrefs, hone]
        exact rfl
      · rw [hone]
    · obtain ⟨n, hn, hrefs', hpos⟩ := h.used j (hfree j hjk ▸ hj)
      have hne : name ≠ n := by
        intro heq
        have h1 := (h.registry.name_iff n j).mpr hn
        rw [← heq, hf.unnamed] at h1
        cases h1
      rw [sinceAssigned_of_ne (Or.inl (Ne.symm hjk))]
      refine ⟨n, ?_, ?_, ?_⟩
      · rw [hf.lockNames, update_of_ne hjk]
        exact hn
      · rw [hf.refs, update_of_ne hjk, hrefs']
        simp [balance, hne]
      · simpa [balance, hne] using hpos
  · intro j hj
    rw [hfree j (by omega)]
    exact h.beyond j (by omega)
  · have hl := h.last
    rcases hf.last with heq | heq
    · omega
    · omega
  · have hml := h.maxid
    rw [hmax]
    exact Nat.max_le.mpr ⟨hml, hlt⟩
  · rw [hf.size, hf.btSize]
    by_cases hgrow : s.currentMaxid ≤ k ∧ k + 1 = s.followsSize
    · rw [if_pos hgrow, if_pos hgrow]
      omega
    · rw [if_neg hgrow, if_neg hgrow]
      omega
  · intro j
    simp only [Lockdep.outstanding]
    rw [h.outstanding j, hf.refs]
    by_cases hjk : j = k
    · subst hjk
      rw [update_self, if_pos rfl]
      exact rfl
    · rw [update_of_ne hjk, if_neg (Ne.symm hjk), Int.add_zero]
  · intro j
    rw [hf.refs]
    by_cases hjk : j = k
    · rw [hjk, update_self, hrefs]
      decide
    · rw [update_of_ne hjk]
      exact h.width j
  · intro n j new hmem hj
    rw [hf.lockNames]
    by_cases hjk : j = k
    · subst hjk
      have hmem' : Entry.registered n j new ∈ [Entry.registered name j true] := by
        simpa [sinceAssigned] using hmem
      obtain ⟨rfl, _, _⟩ := Entry.registered.inj (List.mem_singleton.mp hmem')
      rw [update_self]
    · rw [sinceAssigned_of_ne (Or.inl (Ne.symm hjk))] at hmem
      rw [update_of_ne hjk]
      rcases List.mem_cons.mp hmem with heq | hmem
      · obtain ⟨_, rfl, _⟩ := Entry.registered.inj heq
        exact absurd rfl hjk
      · exact h.named n j new hmem (hfree j hjk ▸ hj)
  · intro n j new hmem
    rcases List.mem_cons.mp hmem with heq | hmem
    · obtain ⟨_, rfl, _⟩ := Entry.registered.inj heq
      omega
    · have hj := h.known n j new hmem
      omega

theorem LedgerInv.register (h : LedgerInv s es) (hreg : registerLocked s name = .ok (s', i)) :
    LedgerInv s' (registration s name i :: es) := by
  have hregistry := h.registry.register hreg
  unfold registration
  rcases registerLocked_cases h.registry.enabled hreg with ⟨k, hi, hname, hroom, hs'⟩ | ⟨k, hi, _, hf⟩
  · subst hi hs'
    rw [hname]
    exact h.addRef hname hroom
  · subst hi
    rw [hf.unnamed]
    exact h.assign hf hregistry

theorem LedgerInv.ensure (h : LedgerInv s es) (hens : ensureId s name id = .ok (s', i)) :
    LedgerInv s' ((if id < 0 then [registration s name i] else []) ++ es) := by
  unfold ensureId at hens
  split at hens
  · next hneg =>
    rw [if_pos hneg]
    exact h.register hens
  · next hneg =>
    obtain ⟨rfl, _⟩ := ok_mk_inj hens
    rw [if_neg hneg]
    exact h

theorem LedgerInv.live {k : Nat} (h : LedgerInv s es) (hout : 0 < Lockdep.outstanding k es) :
    s.freeIds k = false := by
  rw [h.outstanding k] at hout
  by_contra hfree
  rw [h.unused k (Bool.not_eq_false _ ▸ hfree)] at hout
  exact absurd hout (Int.lt_irrefl 0)

/-- The last reference to a class is gone. -/
theorem LedgerInv.freed {k : Nat} (h : LedgerInv s es) (hused : s.freeIds k = false)
    (hname : s.lockNames k = some name) (hone : (s.lockRefs k).getD 0 = 1)
    (hregistry : RegistryInv (freeClass s name k)) :
    LedgerInv (freeClass s name k) (.unregistered name k :: es) := by
  have hlive : ∀ j, (freeClass s name k).freeIds j = false → j ≠ k ∧ s.freeIds j = false := by
    intro j hj
    rw [freeClass_freeIds] at hj
    by_cases hjk : j = k
    · rw [hjk, update_self] at hj
      cases hj
    · rw [update_of_ne hjk] at hj
      exact ⟨hjk, hj⟩
  refine ⟨hregistry, ?_, ?_, ?_, ?_, h.maxid, h.size, ?_, ?_, ?_, ?_⟩
  · intro j hj
    rw [freeClass_lockRefs]
    by_cases hjk : j = k
    · rw [hjk, update_self]
    · rw [freeClass_freeIds, update_of_ne hjk] at hj
      rw [update_of_ne hjk]
      exact h.unused j hj
  · intro j hj
    obtain ⟨hjk, hj⟩ := hlive j hj
    obtain ⟨m, hm, hrefs, hpos⟩ := h.used j hj
    have hne := h.names_apart hjk hm hname
    refine ⟨m, ?_, ?_, ?_⟩
    · rw [freeClass_lockNames, update_of_ne hjk]
      exact hm
    · rw [freeClass_lockRefs, update_of_ne hjk]
      simpa [sinceAssigned, balance, hne] using hrefs
    · simpa [sinceAssigned, balance, hne] using hpos
  · intro j hj
    rw [freeClass_freeIds]
    by_cases hjk : j = k
    · rw [hjk, update_self]
    · rw [update_of_ne hjk]
      exact h.beyond j hj
  · change (k : Int) < s.currentMaxid
    by_contra hge
    rw [h.beyond k (by omega)] at hused
    cases hused
  · intro j
    simp only [Lockdep.outstanding]
    rw [h.outstanding j, freeClass_lockRefs]
    by_cases hjk : j = k
    · rw [hjk, update_self, if_pos rfl, hone]
      exact rfl
    · rw [update_of_ne hjk, if_neg (Ne.symm hjk), Int.sub_zero]
  · intro j
    rw [freeClass_lockRefs]
    by_cases hjk : j = k
    · rw [hjk, update_self]
      decide
    · rw [update_of_ne hjk]
      exact h.width j
  · intro m j new hmem hj
    obtain ⟨hjk, hj⟩ := hlive j hj
    rw [freeClass_lockNames, update_of_ne hjk]
    apply h.named m j new _ hj
    simpa [sinceAssigned] using hmem
  · intro m j new hmem
    apply h.known m j new
    simpa using hmem

theorem LedgerInv.unregister {k : Nat} (h : LedgerInv s es) (hout : 0 < Lockdep.outstanding k es)
    (hun : lockdepUnregister s k = .ok s') :
    LedgerInv s' (.unregistered ((s.lockNames k).getD "") k :: es) := by
  have hused := h.live hout
  have hwidth := h.width k
  rw [h.outstanding k] at hout
  rcases lockdepUnregister_cases hun with ⟨hneg, _⟩ | ⟨k', name, hk', hname, hcase⟩
  · omega
  · obtain rfl : k = k' := by omega
    rw [hname, Option.getD_some]
    rcases hcase with ⟨hone, rfl⟩ | ⟨hmore, rfl⟩
    · exact h.freed hused hname hone (h.registry.unregister hun)
    · refine h.recount (d := -1) hused hname (by omega) (by omega) (fun _ => rfl) ?_ ?_
        (fun _ _ _ heq => by cases heq)
      · intro n l
        simp only [balance]
        split <;> omega
      · intro j
        simp only [Lockdep.outstanding]
        split <;> omega

/-! Overflow. -/

theorem checkHeld_ne_overflow {n a : Nat} {recursive : Bool} {hs : List Nat} {g : Graph} :
    checkHeld n a recursive hs g ≠ .error .overflow := by
  induction hs generalizing g with
  | nil =>
    intro h
    cases h
  | cons b hs ih =>
    intro h
    simp only [checkHeld] at h
    split at h
    · split at h
      · exact ih h
      · cases h
    · split at h
      · exact ih h
      · split at h
        · cases h
        · cases h
        · exact ih h

theorem unregister_ne_overflow : lockdepUnregister s id ≠ .error .overflow := by
  intro h
  unfold lockdepUnregister at h
  split at h
  · cases h
  · split at h
    · cases h
    · simp only at h
      split at h
      · cases h
      · cases h

theorem willUnlock_ne_overflow [DecidableEq T] {t : T} :
    lockdepWillUnlock s t id ≠ .error .overflow := by
  intro h
  unfold lockdepWillUnlock at h
  split at h
  · split at h
    · cases h
    · cases h
  · split at h
    · cases h
    · cases h

/-- Only the registration of a class with the largest count overflows. -/
theorem LedgerInv.register_overflows (h : LedgerInv s es) :
    registerLocked s name = .error .overflow ↔
      ∃ k, s.lockIds name = some k ∧ Lockdep.outstanding k es = 2 ^ 31 - 1 := by
  have hon := h.registry.enabled
  cases hname : s.lockIds name with
  | some k =>
    have hwidth := h.width k
    rw [registerLocked_found hon hname]
    by_cases hroom : HasRoom s k
    · rw [if_pos hroom]
      refine ⟨nofun, ?_⟩
      rintro ⟨j, hj, hout⟩
      obtain rfl := Option.some.inj hj
      rw [h.outstanding k] at hout
      unfold HasRoom at hroom
      omega
    · rw [if_neg hroom]
      refine ⟨fun _ => ⟨k, rfl, ?_⟩, fun _ => rfl⟩
      rw [h.outstanding k]
      unfold HasRoom at hroom
      omega
  | none =>
    refine ⟨?_, nofun⟩
    intro hover
    by_cases hneg : (lockdepGetFreeId s).1 < 0
    · rw [registerLocked_none hon hname hneg] at hover
      cases hover
    · -- a free id has no count
      obtain ⟨k, hk⟩ := Int.eq_ofNat_of_zero_le (Int.not_lt.mp hneg)
      obtain ⟨id, s1, hget⟩ : ∃ id s1, lockdepGetFreeId s = (id, s1) := ⟨_, _, rfl⟩
      have hid : id = k := by rw [← hk, hget]
      obtain ⟨hpicks, _⟩ := lockdepGetFreeId_spec hget (by omega)
      rw [hid, Int.toNat_natCast] at hpicks
      have hroom : HasRoom s k := by
        unfold HasRoom
        rw [h.unused k hpicks.free]
        decide
      obtain ⟨s1, hok, _⟩ := (registerLocked_new hon hname hk).1 hroom
      rw [hok] at hover
      cases hover

theorem ensureId_overflows :
    ensureId s name id = .error .overflow ↔ id < 0 ∧ registerLocked s name = .error .overflow := by
  unfold ensureId
  split
  · next hneg => exact ⟨fun hover => ⟨hneg, hover⟩, And.right⟩
  · next hneg => exact ⟨nofun, fun hover => absurd hover.1 hneg⟩

theorem bind_overflows {α β : Type} {x : Except Stop α} {f : α → Except Stop β}
    (hf : ∀ a, x = .ok a → f a ≠ .error .overflow) :
    (x >>= f) = .error .overflow ↔ x = .error .overflow := by
  constructor
  · intro h
    rcases bind_error h with hx | ⟨a, ha, hfa⟩
    · exact hx
    · exact absurd hfa (hf a ha)
  · intro hx
    rw [hx]
    rfl

/-! Runs. -/

theorem LedgerInv.id_lt (h : LedgerInv s es)
    (hid : id = -1 ∨ ∃ k : Nat, id = k ∧ ∃ n new, .registered n k new ∈ es) :
    id < s.currentMaxid := by
  rcases hid with hneg | ⟨k, hk, n, new, hmem⟩
  · omega
  · have hlt := h.known n k new hmem
    omega

theorem LedgerInv.initial : LedgerInv (lockdepGlobalInit (initial : State T)) [] where
  registry := by
    refine ⟨rfl, GraphInv.initial.globalInit, ?_, fun _ _ => rfl⟩
    intro name k
    constructor <;> intro hk <;> cases hk
  unused := fun _ _ => rfl
  used := by
    intro k hk
    cases hk
  beyond := fun _ _ => rfl
  last := by
    change (-1 : Int) < (0 : Nat)
    omega
  maxid := Nat.zero_le _
  size := ⟨Nat.zero_lt_succ _, rfl⟩
  outstanding := fun _ => rfl
  width := by
    intro k
    change (0 : Int) < 2 ^ 31
    decide
  named := by simp [sinceAssigned]
  known := by simp

end

section Runs
variable [DecidableEq T]

def Ledger.Step (p : Ledger T) (c : Call T) (q : Ledger T) : Prop :=
  p.Allows c ∧ ∃ r, c.exec p.state = .ok (q.state, r) ∧
    q.entries = c.entries p.state r ++ p.entries

def Ledger.start : Ledger T := ⟨lockdepGlobalInit initial, []⟩

def Ledger.Reachable (p : Ledger T) : Prop :=
  Transition.Reachable (· = Ledger.start) Ledger.Step p

theorem Ledger.step_inv {p q : Ledger T} {c : Call T} (h : LedgerInv p.state p.entries)
    (hstep : p.Step c q) : LedgerInv q.state q.entries := by
  obtain ⟨hallows, r, hexec, hentries⟩ := hstep
  rw [hentries]
  cases c with
  | globalInit =>
    obtain ⟨hs, _⟩ := ok_mk_inj hexec
    have hsame : lockdepGlobalInit p.state = p.state := by
      unfold lockdepGlobalInit
      rw [if_pos h.registry.enabled]
    rw [← hs, hsame]
    exact h
  | globalDestroy => exact absurd hallows id
  | register name =>
    obtain ⟨⟨s1, i⟩, hreg, hret⟩ := bind_ok hexec
    obtain ⟨hs, hr⟩ := ok_mk_inj hret
    rw [← hs, ← hr]
    exact h.register hreg
  | unregister id =>
    obtain ⟨s1, hun, hret⟩ := bind_ok hexec
    obtain ⟨hs, hr⟩ := ok_mk_inj hret
    rw [← hs]
    rcases hallows with rfl | ⟨k, rfl, hout⟩
    · rcases lockdepUnregister_cases hun with ⟨_, heq⟩ | ⟨k, _, hk, _⟩
      · rw [heq]
        exact h
      · omega
    · have hentry : Call.entries p.state r (.unregister k : Call T) =
          [.unregistered ((p.state.lockNames k).getD "") k] := by
        simp [Call.entries]
      rw [hentry]
      exact h.unregister hout hun
  | willLock t name id recursive =>
    obtain ⟨⟨s1, i⟩, hwl, hret⟩ := bind_ok hexec
    obtain ⟨hs, hr⟩ := ok_mk_inj hret
    rw [← hs, ← hr]
    have hregistry := h.registry.willLock (h.id_lt hallows) hwl
    obtain ⟨s2, g, hens, _, hs1⟩ := lockdepWillLock_cases h.registry.enabled hwl
    subst hs1
    exact (h.ensure hens).of_same hregistry rfl rfl rfl rfl rfl rfl rfl
  | locked t name id =>
    obtain ⟨⟨s1, i⟩, hl, hret⟩ := bind_ok hexec
    obtain ⟨hs, hr⟩ := ok_mk_inj hret
    rw [← hs, ← hr]
    have hregistry := h.registry.locked (h.id_lt hallows) hl
    obtain ⟨s2, hens, hs1⟩ := lockdepLocked_cases h.registry.enabled hl
    subst hs1
    exact (h.ensure hens).of_same hregistry rfl rfl rfl rfl rfl rfl rfl
  | willUnlock t id =>
    obtain ⟨⟨s1, i⟩, hu, hret⟩ := bind_ok hexec
    obtain ⟨hs, hr⟩ := ok_mk_inj hret
    rw [← hs]
    have hregistry := h.registry.willUnlock hu
    obtain ⟨_, ⟨_, hs1⟩ | ⟨_, hs1⟩⟩ := lockdepWillUnlock_cases h.registry.enabled hu
    · rw [hs1]
      exact h
    · subst hs1
      exact h.of_same hregistry rfl rfl rfl rfl rfl rfl rfl

theorem Ledger.Reachable.inv {p : Ledger T} (h : p.Reachable) : LedgerInv p.state p.entries := by
  refine Transition.Reachable.invariant (I := fun p : Ledger T => LedgerInv p.state p.entries) ?_
    (fun _ _ _ hp hstep => Ledger.step_inv hp hstep) h
  intro q hq
  subst hq
  exact LedgerInv.initial

/-- A call overflows when it registers a class of which 2^31 - 1 registrations are outstanding. -/
theorem LedgerInv.overflows {s : State T} {es : List Entry} (h : LedgerInv s es) (c : Call T) :
    c.exec s = .error .overflow ↔ ∃ name k, c.registers = some name ∧
      s.lockIds name = some k ∧ Lockdep.outstanding k es = 2 ^ 31 - 1 := by
  have hon := h.registry.enabled
  have named : ∀ {name : String}, registerLocked s name = .error .overflow ↔
      ∃ name' k, some name = some name' ∧ s.lockIds name' = some k ∧
        Lockdep.outstanding k es = 2 ^ 31 - 1 := by
    intro name
    rw [h.register_overflows]
    constructor
    · rintro ⟨k, hk, hout⟩
      exact ⟨name, k, rfl, hk, hout⟩
    · rintro ⟨name', k, hname, hk, hout⟩
      obtain rfl := Option.some.inj hname
      exact ⟨k, hk, hout⟩
  have ensured : ∀ {name : String} {id : Int}, ensureId s name id = .error .overflow ↔
      ∃ name' k, (if id < 0 then some name else none) = some name' ∧ s.lockIds name' = some k ∧
        Lockdep.outstanding k es = 2 ^ 31 - 1 := by
    intro name id
    rw [ensureId_overflows]
    by_cases hneg : id < 0
    · rw [if_pos hneg, ← named]
      exact and_iff_right hneg
    · rw [if_neg hneg]
      exact ⟨fun hover => absurd hover.1 hneg, nofun⟩
  have none : ∀ {x : Except Stop (State T × Option Int)}, c.registers = none →
      x ≠ .error .overflow → (x = .error .overflow ↔ ∃ name k, c.registers = some name ∧
        s.lockIds name = some k ∧ Lockdep.outstanding k es = 2 ^ 31 - 1) := by
    intro x hc hx
    rw [hc]
    exact ⟨fun hover => absurd hover hx, nofun⟩
  -- the last step of a call only returns
  have returns : ∀ {α : Type} {x : Except Stop α} {f : α → State T × Option Int},
      (x >>= fun a => .ok (f a)) = .error .overflow ↔ x = .error .overflow :=
    bind_overflows fun _ _ => nofun
  cases c with
  | globalInit => exact none rfl nofun
  | globalDestroy => exact none rfl nofun
  | register name => exact returns.trans named
  | unregister id =>
    exact none rfl fun hover => unregister_ne_overflow (returns.mp hover)
  | willLock t name id recursive =>
    refine returns.trans ?_
    unfold lockdepWillLock
    rw [if_neg (by rw [hon]; decide)]
    refine (bind_overflows ?_).trans ensured
    intro x _ hover
    obtain hcheck | ⟨g, _, hret⟩ := bind_error hover
    · exact checkHeld_ne_overflow hcheck
    · cases hret
  | locked t name id =>
    refine returns.trans ?_
    unfold lockdepLocked
    rw [if_neg (by rw [hon]; decide)]
    refine (bind_overflows ?_).trans ensured
    exact fun _ _ => nofun
  | willUnlock t id =>
    exact none rfl fun hover => willUnlock_ne_overflow (returns.mp hover)

omit [DecidableEq T] in
/-- Indexes are in range, of `follows_bt` too, and so are the bits. -/
theorem LedgerInv.indexes {p : Ledger T} (h : LedgerInv p.state p.entries) {c : Call T}
    (hallows : p.Allows c ∨ c = .globalDestroy) {size btSize r b : Nat}
    (hidx : c.Indexes p.state size btSize r b) : r < size ∧ r < btSize ∧ b < maxLocks := by
  have hmax := h.maxid
  have hsize := h.size
  cases c with
  | globalInit => exact absurd hidx id
  | globalDestroy =>
    obtain ⟨rfl, rfl, hr, hb⟩ := hidx
    omega
  | register name => exact absurd hidx id
  | unregister id =>
    obtain ⟨rfl, rfl, k, hk, hcase⟩ := hidx
    have hlt : k < p.state.currentMaxid := by
      rcases hallows with (hneg | ⟨k', hk', hout⟩) | heq
      · omega
      · obtain rfl : k = k' := by omega
        by_contra hge
        have hused := h.live hout
        rw [h.beyond k (by omega)] at hused
        cases hused
      · cases heq
    rcases hcase with ⟨rfl, hb⟩ | ⟨hr, rfl⟩
    · omega
    · omega
  | willLock t name id recursive =>
    obtain ⟨s1, i, hg, hens, rfl, rfl, a, ha, hcase⟩ := hidx
    have hid : id < p.state.currentMaxid := by
      rcases hallows with hid | heq
      · exact h.id_lt hid
      · cases heq
    have h1 := h.ensure hens
    have hmax1 := h1.maxid
    have hsize1 := h1.size
    have hi := (ensureId_inv h.registry.graph hid hens).2.2
    have hnn := ensureId_nonneg hg hens
    have ha' := h1.registry.graph.held_lt t a ha
    rcases hcase with ⟨rfl, rfl⟩ | ⟨g, hscan⟩
    · omega
    · obtain ⟨hr, hb⟩ := hscan.lt (show i.toNat < s1.currentMaxid by omega) ha' (Nat.le_refl _)
      omega
  | locked t name id => exact hidx.elim
  | willUnlock t id => exact hidx.elim

/-- What holds of the registry and its ledger. -/
structure Consistent (p : Ledger T) : Prop where
  inverse : ∀ name k, p.state.lockIds name = some k ↔ p.state.lockNames k = some name
  ids : ∀ k, k < maxLocks →
    (p.state.freeIds k = true ∧ p.state.lockNames k = none ∧ p.state.lockRefs k = none) ∨
    (p.state.freeIds k = false ∧ ∃ name, p.state.lockNames k = some name ∧
      p.state.lockRefs k = some (balance name (sinceAssigned k p.entries)) ∧
      1 ≤ balance name (sinceAssigned k p.entries))
  /-- A call goes beyond an `int` only where it registers a class once more than that can count. -/
  overflows : ∀ c : Call T, c.exec p.state = .error .overflow ↔ ∃ name k,
    c.registers = some name ∧ p.state.lockIds name = some k ∧
      balance name (sinceAssigned k p.entries) = 2 ^ 31 - 1
  /-- Of two registrations of live classes. -/
  same : ∀ n n' k k' new new', p.state.freeIds k = false → p.state.freeIds k' = false →
    .registered n k new ∈ sinceAssigned k p.entries →
    .registered n' k' new' ∈ sinceAssigned k' p.entries → (k = k' ↔ n = n')
  beyond : ∀ k, p.state.currentMaxid ≤ k → p.state.freeIds k = true
  size : p.state.currentMaxid < p.state.followsSize ∧
    p.state.followsBtSize = p.state.followsSize
  indexes : ∀ c size btSize r b, p.Allows c ∨ c = .globalDestroy →
    c.Indexes p.state size btSize r b → r < size ∧ r < btSize ∧ b < maxLocks

omit [DecidableEq T] in
theorem LedgerInv.balance_eq {s : State T} {es : List Entry} {name : String} {k : Nat}
    (h : LedgerInv s es) (hname : s.lockIds name = some k) :
    Lockdep.outstanding k es = balance name (sinceAssigned k es) := by
  have hk := (h.registry.name_iff name k).mp hname
  have hused : s.freeIds k = false := by
    by_contra hfree
    rw [h.registry.free k (Bool.not_eq_false _ ▸ hfree)] at hk
    cases hk
  obtain ⟨n, hn, hrefs, _⟩ := h.used k hused
  rw [hk] at hn
  obtain rfl := Option.some.inj hn
  rw [h.outstanding k, hrefs, Option.getD_some]

/-- The registry agrees with its ledger in every state that the first session reaches, which is
every one before the registration that overflows. -/
theorem registry_consistent {p : Ledger T} (h : p.Reachable) : Consistent p := by
  have hinv := h.inv
  refine ⟨hinv.registry.name_iff, ?_, ?_, ?_, hinv.beyond, hinv.size, ?_⟩
  · intro k _
    cases hfree : p.state.freeIds k with
    | true => exact Or.inl ⟨rfl, hinv.registry.free k hfree, hinv.unused k hfree⟩
    | false => exact Or.inr ⟨rfl, hinv.used k hfree⟩
  · intro c
    rw [hinv.overflows c]
    constructor
    · rintro ⟨name, k, hc, hk, hout⟩
      exact ⟨name, k, hc, hk, (hinv.balance_eq hk).symm.trans hout⟩
    · rintro ⟨name, k, hc, hk, hout⟩
      exact ⟨name, k, hc, hk, (hinv.balance_eq hk).trans hout⟩
  · intro n n' k k' new new' hk hk' hmem hmem'
    have hn := hinv.named n k new hmem hk
    have hn' := hinv.named n' k' new' hmem' hk'
    constructor
    · intro heq
      subst heq
      exact Option.some.inj (hn.symm.trans hn')
    · intro heq
      by_contra hne
      exact hinv.names_apart hne hn hn' heq.symm
  · intro c size btSize r b hallows hidx
    exact hinv.indexes hallows hidx

/-- Two registrations of one class, one of another, one taken back. -/
theorem registry_consistent_shared : ∃ p : Ledger Bool, p.Reachable ∧
    p.state.lockRefs 0 = some 1 ∧ p.state.lockNames 1 = some "lock2" ∧ Consistent p := by
  have h0 : Ledger.Reachable (Ledger.start : Ledger Bool) := .start rfl
  have h1 := h0.step (show Ledger.Step _ (.register "lock1") ⟨_, _⟩ from ⟨trivial, some 0, rfl, rfl⟩)
  have h2 := h1.step (show Ledger.Step _ (.willLock true "lock1" (-1) false) ⟨_, _⟩ from
    ⟨Or.inl rfl, some 0, rfl, rfl⟩)
  have h3 := h2.step (show Ledger.Step _ (.register "lock2") ⟨_, _⟩ from ⟨trivial, some 1, rfl, rfl⟩)
  have h4 := h3.step (show Ledger.Step _ (.unregister 0) ⟨_, _⟩ from
    ⟨Or.inr ⟨0, rfl, by decide⟩, none, rfl, rfl⟩)
  exact ⟨_, h4, rfl, rfl, registry_consistent h4⟩

theorem registered_again {n : Nat} (hn : n + 1 < 2 ^ 31) : ∃ p : Ledger Bool,
    Run Ledger.Step Ledger.start (List.replicate (n + 1) (.register "a")) p ∧
      p.state.lockIds "a" = some 0 ∧ p.state.lockRefs 0 = some ((n : Int) + 1) := by
  induction n with
  | zero =>
    refine ⟨⟨_, _⟩, .single ⟨trivial, some 0, rfl, rfl⟩, rfl, rfl⟩
  | succ n ih =>
    obtain ⟨p, hrun, hname, hrefs⟩ := ih (by omega)
    have hon : p.state.gLockdep = true :=
      (Ledger.Reachable.inv (Reachable.run (.start rfl) hrun)).registry.enabled
    have hroom : HasRoom p.state 0 := by
      unfold HasRoom
      rw [hrefs, Option.getD_some]
      omega
    have hreg := (registerLocked_found hon hname).trans (if_pos hroom)
    refine ⟨⟨addRef p.state 0, [registration p.state "a" 0] ++ p.entries⟩, ?_, hname, ?_⟩
    · rw [List.replicate_succ']
      refine hrun.snoc ⟨trivial, some 0, ?_, rfl⟩
      simp only [Call.exec, lockdepRegister, hreg, ok_bind, Int.natCast_zero]
    · simp only [addRef, setRefs, update_self, hrefs, Option.getD_some, Int.natCast_add,
        Int.natCast_one]

/-- After 2^31 - 1 registrations of one name the count is the largest `int`, and no call adds the
next one. -/
theorem registry_overflows : ¬ ∀ (cs : List (Call Bool)) (p : Ledger Bool),
    Run Ledger.Step Ledger.start cs p → ∀ name k, p.state.lockIds name = some k →
      ∃ l i, lockdepRegister p.state name = .ok (l, i) ∧
        l.lockRefs k = some (balance name (sinceAssigned k p.entries) + 1) := by
  intro hclaim
  obtain ⟨p, hrun, hname, hrefs⟩ := registered_again (n := 2 ^ 31 - 2) (by decide)
  obtain ⟨l, i, hreg, _⟩ := hclaim _ p hrun "a" 0 hname
  have hinv := Ledger.Reachable.inv (Reachable.run (.start rfl) hrun)
  have hover : registerLocked p.state "a" = .error .overflow := by
    rw [hinv.register_overflows]
    refine ⟨0, hname, ?_⟩
    rw [hinv.outstanding 0, hrefs]
    decide
  rw [lockdepRegister, hover] at hreg
  cases hreg

end Runs

end LockdepSpdk.Lockdep
