import LockdepSpdk.Lib.Digraph
import LockdepSpdk.Lib.Transition
import LockdepSpdk.Lockdep.Calls

/-!
# The dependency graph over whole runs

`does_follow` recurses without a visited set, so it returns only because the
graph it walks is acyclic with every edge below `current_maxid`. Both facts are
invariants of every sequence of lockdep calls that does not abort, over any
number of sessions.
-/

namespace LockdepSpdk.Lockdep

set_option autoImplicit false

open Function Relation Transition

variable {T : Type}

/-- Every edge endpoint is below `n`. -/
def Below (g : Graph) (n : Nat) : Prop := ∀ a b, Edge g a b → a < n ∧ b < n

theorem Below.mono {g : Graph} {n m : Nat} (h : Below g n) (hle : n ≤ m) : Below g m := by
  intro a b hab
  obtain ⟨ha, hb⟩ := h a b hab
  exact ⟨by omega, by omega⟩

def Targets (g : Graph) (n : Nat) : Prop := ∀ a b, Edge g a b → b < n

theorem Below.targets {g : Graph} {n : Nat} (h : Below g n) : Targets g n :=
  fun a b hab => (h a b hab).2

section AnyM
variable {p : Nat → Option Bool} {l : List Nat}

theorem anyM_true (h : l.anyM p = some true) : ∃ i ∈ l, p i = some true := by
  induction l with
  | nil => simp at h
  | cons i is ih =>
    rw [List.anyM_cons] at h
    obtain ⟨b, hb, h⟩ := Option.bind_eq_some_iff.mp h
    cases b with
    | true => exact ⟨i, List.mem_cons_self, hb⟩
    | false =>
      obtain ⟨j, hj, hp⟩ := ih h
      exact ⟨j, List.mem_cons_of_mem i hj, hp⟩

theorem anyM_false (h : l.anyM p = some false) : ∀ i ∈ l, p i = some false := by
  induction l with
  | nil => simp
  | cons i is ih =>
    rw [List.anyM_cons] at h
    obtain ⟨b, hb, h⟩ := Option.bind_eq_some_iff.mp h
    cases b with
    | true => cases h
    | false =>
      intro j hj
      rcases List.mem_cons.mp hj with rfl | hj
      · exact hb
      · exact ih h j hj

theorem anyM_total (h : ∀ i ∈ l, ∃ r, p i = some r) : ∃ r, l.anyM p = some r := by
  induction l with
  | nil => exact ⟨false, rfl⟩
  | cons i is ih =>
    obtain ⟨b, hb⟩ := h i List.mem_cons_self
    obtain ⟨r, hr⟩ := ih (fun j hj => h j (List.mem_cons_of_mem i hj))
    rw [List.anyM_cons, hb]
    cases b with
    | true => exact ⟨true, rfl⟩
    | false => exact ⟨r, hr⟩

end AnyM

/-- What `does_follow` answers is whether there is a nonempty path. -/
theorem doesFollow_iff {g : Graph} {n : Nat} (hbelow : Targets g n) {fuel a b : Nat} {r : Bool}
    (h : doesFollow g n fuel a b = some r) : r = true ↔ TransGen (Edge g) a b := by
  induction fuel generalizing a r with
  | zero => simp [doesFollow] at h
  | succ fuel ih =>
    simp only [doesFollow] at h
    split at h
    · next hab =>
      obtain rfl : true = r := Option.some.inj h
      exact ⟨fun _ => .single hab, fun _ => rfl⟩
    · next hab =>
      rw [Digraph.transGen_iff_step]
      cases r with
      | true =>
        refine ⟨fun _ => Or.inr ?_, fun _ => rfl⟩
        obtain ⟨i, _, hi⟩ := anyM_true h
        split at hi
        · next hai => exact ⟨i, hai, (ih hi).mp rfl⟩
        · cases hi
      | false =>
        refine ⟨nofun, ?_⟩
        rintro (hab' | ⟨i, hai, hib⟩)
        · exact absurd hab' hab
        · have hi := anyM_false h i (List.mem_range.mpr (hbelow a i hai))
          rw [if_pos (show g a i = true from hai)] at hi
          exact (ih hi).mpr hib

/-- The recursion stack is a duplicate-free list of ancestors, so it is at most `n` deep. -/
theorem doesFollow_returns {g : Graph} {n : Nat} (hac : Digraph.Acyclic (Edge g))
    (hbelow : Targets g n) (b : Nat) {fuel a : Nat} (ha : a < n) (stack : List Nat)
    (hanc : ∀ x ∈ stack, TransGen (Edge g) x a) (hnodup : stack.Nodup)
    (hlt : ∀ x ∈ stack, x < n) (hfuel : n < fuel + stack.length) :
    ∃ r, doesFollow g n fuel a b = some r := by
  induction fuel generalizing a stack with
  | zero =>
    have hlen := Digraph.length_le_of_nodup hnodup hlt
    omega
  | succ fuel ih =>
    simp only [doesFollow]
    split
    · exact ⟨true, rfl⟩
    · apply anyM_total
      intro i _
      split
      · next hai =>
        apply ih (hbelow a i hai) (a :: stack)
        · intro x hx
          rcases List.mem_cons.mp hx with rfl | hx
          · exact .single hai
          · exact (hanc x hx).tail hai
        · exact Digraph.nodup_cons_of_ancestors hac hnodup hanc
        · intro x hx
          rcases List.mem_cons.mp hx with rfl | hx
          · exact ha
          · exact hlt x hx
        · simp only [List.length_cons]
          omega
      · exact ⟨false, rfl⟩

theorem doesFollow_spec {g : Graph} {n : Nat} (hac : Digraph.Acyclic (Edge g))
    (hbelow : Targets g n) {fuel a : Nat} (hfuel : n < fuel) (ha : a < n) (b : Nat) :
    ∃ r, doesFollow g n fuel a b = some r ∧ (r = true ↔ TransGen (Edge g) a b) := by
  have hret : ∃ r, doesFollow g n fuel a b = some r :=
    doesFollow_returns hac hbelow b ha [] (by simp) List.nodup_nil (by simp) (by simpa using hfuel)
  obtain ⟨r, hr⟩ := hret
  exact ⟨r, hr, doesFollow_iff hbelow hr⟩

theorem setEdge_acyclic {g : Graph} {a b : Nat} (hac : Digraph.Acyclic (Edge g)) (hne : a ≠ b)
    (hpath : ¬ TransGen (Edge g) b a) : Digraph.Acyclic (Edge (setEdge g a b)) :=
  (hac.insert hne hpath).mono fun x y h => (setEdge_edge g a b x y).mp h

theorem setEdge_below {g : Graph} {n a b : Nat} (h : Below g n) (ha : a < n) (hb : b < n) :
    Below (setEdge g a b) n := by
  intro x y hxy
  rcases (setEdge_edge g a b x y).mp hxy with hxy | ⟨rfl, rfl⟩
  · exact h x y hxy
  · exact ⟨ha, hb⟩

/-- The lock is held and not recursive, or a held one comes after it. -/
def Forbidden (g : Graph) (id : Nat) (recursive : Bool) (hs : List Nat) : Prop :=
  (id ∈ hs ∧ recursive = false) ∨ ∃ h ∈ hs, h ≠ id ∧ TransGen (Edge g) id h

def Joined (g g' : Graph) (id : Nat) (hs : List Nat) : Prop :=
  ∀ a b, Edge g' a b ↔ Edge g a b ∨ (b = id ∧ a ∈ hs ∧ a ≠ id)

section
variable {g g' : Graph} {n id h : Nat} {recursive : Bool} {hs : List Nat}

theorem forbidden_self : Forbidden g id true (id :: hs) ↔ Forbidden g id true hs := by
  unfold Forbidden
  simp only [Bool.true_eq_false, and_false, false_or, List.mem_cons, exists_eq_or_imp, ne_eq,
    not_true_eq_false, false_and]

theorem forbidden_cons (hne : h ≠ id) (hpath : ¬ TransGen (Edge g) id h) :
    Forbidden g id recursive (h :: hs) ↔ Forbidden g id recursive hs := by
  unfold Forbidden
  simp only [List.mem_cons, exists_eq_or_imp, hpath, and_false, false_or, Ne.symm hne]

theorem forbidden_setEdge (hne : h ≠ id) (hpath : ¬ TransGen (Edge g) id h) :
    Forbidden (setEdge g h id) id recursive hs ↔ Forbidden g id recursive hs := by
  have hsame : ∀ x, TransGen (Edge (setEdge g h id)) id x ↔ TransGen (Edge g) id x := by
    intro x
    have hedge : Edge (setEdge g h id) = Digraph.Insert (Edge g) h id := by
      funext a b
      exact propext (setEdge_edge g h id a b)
    rw [hedge]
    exact Digraph.transGen_insert_into hne hpath
  unfold Forbidden
  simp only [hsame]

theorem Joined.self (hj : Joined g g' id hs) : Joined g g' id (id :: hs) := by
  intro a b
  rw [hj, List.mem_cons]
  constructor
  · rintro (hab | ⟨hb, ha, hne⟩)
    · exact Or.inl hab
    · exact Or.inr ⟨hb, Or.inr ha, hne⟩
  · rintro (hab | ⟨hb, ha | ha, hne⟩)
    · exact Or.inl hab
    · exact absurd ha hne
    · exact Or.inr ⟨hb, ha, hne⟩

theorem Joined.known (hj : Joined g g' id hs) (hedge : Edge g h id) :
    Joined g g' id (h :: hs) := by
  intro a b
  rw [hj, List.mem_cons]
  constructor
  · rintro (hab | ⟨hb, ha, hne⟩)
    · exact Or.inl hab
    · exact Or.inr ⟨hb, Or.inr ha, hne⟩
  · rintro (hab | ⟨hb, ha | ha, hne⟩)
    · exact Or.inl hab
    · subst ha hb
      exact Or.inl hedge
    · exact Or.inr ⟨hb, ha, hne⟩

theorem Joined.new (hj : Joined (setEdge g h id) g' id hs) (hne : h ≠ id) :
    Joined g g' id (h :: hs) := by
  intro a b
  rw [hj, setEdge_edge, List.mem_cons]
  constructor
  · rintro ((hab | ⟨ha, hb⟩) | ⟨hb, ha, hne'⟩)
    · exact Or.inl hab
    · exact Or.inr ⟨hb, Or.inl ha, ha ▸ hne⟩
    · exact Or.inr ⟨hb, Or.inr ha, hne'⟩
  · rintro (hab | ⟨hb, ha | ha, hne'⟩)
    · exact Or.inl (Or.inl hab)
    · exact Or.inl (Or.inr ⟨ha, hb⟩)
    · exact Or.inr ⟨hb, ha, hne'⟩

/-- The loop decides by the graph as it was before, in whatever order the locks are visited. -/
theorem checkHeld_exact (hs : List Nat) (hac : Digraph.Acyclic (Edge g)) (hbelow : Targets g n)
    (hid : id < n) :
    (Forbidden g id recursive hs ∧ checkHeld n id recursive hs g = .error .abort) ∨
      (¬ Forbidden g id recursive hs ∧ ∃ g', checkHeld n id recursive hs g = .ok g' ∧
        Digraph.Acyclic (Edge g') ∧ Joined g g' id hs) := by
  induction hs generalizing g with
  | nil => exact Or.inr ⟨by simp [Forbidden], g, rfl, hac, by simp [Joined]⟩
  | cons h hs ih =>
    simp only [checkHeld]
    split
    · next heq =>
      subst heq
      cases recursive with
      | false => exact Or.inl ⟨Or.inl ⟨List.mem_cons_self, rfl⟩, rfl⟩
      | true =>
        rw [forbidden_self]
        rcases ih hac hbelow with hbad | ⟨hgood, g', hok, hac', hj⟩
        · exact Or.inl hbad
        · exact Or.inr ⟨hgood, g', hok, hac', hj.self⟩
    · next hne =>
      split
      · next hedge =>
        -- a path back would close a cycle
        have hpath : ¬ TransGen (Edge g) id h := fun hp => hac id (hp.tail hedge)
        rw [forbidden_cons hne hpath]
        rcases ih hac hbelow with hbad | ⟨hgood, g', hok, hac', hj⟩
        · exact Or.inl hbad
        · exact Or.inr ⟨hgood, g', hok, hac', hj.known hedge⟩
      · obtain ⟨r, hr, hanswer⟩ := doesFollow_spec hac hbelow (Nat.lt_succ_self n) hid h
        rw [hr]
        cases r with
        | true =>
          exact Or.inl ⟨Or.inr ⟨h, List.mem_cons_self, hne, hanswer.mp rfl⟩, rfl⟩
        | false =>
          have hpath : ¬ TransGen (Edge g) id h := fun hp => by cases hanswer.mpr hp
          have htargets : Targets (setEdge g h id) n := by
            intro a b hab
            rcases (setEdge_edge g h id a b).mp hab with hab | ⟨_, hb⟩
            · exact hbelow a b hab
            · exact hb ▸ hid
          rw [forbidden_cons hne hpath, ← forbidden_setEdge hne hpath]
          rcases ih (setEdge_acyclic hac hne hpath) htargets with hbad | ⟨hgood, g', hok, hac', hj⟩
          · exact Or.inl hbad
          · exact Or.inr ⟨hgood, g', hok, hac', hj.new hne⟩

end

/-- The graph a completed loop leaves: the old edges and one from every other held lock. -/
structure Extended (g g' : Graph) (n id : Nat) (hs : List Nat) : Prop where
  acyclic : Digraph.Acyclic (Edge g')
  below : Below g' n
  edge_iff : ∀ a b, Edge g' a b ↔ Edge g a b ∨ (b = id ∧ a ∈ hs ∧ a ≠ id)

theorem checkHeld_spec {n id : Nat} {recursive : Bool} {hs : List Nat} {g : Graph}
    (hac : Digraph.Acyclic (Edge g)) (hbelow : Below g n) (hid : id < n)
    (hhs : ∀ h ∈ hs, h < n) :
    checkHeld n id recursive hs g = .error .abort ∨
      ∃ g', checkHeld n id recursive hs g = .ok g' ∧ Extended g g' n id hs := by
  rcases checkHeld_exact hs hac hbelow.targets hid with ⟨_, herr⟩ | ⟨_, g', hok, hac', hj⟩
  · exact Or.inl herr
  · refine Or.inr ⟨g', hok, hac', ?_, hj⟩
    intro a b hab
    rcases (hj a b).mp hab with hab | ⟨hb, ha, _⟩
    · exact hbelow a b hab
    · exact ⟨hhs a ha, hb ▸ hid⟩

theorem checkHeld_not_mem {n id : Nat} {hs : List Nat} {g g' : Graph}
    (h : checkHeld n id false hs g = .ok g') : id ∉ hs := by
  induction hs generalizing g with
  | nil => simp
  | cons a hs ih =>
    simp only [checkHeld] at h
    split at h
    · cases h
    · next hne =>
      have hmem : id ∉ hs := by
        split at h
        · exact ih h
        · split at h
          · cases h
          · cases h
          · exact ih h
      intro hid
      rcases List.mem_cons.mp hid with heq | hid
      · exact hne heq.symm
      · exact hmem hid

theorem checkHeld_ne_diverge {n id : Nat} {recursive : Bool} {hs : List Nat} {g : Graph}
    (hac : Digraph.Acyclic (Edge g)) (hbelow : Below g n) (hid : id < n)
    (hhs : ∀ h ∈ hs, h < n) : checkHeld n id recursive hs g ≠ .error .diverge := by
  intro hdiv
  rcases checkHeld_spec hac hbelow hid hhs with herr | ⟨g', hok, _⟩
  · rw [hdiv] at herr
    cases herr
  · rw [hdiv] at hok
    cases hok

theorem purge_acyclic {g : Graph} (hac : Digraph.Acyclic (Edge g)) (n id : Nat) :
    Digraph.Acyclic (Edge (purge g n id)) :=
  hac.mono fun _ _ h => (purge_edge h).1

theorem purge_below {g : Graph} {m : Nat} (h : Below g m) (n id : Nat) :
    Below (purge g n id) m := fun a b hab => h a b (purge_edge hab).1

structure GraphInv (s : State T) : Prop where
  acyclic : Digraph.Acyclic (Edge s.follows)
  below : Below s.follows s.currentMaxid
  held_lt : ∀ p, ∀ a ∈ s.held p, a < s.currentMaxid
  lockIds_lt : ∀ name a, s.lockIds name = some a → a < s.currentMaxid

theorem GraphInv.initial : GraphInv (initial : State T) where
  acyclic := Digraph.Acyclic.of_empty (by simp [Edge, Lockdep.initial])
  below := by simp [Below, Edge, Lockdep.initial]
  held_lt := by simp [Lockdep.initial]
  lockIds_lt := by simp [Lockdep.initial]

theorem GraphInv.globalInit {s : State T} (h : GraphInv s) : GraphInv (lockdepGlobalInit s) := by
  unfold lockdepGlobalInit
  split
  · exact h
  · split
    · exact ⟨h.acyclic, h.below, h.held_lt, h.lockIds_lt⟩
    · exact ⟨h.acyclic, h.below, h.held_lt, h.lockIds_lt⟩

theorem destroyed_edge {s : State T} (h : GraphInv s) (hg : s.gLockdep = true) (a b : Nat) :
    ¬ Edge (lockdepGlobalDestroy s).follows a b := by
  intro hab
  simp only [lockdepGlobalDestroy, hg, if_true, Edge] at hab
  split at hab
  · cases hab
  · next ha => exact ha (h.below a b hab).1

theorem GraphInv.globalDestroy {s : State T} (h : GraphInv s) :
    GraphInv (lockdepGlobalDestroy s) := by
  cases hg : s.gLockdep with
  | false => simpa [lockdepGlobalDestroy, hg] using h
  | true =>
    have hnone := destroyed_edge h hg
    refine ⟨Digraph.Acyclic.of_empty hnone, fun a b hab => absurd hab (hnone a b), ?_, ?_⟩
    · simp [lockdepGlobalDestroy, hg]
    · simp [lockdepGlobalDestroy, hg]

theorem registerLocked_inv {s s' : State T} {name : String} {i : Int} (hs : GraphInv s)
    (h : registerLocked s name = .ok (s', i)) :
    GraphInv s' ∧ s.currentMaxid ≤ s'.currentMaxid ∧ i < s'.currentMaxid := by
  cases hg : s.gLockdep with
  | false =>
    rw [registerLocked_off hg] at h
    obtain ⟨rfl, rfl⟩ := Prod.mk.inj (Except.ok.inj h)
    exact ⟨hs, Nat.le_refl _, by omega⟩
  | true =>
    rcases registerLocked_cases hg h with ⟨k, rfl, hname, _, rfl⟩ | ⟨k, rfl, _, hf⟩
    · have hk := hs.lockIds_lt name k hname
      exact ⟨⟨hs.acyclic, hs.below, hs.held_lt, hs.lockIds_lt⟩, Nat.le_refl _,
        Int.ofNat_lt.mpr hk⟩
    · have hle : s.currentMaxid ≤ s'.currentMaxid := by rw [hf.maxid]; omega
      have hk : k < s'.currentMaxid := by rw [hf.maxid]; omega
      refine ⟨⟨?_, ?_, ?_, ?_⟩, hle, Int.ofNat_lt.mpr hk⟩
      · rw [hf.follows]
        exact hs.acyclic
      · rw [hf.follows]
        exact hs.below.mono hle
      · intro p a ha
        rw [hf.held] at ha
        exact Nat.lt_of_lt_of_le (hs.held_lt p a ha) hle
      · intro n a ha
        rw [hf.lockIds] at ha
        by_cases hn : n = name
        · subst hn
          rw [update_self] at ha
          obtain rfl : k = a := Option.some.inj ha
          exact hk
        · rw [update_of_ne hn] at ha
          exact Nat.lt_of_lt_of_le (hs.lockIds_lt n a ha) hle

theorem ensureId_inv {s s' : State T} {name : String} {id i : Int} (hs : GraphInv s)
    (hid : id < s.currentMaxid) (h : ensureId s name id = .ok (s', i)) :
    GraphInv s' ∧ s.currentMaxid ≤ s'.currentMaxid ∧ i < s'.currentMaxid := by
  unfold ensureId at h
  split at h
  · exact registerLocked_inv hs h
  · obtain ⟨rfl, rfl⟩ := Prod.mk.inj (Except.ok.inj h)
    exact ⟨hs, Nat.le_refl _, hid⟩

theorem checkHeld_extended {s : State T} {t : T} {k : Nat} {recursive : Bool} {g : Graph}
    (hs : GraphInv s) (hk : k < s.currentMaxid)
    (h : checkHeld s.currentMaxid k recursive (s.held t) s.follows = .ok g) :
    Extended s.follows g s.currentMaxid k (s.held t) := by
  rcases checkHeld_spec hs.acyclic hs.below hk (hs.held_lt t) with herr | ⟨g', hok, hext⟩
  · rw [h] at herr
    cases herr
  · rw [h] at hok
    exact Except.ok.inj hok ▸ hext

/-- The call aborts for a lock that is held and not recursive, or that has a path to a held one; or
it adds the edges from the held locks, and nothing else. -/
theorem will_lock_exact (s : State T) (p : T) (name : String) (id : Nat) (recursive : Bool)
    (hon : s.gLockdep = true) (hac : Digraph.Acyclic (Edge s.follows))
    (hbelow : Below s.follows s.currentMaxid) (hid : id < s.currentMaxid) :
    (lockdepWillLock s p name id recursive = .error .abort ↔
      (id ∈ s.held p ∧ recursive = false) ∨
        ∃ h ∈ s.held p, h ≠ id ∧ TransGen (Edge s.follows) id h) ∧
    (¬ lockdepWillLock s p name id recursive = .error .abort →
      ∃ g, lockdepWillLock s p name id recursive = .ok (setFollows s g, id) ∧
        Digraph.Acyclic (Edge g) ∧
        ∀ a b, Edge g a b ↔ Edge s.follows a b ∨ (b = id ∧ a ∈ s.held p ∧ a ≠ id)) := by
  have hcall : lockdepWillLock s p name id recursive = (do
      let follows ← checkHeld s.currentMaxid id recursive (s.held p) s.follows
      .ok (setFollows s follows, (id : Int))) := by
    have hnew : ensureId s name id = .ok (s, id) := if_neg (by omega)
    unfold lockdepWillLock
    rw [hon, hnew]
    exact rfl
  rw [hcall]
  rcases checkHeld_exact (s.held p) hac hbelow.targets hid with
    ⟨hbad, herr⟩ | ⟨hgood, g, hok, hac', hj⟩
  · rw [herr]
    refine ⟨⟨fun _ => hbad, fun _ => rfl⟩, ?_⟩
    intro hnot
    exact absurd rfl hnot
  · rw [hok]
    refine ⟨⟨?_, fun hbad => absurd hbad hgood⟩, fun _ => ⟨g, rfl, hac', hj⟩⟩
    intro herr
    cases herr

/-- Lock 1 was taken under lock 0; whoever holds 1 and 2 may not take 0. -/
theorem will_lock_exact_reversed : lockdepWillLock
    { (initial : State Unit) with
      gLockdep := true
      currentMaxid := 3
      follows := setEdge (fun _ _ => false) 0 1
      held := fun _ => [1, 2] } () "lock0" (0 : Nat) false = .error .abort := by
  have hempty : ∀ a b, ¬ Edge (fun _ _ => false) a b := fun _ _ => Bool.false_ne_true
  have hac : Digraph.Acyclic (Edge (setEdge (fun _ _ => false) 0 1)) := by
    apply setEdge_acyclic (Digraph.Acyclic.of_empty hempty) (by decide)
    intro hpath
    obtain ⟨b, hb, _⟩ := TransGen.head'_iff.mp hpath
    exact hempty 1 b hb
  have hbelow : Below (setEdge (fun _ _ => false) 0 1) 3 :=
    setEdge_below (fun a b hab => absurd hab (hempty a b)) (by decide) (by decide)
  apply (will_lock_exact
    { (initial : State Unit) with
      gLockdep := true
      currentMaxid := 3
      follows := setEdge (fun _ _ => false) 0 1
      held := fun _ => [1, 2] } () "lock0" 0 false rfl hac hbelow (by decide)).1.mpr
  exact Or.inr ⟨1, by decide, by decide, .single rfl⟩

end LockdepSpdk.Lockdep
