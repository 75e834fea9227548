import LockdepSpdk.Lib.Transition
import Mathlib.Logic.Function.Basic
import Mathlib.Data.Nat.Nth

/-!
# Threads that share a store

Threads with states of their own over one store. Where no thread writes what
another one uses, the steps of different threads commute: a run can be put in an
order in which one thread goes first, and what a thread does in it, it does alone.
-/

namespace LockdepSpdk.Interleaving

set_option autoImplicit false

open Function Transition

variable {T L S A V : Type}

/-- Two stores are the same where `uses` holds. -/
def Agree (uses : A → Prop) (m n : A → V) : Prop := ∀ x, uses x → m x = n x

namespace Agree
variable {uses : A → Prop} {m n k : A → V}

theorem refl (m : A → V) : Agree uses m m := fun _ _ => rfl

theorem symm (h : Agree uses m n) : Agree uses n m := fun x hx => (h x hx).symm

theorem trans (h : Agree uses m n) (h' : Agree uses n k) : Agree uses m k :=
  fun x hx => (h x hx).trans (h' x hx)

end Agree

/-- A step of one thread alone: it writes where it may, and sees no more of the store than it
uses. -/
structure Confined (I : S → Prop) (uses writes : A → Prop)
    (step : S × (A → V) → L → S × (A → V) → Prop) : Prop where
  keeps : ∀ {s m l s' m'}, I s → step (s, m) l (s', m') → I s'
  frame : ∀ {s m l s' m'}, I s → step (s, m) l (s', m') → ∀ x, ¬ writes x → m' x = m x
  blind : ∀ {s m l s' m'} (n : A → V), I s → step (s, m) l (s', m') → Agree uses m n →
    ∃ n', step (s, n) l (s', n') ∧ Agree uses m' n'

structure World (T S A V : Type) where
  locals : T → S
  store : A → V

section
variable [DecidableEq T]

def own (t : T) (ls : List (T × L)) : List L := (ls.filter fun l => l.1 = t).map Prod.snd

def others (t : T) (ls : List (T × L)) : List (T × L) := ls.filter fun l => ¬ l.1 = t

/-- A step of a thread on the store. -/
def World.Step (step : T → S × (A → V) → L → S × (A → V) → Prop) (w : World T S A V) (l : T × L)
    (w' : World T S A V) : Prop :=
  ∃ s m, step l.1 (w.locals l.1, w.store) l.2 (s, m) ∧ w' = ⟨update w.locals l.1 s, m⟩

end

/-- What the threads are promised: each is confined, and none writes what another one uses. -/
structure Separate (I : T → S → Prop) (uses writes : T → A → Prop)
    (step : T → S × (A → V) → L → S × (A → V) → Prop) : Prop where
  confined : ∀ t, Confined (I t) (uses t) (writes t) (step t)
  writes_uses : ∀ t x, writes t x → uses t x
  apart : ∀ t u, t ≠ u → ∀ x, writes u x → ¬ uses t x

section
variable [DecidableEq T] {I : T → S → Prop} {uses writes : T → A → Prop}
  {step : T → S × (A → V) → L → S × (A → V) → Prop} {w w' w'' : World T S A V} {t u : T}

def World.Kept (I : T → S → Prop) (w : World T S A V) : Prop := ∀ t, I t (w.locals t)

theorem World.Step.locals_of_ne {l : T × L} (h : w.Step step l w') (hu : u ≠ l.1) :
    w'.locals u = w.locals u := by
  obtain ⟨s, m, -, rfl⟩ := h
  exact update_of_ne hu ..

namespace Separate

theorem keeps (h : Separate I uses writes step) {l : T × L} (hw : w.Kept I)
    (hstep : w.Step step l w') : w'.Kept I := by
  obtain ⟨s, m, hs, rfl⟩ := hstep
  intro u
  by_cases hu : u = l.1
  · subst hu
    rw [show (⟨update w.locals l.1 s, m⟩ : World T S A V).locals l.1 = s from update_self ..]
    exact (h.confined l.1).keeps (hw l.1) hs
  · rw [show (⟨update w.locals l.1 s, m⟩ : World T S A V).locals u = w.locals u
      from update_of_ne hu ..]
    exact hw u

theorem frame (h : Separate I uses writes step) {l : T × L} (hw : w.Kept I)
    (hstep : w.Step step l w') {x : A} (hx : ¬ writes l.1 x) : w'.store x = w.store x := by
  obtain ⟨s, m, hs, rfl⟩ := hstep
  exact (h.confined l.1).frame (hw l.1) hs x hx

theorem agree (h : Separate I uses writes step) {l : T × L} (hw : w.Kept I)
    (hstep : w.Step step l w') (ht : t ≠ l.1) : Agree (uses t) w'.store w.store :=
  fun x hx => h.frame hw hstep fun hwr => h.apart t l.1 ht x hwr hx

theorem commute (h : Separate I uses writes step) {k l : L} (hw : w.Kept I) (htu : t ≠ u)
    (hk : w.Step step (u, k) w') (hl : w'.Step step (t, l) w'') :
    ∃ v, w.Step step (t, l) v ∧ v.Step step (u, k) w'' := by
  have hw' : w'.Kept I := h.keeps hw hk
  obtain ⟨su, mu, hsu, rfl⟩ := hk
  obtain ⟨st, mt, hst, rfl⟩ := hl
  have hlt : update w.locals u su t = w.locals t := update_of_ne htu ..
  change step t (update w.locals u su t, mu) l (st, mt) at hst
  rw [hlt] at hst
  have hmu : Agree (uses t) mu w.store := fun x hx =>
    (h.confined u).frame (hw u) hsu x fun hwr => h.apart t u htu x hwr hx
  obtain ⟨n, hn, hagree⟩ := (h.confined t).blind w.store (hw t) hst hmu
  have hnu : Agree (uses u) w.store n := fun x hx =>
    ((h.confined t).frame (hw t) hn x fun hwr => h.apart u t (Ne.symm htu) x hwr hx).symm
  obtain ⟨n', hn', hagree'⟩ := (h.confined u).blind n (hw u) hsu hnu
  refine ⟨⟨update w.locals t st, n⟩, ⟨st, n, hn, rfl⟩, su, n', ?_, ?_⟩
  · rw [show (⟨update w.locals t st, n⟩ : World T S A V).locals u = w.locals u
      from update_of_ne (Ne.symm htu) ..]
    exact hn'
  · have hstore : n' = mt := by
      funext x
      by_cases hxu : writes u x
      · have hxt : ¬ writes t x := fun hwr =>
          h.apart u t (Ne.symm htu) x hwr (h.writes_uses u x hxu)
        calc n' x = mu x := (hagree' x (h.writes_uses u x hxu)).symm
          _ = mt x := ((h.confined t).frame (hw t) hst x hxt).symm
      · have hleft : n' x = n x := (h.confined u).frame (hw u) hn' x hxu
        by_cases hxt : writes t x
        · exact hleft.trans (hagree x (h.writes_uses t x hxt)).symm
        · have hn0 : n x = w.store x := (h.confined t).frame (hw t) hn x hxt
          have hmu0 : mu x = w.store x := (h.confined u).frame (hw u) hsu x hxu
          have hmt : mt x = mu x := (h.confined t).frame (hw t) hst x hxt
          rw [hleft, hn0, hmt, hmu0]
    rw [hstore]
    exact congrArg (fun f => World.mk f mt) (update_comm (Ne.symm htu) su st w.locals)

/-- A step can be taken before those of other threads that precede it. -/
theorem first (h : Separate I uses writes step) {pre post : List (T × L)} {l : L}
    (hw : w.Kept I) (hpre : ∀ x ∈ pre, x.1 ≠ t)
    (hrun : Run (World.Step step) w (pre ++ (t, l) :: post) w') :
    Run (World.Step step) w ((t, l) :: (pre ++ post)) w' := by
  induction pre generalizing w with
  | nil => exact hrun
  | cons p pre ih =>
    cases hrun with
    | cons hp hrest =>
      obtain ⟨hne, htail⟩ := List.forall_mem_cons.mp hpre
      cases ih (h.keeps hw hp) htail hrest with
      | cons hl hmore =>
        obtain ⟨v, hv, hpv⟩ := h.commute hw (Ne.symm hne) hp hl
        exact .cons hv (.cons hpv hmore)

end Separate

theorem own_cons (t : T) (l : T × L) (ls : List (T × L)) :
    own t (l :: ls) = if l.1 = t then l.2 :: own t ls else own t ls := by
  unfold own
  by_cases hl : l.1 = t
  · simp [hl]
  · simp [hl]

theorem own_append (t : T) (ls ks : List (T × L)) : own t (ls ++ ks) = own t ls ++ own t ks := by
  simp [own]

theorem own_of_ne {ls : List (T × L)} (h : ∀ l ∈ ls, l.1 ≠ t) : own t ls = [] := by
  unfold own
  rw [List.filter_eq_nil_iff.mpr fun l hl => by simpa using h l hl]
  rfl

theorem exists_first {ls : List (T × L)} {l : L} {rest : List L} (h : own t ls = l :: rest) :
    ∃ pre post, ls = pre ++ (t, l) :: post ∧ ∀ x ∈ pre, x.1 ≠ t := by
  induction ls with
  | nil => cases h
  | cons k ls ih =>
    rw [own_cons] at h
    by_cases hk : k.1 = t
    · rw [if_pos hk] at h
      obtain ⟨hl, -⟩ := List.cons.inj h
      refine ⟨[], ls, ?_, fun x hx => (by cases hx)⟩
      rw [List.nil_append, ← hk, ← hl]
    · rw [if_neg hk] at h
      obtain ⟨pre, post, hls, hpre⟩ := ih h
      exact ⟨k :: pre, post, by rw [hls, List.cons_append], List.forall_mem_cons.mpr ⟨hk, hpre⟩⟩

/-- Where a run ends depends only on the order in which each thread takes its own steps. -/
theorem Separate.reorder (h : Separate I uses writes step) {ls ks : List (T × L)} (hw : w.Kept I)
    (hown : ∀ t, own t ls = own t ks) (hrun : Run (World.Step step) w ls w') :
    Run (World.Step step) w ks w' := by
  induction ks generalizing w ls with
  | nil =>
    cases ls with
    | nil => exact hrun
    | cons l ls =>
      have hl := hown l.1
      rw [own_cons, if_pos rfl] at hl
      cases hl
  | cons k ks ih =>
    have hk : own k.1 ls = k.2 :: own k.1 ks := by
      rw [hown, own_cons, if_pos rfl]
    obtain ⟨pre, post, rfl, hpre⟩ := exists_first hk
    cases h.first hw hpre hrun with
    | cons hstep hrest =>
      refine .cons hstep (ih (h.keeps hw hstep) (fun t => ?_) hrest)
      have ht := hown t
      rw [own_append, own_cons, own_cons] at ht
      rw [own_append]
      by_cases hkt : k.1 = t
      · subst hkt
        rw [if_pos rfl, if_pos rfl, own_of_ne hpre, List.nil_append] at ht
        rw [own_of_ne hpre, List.nil_append]
        exact (List.cons.inj ht).2
      · rwa [if_neg hkt, if_neg hkt] at ht

theorem own_tag (t u : T) (ks : List L) :
    own u (ks.map fun l => (t, l)) = if t = u then ks else [] := by
  induction ks with
  | nil => simp [own]
  | cons k ks ih =>
    rw [List.map_cons, own_cons, ih]
    by_cases htu : t = u
    · rw [if_pos htu, if_pos htu, if_pos htu]
    · rw [if_neg htu, if_neg htu, if_neg htu]

theorem own_others (t u : T) (ls : List (T × L)) :
    own u (others t ls) = if t = u then [] else own u ls := by
  induction ls with
  | nil => simp [own, others]
  | cons l ls ih =>
    by_cases hl : l.1 = t
    · have heq : others t (l :: ls) = others t ls := by
        simp [others, hl]
      rw [heq, ih, own_cons]
      by_cases htu : t = u
      · rw [if_pos htu, if_pos htu]
      · rw [if_neg htu, if_neg htu, if_neg (fun h => htu (hl.symm.trans h))]
    · have heq : others t (l :: ls) = l :: others t ls := by
        simp [others, hl]
      rw [heq, own_cons, own_cons, ih]
      by_cases htu : t = u
      · subst htu
        simp [hl]
      · simp [htu]

theorem World.alone {ks : List L} (hrun : Run (World.Step step) w (ks.map fun l => (t, l)) w') :
    Run (step t) (w.locals t, w.store) ks (w'.locals t, w'.store) ∧
      ∀ u, u ≠ t → w'.locals u = w.locals u := by
  induction ks generalizing w with
  | nil =>
    cases hrun with
    | nil => exact ⟨.nil _, fun _ _ => rfl⟩
  | cons k ks ih =>
    cases hrun with
    | cons hstep hrest =>
      obtain ⟨hsolo, hothers⟩ := ih hrest
      obtain ⟨s, m, hs, rfl⟩ := hstep
      rw [show (⟨update w.locals t s, m⟩ : World T S A V).locals t = s from update_self ..] at hsolo
      refine ⟨.cons hs hsolo, fun u hu => (hothers u hu).trans ?_⟩
      exact update_of_ne hu ..

theorem Separate.untouched (h : Separate I uses writes step) {ls : List (T × L)} (hw : w.Kept I)
    (hls : ∀ l ∈ ls, l.1 ≠ t) (hrun : Run (World.Step step) w ls w') :
    w'.locals t = w.locals t ∧ Agree (uses t) w'.store w.store := by
  induction hrun with
  | nil => exact ⟨rfl, .refl _⟩
  | cons hstep _ ih =>
    obtain ⟨hne, htail⟩ := List.forall_mem_cons.mp hls
    obtain ⟨hloc, hagree⟩ := ih (h.keeps hw hstep) htail
    exact ⟨hloc.trans (hstep.locals_of_ne (Ne.symm hne)),
      hagree.trans (h.agree hw hstep (Ne.symm hne))⟩

/-- What a thread does in a run, it does alone, with the same outcome where it looks. -/
theorem Separate.project (h : Separate I uses writes step) {ls : List (T × L)} (hw : w.Kept I)
    (hrun : Run (World.Step step) w ls w') (t : T) :
    ∃ m, Run (step t) (w.locals t, w.store) (own t ls) (w'.locals t, m) ∧
      Agree (uses t) m w'.store := by
  have hown : ∀ u, own u ls = own u ((own t ls).map (fun l => (t, l)) ++ others t ls) := by
    intro u
    rw [own_append, own_tag, own_others]
    by_cases htu : t = u
    · rw [if_pos htu, if_pos htu, List.append_nil, htu]
    · rw [if_neg htu, if_neg htu, List.nil_append]
  have hserial := h.reorder hw hown hrun
  obtain ⟨v, hfirst, hrest⟩ := hserial.split
  obtain ⟨hsolo, -⟩ := World.alone hfirst
  have hv : v.Kept I := hfirst.invariant (fun _ _ _ => h.keeps) hw
  have hother : ∀ l ∈ others t ls, l.1 ≠ t := by
    intro l hl
    simpa [others] using (List.mem_filter.mp hl).2
  obtain ⟨hloc, hagree⟩ := h.untouched hv hother hrest
  rw [← hloc] at hsolo
  exact ⟨v.store, hsolo, hagree.symm⟩

/-! Runs that never end. -/

def Moves (r : InfiniteRun (World.Step step) w) (t : T) : Prop :=
  ∀ n, ∃ m, n ≤ m ∧ (r.label m).1 = t

/-- When the thread takes its step `n`. -/
noncomputable def Moves.time {r : InfiniteRun (World.Step step) w} (_h : Moves r t) (n : Nat) : Nat :=
  Nat.nth (fun m => (r.label m).1 = t) n

namespace Moves
variable {r : InfiniteRun (World.Step step) w}

theorem infinite (h : Moves r t) : {m | (r.label m).1 = t}.Infinite := by
  refine Set.infinite_of_forall_exists_gt fun n => ?_
  obtain ⟨m, hm, ht⟩ := h (n + 1)
  exact ⟨m, ht, by omega⟩

theorem label_time (h : Moves r t) (n : Nat) : (r.label (h.time n)).1 = t :=
  Nat.nth_mem_of_infinite h.infinite n

theorem time_lt (h : Moves r t) {m n : Nat} : h.time m < h.time n ↔ m < n :=
  Nat.nth_lt_nth h.infinite

theorem exists_time (h : Moves r t) {m : Nat} (hm : (r.label m).1 = t) : ∃ n, h.time n = m := by
  obtain ⟨n, -, hn⟩ := Nat.exists_lt_card_nth_eq (p := fun m => (r.label m).1 = t) hm
  exact ⟨n, hn⟩

theorem idle (h : Moves r t) {m n : Nat} (hlo : h.time n < m) (hhi : m < h.time (n + 1)) :
    (r.label m).1 ≠ t := by
  intro hm
  obtain ⟨k, rfl⟩ := h.exists_time hm
  have h1 := h.time_lt.mp hlo
  have h2 := h.time_lt.mp hhi
  omega

theorem idle_first (h : Moves r t) {m : Nat} (hhi : m < h.time 0) : (r.label m).1 ≠ t := by
  intro hm
  obtain ⟨k, rfl⟩ := h.exists_time hm
  have h2 := h.time_lt.mp hhi
  omega

end Moves

theorem Separate.kept (h : Separate I uses writes step) (r : InfiniteRun (World.Step step) w)
    (hw : w.Kept I) (n : Nat) : (r.state n).Kept I :=
  r.invariant (I := World.Kept I) (fun _ _ _ hs hstep => h.keeps hs hstep) hw n

theorem Separate.idle (h : Separate I uses writes step) (r : InfiniteRun (World.Step step) w)
    (hw : w.Kept I) {a b : Nat} (hab : a ≤ b) (hidle : ∀ m, a ≤ m → m < b → (r.label m).1 ≠ t) :
    (r.state b).locals t = (r.state a).locals t ∧
      Agree (uses t) (r.state b).store (r.state a).store := by
  induction b, hab using Nat.le_induction with
  | base => exact ⟨rfl, .refl _⟩
  | succ b hab ih =>
    obtain ⟨hloc, hagree⟩ := ih fun m hm hlt => hidle m hm (by omega)
    have hne := hidle b hab (by omega)
    exact ⟨((r.step b).locals_of_ne (Ne.symm hne)).trans hloc,
      (h.agree (h.kept r hw b) (r.step b) (Ne.symm hne)).trans hagree⟩

/-- A run in which the thread never stops moving, as the thread alone lives it. -/
theorem Separate.project_infinite (h : Separate I uses writes step)
    (r : InfiniteRun (World.Step step) w) (hw : w.Kept I) (ht : Moves r t) :
    ∃ q : InfiniteRun (step t) (w.locals t, w.store), ∀ n,
      q.label n = (r.label (ht.time n)).2 ∧
      (q.state n).1 = (r.state (ht.time n)).locals t ∧
      Agree (uses t) (q.state n).2 (r.state (ht.time n)).store := by
  have hstart : (r.state (ht.time 0)).locals t = w.locals t ∧
      Agree (uses t) w.store (r.state (ht.time 0)).store := by
    obtain ⟨hloc, hagree⟩ := h.idle r hw (Nat.zero_le (ht.time 0)) fun m _ hm => ht.idle_first hm
    rw [r.start] at hloc hagree
    exact ⟨hloc, hagree.symm⟩
  have hnext : ∀ n (m : A → V), Agree (uses t) m (r.state (ht.time n)).store →
      ∃ m', step t ((r.state (ht.time n)).locals t, m) (r.label (ht.time n)).2
        ((r.state (ht.time (n + 1))).locals t, m') ∧
        Agree (uses t) m' (r.state (ht.time (n + 1))).store := by
    intro n m hm
    have hlabel := ht.label_time n
    obtain ⟨s, k, hs, heq⟩ := r.step (ht.time n)
    have hlt : ht.time n + 1 ≤ ht.time (n + 1) := ht.time_lt.mpr (Nat.lt_succ_self n)
    obtain ⟨hloc, hagree⟩ := h.idle r hw hlt fun i hi hlt => ht.idle (by omega) hlt
    rw [hlabel] at hs heq
    obtain ⟨m', hm', hk⟩ :=
      (h.confined t).blind m (h.kept r hw (ht.time n) t) hs hm.symm
    rw [heq] at hloc hagree
    rw [show (⟨update (r.state (ht.time n)).locals t s, k⟩ : World T S A V).locals t = s
      from update_self ..] at hloc
    rw [hloc]
    exact ⟨m', hm', hk.symm.trans hagree.symm⟩
  choose next hstep hagree using hnext
  let store : (n : Nat) → { m // Agree (uses t) m (r.state (ht.time n)).store } := fun n =>
    Nat.rec ⟨w.store, hstart.2⟩ (fun n m => ⟨next n m.1 m.2, hagree n m.1 m.2⟩) n
  refine ⟨⟨fun n => ((r.state (ht.time n)).locals t, (store n).1),
    fun n => (r.label (ht.time n)).2, ?_, fun n => hstep n (store n).1 (store n).2⟩, fun n => ?_⟩
  · exact Prod.ext hstart.1 rfl
  · exact ⟨rfl, rfl, (store n).2⟩

/-- What a thread gets done alone, it gets done among others: it stays safe, it ends with the same
result where it looks, and it does end while it goes on moving and gets its deliveries. -/
structure Among (step : T → S × (A → V) → L → S × (A → V) → Prop) (uses : A → Prop) (t : T)
    (Pending : S → Prop) (Delivers : L → Prop) (Safe : S × (A → V) → Prop) (Stop : S → Prop)
    (Q : S × (A → V) → Prop) (w : World T S A V) : Prop where
  safe : ∀ ls w', Run (World.Step step) w ls w' →
    ∃ m, Agree uses m w'.store ∧ Safe (w'.locals t, m)
  stop : ∀ ls w', Run (World.Step step) w ls w' → Stop (w'.locals t) →
    ∃ m, Agree uses m w'.store ∧ Q (w'.locals t, m)
  ends : ∀ r : InfiniteRun (World.Step step) w, Moves r t →
    ¬ ∀ n, Pending ((r.state n).locals t) →
      ∃ m, n ≤ m ∧ (r.label m).1 = t ∧ Delivers (r.label m).2

theorem Separate.among (h : Separate I uses writes step) (hw : w.Kept I)
    {Pending : S → Prop} {Delivers : L → Prop} {Safe : S × (A → V) → Prop} {Stop : S → Prop}
    {Q : S × (A → V) → Prop}
    (htotal : Total (step t) (fun a => Pending a.1) Delivers Safe (fun a => Stop a.1) Q
      (w.locals t, w.store)) :
    Among step (uses t) t Pending Delivers Safe Stop Q w where
  safe := by
    intro ls w' hrun
    obtain ⟨m, hsolo, hagree⟩ := h.project hw hrun t
    exact ⟨m, hagree, htotal.safe _ _ hsolo⟩
  stop := by
    intro ls w' hrun hstop
    obtain ⟨m, hsolo, hagree⟩ := h.project hw hrun t
    exact ⟨m, hagree, htotal.stop _ _ hsolo hstop⟩
  ends := by
    intro r hmoves hfair
    obtain ⟨q, hq⟩ := h.project_infinite r hw hmoves
    refine htotal.ends q fun n hpending => ?_
    have hlocal : Pending (q.state n).1 := hpending
    rw [(hq n).2.1] at hlocal
    obtain ⟨m, hm, hlabel, hdelivers⟩ := hfair _ hlocal
    obtain ⟨k, rfl⟩ := hmoves.exists_time hlabel
    refine ⟨k, ?_, by rwa [(hq k).1]⟩
    by_contra hlt
    have hback := hmoves.time_lt.mpr (Nat.lt_of_not_le hlt)
    omega

end

end LockdepSpdk.Interleaving
