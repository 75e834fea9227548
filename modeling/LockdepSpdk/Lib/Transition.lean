import Mathlib.Logic.Relation
import Mathlib.Order.WellFounded
import Mathlib.Order.Monotone.Basic

/-!
# Labelled transition systems

Runs, reachability with its invariant rule, and total correctness under fair
delivery, with the rule for it: a measure that no step raises and every delivery
lowers, and a second measure that every other step lowers while nothing waits for
a delivery.
-/

namespace LockdepSpdk.Transition

set_option autoImplicit false

universe u v
variable {S : Type u} {L : Type v}

@[simp] theorem ok_bind {ε α β : Type} (a : α) (f : α → Except ε β) :
    ((.ok a : Except ε α) >>= f) = f a := rfl

theorem bind_ok {ε α β : Type} {x : Except ε α} {f : α → Except ε β} {b : β}
    (h : x >>= f = .ok b) : ∃ a, x = .ok a ∧ f a = .ok b := by
  cases x with
  | error e => cases h
  | ok a => exact ⟨a, rfl, h⟩

theorem bind_error {ε α β : Type} {x : Except ε α} {f : α → Except ε β} {e : ε}
    (h : x >>= f = .error e) : x = .error e ∨ ∃ a, x = .ok a ∧ f a = .error e := by
  cases x with
  | error e' =>
    obtain rfl : e' = e := Except.error.inj h
    exact Or.inl rfl
  | ok a => exact Or.inr ⟨a, rfl, h⟩

theorem ok_of_toOption {ε α : Type} {r : Except ε α} {x : α} (h : x ∈ r.toOption) : r = .ok x := by
  cases r with
  | error e => cases h
  | ok y =>
    obtain rfl : y = x := Option.some.inj h
    exact rfl

/-- What every round of a fallible loop preserves. -/
theorem foldlM_invariant {ε σ α : Type} {f : σ → α → Except ε σ} {I : σ → Prop}
    (hstep : ∀ s l t, I s → f s l = .ok t → I t) {ls : List α} {s t : σ}
    (h : ls.foldlM f s = .ok t) (hs : I s) : I t := by
  induction ls generalizing s with
  | nil =>
    obtain rfl : s = t := Except.ok.inj h
    exact hs
  | cons l ls ih =>
    rw [List.foldlM_cons] at h
    obtain ⟨u, hu, hrest⟩ := bind_ok h
    exact ih hrest (hstep s l u hs hu)

theorem foldlM_forall {ε σ α : Type} {f : σ → α → Except ε σ} {I : σ → Prop} {P : α → Prop}
    (hstep : ∀ s l t, P l → I s → f s l = .ok t → I t) {ls : List α} {s t : σ}
    (hP : ∀ l ∈ ls, P l) (h : ls.foldlM f s = .ok t) (hs : I s) : I t := by
  induction ls generalizing s with
  | nil =>
    obtain rfl : s = t := Except.ok.inj h
    exact hs
  | cons l ls ih =>
    rw [List.foldlM_cons] at h
    obtain ⟨u, hu, hrest⟩ := bind_ok h
    obtain ⟨hl, hls⟩ := List.forall_mem_cons.mp hP
    exact ih hls hrest (hstep s l u hl hs hu)

theorem ok_mk_inj {ε α β : Type} {a c : α} {b d : β}
    (h : (.ok (a, b) : Except ε (α × β)) = .ok (c, d)) : a = c ∧ b = d :=
  Prod.mk.inj (Except.ok.inj h)

/-- Finite runs, with the labels in the order they were taken. -/
inductive Run (Step : S → L → S → Prop) : S → List L → S → Prop where
  | nil (s : S) : Run Step s [] s
  | cons {s t u : S} {l : L} {ls : List L} : Step s l t → Run Step t ls u → Run Step s (l :: ls) u

namespace Run
variable {Step : S → L → S → Prop} {s t u : S} {ls ks : List L}

theorem single {l : L} (h : Step s l t) : Run Step s [l] t := .cons h (.nil t)

theorem trans (hst : Run Step s ls t) (htu : Run Step t ks u) : Run Step s (ls ++ ks) u := by
  induction hst with
  | nil => exact htu
  | cons h _ ih => exact .cons h (ih htu)

theorem snoc {l : L} (hst : Run Step s ls t) (h : Step t l u) : Run Step s (ls ++ [l]) u :=
  hst.trans (.single h)

theorem split (h : Run Step s (ls ++ ks) t) : ∃ u, Run Step s ls u ∧ Run Step u ks t := by
  induction ls generalizing s with
  | nil => exact ⟨s, .nil s, h⟩
  | cons l ls ih =>
    cases h with
    | cons hst hrest =>
      obtain ⟨u, hu, hks⟩ := ih hrest
      exact ⟨u, .cons hst hu, hks⟩

theorem mono {Step' : S → L → S → Prop} (hstep : ∀ s l t, Step s l t → Step' s l t)
    (h : Run Step s ls t) : Run Step' s ls t := by
  induction h with
  | nil => exact .nil _
  | cons hst _ ih => exact .cons (hstep _ _ _ hst) ih

/-- The invariant rule: what every step preserves holds at the end of a run. -/
theorem invariant {I : S → Prop} (hstep : ∀ s l t, I s → Step s l t → I t)
    (h : Run Step s ls t) (hs : I s) : I t := by
  induction h with
  | nil => exact hs
  | cons hst _ ih => exact ih (hstep _ _ _ hs hst)

/-- The invariant rule with the labels taken so far. -/
theorem history {I : List L → S → Prop} (h : Run Step s ls t) (hs : I [] s)
    (hstep : ∀ ks l u v, I ks u → Step u l v → I (ks ++ [l]) v) : I ls t := by
  have hgen : ∀ ks, I ks s → I (ks ++ ls) t := by
    clear hs
    induction h with
    | nil =>
      intro ks hs
      rwa [List.append_nil]
    | @cons s u t l ls hst _ ih =>
      intro ks hs
      have hrest := ih (ks ++ [l]) (hstep ks l s u hs hst)
      rwa [List.append_assoc, List.singleton_append] at hrest
  exact hgen [] hs

/-- The potential rule: where a step of kind `spends` lowers `φ` and one of kind `earns` raises it
by at most `k`, the steps that spend are bounded by the ones that earn. -/
theorem potential {I : S → Prop} (φ : S → Nat) (spends earns : L → Bool) (k : Nat)
    (hinv : ∀ s l t, I s → Step s l t → I t)
    (hstep : ∀ s l t, I s → Step s l t →
      (if spends l then 1 else 0) + φ t ≤ φ s + k * (if earns l then 1 else 0))
    (h : Run Step s ls t) (hs : I s) :
    ls.countP spends + φ t ≤ φ s + k * ls.countP earns := by
  induction h with
  | nil => simp
  | @cons s u t l ls hst _ ih =>
    have hone := hstep s l u hs hst
    have hrest := ih (hinv s l u hs hst)
    rw [List.countP_cons, List.countP_cons, Nat.mul_add]
    omega

theorem map {S' : Type u} {Step' : S' → L → S' → Prop} {f : S → S'}
    (hstep : ∀ s l t, Step s l t → Step' (f s) l (f t)) (h : Run Step s ls t) :
    Run Step' (f s) ls (f t) := by
  induction h with
  | nil => exact .nil _
  | cons hst _ ih => exact .cons (hstep _ _ _ hst) ih

/-- A run to a state with `P` keeps `P` from its start on, or there is a last step into `P`. -/
theorem entered {P : S → Prop} (h : Run Step s ls t) (ht : P t) :
    (P s ∧ Run (fun a l b => Step a l b ∧ P b) s ls t) ∨
    ∃ ls₁ l ls₂ u v, ls = ls₁ ++ l :: ls₂ ∧ Run Step s ls₁ u ∧ ¬ P u ∧ Step u l v ∧ P v ∧
      Run (fun a l b => Step a l b ∧ P b) v ls₂ t := by
  induction h with
  | nil => exact Or.inl ⟨ht, .nil _⟩
  | @cons s v t l ls hstep _ ih =>
    rcases ih ht with ⟨hv, hkeep⟩ | ⟨ls₁, k, ls₂, u, w, hls, hrun, hu, hk, hw, hkeep⟩
    · by_cases hs : P s
      · exact Or.inl ⟨hs, .cons ⟨hstep, hv⟩ hkeep⟩
      · exact Or.inr ⟨[], l, ls, s, v, rfl, .nil s, hs, hstep, hv, hkeep⟩
    · refine Or.inr ⟨l :: ls₁, k, ls₂, u, w, ?_, .cons hstep hrun, hu, hk, hw, hkeep⟩
      rw [hls, List.cons_append]

end Run

inductive Reachable (Init : S → Prop) (Step : S → L → S → Prop) : S → Prop where
  | start {s : S} : Init s → Reachable Init Step s
  | step {s t : S} {l : L} : Reachable Init Step s → Step s l t → Reachable Init Step t

namespace Reachable
variable {Init : S → Prop} {Step : S → L → S → Prop} {s t : S}

theorem invariant {I : S → Prop} (hinit : ∀ s, Init s → I s)
    (hstep : ∀ s l t, I s → Step s l t → I t) (h : Reachable Init Step s) : I s := by
  induction h with
  | start hs => exact hinit _ hs
  | step _ hst ih => exact hstep _ _ _ ih hst

theorem run {ls : List L} (h : Reachable Init Step s) (hr : Run Step s ls t) :
    Reachable Init Step t := by
  induction hr with
  | nil => exact h
  | cons hst _ ih => exact ih (h.step hst)

end Reachable

/-- A deterministic system run on a list of labels; `none` when one of them cannot be taken. -/
def execAll {E : Type} (exec : S → L → Except E S) (allowed : S → L → Bool) :
    S → List L → Option S
  | s, [] => some s
  | s, l :: ls =>
    if allowed s l then
      match exec s l with
      | .ok t => execAll exec allowed t ls
      | .error _ => none
    else none

theorem execAll_run {E : Type} {exec : S → L → Except E S} {allowed : S → L → Bool}
    {Step : S → L → S → Prop} (hstep : ∀ s l t, allowed s l = true → exec s l = .ok t → Step s l t)
    {s t : S} {ls : List L} (h : execAll exec allowed s ls = some t) : Run Step s ls t := by
  induction ls generalizing s with
  | nil =>
    obtain rfl : s = t := Option.some.inj h
    exact .nil s
  | cons l ls ih =>
    simp only [execAll] at h
    split at h
    · next hl =>
      split at h
      · next u hu => exact .cons (hstep s l u hl hu) (ih h)
      · cases h
    · cases h

/-- A run that never ends. -/
structure InfiniteRun (Step : S → L → S → Prop) (s : S) where
  state : Nat → S
  label : Nat → L
  start : state 0 = s
  step : ∀ n, Step (state n) (label n) (state (n + 1))

namespace InfiniteRun
variable {Step : S → L → S → Prop} {s : S}

theorem invariant {I : S → Prop} (hstep : ∀ s l t, I s → Step s l t → I t)
    (r : InfiniteRun Step s) (hs : I s) (n : Nat) : I (r.state n) := by
  induction n with
  | zero => rwa [r.start]
  | succ n ih => exact hstep _ _ _ ih (r.step n)

/-- Whoever waits for a delivery gets one, now or later. -/
def Fair (r : InfiniteRun Step s) (Pending : S → Prop) (Delivers : L → Prop) : Prop :=
  ∀ n, Pending (r.state n) → ∃ m, n ≤ m ∧ Delivers (r.label m)

/-- Where every state of `I` has a step to a state of `I`, a run can go on for ever. -/
theorem exists_within {I : S → Prop} (hgo : ∀ s, I s → ∃ l t, Step s l t ∧ I t) (hs : I s) :
    ∃ r : InfiniteRun Step s, ∀ n, I (r.state n) := by
  choose label next hnext using hgo
  let state : Nat → { t // I t } := fun n =>
    Nat.rec ⟨s, hs⟩ (fun _ t => ⟨next t.1 t.2, (hnext t.1 t.2).2⟩) n
  refine ⟨⟨fun n => (state n).1, fun n => label (state n).1 (state n).2, rfl, ?_⟩, ?_⟩
  · intro n
    exact (hnext (state n).1 (state n).2).1
  · intro n
    exact (state n).2

end InfiniteRun

theorem exists_stable (f : Nat → Nat) (h : ∀ n, f (n + 1) ≤ f n) :
    ∃ N, ∀ n, N ≤ n → f n = f N := by
  have hanti : Antitone f := antitone_nat_of_succ_le h
  refine ⟨Function.argmin f, fun n hn => ?_⟩
  have hmin : f (Function.argmin f) ≤ f n := Function.argmin_le f n
  have hle : f n ≤ f (Function.argmin f) := hanti hn
  omega

/-- The termination rule. `rank` never rises and every delivery lowers it; `wait` falls with
every step that keeps the rank while no delivery is pending. -/
theorem no_fair_run {Step : S → L → S → Prop} {I : S → Prop} {Pending : S → Prop}
    {Delivers : L → Prop} (rank wait : S → Nat)
    (hinv : ∀ s l t, I s → Step s l t → I t)
    (hrank : ∀ s l t, I s → Step s l t → rank t ≤ rank s)
    (hdeliver : ∀ s l t, I s → Step s l t → Delivers l → rank t < rank s)
    (hwait : ∀ s l t, I s → Step s l t → ¬ Pending s → rank t = rank s → wait t < wait s)
    {s : S} (hs : I s) (r : InfiniteRun Step s) : ¬ r.Fair Pending Delivers := by
  intro hfair
  have hI := r.invariant hinv hs
  obtain ⟨N, hN⟩ := exists_stable (fun n => rank (r.state n))
    (fun n => hrank _ _ _ (hI n) (r.step n))
  have hquiet : ∀ n, N ≤ n → ¬ Delivers (r.label n) := by
    intro n hn hd
    have hlt := hdeliver _ _ _ (hI n) (r.step n) hd
    have h1 := hN n hn
    have h2 := hN (n + 1) (by omega)
    omega
  have hidle : ∀ n, N ≤ n → ¬ Pending (r.state n) := by
    intro n hn hp
    obtain ⟨m, hnm, hd⟩ := hfair n hp
    exact hquiet m (by omega) hd
  have hfall : ∀ k, wait (r.state (N + k)) + k ≤ wait (r.state N) := by
    intro k
    induction k with
    | zero => exact Nat.le_refl _
    | succ k ih =>
      have heq : rank (r.state (N + k + 1)) = rank (r.state (N + k)) := by
        have h1 := hN (N + k) (by omega)
        have h2 := hN (N + k + 1) (by omega)
        omega
      have hlt := hwait _ _ _ (hI (N + k)) (r.step (N + k)) (hidle _ (by omega)) heq
      have hadd : N + (k + 1) = N + k + 1 := by omega
      rw [hadd]
      omega
  have hbig := hfall (wait (r.state N) + 1)
  omega

/-- Total correctness from `s` on: every state on the way is safe, where a run stops `Q` holds, and
no fair run goes on for ever. -/
structure Total (Step : S → L → S → Prop) (Pending : S → Prop) (Delivers : L → Prop)
    (Safe Stop Q : S → Prop) (s : S) : Prop where
  safe : ∀ ls t, Run Step s ls t → Safe t
  stop : ∀ ls t, Run Step s ls t → Stop t → Q t
  ends : ∀ r : InfiniteRun Step s, ¬ r.Fair Pending Delivers

namespace Total
variable {Step : S → L → S → Prop} {Pending : S → Prop} {Delivers : L → Prop}
  {Safe Stop Q Q' : S → Prop} {s : S}

theorem mono (h : Total Step Pending Delivers Safe Stop Q s) (hQ : ∀ t, Q t → Q' t) :
    Total Step Pending Delivers Safe Stop Q' s where
  safe := h.safe
  stop := fun ls t hrun ht => hQ t (h.stop ls t hrun ht)
  ends := h.ends

/-- What simulates a correct system step by step is as correct. -/
theorem comap {S' : Type u} {Step' : S' → L → S' → Prop} {f : S' → S} {s : S'}
    (h : Total Step Pending Delivers Safe Stop Q (f s))
    (hstep : ∀ s l t, Step' s l t → Step (f s) l (f t)) :
    Total Step' (fun s => Pending (f s)) Delivers (fun s => Safe (f s)) (fun s => Stop (f s))
      (fun s => Q (f s)) s where
  safe := fun ls t hrun => h.safe ls (f t) (hrun.map hstep)
  stop := fun ls t hrun => h.stop ls (f t) (hrun.map hstep)
  ends := by
    intro r hfair
    let q : InfiniteRun Step (f s) := ⟨fun n => f (r.state n), r.label, congrArg f r.start,
      fun n => hstep _ _ _ (r.step n)⟩
    exact h.ends q hfair

/-- The rule: an invariant that is safe and gives `Q` where the run stops, and the measures of
`no_fair_run`. -/
theorem of_invariant {I : S → Prop} (rank wait : S → Nat)
    (hinv : ∀ s l t, I s → Step s l t → I t) (hsafe : ∀ s, I s → Safe s)
    (hstop : ∀ s, I s → Stop s → Q s)
    (hrank : ∀ s l t, I s → Step s l t → rank t ≤ rank s)
    (hdeliver : ∀ s l t, I s → Step s l t → Delivers l → rank t < rank s)
    (hwait : ∀ s l t, I s → Step s l t → ¬ Pending s → rank t = rank s → wait t < wait s)
    (hs : I s) : Total Step Pending Delivers Safe Stop Q s where
  safe := fun _ t hrun => hsafe t (hrun.invariant hinv hs)
  stop := fun _ t hrun ht => hstop t (hrun.invariant hinv hs) ht
  ends := fun r => no_fair_run rank wait hinv hrank hdeliver hwait hs r

end Total

end LockdepSpdk.Transition
