import Mathlib.Data.Set.Card
import Mathlib.Logic.Function.Basic

/-!
# Counting processes

How many processes of a system are in a place, out of a type of processes that need
not be finite, and how the number moves when one of them does.
-/

namespace LockdepSpdk.Headcount

set_option autoImplicit false

open Function

variable {T A : Type}

def crowd (P : A → Bool) (f : T → A) : Set T := {q | P (f q) = true}

@[simp] theorem mem_crowd {P : A → Bool} {f : T → A} {q : T} :
    q ∈ crowd P f ↔ P (f q) = true := Iff.rfl

variable [DecidableEq T] {P : A → Bool} {f : T → A}

theorem crowd_update_diff (t : T) (a : A) : crowd P (update f t a) \ {t} = crowd P f \ {t} := by
  ext q
  by_cases hq : q = t
  · simp [hq]
  · simp [hq]

theorem crowd_update_finite (h : (crowd P f).Finite) (t : T) (a : A) :
    (crowd P (update f t a)).Finite := by
  have hrest : (crowd P (update f t a) \ {t}).Finite := by
    rw [crowd_update_diff]
    exact h.sdiff
  exact (hrest.insert t).subset (Set.subset_insert_sdiff_singleton t _)

omit [DecidableEq T] in
theorem ncard_diff_self {U : Set T} (h : U.Finite) (t : T) {b : Bool} (hb : t ∈ U ↔ b = true) :
    (U \ {t}).ncard + (if b then 1 else 0) = U.ncard := by
  cases b with
  | true => exact Set.ncard_sdiff_singleton_add_one (hb.mpr rfl) h
  | false => rw [Set.sdiff_singleton_eq_self (by simp [hb])]; rfl

theorem ncard_update (h : (crowd P f).Finite) (t : T) (a : A) :
    (crowd P (update f t a)).ncard + (if P (f t) then 1 else 0) =
      (crowd P f).ncard + if P a then 1 else 0 := by
  have hnew := ncard_diff_self (crowd_update_finite h t a) t (b := P a) (by simp)
  have hold := ncard_diff_self h t (b := P (f t)) (by simp)
  rw [crowd_update_diff] at hnew
  omega

theorem ncard_update_same (h : (crowd P f).Finite) {t : T} {a : A} (ha : P a = P (f t)) :
    (crowd P (update f t a)).ncard = (crowd P f).ncard := by
  have hmove := ncard_update h t a
  rw [ha] at hmove
  omega

end LockdepSpdk.Headcount
