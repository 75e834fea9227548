import Mathlib.Algebra.GroupWithZero.Nat
import Mathlib.Logic.Function.Basic
import Mathlib.Tactic.Common

/-!
# Ranges of a memory

A memory is a function of its addresses. `blit` overwrites a range, `Within` and
`Apart` speak of ranges given by a start and a length, `Tiles` of a list of them
that fills a range without gap or overlap. `Settled` says of a memory that is
overwritten range by range where it has come to its final contents.
-/

namespace LockdepSpdk.ByteRange

set_option autoImplicit false

variable {α : Type}

/-- `m` with the `n` cells from `a` on taken from `src`. -/
def blit (m : Nat → α) (a n : Nat) (src : Nat → α) : Nat → α :=
  fun x => if a ≤ x ∧ x < a + n then src (x - a) else m x

def Within (a n x : Nat) : Prop := a ≤ x ∧ x < a + n

def Apart (a n b m : Nat) : Prop := a + n ≤ b ∨ b + m ≤ a

theorem Apart.symm {a n b m : Nat} (h : Apart a n b m) : Apart b m a n := by
  unfold Apart at *
  omega

theorem Apart.not_within {a n b m x : Nat} (h : Apart a n b m) (hx : Within a n x) :
    ¬ Within b m x := by
  unfold Apart Within at *
  omega

theorem Apart.mono {a n b m a' n' b' m' : Nat} (h : Apart a n b m) (ha : a ≤ a')
    (hn : a' + n' ≤ a + n) (hb : b ≤ b') (hm : b' + m' ≤ b + m) : Apart a' n' b' m' := by
  unfold Apart at *
  omega

theorem Within.offset {a n x : Nat} (h : Within a n x) : ∃ j, j < n ∧ x = a + j := by
  unfold Within at h
  exact ⟨x - a, by omega, by omega⟩

@[simp] theorem within_add {a n j : Nat} : Within a n (a + j) ↔ j < n := by
  unfold Within
  omega

theorem blit_within (m : Nat → α) {a n j : Nat} (src : Nat → α) (h : j < n) :
    blit m a n src (a + j) = src j := by
  unfold blit
  rw [if_pos (by omega), Nat.add_sub_cancel_left]

theorem blit_outside (m : Nat → α) {a n x : Nat} (src : Nat → α) (h : ¬ Within a n x) :
    blit m a n src x = m x := if_neg h

@[simp] theorem blit_zero (m : Nat → α) (a : Nat) (src : Nat → α) : blit m a 0 src = m := by
  funext x
  apply blit_outside
  unfold Within
  omega

theorem blit_blit (m : Nat → α) (a n k : Nat) (src : Nat → α) :
    blit (blit m a n src) (a + n) k (fun j => src (n + j)) = blit m a (n + k) src := by
  funext x
  unfold blit
  by_cases h1 : a + n ≤ x ∧ x < a + n + k
  · rw [if_pos h1, if_pos (by omega)]
    have heq : n + (x - (a + n)) = x - a := by omega
    change src (n + (x - (a + n))) = src (x - a)
    rw [heq]
  · rw [if_neg h1]
    by_cases h2 : a ≤ x ∧ x < a + n
    · rw [if_pos h2, if_pos (by omega)]
    · rw [if_neg h2, if_neg (by omega)]

theorem blit_congr (m : Nat → α) {a n : Nat} {src src' : Nat → α} (h : ∀ j, j < n → src j = src' j) :
    blit m a n src = blit m a n src' := by
  funext x
  unfold blit
  by_cases hx : a ≤ x ∧ x < a + n
  · rw [if_pos hx, if_pos hx, h _ (by omega)]
  · rw [if_neg hx, if_neg hx]

/-- Outside the ranges in `todo`, `m` is `final`. -/
def Settled (m final : Nat → α) (todo : Nat → Nat → Prop) : Prop :=
  ∀ x, (∀ a n, todo a n → ¬ Within a n x) → m x = final x

namespace Settled
variable {m final : Nat → α} {todo todo' : Nat → Nat → Prop} {a n : Nat}

theorem mono (h : Settled m final todo) (hle : ∀ a n, todo a n → todo' a n) :
    Settled m final todo' := by
  intro x hx
  apply h
  intro a n hr
  exact hx a n (hle a n hr)

theorem done (h : Settled m final fun _ _ => False) : m = final := by
  funext x
  apply h
  intro a n hr
  cases hr

theorem self (m : Nat → α) (todo : Nat → Nat → Prop) : Settled m m todo := fun _ _ => rfl

theorem blit {src : Nat → α} (h : Settled m final todo)
    (hsrc : ∀ j, j < n → src j = final (a + j))
    (hleft : ∀ b k, todo b k → todo' b k ∨ (b = a ∧ k = n)) :
    Settled (blit m a n src) final todo' := by
  intro x hx
  by_cases hin : Within a n x
  · obtain ⟨j, hj, rfl⟩ := hin.offset
    rw [blit_within m src hj]
    exact hsrc j hj
  · rw [blit_outside m src hin]
    apply h
    intro b k hr
    rcases hleft b k hr with hr | ⟨rfl, rfl⟩
    · exact hx b k hr
    · exact hin

theorem read (h : Settled m final todo) (hapart : ∀ b k, todo b k → Apart a n b k) {j : Nat}
    (hj : j < n) : m (a + j) = final (a + j) := by
  apply h
  intro b k hr
  exact (hapart b k hr).not_within (within_add.mpr hj)

end Settled

/-- Consecutive ranges from `a` on, `n` cells in all. -/
def Tiles : Nat → Nat → List (Nat × Nat) → Prop
  | _, n, [] => n = 0
  | a, n, r :: l => r.1 = a ∧ r.2 ≤ n ∧ Tiles (a + r.2) (n - r.2) l

instance : (a n : Nat) → (l : List (Nat × Nat)) → Decidable (Tiles a n l)
  | _, n, [] => inferInstanceAs (Decidable (n = 0))
  | a, n, r :: l =>
    have := instDecidableTiles (a + r.2) (n - r.2) l
    inferInstanceAs (Decidable (r.1 = a ∧ r.2 ≤ n ∧ Tiles (a + r.2) (n - r.2) l))

namespace Tiles
variable {a n : Nat} {l : List (Nat × Nat)}

theorem sum (h : Tiles a n l) : (l.map Prod.snd).sum = n := by
  induction l generalizing a n with
  | nil => exact h.symm
  | cons r l ih =>
    obtain ⟨_, hle, htail⟩ := h
    have hsum := ih htail
    simp only [List.map_cons, List.sum_cons]
    omega

theorem bounds (h : Tiles a n l) {r : Nat × Nat} (hr : r ∈ l) : a ≤ r.1 ∧ r.1 + r.2 ≤ a + n := by
  induction l generalizing a n with
  | nil => cases hr
  | cons q l ih =>
    obtain ⟨hq, hle, htail⟩ := h
    rcases List.mem_cons.mp hr with heq | hr
    · subst heq
      omega
    · have hb := ih htail hr
      omega

theorem cover (h : Tiles a n l) {x : Nat} (hx : Within a n x) : ∃ r ∈ l, Within r.1 r.2 x := by
  unfold Within at *
  induction l generalizing a n with
  | nil =>
    obtain rfl : n = 0 := h
    omega
  | cons r l ih =>
    obtain ⟨hr, hle, htail⟩ := h
    by_cases hin : x < r.1 + r.2
    · exact ⟨r, List.mem_cons_self, by omega, hin⟩
    · obtain ⟨q, hq, hw⟩ := ih htail (by omega)
      exact ⟨q, List.mem_cons_of_mem r hq, hw⟩

end Tiles

end LockdepSpdk.ByteRange
