import Mathlib.Data.List.Nodup
import Mathlib.Logic.Function.Basic
import Mathlib.Tactic.Common

/-!
# Objects and the slots that own them

Slots of any kind point to objects on a heap. An object is deleted through the slot that
points to it; what a slot pointed to before it is overwritten or forgotten is lost. The
account of a heap says that every object is in one slot, or lost, and in no slot twice.
-/

namespace LockdepSpdk.Ownership

set_option autoImplicit false

open Function

universe u
variable {L : Type u}

/-- The objects are numbered in the order they are created. -/
structure Heap (L : Type u) where
  slot : L → Option Nat
  live : Nat → Bool
  fresh : Nat

namespace Heap

def empty : Heap L := ⟨fun _ => none, fun _ => false, 0⟩

/-- What is read through the pointer is there; a null pointer is not followed. -/
def reads (h : Heap L) (p : Option Nat) : Bool := p.all h.live

def forget (h : Heap L) (P : L → Bool) : Heap L :=
  { h with slot := fun l => if P l then none else h.slot l }

theorem forget_comm (h : Heap L) (P Q : L → Bool) :
    (h.forget P).forget Q = (h.forget Q).forget P := by
  have hslot : ((h.forget P).forget Q).slot = ((h.forget Q).forget P).slot := by
    funext l
    simp only [forget]
    cases P l <;> cases Q l <;> rfl
  exact congrArg (Heap.mk · h.live h.fresh) hslot

/-- `delete` of what `l` points to; the slot keeps its pointer. -/
def delete (h : Heap L) (l : L) : Option (Heap L) :=
  match h.slot l with
  | none => some h
  | some n => if h.live n then some { h with live := update h.live n false } else none

def Owns (h : Heap L) (n : Nat) : Prop := ∃ l, h.slot l = some n

variable [DecidableEq L]

/-- `l` is assigned a new object, or null. -/
def put (h : Heap L) (l : L) (new : Bool) : Heap L :=
  if new then
    ⟨update h.slot l (some h.fresh), update h.live h.fresh true, h.fresh + 1⟩
  else { h with slot := update h.slot l none }

/-- `delete`, and the slot is null afterwards. -/
def free (h : Heap L) (l : L) : Option (Heap L) :=
  (h.delete l).map fun h => { h with slot := update h.slot l none }

end Heap

/-- Every object is in one slot or in `lost`. -/
structure Accounts (h : Heap L) (lost : Nat → Prop) : Prop where
  live : ∀ l n, h.slot l = some n → h.live n = true
  single : ∀ l m n, h.slot l = some n → h.slot m = some n → l = m
  fresh : ∀ n, h.live n = true → n < h.fresh
  gone : ∀ n, lost n → h.live n = true ∧ ¬ h.Owns n
  found : ∀ n, h.live n = true → h.Owns n ∨ lost n

section Rules
variable {h : Heap L} {lost : Nat → Prop}

theorem Accounts.empty : Accounts (Heap.empty : Heap L) fun _ => False where
  live := fun _ _ h => by cases h
  single := fun _ _ _ h => by cases h
  fresh := fun _ h => by cases h
  gone := fun _ h => h.elim
  found := fun _ h => by cases h

theorem Accounts.congr {lost' : Nat → Prop} (hs : Accounts h lost) (hiff : ∀ n, lost n ↔ lost' n) :
    Accounts h lost' := by
  obtain rfl : lost = lost' := funext fun n => propext (hiff n)
  exact hs

theorem Accounts.reads (hs : Accounts h lost) (l : L) : h.reads (h.slot l) = true := by
  cases hl : h.slot l with
  | none => rfl
  | some n => exact hs.live l n hl

theorem Accounts.forget (hs : Accounts h lost) (P : L → Bool) :
    Accounts (h.forget P) fun n => lost n ∨ ∃ l, P l = true ∧ h.slot l = some n := by
  have hslot : ∀ l n, (h.forget P).slot l = some n ↔ P l = false ∧ h.slot l = some n := by
    intro l n
    change (if P l then none else h.slot l) = some n ↔ _
    cases P l with
    | false => simp
    | true => simp
  refine ⟨?_, ?_, hs.fresh, ?_, ?_⟩
  · intro l n hl
    exact hs.live l n ((hslot l n).mp hl).2
  · intro l m n hl hm
    exact hs.single l m n ((hslot l n).mp hl).2 ((hslot m n).mp hm).2
  · rintro n (hn | ⟨l, hP, hl⟩)
    · refine ⟨(hs.gone n hn).1, ?_⟩
      rintro ⟨l, hl⟩
      exact (hs.gone n hn).2 ⟨l, ((hslot l n).mp hl).2⟩
    · refine ⟨hs.live l n hl, ?_⟩
      rintro ⟨m, hm⟩
      obtain ⟨hPm, hm⟩ := (hslot m n).mp hm
      rw [hs.single m l n hm hl, hP] at hPm
      cases hPm
  · intro n hn
    rcases hs.found n hn with ⟨l, hl⟩ | hn
    · cases hP : P l with
      | true => exact Or.inr (Or.inr ⟨l, hP, hl⟩)
      | false => exact Or.inl ⟨l, (hslot l n).mpr ⟨hP, hl⟩⟩
    · exact Or.inr (Or.inl hn)

theorem deleteAll (ls : List L) (hlive : ∀ l ∈ ls, ∀ n, h.slot l = some n → h.live n = true)
    (hsingle : ∀ l m n, h.slot l = some n → h.slot m = some n → l = m) (hnodup : ls.Nodup) :
    ∃ h', ls.foldlM Heap.delete h = some h' ∧ h'.slot = h.slot ∧ h'.fresh = h.fresh ∧
      ∀ n, h'.live n = true ↔ h.live n = true ∧ ∀ l ∈ ls, h.slot l ≠ some n := by
  induction ls generalizing h with
  | nil => exact ⟨h, rfl, rfl, rfl, fun n => by simp⟩
  | cons l ls ih =>
    obtain ⟨hnot, hnodup⟩ := List.nodup_cons.mp hnodup
    obtain ⟨hl, hls⟩ := List.forall_mem_cons.mp hlive
    rw [List.foldlM_cons]
    cases hat : h.slot l with
    | none =>
      have hdel : h.delete l = some h := by rw [Heap.delete, hat]
      obtain ⟨h', hfold, hslot, hfresh, hiff⟩ := ih hls hsingle hnodup
      refine ⟨h', ?_, hslot, hfresh, fun n => ?_⟩
      · rw [hdel]
        exact hfold
      · rw [hiff, List.forall_mem_cons, hat]
        simp
    | some k =>
      have hdel : h.delete l = some { h with live := update h.live k false } := by
        rw [Heap.delete, hat]
        exact if_pos (hl k hat)
      have hrest : ∀ m ∈ ls, ∀ n, h.slot m = some n → update h.live k false n = true := by
        intro m hm n hn
        have hne : n ≠ k := by
          rintro rfl
          exact hnot (hsingle m l n hn hat ▸ hm)
        rw [update_of_ne hne]
        exact hls m hm n hn
      obtain ⟨h', hfold, hslot, hfresh, hiff⟩ :=
        ih (h := { h with live := update h.live k false }) hrest hsingle hnodup
      refine ⟨h', ?_, hslot, hfresh, fun n => ?_⟩
      · rw [hdel]
        exact hfold
      · rw [hiff, List.forall_mem_cons, hat]
        change update h.live k false n = true ∧ _ ↔ _
        rcases eq_or_ne n k with rfl | hne
        · rw [update_self]
          simp
        · rw [update_of_ne hne]
          simp [Ne.symm hne]

theorem Accounts.deleteAll_forget (hs : Accounts h lost) {ls : List L} (hnodup : ls.Nodup)
    {P : L → Bool} (hP : ∀ l, P l = true ∧ (h.slot l).isSome = true → l ∈ ls)
    (hls : ∀ l ∈ ls, P l = true) :
    ∃ h', ls.foldlM Heap.delete h = some h' ∧ h'.slot = h.slot ∧ Accounts (h'.forget P) lost := by
  obtain ⟨h', hfold, hslot, hfresh, hiff⟩ :=
    deleteAll ls (fun l _ => hs.live l) hs.single hnodup
  have hkept : ∀ l n, (h'.forget P).slot l = some n ↔ P l = false ∧ h.slot l = some n := by
    intro l n
    change (if P l then none else h'.slot l) = some n ↔ _
    rw [hslot]
    cases P l with
    | false => simp
    | true => simp
  have hlive : ∀ l n, P l = false → h.slot l = some n → h'.live n = true := by
    intro l n hPl hl
    refine (hiff n).mpr ⟨hs.live l n hl, fun m hm hmn => ?_⟩
    rw [hs.single l m n hl hmn, hls m hm] at hPl
    cases hPl
  refine ⟨h', hfold, hslot, ?_, ?_, ?_, ?_, ?_⟩
  · intro l n hl
    obtain ⟨hPl, hl⟩ := (hkept l n).mp hl
    exact hlive l n hPl hl
  · intro l m n hl hm
    exact hs.single l m n ((hkept l n).mp hl).2 ((hkept m n).mp hm).2
  · intro n hn
    change n < h'.fresh
    rw [hfresh]
    exact hs.fresh n ((hiff n).mp hn).1
  · intro n hn
    obtain ⟨hn', hown⟩ := hs.gone n hn
    refine ⟨(hiff n).mpr ⟨hn', fun l _ hl => hown ⟨l, hl⟩⟩, ?_⟩
    rintro ⟨l, hl⟩
    exact hown ⟨l, ((hkept l n).mp hl).2⟩
  · intro n hn
    obtain ⟨hn', hnot⟩ := (hiff n).mp hn
    rcases hs.found n hn' with ⟨l, hl⟩ | hn
    · refine Or.inl ⟨l, (hkept l n).mpr ⟨?_, hl⟩⟩
      rw [← Bool.not_eq_true]
      intro hPl
      exact hnot l (hP l ⟨hPl, hl ▸ rfl⟩) hl
    · exact Or.inr hn

variable [DecidableEq L]

theorem Accounts.put (hs : Accounts h lost) (l : L) (new : Bool) :
    Accounts (h.put l new) fun n => lost n ∨ h.slot l = some n := by
  have hold : ∀ m n, m ≠ l → ((h.put l new).slot m = some n ↔ h.slot m = some n) := by
    intro m n hm
    cases new with
    | false =>
      change update h.slot l none m = some n ↔ _
      rw [update_of_ne hm]
    | true =>
      change update h.slot l (some h.fresh) m = some n ↔ _
      rw [update_of_ne hm]
  have hself : ∀ n, (h.put l new).slot l = some n → new = true ∧ n = h.fresh := by
    intro n hn
    cases new with
    | false =>
      change update h.slot l none l = some n at hn
      rw [update_self] at hn
      cases hn
    | true =>
      change update h.slot l (some h.fresh) l = some n at hn
      rw [update_self] at hn
      exact ⟨rfl, (Option.some.inj hn).symm⟩
  have hlive : ∀ n, (h.put l new).live n = true ↔ h.live n = true ∨ (new = true ∧ n = h.fresh) := by
    intro n
    cases new with
    | false => simp [Heap.put]
    | true =>
      change update h.live h.fresh true n = true ↔ _
      rcases eq_or_ne n h.fresh with rfl | hne
      · simp
      · rw [update_of_ne hne]
        simp [hne]
  have hnew : ∀ m n, h.slot m = some n → n ≠ h.fresh := by
    intro m n hm
    have hlt := hs.fresh n (hs.live m n hm)
    omega
  have hgone : ∀ n, h.live n = true → (¬ ∃ m, m ≠ l ∧ h.slot m = some n) →
      ¬ (h.put l new).Owns n := by
    rintro n hn hnone ⟨m, hm⟩
    rcases eq_or_ne m l with rfl | hne
    · have hlt := hs.fresh n hn
      have heq := (hself n hm).2
      omega
    · exact hnone ⟨m, hne, (hold m n hne).mp hm⟩
  refine ⟨?_, ?_, ?_, ?_, ?_⟩
  · intro m n hm
    rcases eq_or_ne m l with rfl | hne
    · exact (hlive n).mpr (Or.inr (hself n hm))
    · exact (hlive n).mpr (Or.inl (hs.live m n ((hold m n hne).mp hm)))
  · intro m k n hm hk
    rcases eq_or_ne m l with rfl | hml
    · rcases eq_or_ne k m with rfl | hkl
      · rfl
      · exact absurd (hself n hm).2 (hnew k n ((hold k n hkl).mp hk))
    · have hm' := (hold m n hml).mp hm
      rcases eq_or_ne k l with rfl | hkl
      · exact absurd (hself n hk).2 (hnew m n hm')
      · exact hs.single m k n hm' ((hold k n hkl).mp hk)
  · intro n hn
    have hle : h.fresh ≤ (h.put l new).fresh := by
      cases new with
      | false => exact Nat.le_refl _
      | true => exact Nat.le_succ _
    rcases (hlive n).mp hn with hn | ⟨rfl, rfl⟩
    · exact Nat.lt_of_lt_of_le (hs.fresh n hn) hle
    · exact Nat.lt_succ_self _
  · rintro n (hn | hn)
    · obtain ⟨hn', hown⟩ := hs.gone n hn
      refine ⟨(hlive n).mpr (Or.inl hn'), hgone n hn' ?_⟩
      rintro ⟨m, -, hm⟩
      exact hown ⟨m, hm⟩
    · have hn' := hs.live l n hn
      refine ⟨(hlive n).mpr (Or.inl hn'), hgone n hn' ?_⟩
      rintro ⟨m, hne, hm⟩
      exact hne (hs.single m l n hm hn)
  · intro n hn
    rcases (hlive n).mp hn with hn | ⟨rfl, rfl⟩
    · rcases hs.found n hn with ⟨m, hm⟩ | hn
      · rcases eq_or_ne m l with rfl | hne
        · exact Or.inr (Or.inr hm)
        · exact Or.inl ⟨m, (hold m n hne).mpr hm⟩
      · exact Or.inr (Or.inl hn)
    · exact Or.inl ⟨l, update_self _ _ _⟩

theorem Accounts.free (hs : Accounts h lost) (l : L) :
    ∃ h', h.free l = some h' ∧ h'.slot = update h.slot l none ∧ Accounts h' lost := by
  have hnodup : [l].Nodup := List.nodup_singleton l
  obtain ⟨h', hdel, hsame, hacc⟩ := hs.deleteAll_forget hnodup
    (P := fun m => decide (m = l))
    (fun m hm => List.mem_singleton.mpr (of_decide_eq_true hm.1))
    (fun m hm => decide_eq_true (List.mem_singleton.mp hm))
  have hforget : h'.forget (fun m => decide (m = l)) =
      { h' with slot := update h'.slot l none } := by
    have hfun : (fun m => if decide (m = l) = true then none else h'.slot m) =
        update h'.slot l none := by
      funext m
      rcases eq_or_ne m l with rfl | hne
      · rw [update_self]
        exact if_pos (decide_eq_true rfl)
      · rw [update_of_ne hne]
        exact if_neg (fun h => hne (of_decide_eq_true h))
    rw [Heap.forget, hfun]
  have hone : h.delete l = some h' := by
    rw [List.foldlM_cons] at hdel
    obtain ⟨k, hk, hdel⟩ := Option.bind_eq_some_iff.mp hdel
    obtain rfl := Option.some.inj hdel
    exact hk
  refine ⟨{ h' with slot := update h'.slot l none }, ?_, ?_, hforget ▸ hacc⟩
  · rw [Heap.free, hone]
    rfl
  · rw [hsame]

theorem Accounts.freeAll (hs : Accounts h lost) (ls : List L) :
    ∃ h', ls.foldlM Heap.free h = some h' ∧
      (∀ l, h'.slot l = if l ∈ ls then none else h.slot l) ∧ Accounts h' lost := by
  induction ls generalizing h with
  | nil => exact ⟨h, rfl, fun l => by simp, hs⟩
  | cons l ls ih =>
    obtain ⟨h1, hfree, hslot, hs1⟩ := hs.free l
    obtain ⟨h', hfold, hrest, hs'⟩ := ih hs1
    refine ⟨h', ?_, fun m => ?_, hs'⟩
    · rw [List.foldlM_cons, hfree]
      exact hfold
    · rw [hrest, hslot]
      rcases eq_or_ne m l with rfl | hne
      · simp
      · simp [hne]

end Rules

end LockdepSpdk.Ownership
