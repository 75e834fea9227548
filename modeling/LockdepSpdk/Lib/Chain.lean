import Mathlib.Data.List.Basic
import Mathlib.Logic.Function.Basic

/-!
# Null-terminated chains

`Chain next p l`: following `next` from the pointer `p` visits the nodes `l` and
ends with null.
-/

namespace LockdepSpdk.Linked

set_option autoImplicit false

open Function

universe u
variable {P : Type u}

inductive Chain (next : P → Option P) : Option P → List P → Prop where
  | nil : Chain next none []
  | cons {p : P} {l : List P} : Chain next (next p) l → Chain next (some p) (p :: l)

namespace Chain
variable {next next' : P → Option P} {p : Option P} {l l' : List P}

theorem head (h : Chain next p l) : p = l.head? := by
  cases h with
  | nil => rfl
  | cons _ => rfl

theorem congr (h : Chain next p l) (heq : ∀ q ∈ l, next' q = next q) : Chain next' p l := by
  induction h with
  | nil => exact .nil
  | @cons q l _ ih =>
    apply Chain.cons
    rw [heq q List.mem_cons_self]
    exact ih fun r hr => heq r (List.mem_cons_of_mem q hr)

theorem unique (h : Chain next p l) (h' : Chain next p l') : l = l' := by
  induction h generalizing l' with
  | nil =>
    cases h' with
    | nil => rfl
  | cons _ ih =>
    cases h' with
    | cons h' => rw [ih h']

theorem suffix {q : P} {a b : List P} (h : Chain next p (a ++ q :: b)) :
    Chain next (some q) (q :: b) := by
  induction a generalizing p with
  | nil =>
    have hp := h.head
    simp only [List.nil_append, List.head?_cons] at hp
    subst hp
    exact h
  | cons r a ih =>
    cases h with
    | cons h => exact ih h

theorem nodup (h : Chain next p l) : l.Nodup := by
  induction h with
  | nil => exact List.nodup_nil
  | @cons q l hl ih =>
    refine List.nodup_cons.mpr ⟨?_, ih⟩
    intro hq
    obtain ⟨a, b, hab⟩ := List.append_of_mem hq
    have hwhole : Chain next (some q) (q :: l) := .cons hl
    rw [hab] at hl
    have heq := hwhole.unique hl.suffix
    have hlen := congrArg List.length heq
    rw [hab] at hlen
    simp only [List.length_cons, List.length_append] at hlen
    omega

theorem next_last {q : P} {a : List P} (h : Chain next p (a ++ [q])) : next q = none := by
  cases h.suffix with
  | cons h =>
    generalize hn : next q = r at h
    cases h with
    | nil => rfl

theorem snoc [DecidableEq P] {r : P} (h : Chain next p l) (hr : next r = none) (hmem : r ∉ l) :
    Chain (fun q => if l.getLast? = some q then some r else next q) (p.orElse fun _ => some r)
      (l ++ [r]) := by
  induction h with
  | nil =>
    apply Chain.cons
    rw [if_neg (by simp), hr]
    exact .nil
  | @cons q l hl ih =>
    have hnd := (Chain.cons hl).nodup
    have hq : q ∉ l := (List.nodup_cons.mp hnd).1
    apply Chain.cons
    cases l with
    | nil =>
      rw [if_pos (by simp)]
      apply Chain.cons
      have hne : r ≠ q := fun heq => hmem (by simp [heq])
      rw [if_neg (by simp [Ne.symm hne]), hr]
      exact .nil
    | cons s l =>
      have ih' := ih (fun hr' => hmem (List.mem_cons_of_mem q hr'))
      have hlast : (q :: s :: l).getLast? = (s :: l).getLast? := by simp [List.getLast?_cons_cons]
      have hne : (s :: l).getLast? ≠ some q := by
        intro heq
        exact hq (List.mem_of_getLast? heq)
      rw [hlast, if_neg hne]
      have hhead := hl.head
      rw [hhead] at ih' ⊢
      exact ih'

end Chain

end LockdepSpdk.Linked
