import Mathlib.Logic.Relation
import Mathlib.Data.List.Nodup
import Mathlib.Data.List.Range
import Mathlib.Data.List.Perm.Subperm

/-!
# Acyclic relations grown one edge at a time

A relation is acyclic when no element has a nonempty path to itself. Inserting
an edge keeps it acyclic as long as the new edge does not close a path, and the
ancestors of a node in a finite acyclic relation bound the depth of a search
that keeps no visited set.
-/

namespace LockdepSpdk.Digraph

set_option autoImplicit false

open Relation

universe u
variable {α : Type u}

def Acyclic (r : α → α → Prop) : Prop := ∀ a, ¬ TransGen r a a

namespace Acyclic
variable {r s : α → α → Prop}

theorem irrefl (h : Acyclic r) (a : α) : ¬ r a a := fun hr => h a (.single hr)

theorem mono (h : Acyclic s) (hle : ∀ a b, r a b → s a b) : Acyclic r := by
  intro a ha
  exact h a (TransGen.mono hle a a ha)

theorem of_empty (h : ∀ a b, ¬ r a b) : Acyclic r := by
  intro a ha
  obtain ⟨b, hab, _⟩ := TransGen.head'_iff.mp ha
  exact h a b hab

end Acyclic

def Insert (r : α → α → Prop) (a b : α) : α → α → Prop :=
  fun x y => r x y ∨ (x = a ∧ y = b)

/-- A path of the larger relation is an old path, or it passes through the new edge. -/
theorem transGen_insert_cases {r : α → α → Prop} {a b x y : α}
    (h : TransGen (Insert r a b) x y) :
    TransGen r x y ∨ (ReflTransGen r x a ∧ ReflTransGen r b y) := by
  induction h with
  | single hxy =>
    rcases hxy with hxy | ⟨rfl, rfl⟩
    · exact Or.inl (.single hxy)
    · exact Or.inr ⟨.refl, .refl⟩
  | tail _ hyz ih =>
    rcases ih with ih | ⟨hxa, hby⟩
    · rcases hyz with hyz | ⟨rfl, rfl⟩
      · exact Or.inl (ih.tail hyz)
      · exact Or.inr ⟨ih.to_reflTransGen, .refl⟩
    · rcases hyz with hyz | ⟨rfl, rfl⟩
      · exact Or.inr ⟨hxa, hby.tail hyz⟩
      · exact Or.inr ⟨hxa, .refl⟩

theorem Acyclic.insert {r : α → α → Prop} {a b : α} (h : Acyclic r)
    (hne : a ≠ b) (hpath : ¬ TransGen r b a) : Acyclic (Insert r a b) := by
  intro x hx
  rcases transGen_insert_cases hx with hx | ⟨hxa, hbx⟩
  · exact h x hx
  · have hba : ReflTransGen r b a := hbx.trans hxa
    rcases reflTransGen_iff_eq_or_transGen.mp hba with heq | hba
    · exact hne heq
    · exact hpath hba

theorem transGen_insert_into {r : α → α → Prop} {a b y : α} (hne : a ≠ b)
    (hpath : ¬ TransGen r b a) : TransGen (Insert r a b) b y ↔ TransGen r b y := by
  constructor
  · intro h
    rcases transGen_insert_cases h with h | ⟨hba, _⟩
    · exact h
    · rcases reflTransGen_iff_eq_or_transGen.mp hba with heq | hba
      · exact absurd heq hne
      · exact absurd hba hpath
  · intro h
    exact TransGen.mono (fun _ _ hxy => Or.inl hxy) _ _ h

/-- A path out of `a` starts with an edge which is itself the path or is followed by one. -/
theorem transGen_iff_step {r : α → α → Prop} {a b : α} :
    TransGen r a b ↔ r a b ∨ ∃ i, r a i ∧ TransGen r i b := by
  constructor
  · intro h
    obtain ⟨i, hai, hib⟩ := TransGen.head'_iff.mp h
    rcases reflTransGen_iff_eq_or_transGen.mp hib with heq | hib
    · subst heq
      exact Or.inl hai
    · exact Or.inr ⟨i, hai, hib⟩
  · rintro (h | ⟨i, hai, hib⟩)
    · exact .single h
    · exact .head hai hib

theorem length_le_of_nodup {l : List Nat} {n : Nat} (hl : l.Nodup) (hlt : ∀ a ∈ l, a < n) :
    l.length ≤ n := by
  have hsub : l ⊆ List.range n := fun a ha => List.mem_range.mpr (hlt a ha)
  simpa using (hl.subperm hsub).length_le

/-- The nodes above a node of an acyclic relation never contain it, so a search stack stays
duplicate free. -/
theorem nodup_cons_of_ancestors {r : α → α → Prop} {a : α} {l : List α} (h : Acyclic r)
    (hl : l.Nodup) (hanc : ∀ x ∈ l, TransGen r x a) : (a :: l).Nodup := by
  refine List.nodup_cons.mpr ⟨?_, hl⟩
  intro ha
  exact h a (hanc a ha)

/-- The edges of a path from `a` to `b`, the last one first. -/
inductive Route (r : α → α → Prop) : α → α → List (α × α) → Prop where
  | last {a b : α} : r a b → Route r a b [(a, b)]
  | before {a i b : α} {l : List (α × α)} : r a i → Route r i b l → Route r a b (l ++ [(a, i)])

namespace Route
variable {r s : α → α → Prop} {a b : α} {l : List (α × α)}

theorem reaches (h : Route r a b l) {e : α × α} (he : e ∈ l) :
    r e.1 e.2 ∧ ReflTransGen r a e.1 := by
  induction h with
  | last hab =>
    obtain rfl := List.mem_singleton.mp he
    exact ⟨hab, .refl⟩
  | before hai _ ih =>
    rcases List.mem_append.mp he with he | he
    · exact ⟨(ih he).1, .head hai (ih he).2⟩
    · obtain rfl := List.mem_singleton.mp he
      exact ⟨hai, .refl⟩

theorem nodup (h : Route r a b l) (hac : Acyclic r) : (l.map Prod.fst).Nodup := by
  induction h with
  | last => exact List.nodup_singleton _
  | @before a i b l hai hib ih =>
    rw [List.map_append, List.map_singleton, List.nodup_append_comm, List.singleton_append]
    refine List.nodup_cons.mpr ⟨?_, ih⟩
    intro ha
    obtain ⟨e, he, rfl⟩ := List.mem_map.mp ha
    exact hac _ (TransGen.head' hai (hib.reaches he).2)

theorem snd_ne (h : Route r a b l) (hac : Acyclic r) {e : α × α} (he : e ∈ l) : e.2 ≠ a := by
  obtain ⟨hedge, hreach⟩ := h.reaches he
  intro heq
  rw [heq] at hedge
  exact hac a (TransGen.tail' hreach hedge)

theorem mono (h : Route r a b l) (hle : ∀ e ∈ l, r e.1 e.2 → s e.1 e.2) : Route s a b l := by
  induction h with
  | last hab => exact .last (hle _ (List.mem_singleton_self _) hab)
  | before hai _ ih =>
    refine .before (hle _ (List.mem_append_right _ (List.mem_singleton_self _)) hai) (ih ?_)
    intro e he
    exact hle e (List.mem_append_left _ he)

end Route

end LockdepSpdk.Digraph
