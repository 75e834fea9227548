import LockdepSpdk.Lib.Digraph

/-!
# Waiting threads and an order of the locks

Threads hold locks and block on locks. Where what a thread holds comes before what
it blocks on, and the order has no cycle, the threads that wait for each other form
no cycle either, also when some of those blocked on a lock are let in before others.
-/

namespace LockdepSpdk.LockOrder

set_option autoImplicit false

open Relation

universe u v
variable {T : Type u} {C : Type v}

structure Board (T : Type u) (C : Type v) where
  holds : T → C → Prop
  /-- The thread is blocked on the lock. -/
  wants : T → C → Prop
  /-- Blocked on the same lock, the second thread is let in first. -/
  behind : T → T → Prop

namespace Board
variable (b : Board T C)

/-- `q` holds the lock that `t` is blocked on, or is let in there first. -/
def WaitsFor (t q : T) : Prop :=
  ∃ c, b.wants t c ∧ (b.holds q c ∨ (b.wants q c ∧ b.behind t q))

/-- The discipline, for the order `before` of the locks. -/
structure Ordered (before : C → C → Prop) : Prop where
  acyclic : Digraph.Acyclic before
  queue : Digraph.Acyclic b.behind
  one : ∀ t c c', b.wants t c → b.wants t c' → c = c'
  after : ∀ t c a, b.wants t c → b.holds t a → before a c

variable {b} {before : C → C → Prop}

/-- A chain of waiting threads climbs in the order, or stays at one lock and climbs in its queue. -/
theorem Ordered.climbs (h : b.Ordered before) {t q : T} (hw : TransGen b.WaitsFor t q) {c d : C}
    (hc : b.wants t c) (hd : b.wants q d) :
    TransGen before c d ∨ (c = d ∧ TransGen b.behind t q) := by
  induction hw generalizing d with
  | single hstep =>
    obtain ⟨e, he, hholds | ⟨hwants, hbehind⟩⟩ := hstep
    · obtain rfl := h.one _ c e hc he
      exact Or.inl (.single (h.after _ d c hd hholds))
    · obtain rfl := h.one _ c e hc he
      exact Or.inr ⟨h.one _ c d hwants hd, .single hbehind⟩
  | @tail p q _ hstep ih =>
    obtain ⟨e, he, hholds | ⟨hwants, hbehind⟩⟩ := hstep
    · have hlast : before e d := h.after _ d e hd hholds
      rcases ih he with hclimb | ⟨heq, _⟩
      · exact Or.inl (hclimb.tail hlast)
      · exact Or.inl (.single (heq ▸ hlast))
    · obtain rfl := h.one _ e d hwants hd
      rcases ih he with hclimb | ⟨heq, hqueue⟩
      · exact Or.inl hclimb
      · exact Or.inr ⟨heq, hqueue.tail hbehind⟩

theorem Ordered.no_cycle (h : b.Ordered before) : Digraph.Acyclic b.WaitsFor := by
  intro t hcycle
  obtain ⟨q, ⟨c, hc, _⟩, _⟩ := TransGen.head'_iff.mp hcycle
  rcases h.climbs hcycle hc hc with hclimb | ⟨_, hqueue⟩
  · exact h.acyclic c hclimb
  · exact h.queue t hqueue

end Board

end LockdepSpdk.LockOrder
