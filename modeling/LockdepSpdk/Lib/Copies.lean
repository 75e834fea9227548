import LockdepSpdk.Lib.ByteRange

/-!
# Copies between two memories

A list of copies, each from one of two memories to the other. Copies that do not
disturb each other leave the two memories equal along every one of them, whatever
was where before, so that their order does not matter.
-/

namespace LockdepSpdk.ByteRange

set_option autoImplicit false

variable {α : Type}

/-- `n` cells between `a` of the first memory and `b` of the second. -/
structure Copy where
  toFirst : Bool
  a : Nat
  b : Nat
  n : Nat

def Copy.run (c : Copy) (m : (Nat → α) × (Nat → α)) : (Nat → α) × (Nat → α) :=
  if c.toFirst then (blit m.1 c.a c.n fun i => m.2 (c.b + i), m.2)
  else (m.1, blit m.2 c.b c.n fun i => m.1 (c.a + i))

def runAll (l : List Copy) (m : (Nat → α) × (Nat → α)) : (Nat → α) × (Nat → α) :=
  l.foldl (fun m c => c.run m) m

/-- Neither copy writes what the other reads or writes. -/
structure Independent (c d : Copy) : Prop where
  first : c.toFirst ∨ d.toFirst → Apart c.a c.n d.a d.n
  second : ¬ c.toFirst ∨ ¬ d.toFirst → Apart c.b c.n d.b d.n

theorem Independent.symm {c d : Copy} (h : Independent c d) : Independent d c where
  first := fun hto => (h.first hto.symm).symm
  second := fun hto => (h.second hto.symm).symm

/-- The ranges of the first memory that the copies of `l` write. -/
def firstTargets (l : List Copy) (a n : Nat) : Prop := ∃ c ∈ l, c.toFirst ∧ c.a = a ∧ c.n = n

def secondTargets (l : List Copy) (b n : Nat) : Prop := ∃ c ∈ l, ¬ c.toFirst ∧ c.b = b ∧ c.n = n

theorem first_done {m final : Nat → α} (h : Settled m final (firstTargets [])) : m = final := by
  apply Settled.done
  apply h.mono
  rintro a n ⟨c, hc, _⟩
  cases hc

theorem second_done {m final : Nat → α} (h : Settled m final (secondTargets [])) : m = final := by
  apply Settled.done
  apply h.mono
  rintro a n ⟨c, hc, _⟩
  cases hc

theorem Copy.run_agree (c : Copy) (m : (Nat → α) × (Nat → α)) {i : Nat} (hi : i < c.n) :
    (c.run m).1 (c.a + i) = (c.run m).2 (c.b + i) := by
  unfold Copy.run
  split
  · simp only
    rw [blit_within m.1 _ hi]
  · simp only
    rw [blit_within m.2 _ hi]

theorem Copy.run_first (c : Copy) (m : (Nat → α) × (Nat → α)) {x : Nat}
    (h : c.toFirst → ¬ Within c.a c.n x) : (c.run m).1 x = m.1 x := by
  unfold Copy.run
  split
  · next hto =>
    simp only
    rw [blit_outside m.1 _ (h hto)]
  · exact rfl

theorem Copy.run_second (c : Copy) (m : (Nat → α) × (Nat → α)) {x : Nat}
    (h : ¬ c.toFirst → ¬ Within c.b c.n x) : (c.run m).2 x = m.2 x := by
  unfold Copy.run
  split
  · exact rfl
  · next hto =>
    simp only
    rw [blit_outside m.2 _ (h hto)]

theorem runAll_first (l : List Copy) (m : (Nat → α) × (Nat → α)) :
    Settled m.1 (runAll l m).1 (firstTargets l) := by
  induction l generalizing m with
  | nil => exact Settled.self m.1 _
  | cons c l ih =>
    intro x hx
    have hhead : (c.run m).1 x = m.1 x := by
      apply c.run_first
      intro hto
      exact hx _ _ ⟨c, List.mem_cons_self, hto, rfl, rfl⟩
    rw [← hhead]
    apply ih
    intro a n ⟨d, hd, hr⟩
    exact hx a n ⟨d, List.mem_cons_of_mem c hd, hr⟩

theorem runAll_second (l : List Copy) (m : (Nat → α) × (Nat → α)) :
    Settled m.2 (runAll l m).2 (secondTargets l) := by
  induction l generalizing m with
  | nil => exact Settled.self m.2 _
  | cons c l ih =>
    intro x hx
    have hhead : (c.run m).2 x = m.2 x := by
      apply c.run_second
      intro hto
      exact hx _ _ ⟨c, List.mem_cons_self, hto, rfl, rfl⟩
    rw [← hhead]
    apply ih
    intro b n ⟨d, hd, hr⟩
    exact hx b n ⟨d, List.mem_cons_of_mem c hd, hr⟩

/-- In the end the two memories agree along every copy. -/
theorem runAll_agree {l : List Copy} (h : l.Pairwise Independent) (m : (Nat → α) × (Nat → α))
    {c : Copy} (hc : c ∈ l) {i : Nat} (hi : i < c.n) :
    (runAll l m).1 (c.a + i) = (runAll l m).2 (c.b + i) := by
  induction l generalizing m with
  | nil => cases hc
  | cons d l ih =>
    obtain ⟨hd, hl⟩ := List.pairwise_cons.mp h
    rcases List.mem_cons.mp hc with rfl | hc
    · -- the copies after this one leave both its ranges alone
      have hfirst : (c.run m).1 (c.a + i) = (runAll l (c.run m)).1 (c.a + i) := by
        apply (runAll_first l (c.run m)).read _ hi
        intro a n ⟨e, he, hto, ha, hn⟩
        rw [← ha, ← hn]
        exact (hd e he).first (Or.inr hto)
      have hsecond : (c.run m).2 (c.b + i) = (runAll l (c.run m)).2 (c.b + i) := by
        apply (runAll_second l (c.run m)).read _ hi
        intro b n ⟨e, he, hto, hb, hn⟩
        rw [← hb, ← hn]
        exact (hd e he).second (Or.inr hto)
      exact hfirst.symm.trans ((c.run_agree m hi).trans hsecond)
    · exact ih hl (d.run m) hc

end LockdepSpdk.ByteRange
