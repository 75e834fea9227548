import Mathlib.Logic.Function.Basic

/-!
# A mutex and a condition variable

Threads at places of an arbitrary type. Some places are inside the mutex, at one of
them a thread sleeps on the condition variable. The rules say which changes of one
thread's place keep the mutex exclusive, and which keep every sleeper either rightly
asleep or about to be notified.
-/

namespace LockdepSpdk.Monitor

set_option autoImplicit false

open Function

universe u v
variable {T : Type u} {P : Type v}

/-- The mutex is owned by exactly the thread whose place is inside it. -/
def Guards (inside : P → Prop) (owner : Option T) (place : T → P) : Prop :=
  ∀ t, owner = some t ↔ inside (place t)

/-- Whoever sleeps either waits for good reason or is about to be notified. -/
def Awaits (asleep : P) (reason signal : Prop) (place : T → P) : Prop :=
  ∀ t, place t = asleep → reason ∨ signal

/-- `notify_all`: every sleeper goes on to `woken`. -/
def notifyAll [DecidableEq P] (asleep woken : P) (place : T → P) (t : T) : P :=
  if place t = asleep then woken else place t

section NotifyAll
variable [DecidableEq P] {asleep woken : P} {place : T → P} {t : T}

theorem notifyAll_of_ne (h : place t ≠ asleep) : notifyAll asleep woken place t = place t :=
  if_neg h

theorem notifyAll_ne_asleep (h : woken ≠ asleep) : notifyAll asleep woken place t ≠ asleep := by
  unfold notifyAll
  split
  · exact h
  · next hne => exact hne

theorem of_notifyAll {p : P} (hp : p ≠ woken) (h : notifyAll asleep woken place t = p) :
    place t = p := by
  unfold notifyAll at h
  split at h
  · exact absurd h.symm hp
  · exact h

end NotifyAll

namespace Guards
variable {inside : P → Prop} {owner : Option T} {place : T → P}

theorem exclusive (h : Guards inside owner place) {t u : T} (ht : inside (place t))
    (hu : inside (place u)) : t = u := by
  have hown := (h t).mpr ht
  rw [(h u).mpr hu] at hown
  exact (Option.some.inj hown).symm

theorem free (h : Guards inside (none : Option T) place) (t : T) : ¬ inside (place t) := by
  intro ht
  cases (h t).mpr ht

theorem notifyAll [DecidableEq P] (h : Guards inside owner place) {asleep woken : P}
    (ha : ¬ inside asleep) (hw : ¬ inside woken) :
    Guards inside owner (notifyAll asleep woken place) := by
  intro t
  rw [h t]
  unfold Monitor.notifyAll
  split
  · next heq =>
    rw [heq]
    exact iff_of_false ha hw
  · exact Iff.rfl

variable [DecidableEq T] {t : T} {p : P}

theorem keep (h : Guards inside owner place) (hp : inside p ↔ inside (place t)) :
    Guards inside owner (update place t p) := by
  intro u
  rcases eq_or_ne u t with rfl | hu
  · rw [update_self, hp]
    exact h u
  · rw [update_of_ne hu]
    exact h u

theorem acquire (h : Guards inside none place) (hp : inside p) :
    Guards inside (some t) (update place t p) := by
  intro u
  rcases eq_or_ne u t with rfl | hu
  · rw [update_self]
    exact iff_of_true rfl hp
  · rw [update_of_ne hu]
    exact iff_of_false (fun heq => hu (Option.some.inj heq).symm) (h.free u)

theorem release (h : Guards inside owner place) (ht : inside (place t)) (hp : ¬ inside p) :
    Guards inside none (update place t p) := by
  intro u
  rcases eq_or_ne u t with rfl | hu
  · rw [update_self]
    exact iff_of_false (fun heq => by cases heq) hp
  · rw [update_of_ne hu]
    exact iff_of_false (fun heq => by cases heq) (fun hin => hu (h.exclusive hin ht))

end Guards

namespace Awaits
variable {asleep : P} {reason signal reason' signal' : Prop} {place : T → P}

theorem mono (h : Awaits asleep reason signal place) (hr : reason → reason' ∨ signal')
    (hs : signal → reason' ∨ signal') : Awaits asleep reason' signal' place := by
  intro t ht
  rcases h t ht with hreason | hsignal
  · exact hr hreason
  · exact hs hsignal

/-- After `notify_all` nobody sleeps, so no notification is owed. -/
theorem notifyAll [DecidableEq P] {woken : P} (h : woken ≠ asleep) :
    Awaits asleep reason signal (notifyAll asleep woken place) := by
  intro t ht
  exact absurd ht (notifyAll_ne_asleep h)

variable [DecidableEq T] {t : T} {p : P}

/-- A thread falls asleep only for good reason. -/
theorem move (h : Awaits asleep reason signal place) (hp : p = asleep → reason ∨ signal) :
    Awaits asleep reason signal (update place t p) := by
  intro u hu
  rcases eq_or_ne u t with rfl | hne
  · rw [update_self] at hu
    exact hp hu
  · rw [update_of_ne hne] at hu
    exact h u hu

end Awaits

end LockdepSpdk.Monitor
