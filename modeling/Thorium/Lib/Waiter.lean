import Mathlib

/-!
# Threads that wait

A thread `while (flag) { lock; wait; …; unlock }` on a condition variable, which another thread stops: it clears the
flag, signals once and joins. A signal is dropped when the thread does not wait. So a thread that is signalled between
its look at the flag and its waiting waits for ever (`Entering.stopping`), and any other goes on to its end
(`Leaving.stopping`).
-/

namespace Thorium

/-- Where the thread stands: it has not been created, looks at the flag, takes the lock, calls the wait, waits, has
returned from the wait, has ended. -/
inductive Waiter where
  | absent | test | lock | wait | waiting | woken | ended
  deriving DecidableEq, Repr

namespace Waiter

/-- A step of the thread, where it is not blocked. -/
def step (flag : Bool) : Waiter → Option Waiter
  | test => some (if flag then lock else ended)
  | lock => some wait
  | wait => some waiting
  | woken => some test
  | absent | waiting | ended => none

/-- A signal, or a return from the wait without one. -/
def signalled : Waiter → Waiter
  | waiting => woken
  | w => w

/-- The thread has seen the flag and does not wait yet. -/
def Entering (w : Waiter) : Prop := w = lock ∨ w = wait

/-- Some steps of the thread after the flag has been cleared. -/
def stopping : Nat → Waiter → Option Waiter
  | 0, w => some w
  | n + 1, w => (stopping n w).bind (step false)

variable {w w' : Waiter} {n : Nat} {flag : Bool}

/-- A signal ends no thread. -/
@[simp] lemma signalled_eq_ended : w.signalled = ended ↔ w = ended := by cases w <;> simp [signalled]

/-- A signal creates no thread. -/
@[simp] lemma signalled_eq_absent : w.signalled = absent ↔ w = absent := by cases w <;> simp [signalled]

/-- A step leaves the thread created. -/
lemma step_ne_absent (h : step flag w = some w') : w' ≠ absent := by
  cases w <;> cases flag <;> cases h <;> decide

/-- A signal is lost on a thread that enters its wait. -/
lemma Entering.signalled (h : Entering w) : w.signalled = w := by
  obtain rfl | rfl := h <;> rfl

/-- A thread that misses the signal goes on to wait, and waits. -/
lemma Entering.stopping (h : Entering w) (hn : stopping n w = some w') : Entering w' ∨ w' = waiting := by
  induction n generalizing w' with
  | zero =>
    cases hn
    exact .inl h
  | succ n ih =>
    obtain ⟨w1, h1, hstep⟩ := Option.bind_eq_some_iff.mp hn
    obtain (rfl | rfl) | rfl := ih h1
    · cases hstep
      exact .inl (.inr rfl)
    · cases hstep
      exact .inr rfl
    · cases hstep

/-- The thread has heard the signal, or need not. -/
def Leaving (w : Waiter) : Prop := w = woken ∨ w = test ∨ w = ended

/-- A thread that does not miss the signal goes on to its end. -/
lemma Leaving.stopping (h : Leaving w) (hn : stopping n w = some w') : Leaving w' := by
  induction n generalizing w' with
  | zero =>
    cases hn
    exact h
  | succ n ih =>
    obtain ⟨w1, h1, hstep⟩ := Option.bind_eq_some_iff.mp hn
    obtain rfl | rfl | rfl := ih h1
    · cases hstep
      exact .inr (.inl rfl)
    · have hstep : some ended = some w' := hstep
      cases hstep
      exact .inr (.inr rfl)
    · cases hstep

/-- A thread that does not enter its wait leaves it when it is signalled. -/
lemma leaving_signalled (hw : w ≠ absent) (h : ¬ Entering w) : Leaving w.signalled := by
  cases w with
  | absent => exact absurd rfl hw
  | lock => exact absurd (.inl rfl) h
  | wait => exact absurd (.inr rfl) h
  | test => exact .inr (.inl rfl)
  | waiting | woken => exact .inl rfl
  | ended => exact .inr (.inr rfl)

end Waiter

end Thorium
