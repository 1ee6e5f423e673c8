import Thorium.Lib.Run
import Thorium.Lib.Steps

/-!
# Refinement

Computations on concrete states against functions on abstract ones, up to a relation `R` between the states.
`Yields R m s a t` says that `m` returns `a` from `s` in a state that is related to `t`; it has a rule for each
operation. A simulation of moves lifts to runs (`steps_simulates`).
-/

namespace Thorium
open Run

variable {σ τ α β : Type} {R : σ → τ → Prop} {s : σ} {t u : τ} {a : α} {b : β}

/-- From `s`, the computation returns `a` in a state that is related to `t`. -/
def Yields (R : σ → τ → Prop) (m : Run σ α) (s : σ) (a : α) (t : τ) : Prop :=
  ∃ s', m s = some (a, s') ∧ R s' t

namespace Yields

/-- A result without a change. -/
lemma pure (h : R s t) : Yields R (pure a) s a t := ⟨s, rfl, h⟩

/-- A change that keeps the states related. -/
lemma modify {f : σ → σ} (h : R (f s) t) : Yields R (modify f) s ⟨⟩ t := ⟨f s, rfl, h⟩

/-- Programs one after the other. -/
lemma bind {m : Run σ α} {f : α → Run σ β} (hm : Yields R m s a t)
    (hf : ∀ s', R s' t → Yields R (f a) s' b u) : Yields R (m >>= f) s b u := by
  obtain ⟨s1, h1, hr⟩ := hm
  obtain ⟨s2, h2, hr⟩ := hf s1 hr
  refine ⟨s2, ?_, hr⟩
  rw [bind_apply, h1]
  exact h2

/-- A program that looks at the state first. -/
lemma get_bind {f : σ → Run σ β} (h : Yields R (f s) s b u) : Yields R (get >>= f) s b u := h

/-- What follows a computation whose run is known. -/
lemma bind_of {m : Run σ α} {f : α → Run σ β} {s' : σ} (hm : m s = some (a, s')) (hf : Yields R (f a) s' b u) :
    Yields R (m >>= f) s b u := by
  obtain ⟨s2, h2, hr⟩ := hf
  refine ⟨s2, ?_, hr⟩
  rw [bind_apply, hm]
  exact h2

end Yields

/-- Moves that simulate moves make up runs that simulate runs. -/
lemma steps_simulates {μ ν : Type} {next : μ → σ → Option σ} {next' : ν → τ → Option τ} {move : ν → μ}
    (hstep : ∀ n s t t', R s t → next' n t = some t' → ∃ s', next (move n) s = some s' ∧ R s' t')
    {ns : List ν} (h : R s t) (hr : steps next' ns t = some u) :
    ∃ s', steps next (ns.map move) s = some s' ∧ R s' u := by
  induction ns generalizing s t with
  | nil =>
    cases hr
    exact ⟨s, rfl, h⟩
  | cons n ns ih =>
    obtain ⟨t1, hn, hr⟩ := steps_cons.mp hr
    obtain ⟨s1, hm, h1⟩ := hstep n s t t1 h hn
    obtain ⟨s', hms, h'⟩ := ih h1 hr
    exact ⟨s', steps_cons.mpr ⟨s1, hm, hms⟩, h'⟩

end Thorium
