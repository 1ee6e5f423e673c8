import Thorium.Lib.Steps

/-!
# Total correctness

`Reaches next m C P Q`: from each state in which `P` holds, the move `m` made some number of times leads to a state
in which `Q` holds, and each of these moves meets the condition `C`. There are rules for a sequence and for a loop with
a counter (`Reaches.loop`).
-/

namespace Thorium

variable {σ μ : Type} {next : μ → σ → Option σ} {m : μ} {C : σ → μ → Prop} {P P' Q Q' R : σ → Prop}

/-- From `P`, moves `m` that meet `C` lead to `Q`. -/
def Reaches (next : μ → σ → Option σ) (m : μ) (C : σ → μ → Prop) (P Q : σ → Prop) : Prop :=
  ∀ s, P s → ∃ n s', steps next (List.replicate n m) s = some s' ∧ Meets next C s (List.replicate n m) ∧ Q s'

namespace Reaches

/-- Nothing is to be done where `Q` holds already. -/
lemma of_imp (h : ∀ s, P s → Q s) : Reaches next m C P Q := by
  intro s hs
  exact ⟨0, s, rfl, Meets.nil, h s hs⟩

/-- One move. -/
lemma one (h : ∀ s, P s → C s m ∧ ∃ s', next m s = some s' ∧ Q s') : Reaches next m C P Q := by
  intro s hs
  obtain ⟨hc, s', hm, hq⟩ := h s hs
  exact ⟨1, s', steps_one.trans hm, Meets.cons hc hm Meets.nil, hq⟩

/-- The rule for a sequence. -/
lemma trans (h : Reaches next m C P Q) (h' : Reaches next m C Q R) : Reaches next m C P R := by
  intro s hs
  obtain ⟨n, s1, hr, hc, hq⟩ := h s hs
  obtain ⟨n', s2, hr', hc', hR⟩ := h' s1 hq
  refine ⟨n + n', s2, ?_, ?_, hR⟩
  · rw [List.replicate_add]
    exact steps_append.mpr ⟨s1, hr, hr'⟩
  · rw [List.replicate_add]
    exact hc.append hr hc'

/-- The rule of consequence. -/
lemma weaken (h : Reaches next m C P Q) (hp : ∀ s, P' s → P s) (hq : ∀ s, Q s → Q' s) :
    Reaches next m C P' Q' := by
  intro s hs
  obtain ⟨n, s', hr, hc, hQ⟩ := h s (hp s hs)
  exact ⟨n, s', hr, hc, hq s' hQ⟩

/-- The rule for a loop. The invariant counts the turns that are left. -/
lemma loop {I : Nat → σ → Prop} (h : ∀ n, Reaches next m C (I (n + 1)) (I n)) (n : Nat) :
    Reaches next m C (I n) (I 0) := by
  induction n with
  | zero => exact of_imp fun _ hs => hs
  | succ n ih => exact (h n).trans ih

end Reaches

end Thorium
