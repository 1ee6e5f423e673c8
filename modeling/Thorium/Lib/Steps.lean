import Mathlib

/-!
# Runs of a machine

A machine with moves: `next m s` is the state after the move `m`, or nothing where it cannot be made. A run is
a list of moves. What each move preserves under a condition is preserved by the runs whose moves all meet it
(`Meets.invariant`).
-/

namespace Thorium

variable {σ μ : Type} {next : μ → σ → Option σ} {C : σ → μ → Prop} {P : σ → Prop}
variable {s s' : σ} {m : μ} {ms ms' : List μ}

/-- The state after some moves. -/
def steps (next : μ → σ → Option σ) : List μ → σ → Option σ
  | [], s => some s
  | m :: ms, s => (next m s).bind (steps next ms)

/-- A run makes its first move first. -/
lemma steps_cons : steps next (m :: ms) s = some s' ↔ ∃ s1, next m s = some s1 ∧ steps next ms s1 = some s' :=
  Option.bind_eq_some_iff

/-- A run is cut between any two moves. -/
lemma steps_append : steps next (ms ++ ms') s = some s' ↔
    ∃ s1, steps next ms s = some s1 ∧ steps next ms' s1 = some s' := by
  induction ms generalizing s with
  | nil =>
    constructor
    · intro h
      exact ⟨s, rfl, h⟩
    · rintro ⟨_, h, h'⟩
      cases h
      exact h'
  | cons m ms ih =>
    rw [List.cons_append, steps_cons]
    constructor
    · rintro ⟨s1, hm, h⟩
      obtain ⟨s2, h1, h2⟩ := ih.mp h
      exact ⟨s2, steps_cons.mpr ⟨s1, hm, h1⟩, h2⟩
    · rintro ⟨s2, h1, h2⟩
      obtain ⟨s1, hm, h1⟩ := steps_cons.mp h1
      exact ⟨s1, hm, ih.mpr ⟨s2, h1, h2⟩⟩

/-- A run of one move. -/
lemma steps_one : steps next [m] s = next m s := Option.bind_fun_some _

/-- Each move of a run meets a condition in the state in which it is made. -/
def Meets (next : μ → σ → Option σ) (C : σ → μ → Prop) (s : σ) (ms : List μ) : Prop :=
  ∀ before m after s1, ms = before ++ m :: after → steps next before s = some s1 → C s1 m

/-- The first move of a run meets the condition. -/
lemma Meets.head (h : Meets next C s (m :: ms)) : C s m := h [] m ms s rfl rfl

/-- The others meet it behind the first. -/
lemma Meets.tail (h : Meets next C s (m :: ms)) (hm : next m s = some s') : Meets next C s' ms := by
  intro before m1 after s1 e hr
  exact h (m :: before) m1 after s1 (by rw [e, List.cons_append]) (steps_cons.mpr ⟨s', hm, hr⟩)

/-- A run without moves meets every condition. -/
lemma Meets.nil : Meets next C s [] := by
  intro before m after s1 e
  exact absurd e.symm (List.append_ne_nil_of_right_ne_nil _ (List.cons_ne_nil _ _))

/-- A run whose first move meets the condition and whose other moves do. -/
lemma meets_cons : Meets next C s (m :: ms) ↔ C s m ∧ ∀ s' ∈ next m s, Meets next C s' ms := by
  constructor
  · intro h
    exact ⟨h.head, fun s' hm => h.tail hm⟩
  · rintro ⟨hc, h⟩ before m1 after s1 e hr
    cases before with
    | nil =>
      cases e
      cases hr
      exact hc
    | cons m2 before =>
      cases e
      obtain ⟨s2, hm, hr⟩ := steps_cons.mp hr
      exact h s2 hm before m1 after s1 rfl hr

/-- A run that meets the condition with a move in front. -/
lemma Meets.cons (hc : C s m) (hm : next m s = some s') (h : Meets next C s' ms) : Meets next C s (m :: ms) := by
  refine meets_cons.mpr ⟨hc, fun s1 hm1 => ?_⟩
  cases Option.mem_unique hm1 hm
  exact h

/-- Whether a run meets a condition is found by going through it. -/
instance Meets.instDecidable [∀ s m, Decidable (C s m)] : ∀ ms s, Decidable (Meets next C s ms)
  | [], _ => isTrue Meets.nil
  | m :: ms, s =>
    have (s' : σ) : Decidable (Meets next C s' ms) := instDecidable ms s'
    decidable_of_iff (C s m ∧ ∀ s' ∈ next m s, Meets next C s' ms) meets_cons.symm

/-- A run whose moves meet the condition anywhere. -/
lemma Meets.of_forall (h : ∀ m ∈ ms, ∀ s, C s m) : Meets next C s ms := by
  rintro before m after s1 rfl _
  exact h m (List.mem_append_right _ List.mem_cons_self) s1

/-- Two runs one after the other. -/
lemma Meets.append (h : Meets next C s ms) (hr : steps next ms s = some s') (h' : Meets next C s' ms') :
    Meets next C s (ms ++ ms') := by
  induction ms generalizing s with
  | nil =>
    cases hr
    exact h'
  | cons m ms ih =>
    obtain ⟨s1, hm, hr⟩ := steps_cons.mp hr
    exact Meets.cons h.head hm (ih (h.tail hm) hr)

/-- The first part of a run. -/
lemma Meets.first (h : Meets next C s (ms ++ ms')) : Meets next C s ms := by
  intro before m after s1 e hr
  exact h before m (after ++ ms') s1 (by rw [e, List.append_assoc, List.cons_append]) hr

/-- The rest of a run. -/
lemma Meets.rest (h : Meets next C s (ms ++ ms')) (hr : steps next ms s = some s') :
    Meets next C s' ms' := by
  intro before m after s1 e hr'
  exact h (ms ++ before) m after s1 (by rw [e, List.append_assoc]) (steps_append.mpr ⟨s', hr, hr'⟩)

/-- What the moves preserve under a condition holds after the runs that meet it. -/
lemma Meets.invariant (h : Meets next C s ms) (hr : steps next ms s = some s') (hs : P s)
    (hstep : ∀ s m s', P s → C s m → next m s = some s' → P s') : P s' := by
  induction ms generalizing s with
  | nil =>
    cases hr
    exact hs
  | cons m ms ih =>
    obtain ⟨s1, hm, hr⟩ := steps_cons.mp hr
    exact ih (h.tail hm) hr (hstep _ _ _ hs h.head hm)

/-- What the moves preserve holds after every run. -/
lemma steps_invariant (hr : steps next ms s = some s') (hs : P s) (hstep : ∀ s m s', P s → next m s = some s' → P s') :
    P s' :=
  (Meets.of_forall (C := fun _ _ => True) fun _ _ _ => trivial).invariant hr hs fun s m s' hs _ hm => hstep s m s' hs hm

end Thorium
