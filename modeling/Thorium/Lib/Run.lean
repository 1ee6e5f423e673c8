import Mathlib

/-!
# Stateful computations that may stop

`Run σ` is the monad of programs over a state `σ` that either return with a new state or stop the
process (`none`: an abort, a panic). The lemmas `*_apply` run the primitive operations, and
`run_bind_inv` inverts a sequence. `Triple` is partial correctness over `Run`, `Within` says by which steps
the state changes and `Commutes` which changes are not seen, each with one rule for each operation.
-/

namespace Thorium

/-- Programs over a state `σ`; `none` is the end of the process. -/
abbrev Run (σ : Type) := StateT σ Option

namespace Run
variable {σ α β : Type}

/-- The end of the process. -/
def stop : Run σ α := fun _ => none

/-- Programs one after the other stop where one of them does. -/
@[simp] lemma bind_apply (m : Run σ α) (f : α → Run σ β) (s : σ) :
    (m >>= f) s = (m s).bind fun r => f r.1 r.2 := rfl

/-- The result of a program is changed. -/
@[simp] lemma map_apply (f : α → β) (m : Run σ α) (s : σ) :
    (f <$> m) s = (m s).map fun r => (f r.1, r.2) := by
  show (m s).bind _ = _
  cases m s <;> rfl

/-- A result without a change. -/
@[simp] lemma pure_apply (a : α) (s : σ) : (pure a : Run σ α) s = some (a, s) := rfl

/-- The state as a result. -/
@[simp] lemma get_apply (s : σ) : (get : Run σ σ) s = some (s, s) := rfl

/-- A new state. -/
@[simp] lemma set_apply (s s' : σ) : (set s' : Run σ PUnit) s = some ((), s') := rfl

/-- A changed state. -/
@[simp] lemma modify_apply (f : σ → σ) (s : σ) : (modify f : Run σ PUnit) s = some ((), f s) := rfl

/-- There is no result after the end. -/
@[simp] lemma stop_apply (s : σ) : (stop : Run σ α) s = none := rfl

/-! ### Partial correctness -/

/-- From a state in which `P` holds, `m` returns only in states in which `Q` holds of its result. -/
def Triple (P : σ → Prop) (m : Run σ α) (Q : α → σ → Prop) : Prop :=
  ∀ ⦃s a s'⦄, P s → m s = some (a, s') → Q a s'

namespace Triple
variable {P P' : σ → Prop} {Q Q' : α → σ → Prop} {R : β → σ → Prop}

/-- The rule of a result. -/
lemma pure {a : α} (h : ∀ s, P s → Q a s) : Triple P (pure a) Q := by
  intro s _ _ hs hr
  cases hr
  exact h s hs

/-- The rule of a sequence, with the condition in between. -/
lemma bind {m : Run σ α} {f : α → Run σ β} (hm : Triple P m Q) (hf : ∀ a, Triple (Q a) (f a) R) :
    Triple P (m >>= f) R := by
  intro s b s' hs hr
  obtain ⟨⟨a, s1⟩, h1, h2⟩ := Option.bind_eq_some_iff.mp hr
  exact hf a (hm hs h1) h2

/-- The rule of consequence. -/
lemma weaken {m : Run σ α} (hm : Triple P m Q) (hp : ∀ s, P' s → P s) (hq : ∀ a s, Q a s → Q' a s) :
    Triple P' m Q' :=
  fun _ _ _ hs hr => hq _ _ (hm (hp _ hs) hr)

/-- The rule of a change. -/
lemma modify {f : σ → σ} {Q : PUnit → σ → Prop} (h : ∀ s, P s → Q ⟨⟩ (f s)) : Triple P (modify f) Q := by
  intro s _ _ hs hr
  cases hr
  exact h s hs

/-- What follows a `get`, whatever it returns. -/
lemma get_bind {f : σ → Run σ β} (h : ∀ s0, Triple P (f s0) R) : Triple P (get >>= f) R :=
  fun s _ _ hs hr => h s hs hr

/-- The rule of a branch, which knows its condition. -/
lemma ite {c : Prop} [Decidable c] {m n : Run σ α} (hm : c → Triple P m Q) (hn : ¬ c → Triple P n Q) :
    Triple P (if c then m else n) Q := by
  split
  · exact hm ‹_›
  · exact hn ‹_›

/-- After the end everything holds. -/
lemma stop : Triple P (stop : Run σ α) Q := fun _ _ _ _ hr => nomatch hr

/-- A computation whose run is known. -/
lemma of_run {m : Run σ α} (h : ∀ s, P s → ∃ a s', m s = some (a, s') ∧ Q a s') : Triple P m Q := by
  intro s a s' hs hr
  obtain ⟨a', s1, h1, hq⟩ := h s hs
  cases h1.symm.trans hr
  exact hq

end Triple

/-! ### Footprints -/

/-- `m` changes the state by steps of `R`. -/
def Within (R : σ → σ → Prop) (m : Run σ α) : Prop :=
  ∀ ⦃s a s'⦄, m s = some (a, s') → Relation.ReflTransGen R s s'

namespace Within
variable {R R' : σ → σ → Prop} {P : σ → Prop}

/-- A result changes nothing. -/
lemma pure (a : α) : Within R (pure a) := by
  intro s _ _ hr
  cases hr
  exact .refl

/-- Programs one after the other, as the steps compose. -/
lemma bind {m : Run σ α} {f : α → Run σ β} (hm : Within R m) (hf : ∀ a, Within R (f a)) :
    Within R (m >>= f) := by
  intro s b s' hr
  obtain ⟨⟨a, s1⟩, h1, h2⟩ := Option.bind_eq_some_iff.mp hr
  exact (hm h1).trans (hf a h2)

/-- A change that is a step. -/
lemma modify {f : σ → σ} (h : ∀ s, R s (f s)) : Within R (modify f) := by
  intro s _ _ hr
  cases hr
  exact .single (h s)

/-- What follows a `get`, whatever it returns. -/
lemma get_bind {f : σ → Run σ β} (h : ∀ s0, Within R (f s0)) : Within R (get >>= f) :=
  fun s _ _ hr => h s hr

/-- Both branches. -/
lemma ite {c : Prop} [Decidable c] {m n : Run σ α} (hm : Within R m) (hn : Within R n) :
    Within R (if c then m else n) := by
  split
  · exact hm
  · exact hn

/-- The end is no step. -/
lemma stop : Within R (stop : Run σ α) := fun _ _ _ hr => nomatch hr

/-- What follows a computation that may return nothing. -/
lemma bind_some {m : Run σ (Option α)} {f : Option α → Run σ PUnit} (hm : Within R m)
    (hs : ∀ a, Within R (f (some a))) (hn : f none = Pure.pure ⟨⟩) : Within R (m >>= f) := by
  apply hm.bind
  intro o
  cases o with
  | some a => exact hs a
  | none =>
    rw [hn]
    exact Within.pure _

/-- More steps. -/
lemma mono {m : Run σ α} (hm : Within R m) (h : ∀ s s', R s s' → R' s s') : Within R' m :=
  fun _ _ _ hr => Relation.ReflTransGen.mono h _ _ (hm hr)

/-- What each step preserves. -/
lemma invariant {m : Run σ α} (hm : Within R m) (h : ∀ s s', R s s' → P s → P s') :
    Triple P m fun _ => P := by
  intro s a s' hs hr
  have hsteps := hm hr
  clear hr
  induction hsteps with
  | refl => exact hs
  | tail _ hstep ih => exact h _ _ hstep ih

end Within

/-! ### Computations that do not see a change -/

/-- It does not matter whether the state is changed by `g` before or after `m`. -/
def Commutes (g : σ → σ) (m : Run σ α) : Prop := ∀ s, m (g s) = (m s).map fun r => (r.1, g r.2)

namespace Commutes
variable {g : σ → σ}

/-- A result sees nothing. -/
lemma pure (a : α) : Commutes g (pure a) := fun _ => rfl

/-- Programs one after the other. -/
lemma bind {m : Run σ α} {f : α → Run σ β} (hm : Commutes g m) (hf : ∀ a, Commutes g (f a)) :
    Commutes g (m >>= f) := by
  intro s
  rw [bind_apply, bind_apply, hm s]
  cases m s with
  | none => rfl
  | some r => exact hf r.1 r.2

/-- A change that does not see `g`. -/
lemma modify {f : σ → σ} (h : ∀ s, f (g s) = g (f s)) : Commutes g (modify f) := by
  intro s
  rw [modify_apply, modify_apply, h s]
  rfl

/-- What follows a `get` looks only at what `g` does not change. -/
lemma get_bind {f : σ → Run σ β} (hf : ∀ s, f (g s) = f s) (h : ∀ s0, Commutes g (f s0)) :
    Commutes g (get >>= f) := by
  intro s
  have hg : (get >>= f) (g s) = f (g s) (g s) := rfl
  rw [hg, hf s]
  exact h s s

/-- Both branches, where the condition does not see `g`. -/
lemma ite {c : Prop} [Decidable c] {m n : Run σ α} (hm : Commutes g m) (hn : Commutes g n) :
    Commutes g (if c then m else n) := by
  split
  · exact hm
  · exact hn

/-- The end sees nothing. -/
lemma stop : Commutes g (stop : Run σ α) := fun _ => rfl

/-- What follows a computation that may return nothing. -/
lemma bind_some {m : Run σ (Option α)} {f : Option α → Run σ PUnit} (hm : Commutes g m)
    (hs : ∀ a, Commutes g (f (some a))) (hn : f none = Pure.pure ⟨⟩) : Commutes g (m >>= f) := by
  apply hm.bind
  intro o
  cases o with
  | some a => exact hs a
  | none =>
    rw [hn]
    exact Commutes.pure _

end Commutes

/-! ### Computations with a `Result` -/

variable {ε : Type}

/-- A sequence goes on after a first part that returns no `Result`. -/
lemma run_lift_bind (m : Run σ α) (f : α → ExceptT ε (Run σ) β) (s : σ) :
    ((liftM m : ExceptT ε (Run σ) α) >>= f).run s = (m s).bind fun r => (f r.1).run r.2 := by
  rw [ExceptT.run_bind, bind_apply]
  have hl : (liftM m : ExceptT ε (Run σ) α).run s = (m s).map fun r => (.ok r.1, r.2) := map_apply _ _ _
  rw [hl]
  cases m s <;> rfl

/-- A sequence goes on after a first part that succeeds. -/
lemma run_bind_ok {m : ExceptT ε (Run σ) α} {f : α → ExceptT ε (Run σ) β} {s s' : σ} {a : α}
    (h : m.run s = some (.ok a, s')) : (m >>= f).run s = (f a).run s' := by
  rw [ExceptT.run_bind, bind_apply, h]
  rfl

/-- A sequence ends with a first part that fails. -/
lemma run_bind_error {m : ExceptT ε (Run σ) α} {f : α → ExceptT ε (Run σ) β} {s s' : σ} {e : ε}
    (h : m.run s = some (.error e, s')) : (m >>= f).run s = some (.error e, s') := by
  rw [ExceptT.run_bind, bind_apply, h]
  rfl

/-- Both parts of a sequence that succeeds succeed. -/
lemma run_bind_inv {m : ExceptT ε (Run σ) α} {f : α → ExceptT ε (Run σ) β} {s s' : σ} {b : β}
    (h : (m >>= f).run s = some (.ok b, s')) :
    ∃ a s1, m.run s = some (.ok a, s1) ∧ (f a).run s1 = some (.ok b, s') := by
  rw [ExceptT.run_bind, bind_apply] at h
  obtain ⟨⟨a | a, s1⟩, hm, h⟩ := Option.bind_eq_some_iff.mp h
  · cases h
  · exact ⟨a, s1, hm, h⟩

/-- A change of the error. -/
lemma run_adapt {m : ExceptT ε (Run σ) α} {f : ε → ε} {s s' : σ} {r : Except ε α}
    (h : m.run s = some (r, s')) : (ExceptT.adapt f m).run s = some (r.mapError f, s') := by
  rw [ExceptT.run_adapt, map_apply, h]
  rfl

end Run

end Thorium
