import Mathlib

/-!
# Computations that need not end

A `Fueled` computation is run with some fuel and has a result or none, and it keeps its result with more fuel. It
leads to `some a` if some fuel suffices for `a`, and to `none` if none suffices for anything; it leads to one
outcome only (`Fueled.Leads.unique`). `repeatUntil` is a loop whose rounds go on with a state or end with a result:
there is a rule for a round that goes on (`Fueled.Leads.next`), one for a round that ends the loop, and one for an
invariant with which every round goes on (`Fueled.leads_forever`).

`Process` adds a state and errors that end it at once, with the same rules.
-/

namespace Thorium

/-- A computation with some fuel, whose result does not change with more of it. -/
structure Fueled (α : Type) where
  run : Nat → Option α
  more : ∀ {fuel a}, run fuel = some a → run (fuel + 1) = some a

namespace Fueled

variable {α β σ : Type} {a b : α} {x : Fueled α} {f : α → Fueled β} {o o' : Option α} {r : Option β}
  {body : σ → Fueled (σ ⊕ β)} {s s' : σ}

instance : Monad Fueled where
  pure a := ⟨fun _ => some a, fun h => h⟩
  bind x f := ⟨fun fuel => (x.run fuel).bind fun a => (f a).run fuel, by
    intro fuel b h
    obtain ⟨a, ha, hb⟩ := Option.bind_eq_some_iff.mp h
    rw [x.more ha, Option.bind_some]
    exact (f a).more hb⟩

/-- With some fuel there is a result. -/
def Returns (x : Fueled α) (a : α) : Prop := ∃ fuel, x.run fuel = some a

/-- It ends. -/
def Ends (x : Fueled α) : Prop := ∃ a, x.Returns a

/-- What a computation leads to: a result, or none with any fuel. -/
def Leads (x : Fueled α) : Option α → Prop
  | some a => x.Returns a
  | none => ∀ fuel, x.run fuel = none

/-- More fuel does not change a result. -/
lemma more_le {fuel fuel' : Nat} (hle : fuel ≤ fuel') (h : x.run fuel = some a) : x.run fuel' = some a := by
  induction hle with
  | refl => exact h
  | step _ ih => exact x.more ih

/-- Results with different fuel agree. -/
lemma run_unique {fuel fuel' : Nat} (h : x.run fuel = some a) (h' : x.run fuel' = some b) : a = b := by
  have hm := more_le (Nat.le_max_left fuel fuel') h
  have hm' := more_le (Nat.le_max_right fuel fuel') h'
  exact Option.some_inj.mp (hm.symm.trans hm')

/-- A computation leads to one outcome only. -/
lemma Leads.unique (h : x.Leads o) (h' : x.Leads o') : o = o' := by
  cases o with
  | none =>
    cases o' with
    | none => rfl
    | some b =>
      obtain ⟨fuel, hb⟩ := h'
      cases (h fuel).symm.trans hb
  | some a =>
    obtain ⟨fuel, ha⟩ := h
    cases o' with
    | none => cases (h' fuel).symm.trans ha
    | some b =>
      obtain ⟨fuel', hb⟩ := h'
      rw [run_unique ha hb]

/-- What leads to a result ends. -/
lemma Leads.ends (h : x.Leads (some a)) : x.Ends := ⟨a, h⟩

/-- What leads to no result does not end. -/
lemma Leads.not_ends (h : x.Leads none) : ¬ x.Ends := by
  rintro ⟨a, ha⟩
  cases h.unique (show x.Leads (some a) from ha)

/-- A result needs no fuel. -/
lemma leads_pure : (pure a : Fueled α).Leads (some a) := ⟨0, rfl⟩

/-- A computation after a result. -/
lemma Leads.bind (h : x.Leads (some a)) (h' : (f a).Leads r) : (x >>= f).Leads r := by
  obtain ⟨fuel, ha⟩ := h
  cases r with
  | none =>
    intro fuel'
    show (x.run fuel').bind (fun a => (f a).run fuel') = none
    rcases hx : x.run fuel' with _ | a'
    · rfl
    · cases run_unique ha hx
      exact h' fuel'
  | some b =>
    obtain ⟨fuel', hb⟩ := h'
    refine ⟨max fuel fuel', ?_⟩
    show (x.run _).bind (fun a => (f a).run _) = some b
    rw [more_le (Nat.le_max_left _ _) ha, Option.bind_some]
    exact more_le (Nat.le_max_right _ _) hb

/-- A sequence has no result where its first part has none. -/
lemma Leads.bind_none (h : x.Leads none) : (x >>= f).Leads none := by
  intro fuel
  show (x.run fuel).bind (fun a => (f a).run fuel) = none
  rw [h fuel]
  rfl

/-- The result is changed. -/
lemma Leads.map {g : α → β} (h : x.Leads (some a)) : (g <$> x).Leads (some (g a)) := Leads.bind h leads_pure

/-- Nothing becomes of no result. -/
lemma Leads.map_none {g : α → β} (h : x.Leads none) : (g <$> x).Leads none := Leads.bind_none h

/-- The rounds of a loop, at most `fuel` of them. -/
def rounds (body : σ → Fueled (σ ⊕ β)) : Nat → σ → Option β
  | 0, _ => none
  | fuel + 1, s => ((body s).run fuel).bind (Sum.elim (rounds body fuel) some)

/-- The rounds of a loop keep their result with more fuel. -/
lemma rounds_more {fuel : Nat} {b : β} (h : rounds body fuel s = some b) : rounds body (fuel + 1) s = some b := by
  induction fuel generalizing s with
  | zero => cases h
  | succ fuel ih =>
    obtain ⟨r, hr, h⟩ := Option.bind_eq_some_iff.mp h
    rw [rounds, (body s).more hr, Option.bind_some]
    cases r with
    | inl s' => exact ih h
    | inr b' => exact h

/-- A loop: a round goes on with a state or ends with a result. -/
def repeatUntil (body : σ → Fueled (σ ⊕ β)) (s : σ) : Fueled β := ⟨fun fuel => rounds body fuel s, rounds_more⟩

/-- A round that goes on. -/
lemma Leads.next (h : (body s).Leads (some (.inl s'))) (h' : (repeatUntil body s').Leads r) :
    (repeatUntil body s).Leads r := by
  obtain ⟨fuel, hs⟩ := h
  cases r with
  | none =>
    intro fuel'
    cases fuel' with
    | zero => rfl
    | succ fuel' =>
      show ((body s).run fuel').bind _ = none
      rcases hx : (body s).run fuel' with _ | r
      · rfl
      · cases run_unique hs hx
        exact h' fuel'
  | some b =>
    obtain ⟨fuel', hb⟩ := h'
    refine ⟨max fuel fuel' + 1, ?_⟩
    show ((body s).run _).bind _ = some b
    rw [more_le (Nat.le_max_left _ _) hs, Option.bind_some]
    exact more_le (Nat.le_max_right _ _) hb

/-- A round that ends the loop. -/
lemma Leads.done {b : β} (h : (body s).Leads (some (.inr b))) : (repeatUntil body s).Leads (some b) := by
  obtain ⟨fuel, hb⟩ := h
  refine ⟨fuel + 1, ?_⟩
  show ((body s).run fuel).bind _ = some b
  rw [hb]
  rfl

/-- A round that does not end. -/
lemma Leads.stuck (h : (body s).Leads none) : (repeatUntil body s).Leads none := by
  intro fuel
  cases fuel with
  | zero => rfl
  | succ fuel =>
    show ((body s).run fuel).bind _ = none
    rw [h fuel]
    rfl

/-- A loop whose rounds all go on. -/
lemma leads_forever {I : σ → Prop} (hstep : ∀ s, I s → ∃ s', (body s).Leads (some (.inl s')) ∧ I s') (hs : I s) :
    (repeatUntil body s).Leads none := by
  intro fuel
  induction fuel generalizing s with
  | zero => rfl
  | succ fuel ih =>
    obtain ⟨s', ⟨fuel', hb⟩, hs'⟩ := hstep s hs
    show ((body s).run fuel).bind _ = none
    rcases hx : (body s).run fuel with _ | r
    · rfl
    · cases run_unique hb hx
      exact ih hs'

end Fueled

/-- A computation with a state and errors. -/
abbrev Process (σ ε α : Type) := StateT σ (ExceptT ε Fueled) α

namespace Process

variable {σ ε α β τ : Type} {x : Process σ ε α} {f : α → Process σ ε β} {a : α} {e : ε} {s s' : σ}
  {o : Option (Except ε (β × σ))}

/-- What a process leads to in a state: a value and a state, an error, or no result. -/
def Leads (x : Process σ ε α) (s : σ) (o : Option (Except ε (α × σ))) : Prop := Fueled.Leads (x s) o

/-- A result, with the state as it is. -/
lemma leads_pure : Leads (pure a : Process σ ε α) s (some (.ok (a, s))) := Fueled.leads_pure

/-- The state as a result. -/
lemma leads_get : Leads (get : Process σ ε σ) s (some (.ok (s, s))) := Fueled.leads_pure

/-- A new state. -/
lemma leads_set : Leads (set s' : Process σ ε PUnit) s (some (.ok (⟨⟩, s'))) := Fueled.leads_pure

/-- A changed state. -/
lemma leads_modify {g : σ → σ} : Leads (modify g : Process σ ε PUnit) s (some (.ok (⟨⟩, g s))) := Fueled.leads_pure

/-- An error. -/
lemma leads_throw : Leads (throw e : Process σ ε α) s (some (.error e)) := Fueled.leads_pure

/-- Processes one after the other. -/
lemma Leads.bind (h : Leads x s (some (.ok (a, s')))) (h' : Leads (f a) s' o) : Leads (x >>= f) s o :=
  Fueled.Leads.bind h h'

/-- An error ends a sequence. -/
lemma Leads.bind_error (h : Leads x s (some (.error e))) : Leads (x >>= f) s (some (.error e)) :=
  Fueled.Leads.bind h Fueled.leads_pure

/-- A sequence has no outcome where its first part has none. -/
lemma Leads.bind_none (h : Leads x s none) : Leads (x >>= f) s none := Fueled.Leads.bind_none h

/-- The result is changed. -/
lemma Leads.map {g : α → β} (h : Leads x s (some (.ok (a, s')))) : Leads (g <$> x) s (some (.ok (g a, s'))) :=
  Fueled.Leads.bind h Fueled.leads_pure

/-- An error stays as it is. -/
lemma Leads.map_error {g : α → β} (h : Leads x s (some (.error e))) : Leads (g <$> x) s (some (.error e)) :=
  Fueled.Leads.bind h Fueled.leads_pure

/-- Nothing becomes of no outcome. -/
lemma Leads.map_none {g : α → β} (h : Leads x s none) : Leads (g <$> x) s none := Fueled.Leads.bind_none h

/-- The round of a loop as a computation on both states. -/
def round (body : τ → Process σ ε (τ ⊕ β)) (s : τ × σ) : Fueled ((τ × σ) ⊕ Except ε (β × σ)) :=
  (body s.1 s.2).run >>= fun r => pure (match r with
    | .error e => .inr (.error e)
    | .ok (.inl t, s) => .inl (t, s)
    | .ok (.inr b, s) => .inr (.ok (b, s)))

/-- A loop. -/
def repeatUntil (body : τ → Process σ ε (τ ⊕ β)) (t : τ) : Process σ ε β :=
  fun s => (Fueled.repeatUntil (round body) (t, s) : Fueled (Except ε (β × σ)))

variable {body : τ → Process σ ε (τ ⊕ β)} {t t' : τ} {b : β}

/-- A round that goes on with a state. -/
lemma Leads.next (h : Leads (body t) s (some (.ok (.inl t', s')))) (h' : Leads (repeatUntil body t') s' o) :
    Leads (repeatUntil body t) s o :=
  Fueled.Leads.next (Fueled.Leads.bind h Fueled.leads_pure) h'

/-- A round that ends the loop. -/
lemma Leads.done (h : Leads (body t) s (some (.ok (.inr b, s')))) :
    Leads (repeatUntil body t) s (some (.ok (b, s'))) :=
  Fueled.Leads.done (Fueled.Leads.bind h Fueled.leads_pure)

/-- A round that fails ends the loop. -/
lemma Leads.abort (h : Leads (body t) s (some (.error e))) : Leads (repeatUntil body t) s (some (.error e)) :=
  Fueled.Leads.done (Fueled.Leads.bind h Fueled.leads_pure)

/-- A round without an outcome. -/
lemma Leads.stuck (h : Leads (body t) s none) : Leads (repeatUntil body t) s none :=
  Fueled.Leads.stuck (Fueled.Leads.bind_none h)

/-- With an invariant under which every round goes on there is no outcome. -/
lemma leads_forever {I : τ → σ → Prop}
    (hstep : ∀ t s, I t s → ∃ t' s', Leads (body t) s (some (.ok (.inl t', s'))) ∧ I t' s') (ht : I t s) :
    Leads (repeatUntil body t) s none := by
  refine Fueled.leads_forever (I := fun p => I p.1 p.2) ?_ ht
  rintro ⟨t, s⟩ h
  obtain ⟨t', s', hl, h'⟩ := hstep t s h
  exact ⟨(t', s'), Fueled.Leads.bind hl Fueled.leads_pure, h'⟩

end Process

end Thorium
