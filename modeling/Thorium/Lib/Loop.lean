import Mathlib

/-!
# Loops over an input

A loop that takes one item after another off the front of its input, until a condition on what is left
holds. It is defined with fuel; where every item takes something off the input the fuel never runs out
(`loop_eq`), and the loop satisfies the equation of a `while` (`loop_while`).
-/

namespace Thorium

variable {α τ : Type} {stop : List τ → Bool} {item : List τ → Except String (α × List τ)}
variable {ts ts' : List τ} {as : List α} {a : α} {fuel : Nat}

/-- The loop, with at most `fuel` rounds. -/
def loopFuel (stop : List τ → Bool) (item : List τ → Except String (α × List τ)) :
    Nat → List τ → Except String (List α × List τ)
  | 0, _ => .error "out of fuel"
  | fuel + 1, ts =>
    if stop ts then .ok ([], ts)
    else do
      let r ← item ts
      let rs ← loopFuel stop item fuel r.2
      .ok (r.1 :: rs.1, rs.2)

/-- The items taken off an input until `stop` holds, and what is left of it. -/
def loop (stop : List τ → Bool) (item : List τ → Except String (α × List τ)) (ts : List τ) :
    Except String (List α × List τ) :=
  loopFuel stop item (ts.length + 1) ts

/-- What a round leaves is a proper suffix of the input. -/
def Consumes (stop : List τ → Bool) (item : List τ → Except String (α × List τ)) : Prop :=
  ∀ {ts a ts'}, stop ts = false → item ts = .ok (a, ts') → ts' <:+ ts ∧ ts'.length < ts.length

/-- A bind that succeeds. -/
lemma bind_ok {ε β γ : Type} {m : Except ε β} {f : β → Except ε γ} {c : γ} (h : (m >>= f) = .ok c) :
    ∃ b, m = .ok b ∧ f b = .ok c := by
  cases m with
  | error e => cases h
  | ok b => exact ⟨b, rfl, h⟩

/-- Further fuel changes nothing. -/
lemma loop_eq (hc : Consumes stop item) (h : ts.length < fuel) :
    loopFuel stop item fuel ts = loop stop item ts := by
  have hfuel : ∀ {fuel fuel' : Nat} {ts : List τ}, ts.length < fuel → ts.length < fuel' →
      loopFuel stop item fuel ts = loopFuel stop item fuel' ts := by
    intro fuel
    induction fuel with
    | zero =>
      intro _ _ h
      exact absurd h (Nat.not_lt_zero _)
    | succ fuel ih =>
      intro fuel' ts h h'
      cases fuel' with
      | zero => exact absurd h' (Nat.not_lt_zero _)
      | succ fuel' =>
        rw [loopFuel, loopFuel]
        split
        · rfl
        next hstop =>
          cases hi : item ts with
          | error e => rfl
          | ok r =>
            have hlt := (hc (eq_false_of_ne_true hstop) hi).2
            have he : loopFuel stop item fuel r.2 = loopFuel stop item fuel' r.2 :=
              ih (by omega) (by omega)
            dsimp only [bind, Except.bind]
            rw [he]
  exact hfuel h (Nat.lt_succ_self _)

/-- The loop is the `while` it stands for. -/
def While (stop : List τ → Bool) (item : List τ → Except String (α × List τ)) : Prop :=
  ∀ ts, loop stop item ts =
    if stop ts then .ok ([], ts)
    else do
      let r ← item ts
      let rs ← loop stop item r.2
      .ok (r.1 :: rs.1, rs.2)

/-- A loop that consumes goes on to its end. -/
lemma loop_while (hc : Consumes stop item) : While stop item := by
  intro ts
  rw [loop, loopFuel]
  split
  · rfl
  next hstop =>
    cases hi : item ts with
    | error e => rfl
    | ok r =>
      have hlt := (hc (eq_false_of_ne_true hstop) hi).2
      have he : loopFuel stop item ts.length r.2 = loop stop item r.2 := loop_eq hc hlt
      dsimp only [bind, Except.bind]
      rw [he]

/-- A property of the input that every item keeps holds to the end, and what it makes of an item holds
of all of them. -/
lemma loop_all {I : List τ → Prop} {P : α → Prop}
    (hstep : ∀ {ts a ts'}, stop ts = false → I ts → item ts = .ok (a, ts') → P a ∧ I ts')
    (hI : I ts) (h : loop stop item ts = .ok (as, ts')) : (∀ a ∈ as, P a) ∧ I ts' := by
  unfold loop at h
  generalize ts.length + 1 = fuel at h
  induction fuel generalizing ts as with
  | zero => cases h
  | succ fuel ih =>
    rw [loopFuel] at h
    split at h
    · cases h
      exact ⟨fun _ hm => absurd hm List.not_mem_nil, hI⟩
    next hstop =>
      obtain ⟨⟨a, ts1⟩, hi, h⟩ := bind_ok h
      obtain ⟨⟨as1, ts2⟩, hl, h⟩ := bind_ok h
      cases h
      obtain ⟨ha, hI1⟩ := hstep (eq_false_of_ne_true hstop) hI hi
      obtain ⟨has, hI2⟩ := ih hI1 hl
      exact ⟨List.forall_mem_cons.mpr ⟨ha, has⟩, hI2⟩

/-- What the loop leaves is a suffix of its input. -/
lemma loop_suffix (hc : Consumes stop item) (h : loop stop item ts = .ok (as, ts')) : ts' <:+ ts := by
  have hstep : ∀ {ts1 a ts2}, stop ts1 = false → ts1 <:+ ts → item ts1 = .ok (a, ts2) →
      True ∧ ts2 <:+ ts := by
    intro ts1 a ts2 hstop hs hi
    exact ⟨trivial, (hc hstop hi).1.trans hs⟩
  exact (loop_all hstep List.suffix_rfl h).2

end Thorium
