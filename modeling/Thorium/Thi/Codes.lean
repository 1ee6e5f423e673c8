import Thorium.Isa.Thi
import Thorium.Lib.Loop

/-!
# The codes of the instructions

`parser.lua` threads the next free code through the directives of a file and the forms nested in them.
Wherever a `(code n)` stands, an instruction that is still being read has no code or the next free one
(`Pending`), so each concrete form closes with the next free code and the codes ascend in source order
(`parseDirectives_ascends`).
-/

namespace Thorium.Thi
open Thorium.Isa

/-- The instruction has no code yet, or the next free one. -/
def Pending (n : Nat) (i : Instruction) : Prop := i.code = none ∨ i.code = some n

/-- The codes of the instructions ascend from `n` on and stay below `n'`. -/
inductive Ascends : Nat → List Instruction → Nat → Prop where
  | nil {n n'} :
    n ≤ n' →
    Ascends n [] n'
  | cons {n n' v vs} :
    n ≤ v.opcode →
    v.code = some v.opcode →
    Ascends (v.opcode + 1) vs n' →
    Ascends n (v :: vs) n'

variable {nested : Bool} {i i' : Instruction} {n n' m : Nat} {p : Pair} {ps : List Pair}
variable {vs ws is is' : List Instruction}

/-- Codes that begin later ascend from earlier. -/
lemma Ascends.weaken (h : Ascends m vs n') (hm : n ≤ m) : Ascends n vs n' := by
  cases h with
  | nil hle => exact .nil (hm.trans hle)
  | cons hle hc h => exact .cons (hm.trans hle) hc h

/-- Lists of ascending codes one after the other. -/
lemma Ascends.append (h : Ascends n vs m) (h' : Ascends m ws n') : Ascends n (vs ++ ws) n' := by
  induction h with
  | nil hle => exact h'.weaken hle
  | cons hle hc _ ih => exact .cons hle hc (ih h')

/-- The next code does not go back. -/
lemma Ascends.le (h : Ascends n vs n') : n ≤ n' := by
  induction h with
  | nil hle => exact hle
  | cons hle _ _ ih => omega

/-- All codes are from the first one on. -/
lemma Ascends.lower (h : Ascends n vs n') : ∀ v ∈ vs, n ≤ v.opcode := by
  induction h with
  | nil _ => exact fun _ hv => absurd hv List.not_mem_nil
  | cons hle _ _ ih =>
    refine List.forall_mem_cons.mpr ⟨hle, ?_⟩
    intro w hw
    have := ih w hw
    omega

/-- Every instruction has a code. -/
lemma Ascends.coded (h : Ascends n vs n') : ∀ v ∈ vs, v.code = some v.opcode := by
  induction h with
  | nil _ => exact fun _ hv => absurd hv List.not_mem_nil
  | cons _ hc _ ih => exact List.forall_mem_cons.mpr ⟨hc, ih⟩

/-- The codes increase strictly. -/
lemma Ascends.pairwise (h : Ascends n vs n') : (vs.map Instruction.opcode).Pairwise (· < ·) := by
  induction h with
  | nil _ => exact List.Pairwise.nil
  | cons _ _ h ih =>
    refine List.pairwise_cons.mpr ⟨?_, ih⟩
    intro c hc
    obtain ⟨w, hw, rfl⟩ := List.mem_map.mp hc
    exact h.lower w hw

/-! ### One instruction -/

/-- A pair never lowers the next free code, and keeps the instruction pending and its name. -/
lemma applyPair_spec (h : applyPair nested i n p = .ok (i', n')) :
    n ≤ n' ∧ (Pending n i → Pending n' i') ∧ i'.name = i.name := by
  cases p with
  | code k =>
    rw [applyPair] at h
    split at h
    · cases h
      exact ⟨le_rfl, id, rfl⟩
    next hk =>
      cases h
      exact ⟨Nat.le_of_not_lt hk, fun _ => .inr rfl, rfl⟩
  | args as =>
    cases nested with
    | true =>
      cases h
      exact ⟨le_rfl, id, rfl⟩
    | false => cases h
  | flags _ | cond _ | effect _ | comment _ =>
    cases h
    exact ⟨le_rfl, id, rfl⟩

/-- Pairs do not change the name, and the next code does not go back. -/
lemma applyPairs_spec (h : applyPairs nested i n ps = .ok (i', n')) :
    n ≤ n' ∧ (Pending n i → Pending n' i') ∧ i'.name = i.name := by
  induction ps generalizing i n with
  | nil =>
    cases h
    exact ⟨le_rfl, id, rfl⟩
  | cons p ps ih =>
    obtain ⟨⟨i1, n1⟩, hp, h⟩ := bind_ok h
    obtain ⟨hle, hpend, hname⟩ := applyPair_spec hp
    obtain ⟨hle', hpend', hname'⟩ := ih h
    exact ⟨hle.trans hle', fun hi => hpend' (hpend hi), hname'.trans hname⟩

/-- A top-level pair leaves the instruction abstract or concrete. -/
lemma applyPair_abstract (h : applyPair false i n p = .ok (i', n')) : i'.abstract = i.abstract := by
  cases p with
  | code k =>
    rw [applyPair] at h
    split at h <;> (cases h; rfl)
  | args as => cases h
  | flags _ | cond _ | effect _ | comment _ => cases h; rfl

/-- A concrete instruction that is pending closes with the next free code. -/
lemma closeInstruction_ascends (hp : i.abstract = false → Pending n i) :
    Ascends n (closeInstruction i n).1 (closeInstruction i n).2 ∧
      ∀ v ∈ (closeInstruction i n).1, v.name = i.name := by
  unfold closeInstruction
  split
  · exact ⟨.nil le_rfl, fun _ hv => absurd hv List.not_mem_nil⟩
  next ha =>
    have hcode : i.code.getD n = n := by
      cases hp (eq_false_of_ne_true ha) with
      | inl h => rw [h]; rfl
      | inr h => rw [h]; rfl
    rw [hcode]
    refine ⟨.cons le_rfl rfl (.nil le_rfl), ?_⟩
    intro v hv
    rw [List.mem_singleton.mp hv]

/-- A form takes a code that is free, whatever code the instruction around it has. -/
lemma parseNested_spec (h : parseNested i n ps = .ok (i', n')) :
    Ascends n [i'] n' ∧ i'.name = i.name := by
  obtain ⟨⟨j, m⟩, hps, h⟩ := bind_ok h
  obtain ⟨hle, hpend, hname⟩ := applyPairs_spec hps
  obtain ⟨hasc, hnames⟩ := @closeInstruction_ascends j m fun _ => hpend (.inl rfl)
  dsimp only at h
  split at h
  · next v vs k hclose =>
    cases h
    rw [hclose] at hasc hnames
    cases hasc with
    | cons hv hc hrest =>
      refine ⟨.cons (hle.trans hv) hc (.nil hrest.le), ?_⟩
      exact (hnames _ List.mem_cons_self).trans hname
  · cases h

/-! ### Directives -/

/-- The instructions of a directive ascend from the next free code on and have its name. -/
lemma parseClauses_ascends {cs : List Clause} (hp : i.abstract = false → Pending n i)
    (h : parseClauses i n is cs = .ok (is', n')) :
    ∃ vs, is' = is ++ vs ∧ Ascends n vs n' ∧ ∀ v ∈ vs, v.name = i.name := by
  induction cs generalizing i n is with
  | nil =>
    cases h
    exact ⟨_, rfl, closeInstruction_ascends hp⟩
  | cons c cs ih =>
    cases c with
    | pair p =>
      obtain ⟨⟨j, m⟩, hpair, h⟩ := bind_ok h
      obtain ⟨hle, hpend, hname⟩ := applyPair_spec hpair
      have hj : j.abstract = false → Pending m j := by
        intro ha
        rw [applyPair_abstract hpair] at ha
        exact hpend (hp ha)
      obtain ⟨vs, he, hasc, hnames⟩ := ih hj h
      exact ⟨vs, he, hasc.weaken hle, fun v hv => (hnames v hv).trans hname⟩
    | nested ps =>
      obtain ⟨⟨form, m⟩, hform, h⟩ := bind_ok h
      obtain ⟨hasc, hname⟩ := parseNested_spec hform
      -- From here on the directive is abstract and its own code no longer matters.
      obtain ⟨vs, he, hasc', hnames⟩ := ih (fun ha => Bool.noConfusion ha) h
      refine ⟨form :: vs, ?_, hasc.append hasc', ?_⟩
      · rw [he, List.append_assoc]
        rfl
      · exact List.forall_mem_cons.mpr ⟨hname, hnames⟩

/-- The codes of a file ascend in source order, and every instruction has the name of a directive. -/
theorem parseDirectives_ascends {ds : List Directive} (h : parseDirectives n ds = .ok is) :
    ∃ n', Ascends n is n' ∧ ∀ v ∈ is, ∃ d ∈ ds, v.name = d.name := by
  induction ds generalizing n is with
  | nil =>
    cases h
    exact ⟨n, .nil le_rfl, fun _ hv => absurd hv List.not_mem_nil⟩
  | cons d ds ih =>
    obtain ⟨⟨vs, m⟩, hd, h⟩ := bind_ok h
    obtain ⟨rest, hds, h⟩ := bind_ok h
    cases h
    obtain ⟨ws, he, hasc, hnames⟩ := parseClauses_ascends (fun _ => .inl rfl) hd
    obtain ⟨n', hasc', hnames'⟩ := ih hds
    rw [List.nil_append] at he
    subst he
    refine ⟨n', hasc.append hasc', ?_⟩
    intro v hv
    cases List.mem_append.mp hv with
    | inl hv => exact ⟨d, List.mem_cons_self, hnames v hv⟩
    | inr hv =>
      obtain ⟨d', hd', hname⟩ := hnames' v hv
      exact ⟨d', List.mem_cons_of_mem d hd', hname⟩

end Thorium.Thi
