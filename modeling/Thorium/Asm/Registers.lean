import Thorium.Asm.Checker
import Thorium.Asm.Emitter

/-!
# Register names

The checker and the emitter each build a table of register names. Both insert `r0` to `r31` over six
special names, which are the same but for one: `pc` in `Checker::new` is `cp` in `Emitter::new`
(`registers_agree`, `RegisterName.iff_emitter`, `RegisterName.iff_checker`). `check` looks at the
operands of `IR`, `IRR`, `IRRR` and `IRW` only.
-/

namespace Thorium.Asm
open Thorium.Isa

/-- The checker of `main`. -/
def mainChecker : Checker := Checker.new (BitVec.ofNat 8 regCount)

/-- The register operands of an instruction. -/
def Instruction.registers : Instruction → List String
  | .IR _ r => [r]
  | .IRR _ r1 r2 => [r1, r2]
  | .IRRR _ r1 r2 r3 => [r1, r2, r3]
  | .IRW _ r _ => [r]
  | .IRA _ r _ _ => [r]
  | .IRRW _ r1 r2 _ => [r1, r2]
  | _ => []

/-- The register operands of an instruction that `check` looks at. -/
def Instruction.checkedRegisters : Instruction → List String
  | .IR _ r => [r]
  | .IRR _ r1 r2 => [r1, r2]
  | .IRRR _ r1 r2 r3 => [r1, r2, r3]
  | .IRW _ r _ => [r]
  | _ => []

/-- A list of strings for each instruction, over all nodes. -/
def operands (f : Instruction → List String) (nodes : List Node) : List String :=
  nodes.flatMap fun
    | .instruction i => f i
    | _ => []

/-- The register names common to both tables. -/
def RegisterName (r : String) : Prop :=
  r ∈ ["sp", "bp", "cs", "ir", "idt"] ∨ ∃ n < 32, r = s!"r{n}"

/-- The loop over the general registers adds their names. -/
lemma isSome_foldl_insert (m : HashMap Nat) (n : Nat) (k : String) :
    ((List.range n).foldl (fun m r => m.insert s!"r{r}" r) m k).isSome ↔
      (∃ r < n, k = s!"r{r}") ∨ (m k).isSome := by
  induction n with
  | zero => simp
  | succ n ih =>
    rw [List.range_succ, List.foldl_append, List.foldl_cons, List.foldl_nil, HashMap.insert]
    split
    · rename_i e
      exact iff_of_true rfl (.inl ⟨n, Nat.lt_succ_self n, e⟩)
    · rename_i e
      rw [ih]
      constructor
      · rintro (⟨r, hr, hk⟩ | hm)
        · exact .inl ⟨r, Nat.lt_succ_of_lt hr, hk⟩
        · exact .inr hm
      · rintro (⟨r, hr, hk⟩ | hm)
        · refine .inl ⟨r, Nat.lt_of_le_of_ne (Nat.le_of_lt_succ hr) ?_, hk⟩
          rintro rfl
          exact e hk
        · exact .inr hm

/-- The loop over the general registers keeps the agreement of two tables at a name. -/
lemma foldl_insert_congr {m m' : HashMap Nat} {k : String} (h : m k = m' k) (l : List Nat) :
    l.foldl (fun m r => m.insert s!"r{r}" r) m k = l.foldl (fun m r => m.insert s!"r{r}" r) m' k := by
  induction l generalizing m m' with
  | nil => exact h
  | cons r l ih =>
    apply ih
    simp only [HashMap.insert, h]

/-- The tables agree on every name but `pc` and `cp`. -/
lemma registers_agree {r : String} (hpc : r ≠ "pc") (hcp : r ≠ "cp") :
    Emitter.registers r = mainChecker.registers r := by
  apply foldl_insert_congr
  simp only [HashMap.insert, hpc, hcp, if_false]

/-- A register name is a key of the emitter other than `cp`. -/
lemma RegisterName.iff_emitter {r : String} :
    RegisterName r ↔ (Emitter.registers r).isSome ∧ r ≠ "cp" := by
  rw [Emitter.registers, isSome_foldl_insert]
  constructor
  · rintro (hs | ⟨n, hn, rfl⟩)
    · simp only [List.mem_cons, List.not_mem_nil, or_false] at hs
      rcases hs with rfl | rfl | rfl | rfl | rfl <;> exact ⟨.inr rfl, by decide⟩
    · have hne : ∀ n < 32, s!"r{n}" ≠ "cp" := by decide +kernel
      exact ⟨.inl ⟨n, hn, rfl⟩, hne n hn⟩
  · rintro ⟨hs | hs, hcp⟩
    · exact .inr hs
    · left
      simp only [HashMap.insert, HashMap.new, hcp, if_false] at hs
      simp only [List.mem_cons, List.not_mem_nil, or_false]
      split at hs
      · tauto
      · split at hs
        · tauto
        · split at hs
          · tauto
          · split at hs
            · tauto
            · split at hs
              · tauto
              · cases hs

/-- A register name is a key of the checker other than `pc`. -/
lemma RegisterName.iff_checker {r : String} :
    RegisterName r ↔ (mainChecker.registers r).isSome ∧ r ≠ "pc" := by
  by_cases hcp : r = "cp"
  · subst hcp
    have hc : mainChecker.registers "cp" = none := by decide +kernel
    simp [iff_emitter, hc]
  · by_cases hpc : r = "pc"
    · subst hpc
      have he : Emitter.registers "pc" = none := by decide +kernel
      simp [iff_emitter, he]
    · rw [iff_emitter, registers_agree hpc hcp]
      simp [hpc, hcp]

/-- The names the checker rejects. -/
lemma RegisterName.not_checker {r} :
    ¬ (mainChecker.registers r).isSome ↔ ¬ RegisterName r ∧ r ≠ "pc" := by
  have hpc : (mainChecker.registers "pc").isSome := by decide +kernel
  rw [RegisterName.iff_checker]
  by_cases e : r = "pc"
  · simp [e, hpc]
  · simp [e]

/-- The names the emitter panics at. -/
lemma RegisterName.not_emitter {r} :
    ¬ (Emitter.registers r).isSome ↔ ¬ RegisterName r ∧ r ≠ "cp" := by
  have hcp : (Emitter.registers "cp").isSome := by decide +kernel
  rw [RegisterName.iff_emitter]
  by_cases e : r = "cp"
  · simp [e, hcp]
  · simp [e]

/-- `check` accepts when every operand it looks at is a key of its table. -/
lemma check_eq_none {nodes} :
    mainChecker.check nodes = none ↔
      ∀ r ∈ operands Instruction.checkedRegisters nodes, (mainChecker.registers r).isSome := by
  have hv : ∀ rs, mainChecker.checkRegisterIsValid rs = [] ↔
      ∀ r ∈ rs, (mainChecker.registers r).isSome := by
    intro rs
    simp [Checker.checkRegisterIsValid, HashMap.containsKey, Option.isSome_iff_ne_none]
  have hn : ∀ n : Node, mainChecker.checkNode n = [] ↔
      ∀ r ∈ operands Instruction.checkedRegisters [n], (mainChecker.registers r).isSome := by
    rintro (d | i | l)
    · simp [Checker.checkNode, operands]
    · cases i <;> simp [Checker.checkNode, operands, Instruction.checkedRegisters, hv]
    · simp [Checker.checkNode, operands]
  rw [Checker.check]
  constructor
  · intro h r hr
    split at h
    · rename_i he
      obtain ⟨n, hm, hr⟩ := List.mem_flatMap.mp hr
      have hnil := List.flatMap_eq_nil_iff.mp (List.isEmpty_iff.mp he) n hm
      exact (hn n).mp hnil r (List.mem_flatMap.mpr ⟨n, List.mem_singleton_self n, hr⟩)
    · cases h
  · intro h
    rw [if_pos]
    apply List.isEmpty_iff.mpr
    apply List.flatMap_eq_nil_iff.mpr
    intro n hm
    apply (hn n).mpr
    intro r hr
    obtain ⟨n', hm', hr⟩ := List.mem_flatMap.mp hr
    cases List.mem_singleton.mp hm'
    exact h r (List.mem_flatMap.mpr ⟨n, hm, hr⟩)

/-- The operands `check` looks at are operands. -/
lemma operands_checked {nodes r} (h : r ∈ operands Instruction.checkedRegisters nodes) :
    r ∈ operands Instruction.registers nodes := by
  obtain ⟨n, hm, hr⟩ := List.mem_flatMap.mp h
  refine List.mem_flatMap.mpr ⟨n, hm, ?_⟩
  cases n with
  | directive d => cases hr
  | label l => cases hr
  | instruction i => cases i <;> first | exact hr | cases hr

/-- The checker accepts exactly what the emitter can encode: `check` returns `None` if and only if every
register operand is a key of the emitter's table, and after that `decode_register` never fails and both
tables give the same number. -/
structure CheckExact (nodes : List Node) : Prop where
  accepts : mainChecker.check nodes = none ↔
    ∀ r ∈ operands Instruction.registers nodes, (Emitter.registers r).isSome
  decodes : mainChecker.check nodes = none →
    ∀ r ∈ operands Instruction.registers nodes, Emitter.decodeRegister r ≠ none
  numbers : mainChecker.check nodes = none →
    ∀ r ∈ operands Instruction.registers nodes, Emitter.registers r = mainChecker.registers r

/-- The checker is exact when every register operand is a name of both tables, or when each of the two
has an operand of its own to reject. -/
theorem check_exact_iff (nodes : List Node) :
    CheckExact nodes ↔
      (∀ r ∈ operands Instruction.registers nodes, RegisterName r) ∨
      ((∃ r ∈ operands Instruction.checkedRegisters nodes, ¬ RegisterName r ∧ r ≠ "pc") ∧
        ∃ r ∈ operands Instruction.registers nodes, ¬ RegisterName r ∧ r ≠ "cp") := by
  constructor
  · rintro ⟨accepts, _, numbers⟩
    by_cases hc : mainChecker.check nodes = none
    · left
      intro r hr
      have hs := accepts.mp hc r hr
      refine RegisterName.iff_emitter.mpr ⟨hs, ?_⟩
      rintro rfl
      have hn := numbers hc _ hr
      rw [hn] at hs
      exact absurd hs (by decide +kernel)
    · right
      refine ⟨?_, ?_⟩
      · rw [check_eq_none] at hc
        push Not at hc
        obtain ⟨r, hr, hs⟩ := hc
        exact ⟨r, hr, RegisterName.not_checker.mp (by simpa using hs)⟩
      · rw [accepts] at hc
        push Not at hc
        obtain ⟨r, hr, hs⟩ := hc
        exact ⟨r, hr, RegisterName.not_emitter.mp (by simpa using hs)⟩
  · rintro (hall | ⟨⟨r, hr, hs⟩, ⟨r', hr', hs'⟩⟩)
    · have he : ∀ r ∈ operands Instruction.registers nodes, (Emitter.registers r).isSome :=
        fun r hr => (RegisterName.iff_emitter.mp (hall r hr)).1
      refine ⟨iff_of_true ?_ he, fun _ r hr => ?_, fun _ r hr => ?_⟩
      · exact check_eq_none.mpr fun r hr =>
          (RegisterName.iff_checker.mp (hall r (operands_checked hr))).1
      · simpa [Emitter.decodeRegister, ← Option.isSome_iff_ne_none] using he r hr
      · exact registers_agree (RegisterName.iff_checker.mp (hall r hr)).2
          (RegisterName.iff_emitter.mp (hall r hr)).2
    · have hc : mainChecker.check nodes ≠ none := fun e =>
        RegisterName.not_checker.mpr hs (check_eq_none.mp e r hr)
      exact ⟨iff_of_false hc fun h => RegisterName.not_emitter.mpr hs' (h r' hr'), (absurd · hc), (absurd · hc)⟩

/-- `INC pc` passes the checker and panics in the emitter. -/
theorem not_check_exact_pc : ¬ CheckExact [.instruction (.IR .incR "pc")] := by
  rintro ⟨accepts, _⟩
  have hs := accepts.mp (by decide +kernel) "pc" (by decide)
  exact absurd hs (by decide +kernel)

end Thorium.Asm
