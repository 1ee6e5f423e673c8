import Thorium.Vm.Main

/-!
# What a new CPU holds

`cpu_create` takes the CPU and its registers from `malloc`, and `cpu_reset` then assigns them. Its loop runs
over 32 registers whatever the number of them, and nothing assigns `ir` and `idt`. `clearRegisters` is the
loop with the array's bounds; `cpuReset_clearRegisters` relates it to `cpuReset`.
-/

namespace Thorium.Vm

/-! ### The loop -/

/-- An assignment to an element of `cpu->registers`, which has `count` elements. -/
def assignRegister (count : Nat) (value : Word) (registers : Nat → Word) (r : Nat) : Option (Nat → Word) :=
  if r < count then some fun i => if i = r then value else registers i else none

/-- The loop of `cpu_reset`. -/
def clearRegisters (count : Nat) (registers : Nat → Word) : Option (Nat → Word) :=
  (List.range 32).foldlM (assignRegister count 0) registers

section
variable {count n : Nat} {registers : Nat → Word}

/-- The last round. -/
lemma clear_succ (count n : Nat) (registers : Nat → Word) :
    (List.range (n + 1)).foldlM (assignRegister count 0) registers =
      ((List.range n).foldlM (assignRegister count 0) registers).bind fun registers' =>
        assignRegister count 0 registers' n := by
  rw [List.range_succ, List.foldlM_append]
  congr 1
  funext registers'
  exact Option.bind_fun_some _

/-- The loop after `n` rounds. -/
lemma clear_rounds (hn : n ≤ count) : (List.range n).foldlM (assignRegister count 0) registers =
    some fun r => if r < n then 0 else registers r := by
  induction n with
  | zero => rfl
  | succ n ih =>
    rw [clear_succ, ih (Nat.le_of_succ_le hn), Option.bind_some, assignRegister, if_pos (Nat.lt_of_succ_le hn)]
    congr 1
    funext r
    by_cases hr : r = n
    · rw [if_pos hr, if_pos (hr ▸ Nat.lt_succ_self n)]
    · have hlt : r < n + 1 ↔ r < n := by omega
      rw [if_neg hr, if_congr hlt rfl rfl]

/-- The first round behind the array ends it. -/
lemma clear_overrun (hn : count < n) : (List.range n).foldlM (assignRegister count 0) registers = none := by
  induction n with
  | zero => cases hn
  | succ n ih =>
    rw [clear_succ]
    by_cases h : count < n
    · rw [ih h]
      rfl
    · have hcount : n = count := by omega
      rw [clear_rounds (Nat.le_of_eq hcount), Option.bind_some, assignRegister, if_neg (by omega)]

end

/-- `cpu_reset` runs its loop. -/
lemma cpuReset_clearRegisters (cpu : CPU) :
    cpuReset cpu = (clearRegisters cpu.registerCount.toNat cpu.registers).map fun registers =>
      { cpu with
        registers := registers
        pc := stackSize
        sp := stackSize
        bp := stackSize
        cs := stackSize
        flags := ⟨false, false, false⟩
        state := ⟨.ok, false⟩
        debug := ⟨false, false, false, 0⟩ } := by
  unfold cpuReset clearRegisters
  by_cases h : cpu.registerCount.toNat < 32
  · rw [if_pos h, clear_overrun h]
    rfl
  · rw [if_neg h, clear_rounds (Nat.le_of_not_lt h)]
    rfl

/-! ### The new CPU -/

/-- A part of the new CPU has this value, whatever `malloc` returns. -/
def Gives (vm : VM) (count : Byte) {α : Type} (part : CPU → α) (value : α) : Prop :=
  ∀ raw cpu, cpuCreate raw vm count = some cpu → part cpu = value

/-- `cpu_create` never writes outside the registers. -/
def StaysInside (vm : VM) (count : Byte) : Prop := ∀ raw, ∃ cpu, cpuCreate raw vm count = some cpu

/-- The registers are 0. -/
def Clears (vm : VM) (count : Byte) : Prop := ∀ r < count.toNat, Gives vm count (fun cpu => cpu.registers r) 0

/-- The flags and the pointers are those of a machine at its start. -/
structure Starts (vm : VM) (count : Byte) : Prop where
  zero : Gives vm count (fun cpu => cpu.flags.zero) false
  negative : Gives vm count (fun cpu => cpu.flags.negative) false
  interruptsEnabled : Gives vm count (fun cpu => cpu.flags.interruptsEnabled) false
  pc : Gives vm count CPU.pc stackSize
  sp : Gives vm count CPU.sp stackSize
  bp : Gives vm count CPU.bp stackSize
  cs : Gives vm count CPU.cs stackSize

/-- The new CPU is a defined machine. -/
structure Defined (vm : VM) (count : Byte) : Prop where
  inside : StaysInside vm count
  registers : Clears vm count
  ir : ∃ w, Gives vm count CPU.ir w
  idt : ∃ a, Gives vm count CPU.idt a
  starts : Starts vm count

/-- A new CPU before `cpu_reset` when `malloc` returns the same word everywhere. -/
def rawCpu (w : Word) : CPU := { smallCpu smallHeap with registers := fun _ => w, ir := w, idt := w }

section
variable {vm : VM} {count : Byte}

/-- With too few registers no CPU is created. -/
lemma cpuCreate_none (h : count.toNat < 32) (raw : CPU) (vm : VM) : cpuCreate raw vm count = none := if_pos h

/-- All that the new CPU holds. -/
lemma cpuCreate_some (h : 32 ≤ count.toNat) (raw : CPU) (vm : VM) : cpuCreate raw vm count = some
    { raw with
      heap := vm.heap
      bus := vm.bus
      pic := vm.pic
      registers := fun r => if r < 32 then 0 else raw.registers r
      registerCount := count
      pc := stackSize
      sp := stackSize
      bp := stackSize
      cs := stackSize
      flags := ⟨false, false, false⟩
      state := ⟨.ok, false⟩
      debug := ⟨false, false, false, 0⟩
      debugger := false
      signals := []
      faulted := false } := if_neg (Nat.not_lt.mpr h)

/-- The writes of `cpu_create` stay inside where there is a CPU. -/
lemma staysInside_iff : StaysInside vm count ↔ 32 ≤ count.toNat := by
  constructor
  · intro h
    by_contra hlt
    obtain ⟨cpu, hcpu⟩ := h (rawCpu 0)
    cases (cpuCreate_none (Nat.lt_of_not_le hlt) _ vm).symm.trans hcpu
  · intro h raw
    exact ⟨_, cpuCreate_some h raw vm⟩

/-- With more than 32 registers, one keeps the word that `malloc` has returned. -/
lemma clears_iff (h : 32 ≤ count.toNat) : Clears vm count ↔ count.toNat = 32 := by
  constructor
  · intro hclears
    by_contra hne
    have hleft : (if 32 < 32 then 0 else (1 : Word)) = 0 :=
      hclears 32 (Nat.lt_of_le_of_ne h (Ne.symm hne)) (rawCpu 1) _ (cpuCreate_some h _ vm)
    rw [if_neg (Nat.lt_irrefl 32)] at hleft
    exact absurd hleft (by decide)
  · intro hcount r hr raw cpu hcpu
    cases (cpuCreate_some h raw vm).symm.trans hcpu
    exact if_pos (hcount ▸ hr)

/-- The flags and the pointers are always assigned. -/
lemma starts (vm : VM) (count : Byte) : Starts vm count := by
  by_cases h : 32 ≤ count.toNat
  · constructor
    all_goals
      intro raw cpu hcpu
      cases (cpuCreate_some h raw vm).symm.trans hcpu
      rfl
  · constructor
    all_goals
      intro raw cpu hcpu
      cases (cpuCreate_none (Nat.lt_of_not_le h) raw vm).symm.trans hcpu

/-- A part that is left as it was has no fixed value. -/
lemma not_gives {part : CPU → Word} (h : 32 ≤ count.toNat)
    (hpart : ∀ w cpu, cpuCreate (rawCpu w) vm count = some cpu → part cpu = w) : ¬ ∃ w, Gives vm count part w := by
  rintro ⟨w, hw⟩
  have h0 := hw (rawCpu 0) _ (cpuCreate_some h _ vm)
  have h1 := hw (rawCpu 1) _ (cpuCreate_some h _ vm)
  rw [hpart 0 _ (cpuCreate_some h _ vm)] at h0
  rw [hpart 1 _ (cpuCreate_some h _ vm)] at h1
  exact absurd (h0.trans h1.symm) (by decide)

/-- `ir` has no value. -/
lemma not_gives_ir (h : 32 ≤ count.toNat) : ¬ ∃ w, Gives vm count CPU.ir w := by
  apply not_gives h
  intro w cpu hcpu
  cases (cpuCreate_some h (rawCpu w) vm).symm.trans hcpu
  rfl

/-- `idt` has no value. -/
lemma not_gives_idt (h : 32 ≤ count.toNat) : ¬ ∃ a, Gives vm count CPU.idt a := by
  apply not_gives h
  intro w cpu hcpu
  cases (cpuCreate_some h (rawCpu w) vm).symm.trans hcpu
  rfl

/-- **A new CPU is never defined**: the loop of `cpu_reset` leaves the array when there are less than 32
registers and clears all of them only when there are 32, and `ir` and `idt` keep what `malloc` has returned.
The flags and the pointers are as they are to be. -/
theorem cpuCreate_undefined (vm : VM) (count : Byte) :
    ¬ Defined vm count ∧ (StaysInside vm count ↔ 32 ≤ count.toNat) ∧
      (StaysInside vm count ∧ Clears vm count ↔ count.toNat = 32) ∧ Starts vm count ∧
      (StaysInside vm count → (¬ ∃ w, Gives vm count CPU.ir w) ∧ ¬ ∃ a, Gives vm count CPU.idt a) := by
  refine ⟨fun h => not_gives_ir (staysInside_iff.mp h.inside) h.ir, staysInside_iff, ?_, starts vm count, ?_⟩
  · constructor
    · rintro ⟨hinside, hclears⟩
      exact (clears_iff (staysInside_iff.mp hinside)).mp hclears
    · intro hcount
      have hge : 32 ≤ count.toNat := Nat.le_of_eq hcount.symm
      exact ⟨staysInside_iff.mpr hge, (clears_iff hge).mpr hcount⟩
  · intro hinside
    have hge := staysInside_iff.mp hinside
    exact ⟨not_gives_ir hge, not_gives_idt hge⟩

end

/-- With 40 registers, the last of them keeps the 7 that `malloc` has returned. -/
theorem not_defined_forty : ¬ Defined ⟨smallHeap, busCreate, ⟨1, 2, fun _ => 0⟩⟩ 40 := by
  intro h
  have hlast : (7 : Word) = 0 := h.registers 39 (by decide) (rawCpu 7) _ (cpuCreate_some (by decide) _ _)
  exact absurd hlast (by decide)

end Thorium.Vm
