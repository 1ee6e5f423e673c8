import Thorium.Vm.Machine
import Thorium.Vm.Step

/-!
# The start of the machine

Model of `cpu_create` (`src/vm/cpu.c`) and of `main` (`src/vm/main.c`) up to `vm_start`, and what the CPU
holds then (`startUp_iff`). `cpu_reset` sets 32 registers whatever their number. The general and the special
registers share one number space, so the values of the registers from 250 on go to the special registers.
-/

namespace Thorium.Vm
open Thorium.Isa Thorium.Run

/-! ### The CPU -/

/-- `cpu_reset`. It is undefined when there are less than 32 registers. -/
def cpuReset (cpu : CPU) : Option CPU :=
  if cpu.registerCount.toNat < 32 then none
  else some { cpu with
    registers := fun r => if r < 32 then 0 else cpu.registers r
    pc := stackSize
    sp := stackSize
    bp := stackSize
    cs := stackSize
    flags := ⟨false, false, false⟩
    state := ⟨.ok, false⟩
    debug := ⟨false, false, false, 0⟩ }

/-- `cpu_create`, on what `malloc` returns for the CPU and its registers. -/
def cpuCreate (raw : CPU) (vm : VM) (regCount : Byte) : Option CPU :=
  cpuReset { raw with
    heap := vm.heap
    bus := vm.bus
    pic := vm.pic
    registerCount := regCount
    debugger := false
    signals := []
    faulted := false }

/-! ### Before `vm_start` -/

/-- `Options`, without what is only about printing to a file or about the help. `video` is whether the mode is
not `OPT_VIDEO_MODE_NONE`. -/
structure Options where
  ramSize : Addr
  pc : Addr
  registers : Int
  registerValues : Nat → Int
  rom : File
  image : File
  printSteps : Bool
  video : Bool

/-- `memory_mode_set` -/
def memoryModeSet (heap : Heap) (ref : Ref) (mode : MemMode) : Heap :=
  heap.set ref { heap ref with mode := mode }

/-- The loop of `main` over the registers. -/
def setRegisters (values : Nat → Int) : List Nat → Run CPU Unit
  | [] => return ()
  | i :: is => do
    let _ ← cpuRegisterSet (BitVec.ofNat 8 i) (BitVec.ofInt 32 (values i))
    setRegisters values is

/-- What `main` sets in the CPU after it has loaded the files. -/
def setCpu (options : Options) : Run CPU Unit := do
  modify fun cpu => { cpu with debug := { cpu.debug with printOp := options.printSteps } }
  modify fun cpu => { cpu with pc := options.pc }
  modify fun cpu => { cpu with cs := options.pc }
  modify fun cpu => { cpu with idt := interruptDescriptorTableAddress }
  setRegisters options.registerValues (List.range options.registers.toNat)

section
variable [Host]

/-- The load of the ROM in `main`, with whether it succeeds. -/
def loadRom (heap : Heap) (bus : Bus) : File → Option (Bool × Heap)
  | .null => some (true, heap)
  | file => do
    let heap := memoryModeSet heap romRef .rw
    let (ok, heap) ← loadFile heap bus file romAddress
    if ok then return (true, memoryModeSet heap romRef .r) else return (false, heap)

/-- `main` up to `vm_start`: `none` when it is aborted, `some none` when it returns because a file could not
be loaded. `raw` is what `malloc` returns for the CPU, and has the lines that the debugger will read. -/
def setUp (malloc : Ref → Nat → Word) (raw : CPU) (options : Options) : Option (Option CPU) := do
  let vm ← vmCreate malloc options.ramSize options.video
  let cpu ← cpuCreate raw vm (BitVec.ofInt 8 options.registers)
  let cpu := { cpu with debugger := true }
  let (ok, heap) ← loadFile cpu.heap cpu.bus options.image stackSize
  if ok then
    let (ok, heap) ← loadRom heap cpu.bus options.rom
    if ok then
      let ((), cpu) ← setCpu options { cpu with heap := heap }
      return some cpu
    else return none
  else return none

end

/-! ### What the CPU holds -/

/-- The CPU that `cpu_create` and `main` set up, with what the files have left in the memories. -/
def startCpu (raw : CPU) (vm : VM) (heap : Heap) (options : Options) : Option CPU := do
  let cpu ← cpuCreate raw vm (BitVec.ofInt 8 options.registers)
  let ((), cpu) ← setCpu options { cpu with debugger := true, heap := heap }
  return cpu

/-- The registers as the options say. -/
structure StartUp (options : Options) (cpu : CPU) : Prop where
  pc : cpu.pc = options.pc
  cs : cpu.cs = options.pc
  sp : cpu.sp = stackSize
  bp : cpu.bp = stackSize
  idt : cpu.idt = interruptDescriptorTableAddress
  registers : ∀ i : Nat, i < options.registers →
    cpu.register (BitVec.ofNat 8 i) = some (BitVec.ofInt 32 (options.registerValues i))

/-- The values that go to the special registers are those that these have anyway. -/
structure Harmless (options : Options) : Prop where
  idt : 250 < options.registers →
    BitVec.ofInt 32 (options.registerValues 250) = interruptDescriptorTableAddress
  sp : 252 < options.registers → BitVec.ofInt 32 (options.registerValues 252) = stackSize
  bp : 253 < options.registers → BitVec.ofInt 32 (options.registerValues 253) = stackSize
  pc : 254 < options.registers → BitVec.ofInt 32 (options.registerValues 254) = options.pc

section
variable {s s' cpu : CPU} {raw : CPU} {vm : VM} {heap : Heap} {options : Options} {is : List Nat}

/-- A register is assigned its value if it is in the list. -/
lemma setRegisters_ok (values : Nat → Int) (h : ∀ i ∈ is, i < s.registerCount.toNat) :
    ∃ s', setRegisters values is s = some ((), s') ∧ ∀ r : Byte, s'.register r =
      if r.toNat ∈ is then some (BitVec.ofInt 32 (values r.toNat)) else s.register r := by
  induction is generalizing s with
  | nil => exact ⟨s, rfl, fun r => (if_neg List.not_mem_nil).symm⟩
  | cons i is ih =>
    obtain ⟨hi, h⟩ := List.forall_mem_cons.mp h
    have hlt : i < 256 := Nat.lt_trans hi s.registerCount.isLt
    have hnat : (BitVec.ofNat 8 i).toNat = i := Nat.mod_eq_of_lt hlt
    have hreg : BitVec.ofNat 8 i < s.registerCount := by
      rw [BitVec.lt_def, hnat]
      exact hi
    obtain ⟨s1, hs1⟩ := setRegister_lt hreg (BitVec.ofInt 32 (values i))
    have hcount : s1.registerCount = s.registerCount := (setRegister_keeps hs1).2.2.1
    let s2 := s1.flagsUpdate (BitVec.ofInt 32 (values i))
    have hset : cpuRegisterSet (BitVec.ofNat 8 i) (BitVec.ofInt 32 (values i)) s = some (.ok, s2) := by
      unfold cpuRegisterSet
      rw [hs1]
    obtain ⟨s', hrun, hregs⟩ := @ih s2 (fun j hj => hcount ▸ h j hj)
    refine ⟨s', ?_, fun r => ?_⟩
    · rw [setRegisters, bind_apply, hset]
      exact hrun
    · have hr1 : s2.register r = if r = BitVec.ofNat 8 i then some (BitVec.ofInt 32 (values i)) else s.register r :=
        register_setRegister hs1 r
      rw [hregs r]
      by_cases hmem : r.toNat ∈ is
      · rw [if_pos hmem, if_pos (List.mem_cons_of_mem _ hmem)]
      · rw [if_neg hmem, hr1]
        by_cases heq : r = BitVec.ofNat 8 i
        · have hri : r.toNat = i := heq ▸ hnat
          rw [if_pos heq, hri, if_pos List.mem_cons_self]
        · have hri : r.toNat ∉ i :: is := by
            intro hin
            cases List.mem_cons.mp hin with
            | inl e => exact heq (BitVec.eq_of_toNat_eq (e.trans hnat.symm))
            | inr hin => exact hmem hin
          rw [if_neg heq, if_neg hri]

/-- The special registers have numbers. -/
lemma special_registers (cpu : CPU) : cpu.register 250 = some cpu.idt ∧ cpu.register 252 = some cpu.sp ∧
    cpu.register 253 = some cpu.bp ∧ cpu.register 254 = some cpu.pc ∧ cpu.register 255 = some cpu.cs :=
  ⟨rfl, rfl, rfl, rfl, rfl⟩

/-- With at least 32 registers, `main` places the special ones and then assigns the others. -/
lemma startCpu_ok {n : Byte} (hn : 32 ≤ n.toNat) : ∃ s cpu : CPU,
    startCpu raw vm heap { options with registers := n.toNat } = some cpu ∧
      (s.pc = options.pc ∧ s.cs = options.pc ∧ s.sp = stackSize ∧ s.bp = stackSize ∧
        s.idt = interruptDescriptorTableAddress) ∧
      ∀ r : Byte, cpu.register r =
        if r.toNat < n.toNat then some (BitVec.ofInt 32 (options.registerValues r.toNat)) else s.register r := by
  have hcount : BitVec.ofInt 8 (n.toNat : Int) = n := by
    rw [BitVec.ofInt_natCast, BitVec.ofNat_toNat, BitVec.setWidth_eq]
  let s : CPU := { raw with
    heap := heap
    bus := vm.bus
    pic := vm.pic
    registers := fun r => if r < 32 then 0 else raw.registers r
    registerCount := n
    pc := options.pc
    sp := stackSize
    bp := stackSize
    cs := options.pc
    idt := interruptDescriptorTableAddress
    flags := ⟨false, false, false⟩
    state := ⟨.ok, false⟩
    debug := ⟨options.printSteps, false, false, 0⟩
    debugger := true
    signals := []
    faulted := false }
  obtain ⟨cpu, hrun, hregs⟩ := @setRegisters_ok s (List.range n.toNat) options.registerValues
    (fun i hi => List.mem_range.mp hi)
  refine ⟨s, cpu, ?_, ⟨rfl, rfl, rfl, rfl, rfl⟩, fun r => ?_⟩
  · unfold startCpu cpuCreate cpuReset
    dsimp only
    rw [hcount, if_neg (Nat.not_lt.mpr hn)]
    show (setRegisters options.registerValues (List.range n.toNat) s).bind _ = _
    rw [hrun]
    rfl
  · rw [hregs r]
    exact if_congr List.mem_range rfl rfl

/-- A special register has the value that it is given at first, or that the loop assigns to its number. -/
lemma special_iff {s cpu : CPU} {r : Byte} {n : Nat} {values : Nat → Int} {v v0 w : Word}
    (h : cpu.register r = if r.toNat < n then some (BitVec.ofInt 32 (values r.toNat)) else s.register r)
    (hc : cpu.register r = some v) (hs : s.register r = some v0) (hw : v0 = w) :
    v = w ↔ ((r.toNat : Int) < n → BitVec.ofInt 32 (values r.toNat) = w) := by
  have h := hc.symm.trans h
  rw [Int.ofNat_lt]
  split at h
  · rename_i hlt
    cases h
    exact ⟨fun h _ => h, fun h => h hlt⟩
  · rename_i hlt
    cases h.trans hs
    exact ⟨fun _ h => absurd h hlt, fun _ => hw⟩

/-- With at least 32 registers, the start is as the options say exactly when the values are harmless. -/
lemma startUp_harmless {n : Byte} (hn : 32 ≤ n.toNat) : ∃ cpu,
    startCpu raw vm heap { options with registers := n.toNat } = some cpu ∧
      (StartUp { options with registers := n.toNat } cpu ↔ Harmless { options with registers := n.toNat }) := by
  obtain ⟨s, cpu, hstart, ⟨hpc, hcs, hsp, hbp, hidt⟩, hregs⟩ := @startCpu_ok raw vm heap options n hn
  obtain ⟨ridt, rsp, rbp, rpc, rcs⟩ := special_registers cpu
  obtain ⟨sidt, ssp, sbp, spc, scs⟩ := special_registers s
  have pcIff := special_iff (hregs 254) rpc spc hpc
  have spIff := special_iff (hregs 252) rsp ssp hsp
  have bpIff := special_iff (hregs 253) rbp sbp hbp
  have idtIff := special_iff (hregs 250) ridt sidt hidt
  -- the loop never gets to the number of cs
  have hcsFree : cpu.cs = options.pc := by
    apply (special_iff (hregs 255) rcs scs hcs).mpr
    intro hlt
    have hlt : 255 < n.toNat := Int.ofNat_lt.mp hlt
    have := n.isLt
    omega
  refine ⟨cpu, hstart, fun hup => ?_, fun hh => ?_⟩
  · exact ⟨idtIff.mp hup.idt, spIff.mp hup.sp, bpIff.mp hup.bp, pcIff.mp hup.pc⟩
  · refine ⟨pcIff.mpr hh.pc, hcsFree, spIff.mpr hh.sp, bpIff.mpr hh.bp, idtIff.mpr hh.idt, fun i hi => ?_⟩
    have hi : i < n.toNat := Int.ofNat_lt.mp hi
    have hnat : (BitVec.ofNat 8 i).toNat = i := Nat.mod_eq_of_lt (Nat.lt_trans hi n.isLt)
    rw [hregs, hnat, if_pos hi]

/-- With less, `cpu_reset` is undefined. -/
lemma startCpu_none {n : Byte} (hn : ¬ 32 ≤ n.toNat) :
    startCpu raw vm heap { options with registers := n.toNat } = none := by
  have hcount : BitVec.ofInt 8 (n.toNat : Int) = n := by
    rw [BitVec.ofInt_natCast, BitVec.ofNat_toNat, BitVec.setWidth_eq]
  unfold startCpu cpuCreate cpuReset
  dsimp only
  rw [hcount, if_pos (Nat.not_le.mp hn)]
  rfl

/-- A new CPU has the memories and the bus of the machine. -/
lemma cpuCreate_vm {regCount : Byte} (h : cpuCreate raw vm regCount = some cpu) :
    cpu.heap = vm.heap ∧ cpu.bus = vm.bus := by
  unfold cpuCreate cpuReset at h
  split at h
  · cases h
  · cases h
    exact ⟨rfl, rfl⟩

/-- What `main` starts has been made from the machine and the files. -/
lemma setUp_inv [Host] {malloc : Ref → Nat → Word} (h : setUp malloc raw options = some (some cpu)) :
    ∃ vm heap heap', vmCreate malloc options.ramSize options.video = some vm ∧
      loadFile vm.heap vm.bus options.image stackSize = some (true, heap) ∧
        loadRom heap vm.bus options.rom = some (true, heap') ∧ startCpu raw vm heap' options = some cpu := by
  unfold setUp at h
  obtain ⟨vm, hvm, h⟩ := Option.bind_eq_some_iff.mp h
  obtain ⟨cpu0, hcpu, h⟩ := Option.bind_eq_some_iff.mp h
  obtain ⟨⟨ok, heap⟩, hload, h⟩ := Option.bind_eq_some_iff.mp h
  obtain ⟨hheap, hbus⟩ := cpuCreate_vm hcpu
  have hload : loadFile cpu0.heap cpu0.bus options.image stackSize = some (ok, heap) := hload
  rw [hheap, hbus] at hload
  cases ok with
  | false => cases h
  | true =>
    obtain ⟨⟨ok', heap'⟩, hrom, h⟩ := Option.bind_eq_some_iff.mp h
    have hrom : loadRom heap cpu0.bus options.rom = some (ok', heap') := hrom
    rw [hbus] at hrom
    cases ok' with
    | false => cases h
    | true =>
      obtain ⟨⟨_, cpu'⟩, hset, h⟩ := Option.bind_eq_some_iff.mp h
      cases h
      refine ⟨vm, heap, heap', hvm, hload, hrom, ?_⟩
      unfold startCpu
      rw [hcpu]
      show (setCpu options _).bind _ = _
      rw [hset]
      rfl

/-- **The start** is as the options say exactly when there are at least 32 registers, and the values from
register 250 on are harmless. -/
theorem startUp_iff (raw : CPU) (vm : VM) (heap : Heap) (options : Options) (n : Byte) :
    (∃ cpu, startCpu raw vm heap { options with registers := n.toNat } = some cpu ∧
      StartUp { options with registers := n.toNat } cpu) ↔
      32 ≤ n.toNat ∧ Harmless { options with registers := n.toNat } := by
  constructor
  · rintro ⟨cpu, hstart, hup⟩
    by_cases hn : 32 ≤ n.toNat
    · obtain ⟨cpu', hstart', hiff⟩ := @startUp_harmless raw vm heap options n hn
      cases hstart.symm.trans hstart'
      exact ⟨hn, hiff.mp hup⟩
    · cases (startCpu_none hn).symm.trans hstart
  · rintro ⟨hn, hh⟩
    obtain ⟨cpu, hstart, hiff⟩ := @startUp_harmless raw vm heap options n hn
    exact ⟨cpu, hstart, hiff.mpr hh⟩

end

/-- `--registers 255`, without any other option. -/
def manyRegisters : Options where
  ramSize := stackSize + 1024
  pc := stackSize
  registers := 255
  registerValues := fun _ => 0
  rom := .null
  image := .null
  printSteps := false
  video := false

/-- The value 0 of register 250 replaces the address of the interrupt table. -/
theorem not_startUp_many : ¬ ∃ cpu,
    startCpu (smallCpu smallHeap) ⟨smallHeap, busCreate, ⟨1, 2, fun _ => 0⟩⟩ smallHeap manyRegisters = some cpu ∧
      StartUp manyRegisters cpu := by
  rintro ⟨cpu, hstart, hup⟩
  have hn : 32 ≤ (255 : Byte).toNat := by decide
  obtain ⟨cpu', hstart', hiff⟩ := @startUp_harmless (smallCpu smallHeap)
    ⟨smallHeap, busCreate, ⟨1, 2, fun _ => 0⟩⟩ smallHeap manyRegisters 255 hn
  cases hstart.symm.trans hstart'
  exact absurd ((hiff.mp hup).idt (by decide)) (by decide)

end Thorium.Vm
