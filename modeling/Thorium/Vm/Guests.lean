import Thorium.Vm.Delivery
import Thorium.Vm.Main
import Thorium.Vm.ReadOnly

/-!
# Guests and the ROM

The ROM is read-only when `main` starts the CPU (`setUp_rom`). From then on no guest changes a word of it, and
a write to it is refused, in every run among the events of the devices (`rom_immutable`).
-/

namespace Thorium.Vm
open Thorium.Isa Thorium.Run

variable {malloc : Ref → Nat → Word} {heap heap' : Heap} {bus : Bus} {options : Options} {raw cpu s s' : CPU}

/-! ### The mode of the ROM -/

section
variable [Host]

/-- Loading words keeps the sizes and the modes. -/
lemma loadWords_shape {a n : Addr} {bytes : List Byte} {ok : Bool}
    (h : loadWords heap bus a n bytes = some (ok, heap')) : Shape heap heap' := by
  induction heap, n, bytes using loadWords.induct bus a with
  | case1 heap n b0 b1 b2 b3 bytes word heap1 conds hw ih =>
    rw [loadWords, hw] at h
    exact (busWordWrite_shape hw).trans (ih h)
  | case2 heap n b0 b1 b2 b3 bytes word error hw =>
    rw [loadWords, hw] at h
    cases h
    exact .refl _
  | case3 heap n b0 b1 b2 b3 bytes word hw =>
    rw [loadWords, hw] at h
    cases h
  | case4 bytes heap n hshort =>
    unfold loadWords at h
    split at h
    · exact (hshort _ _ _ _ _ rfl).elim
    · cases h
      exact .refl _

/-- Loading a file keeps the sizes and the modes of the memories. -/
lemma loadFile_shape {a : Addr} {file : File} {ok : Bool}
    (h : loadFile heap bus file a = some (ok, heap')) : Shape heap heap' := by
  cases file with
  | null =>
    unfold loadFile at h
    dsimp only at h
    split at h
    · rename_i hw
      cases h
      exact busWordWrite_shape hw
    · cases h
      exact .refl _
    · cases h
  | missing =>
    cases h
    exact .refl _
  | content bytes => exact loadWords_shape h

/-- After the ROM has been loaded, it is read-only. -/
lemma loadRom_mode {file : File} (h : loadRom heap bus file = some (true, heap'))
    (hmode : (heap romRef).mode = .r) : (heap' romRef).mode = .r := by
  have hload {file : File} (h : (loadFile (memoryModeSet heap romRef .rw) bus file romAddress).bind (fun x =>
      if x.1 then some (true, memoryModeSet x.2 romRef .r) else some (false, x.2)) = some (true, heap')) :
      (heap' romRef).mode = .r := by
    obtain ⟨⟨ok, heap1⟩, _, h⟩ := Option.bind_eq_some_iff.mp h
    cases ok with
    | false => cases h
    | true =>
      cases h
      exact congrArg Memory.mode (if_pos rfl)
  cases file with
  | null =>
    cases h
    exact hmode
  | missing => exact @hload .missing h
  | content bytes => exact @hload (.content bytes) h

omit [Host] in
/-- The values of the options are no words of the memory. -/
lemma setRegisters_heap {values : Nat → Int} {is : List Nat} (h : setRegisters values is s = some ((), s')) :
    s'.heap = s.heap := by
  induction is generalizing s with
  | nil =>
    cases h
    rfl
  | cons i is ih =>
    obtain ⟨⟨_, s1⟩, hset, h⟩ := Option.bind_eq_some_iff.mp h
    rw [ih h]
    unfold cpuRegisterSet at hset
    split at hset
    · rename_i hr
      cases hset
      exact (setRegister_keeps hr).1
    · cases hset
      rfl

/-- The ROM is read-only when the CPU is started. -/
lemma setUp_rom (h : setUp malloc raw options = some (some cpu)) : (cpu.heap romRef).mode = .r := by
  obtain ⟨vm, heap, heap', hvm, hload, hrom, hstart⟩ := setUp_inv h
  obtain ⟨vm', _, hvm', _, _, _, _, hr⟩ := vmCreate_ok malloc options.ramSize options.video
  cases hvm.symm.trans hvm'
  have hmode : (vm.heap romRef).mode = .r := congrArg Memory.mode hr
  have hmode' := loadRom_mode hrom (((loadFile_shape hload) romRef).2.trans hmode)
  obtain ⟨cpu0, _, hset⟩ := Option.bind_eq_some_iff.mp hstart
  obtain ⟨⟨_, cpu'⟩, hset, h⟩ := Option.bind_eq_some_iff.mp hset
  cases h
  have hheap : cpu.heap = heap' := setRegisters_heap hset
  rw [hheap]
  exact hmode'

end

/-! ### Runs -/

section
variable [Host] {event : Event} {events : List Event} {log : List Label}

/-- The CPU at the start of `cpu_loop`. -/
def CPU.started (cpu : CPU) : CPU := { cpu with state := ⟨.ok, true⟩ }

omit [Host] in
/-- A device does not write the ROM. -/
lemma setWord_keeps (heap : Heap) (r : Ref) (a : Addr) (w : Word) : heap.Keeps (setWord heap r a w) := by
  unfold setWord
  split
  · exact memoryWordSet_keeps ‹_›
  · exact .refl heap

/-- An event keeps the words of the ROM. -/
lemma happen_keeps (h : happen event s = some (log, s')) : s.Keeps s' := by
  cases event with
  | turn =>
    have hturn : cpuTurn s = some ((), s') := by
      have h : turnLogged s = some (log, s') := h
      rw [turnLogged_forget, h]
      rfl
    exact changes_keep cpuTurn_changes (.refl s) hturn
  | trigger i =>
    cases h
    exact keeps_of_eq rfl rfl rfl
  | store ref a w =>
    cases h
    exact ⟨setWord_keeps _ _ _ _, rfl, rfl⟩

/-- So does a run. -/
lemma happenAll_keeps (h : happenAll events s = some (log, s')) : s.Keeps s' := by
  induction events generalizing s log with
  | nil =>
    cases h
    exact .refl _
  | cons event events ih =>
    obtain ⟨log1, s1, log2, h1, h2, rfl⟩ := happenAll_cons h
    exact (happen_keeps h1).trans (ih h2)

/-- **The ROM is immutable** from the start of the CPU on, and what writes to it is told so. -/
theorem rom_immutable (h : setUp malloc raw options = some (some cpu))
    (hrun : happenAll events cpu.started = some (log, s)) :
    (s.heap romRef).raw = (cpu.heap romRef).raw ∧
      ∀ a w zone, findZone s.heap s.bus a = some zone → zone.memory = romRef →
        busWordWrite s.heap s.bus a w = some (.error .illegalAccess) ∧
          busWrite a w s = some (.error .illegalAccess, s.fault) ∧ s.fault.heap = s.heap := by
  have hkeeps := happenAll_keeps hrun
  have hmode : (cpu.heap romRef).mode = .r := setUp_rom h
  refine ⟨hkeeps.heap.words romRef hmode, fun a w zone hz hzone => ?_⟩
  have hmode' : (s.heap zone.memory).mode = .r := by
    rw [hzone]
    exact (hkeeps.heap.shape romRef).2.trans hmode
  have hw := busWordWrite_readOnly hz hmode' w
  exact ⟨hw, busWrite_error hw, rfl⟩

end

/-- The options of a run without files. -/
def noFiles : Options where
  ramSize := stackSize + 1024
  pc := stackSize
  registers := 32
  registerValues := fun _ => 0
  rom := .null
  image := .null
  printSteps := false
  video := false

/-- What a run from the start of a CPU was computed to end with, taken apart. -/
lemma ran_eq_some {α β : Type} {start : Option (Option CPU)} {run : CPU → Option α} {final : CPU → α → β} {b : β}
    (h : (start.bind fun o => o.bind fun cpu => (run cpu).map (final cpu)) = some b) :
    ∃ cpu x, start = some (some cpu) ∧ run cpu = some x ∧ final cpu x = b := by
  obtain ⟨o, hstart, h⟩ := Option.bind_eq_some_iff.mp h
  obtain ⟨cpu, rfl, h⟩ := Option.bind_eq_some_iff.mp h
  obtain ⟨x, hrun, hfinal⟩ := Option.map_eq_some_iff.mp h
  exact ⟨cpu, x, hstart, hrun, hfinal⟩

/-- A ROM of one word, and the program `STOR 0xFE000000, r0`. -/
def romWriter : Options :=
  { noFiles with
    rom := .content [1, 2, 3, 4]
    image := .content ([instruction .storRW 0 0 0, romAddress].flatMap Word.toBeBytes) }

/-- The program stops with an error, and the word of the ROM is as it was loaded. -/
theorem rom_immutable_writer : ∃ cpu log s,
    @setUp ⟨.little⟩ (fun _ _ => 0) (smallCpu smallHeap) romWriter = some (some cpu) ∧
      @happenAll ⟨.little⟩ [.trigger 3, .turn] cpu.started = some (log, s) ∧
        s.state.panic = .cannotWriteMemory ∧ (s.heap romRef).raw = (cpu.heap romRef).raw ∧
          (s.heap romRef).raw 0 = 0x01020304 ∧
            busWordWrite s.heap s.bus romAddress 7 = some (.error .illegalAccess) := by
  have hrun : ((@setUp ⟨.little⟩ (fun _ _ => 0) (smallCpu smallHeap) romWriter).bind fun o => o.bind fun cpu =>
      (@happenAll ⟨.little⟩ [.trigger 3, .turn] cpu.started).map fun x => (x.2.state.panic, (cpu.heap romRef).raw 0,
        (findZone x.2.heap x.2.bus romAddress).map Zone.memory)) =
      some (.cannotWriteMemory, 0x01020304, some romRef) := by decide +kernel
  obtain ⟨cpu, ⟨log, s⟩, hsetUp, hrun, hfinal⟩ := ran_eq_some hrun
  obtain ⟨hpanic, hfinal⟩ := Prod.mk.inj hfinal
  obtain ⟨hword, hzone⟩ := Prod.mk.inj hfinal
  obtain ⟨zone, hzone, hrom⟩ := Option.map_eq_some_iff.mp hzone
  obtain ⟨hraw, hrefused⟩ := @rom_immutable _ _ _ _ _ ⟨.little⟩ _ _ hsetUp hrun
  exact ⟨cpu, log, s, hsetUp, hrun, hpanic, hraw, (congrFun hraw 0).trans hword,
    (hrefused romAddress 7 zone hzone hrom).1⟩

end Thorium.Vm
