import Thorium.Asm.Layout
import Thorium.Vm.ReadOnly

/-!
# The ROM

The program `src/common/rom.a`, which dispatches interrupts, as the assembler emits it (`rom_assembles`).
`Bus.Image` says that some bytes, as `load_file` stores them, are in read-only memory.
-/

namespace Thorium.Vm
open Thorium.Isa Thorium.Asm

/-- The line of `vmarch_header_print` that `rom.a` uses. -/
def romHeader : String := "$__rom_start = 0xfe000000\n"

/-- `src/common/rom.a`, without the comment at its top. -/
def romSource : String := String.join [
  "#base $__rom_start\n",
  "    J     &skip_int_dispatch\n",
  "\n",
  "// int_dispatch\n",
  "    PUSH  r0\n",
  "    CALL  &compute_interrupt_handler_address\n",
  "    CALL  r0\n",
  "    POP   r0\n",
  "    IRET\n",
  "\n",
  ":compute_interrupt_handler_address\n",
  "    MOV   r0, ir\n",
  "    MUL   r0, 4\n",
  "    ADD   r0, idt\n",
  "    LOAD  r0, r0\n",
  "    RET\n",
  "\n",
  ":skip_int_dispatch\n"]

/-- The nodes of `romSource`. -/
def romNodes : List Node := [
  .directive (.base 0xfe000000),
  .instruction (.IA .jA "skip_int_dispatch" .absolute),
  .instruction (.IR .pushR "r0"),
  .instruction (.IA .callA "compute_interrupt_handler_address" .absolute),
  .instruction (.IR .callR "r0"),
  .instruction (.IR .popR "r0"),
  .instruction (.I .iret),
  .label "compute_interrupt_handler_address",
  .instruction (.IRR .movRR "r0" "ir"),
  .instruction (.IRW .mulRW "r0" 4),
  .instruction (.IRR .addRR "r0" "idt"),
  .instruction (.IRR .loadRR "r0" "r0"),
  .instruction (.I .ret),
  .label "skip_int_dispatch"]

/-- The addresses of the labels. -/
def romAddresses : HashMap Word :=
  (HashMap.new.insert "compute_interrupt_handler_address" 0x20).insert "skip_int_dispatch" 0x38

/-- The bytes of the ROM. -/
def romImage : List Byte := [
  Op.bytecode .jA, 0, 0, 0, 0xfe, 0, 0, 0x38,
  Op.bytecode .pushR, 0, 0, 0,
  Op.bytecode .callA, 0, 0, 0, 0xfe, 0, 0, 0x20,
  Op.bytecode .callR, 0, 0, 0,
  Op.bytecode .popR, 0, 0, 0,
  Op.bytecode .iret, 0, 0, 0,
  Op.bytecode .movRR, 0, BitVec.ofNat 8 regIR, 0,
  Op.bytecode .mulRW, 0, 0, 0, 0, 0, 0, 4,
  Op.bytecode .addRR, 0, BitVec.ofNat 8 regIDT, 0,
  Op.bytecode .loadRR, 0, 0, 0,
  Op.bytecode .ret, 0, 0, 0]

/-- The parser returns the nodes of `rom.a`. -/
lemma rom_parsed : @parseFiles asciiUnicode .new [] [romHeader, romSource] = some (.ok romNodes) := by
  have htext : romSource.toList = List.flatMap String.toList _ := String.toList_join
  unfold parseFiles parseFiles parseText tokenize Lexer.fromText
  rw [htext]
  decide +kernel

/-- The resolver finds its labels. -/
lemma rom_resolved : resolve romNodes = some (.ok romAddresses) := by
  simp only [resolve, romNodes, collect, Instruction.op, Op.length_eq]
  rfl

/-- The emitter writes its bytes. -/
lemma rom_emitted : (Emitter.mk romNodes romAddresses).emit = some romImage := by
  simp only [Emitter.emit, Emitter.emitFrom, romNodes]
  rfl

/-- The ROM is the program that the assembler makes of its source. -/
theorem rom_assembles : ∃ nodes addresses,
    @parseFiles asciiUnicode .new [] [romHeader, romSource] = some (.ok nodes) ∧
      resolve nodes = some (.ok addresses) ∧ (Emitter.mk nodes addresses).emit = some romImage :=
  ⟨romNodes, romAddresses, rom_parsed, rom_resolved, rom_emitted⟩

/-! ### In memory -/

/-- The words of some bytes are in read-only memory from an address on. -/
def Image (heap : Heap) (bus : Bus) : Addr → List Byte → Prop
  | a, b0 :: b1 :: b2 :: b3 :: bytes =>
    (busWordRead heap bus a = some (.ok (ByteOrder.big.ofBytes b0 b1 b2 b3)) ∧ ReadOnly heap bus a) ∧
      Image heap bus (a + wordSize) bytes
  | _, _ => True

/-- An image stays where it is. -/
lemma Image.keeps {heap heap' : Heap} {bus : Bus} {a : Addr} {bytes : List Byte}
    (hi : Image heap bus a bytes) (h : heap.Keeps heap') : Image heap' bus a bytes := by
  induction hn : bytes.length using Nat.strong_induction_on generalizing a bytes with
  | _ n ih =>
  subst hn
  rcases bytes with _ | ⟨b0, _ | ⟨b1, _ | ⟨b2, _ | ⟨b3, bytes⟩⟩⟩⟩
  · trivial
  · trivial
  · trivial
  · trivial
  · obtain ⟨⟨hread, hro⟩, hi⟩ := hi
    have hlt : bytes.length < (b0 :: b1 :: b2 :: b3 :: bytes).length := by
      simp only [List.length_cons]
      omega
    exact ⟨⟨(h.read hro).trans hread, hro.keeps h⟩, ih _ hlt hi rfl⟩

end Thorium.Vm
