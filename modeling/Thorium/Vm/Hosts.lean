import Thorium.Vm.Guests
import Thorium.Vm.Loading

/-!
# Hosts

The machine is the same on every host. Words are fetched in the order of the bus and read by their bytes, so a
handler sees the same bytes whatever the byte order of the host is, and so do the debugger and the trace. What
`load_file` stores does not depend on it either, apart from the word that stands for a missing image.
-/

namespace Thorium.Vm
open Thorium.Isa Thorium.Run

/-- A word on a host and a word on another, with the same bytes. -/
structure SameBytes (A B : Host) (v w : Word) : Prop where
  b0 : @byteOf A v 0 = @byteOf B w 0
  b1 : @byteOf A v 1 = @byteOf B w 1
  b2 : @byteOf A v 2 = @byteOf B w 2
  b3 : @byteOf A v 3 = @byteOf B w 3

section
variable {A B : Host} {v w : Word}

/-- A fetched word has the bytes of the bus. -/
lemma byteOf_fetched [Host] (w : Word) :
    byteOf (htov w) 0 = ByteOrder.big.byteAt w 0 ∧ byteOf (htov w) 1 = ByteOrder.big.byteAt w 1 ∧
      byteOf (htov w) 2 = ByteOrder.big.byteAt w 2 ∧ byteOf (htov w) 3 = ByteOrder.big.byteAt w 3 :=
  ByteOrder.byteAt_ofBytes _ _ _ _ _

/-- A word of the bus, as it is fetched on two hosts, has the same bytes. -/
lemma sameBytes_fetched (A B : Host) (w : Word) : SameBytes A B (@htov A w) (@htov B w) := by
  obtain ⟨a0, a1, a2, a3⟩ := @byteOf_fetched A w
  obtain ⟨b0, b1, b2, b3⟩ := @byteOf_fetched B w
  exact ⟨a0.trans b0.symm, a1.trans b1.symm, a2.trans b2.symm, a3.trans b3.symm⟩

namespace SameBytes
variable (h : SameBytes A B v w)
include h

/-! ### Printing -/

/-- The operands are printed from the bytes. -/
lemma printedArgs (op : Op) : @Vm.printedArgs A v op = @Vm.printedArgs B w op := by
  cases op <;> simp only [Vm.printedArgs, h.b1, h.b2, h.b3]

/-- The text of an instruction is the same on both hosts. -/
lemma toText : @cpuInstructionToString A v = @cpuInstructionToString B w := by
  simp only [cpuInstructionToString, h.b0, h.printedArgs]

/-- So is what is printed in a turn. -/
lemma printInstruction : @Vm.printInstruction A v = @Vm.printInstruction B w := by
  simp only [Vm.printInstruction, h.toText]

/-! ### Handlers -/

/-- The operations on two registers. -/
lemma binaryRR (f : Word → Word → Word) : @Vm.binaryRR A f v = @Vm.binaryRR B f w := by
  simp only [Vm.binaryRR, h.printInstruction, h.b1, h.b2]

/-- The operations on a register and a word. -/
lemma binaryRW (f : Word → Word → Word) : @Vm.binaryRW A f v = @Vm.binaryRW B f w := by
  simp only [Vm.binaryRW, h.printInstruction, h.b1]

/-- The operations on one register. -/
lemma unaryR (f : Word → Word) : @Vm.unaryR A f v = @Vm.unaryR B f w := by
  simp only [Vm.unaryR, h.printInstruction, h.b1]

/-- The conditional jumps. -/
lemma jumpIf (z : Bool) (target : CPU → Word → Addr) : @Vm.jumpIf A z target v = @Vm.jumpIf B z target w := by
  simp only [Vm.jumpIf, h.printInstruction]

/-- The jumps. -/
lemma jump (target : CPU → Word → Addr) : @Vm.jump A target v = @Vm.jump B target w := by
  simp only [Vm.jump, h.printInstruction]

/-- An operation does the same on both hosts. -/
lemma handler (op : Op) : @Vm.handler A op v = @Vm.handler B op w := by
  cases op with
  | addRR => exact h.binaryRR _
  | addRW => exact h.binaryRW _
  | subRR => exact h.binaryRR _
  | subRW => exact h.binaryRW _
  | mulRR => exact h.binaryRR _
  | mulRW => exact h.binaryRW _
  | andRR => exact h.binaryRR _
  | andRW => exact h.binaryRW _
  | orRR => exact h.binaryRR _
  | orRW => exact h.binaryRW _
  | xorRR => exact h.binaryRR _
  | xorRW => exact h.binaryRW _
  | incR => exact h.unaryR _
  | decR => exact h.unaryR _
  | jeqS => exact h.jumpIf _ _
  | jeqA => exact h.jumpIf _ _
  | jneS => exact h.jumpIf _ _
  | jneA => exact h.jumpIf _ _
  | jS => exact h.jump _
  | jA => exact h.jump _
  | _ =>
    simp only [Vm.handler, opNop, opHalt, opPanic, opMovRW, opMovRR, opCmpRR, opCmpRW, opPushR, opPushRR, opPushRRR,
      opPushW, opPusha, opPopR, opPopRR, opPopRRR, opPopa, opCallS, opCallA, opCallR, opRet, opIret, opIntB, opStorRR,
      opStorRW, opLoadRR, opLoadRRW, opLoadRW, opMiB, opUmiB, opInd, opIne, opWfi, opXbm, opXbrk, opXdbg, opXpse,
      opXpsd, h.printInstruction, h.b1, h.b2, h.b3]

/-! ### The debugger -/

/-- The debugger has the same dialogue on both hosts. -/
lemma cpuDebuggerLoop (input : List Command) : @Vm.cpuDebuggerLoop A v input = @Vm.cpuDebuggerLoop B w input := by
  induction input with
  | nil => rfl
  | cons command input ih => simp only [Vm.cpuDebuggerLoop, h.toText, ih]

/-- It is called in the same states. -/
lemma trap : @Vm.trap A v = @Vm.trap B w := by
  simp only [Vm.trap, cpuDebuggerTrapHandler, h.cpuDebuggerLoop]

/-- A word is executed in the same way on both hosts. -/
lemma executeLogged : @Vm.executeLogged A v = @Vm.executeLogged B w := by
  simp only [Vm.executeLogged, cpuDecode, h.b0, h.trap, h.handler]

end SameBytes

/-! ### Runs -/

/-- A turn is the same on both hosts. -/
lemma turnLogged_host (A B : Host) : @turnLogged A = @turnLogged B := by
  simp only [turnLogged, fetchExecuteLogged, (sameBytes_fetched A B _).executeLogged]

/-- An event is the same on both hosts. -/
lemma happen_host (A B : Host) (event : Event) : @happen A event = @happen B event := by
  cases event with
  | turn => exact turnLogged_host A B
  | trigger => rfl
  | store => rfl

/-- A run is the same on both hosts. -/
lemma happenAll_host (A B : Host) (events : List Event) : @happenAll A events = @happenAll B events := by
  induction events with
  | nil => rfl
  | cons event events ih => simp only [happenAll, happen_host A B, ih]

/-! ### Files -/

/-- A file is loaded in the same way on both hosts, unless there is none. -/
lemma loadFile_host (A B : Host) {file : File} (h : file ≠ .null) (heap : Heap) (bus : Bus) (a : Addr) :
    @loadFile A heap bus file a = @loadFile B heap bus file a := by
  cases file with
  | null => exact absurd rfl h
  | missing => rfl
  | content bytes => exact (@loadWords_eq A heap bus a 0 bytes).trans (@loadWords_eq B heap bus a 0 bytes).symm

/-- The ROM is loaded in the same way on both hosts, also when there is none. -/
lemma loadRom_host (A B : Host) (heap : Heap) (bus : Bus) (file : File) :
    @loadRom A heap bus file = @loadRom B heap bus file := by
  cases file with
  | null => rfl
  | missing => rfl
  | content bytes =>
    have hne : File.content bytes ≠ .null := by
      intro e
      cases e
    simp only [loadRom, loadFile_host A B hne]

variable {malloc : Ref → Nat → Word} {raw : CPU} {options : Options}

/-- **The machine is the same on every host**: with an image, it is set up in the same state, and goes through
the same runs from any state. Each word of the memory is printed as the same instruction. -/
theorem host_independent (A B : Host) (h : options.image ≠ .null) :
    @setUp A malloc raw options = @setUp B malloc raw options ∧
      (∀ events s, @happenAll A events s = @happenAll B events s) ∧
        ∀ w s, @cpuInstructionToString A (@htov A w) s = @cpuInstructionToString B (@htov B w) s := by
  refine ⟨?_, fun events s => ?_, fun w s => ?_⟩
  · simp only [setUp, loadFile_host A B h, loadRom_host A B]
  · rw [happenAll_host A B]
  · rw [(sameBytes_fetched A B w).toText]

end

/-! ### An example -/

/-- The text of `examples/fact.a`. -/
def factSource : String := String.join [
  "// computes n!\n",
  "// in:  r0 contains the index to iteration count\n",
  "// out: r3 contains the result\n",
  "\n",
  "    PUSH r0\n",
  "\n",
  "    // if n == 0, we quit\n",
  "    MOV  r1, 0\n",
  "    CMP  r0, r1\n",
  "    JEQ  @end\n",
  "\n",
  "    MOV  r1, r0\n",
  "\n",
  ":loop\n",
  "    DEC  r1\n",
  "    JEQ  @end\n",
  "    MUL  r0, r1\n",
  "    J    @loop\n",
  "\n",
  ":end\n",
  "    MOV  r3, r0\n",
  "    POP  r0\n",
  "    HALT\n"]

/-- The words of its image. -/
def factWords : List Word := [
  instruction .pushR 0 0 0,
  instruction .movRW 1 0 0, 0,
  instruction .cmpRR 0 1 0,
  instruction .jeqS 0 0 0, 52,
  instruction .movRR 1 0 0,
  instruction .decR 1 0 0,
  instruction .jeqS 0 0 0, 52,
  instruction .mulRR 0 1 0,
  instruction .jS 0 0 0, 28,
  instruction .movRR 3 0 0,
  instruction .popR 0 0 0,
  instruction .halt 0 0 0]

/-- The bytes that the assembler writes. -/
def factImage : List Byte := factWords.flatMap Word.toBeBytes

/-- The options `--register 0:n` with the image. -/
def factOptions (n : Int) : Options :=
  { noFiles with image := .content factImage, registerValues := fun i => if i = 0 then n else 0 }

/-- It is the same program on a little-endian host and on a big-endian one, and computes `3!` on both. -/
theorem host_independent_fact : ∃ cpu log s,
    @setUp ⟨.little⟩ (fun _ _ => 0) (smallCpu smallHeap) (factOptions 3) = some (some cpu) ∧
      @setUp ⟨.big⟩ (fun _ _ => 0) (smallCpu smallHeap) (factOptions 3) = some (some cpu) ∧
        @happenAll ⟨.little⟩ (.trigger 3 :: List.replicate 18 .turn) cpu.started = some (log, s) ∧
          @happenAll ⟨.big⟩ (.trigger 3 :: List.replicate 18 .turn) cpu.started = some (log, s) ∧
            s.state.running = false ∧ s.register 3 = some 6 ∧
              @cpuInstructionToString ⟨.little⟩ (@htov ⟨.little⟩ (instruction .mulRR 0 1 0)) s =
                @cpuInstructionToString ⟨.big⟩ (@htov ⟨.big⟩ (instruction .mulRR 0 1 0)) s := by
  have hne : (factOptions 3).image ≠ .null := by
    intro e
    cases e
  obtain ⟨hsame, hruns, htexts⟩ :=
    @host_independent (fun _ _ => 0) (smallCpu smallHeap) (factOptions 3) ⟨.little⟩ ⟨.big⟩ hne
  have hrun : ((@setUp ⟨.little⟩ (fun _ _ => 0) (smallCpu smallHeap) (factOptions 3)).bind fun o => o.bind fun cpu =>
      (@happenAll ⟨.little⟩ (.trigger 3 :: List.replicate 18 .turn) cpu.started).map fun x =>
        (x.2.state.running, x.2.register 3)) = some (false, some 6) := by decide +kernel
  obtain ⟨cpu, ⟨log, s⟩, hsetUp, hrun, hfinal⟩ := ran_eq_some hrun
  obtain ⟨hstopped, hresult⟩ := Prod.mk.inj hfinal
  exact ⟨cpu, log, s, hsetUp, hsame.symm.trans hsetUp, hrun, (hruns _ _).symm.trans hrun, hstopped, hresult,
    htexts _ s⟩

end Thorium.Vm
