import Thorium.Asm.Registers
import Thorium.Vm.Decode

/-!
# Disassembly

What `cpu_instruction_to_string` prints of an instruction the assembler has encoded, against the instruction: its
mnemonic and the operands that are encoded, in their order (`Names`). The printer groups the opcodes by hand. It has
forgotten three of them, and leaves out the byte of `XBM`, which the instruction table has without arguments and the
assembler with one (`disassembles_iff`).
-/

namespace Thorium.Vm
open Thorium.Isa Thorium.Asm Thorium.Run

/-! ### What is to be printed -/

/-- The mnemonic of an operation in the instruction table. -/
def mnemonic (op : Op) : String := (op.row.map Isa.Instruction.name).getD ""

/-- The arguments of an operation in the instruction table. -/
def tableArgs (op : Op) : List Arg := (op.row.map Isa.Instruction.args).getD []

/-- The register arguments by their numbers. -/
def Operands.register (o : Operands) : Nat → Byte
  | 0 => o.r0
  | 1 => o.r1
  | _ => o.r2

/-- The text of an argument: the name of a register, a number, or a word or address in hexadecimal. -/
def Operands.text (o : Operands) (arg : Arg) : String :=
  match arg.type with
  | .register => registerName (o.register arg.value)
  | .byte => s!"{o.b0.toNat}"
  | .word | .csRelativeAddress | .absoluteAddress => wxhex o.w0

/-- The texts of all arguments, separated by commas. -/
def Operands.texts (o : Operands) : List Arg → String
  | [] => ""
  | arg :: args => args.foldl (fun s arg => s ++ ", " ++ o.text arg) (" " ++ o.text arg)

/-- What stands before the mnemonic: the number of the step and the address. -/
def heading (cpu : CPU) : String := s!"  {cpu.debug.step.toNat}\t{wxhex (cpu.pc - addrSize)}\t"

/-- What may stand after the arguments: nothing, or a remark on the state of the CPU. -/
def Remark (s : String) : Prop := s = "" ∨ ∃ s', s = "\t\t// " ++ s'

/-- The name of the register that a name in the source stands for. `Emitter::new` has `cp` for the `pc` of
`registers.csv`. -/
def sourceRegister (r : String) : String := if r = "cp" then "pc" else r

/-- The texts of the operands that are encoded for an instruction: registers as the source names them, bytes as
numbers, words and the addresses of labels in hexadecimal. -/
def operandTexts (em : Emitter) (base : Word) : Asm.Instruction → Option (List String)
  | .I _ => some []
  | .IB _ b => some [s!"{b.toNat}"]
  | .IR _ r => some [sourceRegister r]
  | .IRR _ r1 r2 => some [sourceRegister r1, sourceRegister r2]
  | .IRRR _ r1 r2 r3 => some [sourceRegister r1, sourceRegister r2, sourceRegister r3]
  | .IRW _ r w => some [sourceRegister r, wxhex w]
  | .IW _ w => some [wxhex w]
  | .IRRW _ r1 r2 w => some [sourceRegister r1, sourceRegister r2, wxhex w]
  | .IRA _ r a kind => do some [sourceRegister r, wxhex (← em.operandAddress base a kind)]
  | .IA _ a kind => do some [wxhex (← em.operandAddress base a kind)]

/-- Texts that are separated by commas, with a blank before the first. -/
def separated : List String → String
  | [] => ""
  | text :: texts => texts.foldl (fun s text => s ++ ", " ++ text) (" " ++ text)

/-- A text that names an operation with some operands. -/
def Names (cpu : CPU) (op : Op) (args : List String) (text : String) : Prop :=
  ∃ blanks remark, (∀ c ∈ blanks, c = ' ') ∧ Remark remark ∧
    text = heading cpu ++ (mnemonic op ++ String.ofList blanks) ++ (separated args ++ remark)

/-- The text for an opcode that no operation has. -/
def Unknown (cpu : CPU) (text : String) : Prop := ∃ word, text = heading cpu ++ s!"{wxhex word} ???"

/-- The bytes of an instruction stand in memory, word after word. -/
def Stands (heap : Heap) (bus : Bus) : Addr → List Byte → Prop
  | a, b0 :: b1 :: b2 :: b3 :: bytes =>
    busWordRead heap bus a = some (.ok (ByteOrder.big.ofBytes b0 b1 b2 b3)) ∧
      Stands heap bus (a + addrSize) bytes
  | _, bytes => bytes = []

/-- The operations that `cpu_instruction_to_string` has forgotten. -/
def Forgotten (op : Op) : Prop := op = .storRW ∨ op = .loadRRW ∨ op = .pushW

/-- The operations that it does not print with all of their operands. -/
def Misnamed (op : Op) : Prop := Forgotten op ∨ op = .xbm

/-! ### The instruction table -/

/-- A mnemonic starts with a capital letter. -/
lemma mnemonic_upper (op : Op) : (mnemonic op).toList.head?.any Char.isUpper = true := by
  have h : ∀ op ∈ Op.all, (mnemonic op).toList.head?.any Char.isUpper = true := by decide +kernel
  exact h op op.mem_all

/-- The name at an opcode is the mnemonic with some blanks. -/
lemma opsName_bytecode (op : Op) :
    ∃ blanks, (∀ c ∈ blanks, c = ' ') ∧ opsName op.bytecode = mnemonic op ++ String.ofList blanks := by
  have hat : ∀ op ∈ Op.all, instructionAt ast op.bytecode.toNat = op.row := by decide +kernel
  have hupper : ∀ op ∈ Op.all, ∃ v, op.row = some v ∧ v.name.toList.map Char.toUpper = v.name.toList := by
    decide +kernel
  obtain ⟨v, hv, hname⟩ := hupper op op.mem_all
  refine ⟨List.replicate (5 - v.name.toList.length) ' ', fun c hc => List.eq_of_mem_replicate hc, ?_⟩
  rw [opsName, hat op op.mem_all, mnemonic, hv, Option.map_some, Option.getD_some]
  dsimp only
  rw [hname, String.ofList_append, String.ofList_toList]

/-- The arguments of the operations, by the groups of the printer. -/
lemma tableArgs_groups :
    (∀ op ∈ [Op.halt, .iret, .ind, .ine, .nop, .panic, .pusha, .popa, .ret, .wfi, .xbm, .xbrk, .xdbg, .xpse,
      .xpsd], tableArgs op = []) ∧
    (∀ op ∈ [Op.callR, .decR, .incR, .popR, .pushR], tableArgs op = [⟨.register, 0⟩]) ∧
    (∀ op ∈ [Op.miB, .umiB, .intB], tableArgs op = [⟨.byte, 0⟩]) ∧
    (∀ op ∈ [Op.addRR, .andRR, .cmpRR, .loadRR, .orRR, .movRR, .mulRR, .popRR, .pushRR, .subRR, .storRR,
      .xorRR], tableArgs op = [⟨.register, 0⟩, ⟨.register, 1⟩]) ∧
    (∀ op ∈ [Op.popRRR, .pushRRR], tableArgs op = [⟨.register, 0⟩, ⟨.register, 1⟩, ⟨.register, 2⟩]) ∧
    (∀ op ∈ [Op.addRW, .andRW, .cmpRW, .loadRW, .movRW, .mulRW, .orRW, .subRW, .xorRW],
      tableArgs op = [⟨.register, 0⟩, ⟨.word, 0⟩]) ∧
    (∀ op ∈ [Op.callA, .jA, .jeqA, .jneA], tableArgs op = [⟨.absoluteAddress, 0⟩]) ∧
    ∀ op ∈ [Op.callS, .jS, .jeqS, .jneS], tableArgs op = [⟨.csRelativeAddress, 0⟩] := by
  decide +kernel

/-- The remark on the zero flag. -/
lemma remark_z (s : String) : Remark ("\t\t// z=" ++ s) := by
  refine .inr ⟨"z=" ++ s, ?_⟩
  rw [← String.append_assoc]
  rfl

/-- The remark on the segment. -/
lemma remark_cs (s : String) : Remark ("\t\t// cs=" ++ s) := by
  refine .inr ⟨"cs=" ++ s, ?_⟩
  rw [← String.append_assoc]
  rfl

section
variable [Host] {word : Word} {o : Operands} {cpu : CPU} {op : Op}

/-- The printer writes the arguments of the table, if it has not forgotten the operation. -/
lemma printedArgs_texts (hb : Holds word o) (hop : ¬ Forgotten op) (hp : cpu.state.panic = .ok)
    (hw : op.takesWord = true → busWordRead cpu.heap cpu.bus cpu.pc = some (.ok o.w0)) :
    ∃ remark, Remark remark ∧ printedArgs word op cpu = some (o.texts (tableArgs op) ++ remark, cpu) := by
  obtain ⟨h0, h1, h2⟩ := hb
  obtain ⟨none, r, b, rr, rrr, rw', a, s⟩ := tableArgs_groups
  have hword (text : CPU → Word → String) (ht : op.takesWord = true) := printedWord_ok text hp (hw ht)
  cases op with
  | halt | iret | ind | ine | nop | panic | pusha | popa | ret | wfi | xbm | xbrk | xdbg | xpse | xpsd =>
    refine ⟨"", .inl rfl, ?_⟩
    rw [none _ (by decide)]
    rfl
  | callR | decR | incR | popR | pushR =>
    refine ⟨"", .inl rfl, ?_⟩
    rw [r _ (by decide), String.append_empty]
    show some (" " ++ registerName (byteOf word 1), cpu) = _
    rw [h0]
    rfl
  | miB | umiB | intB =>
    refine ⟨"", .inl rfl, ?_⟩
    rw [b _ (by decide), String.append_empty]
    show some (" " ++ toString (byteOf word 1).toNat, cpu) = _
    rw [h0]
    rfl
  | addRR | andRR | cmpRR | loadRR | orRR | movRR | mulRR | popRR | pushRR | subRR | storRR | xorRR =>
    refine ⟨"", .inl rfl, ?_⟩
    rw [rr _ (by decide), String.append_empty]
    show some (" " ++ registerName (byteOf word 1) ++ ", " ++ registerName (byteOf word 2), cpu) = _
    rw [h0, h1]
    rfl
  | popRRR | pushRRR =>
    refine ⟨"", .inl rfl, ?_⟩
    rw [rrr _ (by decide), String.append_empty]
    show some (" " ++ registerName (byteOf word 1) ++ ", " ++ registerName (byteOf word 2) ++
      (", " ++ registerName (byteOf word 3)), cpu) = _
    rw [h0, h1, h2, ← String.append_assoc]
    rfl
  | addRW | andRW | cmpRW | loadRW | movRW | mulRW | orRW | subRW | xorRW =>
    refine ⟨"", .inl rfl, ?_⟩
    rw [rw' _ (by decide), String.append_empty]
    show (printedWord _ >>= fun val => pure (" " ++ registerName (byteOf word 1) ++ ", " ++ val)) cpu = _
    rw [bind_apply, hword _ rfl, h0]
    rfl
  | callA | jA =>
    refine ⟨"", .inl rfl, ?_⟩
    rw [a _ (by decide), String.append_empty]
    show (printedWord _ >>= fun val => pure (" " ++ val)) cpu = _
    rw [bind_apply, hword _ rfl]
    rfl
  | jeqA | jneA =>
    refine ⟨"\t\t// z=" ++ toString cpu.flags.zero.toNat, remark_z _, ?_⟩
    rw [a _ (by decide)]
    show (printedWord _ >>= fun val => pure (" " ++ val)) cpu = _
    rw [bind_apply, hword _ rfl]
    show some (" " ++ (wxhex o.w0 ++ "\t\t// z=" ++ toString cpu.flags.zero.toNat), cpu) = _
    rw [String.append_assoc, ← String.append_assoc]
    rfl
  | callS | jS =>
    refine ⟨"\t\t// cs=" ++ wxhex cpu.cs, remark_cs _, ?_⟩
    rw [s _ (by decide)]
    show (printedWord _ >>= fun val => pure (" " ++ val)) cpu = _
    rw [bind_apply, hword _ rfl]
    show some (" " ++ (wxhex o.w0 ++ "\t\t// cs=" ++ wxhex cpu.cs), cpu) = _
    rw [String.append_assoc, ← String.append_assoc]
    rfl
  | jeqS | jneS =>
    refine ⟨"\t\t// z=" ++ (toString cpu.flags.zero.toNat ++ ("       cs=" ++ wxhex cpu.cs)),
      remark_z _, ?_⟩
    rw [s _ (by decide)]
    show (printedWord _ >>= fun val => pure (" " ++ val)) cpu = _
    rw [bind_apply, hword _ rfl]
    show some (" " ++ (wxhex o.w0 ++ "\t\t// z=" ++ toString cpu.flags.zero.toNat ++ "       cs=" ++ wxhex cpu.cs),
      cpu) = _
    rw [String.append_assoc, String.append_assoc, String.append_assoc, ← String.append_assoc]
    rfl
  | storRW => exact absurd (.inl rfl) hop
  | loadRRW => exact absurd (.inr (.inl rfl)) hop
  | pushW => exact absurd (.inr (.inr rfl)) hop

omit [Host] in
/-- The printer knows an operation that it has not forgotten. -/
lemma printed_bytecode (hop : ¬ Forgotten op) : printed op.bytecode = some op := by
  unfold printed
  rw [ops_bytecode]
  cases op
  case storRW => exact absurd (.inl rfl) hop
  case loadRRW => exact absurd (.inr (.inl rfl)) hop
  case pushW => exact absurd (.inr (.inr rfl)) hop
  all_goals rfl

/-- The line with its heading. -/
lemma cpuInstructionToString_args {text : String} (hcode : byteOf word 0 = op.bytecode) (hop : ¬ Forgotten op)
    (hargs : printedArgs word op cpu = some (text, cpu)) :
    cpuInstructionToString word cpu = some (heading cpu ++ (opsName op.bytecode ++ text), cpu) := by
  unfold cpuInstructionToString
  rw [bind_apply, get_apply, Option.bind_some, hcode, printed_bytecode hop]
  dsimp only
  rw [bind_apply, hargs, ← String.append_assoc]
  rfl

/-- The text of an operation that is not. -/
lemma cpuInstructionToString_unknown (hcode : byteOf word 0 = op.bytecode) (hop : Forgotten op) :
    ∃ text, cpuInstructionToString word cpu = some (text, cpu) ∧ Unknown cpu text := by
  have hprinted : printed op.bytecode = none := by
    unfold printed
    rw [ops_bytecode]
    rcases hop with rfl | rfl | rfl <;> rfl
  refine ⟨_, ?_, op.bytecode.setWidth 32, rfl⟩
  unfold cpuInstructionToString
  rw [bind_apply, get_apply, Option.bind_some, hcode, hprinted]
  rfl

omit [Host] in
/-- A text that names an operation goes on with a letter, the one of an unknown opcode with a digit. -/
lemma Names.not_unknown {args : List String} {text : String} (h : Names cpu op args text) : ¬ Unknown cpu text := by
  rintro ⟨w, hw⟩
  obtain ⟨blanks, remark, _, _, rfl⟩ := h
  rw [String.append_assoc, String.append_assoc] at hw
  have hrest : mnemonic op ++ (String.ofList blanks ++ (separated args ++ remark)) = wxhex w ++ " ???" :=
    (String.append_right_inj _).mp hw
  have hdigit : (wxhex w ++ " ???").toList.head? = some '0' := by
    rw [wxhex, String.toList_append, String.toList_append, String.toList_ofList]
    rfl
  have hupper := mnemonic_upper op
  rw [← hrest, String.toList_append] at hdigit
  cases hm : (mnemonic op).toList with
  | nil =>
    rw [hm] at hupper
    cases hupper
  | cons c cs =>
    rw [hm] at hupper hdigit
    cases hdigit
    cases hupper

omit [Host] in
/-- The name alone does not name an operation with a number. -/
lemma not_names_number (n : Nat) : ¬ Names cpu op [s!"{n}"] (heading cpu ++ (opsName op.bytecode ++ "")) := by
  rintro ⟨blanks, remark, _, _, htext⟩
  obtain ⟨blanks', hblanks', hname⟩ := opsName_bytecode op
  rw [hname, String.append_empty, String.append_assoc, String.append_assoc] at htext
  have hrest := (String.append_right_inj _).mp ((String.append_right_inj _).mp htext)
  have hlist : blanks' = blanks ++ (' ' :: Nat.toDigits 10 n ++ remark.toList) := by
    have h := congrArg String.toList hrest
    simpa [separated, toString, Nat.repr_eq_ofList_toDigits] using h
  -- A digit of the number is no blank.
  obtain ⟨c, cs, hcs⟩ := List.exists_cons_of_ne_nil (Nat.toDigits_ne_nil (n := n) (b := 10))
  have hc : c ∈ Nat.toDigits 10 n := hcs ▸ List.mem_cons_self
  have hdigit := Nat.isDigit_of_mem_toDigits (by decide) (by decide) hc
  have hblank : c = ' ' := by
    apply hblanks' c
    rw [hlist]
    simp [hc]
  rw [hblank] at hdigit
  cases hdigit

/-! ### The operands of the source -/

omit [Host] in
/-- The name that is printed of a register is the one in the source. -/
lemma registerName_decodeRegister {r : String} {n : Byte} (h : Emitter.decodeRegister r = some n) :
    registerName n = sourceRegister r := by
  have hpc : (Emitter.decodeRegister "cp").map registerName = some "pc" := by decide +kernel
  have hspecial : ∀ r ∈ ["sp", "bp", "cs", "ir", "idt"], (Emitter.decodeRegister r).map registerName = some r := by
    decide +kernel
  have hgeneral : ∀ n < 32, (Emitter.decodeRegister s!"r{n}").map registerName = some s!"r{n}" := by decide +kernel
  unfold sourceRegister
  split
  next e =>
    rw [← e, h] at hpc
    exact Option.some.inj hpc
  next hne =>
    obtain ⟨m, hm, _⟩ := Option.map_eq_some_iff.mp h
    have hsome : (Emitter.registers r).isSome = true := Option.isSome_iff_exists.mpr ⟨m, hm⟩
    have hname : (Emitter.decodeRegister r).map registerName = some r := by
      rcases RegisterName.iff_emitter.mpr ⟨hsome, hne⟩ with hr | ⟨k, hk, rfl⟩
      · exact hspecial r hr
      · exact hgeneral k hk
    rw [h] at hname
    exact Option.some.inj hname

/-- The arguments that an instruction of a form has. -/
def formTableArgs : Form → List Arg
  | .void => []
  | .b => [⟨.byte, 0⟩]
  | .r => [⟨.register, 0⟩]
  | .rr => [⟨.register, 0⟩, ⟨.register, 1⟩]
  | .rrr => [⟨.register, 0⟩, ⟨.register, 1⟩, ⟨.register, 2⟩]
  | .rw | .wr | .aar | .raa | .ras => [⟨.register, 0⟩, ⟨.word, 0⟩]
  | .ro => [⟨.register, 0⟩, ⟨.register, 1⟩, ⟨.word, 0⟩]
  | .w => [⟨.word, 0⟩]
  | .aa => [⟨.absoluteAddress, 0⟩]
  | .as => [⟨.csRelativeAddress, 0⟩]

omit [Host] in
/-- The instruction table has the arguments of the form, but for `XBM`. -/
lemma alternatives_args {name : String} {fs : List (Op × Form)} (h : alternatives name = some fs) :
    ∀ x ∈ fs, if x.1 = .xbm then x.2 = .b else tableArgs x.1 = formTableArgs x.2 := by
  have hall : ∀ name ∈ mnemonics, ∀ x ∈ (alternatives name).getD [],
      if x.1 = .xbm then x.2 = .b else tableArgs x.1 = formTableArgs x.2 := by decide +kernel
  have hname := hall name (mem_mnemonics h)
  rw [h, Option.getD_some] at hname
  exact hname

omit [Host] in
/-- The texts of the operands of a form are those of the arguments. -/
lemma announced_texts {symbols f line i} {em : Emitter} {base : Word} (an : Announced symbols op f line i)
    (ho : Vm.operands em base i = some o) : operandTexts em base i = some ((formTableArgs f).map o.text) := by
  cases an with
  | void | b | w =>
    cases ho
    rfl
  | r | rw | wr =>
    obtain ⟨n, hn, ho⟩ := Option.bind_eq_some_iff.mp ho
    cases ho
    rw [operandTexts, ← registerName_decodeRegister hn]
    rfl
  | rr | ro =>
    obtain ⟨n1, hn1, ho⟩ := Option.bind_eq_some_iff.mp ho
    obtain ⟨n2, hn2, ho⟩ := Option.bind_eq_some_iff.mp ho
    cases ho
    rw [operandTexts, ← registerName_decodeRegister hn1, ← registerName_decodeRegister hn2]
    rfl
  | rrr =>
    obtain ⟨n1, hn1, ho⟩ := Option.bind_eq_some_iff.mp ho
    obtain ⟨n2, hn2, ho⟩ := Option.bind_eq_some_iff.mp ho
    obtain ⟨n3, hn3, ho⟩ := Option.bind_eq_some_iff.mp ho
    cases ho
    rw [operandTexts, ← registerName_decodeRegister hn1, ← registerName_decodeRegister hn2,
      ← registerName_decodeRegister hn3]
    rfl
  | aar | raa | ras =>
    obtain ⟨n, hn, ho⟩ := Option.bind_eq_some_iff.mp ho
    obtain ⟨a, ha, ho⟩ := Option.bind_eq_some_iff.mp ho
    cases ho
    rw [operandTexts, ha, ← registerName_decodeRegister hn]
    rfl
  | aa | as =>
    obtain ⟨a, ha, ho⟩ := Option.bind_eq_some_iff.mp ho
    cases ho
    rw [operandTexts, ha]
    rfl

omit [Host] in
/-- The texts of arguments are separated by commas. -/
lemma texts_eq (o : Operands) (args : List Arg) : o.texts args = separated (args.map o.text) := by
  cases args with
  | nil => rfl
  | cons arg args => rw [Operands.texts, List.map_cons, separated, List.foldl_map]

/-! ### From the source to the text -/

omit [Host] in
/-- Bytes of an instruction in memory. -/
lemma stands_instruction {heap : Heap} {bus : Bus} {a w : Word} {b0 b1 b2 b3 : Byte} {two : Bool}
    (h : Stands heap bus a (b0 :: b1 :: b2 :: b3 :: if two then w.toBeBytes else [])) :
    busWordRead heap bus a = some (.ok (ByteOrder.big.ofBytes b0 b1 b2 b3)) ∧
      (two = true → busWordRead heap bus (a + addrSize) = some (.ok w)) := by
  refine ⟨h.1, ?_⟩
  rintro rfl
  have hw := h.2.1
  rwa [ByteOrder.ofBytes_byteAt] at hw

/-- The text for an instruction names it with all of its operands, and not as an unknown one. -/
def Disassembles (cpu : CPU) (op : Op) (args : List String) (word : Word) : Prop :=
  ∃ text, cpuInstructionToString (htov word) cpu.skip = some (text, cpu.skip) ∧
    Names cpu.skip op args text ∧ ¬ Unknown cpu.skip text

/-- The text of an operation that is printed with its arguments. -/
lemma disassembles_names {args : List String} (hb : Holds (htov word) o) (hcode : byteOf (htov word) 0 = op.bytecode)
    (hop : ¬ Forgotten op) (hp : cpu.state.panic = .ok)
    (hw : op.takesWord = true → busWordRead cpu.heap cpu.bus (cpu.pc + addrSize) = some (.ok o.w0))
    (hargs : o.texts (tableArgs op) = separated args) : Disassembles cpu op args word := by
  obtain ⟨remark, hremark, hprinted⟩ := @printedArgs_texts _ _ o cpu.skip op hb hop hp hw
  obtain ⟨blanks, hblanks, hname⟩ := opsName_bytecode op
  have hnames : Names cpu.skip op args
      (heading cpu.skip ++ (opsName op.bytecode ++ (o.texts (tableArgs op) ++ remark))) := by
    refine ⟨blanks, remark, hblanks, hremark, ?_⟩
    rw [hname, hargs, ← String.append_assoc]
  exact ⟨_, cpuInstructionToString_args hcode hop hprinted, hnames, hnames.not_unknown⟩

/-- **Disassembly** names an instruction of the assembler with all of its operands, exactly when it is not a `STOR`
to a word, a `LOAD` with an offset, a `PUSH` of a word or an `XBM`. -/
theorem disassembles_iff {name position parser parser' i} {em : Emitter} {base bytes}
    (hparse : (Asm.parseInstruction name position).run parser = some (.ok i, parser'))
    (hemit : em.emitInstruction base i = some bytes) (hp : cpu.state.panic = .ok)
    (hstands : Stands cpu.heap cpu.bus cpu.pc bytes) :
    ∃ args word, operandTexts em base i = some args ∧ cpuFetch cpu = some (word, cpu.skip) ∧
      (Disassembles cpu i.op args word ↔ ¬ Misnamed i.op) := by
  obtain ⟨⟨items, aborts⟩, symbols, nodes⟩ := parser
  obtain ⟨fs, op, f, tokens, _, _, hfs, hm, _, _, an, _⟩ := parseInstruction_ok hparse
  have hlen : i.op.length = i.width := Matches.length_op ⟨fs, op, f, hfs, hm, an⟩
  obtain ⟨rfl, _⟩ := an.width
  obtain ⟨o, ho, rfl⟩ := emitInstruction_operands hemit
  have htwo : (if i.width = 8 then o.w0.toBeBytes else []) =
      if i.op.takesWord then o.w0.toBeBytes else [] := by
    rw [← hlen, i.op.length_eq]
    cases i.op.takesWord <;> rfl
  rw [htwo] at hstands
  obtain ⟨hfirst, hword⟩ := stands_instruction hstands
  obtain ⟨h0, h1, h2, h3⟩ := byteOf_htov i.op.bytecode o.r0 o.r1 o.r2
  have htexts := announced_texts an ho
  have hargs := alternatives_args hfs (i.op, f) hm
  dsimp only at hargs
  refine ⟨_, _, htexts, cpuFetch_ok hp hfirst, ?_⟩
  by_cases hop : Forgotten i.op
  · obtain ⟨text, htext, hunknown⟩ := @cpuInstructionToString_unknown _ _ cpu.skip _ h0 hop
    refine iff_of_false ?_ (not_not.mpr (.inl hop))
    rintro ⟨text', htext', _, hknown⟩
    cases htext.symm.trans htext'
    exact hknown hunknown
  by_cases hxbm : i.op = .xbm
  · refine iff_of_false ?_ (not_not.mpr (.inr hxbm))
    rintro ⟨text, htext, hnames, _⟩
    rw [if_pos hxbm] at hargs
    have hnone : printedArgs (htov (ByteOrder.big.ofBytes i.op.bytecode o.r0 o.r1 o.r2)) i.op cpu.skip =
        some ("", cpu.skip) := by
      rw [hxbm]
      rfl
    cases htext.symm.trans (cpuInstructionToString_args h0 hop hnone)
    rw [hargs] at hnames
    exact not_names_number o.b0.toNat hnames
  · rw [if_neg hxbm] at hargs
    refine iff_of_true (disassembles_names ⟨h1, h2, h3⟩ h0 hop hp hword ?_) (not_or.mpr ⟨hop, hxbm⟩)
    rw [texts_eq, hargs]

end

/-- A machine with two words at 0. -/
def twoWords (first second : Word) : CPU :=
  smallCpu fun _ => { smallHeap 0 with raw := fun i => if i = 0 then first else second }

/-- `MOV r1, 4` -/
theorem disassembles_mov : ∃ word,
    @Disassembles ⟨.little⟩ (twoWords (ByteOrder.big.ofBytes (Op.bytecode .movRW) 1 0 0) 4)
      .movRW ["r1", "0x00000004"] word := by
  have hparse : (Asm.parseInstruction "MOV" ⟨1, 1⟩).run ⟨⟨[.ok ⟨⟨1, 5⟩, .identifier "r1"⟩,
      .ok ⟨⟨1, 7⟩, .comma⟩, .ok ⟨⟨1, 9⟩, .integer 4⟩, .ok ⟨⟨1, 10⟩, .eol⟩], false⟩, .new, []⟩ =
      some (.ok (.IRW .movRW "r1" 4), ⟨⟨[], false⟩, .new, []⟩) := rfl
  have hemit : Emitter.emitInstruction ⟨[], .new⟩ 0 (.IRW .movRW "r1" 4) =
      some [Op.bytecode .movRW, 1, 0, 0, 0, 0, 0, 4] := by
    rw [Emitter.emitInstruction]
    rfl
  obtain ⟨args, word, hargs, _, hd⟩ := @disassembles_iff ⟨.little⟩
    (twoWords (ByteOrder.big.ofBytes (Op.bytecode .movRW) 1 0 0) 4) _ _ _ _ _ _ _ _ hparse hemit rfl
    ⟨by decide +kernel, by decide +kernel, rfl⟩
  have htexts : args = ["r1", "0x00000004"] := by
    cases hargs
    decide
  exact ⟨word, htexts ▸ hd.mpr (by unfold Misnamed Forgotten; decide)⟩

/-- `PUSH 7` is printed as an unknown opcode. -/
theorem not_disassembles_push : ¬ ∀ {name position parser parser' i} {em : Emitter} {base bytes} {cpu : CPU},
    (Asm.parseInstruction name position).run parser = some (.ok i, parser') →
    em.emitInstruction base i = some bytes → cpu.state.panic = .ok → Stands cpu.heap cpu.bus cpu.pc bytes →
    ∃ args word, operandTexts em base i = some args ∧ cpuFetch cpu = some (word, cpu.skip) ∧
      @Disassembles ⟨.little⟩ cpu i.op args word := by
  intro h
  have hparse : (Asm.parseInstruction "PUSH" ⟨1, 1⟩).run ⟨⟨[.ok ⟨⟨1, 6⟩, .integer 7⟩, .ok ⟨⟨1, 7⟩, .eol⟩],
      false⟩, .new, []⟩ = some (.ok (.IW .pushW 7), ⟨⟨[], false⟩, .new, []⟩) := rfl
  have hemit : Emitter.emitInstruction ⟨[], .new⟩ 0 (.IW .pushW 7) =
      some [Op.bytecode .pushW, 0, 0, 0, 0, 0, 0, 7] := rfl
  have hstands : Stands (twoWords (ByteOrder.big.ofBytes (Op.bytecode .pushW) 0 0 0) 7).heap
      (twoWords (ByteOrder.big.ofBytes (Op.bytecode .pushW) 0 0 0) 7).bus 0
      [Op.bytecode .pushW, 0, 0, 0, 0, 0, 0, 7] := ⟨by decide +kernel, by decide +kernel, rfl⟩
  obtain ⟨args, word, _, hfetch, text, htext, _, hknown⟩ := h hparse hemit rfl hstands
  obtain ⟨hword, _⟩ := Prod.mk.inj (Option.some.inj ((cpuFetch_ok rfl hstands.1).symm.trans hfetch))
  obtain ⟨text', htext', hunknown⟩ := @cpuInstructionToString_unknown ⟨.little⟩ (@htov ⟨.little⟩ word)
    (twoWords (ByteOrder.big.ofBytes (Op.bytecode .pushW) 0 0 0) 7).skip .pushW
    (hword ▸ (@byteOf_htov ⟨.little⟩ (Op.bytecode .pushW) 0 0 0).1) (.inr (.inr rfl))
  cases htext.symm.trans htext'
  exact hknown hunknown

end Thorium.Vm
