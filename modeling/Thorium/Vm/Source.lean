import Thorium.Asm.Assembler
import Thorium.Asm.Bases
import Thorium.Asm.Lines
import Thorium.Vm.Interrupts
import Thorium.Vm.Programs

/-!
# The meaning of source programs

What a program of the assembler means without its bytes. Each node of the source has an offset, and a label stands for
the offset of its node. `source` gives the operation and the arguments of the source at an address, and a turn of
the source performs them. The CPU that runs the image of the program has the same turns, as long as the image has not
been overwritten (`assembler_preserves`).
-/

namespace Thorium.Vm
open Thorium.Isa Thorium.Asm Thorium.Run

/-! ### The source -/

/-- The offset of the node that declares a name. -/
def offsetOf : List Node → String → Option Nat
  | [], _ => none
  | n :: nodes, name => if n.declares = some name then some 0 else (offsetOf nodes name).map (n.size + ·)

/-- The names stand for the offsets of their nodes. -/
def offsets (nodes : List Node) : HashMap Word := fun name => (offsetOf nodes name).map (BitVec.ofNat 32)

/-- The operation of a node with its arguments, where names stand for offsets and `base` is in force. -/
def nodeCode (names : HashMap Word) (base : Word) : Node → Option (Op × Operands)
  | .instruction i => (operands ⟨[], names⟩ base i).map fun o => (i.op, o)
  | _ => none

/-- What is at an offset of some nodes. -/
def sourceFrom (names : HashMap Word) : Word → List Node → Nat → Option (Op × Operands)
  | _, [], _ => none
  | base, n :: nodes, p =>
    if p < n.size then if p = 0 then nodeCode names base n else none
    else sourceFrom names (n.base.getD base) nodes (p - n.size)

/-- The instruction of a program at an address, when the program is loaded behind the stack. -/
def source (nodes : List Node) (a : Addr) : Option (Op × Operands) :=
  sourceFrom (offsets nodes) 0 nodes (a - stackSize).toNat

/-- An operation with its arguments is performed. -/
def perform (op : Op) (o : Operands) : Run CPU (List Label) := do
  modify CPU.skip
  effect op o
  modify CPU.stepped
  return [.exec op]

section
variable [Host]

/-- The rest of a turn of a program. Behind it is what is in the memory. -/
def sourceExecute (program : Addr → Option (Op × Operands)) : Run CPU (List Label) := do
  match program (← get).pc with
  | some (op, o) => if (← get).state.panic = .ok then perform op o else fetchExecuteLogged
  | none => fetchExecuteLogged

/-- A turn of a program. -/
def sourceTurn (program : Addr → Option (Op × Operands)) : Run CPU (List Label) := do
  if (← get).goesOn then
    let entered ← entryLogged
    let executed ← sourceExecute program
    return entered ++ executed
  else return []

/-- An event. -/
def sourceHappen (program : Addr → Option (Op × Operands)) : Event → Run CPU (List Label)
  | .turn => sourceTurn program
  | event => happen event

/-- A run of a program. -/
def sourceAll (program : Addr → Option (Op × Operands)) : List Event → Run CPU (List Label)
  | [] => return []
  | event :: events => do
    let log ← sourceHappen program event
    let log' ← sourceAll program events
    return log ++ log'

end

/-! ### Names -/

section
variable {nodes nodes' l l' : List Node} {name : String} {map names : HashMap Word} {base : Word} {p : Nat}
variable {op : Op} {o : Operands} {image : List Byte}

/-- A label that is found is declared behind the code in front of it. -/
lemma offsetOf_some (h : offsetOf nodes name = some p) :
    ∃ l n l', nodes = l ++ n :: l' ∧ n.declares = some name ∧ p = imageLength l := by
  induction nodes generalizing p with
  | nil => cases h
  | cons m nodes ih =>
    rw [offsetOf] at h
    split at h
    next hm =>
      cases h
      exact ⟨[], m, nodes, rfl, hm, rfl⟩
    next hm =>
      obtain ⟨q, hq, rfl⟩ := Option.map_eq_some_iff.mp h
      obtain ⟨l, n, l', rfl, hn, rfl⟩ := ih hq
      exact ⟨m :: l, n, l', rfl, hn, (imageLength_cons m l).symm⟩

/-- A label that is not found is declared nowhere. -/
lemma offsetOf_none (h : offsetOf nodes name = none) : name ∉ declared nodes := by
  induction nodes with
  | nil => exact List.not_mem_nil
  | cons m nodes ih =>
    rw [offsetOf] at h
    split at h
    next => cases h
    next hm =>
      intro hmem
      obtain ⟨n, hn, hd⟩ := List.mem_filterMap.mp hmem
      cases List.mem_cons.mp hn with
      | inl e => exact hm (e ▸ hd)
      | inr hn => exact ih (Option.map_eq_none_iff.mp h) (List.mem_filterMap.mpr ⟨n, hn, hd⟩)

/-- The resolver finds the offsets. -/
lemma resolve_offsets (hr : resolve nodes = some (.ok map)) : map = offsets nodes := by
  obtain ⟨p', hc, _⟩ := resolve_ok_iff.mp hr
  funext name
  unfold offsets
  cases h : offsetOf nodes name with
  | none =>
    have hkey := (collect_key hc name).not.mpr (not_or.mpr ⟨nofun, offsetOf_none h⟩)
    exact Option.not_isSome_iff_eq_none.mp hkey
  | some p =>
    obtain ⟨l, n, l', e, hn, rfl⟩ := offsetOf_some h
    obtain ⟨a, ha, hp⟩ := collect_address hc e hn
    have hat : a.toNat = imageLength l := hp.trans (Nat.zero_add _)
    rw [ha, Option.map_some, ← hat, BitVec.ofNat_toNat, BitVec.setWidth_eq]

/-! ### The image -/

/-- The bytes of an operation with its arguments. -/
def codeBytes (op : Op) (o : Operands) : List Byte :=
  op.bytecode :: o.r0 :: o.r1 :: o.r2 :: if op.takesWord then o.w0.toBeBytes else []

/-- Arguments depend on the addresses of the emitter only. -/
lemma operands_names (em : Emitter) (base : Word) (i : Asm.Instruction) :
    operands ⟨[], em.addresses⟩ base i = operands em base i := by
  cases i <;> rfl

/-- A node is emitted as its code. -/
lemma nodeCode_emitted {em : Emitter} {state state' : List Byte × Word} {n : Node} (sized : WellSized [n])
    (h : em.emitNode state n = some state') (hn : nodeCode em.addresses state.2 n = some (op, o)) :
    state'.1 = state.1 ++ codeBytes op o := by
  cases n with
  | directive | label => cases hn
  | instruction i =>
    obtain ⟨o', ho, e⟩ := Option.map_eq_some_iff.mp hn
    cases e
    obtain ⟨bytes, hb, h⟩ := Option.bind_eq_some_iff.mp h
    cases h
    obtain ⟨o'', ho', rfl⟩ := emitInstruction_operands hb
    rw [operands_names, ho'] at ho
    cases ho
    have hlen : i.op.length = i.width := sized i List.mem_cons_self
    rw [codeBytes, ← hlen, i.op.length_eq]
    cases i.op.takesWord <;> rfl

/-- The size of a node is a whole number of words. -/
lemma size_mod (n : Node) : n.size % 4 = 0 := by
  cases n with
  | label => rfl
  | directive d => cases d <;> simp [Node.size]
  | instruction i =>
    rw [Node.size, i.op.length_eq]
    split <;> rfl

/-- The image has the bytes of the source at their offset. -/
lemma sourceFrom_emitted {em : Emitter} {state state' : List Byte × Word} (sized : WellSized nodes)
    (h : em.emitFrom state nodes = some state') (hs : sourceFrom em.addresses state.2 nodes p = some (op, o)) :
    ∃ before after, state'.1 = state.1 ++ before ++ codeBytes op o ++ after ∧ before.length = p ∧ p % 4 = 0 := by
  induction nodes generalizing state p with
  | nil => cases hs
  | cons n nodes ih =>
    have sized1 : WellSized [n] := fun i hi => sized i (List.mem_singleton.mp hi ▸ List.mem_cons_self)
    have sized2 : WellSized nodes := fun i hi => sized i (List.mem_cons_of_mem n hi)
    rw [emitFrom_cons] at h
    obtain ⟨state1, hn, h⟩ := Option.bind_eq_some_iff.mp h
    rw [sourceFrom] at hs
    split at hs
    next =>
      split at hs
      next hp =>
        obtain ⟨after, hafter, _⟩ := emitFrom_inv h
        refine ⟨[], after, ?_, hp.symm, by rw [hp]⟩
        rw [hafter, nodeCode_emitted sized1 hn hs, List.append_nil]
      next => cases hs
    next hle =>
      obtain ⟨bytes, hbytes, hbase, hsize⟩ := emitNode_inv hn
      rw [← hbase] at hs
      obtain ⟨before, after, hstate, hlen, hmod⟩ := ih sized2 h hs
      have hn4 := size_mod n
      refine ⟨bytes ++ before, after, ?_, ?_, by omega⟩
      · rw [hstate, hbytes]
        simp only [List.append_assoc]
      · rw [List.length_append, hsize sized1, hlen]
        omega

/-- Whole words are cut off. -/
lemma fileWords_append {before bytes : List Byte} (h : before.length % 4 = 0) :
    fileWords (before ++ bytes) = fileWords before ++ fileWords bytes := by
  induction before using fileWords.induct with
  | case1 b0 b1 b2 b3 before ih =>
    have hrest : before.length % 4 = 0 := by
      simp only [List.length_cons] at h
      omega
    simp only [List.cons_append, fileWords, ih hrest]
  | case2 before hshort =>
    rcases before with _ | ⟨b0, _ | ⟨b1, _ | ⟨b2, _ | ⟨b3, before⟩⟩⟩⟩
    · rfl
    · cases h
    · cases h
    · cases h
    · exact absurd rfl (hshort b0 b1 b2 b3 before)

/-- The words of an instruction. -/
lemma fileWords_code (op : Op) (o : Operands) (after : List Byte) :
    ∃ rest, fileWords (codeBytes op o ++ after) =
      ByteOrder.big.ofBytes op.bytecode o.r0 o.r1 o.r2 :: ((if op.takesWord then [o.w0] else []) ++ rest) := by
  refine ⟨fileWords after, ?_⟩
  unfold codeBytes
  split
  · have hword : fileWords (o.w0.toBeBytes ++ after) = o.w0 :: fileWords after := by
      simp only [Word.toBeBytes, List.cons_append, List.nil_append, fileWords, ByteOrder.ofBytes_byteAt]
    exact congrArg (ByteOrder.big.ofBytes op.bytecode o.r0 o.r1 o.r2 :: ·) hword
  · rfl

/-- The code of the source is in the memory where its image is. -/
lemma source_code {heap : Heap} {bus : Bus} {a : Addr} (sized : WellSized nodes)
    (hr : resolve nodes = some (.ok map)) (he : (Emitter.mk nodes map).emit = some image)
    (hwords : ∀ k w, (fileWords image)[k]? = some w → busWordRead heap bus (wordOffset stackSize k) = some (.ok w))
    (hs : source nodes a = some (op, o)) : Code heap bus a op o := by
  obtain ⟨⟨image', base'⟩, hemit, rfl⟩ := Option.map_eq_some_iff.mp he
  rw [source, ← resolve_offsets hr] at hs
  obtain ⟨before, after, himage, hlen, hmod⟩ := @sourceFrom_emitted _ _ _ _ ⟨nodes, map⟩ _ _ sized hemit hs
  dsimp only at himage
  rw [List.nil_append, List.append_assoc] at himage
  obtain ⟨rest, hcode⟩ := fileWords_code op o after
  have hat : wordOffset stackSize (fileWords before).length = a := by
    rw [length_fileWords, hlen, wordOffset, Nat.mul_div_cancel' (Nat.dvd_of_mod_eq_zero hmod)]
    bv_omega
  have hnext : wordOffset stackSize ((fileWords before).length + 1) = a + addrSize := by
    rw [← hat, wordOffset, wordOffset, addrSize]
    bv_omega
  rw [himage, fileWords_append (hlen ▸ hmod), hcode] at hwords
  constructor
  · rw [← hat]
    exact hwords _ _ (by simp)
  · intro htakes
    rw [← hnext]
    rw [htakes] at hwords
    exact hwords _ _ (by simp)

end

/-! ### Turns -/

section
variable [Host]
variable {s s' : CPU} {op : Op} {o : Operands} {program : Addr → Option (Op × Operands)}

/-- An operation that is executed without the debugger. -/
lemma executeLogged_ok {word : Word} (hp : s.state.panic = .ok) (hop : ops (byteOf word 0) = some op)
    (hq : (s.debug.trap && s.debugger) = false) :
    executeLogged word s = (handler op word s).bind fun x => some ([.exec op], x.2.stepped) := by
  rw [executeLogged, bind_apply, cpuDecode_ok hp, hop]
  show (trap word s).bind _ = _
  rw [trap_off hq]
  rfl

/-- What is fetched and executed is performed. -/
lemma fetchExecuteLogged_perform (hp : s.state.panic = .ok) (hq : (s.debug.trap && s.debugger) = false)
    (hc : Code s.heap s.bus s.pc op o) : fetchExecuteLogged s = perform op o s := by
  have hd : Decodes (.I op) o _ s := @decodes_of_reads o s _ (.I op) hp hc.word hc.operand
  have hskip : s.skip.state.panic = .ok := hp
  rw [fetchExecuteLogged, bind_apply, cpuFetch_ok hp hc.word]
  show (if s.skip.state.panic = .ok then executeLogged _ else pure []) s.skip = (effect op o s.skip).bind _
  rw [if_pos hskip]
  refine (executeLogged_ok hskip hd.selected hq).trans ?_
  exact congrArg (Option.bind · _) hd.effect

/-- An instruction of the source is executed as the word in its place. -/
lemma sourceExecute_eq (h : ∀ op o, program s.pc = some (op, o) → s.state.panic = .ok →
    fetchExecuteLogged s = perform op o s) : sourceExecute program s = fetchExecuteLogged s := by
  rw [sourceExecute, bind_apply, get_apply, Option.bind_some]
  dsimp only
  cases hpc : program s.pc with
  | none => rfl
  | some x =>
    obtain ⟨op, o⟩ := x
    show (if s.state.panic = .ok then perform op o else fetchExecuteLogged) s = _
    split
    next hp => exact (h op o hpc hp).symm
    next => rfl

omit [Host] in
/-- The entry of an interrupt goes to the ROM. -/
lemma interruptEntry_pc (h : interruptEntry s = some ((), s')) (hp : s'.state.panic = .ok) :
    s'.pc = romAddress + 8 := by
  rcases hw : busWordWrite s.heap s.bus (s.sp - wordSize) s.pc with _ | (error | ⟨heap, conds⟩)
  · rw [interruptEntry_none hw] at h
    cases h
  · rw [interruptEntry_error hw] at h
    cases h
    cases hp
  · rw [interruptEntry_ok hw] at h
    cases h
    rfl

/-- A turn of a program whose code is in the memory. -/
lemma sourceTurn_eq (hrom : program (romAddress + 8) = none) (hq : (s.debug.trap && s.debugger) = false)
    (hc : ∀ op o, program s.pc = some (op, o) → Code s.heap s.bus s.pc op o) :
    sourceTurn program s = turnLogged s := by
  rw [sourceTurn, turnLogged, bind_apply, bind_apply, get_apply, Option.bind_some, Option.bind_some]
  dsimp only
  split
  next hgo =>
    rw [bind_apply, bind_apply, entryLogged_apply]
    split
    next =>
      cases hentry : interruptEntry s with
      | none => rfl
      | some x =>
        obtain ⟨_, e⟩ := x
        have hexecute : sourceExecute program e = fetchExecuteLogged e := by
          apply sourceExecute_eq
          intro op o hprogram hp
          rw [interruptEntry_pc hentry hp, hrom] at hprogram
          cases hprogram
        show (sourceExecute program e).bind _ = (fetchExecuteLogged e).bind _
        rw [hexecute]
    next =>
      have hexecute : sourceExecute program s = fetchExecuteLogged s :=
        sourceExecute_eq fun op o hprogram hp => fetchExecuteLogged_perform hp hq (hc op o hprogram)
      show (sourceExecute program s).bind _ = (fetchExecuteLogged s).bind _
      rw [hexecute]
  next => rfl

/-! ### Runs -/

/-- The image has not been written, and the debugger has not been called. -/
structure Unwritten (image : List Byte) (s : CPU) : Prop where
  words : ∀ k w, (fileWords image)[k]? = some w →
    busWordRead s.heap s.bus (wordOffset stackSize k) = some (.ok w)
  quiet : (s.debug.trap && s.debugger) = false

instance (image : List Byte) (s : CPU) : Decidable (Unwritten image s) :=
  decidable_of_iff (((fileWords image).zipIdx.all fun x =>
      busWordRead s.heap s.bus (wordOffset stackSize x.2) = some (.ok x.1)) = true ∧
    (s.debug.trap && s.debugger) = false) <| by
      simp only [List.all_eq_true, decide_eq_true_eq, Prod.forall, List.mk_mem_zipIdx_iff_getElem?]
      exact ⟨fun h => ⟨fun k w => h.1 w k, h.2⟩, fun h => ⟨fun w k => h.words k w, h.quiet⟩⟩

/-- The events of a run, of which the turns begin while the image has not been written. -/
abbrev UnwrittenRun (image : List Byte) (s : CPU) (events : List Event) : Prop :=
  Meets after (fun s event => event = .turn → Unwritten image s) s events

/-- A run of the source is a run of the CPU, as long as the image is not written. -/
lemma sourceAll_eq {image : List Byte} {events : List Event} (hrom : program (romAddress + 8) = none)
    (hcode : ∀ s, Unwritten image s → ∀ a op o, program a = some (op, o) → Code s.heap s.bus a op o)
    (hrun : UnwrittenRun image s events) : sourceAll program events s = happenAll events s := by
  induction events generalizing s with
  | nil => rfl
  | cons event events ih =>
    have hevent : sourceHappen program event s = happen event s := by
      cases event with
      | turn =>
        have hs := hrun.head rfl
        exact sourceTurn_eq hrom hs.quiet fun op o => hcode s hs s.pc op o
      | trigger i => rfl
      | store ref a w => rfl
    rw [sourceAll, happenAll, bind_apply, bind_apply, hevent]
    cases hs : happen event s with
    | none => rfl
    | some x =>
      obtain ⟨log, s1⟩ := x
      have hafter : after event s = some s1 := by rw [after, hs]; rfl
      rw [Option.bind_some, Option.bind_some, bind_apply, bind_apply, ih (hrun.tail hafter)]

end

/-- The source has instructions in the image only. -/
lemma sourceFrom_bound {names : HashMap Word} {base : Word} {nodes : List Node} {p : Nat} {x : Op × Operands}
    (h : sourceFrom names base nodes p = some x) : p < imageLength nodes := by
  induction nodes generalizing base p with
  | nil => cases h
  | cons n nodes ih =>
    rw [sourceFrom] at h
    rw [imageLength_cons]
    split at h
    next hp => omega
    next =>
      have hlt := ih h
      omega

/-- **The assembler preserves the meaning of a program**: the CPU that `main` starts on its image does what the
source means, whatever the devices do, as long as the image is not written. -/
theorem assembler_preserves [Unicode] [Host] {malloc : Ref → Nat → Word} {raw cpu : CPU} {options : Options}
    {texts : List String} {bytes : List Byte} (ha : assemble texts = some (.image bytes))
    (h : setUp malloc raw options = some (some cpu)) (hf : Fits options bytes) :
    ∃ nodes, parseFiles .new [] texts = some (.ok nodes) ∧ Unwritten bytes cpu.started ∧
      ∀ events, UnwrittenRun bytes cpu.started events →
        sourceAll (source nodes) events cpu.started = happenAll events cpu.started := by
  obtain ⟨nodes, map, hparse, hr, _, he⟩ := assemble_image ha
  have hproduced : Produced nodes := ⟨.new, texts, hparse⟩
  have sized := hproduced.wellSized
  obtain ⟨_, hwords⟩ := setUp_image h hf
  refine ⟨nodes, hparse, ⟨hwords, ?_⟩, fun events hrun => ?_⟩
  · obtain ⟨vm, heap, heap', hvm, himage, hrom, hstart⟩ := setUp_inv h
    have hdebug := (startCpu_starting hstart).debug
    show (cpu.debug.trap && cpu.debugger) = false
    rw [hdebug]
    rfl
  · refine sourceAll_eq ?_ (fun s hs a op o => source_code sized hr he hs.words) hrun
    cases hsource : source nodes (romAddress + 8) with
    | none => rfl
    | some x =>
      -- The ROM is not in the image.
      have hlt := sourceFrom_bound hsource
      obtain ⟨⟨image', base'⟩, hemit, rfl⟩ := Option.map_eq_some_iff.mp he
      obtain ⟨tail, htail, hlen⟩ := emitFrom_inv hemit
      have hbytes : image' = tail := htail
      have hroom := hf.room
      have hbelow : options.ramSize.toNat ≤ (keyboardInAddress - wordSize).toNat := hf.below
      have hlast : (keyboardInAddress - wordSize).toNat = 4260899792 := by decide
      have hrom : 4260899792 ≤ (romAddress + 8 - stackSize).toNat := by decide
      rw [← hlen sized, ← hbytes] at hlt
      dsimp only at hroom
      omega

/-- The program that the assembler makes of the text. -/
lemma fact_assembles : @assemble asciiUnicode [factSource] = some (.image factImage) := by
  have htext : factSource.toList = List.flatMap String.toList _ := String.toList_join
  unfold assemble parseFiles parseFiles parseText tokenize Lexer.fromText
  rw [htext]
  decide +kernel

/-- The text of `examples/fact.a`, run for `2` among events. -/
theorem assembler_preserves_fact : ∃ cpu nodes log s,
    @setUp ⟨.little⟩ (fun _ _ => 0) (smallCpu smallHeap) (factOptions 2) = some (some cpu) ∧
      @parseFiles asciiUnicode .new [] [factSource] = some (.ok nodes) ∧
        @sourceAll ⟨.little⟩ (source nodes)
          (.trigger 3 :: .turn :: .store keyboardOutRef 0 7 :: List.replicate 13 .turn) cpu.started = some (log, s) ∧
          s.state.running = false ∧ s.register 3 = some 2 := by
  have hrun : ((@setUp ⟨.little⟩ (fun _ _ => 0) (smallCpu smallHeap) (factOptions 2)).bind fun o => o.bind fun cpu =>
      (@happenAll ⟨.little⟩ (.trigger 3 :: .turn :: .store keyboardOutRef 0 7 :: List.replicate 13 .turn)
        cpu.started).map fun x => (decide (@UnwrittenRun ⟨.little⟩ factImage cpu.started
          (.trigger 3 :: .turn :: .store keyboardOutRef 0 7 :: List.replicate 13 .turn)),
            x.2.state.running, x.2.register 3)) = some (true, false, some 2) := by decide +kernel
  obtain ⟨cpu, ⟨log, s⟩, hsetUp, hrun, hfinal⟩ := ran_eq_some hrun
  obtain ⟨hunwritten, hfinal⟩ := Prod.mk.inj hfinal
  obtain ⟨hstopped, hresult⟩ := Prod.mk.inj hfinal
  have hf : Fits (factOptions 2) factImage := ⟨rfl, fun _ e => File.noConfusion e, by decide, by decide⟩
  obtain ⟨nodes, hparse, _, hruns⟩ :=
    @assembler_preserves asciiUnicode ⟨.little⟩ _ _ _ _ _ _ fact_assembles hsetUp hf
  exact ⟨cpu, nodes, log, s, hsetUp, hparse, (hruns _ (of_decide_eq_true hunwritten)).trans hrun, hstopped, hresult⟩

end Thorium.Vm
