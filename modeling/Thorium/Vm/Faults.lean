import Thorium.Vm.Step

/-!
# Faults

Whether an access that fails leaves `state.panic` set at the end of its turn. A CPU is `Fine` before
anything has failed and `Kept` when a failure shows in `state.panic`; almost every operation leads from
the one to the other, as it returns at its first failure (`handler_kept`). The operations that push or
pop several registers go on instead and assign `state.panic` anew, so that a success at the end hides the
failures before it: `pushRegisters_run` and `popRegisters_run` say exactly when.
-/

namespace Thorium.Vm
open Thorium.Isa Thorium.Run

variable {cpu : CPU} {α : Type} {op : Op} {word : Word}

/-- Nothing has failed. -/
def CPU.Fine (cpu : CPU) : Prop := cpu.state.panic = .ok ∧ cpu.faulted = false

/-- A failure shows in `state.panic`. -/
def CPU.Kept (cpu : CPU) : Prop := cpu.faulted = true → cpu.state.panic ≠ .ok

/-- The two CPUs agree on what the operations on the stack depend on. -/
structure CPU.Same (s cpu : CPU) : Prop where
  heap : cpu.heap = s.heap
  bus : cpu.bus = s.bus
  registerCount : cpu.registerCount = s.registerCount
  sp : cpu.sp = s.sp

/-- The CPU before an operation, when `s` has fetched it. After the operation has been printed, a missing
operand may already have been noticed. -/
def CPU.Ready (op : Op) (s cpu : CPU) : Prop :=
  s.Same cpu ∧ (cpu.Fine ∨ op.takesWord = true ∧ cpu.Unreadable ∧ cpu.state.panic ≠ .ok)

/-- The CPU after a computation that returns nothing when it fails. -/
def Checked : Option α → CPU → Prop
  | some _, cpu => cpu.Fine
  | none, cpu => cpu.Kept

/-- Where nothing has failed, no failure is hidden. -/
lemma CPU.Fine.kept (h : cpu.Fine) : cpu.Kept := fun hf => by
  rw [h.2] at hf
  cases hf

/-- The assignment of `ok` where nothing has failed. -/
lemma CPU.Fine.setPanic_ok (h : cpu.Fine) : (cpu.setPanic .ok).Fine := ⟨rfl, h.2⟩

/-- With an error in `state.panic` no failure is hidden. -/
lemma CPU.kept_of_panic (h : cpu.state.panic ≠ .ok) : cpu.Kept := fun _ => h

/-- A CPU agrees with itself. -/
lemma CPU.Same.refl (cpu : CPU) : cpu.Same cpu := ⟨rfl, rfl, rfl, rfl⟩

/-- An operation that has just been fetched. -/
lemma CPU.Fine.ready (h : cpu.Fine) : CPU.Ready op cpu cpu := ⟨.refl cpu, .inl h⟩

/-- An operation without a word has nothing to miss. -/
lemma CPU.Ready.fine {s : CPU} (h : CPU.Ready op s cpu) (hop : op.takesWord = false) : cpu.Fine :=
  h.2.resolve_right fun hw => by
    rw [hop] at hw
    cases hw.1

/-- Before an operation at most its word is missing. -/
lemma CPU.Ready.fetches {s : CPU} (h : CPU.Ready op s cpu) : cpu.Fine ∨ cpu.Unreadable :=
  h.2.imp_right fun hw => hw.2.1

/-- Before an operation no failure is hidden. -/
lemma CPU.Ready.kept {s : CPU} (h : CPU.Ready op s cpu) : cpu.Kept :=
  h.2.elim CPU.Fine.kept fun hw => CPU.kept_of_panic hw.2.2

/-! ### Checked steps -/

/-- An error that is assigned shows. -/
lemma setPanic_kept {P : CPU → Prop} {e : CpuError} (he : e ≠ .ok) :
    Triple P (setPanic e) fun _ => CPU.Kept :=
  Triple.modify fun _ _ _ => he

/-- A read of a register shows its failure. -/
lemma registerGet_checked {r : Byte} : Triple CPU.Fine (registerGet r) Checked := by
  apply Triple.of_run
  intro cpu h
  cases hr : cpu.register r with
  | none => exact ⟨_, _, registerGet_none hr, fun _ => nofun⟩
  | some v => exact ⟨_, _, registerGet_some hr, h.setPanic_ok⟩

/-- So does a write of one. -/
lemma registerSet_kept {r : Byte} {v : Word} : Triple CPU.Fine (registerSet r v) fun _ => CPU.Kept := by
  apply Triple.of_run
  intro cpu h
  cases hr : cpu.setRegister r v with
  | none => exact ⟨_, _, registerSet_none hr, fun _ => nofun⟩
  | some cpu' =>
    have hf : cpu'.faulted = false := (setRegister_keeps hr).2.2.2.1.trans h.2
    exact ⟨_, _, registerSet_some hr, CPU.Fine.kept ⟨rfl, hf⟩⟩

/-- So does a read of a word. -/
lemma readWord_checked {a : Addr} : Triple CPU.Fine (readWord a) Checked := by
  intro cpu o cpu' h hr
  rcases hb : busWordRead cpu.heap cpu.bus a with _ | (e | w)
  · rw [readWord_none hb] at hr
    cases hr
  · rw [readWord_error hb] at hr
    cases hr
    exact fun _ => nofun
  · rw [readWord_ok hb] at hr
    cases hr
    exact h

/-- A write of a word, as far as faults are concerned. -/
lemma busWrite_checked {a : Addr} {w : Word} : Triple CPU.Fine (busWrite a w) fun r cpu =>
    match r with
    | .ok _ => cpu.Fine
    | .error _ => cpu.faulted = true := by
  intro cpu r cpu' h hr
  rcases hb : busWordWrite cpu.heap cpu.bus a w with _ | (e | ⟨heap, conds⟩)
  · rw [busWrite, hb] at hr
    cases hr
  · rw [busWrite, hb] at hr
    cases hr
    rfl
  · rw [busWrite, hb] at hr
    cases hr
    exact h

/-- So does a write of one. -/
lemma writeWord_kept {a : Addr} {w : Word} : Triple CPU.Fine (writeWord a w) fun _ => CPU.Kept := by
  refine Triple.bind busWrite_checked fun r => ?_
  cases r with
  | ok u => exact Triple.pure fun cpu h => h.kept
  | error e => exact setPanic_kept nofun

/-- A push leaves a fine CPU or a kept failure. -/
lemma pushWord_checked {v : Word} : Triple CPU.Fine (pushWord v) fun b cpu =>
    if b then cpu.Fine else cpu.Kept := by
  refine Triple.bind (Triple.modify (Q := fun _ => CPU.Fine) fun cpu h => ⟨h.1, h.2⟩) fun _ => ?_
  refine Triple.get_bind fun cpu => ?_
  refine Triple.bind busWrite_checked fun r => ?_
  cases r with
  | ok u => exact Triple.pure fun cpu h => h
  | error e =>
    have hset := @setPanic_kept (fun cpu => cpu.faulted = true) .cannotWriteMemory nofun
    refine Triple.bind hset fun _ => Triple.pure fun cpu h => ?_
    rw [if_neg Bool.false_ne_true]
    exact h

/-- A fetch notices an operand that is not there. -/
lemma fetchOperand_checked :
    Triple (fun cpu => cpu.Fine ∨ cpu.Unreadable) fetchOperand Checked := by
  intro cpu o cpu' h hr
  by_cases hp : cpu.state.panic = .ok
  · rcases hb : busWordRead cpu.heap cpu.bus cpu.pc with _ | (e | w)
    · rw [fetchOperand, bind_apply, cpuFetch_none hp hb] at hr
      cases hr
    · rw [fetchOperand, bind_apply, cpuFetch_error hp hb] at hr
      cases hr
      intro _ h
      cases h
    · rw [fetchOperand_ok hp hb] at hr
      cases hr
      refine h.resolve_right ?_
      rintro ⟨e, he⟩
      rw [hb] at he
      cases he
  · rw [fetchOperand, bind_apply, cpuFetch_panic hp] at hr
    have hr : some ((if cpu.skip.state.panic ≠ .ok then none else some 0), cpu.skip) = some (o, cpu') := hr
    rw [if_pos (show cpu.skip.state.panic ≠ .ok from hp)] at hr
    cases hr
    exact fun _ => hp

/-- A register that is read although the operand behind it is missing. -/
lemma registerGet_ready {r : Byte} : Triple (fun cpu => cpu.Fine ∨ cpu.Unreadable) (registerGet r)
    fun o cpu => match o with
      | some _ => cpu.Fine ∨ cpu.Unreadable
      | none => cpu.Kept := by
  apply Triple.of_run
  intro cpu h
  cases hr : cpu.register r with
  | none => exact ⟨_, _, registerGet_none hr, fun _ => nofun⟩
  | some v => exact ⟨_, _, registerGet_some hr, h.imp (fun h => h.setPanic_ok) fun h => h⟩

/-- What follows a checked step. -/
lemma checked_bind {P : CPU → Prop} {m : Run CPU (Option α)} {f : Option α → Run CPU Unit}
    (hm : Triple P m Checked) (hs : ∀ v, Triple CPU.Fine (f (some v)) fun _ => CPU.Kept)
    (hn : f none = pure ()) : Triple P (m >>= f) fun _ => CPU.Kept := by
  refine Triple.bind hm fun o => ?_
  cases o with
  | some v => exact hs v
  | none =>
    rw [hn]
    exact Triple.pure fun _ h => h

/-! ### Printing and the debugger -/

variable {s : CPU}

/-- A read of the operand leaves the CPU ready. -/
lemma cpuReadPcWord_ready (h : op.takesWord = true) :
    Triple (CPU.Ready op s) (cpuReadPcWord 0) fun _ => CPU.Ready op s := by
  intro cpu w cpu' h0 hr
  rw [cpuReadPcWord_apply] at hr
  by_cases hp : cpu.state.panic = .ok
  · rw [if_neg (not_not.mpr hp)] at hr
    rcases hb : busWordRead cpu.heap cpu.bus cpu.pc with _ | (e | w)
    · rw [busRead_none hb] at hr
      cases hr
    · rw [busRead_error hb] at hr
      cases hr
      exact ⟨⟨h0.1.heap, h0.1.bus, h0.1.registerCount, h0.1.sp⟩, .inr ⟨h, ⟨e, hb⟩, fun h => nomatch h⟩⟩
    · rw [busRead_ok hb] at hr
      cases hr
      exact h0
  · rw [if_pos hp] at hr
    cases hr
    exact h0

/-- So does its printing. -/
lemma printedWord_ready (text : CPU → Word → String) (h : op.takesWord = true) :
    Triple (CPU.Ready op s) (printedWord text) fun _ => CPU.Ready op s := by
  refine Triple.bind (cpuReadPcWord_ready h) fun w => ?_
  exact Triple.get_bind fun cpu => Triple.pure fun _ h => h

/-- A change of the CPU that touches nothing an operation depends on. -/
lemma modify_ready {f : CPU → CPU} (hs : ∀ cpu : CPU, cpu.Same (f cpu))
    (hf : ∀ cpu, (f cpu).state.panic = cpu.state.panic ∧ (f cpu).faulted = cpu.faulted ∧ (f cpu).pc = cpu.pc) :
    Triple (CPU.Ready op s) (modify f) fun _ => CPU.Ready op s := by
  refine Triple.modify fun cpu h => ?_
  have hsame := hs cpu
  have hf := hf cpu
  refine ⟨⟨hsame.heap.trans h.1.heap, hsame.bus.trans h.1.bus, hsame.registerCount.trans h.1.registerCount,
    hsame.sp.trans h.1.sp⟩, h.2.imp (fun h => ⟨hf.1.trans h.1, hf.2.1.trans h.2⟩) fun h => ?_⟩
  obtain ⟨hop, ⟨e, he⟩, hp⟩ := h
  exact ⟨hop, ⟨e, by rw [hsame.heap, hsame.bus, hf.2.2]; exact he⟩, hf.1 ▸ hp⟩

section
variable [Host]

/-- So does the printing of all operands. -/
lemma printedArgs_ready : Triple (CPU.Ready op s) (printedArgs word op) fun _ => CPU.Ready op s := by
  cases op with
  | addRW | andRW | cmpRW | loadRW | movRW | mulRW | orRW | subRW | xorRW | callA | jA | callS | jS | jeqA
  | jneA | jeqS | jneS =>
    exact Triple.bind (printedWord_ready _ rfl) fun _ => Triple.pure fun _ h => h
  | _ => exact Triple.pure fun _ h => h

/-- So does the printing of the instruction. -/
lemma cpuInstructionToString_ready (hop : ops (byteOf word 0) = some op) :
    Triple (CPU.Ready op s) (cpuInstructionToString word) fun _ => CPU.Ready op s := by
  refine Triple.get_bind fun cpu => ?_
  rcases printed_eq hop with hn | hn <;> rw [hn]
  · exact Triple.pure fun _ h => h
  · exact Triple.bind printedArgs_ready fun _ => Triple.pure fun _ h => h

/-- So does the printing in a turn. -/
lemma printInstruction_ready (hop : ops (byteOf word 0) = some op) :
    Triple (CPU.Ready op s) (printInstruction word) fun _ => CPU.Ready op s := by
  refine Triple.get_bind fun cpu => Triple.ite (fun _ => ?_) fun _ => Triple.pure fun _ h => h
  exact Triple.bind (cpuInstructionToString_ready hop) fun _ => Triple.pure fun _ h => h

/-- So does the debugger. -/
lemma trap_ready (hop : ops (byteOf word 0) = some op) :
    Triple (CPU.Ready op s) (trap word) fun _ => CPU.Ready op s := by
  apply trap_triple (cpuInstructionToString_ready hop)
  intro cpu d input b h
  exact ⟨⟨h.1.heap, h.1.bus, h.1.registerCount, h.1.sp⟩, h.2⟩

/-! ### Operations that stop at their first failure -/

/-- What an operation does after it has been printed. -/
lemma print_bind {α : Type} {m : Run CPU α} {Q : α → CPU → Prop} (hop : ops (byteOf word 0) = some op)
    (h : Triple (CPU.Ready op s) m Q) :
    Triple (CPU.Ready op s) (printInstruction word >>= fun _ => m) Q :=
  Triple.bind (printInstruction_ready hop) fun _ => h

omit [Host] in
/-- What an operation without an operand word does is done by a fine CPU. -/
lemma ready_of_fine {α : Type} {m : Run CPU α} {Q : α → CPU → Prop} (hop : op.takesWord = false)
    (h : Triple CPU.Fine m Q) : Triple (CPU.Ready op s) m Q :=
  h.weaken (fun _ h => h.fine hop) fun _ _ h => h

omit [Host] in
/-- The fetch of the operand shows its failure. -/
lemma fetchOperand_ready : Triple (CPU.Ready op s) fetchOperand Checked :=
  fetchOperand_checked.weaken (fun _ h => h.fetches) fun _ _ h => h

omit [Host] in
/-- A change after which nothing can fail. -/
lemma modify_kept {P : CPU → Prop} {f : CPU → CPU} (hP : ∀ cpu, P cpu → cpu.Kept)
    (hf : ∀ cpu, (f cpu).state.panic = cpu.state.panic ∧ (f cpu).faulted = cpu.faulted) :
    Triple P (modify f) fun _ => CPU.Kept := by
  refine Triple.modify fun cpu h hfault => ?_
  rw [(hf cpu).1]
  exact hP cpu h ((hf cpu).2 ▸ hfault)

/-- The operations on two registers. -/
lemma binaryRR_kept {f : Word → Word → Word} (hop : ops (byteOf word 0) = some op)
    (hw : op.takesWord = false) : Triple (CPU.Ready op s) (binaryRR f word) fun _ => CPU.Kept := by
  refine print_bind hop (ready_of_fine hw ?_)
  refine checked_bind registerGet_checked (fun aVal => ?_) rfl
  refine checked_bind registerGet_checked (fun bVal => ?_) rfl
  exact registerSet_kept

/-- The operations on a register and a word. -/
lemma binaryRW_kept {f : Word → Word → Word} (hop : ops (byteOf word 0) = some op) :
    Triple (CPU.Ready op s) (binaryRW f word) fun _ => CPU.Kept := by
  refine print_bind hop ?_
  refine checked_bind fetchOperand_ready (fun value => ?_) rfl
  refine checked_bind registerGet_checked (fun aVal => ?_) rfl
  exact registerSet_kept

/-- The operations on one register. -/
lemma unaryR_kept {f : Word → Word} (hop : ops (byteOf word 0) = some op) (hw : op.takesWord = false) :
    Triple (CPU.Ready op s) (unaryR f word) fun _ => CPU.Kept := by
  refine print_bind hop (ready_of_fine hw ?_)
  refine checked_bind registerGet_checked (fun rVal => ?_) rfl
  exact registerSet_kept

omit [Host] in
/-- A jump to an address. -/
lemma setPc_kept {a : Addr} : Triple CPU.Fine (setPc a) fun _ => CPU.Kept :=
  modify_kept (fun _ h => h.kept) fun _ => ⟨rfl, rfl⟩

/-- The jumps. -/
lemma jump_kept {target : CPU → Word → Addr} (hop : ops (byteOf word 0) = some op) :
    Triple (CPU.Ready op s) (jump target word) fun _ => CPU.Kept := by
  refine print_bind hop ?_
  refine checked_bind fetchOperand_ready (fun address => ?_) rfl
  exact Triple.get_bind fun cpu => setPc_kept

/-- The conditional jumps. -/
lemma jumpIf_kept {zero : Bool} {target : CPU → Word → Addr} (hop : ops (byteOf word 0) = some op) :
    Triple (CPU.Ready op s) (jumpIf zero target word) fun _ => CPU.Kept := by
  refine print_bind hop ?_
  refine Triple.get_bind fun cpu => Triple.ite (fun _ => ?_) fun _ => ?_
  · refine checked_bind fetchOperand_ready (fun address => ?_) rfl
    exact Triple.get_bind fun cpu => setPc_kept
  · exact modify_kept (fun _ h => h.kept) fun _ => ⟨rfl, rfl⟩

omit [Host] in
/-- A call pushes once. -/
lemma callTo_kept {target : CPU → Word → Addr} {a : Word} :
    Triple CPU.Fine (callTo target a) fun _ => CPU.Kept := by
  refine Triple.get_bind fun cpu => Triple.bind pushWord_checked fun b => ?_
  cases b with
  | true => exact Triple.get_bind fun cpu => setPc_kept
  | false => exact Triple.pure fun cpu h => h

omit [Host] in
/-- A push that is not looked at. -/
lemma pushWord_kept {v : Word} : Triple CPU.Fine (do let _ ← pushWord v) fun _ => CPU.Kept := by
  refine Triple.bind pushWord_checked fun b => Triple.pure fun cpu h => ?_
  cases b with
  | true => exact CPU.Fine.kept h
  | false => exact h

omit [Host] in
/-- A return: a word is popped into `pc`. -/
lemma popPc_kept {m : Run CPU Unit} (hm : Triple CPU.Kept m fun _ => CPU.Kept) :
    Triple CPU.Fine (do
      if let some pc ← readWord (← get).sp then
        setPc pc
        moveSp wordSize
        m) fun _ => CPU.Kept := by
  refine Triple.get_bind fun cpu => checked_bind readWord_checked (fun pc => ?_) rfl
  exact Triple.bind setPc_kept fun _ => Triple.bind (modify_kept (fun _ h => h) fun _ => ⟨rfl, rfl⟩) fun _ => hm

/-- The operations on the registers of the stack go on after a failure. -/
def Op.stacks : Op → Bool
  | .pushR | .pushRR | .pushRRR | .pusha | .popR | .popRR | .popRRR | .popa => true
  | _ => false

/-- No operation but those on the stack hides a failure. -/
lemma handler_kept (hop : ops (byteOf word 0) = some op) (hs : Op.stacks op = false) :
    Triple (CPU.Ready op s) (handler op word) fun _ => CPU.Kept := by
  have hdone : Triple (CPU.Ready op s) (pure ()) fun _ => CPU.Kept := Triple.pure fun _ h => h.kept
  cases op with
  | nop | wfi | xbm | xdbg => exact (printInstruction_ready hop).weaken (fun _ h => h) fun _ _ h => h.kept
  | halt | ind | ine | xbrk | xpsd | intB | miB | umiB =>
    exact print_bind hop (modify_kept (fun _ h => h.kept) fun _ => ⟨rfl, rfl⟩)
  | xpse =>
    refine Triple.bind (modify_ready (fun _ => ⟨rfl, rfl, rfl, rfl⟩) fun _ => ⟨rfl, rfl, rfl⟩) fun _ => ?_
    exact (printInstruction_ready hop).weaken (fun _ h => h) fun _ _ h => h.kept
  | panic =>
    refine print_bind hop (Triple.get_bind fun cpu => Triple.ite (fun _ => ?_) fun _ => hdone)
    exact setPanic_kept (by decide)
  | addRR | subRR | mulRR | andRR | orRR | xorRR => exact binaryRR_kept hop rfl
  | addRW | subRW | mulRW | andRW | orRW | xorRW => exact binaryRW_kept hop
  | incR | decR => exact unaryR_kept hop rfl
  | jeqS | jeqA | jneS | jneA => exact jumpIf_kept hop
  | jS | jA => exact jump_kept hop
  | pushR | pushRR | pushRRR | pusha | popR | popRR | popRRR | popa => cases hs
  | pushW =>
    exact print_bind hop (checked_bind fetchOperand_ready (fun val => pushWord_kept) rfl)
  | movRW =>
    exact print_bind hop (checked_bind fetchOperand_ready (fun val => registerSet_kept) rfl)
  | movRR =>
    exact print_bind hop (ready_of_fine rfl
      (checked_bind registerGet_checked (fun value => registerSet_kept) rfl))
  | cmpRR =>
    refine print_bind hop (ready_of_fine rfl (checked_bind registerGet_checked (fun aVal => ?_) rfl))
    refine checked_bind registerGet_checked (fun bVal => ?_) rfl
    exact Triple.modify fun cpu h => CPU.Fine.kept ⟨h.1, h.2⟩
  | cmpRW =>
    refine print_bind hop (Triple.bind (registerGet_ready.weaken (fun _ h => h.fetches) fun _ _ h => h) ?_)
    intro o
    cases o with
    | none => exact Triple.pure fun _ h => h
    | some aVal =>
      refine checked_bind fetchOperand_checked (fun bVal => ?_) rfl
      exact Triple.modify fun cpu h => CPU.Fine.kept ⟨h.1, h.2⟩
  | callS | callA =>
    exact print_bind hop (checked_bind fetchOperand_ready (fun address => callTo_kept) rfl)
  | callR =>
    exact print_bind hop (ready_of_fine rfl
      (checked_bind registerGet_checked (fun address => callTo_kept) rfl))
  | ret => exact print_bind hop (ready_of_fine rfl (popPc_kept (Triple.pure fun _ h => h)))
  | iret => exact print_bind hop (ready_of_fine rfl (popPc_kept (modify_kept (fun _ h => h) fun _ => ⟨rfl, rfl⟩)))
  | storRR =>
    refine print_bind hop (ready_of_fine rfl (checked_bind registerGet_checked (fun address => ?_) rfl))
    exact checked_bind registerGet_checked (fun val => writeWord_kept) rfl
  | storRW =>
    refine print_bind hop (checked_bind fetchOperand_ready (fun address => ?_) rfl)
    exact checked_bind registerGet_checked (fun val => writeWord_kept) rfl
  | loadRR =>
    refine print_bind hop (ready_of_fine rfl (checked_bind registerGet_checked (fun address => ?_) rfl))
    exact checked_bind readWord_checked (fun val => registerSet_kept) rfl
  | loadRW =>
    refine print_bind hop (checked_bind fetchOperand_ready (fun address => ?_) rfl)
    exact checked_bind readWord_checked (fun val => registerSet_kept) rfl
  | loadRRW =>
    refine print_bind hop (Triple.bind (registerGet_ready.weaken (fun _ h => h.fetches) fun _ _ h => h) ?_)
    intro o
    cases o with
    | none => exact Triple.pure fun _ h => h
    | some address =>
      refine checked_bind fetchOperand_checked (fun offset => ?_) rfl
      exact checked_bind readWord_checked (fun val => registerSet_kept) rfl

/-! ### Operations that go on after a failure -/

/-- A failure is hidden. -/
def CPU.Lost (cpu : CPU) : Prop := cpu.faulted = true ∧ cpu.state.panic = .ok

/-- The outcomes of the accesses of an operation, each of which assigns `state.panic`, hide a failure: one
of them fails and the last one succeeds. None of them is `none`, after which the operation does not go on. -/
def Masked (outcomes : List (Option Bool)) : Prop :=
  some false ∈ outcomes ∧ outcomes.getLast? = some (some true) ∧ none ∉ outcomes

instance : DecidablePred Masked := fun _ => inferInstanceAs (Decidable (_ ∧ _))

/-- `Masked` in the middle of an operation: an access may have failed before (`fault`), and the last one
may have succeeded (`ok`). -/
def Hidden : Bool → Prop → List (Option Bool) → Prop
  | fault, ok, [] => fault = true ∧ ok
  | fault, _, some b :: outcomes => Hidden (fault || !b) (b = true) outcomes
  | _, _, none :: _ => False

omit [Host] in
/-- Two ways to say what has happened before. -/
lemma hidden_congr {fault fault' : Bool} {ok ok' : Prop} {outcomes : List (Option Bool)}
    (hf : fault = fault') (hok : ok ↔ ok') : Hidden fault ok outcomes ↔ Hidden fault' ok' outcomes := by
  rw [hf, propext hok]

omit [Host] in
/-- The last outcome decides, whatever has been the case before. -/
lemma hidden_cons {fault b : Bool} {ok : Prop} {outcomes : List (Option Bool)} :
    Hidden fault ok (some b :: outcomes) ↔ (fault = true ∨ some false ∈ some b :: outcomes) ∧
      (some b :: outcomes).getLast? = some (some true) ∧ none ∉ some b :: outcomes := by
  induction outcomes generalizing fault b ok with
  | nil => cases b <;> simp [Hidden]
  | cons o outcomes ih =>
    rw [Hidden]
    cases o with
    | none => simp [Hidden]
    | some b' =>
      rw [ih, List.getLast?_cons_cons]
      cases b <;> simp

omit [Host] in
/-- A whole operation. -/
lemma hidden_none {ok : Prop} {outcomes : List (Option Bool)} : Hidden false ok outcomes ↔ Masked outcomes := by
  cases outcomes with
  | nil => simp [Hidden, Masked]
  | cons o outcomes =>
    cases o with
    | none => simp [Hidden, Masked]
    | some b => rw [hidden_cons, Masked, or_iff_right Bool.false_ne_true]

omit [Host] in
/-- A register can be set if it can be read. -/
lemma setRegister_isSome {r : Byte} {v : Word} :
    (cpu.setRegister r v).isSome = (cpu.register r).isSome := by
  unfold CPU.register CPU.setRegister
  split_ifs <;> rfl

/-- Whether the push of a register succeeds, and `none` for an abort. -/
def pushOutcome (cpu : CPU) (sp : Addr) (r : Byte) : Option Bool :=
  if (cpu.register r).isSome then (writeStatus cpu.heap cpu.bus (sp - wordSize)).map Except.isOk
  else some false

/-- What becomes of the pushes of registers from a stack pointer on. -/
def pushOutcomes (cpu : CPU) : Addr → List Byte → List (Option Bool)
  | _, [] => []
  | sp, r :: rs =>
    pushOutcome cpu sp r ::
      pushOutcomes cpu (if (cpu.register r).isSome then sp - wordSize else sp) rs

/-- What becomes of the pops into registers from a stack pointer on: whether there is each register, and
`none` for a word that cannot be read. -/
def popOutcomes (cpu : CPU) : Addr → List Byte → List (Option Bool)
  | _, [] => []
  | sp, r :: rs =>
    match busWordRead cpu.heap cpu.bus sp with
    | some (.ok w) =>
      some (cpu.register r).isSome :: popOutcomes cpu (if r.toNat = regSP then w else sp + wordSize) rs
    | _ => [none]

omit [Host] in
/-- The outcomes of a push depend on the bus, the shape of the memories and the number of registers. -/
lemma pushOutcomes_congr {cpu' : CPU} (hs : Shape cpu.heap cpu'.heap) (hb : cpu'.bus = cpu.bus)
    (hc : cpu'.registerCount = cpu.registerCount) (sp : Addr) (rs : List Byte) :
    pushOutcomes cpu' sp rs = pushOutcomes cpu sp rs := by
  induction rs generalizing sp with
  | nil => rfl
  | cons r rs ih =>
    have hr := register_isSome_congr hc r
    rw [pushOutcomes, pushOutcomes, pushOutcome, pushOutcome, hr, hb, writeStatus_shape hs, ih]

omit [Host] in
/-- The outcomes of a pop depend on the memories, the bus and the number of registers. -/
lemma popOutcomes_congr {cpu' : CPU} (hh : cpu'.heap = cpu.heap) (hb : cpu'.bus = cpu.bus)
    (hc : cpu'.registerCount = cpu.registerCount) (sp : Addr) (rs : List Byte) :
    popOutcomes cpu' sp rs = popOutcomes cpu sp rs := by
  induction rs generalizing sp with
  | nil => rfl
  | cons r rs ih =>
    rw [popOutcomes, popOutcomes, hh, hb, register_isSome_congr hc]
    split
    · rw [ih]
    · rfl

/-- The run of a push with some outcome. -/
inductive Pushed (cpu : CPU) (r : Byte) : Option Bool → Option (Unit × CPU) → Prop
  | aborted : Pushed cpu r none none
  | done {b : Bool} {cpu' : CPU} (hs : Shape cpu.heap cpu'.heap) (hb : cpu'.bus = cpu.bus)
    (hc : cpu'.registerCount = cpu.registerCount)
    (hsp : cpu'.sp = if (cpu.register r).isSome then cpu.sp - wordSize else cpu.sp)
    (hf : cpu'.faulted = (cpu.faulted || !b)) (hp : cpu'.state.panic = .ok ↔ b = true) :
    Pushed cpu r (some b) (some ((), cpu'))

omit [Host] in
/-- A push has the outcome that is foretold. -/
lemma pushRegister_pushed (cpu : CPU) (r : Byte) :
    Pushed cpu r (pushOutcome cpu cpu.sp r) (pushRegister r cpu) := by
  unfold pushOutcome pushRegister
  rw [bind_apply]
  cases hr : cpu.register r with
  | none =>
    rw [registerGet_none hr, if_neg (show ¬ Option.isSome none = true from Bool.false_ne_true)]
    exact .done (.refl _) rfl rfl (by rw [hr]; rfl) (Bool.or_true _).symm ⟨nofun, nofun⟩
  | some v =>
    rw [registerGet_some hr, if_pos (show (some v).isSome = true from rfl), Option.bind_some]
    have hstatus := @busWordWrite_status _ _ cpu.bus (.refl cpu.heap) (cpu.sp - wordSize) v
    rw [← hstatus]
    show Pushed cpu r _ ((pushWord v (cpu.setPanic .ok)).bind _)
    rcases hw : busWordWrite cpu.heap cpu.bus (cpu.sp - wordSize) v with _ | (e | ⟨heap, conds⟩)
    · rw [@pushWord_none (cpu.setPanic .ok) v hw]
      exact .aborted
    · rw [@pushWord_error (cpu.setPanic .ok) v e hw]
      exact .done (.refl _) rfl rfl (by rw [hr]; rfl) (Bool.or_true _).symm ⟨nofun, nofun⟩
    · rw [@pushWord_ok (cpu.setPanic .ok) v heap conds hw]
      have hshape : Shape cpu.heap heap := busWordWrite_shape hw
      exact .done hshape rfl rfl (by rw [hr]; rfl) (Bool.or_false _).symm ⟨fun _ => rfl, fun _ => rfl⟩

omit [Host] in
/-- Some pushes hide a failure when their outcomes do. -/
lemma pushRegisters_lost {cpu : CPU} {rs : List Byte} :
    (∃ cpu', pushRegisters rs cpu = some ((), cpu') ∧ cpu'.Lost) ↔
      Hidden cpu.faulted (cpu.state.panic = .ok) (pushOutcomes cpu cpu.sp rs) := by
  induction rs generalizing cpu with
  | nil =>
    refine ⟨fun ⟨cpu', hr, h⟩ => ?_, fun h => ⟨cpu, rfl, h⟩⟩
    cases hr
    exact h
  | cons r rs ih =>
    rw [pushRegisters, bind_apply, pushOutcomes]
    have hpushed := pushRegister_pushed cpu r
    revert hpushed
    generalize pushOutcome cpu cpu.sp r = o
    generalize pushRegister r cpu = run
    intro hpushed
    cases hpushed with
    | aborted => exact ⟨fun ⟨_, hr, _⟩ => (nomatch hr), False.elim⟩
    | @done b cpu' hs hb hc hsp hf hp =>
      rw [Hidden, ← hf, ← propext hp, ← hsp, ← pushOutcomes_congr hs hb hc]
      exact ih

omit [Host] in
/-- Some pops hide a failure when their outcomes do. -/
lemma popRegisters_lost {cpu : CPU} {rs : List Byte} :
    (∃ cpu', popRegisters rs cpu = some ((), cpu') ∧ cpu'.Lost) ↔
      Hidden cpu.faulted (cpu.state.panic = .ok) (popOutcomes cpu cpu.sp rs) := by
  induction rs generalizing cpu with
  | nil =>
    refine ⟨fun ⟨cpu', hr, h⟩ => ?_, fun h => ⟨cpu, rfl, h⟩⟩
    cases hr
    exact h
  | cons r rs ih =>
    rw [popRegisters, bind_apply, get_apply, Option.bind_some, bind_apply, popOutcomes]
    rcases hb : busWordRead cpu.heap cpu.bus cpu.sp with _ | (e | w)
    · rw [readWord_none hb]
      exact ⟨fun ⟨_, hr, _⟩ => (nomatch hr), False.elim⟩
    · rw [readWord_error hb]
      refine ⟨fun ⟨cpu', hr, h⟩ => ?_, False.elim⟩
      cases hr
      cases h.2
    · rw [readWord_ok hb, Hidden]
      have hsome := (@setRegister_isSome cpu.up r w).trans (@register_isSome_congr cpu cpu.up rfl r)
      show (∃ cpu', ((registerSet r w cpu.up).bind fun x => popRegisters rs x.2) = _ ∧ _) ↔ _
      cases hset : cpu.up.setRegister r w with
      | none =>
        rw [hset] at hsome
        have hsp : r.toNat ≠ regSP := fun h => by
          rw [CPU.register, if_pos h] at hsome
          cases hsome
        rw [registerSet_none hset, ← hsome, if_neg hsp]
        refine (@ih (cpu.up.fault.setPanic .invalidRegister)).trans ?_
        rw [@popOutcomes_congr cpu (cpu.up.fault.setPanic .invalidRegister) rfl rfl rfl]
        have hok : CpuError.invalidRegister = .ok ↔ (none : Option CPU).isSome = true := by decide
        exact hidden_congr (Bool.or_true _).symm hok
      | some cpu' =>
        obtain ⟨hh, hb, hc, hf, hsp⟩ := setRegister_keeps hset
        rw [hset] at hsome
        rw [registerSet_some hset, ← hsome]
        refine (@ih ((cpu'.flagsUpdate w).setPanic .ok)).trans ?_
        rw [@popOutcomes_congr cpu ((cpu'.flagsUpdate w).setPanic .ok) hh hb hc]
        show Hidden cpu'.faulted _ (popOutcomes cpu cpu'.sp rs) ↔ _
        rw [hf, hsp]
        exact hidden_congr (Bool.or_false _).symm ⟨fun _ => rfl, fun _ => rfl⟩

/-- The outcomes of the accesses of an operation on the registers of the stack. -/
def outcomes (cpu : CPU) (word : Word) : Op → List (Option Bool)
  | .pushR => pushOutcomes cpu cpu.sp [byteOf word 1]
  | .pushRR => pushOutcomes cpu cpu.sp [byteOf word 1, byteOf word 2]
  | .pushRRR => pushOutcomes cpu cpu.sp [byteOf word 1, byteOf word 2, byteOf word 3]
  | .pusha => pushOutcomes cpu cpu.sp (generalRegisters cpu.registerCount)
  | .popR => popOutcomes cpu cpu.sp [byteOf word 1]
  | .popRR => popOutcomes cpu cpu.sp [byteOf word 1, byteOf word 2]
  | .popRRR => popOutcomes cpu cpu.sp [byteOf word 1, byteOf word 2, byteOf word 3]
  | .popa => popOutcomes cpu cpu.sp (generalRegisters cpu.registerCount).reverse
  | _ => []

/-- The outcomes of an operation are the same before and after it has been printed. -/
lemma outcomes_same {cpu : CPU} (h : s.Same cpu) (word : Word) (op : Op) :
    outcomes cpu word op = outcomes s word op := by
  have hpush := @pushOutcomes_congr s cpu (h.heap ▸ .refl _) h.bus h.registerCount
  have hpop := @popOutcomes_congr s cpu h.heap h.bus h.registerCount
  cases op with
  | pushR | pushRR | pushRRR => rw [outcomes, hpush, h.sp, outcomes]
  | popR | popRR | popRRR => rw [outcomes, hpop, h.sp, outcomes]
  | pusha => rw [outcomes, hpush, h.sp, h.registerCount, outcomes]
  | popa => rw [outcomes, hpop, h.sp, h.registerCount, outcomes]
  | _ => rfl

omit [Host] in
/-- The operations on the stack have no word. -/
lemma takesWord_stacks (h : Op.stacks op = true) : op.takesWord = false := by
  revert h
  cases op <;> decide

/-- An operation on the stack hides a failure if its outcomes do. -/
lemma stack_lost {cpu : CPU} (hop : ops (byteOf word 0) = some op) (hs : Op.stacks op = true) (h : cpu.Fine) :
    (∃ cpu', handler op word cpu = some ((), cpu') ∧ cpu'.Lost) ↔ Masked (outcomes cpu word op) := by
  have hprint : printInstruction word cpu = some ((), cpu) :=
    printInstruction_pure hop h.1 fun hw => absurd hw (by rw [takesWord_stacks hs]; decide)
  have hpush (rs : List Byte) := @pushRegisters_lost cpu rs
  have hpop (rs : List Byte) := @popRegisters_lost cpu rs
  simp only [h.2, hidden_none] at hpush hpop
  cases op with
  | pushR | pushRR | pushRRR | pusha =>
    show (∃ cpu', (printInstruction word cpu).bind _ = _ ∧ _) ↔ _
    rw [hprint]
    exact hpush _
  | popR | popRR | popRRR | popa =>
    show (∃ cpu', (printInstruction word cpu).bind _ = _ ∧ _) ↔ _
    rw [hprint]
    exact hpop _
  | _ => cases hs

omit [Host] in
/-- A failure that shows is not hidden. -/
lemma CPU.Kept.not_lost {cpu : CPU} (h : cpu.Kept) : ¬ cpu.Lost := fun hl => h hl.1 hl.2

/-- An operation hides a failure exactly when the outcomes of its accesses do. -/
lemma handler_lost {cpu : CPU} (hop : ops (byteOf word 0) = some op) (h : CPU.Ready op s cpu) :
    (∃ cpu', handler op word cpu = some ((), cpu') ∧ cpu'.Lost) ↔ Masked (outcomes s word op) := by
  cases hs : Op.stacks op with
  | true => rw [stack_lost hop hs (h.fine (takesWord_stacks hs)), outcomes_same h.1]
  | false =>
    have hnil : outcomes s word op = [] := by cases op with
      | pushR | pushRR | pushRRR | pusha | popR | popRR | popRRR | popa => cases hs
      | _ => rfl
    rw [hnil]
    refine ⟨fun ⟨cpu', hr, hl⟩ => ?_, fun hm => absurd hm.1 List.not_mem_nil⟩
    exact (CPU.Kept.not_lost (handler_kept hop hs h hr) hl).elim

/-- An execution hides a failure if the outcomes of its operation do. -/
lemma execute_lost {cpu : CPU} (h : cpu.Fine) :
    (∃ cpu', execute word cpu = some ((), cpu') ∧ cpu'.Lost) ↔
      ∃ op, ops (byteOf word 0) = some op ∧ (trap word cpu).isSome = true ∧ Masked (outcomes cpu word op) := by
  rw [execute, bind_apply, cpuDecode_ok h.1, Option.bind_some]
  cases hop : ops (byteOf word 0) with
  | none =>
    constructor
    · rintro ⟨cpu', hr, hl⟩
      cases hr
      cases hl.2
    · rintro ⟨op, hop, _⟩
      cases hop
  | some op =>
    show (∃ cpu', (trap word cpu).bind _ = _ ∧ _) ↔ _
    cases ht : trap word cpu with
    | none =>
      constructor
      · rintro ⟨_, hr, _⟩
        cases hr
      · rintro ⟨_, _, hr, _⟩
        cases hr
    | some r =>
      have hlost := handler_lost hop (trap_ready hop h.ready ht)
      constructor
      · rintro ⟨cpu', hr, hl⟩
        obtain ⟨x, hx, hr⟩ := Option.bind_eq_some_iff.mp (show (handler op word r.2).bind _ = _ from hr)
        cases hr
        exact ⟨op, rfl, rfl, hlost.mp ⟨x.2, hx, hl⟩⟩
      · rintro ⟨op', ho, _, hm⟩
        cases ho
        obtain ⟨cpu', hr, hl⟩ := hlost.mpr hm
        refine ⟨{ cpu' with debug := { cpu'.debug with step := cpu'.debug.step + 1 } }, ?_, hl⟩
        show (handler op word r.2).bind _ = _
        rw [hr]
        rfl

/-! ### A turn of the loop -/

/-- The CPU before anything has failed in a turn. -/
def CPU.clear (cpu : CPU) : CPU := { cpu with faulted := false }

/-- The CPU that fetches in a turn, unless it fails to enter an interrupt. -/
def CPU.fetching (cpu : CPU) : Option CPU :=
  if cpu.flags.interruptsEnabled && picInterruptActive cpu.pic cpu.heap then
    match busWordWrite cpu.heap cpu.bus (cpu.sp - wordSize) cpu.pc with
    | some (.ok (heap, conds)) => some (cpu.enter heap conds)
    | _ => none
  else some cpu

/-- No failure of a turn is lost: `state.panic` shows it at the end, and nothing is executed after it. -/
def FaultKept (cpu : CPU) : Prop :=
  ∀ cpu', cpuLoopBody cpu.clear = some ((), cpu') → cpu'.faulted = true →
    cpu'.state.panic ≠ .ok ∧ ∀ n, cpuTurns n cpu' = some ((), cpu')

/-- The turn gets to an operation that hides a failure: the word it fetches is decoded, the debugger
returns, and the outcomes of the operation are masked. -/
def LosesFault (cpu : CPU) : Prop :=
  ∃ s w op, cpu.clear.fetching = some s ∧ busWordRead s.heap s.bus s.pc = some (.ok w) ∧
    ops (byteOf (htov w) 0) = some op ∧ (trap (htov w) s.skip).isSome = true ∧
    Masked (outcomes s (htov w) op)

/-- With an error nothing is executed. -/
lemma fetchExecute_panic {cpu : CPU} (hp : cpu.state.panic ≠ .ok) : fetchExecute cpu = some ((), cpu.skip) := by
  rw [fetchExecute, bind_apply, cpuFetch_panic hp]
  show (if cpu.skip.state.panic = .ok then execute (htov 0) else pure ()) cpu.skip = _
  rw [if_neg (show ¬ cpu.skip.state.panic = .ok from hp)]
  rfl

/-- A fetch with its execution hides a failure if the outcomes of the operation do. -/
lemma fetchExecute_lost {cpu : CPU} (h : cpu.Fine) :
    (∃ cpu', fetchExecute cpu = some ((), cpu') ∧ cpu'.Lost) ↔
      ∃ w op, busWordRead cpu.heap cpu.bus cpu.pc = some (.ok w) ∧ ops (byteOf (htov w) 0) = some op ∧
        (trap (htov w) cpu.skip).isSome = true ∧ Masked (outcomes cpu (htov w) op) := by
  rcases hb : busWordRead cpu.heap cpu.bus cpu.pc with _ | (e | w)
  · rw [fetchExecute, bind_apply, cpuFetch_none h.1 hb]
    constructor
    · rintro ⟨_, hr, _⟩
      cases hr
    · rintro ⟨_, _, hr, _⟩
      cases hr
  · rw [fetchExecute, bind_apply, cpuFetch_error h.1 hb]
    constructor
    · rintro ⟨cpu', hr, hl⟩
      cases hr
      cases hl.2
    · rintro ⟨_, _, hr, _⟩
      cases hr
  · have hsame (op : Op) : outcomes cpu.skip (htov w) op = outcomes cpu (htov w) op :=
      @outcomes_same cpu _ cpu.skip ⟨rfl, rfl, rfl, rfl⟩ _ _
    rw [fetchExecute_ok h.1 hb, @execute_lost (htov w) _ cpu.skip ⟨h.1, h.2⟩]
    simp only [hsame]
    constructor
    · rintro ⟨op, hop, ht, hm⟩
      exact ⟨w, op, rfl, hop, ht, hm⟩
    · rintro ⟨w', op, hw, hop, ht, hm⟩
      cases hw
      exact ⟨op, hop, ht, hm⟩

omit [Host] in
/-- Nothing has failed when a turn goes on to its fetch. -/
lemma fetching_fine {cpu : CPU} (h : cpu.Fine) (hs : cpu.fetching = some s) : s.Fine := by
  unfold CPU.fetching at hs
  split at hs
  · split at hs <;> cases hs
    exact ⟨h.1, h.2⟩
  · cases hs
    exact h

/-- A turn that hides a failure fetches. -/
lemma cpuLoopBody_lost {cpu : CPU} (h : cpu.Fine) :
    (∃ cpu', cpuLoopBody cpu = some ((), cpu') ∧ cpu'.Lost) ↔
      ∃ s, cpu.fetching = some s ∧ s.Fine ∧ ∃ cpu', fetchExecute s = some ((), cpu') ∧ cpu'.Lost := by
  rw [cpuLoopBody_eq, CPU.fetching]
  split
  · rcases hw : busWordWrite cpu.heap cpu.bus (cpu.sp - wordSize) cpu.pc with _ | (e | ⟨heap, conds⟩)
    · rw [interruptEntry_none hw]
      exact ⟨fun ⟨_, hr, _⟩ => (nomatch hr), fun ⟨_, hs, _⟩ => (nomatch hs)⟩
    · have hpanic : (cpu.acknowledge.fault.setPanic .cannotWriteMemory).state.panic ≠ .ok :=
        show CpuError.cannotWriteMemory ≠ .ok by decide
      rw [interruptEntry_error hw, Option.bind_some, fetchExecute_panic hpanic]
      refine ⟨fun ⟨cpu', hr, hl⟩ => ?_, fun ⟨_, hs, _⟩ => (nomatch hs)⟩
      cases hr
      cases hl.2
    · rw [interruptEntry_ok hw]
      refine ⟨fun hl => ⟨_, rfl, ⟨h.1, h.2⟩, hl⟩, fun ⟨s, hs, _, hl⟩ => ?_⟩
      cases hs
      exact hl
  · refine ⟨fun hl => ⟨_, rfl, h, hl⟩, fun ⟨s, hs, _, hl⟩ => ?_⟩
    cases hs
    exact hl

/-- A turn keeps its failures exactly when it gets to no operation that hides one. -/
theorem faultKept_iff {cpu : CPU} (hp : cpu.state.panic = .ok) : FaultKept cpu ↔ ¬ LosesFault cpu := by
  have hlost : (∃ cpu', cpuLoopBody cpu.clear = some ((), cpu') ∧ cpu'.Lost) ↔ LosesFault cpu := by
    rw [@cpuLoopBody_lost _ cpu.clear ⟨hp, rfl⟩]
    constructor
    · rintro ⟨s, hs, hfine, hl⟩
      obtain ⟨w, op, h⟩ := (fetchExecute_lost hfine).mp hl
      exact ⟨s, w, op, hs, h⟩
    · rintro ⟨s, w, op, hs, h⟩
      have hfine : s.Fine := @fetching_fine _ cpu.clear ⟨hp, rfl⟩ hs
      exact ⟨s, hs, hfine, (fetchExecute_lost hfine).mpr ⟨w, op, h⟩⟩
  rw [← hlost]
  constructor
  · rintro hkept ⟨cpu', hr, hl⟩
    exact (hkept cpu' hr hl.1).1 hl.2
  · intro h cpu' hr hf
    have hpanic : cpu'.state.panic ≠ .ok := fun hp => h ⟨cpu', hr, hf, hp⟩
    exact ⟨hpanic, cpuTurns_panic hpanic⟩

end

/-- A machine that runs `PUSH ra, rb`. -/
def pushCpu (a b : Byte) : CPU :=
  smallCpu fun _ => { smallHeap 0 with raw := fun _ => Op.bytecode .pushRR ++ a ++ b ++ (0 : Byte) }

/-- The word at 0. -/
lemma pushCpu_read (a b : Byte) : busWordRead (pushCpu a b).heap (pushCpu a b).bus 0 =
    some (.ok (Op.bytecode .pushRR ++ a ++ b ++ (0 : Byte))) := rfl

/-- The failure of the second push shows. -/
theorem faultKept_push : @FaultKept ⟨.little⟩ (pushCpu 0 40) := by
  refine (@faultKept_iff ⟨.little⟩ (pushCpu 0 40) rfl).mpr ?_
  rintro ⟨s, w, op, hs, hw, hop, _, hm⟩
  cases hs
  cases (pushCpu_read 0 40).symm.trans hw
  cases (show @ops _ = some .pushRR from rfl).symm.trans hop
  exact absurd hm (by decide +kernel)

/-- The failure of the first push is lost. -/
theorem not_faultKept_push : ¬ @FaultKept ⟨.little⟩ (pushCpu 40 0) := by
  have hrun : (@cpuLoopBody ⟨.little⟩ (pushCpu 40 0).clear).map (fun x => (x.2.faulted, x.2.state.panic)) =
      some (true, .ok) := by decide +kernel
  obtain ⟨⟨_, cpu'⟩, hx, he⟩ := Option.map_eq_some_iff.mp hrun
  obtain ⟨hf, hp⟩ := Prod.mk.inj he
  exact fun h => (h cpu' hx hf).1 hp

end Thorium.Vm
