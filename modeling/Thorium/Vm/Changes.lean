import Thorium.Vm.Step

/-!
# What the operations change

An operation changes the CPU by a few kinds of steps, such as an assignment to a register or a write on the
bus. `Op.kinds` lists those of each operation, and `handler_changes` says that there are no others. What the
steps of some kinds preserve is preserved by the operations with these kinds.
-/

namespace Thorium.Vm
open Thorium.Isa Thorium.Run

/-- The kinds of changes. -/
inductive Kind where
  | error | pc | sp | register | compare | store | mask | trigger | enable | disable | running | debug
  | acknowledge
  deriving DecidableEq, Repr

/-- A change of a kind. -/
inductive Change : Kind → CPU → CPU → Prop where
  | fault (s) : Change .error s s.fault
  | panic (s e) : Change .error s (s.setPanic e)
  | pc (s a) : Change .pc s { s with pc := a }
  | sp (s a) : Change .sp s { s with sp := a }
  | register {s s' r v} : s.setRegister r v = some s' → Change .register s (s'.flagsUpdate v)
  | compare (s v) : Change .compare s (s.flagsUpdate v)
  | store {s a w heap conds} : busWordWrite s.heap s.bus a w = some (.ok (heap, conds)) →
    Change .store s (s.stored heap conds)
  | mask (s n w) : Change .mask s { s with heap := s.pic.setMask s.heap n w }
  | trigger (s i conds) : Change .trigger s
    { s with pic := picInterruptTrigger s.pic i, signals := s.signals ++ conds }
  | enable (s) : Change .enable s { s with flags := { s.flags with interruptsEnabled := true } }
  | disable (s) : Change .disable s { s with flags := { s.flags with interruptsEnabled := false } }
  | running (s b) : Change .running s (s.setRunning b)
  | debug (s d input) : Change .debug s { s with debug := d, input := input }
  | acknowledge (s) : Change .acknowledge s s.acknowledge

/-- A change of one of some kinds. -/
def Changes (kinds : List Kind) (s s' : CPU) : Prop := ∃ k ∈ kinds, Change k s s'

/-- A computation that makes changes of some kinds only. -/
abbrev Changing {α : Type} (kinds : List Kind) (m : Run CPU α) : Prop := Within (Changes kinds) m

section
variable {α : Type} {kinds kinds' : List Kind}

/-- A computation with more kinds. -/
lemma Changing.weaken {m : Run CPU α} (hm : Changing kinds m) (h : kinds ⊆ kinds') : Changing kinds' m := by
  apply hm.mono
  rintro s s' ⟨k, hk, hc⟩
  exact ⟨k, h hk, hc⟩

/-- A single change. -/
lemma Changing.step {f : CPU → CPU} {k : Kind} (hk : k ∈ kinds) (hf : ∀ s, Change k s (f s)) :
    Changing kinds (modify f) :=
  Within.modify fun s => ⟨k, hk, hf s⟩

/-- A change of one of some kinds that does not report an unknown opcode. -/
def Operates (kinds : List Kind) (s s' : CPU) : Prop :=
  Changes kinds s s' ∧ (s'.state.panic = .unimplementedOpcode → s.state.panic = .unimplementedOpcode)

/-- A computation that makes such changes only. -/
abbrev Operating (kinds : List Kind) (m : Run CPU α) : Prop := Within (Operates kinds) m

/-- An operation makes the changes that it makes as part of a turn. -/
lemma Operating.changing {m : Run CPU α} (hm : Operating kinds m) : Changing kinds m := hm.mono fun _ _ h => h.1

/-- No other opcode becomes unknown. -/
lemma Operating.known {m : Run CPU α} (hm : Operating kinds m) :
    Triple (fun s => s.state.panic ≠ .unimplementedOpcode) m fun _ s => s.state.panic ≠ .unimplementedOpcode :=
  hm.invariant fun _ _ h hs he => hs (h.2 he)

/-- Only an error changes `state.panic`. -/
lemma Change.panic_eq {k : Kind} {s s' : CPU} (h : Change k s s') (hk : k ≠ .error) :
    s'.state.panic = s.state.panic := by
  cases h with
  | fault | panic => exact absurd rfl hk
  | register hset =>
    obtain ⟨_, _, _, _, _, _, _, rfl⟩ := setRegister_eq hset
    rfl
  | _ => rfl

/-- A single change that is no error. -/
lemma Operating.step {f : CPU → CPU} {k : Kind} (hk : k ∈ kinds) (hne : k ≠ .error)
    (hf : ∀ s, Change k s (f s)) : Operating kinds (modify f) :=
  Within.modify fun s => ⟨⟨k, hk, hf s⟩, fun h => ((hf s).panic_eq hne).symm.trans h⟩

end

/-! ### The primitive steps -/

section
variable {kinds : List Kind} (he : .error ∈ kinds)
include he

/-- Any other error is an error of an operation. -/
lemma setPanic_changes {e : CpuError} (hne : e ≠ .unimplementedOpcode) : Operating kinds (setPanic e) :=
  Within.modify fun s => ⟨⟨_, he, .panic s e⟩, fun h => absurd h hne⟩

/-- A read of the bus may fail. -/
lemma busRead_changes (a : Addr) : Operating kinds (busRead a) := by
  intro s r s' hr
  rcases hb : busWordRead s.heap s.bus a with _ | (e | w)
  · rw [busRead_none hb] at hr
    cases hr
  · rw [busRead_error hb] at hr
    cases hr
    exact .single ⟨⟨_, he, .fault s⟩, id⟩
  · rw [busRead_ok hb] at hr
    cases hr
    exact .refl

/-- A write may set the word, or fail. -/
lemma busWrite_changes (hs : .store ∈ kinds) (a : Addr) (w : Word) : Operating kinds (busWrite a w) := by
  intro s r s' hr
  rcases hb : busWordWrite s.heap s.bus a w with _ | (e | ⟨heap, conds⟩)
  · rw [busWrite_none hb] at hr
    cases hr
  · rw [busWrite_error hb] at hr
    cases hr
    exact .single ⟨⟨_, he, .fault s⟩, id⟩
  · rw [busWrite_ok hb] at hr
    cases hr
    exact .single ⟨⟨_, hs, .store hb⟩, id⟩

/-- A fetch through `pc` reads only. -/
lemma cpuReadPcWord_changes (index : Byte) : Operating kinds (cpuReadPcWord index) := by
  refine Within.get_bind fun s => Within.ite (Within.pure _) ((busRead_changes he _).bind fun r => ?_)
  cases r with
  | ok word => exact Within.pure _
  | error e => exact (setPanic_changes he (by decide)).bind fun _ => Within.pure _

/-- The fetch of a word moves `pc` on. -/
lemma cpuFetch_changes (hp : .pc ∈ kinds) : Operating kinds cpuFetch := by
  apply (cpuReadPcWord_changes he 0).bind
  intro word
  exact Within.bind (Operating.step hp (by decide) fun s => .pc s _) fun _ => Within.pure _

/-- The fetch of an operand moves `pc` on. -/
lemma fetchOperand_changes (hp : .pc ∈ kinds) : Operating kinds fetchOperand :=
  (cpuFetch_changes he hp).bind fun _ => Within.get_bind fun _ => Within.pure _

/-- A read of a register may fail. -/
lemma registerGet_changes (r : Byte) : Operating kinds (registerGet r) := by
  intro s v s' hr
  cases hv : s.register r with
  | none =>
    rw [registerGet_none hv] at hr
    cases hr
    exact .tail (.single ⟨⟨_, he, .fault s⟩, id⟩) ⟨⟨_, he, .panic _ _⟩, nofun⟩
  | some v =>
    rw [registerGet_some hv] at hr
    cases hr
    exact .single ⟨⟨_, he, .panic s _⟩, nofun⟩

/-- A write of a register sets it with its flags, or fails. -/
lemma registerSet_changes (hr : .register ∈ kinds) (r : Byte) (v : Word) : Operating kinds (registerSet r v) := by
  intro s u s' hrun
  cases hv : s.setRegister r v with
  | none =>
    rw [registerSet_none hv] at hrun
    cases hrun
    exact .tail (.single ⟨⟨_, he, .fault s⟩, id⟩) ⟨⟨_, he, .panic _ _⟩, nofun⟩
  | some s1 =>
    rw [registerSet_some hv] at hrun
    cases hrun
    have hpanic : (s1.flagsUpdate v).state.panic = s.state.panic := (Change.register hv).panic_eq (by decide)
    exact .tail (.single ⟨⟨_, hr, .register hv⟩, hpanic.symm.trans⟩) ⟨⟨_, he, .panic _ _⟩, nofun⟩

/-- A read changes nothing else. -/
lemma readWord_changes (a : Addr) : Operating kinds (readWord a) := by
  apply (busRead_changes he a).bind
  intro r
  cases r with
  | ok word => exact Within.pure _
  | error e => exact (setPanic_changes he (by decide)).bind fun _ => Within.pure _

/-- A write changes nothing else. -/
lemma writeWord_changes (hs : .store ∈ kinds) (a : Addr) (w : Word) : Operating kinds (writeWord a w) := by
  apply (busWrite_changes he hs a w).bind
  intro r
  cases r with
  | ok u => exact Within.pure _
  | error e => exact setPanic_changes he (by decide)

/-- A push moves `sp` and stores. -/
lemma pushWord_changes (hsp : .sp ∈ kinds) (hs : .store ∈ kinds) (w : Word) : Operating kinds (pushWord w) := by
  refine Within.bind (Operating.step hsp (by decide) fun s => .sp s _) fun _ => Within.get_bind fun s => ?_
  apply (busWrite_changes he hs _ w).bind
  intro r
  cases r with
  | ok u => exact Within.pure _
  | error e => exact (setPanic_changes he (by decide)).bind fun _ => Within.pure _

/-- A push of some registers moves `sp` and stores. -/
lemma pushRegisters_changes (hsp : .sp ∈ kinds) (hs : .store ∈ kinds) (rs : List Byte) :
    Operating kinds (pushRegisters rs) := by
  induction rs with
  | nil => exact Within.pure _
  | cons r rs ih =>
    have hpush (v : Word) : Operating kinds (do let _ ← pushWord v) :=
      (pushWord_changes he hsp hs v).bind fun _ => Within.pure _
    exact ((registerGet_changes he r).bind_some hpush rfl).bind fun _ => ih

/-- A pop of some registers moves `sp` and sets registers. -/
lemma popRegisters_changes (hsp : .sp ∈ kinds) (hr : .register ∈ kinds) (rs : List Byte) :
    Operating kinds (popRegisters rs) := by
  induction rs with
  | nil => exact Within.pure _
  | cons r rs ih =>
    refine Within.get_bind fun s => (readWord_changes he _).bind_some (fun v => ?_) rfl
    apply Within.bind (Operating.step hsp (by decide) fun s => .sp s _)
    intro _
    exact (registerSet_changes he hr r v).bind fun _ => ih

/-- A call pushes and jumps. -/
lemma callTo_changes (hp : .pc ∈ kinds) (hsp : .sp ∈ kinds) (hs : .store ∈ kinds) (target : CPU → Word → Addr)
    (a : Word) : Operating kinds (callTo target a) := by
  refine Within.get_bind fun s => (pushWord_changes he hsp hs _).bind fun b => Within.ite ?_ (Within.pure _)
  exact Within.get_bind fun s => Operating.step hp (by decide) fun s => .pc s _

/-- The entry of an interrupt acknowledges it, stores and jumps. -/
lemma interruptEntry_changes (ha : .acknowledge ∈ kinds) (hs : .store ∈ kinds) (hp : .pc ∈ kinds) :
    Operating kinds interruptEntry := by
  refine Within.bind (Operating.step ha (by decide) .acknowledge) fun _ => Within.get_bind fun s => ?_
  apply (busWrite_changes he hs _ _).bind
  intro r
  cases r with
  | ok u => exact Operating.step hp (by decide) fun s => .pc s _
  | error e => exact setPanic_changes he (by decide)

end

/-! ### Printing and debugging -/

section
variable {kinds : List Kind} [Host] {word : Word}

/-- Printing the operands may fail. -/
lemma printedArgs_changes (he : .error ∈ kinds) (op : Op) : Operating kinds (printedArgs word op) := by
  have hword (text : CPU → Word → String) : Operating kinds (printedWord text) :=
    (cpuReadPcWord_changes he 0).bind fun _ => Within.get_bind fun _ => Within.pure _
  cases op with
  | addRW | andRW | cmpRW | loadRW | movRW | mulRW | orRW | subRW | xorRW | callA | jA | callS | jS | jeqA
  | jneA | jeqS | jneS => exact (hword _).bind fun _ => Within.pure _
  | _ => exact Within.pure _

/-- Printing an instruction may fail. -/
lemma cpuInstructionToString_changes (he : .error ∈ kinds) : Operating kinds (cpuInstructionToString word) := by
  apply Within.get_bind
  intro s
  cases printed (byteOf word 0) with
  | none => exact Within.pure _
  | some op => exact (printedArgs_changes he op).bind fun _ => Within.pure _

/-- So may the printing in a turn. -/
lemma printInstruction_changes (he : .error ∈ kinds) : Operating kinds (printInstruction word) :=
  Within.get_bind fun _ =>
    Within.ite ((cpuInstructionToString_changes he).bind fun _ => Within.pure _) (Within.pure _)

/-- The dialogue of the debugger changes the debugging state. -/
lemma cpuDebuggerLoop_changes (he : .error ∈ kinds) (hd : .debug ∈ kinds) (input : List Command) :
    Operating kinds (cpuDebuggerLoop word input) := by
  induction input with
  | nil => exact Within.stop
  | cons command input ih =>
    apply (cpuInstructionToString_changes he).bind
    intro _
    apply Within.bind (Operating.step hd (by decide) fun s => .debug s s.debug _)
    intro _
    cases command with
    | «continue» =>
      exact Within.bind (Operating.step hd (by decide) fun s => .debug s _ s.input) fun _ => Within.pure _
    | step => exact Within.pure _
    | quit => exact Within.pure _
    | memory first count =>
      apply Within.get_bind
      intro s
      cases busDump s.heap s.bus first count with
      | some u => exact ih
      | none => exact Within.stop
    | print => exact ih

/-- The call of the debugger may set `running` as well. -/
lemma trap_changes (he : .error ∈ kinds) (hd : .debug ∈ kinds) (hr : .running ∈ kinds) :
    Operating kinds (trap word) := by
  refine Within.get_bind fun s => Within.ite ?_ (Within.pure _)
  apply Within.bind (Within.get_bind fun s => cpuDebuggerLoop_changes he hd s.input)
  intro running
  exact Operating.step hr (by decide) fun s => .running s _

/-! ### Operations -/

/-- The kinds of changes of an operation. -/
def opKinds : Op → List Kind
  | .nop | .wfi | .xbm | .xdbg | .panic => [.error]
  | .halt => [.error, .running]
  | .addRR | .subRR | .mulRR | .andRR | .orRR | .xorRR | .incR | .decR | .movRR | .loadRR => [.error, .register]
  | .addRW | .subRW | .mulRW | .andRW | .orRW | .xorRW | .movRW | .loadRW | .loadRRW => [.error, .pc, .register]
  | .cmpRR => [.error, .compare]
  | .cmpRW => [.error, .pc, .compare]
  | .jeqS | .jeqA | .jneS | .jneA | .jS | .jA => [.error, .pc]
  | .pushR | .pushRR | .pushRRR | .pusha => [.error, .sp, .store]
  | .pushW | .callS | .callA | .callR => [.error, .pc, .sp, .store]
  | .popR | .popRR | .popRRR | .popa => [.error, .sp, .register]
  | .ret => [.error, .pc, .sp]
  | .iret => [.error, .pc, .sp, .enable]
  | .intB => [.error, .trigger]
  | .storRR => [.error, .store]
  | .storRW => [.error, .pc, .store]
  | .miB | .umiB => [.error, .mask]
  | .ind => [.error, .disable]
  | .ine => [.error, .enable]
  | .xpse | .xpsd | .xbrk => [.error, .debug]

/-- What an operation does after it has been printed. -/
lemma print_changes (he : .error ∈ kinds) {m : Run CPU Unit} (hm : Operating kinds m) :
    Operating kinds (printInstruction word >>= fun _ => m) :=
  (printInstruction_changes he).bind fun _ => hm

/-- The operations on two registers. -/
lemma binaryRR_changes (he : .error ∈ kinds) (hr : .register ∈ kinds) (f : Word → Word → Word) :
    Operating kinds (binaryRR f word) :=
  print_changes he ((registerGet_changes he _).bind_some (fun _ =>
    (registerGet_changes he _).bind_some (fun _ => registerSet_changes he hr _ _) rfl) rfl)

/-- The operations on a register and a word. -/
lemma binaryRW_changes (he : .error ∈ kinds) (hp : .pc ∈ kinds) (hr : .register ∈ kinds)
    (f : Word → Word → Word) : Operating kinds (binaryRW f word) :=
  print_changes he ((fetchOperand_changes he hp).bind_some (fun _ =>
    (registerGet_changes he _).bind_some (fun _ => registerSet_changes he hr _ _) rfl) rfl)

/-- The operations on one register. -/
lemma unaryR_changes (he : .error ∈ kinds) (hr : .register ∈ kinds) (f : Word → Word) :
    Operating kinds (unaryR f word) :=
  print_changes he ((registerGet_changes he _).bind_some (fun _ => registerSet_changes he hr _ _) rfl)

/-- A jump sets `pc`. -/
lemma jump_changes (he : .error ∈ kinds) (hp : .pc ∈ kinds) (target : CPU → Word → Addr) :
    Operating kinds (jump target word) :=
  print_changes he ((fetchOperand_changes he hp).bind_some (fun _ => Within.get_bind fun _ =>
    Operating.step hp (by decide) fun s => .pc s _) rfl)

/-- So does a jump that may not be taken. -/
lemma jumpIf_changes (he : .error ∈ kinds) (hp : .pc ∈ kinds) (z : Bool) (target : CPU → Word → Addr) :
    Operating kinds (jumpIf z target word) := by
  refine print_changes he (Within.get_bind fun _ => Within.ite ?_ ?_)
  · exact (fetchOperand_changes he hp).bind_some (fun _ => Within.get_bind fun _ =>
      Operating.step hp (by decide) fun s => .pc s _) rfl
  · exact Operating.step hp (by decide) fun s => .pc s _

/-- An operation makes changes of its kinds only, and does not report an unknown opcode. -/
theorem handler_operates (op : Op) : Operating (opKinds op) (handler op word) := by
  have he : .error ∈ opKinds op := by cases op <;> decide
  have hpush (hsp : .sp ∈ opKinds op) (hs : .store ∈ opKinds op) (v : Word) :
      Operating (opKinds op) (do let _ ← pushWord v) :=
    (pushWord_changes he hsp hs v).bind fun _ => Within.pure _
  -- The kinds of each operation are read off `opKinds`, by `decide`.
  cases op with
  | nop | wfi | xbm | xdbg => exact printInstruction_changes he
  | halt => exact print_changes he (Operating.step (by decide) (by decide) fun s => .running s false)
  | panic =>
    exact print_changes he (Within.get_bind fun _ => Within.ite (setPanic_changes he (by decide)) (Within.pure _))
  | ind => exact print_changes he (Operating.step (by decide) (by decide) .disable)
  | ine => exact print_changes he (Operating.step (by decide) (by decide) .enable)
  | xbrk | xpsd => exact print_changes he (Operating.step (by decide) (by decide) fun s => .debug s _ s.input)
  | xpse =>
    apply Within.bind (Operating.step (by decide) (by decide) fun s => .debug s _ s.input)
    exact fun _ => printInstruction_changes he
  | intB => exact print_changes he (Operating.step (by decide) (by decide) fun s => .trigger s _ _)
  | miB | umiB => exact print_changes he (Operating.step (by decide) (by decide) fun s => .mask s _ _)
  | addRR | subRR | mulRR | andRR | orRR | xorRR => exact binaryRR_changes he (by decide) _
  | addRW | subRW | mulRW | andRW | orRW | xorRW => exact binaryRW_changes he (by decide) (by decide) _
  | incR | decR => exact unaryR_changes he (by decide) _
  | jeqS | jeqA | jneS | jneA => exact jumpIf_changes he (by decide) _ _
  | jS | jA => exact jump_changes he (by decide) _
  | pushR | pushRR | pushRRR => exact print_changes he (pushRegisters_changes he (by decide) (by decide) _)
  | pusha =>
    exact print_changes he (Within.get_bind fun _ => pushRegisters_changes he (by decide) (by decide) _)
  | popR | popRR | popRRR => exact print_changes he (popRegisters_changes he (by decide) (by decide) _)
  | popa => exact print_changes he (Within.get_bind fun _ => popRegisters_changes he (by decide) (by decide) _)
  | pushW =>
    exact print_changes he ((fetchOperand_changes he (by decide)).bind_some (hpush (by decide) (by decide)) rfl)
  | movRW =>
    exact print_changes he
      ((fetchOperand_changes he (by decide)).bind_some (registerSet_changes he (by decide) _) rfl)
  | movRR =>
    exact print_changes he ((registerGet_changes he _).bind_some (registerSet_changes he (by decide) _) rfl)
  | cmpRR =>
    refine print_changes he ((registerGet_changes he _).bind_some (fun _ => ?_) rfl)
    apply (registerGet_changes he _).bind_some (fun _ => ?_) rfl
    exact Operating.step (by decide) (by decide) fun s => .compare s _
  | cmpRW =>
    refine print_changes he ((registerGet_changes he _).bind_some (fun _ => ?_) rfl)
    apply (fetchOperand_changes he (by decide)).bind_some (fun _ => ?_) rfl
    exact Operating.step (by decide) (by decide) fun s => .compare s _
  | callS | callA =>
    apply print_changes he
    exact (fetchOperand_changes he (by decide)).bind_some
      (callTo_changes he (by decide) (by decide) (by decide) _) rfl
  | callR =>
    apply print_changes he
    exact (registerGet_changes he _).bind_some (callTo_changes he (by decide) (by decide) (by decide) _) rfl
  | ret =>
    refine print_changes he (Within.get_bind fun _ => (readWord_changes he _).bind_some (fun _ => ?_) rfl)
    apply Within.bind (Operating.step (by decide) (by decide) fun s => .pc s _)
    exact fun _ => Operating.step (by decide) (by decide) fun s => .sp s _
  | iret =>
    refine print_changes he (Within.get_bind fun _ => (readWord_changes he _).bind_some (fun _ => ?_) rfl)
    apply Within.bind (Operating.step (by decide) (by decide) fun s => .pc s _)
    intro _
    apply Within.bind (Operating.step (by decide) (by decide) fun s => .sp s _)
    exact fun _ => Operating.step (by decide) (by decide) .enable
  | storRR =>
    refine print_changes he ((registerGet_changes he _).bind_some (fun _ => ?_) rfl)
    exact (registerGet_changes he _).bind_some (writeWord_changes he (by decide) _) rfl
  | storRW =>
    refine print_changes he ((fetchOperand_changes he (by decide)).bind_some (fun _ => ?_) rfl)
    exact (registerGet_changes he _).bind_some (writeWord_changes he (by decide) _) rfl
  | loadRR =>
    refine print_changes he ((registerGet_changes he _).bind_some (fun _ => ?_) rfl)
    exact (readWord_changes he _).bind_some (registerSet_changes he (by decide) _) rfl
  | loadRW =>
    refine print_changes he ((fetchOperand_changes he (by decide)).bind_some (fun _ => ?_) rfl)
    exact (readWord_changes he _).bind_some (registerSet_changes he (by decide) _) rfl
  | loadRRW =>
    refine print_changes he ((registerGet_changes he _).bind_some (fun _ => ?_) rfl)
    refine (fetchOperand_changes he (by decide)).bind_some (fun _ => ?_) rfl
    exact (readWord_changes he _).bind_some (registerSet_changes he (by decide) _) rfl

/-- An operation makes changes of its kinds only. -/
theorem handler_changes (op : Op) : Changing (opKinds op) (handler op word) := (handler_operates op).changing

end

/-! ### Turns -/

/-- The kinds of changes of what follows the entry of an interrupt. -/
def executeKinds : List Kind := [.error, .pc, .sp, .register, .compare, .store, .mask, .trigger, .enable, .disable,
  .running, .debug]

/-- The kinds of changes of a turn. -/
def turnKinds : List Kind := .acknowledge :: executeKinds

/-- An operation makes the changes of an execution. -/
lemma opKinds_subset (op : Op) : opKinds op ⊆ executeKinds := by cases op <;> decide

section
variable [Host] {word : Word}

/-- The changes of an execution. -/
lemma execute_changes : Changing executeKinds (execute word) := by
  apply Within.bind (Within.get_bind fun _ => Within.pure _)
  intro op
  cases op with
  | none => exact Changing.step (by decide) fun s => .panic s _
  | some op =>
    have htrap : Changing executeKinds (trap word) := (trap_changes (by decide) (by decide) (by decide)).changing
    apply htrap.bind
    intro _
    apply ((handler_changes op).weaken (opKinds_subset op)).bind
    exact fun _ => Changing.step (by decide) fun s => .debug s _ s.input

/-- The changes of an execution with its fetch. -/
lemma fetchExecute_changes : Changing executeKinds fetchExecute := by
  have hfetch : Changing executeKinds cpuFetch := (cpuFetch_changes (by decide) (by decide)).changing
  exact hfetch.bind fun _ => Within.get_bind fun _ => Within.ite execute_changes (Within.pure _)

/-- The changes of a turn. -/
lemma cpuLoopBody_changes : Changing turnKinds cpuLoopBody := by
  have hexec : Changing turnKinds fetchExecute := fetchExecute_changes.weaken (by decide)
  intro s u s' hr
  rw [cpuLoopBody_eq] at hr
  split at hr
  · obtain ⟨x, hx, hr⟩ := Option.bind_eq_some_iff.mp hr
    have hentry : Changing turnKinds interruptEntry :=
      (interruptEntry_changes (by decide) (by decide) (by decide) (by decide)).changing
    exact (hentry hx).trans (hexec hr)
  · exact hexec hr

/-- A turn makes changes of the kinds above only. -/
theorem cpuTurn_changes : Changing turnKinds cpuTurn :=
  Within.get_bind fun _ => Within.ite cpuLoopBody_changes (Within.pure _)

end

end Thorium.Vm
