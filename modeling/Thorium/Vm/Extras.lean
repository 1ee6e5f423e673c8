import Thorium.Vm.Delivery

/-!
# The debugging state

What the CPU has for debugging beside the machine: `debug`, the debugger with its input, and `running`. An
operation does not see them but to print itself (`Body`). Printing changes nothing, unless the operand that
it prints cannot be read.
-/

namespace Thorium.Vm
open Thorium.Isa Thorium.Run

/-- The debugging state of a CPU. -/
structure Extras where
  debug : Debug
  debugger : Bool
  input : List Command
  running : Bool

/-- The debugging state. -/
def CPU.extras (s : CPU) : Extras := ⟨s.debug, s.debugger, s.input, s.state.running⟩

/-- The CPU with another debugging state. -/
def CPU.dress (s : CPU) (x : Extras) : CPU :=
  { s with debug := x.debug, debugger := x.debugger, input := x.input, state := ⟨s.state.panic, x.running⟩ }

/-- A change of the debugging state. -/
def dressing (f : Extras → Extras) (s : CPU) : CPU := s.dress (f s.extras)

/-! ### What does not see it -/

section
variable {f : Extras → Extras}

/-- An error is assigned without a look at it. -/
lemma setPanic_commutes (e : CpuError) : Commutes (dressing f) (setPanic e) := Commutes.modify fun _ => rfl

/-- The bus is read without it. -/
lemma busRead_commutes (a : Addr) : Commutes (dressing f) (busRead a) := by
  intro s
  rcases hb : busWordRead s.heap s.bus a with _ | (e | w)
  · rw [busRead_none hb, @busRead_none (dressing f s) a hb]
    rfl
  · rw [busRead_error hb, @busRead_error (dressing f s) a e hb]
    rfl
  · rw [busRead_ok hb, @busRead_ok (dressing f s) a w hb]
    rfl

/-- The bus is written without it. -/
lemma busWrite_commutes (a : Addr) (w : Word) : Commutes (dressing f) (busWrite a w) := by
  intro s
  rcases hb : busWordWrite s.heap s.bus a w with _ | (e | ⟨heap, conds⟩)
  · rw [busWrite_none hb, @busWrite_none (dressing f s) a w hb]
    rfl
  · rw [busWrite_error hb, @busWrite_error (dressing f s) a w e hb]
    rfl
  · rw [busWrite_ok hb, @busWrite_ok (dressing f s) a w heap conds hb]
    rfl

/-- The word at `pc` is read without it. -/
lemma cpuReadPcWord_commutes (index : Byte) : Commutes (dressing f) (cpuReadPcWord index) := by
  refine Commutes.get_bind (fun _ => rfl) fun s => Commutes.ite (Commutes.pure _) ?_
  apply (busRead_commutes _).bind
  intro r
  cases r with
  | ok word => exact Commutes.pure _
  | error e => exact (setPanic_commutes _).bind fun _ => Commutes.pure _

/-- It is fetched without it. -/
lemma cpuFetch_commutes : Commutes (dressing f) cpuFetch := by
  apply (cpuReadPcWord_commutes 0).bind
  intro word
  exact Commutes.bind (Commutes.modify fun _ => rfl) fun _ => Commutes.pure _

/-- So is an operand. -/
lemma fetchOperand_commutes : Commutes (dressing f) fetchOperand :=
  cpuFetch_commutes.bind fun _ => Commutes.get_bind (fun _ => rfl) fun _ => Commutes.pure _

/-- A register is read without it. -/
lemma registerGet_commutes (r : Byte) : Commutes (dressing f) (registerGet r) := by
  intro s
  cases hv : s.register r with
  | none =>
    rw [registerGet_none hv, @registerGet_none (dressing f s) r hv]
    rfl
  | some v =>
    rw [registerGet_some hv, @registerGet_some (dressing f s) r v hv]
    rfl

/-- A register is set without it. -/
lemma setRegister_dress (s : CPU) (x : Extras) (r : Byte) (v : Word) :
    (s.dress x).setRegister r v = (s.setRegister r v).map fun s => s.dress x := by
  have hc : (s.dress x).registerCount = s.registerCount := rfl
  unfold CPU.setRegister
  rw [hc]
  split_ifs <;> rfl

/-- So it is with its flags. -/
lemma registerSet_commutes (r : Byte) (v : Word) : Commutes (dressing f) (registerSet r v) := by
  intro s
  have hd := setRegister_dress s (f s.extras) r v
  cases hv : s.setRegister r v with
  | none =>
    rw [hv] at hd
    rw [registerSet_none hv, @registerSet_none (dressing f s) r v hd]
    rfl
  | some s1 =>
    rw [hv] at hd
    have he : s1.extras = s.extras := by
      obtain ⟨_, _, _, _, _, _, _, rfl⟩ := setRegister_eq hv
      rfl
    rw [registerSet_some hv, @registerSet_some (dressing f s) (s1.dress (f s.extras)) r v hd, ← he]
    rfl

/-- A word is read without it. -/
lemma readWord_commutes (a : Addr) : Commutes (dressing f) (readWord a) := by
  apply (busRead_commutes a).bind
  intro r
  cases r with
  | ok word => exact Commutes.pure _
  | error e => exact (setPanic_commutes _).bind fun _ => Commutes.pure _

/-- A word is written without it. -/
lemma writeWord_commutes (a : Addr) (w : Word) : Commutes (dressing f) (writeWord a w) := by
  apply (busWrite_commutes a w).bind
  intro r
  cases r with
  | ok u => exact Commutes.pure _
  | error e => exact setPanic_commutes _

/-- `sp` is moved without it. -/
lemma moveSp_commutes (w : Word) : Commutes (dressing f) (moveSp w) := Commutes.modify fun _ => rfl

/-- `pc` is set without it. -/
lemma setPc_commutes (a : Addr) : Commutes (dressing f) (setPc a) := Commutes.modify fun _ => rfl

/-- A word is pushed without it. -/
lemma pushWord_commutes (w : Word) : Commutes (dressing f) (pushWord w) := by
  refine (moveSp_commutes _).bind fun _ => Commutes.get_bind (fun _ => rfl) fun s => ?_
  apply (busWrite_commutes _ w).bind
  intro r
  cases r with
  | ok u => exact Commutes.pure _
  | error e => exact (setPanic_commutes _).bind fun _ => Commutes.pure _

/-- Registers are pushed without it. -/
lemma pushRegisters_commutes (rs : List Byte) : Commutes (dressing f) (pushRegisters rs) := by
  induction rs with
  | nil => exact Commutes.pure _
  | cons r rs ih =>
    have hpush (v : Word) : Commutes (dressing f) (do let _ ← pushWord v) :=
      (pushWord_commutes v).bind fun _ => Commutes.pure _
    exact ((registerGet_commutes r).bind_some hpush rfl).bind fun _ => ih

/-- Registers are popped without it. -/
lemma popRegisters_commutes (rs : List Byte) : Commutes (dressing f) (popRegisters rs) := by
  induction rs with
  | nil => exact Commutes.pure _
  | cons r rs ih =>
    refine Commutes.get_bind (fun _ => rfl) fun s => (readWord_commutes _).bind_some (fun v => ?_) rfl
    exact (moveSp_commutes _).bind fun _ => (registerSet_commutes r v).bind fun _ => ih

/-- An interrupt is entered without it. -/
lemma interruptEntry_commutes : Commutes (dressing f) interruptEntry := by
  have hack : Commutes (dressing f) (modify CPU.acknowledge) := Commutes.modify fun _ => rfl
  refine hack.bind fun _ => Commutes.get_bind (fun _ => rfl) fun s => ?_
  apply (busWrite_commutes _ _).bind
  intro r
  cases r with
  | ok u => exact setPc_commutes _
  | error e => exact setPanic_commutes _

/-- The target of a jump does not depend on the debugging state. -/
def Blind (target : CPU → Word → Addr) : Prop := ∀ s x a, target (CPU.dress s x) a = target s a

/-- A subroutine is called without it. -/
lemma callTo_commutes {target : CPU → Word → Addr} (ht : Blind target) (a : Word) :
    Commutes (dressing f) (callTo target a) := by
  refine Commutes.get_bind (fun _ => rfl) fun s => (pushWord_commutes _).bind fun b => ?_
  apply Commutes.ite ?_ (Commutes.pure _)
  refine Commutes.get_bind (fun s => ?_) fun s => setPc_commutes _
  rw [dressing, ht]

end

/-! ### Printing -/

/-- The operations that may be printed with their word argument. -/
def printsWord (op : Op) : Prop := op.takesWord = true ∧ op ≠ .loadRRW

/-- The CPU after its operand could not be read. -/
def CPU.missed (s : CPU) : CPU := s.fault.setPanic .cannotReadMemory

section
variable [Host] {op : Op} {word : Word} {s s1 : CPU}

omit [Host] in
/-- The word at `pc` is there, or it is missing, or the process is aborted. -/
lemma cpuReadPcWord_cases (s : CPU) : ((∃ w, cpuReadPcWord 0 s = some (w, s)) ∧
    (s.state.panic = .ok → ∃ w, busWordRead s.heap s.bus s.pc = some (.ok w))) ∨
    (s.state.panic = .ok ∧ s.Unreadable ∧ cpuReadPcWord 0 s = some (0, s.missed)) ∨
      (s.state.panic = .ok ∧ busWordRead s.heap s.bus s.pc = none ∧ cpuReadPcWord 0 s = none) := by
  rw [cpuReadPcWord_apply]
  by_cases hp : s.state.panic = .ok
  · rw [if_neg (not_not.mpr hp)]
    rcases hb : busWordRead s.heap s.bus s.pc with _ | (e | w)
    · rw [busRead_none hb]
      exact .inr (.inr ⟨hp, rfl, rfl⟩)
    · rw [busRead_error hb]
      exact .inr (.inl ⟨hp, ⟨e, hb⟩, rfl⟩)
    · rw [busRead_ok hb]
      exact .inl ⟨⟨w, rfl⟩, fun _ => ⟨w, rfl⟩⟩
  · rw [if_pos hp]
    exact .inl ⟨⟨0, rfl⟩, fun h => absurd h hp⟩

omit [Host] in
/-- The same of a printed word. -/
lemma printedWord_cases (text : CPU → Word → String) (s : CPU) : ((∃ t, printedWord text s = some (t, s)) ∧
    (s.state.panic = .ok → ∃ w, busWordRead s.heap s.bus s.pc = some (.ok w))) ∨
    (s.state.panic = .ok ∧ s.Unreadable ∧ ∃ t, printedWord text s = some (t, s.missed)) ∨
      (s.state.panic = .ok ∧ busWordRead s.heap s.bus s.pc = none ∧ printedWord text s = none) := by
  rcases cpuReadPcWord_cases s with ⟨⟨w, hr⟩, hw⟩ | ⟨hp, hu, hr⟩ | ⟨hp, hn, hr⟩
  · exact .inl ⟨⟨_, by rw [printedWord, bind_apply, hr]; rfl⟩, hw⟩
  · exact .inr (.inl ⟨hp, hu, _, by rw [printedWord, bind_apply, hr]; rfl⟩)
  · exact .inr (.inr ⟨hp, hn, by rw [printedWord, bind_apply, hr]; rfl⟩)

/-- The arguments of an operation are printed with a word argument or without. -/
lemma printedArgs_shape (word : Word) (op : Op) : (∃ t, printedArgs word op = pure t) ∨
    (printsWord op ∧ ∃ text, (∀ s x, text (CPU.dress s x) = text s) ∧
      ∃ f : String → String, printedArgs word op = printedWord text >>= fun v => pure (f v)) := by
  have hne {op : Op} (h : op ≠ .loadRRW) (ht : op.takesWord = true) : printsWord op := ⟨ht, h⟩
  cases op with
  | addRW | andRW | cmpRW | loadRW | movRW | mulRW | orRW | subRW | xorRW | callA | jA | callS | jS | jeqA
  | jneA | jeqS | jneS => exact .inr ⟨hne (by decide) rfl, _, fun _ _ => rfl, _, rfl⟩
  | _ => exact .inl ⟨_, rfl⟩

/-- Printing an operation changes nothing, unless its operand is missing. -/
lemma cpuInstructionToString_cases (hop : ops (byteOf word 0) = some op) (s : CPU) :
    (∃ t, cpuInstructionToString word s = some (t, s)) ∨
      (printsWord op ∧ s.state.panic = .ok ∧ s.Unreadable ∧
        ∃ t, cpuInstructionToString word s = some (t, s.missed)) ∨
        (printsWord op ∧ s.state.panic = .ok ∧ busWordRead s.heap s.bus s.pc = none ∧
          cpuInstructionToString word s = none) := by
  unfold cpuInstructionToString
  rw [bind_apply, get_apply, Option.bind_some]
  rcases printed_eq hop with hn | hn <;> rw [hn]
  · exact .inl ⟨_, rfl⟩
  · dsimp only
    rw [bind_apply]
    rcases printedArgs_shape word op with ⟨t, ht⟩ | ⟨hpw, text, -, f, ht⟩ <;> rw [ht]
    · exact .inl ⟨_, rfl⟩
    · rw [bind_apply]
      rcases printedWord_cases text s with ⟨⟨t, hr⟩, -⟩ | ⟨hp, hu, t, hr⟩ | ⟨hp, hnone, hr⟩ <;> rw [hr]
      · exact .inl ⟨_, rfl⟩
      · exact .inr (.inl ⟨hpw, hp, hu, _, rfl⟩)
      · exact .inr (.inr ⟨hpw, hp, hnone, rfl⟩)

/-- Printing does not see a change that keeps the number of the step. -/
lemma cpuInstructionToString_commutes {f : Extras → Extras} (hf : ∀ x, (f x).debug.step = x.debug.step) :
    Commutes (dressing f) (cpuInstructionToString word) := by
  refine Commutes.get_bind (fun s => ?_) fun s => ?_
  · have hstep : (dressing f s).debug.step = s.debug.step := hf s.extras
    rw [hstep]
    rfl
  cases printed (byteOf word 0) with
  | none => exact Commutes.pure _
  | some op =>
    apply Commutes.bind ?_ fun _ => Commutes.pure _
    rcases printedArgs_shape word op with ⟨t, ht⟩ | ⟨-, text, htext, f, ht⟩ <;> rw [ht]
    · exact Commutes.pure t
    · refine Commutes.bind ?_ fun _ => Commutes.pure _
      refine (cpuReadPcWord_commutes 0).bind fun w => Commutes.get_bind (fun s => ?_) fun s => Commutes.pure _
      rw [dressing, htext]
      rfl

/-! ### What an operation does beside printing -/

/-- The operation is a jump that is not taken. -/
def NotTaken (s : CPU) : Op → Prop
  | .jeqS | .jeqA => s.flags.zero = false
  | .jneS | .jneA => s.flags.zero = true
  | _ => False

/-- Printing reads a word that the operation does not read, and that is not there. -/
def Overreads (op : Op) (word : Word) (s : CPU) : Prop :=
  (NotTaken s op ∧ ∀ w, busWordRead s.heap s.bus s.pc ≠ some (.ok w)) ∨
    (op = .cmpRW ∧ s.register (byteOf word 1) = none ∧ busWordRead s.heap s.bus s.pc = none)

/-- A change that an operation, which makes a change of the debugging state itself, does not see. -/
def Mild (f : Extras → Extras) : Op → Prop
  | .halt => ∀ x, f { x with running := false } = { f x with running := false }
  | .xbrk => ∀ x, f { x with debug := { x.debug with trap := true } } =
      { f x with debug := { (f x).debug with trap := true } }
  | .xpse | .xpsd => ∀ b x, f { x with debug := { x.debug with printOp := b } } =
      { f x with debug := { (f x).debug with printOp := b } }
  | _ => True

/-- What an operation does after it has been printed. -/
structure Body (op : Op) (word : Word) (k : Run CPU Unit) : Prop where
  handler : handler op word = printInstruction word >>= fun _ => k
  commutes : ∀ f, Mild f op → Commutes (dressing f) k
  missed : ∀ s : CPU, op.takesWord = true → s.state.panic = .ok → s.Unreadable → ¬ NotTaken s op →
    k s.missed = k s
  aborts : ∀ s : CPU, printsWord op → s.state.panic = .ok → busWordRead s.heap s.bus s.pc = none →
    ¬ Overreads op word s → k s = none

omit [Host] in
/-- An operand that is missing is missed again. -/
lemma fetchOperand_missed (hp : s.state.panic = .ok) (hu : s.Unreadable) :
    fetchOperand s.missed = fetchOperand s := by
  obtain ⟨e, he⟩ := hu
  have hp' : s.missed.state.panic ≠ .ok := show CpuError.cannotReadMemory ≠ .ok by decide
  rw [fetchOperand, bind_apply, bind_apply, cpuFetch_error hp he, cpuFetch_panic hp']
  rfl

omit [Host] in
/-- A fetch that aborts. -/
lemma fetchOperand_none (hp : s.state.panic = .ok) (hn : busWordRead s.heap s.bus s.pc = none) :
    fetchOperand s = none := by
  rw [fetchOperand, bind_apply, cpuFetch_none hp hn]
  rfl

variable {k : Run CPU Unit}

/-- An operation without a word argument. -/
lemma Body.plain (ht : op.takesWord = false) (hh : Vm.handler op word = printInstruction word >>= fun _ => k)
    (hc : ∀ f, Mild f op → Commutes (dressing f) k) : Body op word k := by
  refine ⟨hh, hc, ?_, ?_⟩
  · intro s h
    cases ht.symm.trans h
  · intro s h
    cases ht.symm.trans h.1

/-- An operation that reads its word argument first. -/
lemma Body.fetch {g : Option Word → Run CPU Unit}
    (hh : Vm.handler op word = printInstruction word >>= fun _ => fetchOperand >>= g)
    (hg : ∀ f a, Commutes (dressing f) (g (some a))) (hn : g none = pure ()) :
    Body op word (fetchOperand >>= g) := by
  refine ⟨hh, fun f _ => fetchOperand_commutes.bind_some (hg f) hn, ?_, ?_⟩
  · intro s _ hp hu _
    rw [bind_apply, bind_apply, fetchOperand_missed hp hu]
  · intro s _ hp hb _
    rw [bind_apply, fetchOperand_none hp hb]
    rfl

omit [Host] in
/-- A register that is read before the operand, in a CPU that has missed the operand. -/
lemma registerGet_missed {r : Byte} {g : Option Word → Run CPU Unit} (hp : s.state.panic = .ok)
    (hu : s.Unreadable) (hs : ∀ a, ∃ g', g (some a) = fetchOperand >>= g') :
    (registerGet r >>= g) s.missed = (registerGet r >>= g) s := by
  obtain ⟨e, he⟩ := hu
  have hm : s.missed.register r = s.register r := rfl
  rw [bind_apply, bind_apply]
  cases hv : s.register r with
  | none =>
    rw [registerGet_none hv, registerGet_none (hm.trans hv)]
    rfl
  | some a =>
    rw [registerGet_some hv, registerGet_some (hm.trans hv), CPU.setPanic_ok hp]
    obtain ⟨g', hg⟩ := hs a
    have hf : cpuFetch (s.missed.setPanic .ok) = cpuFetch s := by
      rw [cpuFetch_error hp he, @cpuFetch_error (s.missed.setPanic .ok) e rfl he]
      rfl
    show g (some a) (s.missed.setPanic .ok) = g (some a) s
    rw [hg, bind_apply, bind_apply, fetchOperand, bind_apply, bind_apply, hf]

/-- An operation that reads a register first, and then its word argument. -/
lemma Body.getFetch {r : Byte} {g : Option Word → Run CPU Unit}
    (hh : Vm.handler op word = printInstruction word >>= fun _ => registerGet r >>= g)
    (hs : ∀ a, ∃ g' : Option Word → Run CPU Unit, g (some a) = fetchOperand >>= g' ∧
      (∀ f w, Commutes (dressing f) (g' (some w))) ∧ g' none = pure ()) (hn : g none = pure ())
    (hr : op = .cmpRW ∧ r = byteOf word 1 ∨ op = .loadRRW) : Body op word (registerGet r >>= g) := by
  refine ⟨hh, fun f _ => (registerGet_commutes r).bind_some (fun a => ?_) hn, ?_, ?_⟩
  · obtain ⟨g', hg, hc, hn'⟩ := hs a
    rw [hg]
    exact fetchOperand_commutes.bind_some (hc f) hn'
  · intro s _ hp hu _
    exact registerGet_missed hp hu fun a => (hs a).imp fun _ h => h.1
  · intro s ht hp hb ho
    rcases hr with ⟨hcmp, rfl⟩ | hload
    · cases hv : s.register (byteOf word 1) with
      | none => exact absurd (.inr ⟨hcmp, hv, hb⟩) ho
      | some a =>
        obtain ⟨g', hg, _⟩ := hs a
        rw [bind_apply, registerGet_some hv, CPU.setPanic_ok hp]
        show g (some a) s = none
        rw [hg, bind_apply, fetchOperand_none hp hb]
        rfl
    · exact absurd hload ht.2

/-- A conditional jump. -/
lemma Body.jumpIf {z : Bool} {target : CPU → Word → Addr} (hh : Vm.handler op word = jumpIf z target word)
    (hz : ∀ s : CPU, ¬ NotTaken s op → s.flags.zero = z) (ht : Blind target) : ∃ k, Body op word k := by
  refine ⟨_, hh, ?_, ?_, ?_⟩
  · intro f _
    refine Commutes.get_bind (fun _ => rfl) fun s => Commutes.ite ?_ (Commutes.modify fun _ => rfl)
    refine fetchOperand_commutes.bind_some (fun a => Commutes.get_bind (fun s => ?_) fun s => setPc_commutes _) rfl
    rw [dressing, ht]
  · intro s _ hp hu ho
    have hm : s.missed.flags.zero = z := hz s ho
    rw [bind_apply, bind_apply, get_apply, get_apply, Option.bind_some, Option.bind_some]
    dsimp only
    rw [if_pos (hz s ho), if_pos hm, bind_apply, bind_apply, fetchOperand_missed hp hu]
  · intro s _ hp hb ho
    have htaken : ¬ NotTaken s op := by
      intro hnt
      apply ho
      left
      refine ⟨hnt, ?_⟩
      rw [hb]
      exact fun _ h => nomatch h
    rw [bind_apply, get_apply, Option.bind_some]
    dsimp only
    rw [if_pos (hz s htaken), bind_apply, fetchOperand_none hp hb]
    rfl

omit [Host] in
/-- A change of the debugging state that an operation makes itself. -/
lemma dressing_commutes {f g : Extras → Extras} (h : ∀ x, f (g x) = g (f x)) :
    Commutes (dressing f) (modify (Vm.dressing g)) :=
  Commutes.modify fun s => congrArg s.dress (h s.extras).symm

/-- Every operation but `XPSE` prints itself first. -/
theorem handler_body (word : Word) (h : op ≠ .xpse) : ∃ k, Body op word k := by
  have hseg : Blind segmentTarget := fun _ _ _ => rfl
  have habs : Blind absoluteTarget := fun _ _ _ => rfl
  have hget (f : Extras → Extras) (r : Byte) := @registerGet_commutes f r
  have hset (f : Extras → Extras) (r : Byte) (v : Word) := @registerSet_commutes f r v
  have hjump {target : CPU → Word → Addr} (ht : Blind target) (f : Extras → Extras) (a : Word) :
      Commutes (dressing f) (do setPc (target (← get) a)) := by
    refine Commutes.get_bind (fun s => ?_) fun s => setPc_commutes _
    rw [dressing, ht]
  cases op with
  | xpse => exact absurd rfl h
  | nop | wfi | xbm | xdbg => exact ⟨pure (), .plain rfl (bind_pure _).symm fun _ _ => Commutes.pure _⟩
  | halt => exact ⟨_, .plain rfl rfl fun f hf => dressing_commutes (g := fun x => { x with running := false }) hf⟩
  | panic =>
    refine ⟨_, .plain rfl rfl fun f _ => ?_⟩
    exact Commutes.get_bind (fun _ => rfl) fun _ => Commutes.ite (setPanic_commutes _) (Commutes.pure _)
  | xbrk =>
    refine ⟨_, .plain rfl rfl fun f hf => ?_⟩
    exact dressing_commutes (g := fun x => { x with debug := { x.debug with trap := true } }) hf
  | xpsd =>
    refine ⟨_, .plain rfl rfl fun f hf => ?_⟩
    exact dressing_commutes (g := fun x => { x with debug := { x.debug with printOp := false } }) (hf false)
  | ind | ine | intB | miB | umiB => exact ⟨_, .plain rfl rfl fun _ _ => Commutes.modify fun _ => rfl⟩
  | addRR | subRR | mulRR | andRR | orRR | xorRR =>
    refine ⟨_, .plain rfl rfl fun f _ => ?_⟩
    exact (hget f _).bind_some (fun _ => (hget f _).bind_some (fun _ => hset f _ _) rfl) rfl
  | incR | decR | movRR =>
    exact ⟨_, .plain rfl rfl fun f _ => (hget f _).bind_some (fun _ => hset f _ _) rfl⟩
  | cmpRR =>
    refine ⟨_, .plain rfl rfl fun f _ => (hget f _).bind_some (fun _ => ?_) rfl⟩
    exact (hget f _).bind_some (fun _ => Commutes.modify fun _ => rfl) rfl
  | storRR =>
    refine ⟨_, .plain rfl rfl fun f _ => (hget f _).bind_some (fun _ => ?_) rfl⟩
    exact (hget f _).bind_some (writeWord_commutes _) rfl
  | loadRR =>
    refine ⟨_, .plain rfl rfl fun f _ => (hget f _).bind_some (fun _ => ?_) rfl⟩
    exact (readWord_commutes _).bind_some (fun _ => hset f _ _) rfl
  | pushR | pushRR | pushRRR => exact ⟨_, .plain rfl rfl fun f _ => pushRegisters_commutes _⟩
  | popR | popRR | popRRR => exact ⟨_, .plain rfl rfl fun f _ => popRegisters_commutes _⟩
  | pusha =>
    exact ⟨_, .plain rfl rfl fun f _ => Commutes.get_bind (fun _ => rfl) fun _ => pushRegisters_commutes _⟩
  | popa =>
    exact ⟨_, .plain rfl rfl fun f _ => Commutes.get_bind (fun _ => rfl) fun _ => popRegisters_commutes _⟩
  | callR =>
    exact ⟨_, .plain rfl rfl fun f _ => (hget f _).bind_some (callTo_commutes habs) rfl⟩
  | ret =>
    refine ⟨_, .plain rfl rfl fun f _ => Commutes.get_bind (fun _ => rfl) fun s => ?_⟩
    exact (readWord_commutes _).bind_some (fun _ => (setPc_commutes _).bind fun _ => moveSp_commutes _) rfl
  | iret =>
    refine ⟨_, .plain rfl rfl fun f _ => Commutes.get_bind (fun _ => rfl) fun s => ?_⟩
    refine (readWord_commutes _).bind_some (fun _ => (setPc_commutes _).bind fun _ => ?_) rfl
    exact (moveSp_commutes _).bind fun _ => Commutes.modify fun _ => rfl
  | movRW => exact ⟨_, .fetch rfl (fun f _ => hset f _ _) rfl⟩
  | addRW | subRW | mulRW | andRW | orRW | xorRW =>
    exact ⟨_, .fetch rfl (fun f _ => (hget f _).bind_some (fun _ => hset f _ _) rfl) rfl⟩
  | storRW => exact ⟨_, .fetch rfl (fun f _ => (hget f _).bind_some (writeWord_commutes _) rfl) rfl⟩
  | loadRW => exact ⟨_, .fetch rfl (fun f _ => (readWord_commutes _).bind_some (fun _ => hset f _ _) rfl) rfl⟩
  | pushW => exact ⟨_, .fetch rfl (fun f _ => (pushWord_commutes _).bind fun _ => Commutes.pure _) rfl⟩
  | jS => exact ⟨_, .fetch rfl (fun f => hjump hseg f) rfl⟩
  | jA => exact ⟨_, .fetch rfl (fun f => hjump habs f) rfl⟩
  | callS => exact ⟨_, .fetch rfl (fun f => callTo_commutes hseg) rfl⟩
  | callA => exact ⟨_, .fetch rfl (fun f => callTo_commutes habs) rfl⟩
  | cmpRW =>
    refine ⟨_, .getFetch rfl (fun a => ⟨_, rfl, fun f _ => Commutes.modify fun _ => rfl, rfl⟩) rfl (.inl ⟨rfl, rfl⟩)⟩
  | loadRRW =>
    refine ⟨_, .getFetch rfl (fun a => ⟨_, rfl, fun f w => ?_, rfl⟩) rfl (.inr rfl)⟩
    exact (readWord_commutes _).bind_some (fun _ => hset f _ _) rfl
  -- A conditional jump fetches its operand only when it is taken.
  | jeqS => exact Body.jumpIf rfl (fun _ => Bool.eq_true_of_not_eq_false) hseg
  | jeqA => exact Body.jumpIf rfl (fun _ => Bool.eq_true_of_not_eq_false) habs
  | jneS => exact Body.jumpIf rfl (fun _ => Bool.eq_false_of_not_eq_true) hseg
  | jneA => exact Body.jumpIf rfl (fun _ => Bool.eq_false_of_not_eq_true) habs

/-- Printing an operation changes nothing, unless its operand is missing. -/
lemma printInstruction_cases (hop : ops (byteOf word 0) = some op) (s : CPU) :
    printInstruction word s = some ((), s) ∨
      (printsWord op ∧ s.state.panic = .ok ∧ s.Unreadable ∧ printInstruction word s = some ((), s.missed)) ∨
        (printsWord op ∧ s.state.panic = .ok ∧ busWordRead s.heap s.bus s.pc = none ∧
          printInstruction word s = none) := by
  unfold printInstruction
  rw [bind_apply, get_apply, Option.bind_some]
  dsimp only
  split
  · rw [bind_apply]
    rcases cpuInstructionToString_cases hop s with ⟨t, hr⟩ | ⟨hpw, hp, hu, t, hr⟩ | ⟨hpw, hp, hn, hr⟩ <;> rw [hr]
    · exact .inl rfl
    · exact .inr (.inl ⟨hpw, hp, hu, rfl⟩)
    · exact .inr (.inr ⟨hpw, hp, hn, rfl⟩)
  · exact .inl rfl

/-- An operation does not see a change of the debugging state that it prints the same in. -/
theorem handler_commutes {f : Extras → Extras} (hstep : ∀ x, (f x).debug.step = x.debug.step)
    (hprint : ∀ x, (f x).debug.printOp = x.debug.printOp) (hf : Mild f op) :
    Commutes (dressing f) (handler op word) := by
  have hinstruction : Commutes (dressing f) (printInstruction word) := by
    refine Commutes.get_bind (fun s => ?_) fun s => Commutes.ite ?_ (Commutes.pure _)
    · have hp : (dressing f s).debug.printOp = s.debug.printOp := hprint s.extras
      rw [hp]
    · exact (cpuInstructionToString_commutes hstep).bind fun _ => Commutes.pure _
  by_cases hne : op = .xpse
  · subst hne
    refine Commutes.bind ?_ fun _ => hinstruction
    exact dressing_commutes (g := fun x => { x with debug := { x.debug with printOp := true } }) (hf true)
  · obtain ⟨k, hb⟩ := handler_body word hne
    rw [hb.handler]
    exact hinstruction.bind fun _ => hb.commutes f hf

/-- So does any operation, of a change that is not seen by those that change the debugging state themselves. -/
lemma handler_unseen {f : Extras → Extras} (hstep : ∀ x, (f x).debug.step = x.debug.step)
    (hprint : ∀ x, (f x).debug.printOp = x.debug.printOp)
    (hhalt : ∀ x, f { x with running := false } = { f x with running := false })
    (hxbrk : ∀ x, f { x with debug := { x.debug with trap := true } } =
      { f x with debug := { (f x).debug with trap := true } })
    (hxps : ∀ b x, f { x with debug := { x.debug with printOp := b } } =
      { f x with debug := { (f x).debug with printOp := b } }) :
    Commutes (dressing f) (handler op word) := by
  apply handler_commutes hstep hprint
  cases op with
  | halt => exact hhalt
  | xbrk => exact hxbrk
  | xpse | xpsd => exact hxps
  | _ => exact trivial

/-- What is printed makes no difference, unless printing reads too much. -/
lemma Body.run (hb : Body op word k) (hop : ops (byteOf word 0) = some op)
    (ho : s.state.panic = .ok → ¬ Overreads op word s) : Vm.handler op word s = k s := by
  rw [hb.handler, bind_apply]
  rcases printInstruction_cases hop s with hr | ⟨hpw, hp, hu, hr⟩ | ⟨hpw, hp, hn, hr⟩ <;> rw [hr]
  · rfl
  · apply hb.missed s hpw.1 hp hu
    intro hnt
    apply ho hp
    left
    refine ⟨hnt, fun w hw => ?_⟩
    obtain ⟨e, he⟩ := hu
    cases he.symm.trans hw
  · exact (hb.aborts s hpw hp hn (ho hp)).symm

/-- An operation does not see the debugging state, unless printing reads too much. -/
theorem handler_dressing {f : Extras → Extras} (hop : ops (byteOf word 0) = some op) (hne : op ≠ .xpse)
    (hf : Mild f op) (ho : s.state.panic = .ok → ¬ Overreads op word s) :
    handler op word (dressing f s) = (handler op word s).map fun r => (r.1, dressing f r.2) := by
  obtain ⟨k, hb⟩ := handler_body word hne
  have hod : (dressing f s).state.panic = .ok → ¬ Overreads op word (dressing f s) := by
    intro hp h
    exact ho hp h
  rw [hb.run hop ho, hb.run hop hod]
  exact hb.commutes f hf s

/-- Missing the operand first makes no difference either. -/
theorem handler_missed (hop : ops (byteOf word 0) = some op) (hne : op ≠ .xpse) (hpw : printsWord op)
    (hp : s.state.panic = .ok) (hu : s.Unreadable) (ho : ¬ Overreads op word s) :
    handler op word s.missed = handler op word s := by
  obtain ⟨k, hb⟩ := handler_body word hne
  have hpanic : s.missed.state.panic ≠ .ok := show CpuError.cannotReadMemory ≠ .ok by decide
  rw [hb.run hop fun _ => ho, hb.run hop fun h => absurd h hpanic]
  apply hb.missed s hpw.1 hp hu
  intro hnt
  apply ho
  left
  refine ⟨hnt, fun w hw => ?_⟩
  obtain ⟨e, he⟩ := hu
  cases he.symm.trans hw

end

/-! ### Turns -/

section
variable [Host] {op : Op} {word : Word} {s e : CPU} {log : List Label}

/-- The part of a turn up to its operation, if it gets to one. -/
def arrive : Run CPU (List Label × Option (Op × Word)) := do
  let entered ← entryLogged
  let word := htov (← cpuFetch)
  if (← get).state.panic = .ok then
    match ops (byteOf word 0) with
    | some op => return (entered, some (op, word))
    | none =>
      setPanic .unimplementedOpcode
      return (entered, none)
  else return (entered, none)

/-- The operation of a turn. -/
def operate (op : Op) (word : Word) : Run CPU Unit := do
  trap word
  handler op word
  modify CPU.stepped

/-- A turn gets to an operation, or it does not. -/
lemma turnLogged_eq (hgo : s.goesOn) : turnLogged s = (arrive s).bind fun r => match r.1.2 with
    | some (op, word) => (operate op word r.2).map fun x => (r.1.1 ++ [.exec op], x.2)
    | none => some (r.1.1, r.2) := by
  unfold turnLogged arrive
  rw [bind_apply, get_apply, Option.bind_some]
  dsimp only
  rw [if_pos hgo, bind_apply, bind_apply]
  cases entryLogged s with
  | none => rfl
  | some x =>
    obtain ⟨entered, s1⟩ := x
    show ((fetchExecuteLogged s1).bind _) = ((cpuFetch s1).bind _).bind _
    unfold fetchExecuteLogged
    rw [bind_apply]
    cases cpuFetch s1 with
    | none => rfl
    | some x =>
      obtain ⟨w, s2⟩ := x
      show ((if s2.state.panic = .ok then executeLogged (htov w) else pure []) s2).bind _ =
        ((if s2.state.panic = .ok then _ else _ : Run CPU _) s2).bind _
      by_cases hp : s2.state.panic = .ok
      · rw [if_pos hp, if_pos hp, executeLogged, bind_apply, cpuDecode_ok hp]
        cases ops (byteOf (htov w) 0) with
        | none =>
          show some (entered ++ [], s2.setPanic .unimplementedOpcode) = _
          rw [List.append_nil]
          rfl
        | some op =>
          show ((trap (htov w) s2).bind _).bind _ = ((trap (htov w) s2).bind _).map _
          cases trap (htov w) s2 with
          | none => rfl
          | some x =>
            show ((handler op (htov w) x.2).bind _).bind _ = ((handler op (htov w) x.2).bind _).map _
            cases handler op (htov w) x.2 <;> rfl
      · rw [if_neg hp, if_neg hp]
        show some (entered ++ [], s2) = _
        rw [List.append_nil]
        rfl

/-- A turn of a CPU that has stopped. -/
lemma turnLogged_stop (h : ¬ s.goesOn) : turnLogged s = some ([], s) := by
  rw [turnLogged, bind_apply, get_apply, Option.bind_some]
  dsimp only
  rw [if_neg h]
  rfl

/-- An operation that a turn gets to has been decoded. -/
lemma arrive_inv (h : arrive s = some ((log, some (op, word)), e)) :
    ops (byteOf word 0) = some op ∧ e.state.panic = .ok := by
  unfold arrive at h
  rw [bind_apply] at h
  obtain ⟨⟨entered, s1⟩, h1, h⟩ := Option.bind_eq_some_iff.mp h
  rw [bind_apply] at h
  obtain ⟨⟨w, s2⟩, h2, h⟩ := Option.bind_eq_some_iff.mp h
  rw [bind_apply, get_apply, Option.bind_some] at h
  dsimp only at h
  split at h
  · rename_i hp
    cases hop : ops (byteOf (htov w) 0) with
    | none =>
      rw [hop] at h
      cases h
    | some op' =>
      rw [hop] at h
      cases h
      exact ⟨hop, hp⟩
  · cases h

/-- No operation is logged before the operation. -/
lemma arrive_log {x : Option (Op × Word)} (h : arrive s = some ((log, x), e)) (op : Op) : .exec op ∉ log := by
  have hentry {entered s1} (h1 : entryLogged s = some (entered, s1)) : .exec op ∉ entered := by
    rw [entryLogged_apply] at h1
    split at h1
    · obtain ⟨_, _, hr⟩ := Option.map_eq_some_iff.mp h1
      cases hr
      simp
    · cases h1
      simp
  unfold arrive at h
  rw [bind_apply] at h
  obtain ⟨⟨entered, s1⟩, h1, h⟩ := Option.bind_eq_some_iff.mp h
  rw [bind_apply] at h
  obtain ⟨⟨w, s2⟩, h2, h⟩ := Option.bind_eq_some_iff.mp h
  rw [bind_apply, get_apply, Option.bind_some] at h
  dsimp only at h
  split at h
  · cases hop : ops (byteOf (htov w) 0) with
    | none =>
      rw [hop] at h
      cases h
      exact hentry h1
    | some op' =>
      rw [hop] at h
      cases h
      exact hentry h1
  · cases h
    exact hentry h1

/-- The debugging state is not seen before the operation. -/
lemma arrive_commutes {f : Extras → Extras} : Commutes (dressing f) arrive := by
  have hentry : Commutes (dressing f) entryLogged := by
    refine Commutes.get_bind (fun _ => rfl) fun s => Commutes.ite ?_ (Commutes.pure _)
    exact interruptEntry_commutes.bind fun _ => Commutes.get_bind (fun _ => rfl) fun _ => Commutes.pure _
  refine hentry.bind fun entered => cpuFetch_commutes.bind fun w => ?_
  refine Commutes.get_bind (fun _ => rfl) fun s => Commutes.ite ?_ (Commutes.pure _)
  cases ops (byteOf (htov w) 0) with
  | none => exact (setPanic_commutes _).bind fun _ => Commutes.pure _
  | some op => exact Commutes.pure _

/-- The debugging state is not changed before the operation. -/
lemma arrive_extras {r : List Label × Option (Op × Word)} (h : arrive s = some (r, e)) : e.extras = s.extras := by
  have hc := @arrive_commutes _ (fun _ => s.extras) s
  have hs : dressing (fun _ => s.extras) s = s := rfl
  rw [hs, h] at hc
  have he : e = dressing (fun _ => s.extras) e := congrArg Prod.snd (Option.some.inj hc)
  rw [he]
  rfl

end

end Thorium.Vm
