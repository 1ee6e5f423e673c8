import Thorium.Vm.Outcome

/-!
# The advance of `pc`

A turn leaves `pc` behind the instruction that it executes, as far as `Op::length` says, unless the operation
writes `pc` itself. There is one more way to write it: with 255 registers the number of `pc` is that of a
general register, and `POPA` pops it (`inStep_iff`).
-/

namespace Thorium.Vm
open Thorium.Isa Thorium.Run

section
variable [Host]

/-- The register operands that an operation writes. -/
def targets (word : Word) : Op → List Byte
  | .movRR | .movRW | .addRR | .addRW | .subRR | .subRW | .mulRR | .mulRW | .incR | .decR | .andRR | .andRW
  | .orRR | .orRW | .xorRR | .xorRW | .loadRR | .loadRRW | .loadRW | .popR => [byteOf word 1]
  | .popRR => [byteOf word 1, byteOf word 2]
  | .popRRR => [byteOf word 1, byteOf word 2, byteOf word 3]
  | _ => []

/-- The operation jumps, calls or returns. -/
def Leaves (s : CPU) : Op → Prop
  | .jeqS | .jeqA => s.flags.zero = true
  | .jneS | .jneA => s.flags.zero = false
  | .jS | .jA | .callS | .callA | .callR | .ret | .iret => True
  | _ => False

/-- The operation writes `pc`. -/
def WritesPc (op : Op) (word : Word) (s : CPU) : Prop := Leaves s op ∨ ∃ r ∈ targets word op, r.toNat = regPC

/-- A turn that executes an operation at `pc` is in step with the layout of the assembler. -/
structure InStep (op : Op) (w : Word) (s s' : CPU) : Prop where
  pc : ¬ WritesPc op (htov w) s → s'.pc = s.pc + BitVec.ofNat 32 op.length
  pushed : op = .callS ∨ op = .callA ∨ op = .callR →
    busWordRead s'.heap s'.bus s'.sp = some (.ok (s.pc + BitVec.ofNat 32 op.length))

variable {op : Op} {word w : Word} {s s' e e' : CPU} {kinds : List Kind} {α : Type}

/-! ### Operations -/

omit [Host] in
/-- A computation without assignments leaves `pc`. -/
lemma Changing.pc {m : Run CPU α} {a : α} (hm : Changing kinds m) (hp : .pc ∉ kinds) (hr : .register ∉ kinds)
    (h : m s = some (a, s')) : s'.pc = s.pc := by
  refine hm.invariant (P := fun t => t.pc = s.pc) ?_ rfl h
  rintro t t' ⟨k, hk, hchange⟩ ht
  cases hchange with
  | pc => exact absurd hk hp
  | register => exact absurd hk hr
  | _ => exact ht

omit [Host] in
/-- The length of an instruction is that of its words. -/
lemma past_pc {a : Addr} (h : s.pc = a + addrSize) : (s.past op).pc = a + BitVec.ofNat 32 op.length := by
  rw [op.length_eq, CPU.past]
  cases op.takesWord with
  | false => exact h
  | true =>
    show s.pc + addrSize = a + 8
    rw [h]
    exact BitVec.add_assoc _ _ _

omit [Host] in
/-- An assignment of another register leaves `pc`. -/
lemma Assigns.pc {r : Byte} {v : Option Word} (h : Assigns s r v s') (hr : r.toNat ≠ regPC) : s'.pc = s.pc := by
  obtain ⟨w, s1, _, hset, rfl⟩ := h
  have hpc : s1.pc = s.pc := setRegister_pc hset hr
  exact hpc

omit [Host] in
/-- The number of `pc` is not that of a general register, unless there are 255. -/
lemma generalRegisters_pc {count : Byte} (h : count ≠ 255) :
    ∀ r ∈ (generalRegisters count).reverse, r.toNat ≠ regPC := by
  intro r hr
  obtain ⟨i, hi, rfl⟩ := List.mem_map.mp (List.mem_reverse.mp hr)
  have hlt : i < count.toNat := List.mem_range.mp hi
  have hcount : count.toNat ≠ 255 := fun e => h (BitVec.eq_of_toNat_eq e)
  have hbound : count.toNat < 256 := count.isLt
  rw [BitVec.toNat_ofNat, Nat.mod_eq_of_lt (by omega)]
  unfold regPC
  omega

/-- An operation that does not write `pc` leaves it behind its word argument. -/
lemma handler_pc (hop : ops (byteOf word 0) = some op) (hp : s.state.panic = .ok) (h : Ends (handler op word) s s')
    (hpc : ¬ WritesPc op word s) (hpopa : op = .popa → s.registerCount ≠ 255) : s'.pc = (s.past op).pc := by
  have he := handler_inv hop hp h
  have htarget (r : Byte) (hr : r ∈ targets word op) : r.toNat ≠ regPC := fun hn => hpc (.inr ⟨r, hr, hn⟩)
  have hassign (ha : assigns op = true) (hr : byteOf word 1 ∈ targets word op) : s'.pc = (s.past op).pc :=
    (assign_inv ha hp he).pc (htarget _ hr)
  have hkeep (hc : .pc ∉ opKinds op) (hr : .register ∉ opKinds op) : s'.pc = s.pc :=
    (handler_changes op).pc hc hr h.run
  cases op with
  | movRR | movRW | addRR | addRW | subRR | subRW | mulRR | mulRW | incR | decR | andRR | andRW | orRR | orRW
  | xorRR | xorRW | loadRR | loadRRW | loadRW => exact hassign rfl List.mem_cons_self
  | popR | popRR | popRRR => exact popRegisters_pc he htarget
  | popa => exact popRegisters_pc ⟨he.run, he.ok⟩ (generalRegisters_pc (hpopa rfl))
  | cmpRW =>
    obtain ⟨_, _, hr, _⟩ := registerGet_inv he rfl
    cases hr
    rfl
  | pushW =>
    generalize s.operands word = o at he
    have hpush : Changing [.error, .sp, .store] (do let _ ← pushWord o.w0) :=
      (pushWord_changes (by decide) (by decide) (by decide) _).changing.bind fun _ => Within.pure _
    exact hpush.pc (by decide) (by decide) (wordArg_inv he).run
  | storRW =>
    obtain ⟨v, _, hwrite⟩ := registerGet_inv (wordArg_inv he) rfl
    have hskip : s.skip.state.panic = .ok := hp
    rw [CPU.setPanic_ok hskip] at hwrite
    have hchanges : Changing [.error, .store] (writeWord (s.operands word).w0 v) :=
      (writeWord_changes (by decide) (by decide) _ _).changing
    exact hchanges.pc (by decide) (by decide) hwrite.run
  | jeqS | jeqA =>
    have hz : s.flags.zero ≠ true := fun hz => hpc (.inl hz)
    cases (effectIf_skip hz).symm.trans he.run
    rfl
  | jneS | jneA =>
    have hz : s.flags.zero ≠ false := fun hz => hpc (.inl hz)
    cases (effectIf_skip hz).symm.trans he.run
    rfl
  | jS | jA | callS | callA | callR | ret | iret => exact absurd (.inl trivial) hpc
  | _ => exact hkeep (by decide) (by decide)

omit [Host] in
/-- A call pushes `pc`. -/
lemma callTo_inv {target : CPU → Word → Addr} {a : Word} (h : Ends (callTo target a) s s') :
    busWordRead s'.heap s'.bus s'.sp = some (.ok s.pc) := by
  obtain ⟨hr, hok⟩ := h
  have hrun : (pushWord s.pc s).bind (fun x => (if x.1 then do setPc (target (← get) a) else pure ()) x.2) =
      some ((), s') := hr
  rcases hw : busWordWrite s.heap s.bus (s.sp - wordSize) s.pc with _ | (e | ⟨heap, conds⟩)
  · rw [pushWord_none hw] at hrun
    cases hrun
  · rw [pushWord_error hw] at hrun
    cases hrun
    cases hok
  · rw [pushWord_ok hw] at hrun
    cases hrun
    exact busWordRead_write hw

/-- The return address of a call. -/
lemma handler_pushed (hop : ops (byteOf word 0) = some op) (hp : s.state.panic = .ok)
    (h : Ends (handler op word) s s') (hcall : op = .callS ∨ op = .callA ∨ op = .callR) :
    busWordRead s'.heap s'.bus s'.sp = some (.ok (s.past op).pc) := by
  have he := handler_inv hop hp h
  rcases hcall with rfl | rfl | rfl
  · have hrest : Ends (callTo segmentTarget (s.operands word).w0) s.skip s' := ⟨he.run, he.ok⟩
    exact callTo_inv hrest
  · have hrest : Ends (callTo absoluteTarget (s.operands word).w0) s.skip s' := ⟨he.run, he.ok⟩
    exact callTo_inv hrest
  · obtain ⟨v, _, hrest⟩ := registerGet_inv he rfl
    rw [CPU.setPanic_ok hp] at hrest
    exact callTo_inv hrest

/-- With 255 registers the first word that is popped is `pc`. -/
lemma popa_pc (hop : ops (byteOf word 0) = some .popa) (hp : s.state.panic = .ok)
    (h : Ends (handler .popa word) s s') (hcount : s.registerCount = 255) :
    busWordRead s.heap s.bus s.sp = some (.ok s'.pc) := by
  have he := handler_inv hop hp h
  have hpops : Ends (popRegisters (generalRegisters s.registerCount).reverse) s s' := ⟨he.run, he.ok⟩
  have hlist : (generalRegisters 255).reverse = 254 :: (generalRegisters 254).reverse := by
    have hsnoc : generalRegisters 255 = generalRegisters 254 ++ [254] := by
      show (List.range 255).map (BitVec.ofNat 8) = (List.range 254).map (BitVec.ofNat 8) ++ [254]
      rw [List.range_succ, List.map_append]
      rfl
    rw [hsnoc, List.reverse_append]
    rfl
  rw [hcount, hlist] at hpops
  obtain ⟨w, s1, hw, hset, hrest⟩ := popRegisters_inv hpops
  rw [popRegisters_pc hrest (generalRegisters_pc (by decide)), hw]
  cases hset
  rfl

/-! ### Turns -/

/-- There is no error but that of the debugger, which has missed the operand that it prints. -/
def Excused (op : Op) (s : CPU) : Prop := s.state.panic = .ok ∨ (op.takesWord = true ∧ s.Unreadable)

/-- Printing an instruction changes nothing that is not excused. -/
lemma cpuInstructionToString_excused (hop : ops (byteOf word 0) = some op) :
    Triple (Excused op) (cpuInstructionToString word) fun _ => Excused op := by
  intro s text s' hs hr
  rcases cpuInstructionToString_cases hop s with ⟨_, h⟩ | ⟨hpw, _, hu, _, h⟩ | ⟨_, _, _, h⟩ <;> cases h.symm.trans hr
  · exact hs
  · exact .inr ⟨hpw.1, hu⟩

/-- The debugger leaves no other error, and what an operation depends on. -/
lemma trap_excused (hop : ops (byteOf word 0) = some op) (hp : e.state.panic = .ok)
    (h : trap word e = some ((), e')) : Excused op e' := by
  have htriple : Triple (Excused op) (trap word) fun _ => Excused op :=
    trap_triple (cpuInstructionToString_excused hop) fun _ _ _ _ hs => hs
  exact htriple (.inl hp) h

/-- The debugger leaves what an operation depends on. -/
structure Alike (s t : CPU) : Prop where
  heap : t.heap = s.heap
  bus : t.bus = s.bus
  pc : t.pc = s.pc
  sp : t.sp = s.sp
  flags : t.flags = s.flags
  registerCount : t.registerCount = s.registerCount

/-- The debugger leaves the machine alike. -/
lemma trap_alike (hop : ops (byteOf word 0) = some op) (h : trap word e = some ((), e')) : Alike e e' := by
  have htriple : Triple (Alike e) (trap word) fun _ => Alike e := by
    apply trap_triple
    · intro s text s' hs hr
      rcases cpuInstructionToString_cases hop s with ⟨_, h⟩ | ⟨_, _, _, _, h⟩ | ⟨_, _, _, h⟩ <;>
        cases h.symm.trans hr
      · exact hs
      · exact ⟨hs.heap, hs.bus, hs.pc, hs.sp, hs.flags, hs.registerCount⟩
    · intro s d input b hs
      exact ⟨hs.heap, hs.bus, hs.pc, hs.sp, hs.flags, hs.registerCount⟩
  exact htriple ⟨rfl, rfl, rfl, rfl, rfl, rfl⟩ h

/-- A turn that enters no interrupt fetches the word at `pc`. -/
lemma arrive_plain (hp : s.state.panic = .ok) (hw : busWordRead s.heap s.bus s.pc = some (.ok w))
    (h : arrive s = some (([], some (op, word)), e)) : word = htov w ∧ e = s.skip := by
  unfold arrive at h
  rw [bind_apply] at h
  obtain ⟨⟨entered, s1⟩, h1, h⟩ := Option.bind_eq_some_iff.mp h
  rw [bind_apply] at h
  obtain ⟨⟨w', s2⟩, h2, h⟩ := Option.bind_eq_some_iff.mp h
  have hentered : entered = [] := by
    rw [bind_apply, get_apply, Option.bind_some] at h
    dsimp only at h
    split at h
    · cases hop : ops (byteOf (htov w') 0) <;> rw [hop] at h <;> cases h
      rfl
    · cases h
  subst hentered
  rw [entryLogged_apply] at h1
  split at h1
  · obtain ⟨_, _, hr⟩ := Option.map_eq_some_iff.mp h1
    cases hr
  · cases h1
    rw [cpuFetch_ok hp hw] at h2
    cases h2
    rw [bind_apply, get_apply, Option.bind_some] at h
    dsimp only at h
    split at h
    · cases hop : ops (byteOf (htov w) 0) <;> rw [hop] at h <;> cases h
      exact ⟨rfl, rfl⟩
    · cases h

/-- A turn that executes an operation and enters no interrupt. -/
lemma turn_inv (hw : busWordRead s.heap s.bus s.pc = some (.ok w)) (h : turnLogged s = some ([.exec op], s')) :
    ops (byteOf (htov w) 0) = some op ∧ s.state.panic = .ok ∧
      ∃ e u, trap (htov w) s.skip = some ((), e) ∧ handler op (htov w) e = some ((), u) ∧ s' = u.stepped := by
  by_cases hgo : s.goesOn
  · rw [turnLogged_eq hgo] at h
    obtain ⟨⟨⟨log, x⟩, e⟩, ha, h⟩ := Option.bind_eq_some_iff.mp h
    rcases x with _ | ⟨op', word⟩
    · cases h
      exact absurd List.mem_cons_self (arrive_log ha op)
    · obtain ⟨⟨_, s1⟩, hoperate, h⟩ := Option.map_eq_some_iff.mp h
      obtain ⟨hlog, rfl⟩ := Prod.mk.inj h
      have hempty : log = [] ∧ op' = op := by
        cases log with
        | nil =>
          cases hlog
          exact ⟨rfl, rfl⟩
        | cons l log =>
          have hlen := congrArg List.length hlog
          simp at hlen
      obtain ⟨rfl, rfl⟩ := hempty
      obtain ⟨rfl, rfl⟩ := arrive_plain hgo.2 hw ha
      unfold operate at hoperate
      rw [bind_apply] at hoperate
      obtain ⟨⟨_, e⟩, htrap, hoperate⟩ := Option.bind_eq_some_iff.mp hoperate
      rw [bind_apply] at hoperate
      obtain ⟨⟨_, u⟩, hrun, hoperate⟩ := Option.bind_eq_some_iff.mp hoperate
      cases hoperate
      exact ⟨(arrive_inv ha).1, hgo.2, e, u, htrap, hrun, rfl⟩
  · rw [turnLogged_stop hgo] at h
    cases h

/-- A turn is in step with the assembler, but for a `POPA` that pops `pc`. -/
theorem inStep_iff (hw : busWordRead s.heap s.bus s.pc = some (.ok w))
    (h : turnLogged s = some ([.exec op], s')) (hok : s'.state.panic = .ok) :
    InStep op w s s' ↔ (op = .popa → s.registerCount = 255 →
      busWordRead s.heap s.bus s.sp = some (.ok (s.pc + addrSize))) := by
  obtain ⟨hop, hp, e, u, htrap, hrun, rfl⟩ := turn_inv hw h
  have hends : Ends (handler op (htov w)) e u := ⟨hrun, hok⟩
  have halike := trap_alike hop htrap
  have hpanic : e.state.panic = .ok := by
    have hskip : s.skip.state.panic = .ok := hp
    rcases trap_excused hop hskip htrap with he | ⟨ht, error, herror⟩
    · exact he
    · rcases handler_reads hop ht hends with ⟨w', hw'⟩ | ⟨_, rfl⟩
      · cases herror.symm.trans hw'
      · exact hok
  have hpast : (e.past op).pc = s.pc + BitVec.ofNat 32 op.length := past_pc halike.pc
  have hcount : e.registerCount = s.registerCount := halike.registerCount
  have hpops (hpopa : op = .popa) (hall : s.registerCount = 255) :
      busWordRead s.heap s.bus s.sp = some (.ok u.pc) := by
    subst hpopa
    have hread := popa_pc hop hpanic hends (hcount.trans hall)
    rw [halike.heap, halike.bus, halike.sp] at hread
    exact hread
  have hlength (hpopa : op = .popa) : s.pc + BitVec.ofNat 32 op.length = s.pc + addrSize := by
    rw [hpopa, Op.length_eq]
    rfl
  constructor
  · intro hstep hpopa hall
    have hpc : ¬ WritesPc op (htov w) s := by
      subst hpopa
      rintro (hl | ⟨r, hr, _⟩)
      · exact hl
      · cases hr
    rw [hpops hpopa hall, ← hlength hpopa]
    have hu : u.pc = s.pc + BitVec.ofNat 32 op.length := hstep.pc hpc
    rw [hu]
  · intro hcond
    refine ⟨fun hpc => ?_, fun hcall => ?_⟩
    -- With 255 registers `POPA` pops `pc` too; every other operation leaves it behind itself.
    · by_cases hall : op = .popa ∧ s.registerCount = 255
      · have hread := (hpops hall.1 hall.2).symm.trans (hcond hall.1 hall.2)
        rw [hlength hall.1]
        injection hread with hread
        injection hread
      · have hpc' : ¬ WritesPc op (htov w) e := by
          rintro (hl | hr)
          · apply hpc
            left
            unfold Leaves at hl ⊢
            rw [halike.flags] at hl
            exact hl
          · exact hpc (.inr hr)
        have hcount' (hpopa : op = .popa) : e.registerCount ≠ 255 := fun h => hall ⟨hpopa, hcount.symm.trans h⟩
        exact (handler_pc hop hpanic hends hpc' hcount').trans hpast
    · have hpushed := handler_pushed hop hpanic hends hcall
      rw [hpast] at hpushed
      exact hpushed

end

/-! ### Examples -/

/-- A machine with an operation at 0, and some memory behind it. -/
def longCpu (op : Op) (registerCount : Byte) : CPU :=
  let word : Word := op.bytecode ++ (0 : Byte) ++ (0 : Byte) ++ (0 : Byte)
  { smallCpu fun _ => { memoryCreate (fun _ => 0) 2048 .rw with raw := fun i => if i = 0 then word else 0 } with
    registerCount := registerCount, sp := 4 }

/-- An addition of a word is two words long. -/
theorem inStep_add : ∃ w s', @turnLogged ⟨.little⟩ (longCpu .addRW 32) = some ([.exec .addRW], s') ∧
    @InStep ⟨.little⟩ .addRW w (longCpu .addRW 32) s' := by
  have hrun : (@turnLogged ⟨.little⟩ (longCpu .addRW 32)).map (fun x => (x.1, x.2.state.panic)) =
      some ([.exec .addRW], .ok) := by decide +kernel
  obtain ⟨⟨log, s'⟩, hs', he⟩ := Option.map_eq_some_iff.mp hrun
  obtain ⟨rfl, hok⟩ := Prod.mk.inj he
  exact ⟨_, s', hs', (@inStep_iff ⟨.little⟩ _ _ _ _ rfl hs' hok).mpr fun h => Op.noConfusion h⟩

/-- With 255 registers `POPA` leaves the popped word in `pc`. -/
theorem not_inStep_popa : ∃ w s', busWordRead (longCpu .popa 255).heap (longCpu .popa 255).bus 0 = some (.ok w) ∧
    @turnLogged ⟨.little⟩ (longCpu .popa 255) = some ([.exec .popa], s') ∧ s'.state.panic = .ok ∧
      ¬ @InStep ⟨.little⟩ .popa w (longCpu .popa 255) s' := by
  have hrun : (@turnLogged ⟨.little⟩ (longCpu .popa 255)).map (fun x => (x.1, x.2.state.panic, x.2.pc)) =
      some ([.exec .popa], .ok, 0) := by decide +kernel
  obtain ⟨⟨log, s'⟩, hs', he⟩ := Option.map_eq_some_iff.mp hrun
  obtain ⟨rfl, he⟩ := Prod.mk.inj he
  obtain ⟨hok, hpc⟩ := Prod.mk.inj he
  have hno (word : Word) : ¬ @WritesPc ⟨.little⟩ .popa word (longCpu .popa 255) := by
    rintro (hl | ⟨r, hr, _⟩)
    · exact hl
    · cases hr
  refine ⟨_, s', rfl, hs', hok, fun h => ?_⟩
  have hstep := @InStep.pc ⟨.little⟩ _ _ _ _ h (hno _)
  rw [Op.length_eq] at hstep
  cases hpc.symm.trans hstep

end Thorium.Vm
