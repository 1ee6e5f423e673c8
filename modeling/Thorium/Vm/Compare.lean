import Thorium.Vm.Extras
import Thorium.Vm.Faults

/-!
# Comparing and subtracting

`CMP` is documented to update the flags as `SUB` with the same operands would. With two registers it does.
With a register and a word it reads the register before it fetches the word, while `SUB` reads it
afterwards: the two differ when the register is `pc` and the subtraction comes out across a change of the
flags (`Crosses`), and when there is no such register and no such word either. `cmp_like_sub` says exactly
when they agree.
-/

namespace Thorium.Vm
open Thorium.Isa Thorium.Run

/-- What an instruction leaves for the next ones: the error and the flags of the last result. -/
def CPU.verdict (s : CPU) : CpuError × Bool × Bool := (s.state.panic, s.flags.zero, s.flags.negative)

/-- The registers are as before, but `pc` may be behind the next word. -/
structure Keeps (s s' : CPU) : Prop where
  registers : ∀ r : Byte, r.toNat ≠ regPC → s'.register r = s.register r
  pc : s'.pc = s.pc ∨ s'.pc = s.pc + addrSize

/-- A comparison leaves what a subtraction leaves, and changes no register. -/
structure LikeSub (s : CPU) (cmp sub : Option (Unit × CPU)) : Prop where
  verdict : (cmp.map fun x => x.2.verdict) = sub.map fun x => x.2.verdict
  keeps : ∀ s', cmp = some ((), s') → Keeps s s'

/-- In a state in which a handler is called there is no error, or the debugger has missed the operand it
prints. -/
def Dispatched (s : CPU) : Prop := s.state.panic = .ok ∨ s.state.panic = .cannotReadMemory ∧ s.Unreadable

/-- The flags of a number and those of the number four above it differ. -/
def Crosses (d : Nat) : Prop := d = 0 ∨ (2 ^ 31 - 4 ≤ d ∧ d < 2 ^ 31) ∨ 2 ^ 32 - 4 ≤ d

/-- `CMP r, w` and `SUB r, w` agree, with the word `w` at `pc`. -/
def Comparable (s : CPU) (r : Byte) : Prop :=
  match busWordRead s.heap s.bus s.pc with
  | some (.ok w) => r.toNat = regPC → ¬ Crosses (s.pc - w).toNat
  | some (.error _) => (s.register r).isSome = true
  | none => (s.register r).isSome = true ∨ s.debug.printOp = true

/-! ### Flags -/

/-- Where adding the size of an address keeps the sign and whether the number is zero. -/
lemma crosses_iff (v : Word) :
    ¬ Crosses v.toNat ↔ (v == 0) = (v + addrSize == 0) ∧ v.msb = (v + addrSize).msb := by
  have hzero (u : Word) : (u == 0) = decide (u.toNat = 0) := by
    rw [Bool.eq_iff_iff, beq_iff_eq, decide_eq_true_iff]
    exact ⟨fun h => h ▸ rfl, fun h => BitVec.eq_of_toNat_eq h⟩
  have hadd : (v + addrSize).toNat = (v.toNat + 4) % 2 ^ 32 := BitVec.toNat_add _ _
  have hlt := v.isLt
  rw [hzero, hzero, BitVec.msb_eq_decide, BitVec.msb_eq_decide, decide_eq_decide, decide_eq_decide, hadd, Crosses]
  omega

/-! ### Registers -/

section
variable {s s1 : CPU} {r : Byte} {v : Word}

/-- Only `pc` depends on `pc`. -/
lemma register_skip (hr : r.toNat ≠ regPC) : s.skip.register r = s.register r := by
  unfold CPU.register
  rw [if_neg hr, if_neg hr]
  rfl

/-- The register `pc`. -/
lemma register_pc (hr : r.toNat = regPC) : s.register r = some s.pc := by
  unfold CPU.register
  rw [hr, if_neg (by decide), if_pos rfl]

/-- An assignment of a register that there is. -/
lemma registerSet_register (hr : s.register r = some v) (w : Word) :
    ∃ s', registerSet r w s = some ((), s') ∧ s'.verdict = (.ok, w == 0, w.msb) := by
  have hset : (s.setRegister r w).isSome = true := by
    rw [setRegister_isSome, hr]
    rfl
  obtain ⟨s', hs'⟩ := Option.isSome_iff_exists.mp hset
  exact ⟨_, registerSet_some hs', rfl⟩

end

/-- A computation after one that returns. -/
lemma bind_returned {α β : Type} {m : Run CPU α} {f : α → Run CPU β} {s t : CPU} {a : α} (h : m s = some (a, t)) :
    (m >>= f) s = f a t := by
  rw [bind_apply, h]
  rfl

/-! ### Two registers -/

section
variable [Host] {s : CPU} {word word' : Word} {r r' : Byte}

/-- An operation without a word argument is printed without a change. -/
lemma printInstruction_plain {op : Op} (hop : ops (byteOf word 0) = some op) (hw : op.takesWord = false) :
    printInstruction word s = some ((), s) := by
  rcases printInstruction_cases hop s with h | ⟨hpw, _⟩ | ⟨hpw, _⟩
  · exact h
  · cases hw.symm.trans hpw.1
  · cases hw.symm.trans hpw.1

/-- `CMP` of two registers. -/
lemma cmpRR_like (hop : ops (byteOf word 0) = some .cmpRR) (hop' : ops (byteOf word' 0) = some .subRR)
    (h1 : byteOf word' 1 = byteOf word 1) (h2 : byteOf word' 2 = byteOf word 2) :
    LikeSub s (handler .cmpRR word s) (handler .subRR word' s) := by
  have hprint := @printInstruction_plain _ s _ _ hop rfl
  have hprint' := @printInstruction_plain _ s _ _ hop' rfl
  rw [show handler .cmpRR word s = _ from bind_returned hprint,
    show handler .subRR word' s = _ from bind_returned hprint', h1, h2]
  dsimp only
  cases ha : s.register (byteOf word 1) with
  | none =>
    rw [bind_returned (registerGet_none ha), bind_returned (registerGet_none ha)]
    exact ⟨rfl, fun s' h => by cases h; exact ⟨fun _ _ => rfl, .inl rfl⟩⟩
  | some a =>
    rw [bind_returned (registerGet_some ha), bind_returned (registerGet_some ha)]
    dsimp only
    cases hb : (s.setPanic .ok).register (byteOf word 2) with
    | none =>
      rw [bind_returned (registerGet_none hb), bind_returned (registerGet_none hb)]
      exact ⟨rfl, fun s' h => by cases h; exact ⟨fun _ _ => rfl, .inl rfl⟩⟩
    | some b =>
      rw [bind_returned (registerGet_some hb), bind_returned (registerGet_some hb)]
      have ha' : ((s.setPanic .ok).setPanic .ok).register (byteOf word 1) = some a := ha
      obtain ⟨s', hrun, hverdict⟩ := registerSet_register ha' (a - b)
      dsimp only
      rw [hrun]
      refine ⟨?_, fun s' h => by cases h; exact ⟨fun _ _ => rfl, .inl rfl⟩⟩
      show some _ = some s'.verdict
      rw [hverdict]
      rfl

/-! ### A register and a word -/

omit [Host] in
/-- Whether two operations that end give the same verdict. -/
lemma likeSub_iff {cmp sub : Option (Unit × CPU)} {t u : CPU} (hc : cmp = some ((), t)) (hk : Keeps s t)
    (hs : sub = some ((), u)) : LikeSub s cmp sub ↔ t.verdict = u.verdict := by
  subst hc hs
  constructor
  · exact fun h => Option.some.inj h.verdict
  · exact fun h => ⟨congrArg some h, fun s' h' => by cases h'; exact hk⟩

omit [Host] in
/-- Two aborts. -/
lemma likeSub_none (s : CPU) : LikeSub s none none := ⟨rfl, fun _ h => absurd h.symm (Option.some_ne_none _)⟩

omit [Host] in
/-- A comparison that returns is not like a subtraction that is aborted. -/
lemma not_likeSub {cmp sub : Option (Unit × CPU)} {t : CPU} (hc : cmp = some ((), t)) (hs : sub = none) :
    ¬ LikeSub s cmp sub := by
  subst hc hs
  exact fun h => nomatch h.verdict

omit [Host] in
/-- An operand that is missing, or has been missed by the debugger. -/
lemma fetchOperand_missing {e : BusError} (hp : s.state.panic = .ok ∨ s.state.panic = .cannotReadMemory)
    (hb : busWordRead s.heap s.bus s.pc = some (.error e)) :
    ∃ t, fetchOperand s = some (none, t) ∧ t.verdict = (.cannotReadMemory, s.flags.zero, s.flags.negative) ∧
      Keeps s t := by
  rcases hp with hp | hp
  · refine ⟨(s.fault.setPanic .cannotReadMemory).skip, ?_, rfl, ⟨fun r hr => ?_, .inr rfl⟩⟩
    · rw [fetchOperand, bind_returned (cpuFetch_error hp hb)]
      rfl
    · rw [register_skip hr]
      rfl
  · have hne : s.state.panic ≠ .ok := by
      rw [hp]
      decide
    refine ⟨s.skip, ?_, ?_, ⟨fun r hr => register_skip hr, .inr rfl⟩⟩
    · rw [fetchOperand, bind_returned (cpuFetch_panic hne)]
      show some (if s.state.panic ≠ .ok then none else some 0, s.skip) = _
      rw [if_pos hne]
    · rw [← hp]
      rfl

/-- `CMP r, w` after it has been printed. -/
def compareWord (r : Byte) : Run CPU Unit := do
  if let some a ← registerGet r then
    if let some b ← fetchOperand then
      cpuFlagsUpdate (a - b)

/-- `SUB r, w` after it has been printed. -/
def subtractWord (r : Byte) : Run CPU Unit := do
  if let some b ← fetchOperand then
    if let some a ← registerGet r then
      registerSet r (a - b)

section
omit [Host]
variable {a w : Word} {t : CPU}

/-- The comparison with a register that does not exist. -/
lemma compareWord_none (ha : s.register r = none) :
    compareWord r s = some ((), s.fault.setPanic .invalidRegister) := by
  rw [compareWord, bind_returned (registerGet_none ha)]
  rfl

/-- The comparison with a word that is read. -/
lemma compareWord_ok (hp : s.state.panic = .ok) (ha : s.register r = some a)
    (hb : busWordRead s.heap s.bus s.pc = some (.ok w)) :
    compareWord r s = some ((), s.skip.flagsUpdate (a - w)) := by
  rw [compareWord, bind_returned (registerGet_some ha), CPU.setPanic_ok hp]
  dsimp only
  rw [bind_returned (fetchOperand_ok hp hb)]
  rfl

/-- The comparison with a word that is missing. -/
lemma compareWord_missing (ha : s.register r = some a) (hf : fetchOperand (s.setPanic .ok) = some (none, t)) :
    compareWord r s = some ((), t) := by
  rw [compareWord, bind_returned (registerGet_some ha)]
  dsimp only
  rw [bind_returned hf]
  rfl

/-- The comparison with a word whose reading aborts. -/
lemma compareWord_aborts (ha : s.register r = some a) (hb : busWordRead s.heap s.bus s.pc = none) :
    compareWord r s = none := by
  rw [compareWord, bind_returned (registerGet_some ha)]
  dsimp only
  rw [bind_apply, @fetchOperand_none (s.setPanic .ok) rfl hb]
  rfl

/-- The subtraction from a register that does not exist. -/
lemma subtractWord_none (hp : s.state.panic = .ok) (ha : s.skip.register r = none)
    (hb : busWordRead s.heap s.bus s.pc = some (.ok w)) :
    subtractWord r s = some ((), s.skip.fault.setPanic .invalidRegister) := by
  rw [subtractWord, bind_returned (fetchOperand_ok hp hb)]
  dsimp only
  rw [bind_returned (registerGet_none ha)]
  rfl

/-- The subtraction of a word that is read. -/
lemma subtractWord_ok (hp : s.state.panic = .ok) (ha : s.skip.register r = some a)
    (hb : busWordRead s.heap s.bus s.pc = some (.ok w)) :
    ∃ t, subtractWord r s = some ((), t) ∧ t.verdict = (.ok, a - w == 0, (a - w).msb) := by
  have ha' : (s.skip.setPanic .ok).register r = some a := ha
  obtain ⟨t, hrun, hverdict⟩ := registerSet_register ha' (a - w)
  refine ⟨t, ?_, hverdict⟩
  rw [subtractWord, bind_returned (fetchOperand_ok hp hb)]
  dsimp only
  rw [bind_returned (registerGet_some ha)]
  exact hrun

/-- The subtraction of a word that is missing. -/
lemma subtractWord_missing (hf : fetchOperand s = some (none, t)) : subtractWord r s = some ((), t) := by
  rw [subtractWord, bind_returned hf]
  rfl

/-- The subtraction of a word whose reading aborts. -/
lemma subtractWord_aborts (hp : s.state.panic = .ok) (hb : busWordRead s.heap s.bus s.pc = none) :
    subtractWord r s = none := by
  rw [subtractWord, bind_apply, fetchOperand_none hp hb]
  rfl

end

omit [Host] in
/-- An error changes no register. -/
lemma keeps_fault (e : CpuError) : Keeps s (s.fault.setPanic e) := ⟨fun _ _ => rfl, .inl rfl⟩

omit [Host] in
/-- Nor does the printing of an operand that is not there. -/
lemma Keeps.of_missed (h : Keeps s.missed t) : Keeps s t := by
  have hregister (r : Byte) : s.missed.register r = s.register r := rfl
  exact ⟨fun r hr => (h.registers r hr).trans (hregister r), h.pc⟩

omit [Host] in
/-- With the word there, the subtraction sees a `pc` behind it. -/
lemma compareWord_read {w : Word} (hp : s.state.panic = .ok) (hb : busWordRead s.heap s.bus s.pc = some (.ok w)) :
    LikeSub s (compareWord r s) (subtractWord r s) ↔ (r.toNat = regPC → ¬ Crosses (s.pc - w).toNat) := by
  cases ha : s.register r with
  | none =>
    have hpc : r.toNat ≠ regPC := fun hr => by cases ha.symm.trans (register_pc hr)
    have ha' : s.skip.register r = none := (register_skip hpc).trans ha
    rw [likeSub_iff (compareWord_none ha) (keeps_fault _) (subtractWord_none hp ha' hb)]
    exact ⟨fun _ hr => absurd hr hpc, fun _ => rfl⟩
  | some a =>
    have hkeeps : Keeps s (s.skip.flagsUpdate (a - w)) := ⟨fun _ hr => register_skip hr, .inr rfl⟩
    have hverdict : (s.skip.flagsUpdate (a - w)).verdict = (.ok, a - w == 0, (a - w).msb) := by
      rw [← hp]
      rfl
    by_cases hr : r.toNat = regPC
    · cases ha.symm.trans (register_pc hr)
      obtain ⟨t, hsub, ht⟩ := @subtractWord_ok s r (s.pc + addrSize) w hp (register_pc hr) hb
      have hmove : s.pc + addrSize - w = s.pc - w + addrSize := by bv_omega
      rw [likeSub_iff (compareWord_ok hp ha hb) hkeeps hsub, hverdict, ht, hmove, Prod.mk.injEq, Prod.mk.injEq,
        ← crosses_iff]
      exact ⟨fun h _ => h.2, fun h => ⟨rfl, h hr⟩⟩
    · obtain ⟨t, hsub, ht⟩ := subtractWord_ok hp ((register_skip hr).trans ha) hb
      rw [likeSub_iff (compareWord_ok hp ha hb) hkeeps hsub, hverdict, ht]
      exact ⟨fun _ h => absurd h hr, fun _ => rfl⟩

omit [Host] in
/-- Without the word, the comparison looks at the register first. It may have been missed by the printing
before. -/
lemma compareWord_missed {e : BusError} {t t' : CPU} (hp : s.state.panic = .ok ∨ s.state.panic = .cannotReadMemory)
    (hb : busWordRead s.heap s.bus s.pc = some (.error e)) (ht : t = s ∨ t = s.missed)
    (ht' : t' = s ∨ t' = s.missed) :
    LikeSub s (compareWord r t) (subtractWord r t') ↔ (s.register r).isSome = true := by
  have hsub : ∃ u, fetchOperand t' = some (none, u) ∧
      u.verdict = (.cannotReadMemory, s.flags.zero, s.flags.negative) := by
    rcases ht' with rfl | rfl
    · obtain ⟨u, hu, hverdict, _⟩ := fetchOperand_missing hp hb
      exact ⟨u, hu, hverdict⟩
    · obtain ⟨u, hu, hverdict, _⟩ := @fetchOperand_missing s.missed e (.inr rfl) hb
      exact ⟨u, hu, hverdict⟩
  obtain ⟨u, hsub, hu⟩ := hsub
  cases ha : s.register r with
  | none =>
    have hcmp : ∃ x, compareWord r t = some ((), x) ∧
        x.verdict = (.invalidRegister, s.flags.zero, s.flags.negative) ∧ Keeps s x := by
      rcases ht with rfl | rfl
      · exact ⟨_, compareWord_none ha, rfl, keeps_fault _⟩
      · exact ⟨_, @compareWord_none s.missed _ ha, rfl, (keeps_fault _).of_missed⟩
    obtain ⟨x, hcmp, hx, hkeeps⟩ := hcmp
    rw [likeSub_iff hcmp hkeeps (subtractWord_missing hsub), hx, hu]
    constructor
    · intro h
      cases (Prod.mk.inj h).1
    · nofun
  | some a =>
    have hcmp : ∃ x, compareWord r t = some ((), x) ∧
        x.verdict = (.cannotReadMemory, s.flags.zero, s.flags.negative) ∧ Keeps s x := by
      rcases ht with rfl | rfl
      · obtain ⟨x, hx, hverdict, hkeeps⟩ := @fetchOperand_missing (t.setPanic .ok) e (.inl rfl) hb
        exact ⟨x, compareWord_missing ha hx, hverdict, ⟨hkeeps.registers, hkeeps.pc⟩⟩
      · obtain ⟨x, hx, hverdict, hkeeps⟩ := @fetchOperand_missing (s.missed.setPanic .ok) e (.inl rfl) hb
        exact ⟨x, @compareWord_missing s.missed _ _ _ ha hx, hverdict, ⟨hkeeps.registers, hkeeps.pc⟩⟩
    obtain ⟨x, hcmp, hx, hkeeps⟩ := hcmp
    rw [likeSub_iff hcmp hkeeps (subtractWord_missing hsub), hx, hu]
    exact ⟨fun _ => rfl, fun _ => rfl⟩

/-- Without tracing nothing is printed. -/
lemma printInstruction_off (hoff : ¬ s.debug.printOp = true) : printInstruction word s = some ((), s) := by
  unfold printInstruction
  rw [bind_apply, get_apply, Option.bind_some]
  dsimp only
  rw [if_neg hoff]
  rfl

/-- Printing `CMP r, w` or `SUB r, w` aborts where reading the word does. -/
lemma printInstruction_aborts {op : Op} (hop : op = .cmpRW ∨ op = .subRW) (hops : ops (byteOf word 0) = some op)
    (hp : s.state.panic = .ok) (hb : busWordRead s.heap s.bus s.pc = none) (hon : s.debug.printOp = true) :
    printInstruction word s = none := by
  have hprinted : printed (byteOf word 0) = some op ∧ ∃ text, ∃ f : String → String,
      printedArgs word op = printedWord text >>= fun v => pure (f v) := by
    unfold printed
    rw [hops]
    rcases hop with rfl | rfl <;> exact ⟨rfl, _, _, rfl⟩
  obtain ⟨hpr, text, f, hargs⟩ := hprinted
  have hword : printedWord text s = none := by
    rw [printedWord, bind_apply, cpuReadPcWord_apply, if_neg (not_not.mpr hp), busRead_none hb]
    rfl
  unfold printInstruction
  rw [bind_apply, get_apply, Option.bind_some]
  dsimp only
  rw [if_pos hon]
  unfold cpuInstructionToString
  simp only [bind_apply, get_apply, Option.bind_some, hpr, hargs, hword, Option.bind_none]

/-- `CMP` of a register and a word. -/
lemma cmpRW_like_iff (hop : ops (byteOf word 0) = some .cmpRW) (hop' : ops (byteOf word' 0) = some .subRW)
    (h1 : byteOf word' 1 = byteOf word 1) (he : Dispatched s) :
    LikeSub s (handler .cmpRW word s) (handler .subRW word' s) ↔ Comparable s (byteOf word 1) := by
  have hcmp : handler .cmpRW word s = (printInstruction word s).bind fun x => compareWord (byteOf word 1) x.2 := rfl
  have hsub : handler .subRW word' s =
      (printInstruction word' s).bind fun x => subtractWord (byteOf word' 1) x.2 := rfl
  rw [hcmp, hsub, h1, Comparable]
  have hunread (hp : s.state.panic ≠ .ok) : s.state.panic = .cannotReadMemory ∧ s.Unreadable :=
    he.resolve_left hp
  rcases hb : busWordRead s.heap s.bus s.pc with _ | (e | w)
  · have hp : s.state.panic = .ok := by
      by_contra hne
      obtain ⟨_, e, herr⟩ := hunread hne
      cases hb.symm.trans herr
    by_cases hon : s.debug.printOp = true
    · rw [printInstruction_aborts (.inl rfl) hop hp hb hon, printInstruction_aborts (.inr rfl) hop' hp hb hon]
      exact iff_of_true (likeSub_none s) (.inr hon)
    · rw [printInstruction_off hon, printInstruction_off hon]
      show LikeSub s (compareWord _ s) (subtractWord _ s) ↔ (s.register _).isSome = true ∨ _
      rw [subtractWord_aborts hp hb, or_iff_left hon]
      cases ha : s.register (byteOf word 1) with
      | none => exact iff_of_false (not_likeSub (compareWord_none ha) rfl) nofun
      | some a =>
        rw [compareWord_aborts ha hb]
        exact iff_of_true (likeSub_none s) rfl
  · have hp : s.state.panic = .ok ∨ s.state.panic = .cannotReadMemory := he.imp_right And.left
    have hprint {op : Op} {word : Word} (hop : ops (byteOf word 0) = some op) :
        ∃ t, printInstruction word s = some ((), t) ∧ (t = s ∨ t = s.missed) := by
      rcases printInstruction_cases hop s with h | ⟨_, _, _, h⟩ | ⟨_, _, hn, _⟩
      · exact ⟨_, h, .inl rfl⟩
      · exact ⟨_, h, .inr rfl⟩
      · cases hb.symm.trans hn
    obtain ⟨t, ht, hmiss⟩ := hprint hop
    obtain ⟨t', ht', hmiss'⟩ := hprint hop'
    rw [ht, ht']
    exact compareWord_missed hp hb hmiss hmiss'
  · have hp : s.state.panic = .ok := by
      by_contra hne
      obtain ⟨_, e, herr⟩ := hunread hne
      cases hb.symm.trans herr
    rw [printInstruction_pure hop hp fun _ => ⟨w, hb⟩, printInstruction_pure hop' hp fun _ => ⟨w, hb⟩]
    exact compareWord_read hp hb

/-- A handler is called in such a state. -/
lemma trap_dispatched {op : Op} {s' : CPU} (hop : ops (byteOf word 0) = some op) (hp : s.state.panic = .ok)
    (h : trap word s = some ((), s')) : Dispatched s' := by
  have htriple : Triple Dispatched (trap word) fun _ => Dispatched := by
    apply trap_triple
    · intro t text t' ht hr
      rcases cpuInstructionToString_cases hop t with ⟨_, h⟩ | ⟨_, _, hu, _, h⟩ | ⟨_, _, _, h⟩ <;>
        cases h.symm.trans hr
      · exact ht
      · exact .inr ⟨rfl, hu⟩
    · exact fun _ _ _ _ ht => ht
  exact htriple (.inl hp) h

/-- **`CMP` sets the flags as `SUB` would**, with two registers in every state, and with a register and a
word in the states in which they are comparable, among those in which `cpu_loop` calls an operation. -/
theorem cmp_like_sub (s : CPU) (word word' : Word) (h1 : byteOf word' 1 = byteOf word 1)
    (h2 : byteOf word' 2 = byteOf word 2) :
    (ops (byteOf word 0) = some .cmpRR → ops (byteOf word' 0) = some .subRR →
      LikeSub s (handler .cmpRR word s) (handler .subRR word' s)) ∧
    (ops (byteOf word 0) = some .cmpRW → ops (byteOf word' 0) = some .subRW → Dispatched s →
      (LikeSub s (handler .cmpRW word s) (handler .subRW word' s) ↔ Comparable s (byteOf word 1))) ∧
    ∀ op s0, ops (byteOf word 0) = some op → s0.state.panic = .ok → trap word s0 = some ((), s) → Dispatched s :=
  ⟨fun hop hop' => cmpRR_like hop hop' h1 h2, fun hop hop' he => cmpRW_like_iff hop hop' h1 he,
    fun _ _ hop hp h => trap_dispatched hop hp h⟩

end

/-! ### Examples -/

/-- A machine behind the first word of an instruction, with a number in each word of its memory. -/
def wordCpu (w : Word) : CPU :=
  { smallCpu fun _ => { memoryCreate (fun _ => 0) 16 .rw with raw := fun _ => w } with pc := 4 }

/-- The first word of an instruction with a register. -/
def codeWord (op : Op) (r : Byte) : Word := ByteOrder.little.ofBytes op.bytecode r 0 0

/-- The comparison of `r0` with 5. -/
theorem cmp_like_sub_five : @LikeSub (wordCpu 5) (@handler ⟨.little⟩ .cmpRW (codeWord .cmpRW 0) (wordCpu 5))
    (@handler ⟨.little⟩ .subRW (codeWord .subRW 0) (wordCpu 5)) := by
  have h := @cmp_like_sub ⟨.little⟩ (wordCpu 5) (codeWord .cmpRW 0) (codeWord .subRW 0) (by decide +kernel)
    (by decide +kernel)
  have hread : busWordRead (wordCpu 5).heap (wordCpu 5).bus (wordCpu 5).pc = some (.ok 5) := by decide +kernel
  refine (h.2.1 (by decide +kernel) (by decide +kernel) (.inl rfl)).mpr ?_
  unfold Comparable
  rw [hread]
  intro hr
  cases hr

/-- The comparison of `pc` with the address of the word: it is 0, and the subtraction is not. -/
theorem not_cmp_like_sub : ¬ ∀ (s : CPU) (word word' : Word), @byteOf ⟨.little⟩ word' 1 = @byteOf ⟨.little⟩ word 1 →
    ops (@byteOf ⟨.little⟩ word 0) = some .cmpRW → ops (@byteOf ⟨.little⟩ word' 0) = some .subRW →
    s.state.panic = .ok → LikeSub s (@handler ⟨.little⟩ .cmpRW word s) (@handler ⟨.little⟩ .subRW word' s) := by
  intro h
  have hlike := h (wordCpu 4) (codeWord .cmpRW 254) (codeWord .subRW 254) (by decide +kernel) (by decide +kernel)
    (by decide +kernel) rfl
  have hcmp : (@handler ⟨.little⟩ .cmpRW (codeWord .cmpRW 254) (wordCpu 4)).map (fun x => x.2.verdict) =
      some (.ok, true, false) := by decide +kernel
  have hsub : (@handler ⟨.little⟩ .subRW (codeWord .subRW 254) (wordCpu 4)).map (fun x => x.2.verdict) =
      some (.ok, false, false) := by decide +kernel
  cases hcmp.symm.trans (hlike.verdict.trans hsub)

end Thorium.Vm
