import Thorium.Lib.Reach
import Thorium.Vm.Isolation
import Thorium.Vm.Loading

/-!
# A logic for programs

Total correctness of programs that run with interrupts disabled and access words of a part `R` of the memory only.
`Leads R P Q` says that the machine, once `P` holds, comes to a state in which `Q` holds. `At` is an assertion about
the machine before the instruction at a word of the program, and each operation has a rule that leads from one such
assertion to the next.
-/

namespace Thorium.Vm
open Thorium.Isa

/-- A flat memory with another word. -/
def Flat.set (m : Flat) (a : Addr) (w : Word) : Flat := { m with words := Function.update m.words a w }

/-- Words in the part `R` of a memory, from an address on. -/
def Flat.Holds (R : Addr → Prop) (m : Flat) (base : Addr) (ws : List Word) : Prop :=
  ∀ k w, ws[k]? = some w →
    m.readable (wordOffset base k) = true ∧ m.words (wordOffset base k) = w ∧ R (wordOffset base k)

/-- The machine is before the `k`-th word of the program at `base`. The registers but `pc` are those of `file`. -/
structure At (base : Addr) (k : Nat) (file : Byte → Word) (zero : Bool) (m : Flat) (c : Core) : Prop where
  running : c.running = true
  ok : c.error = .ok
  disabled : c.flags.interruptsEnabled = false
  count : 32 ≤ c.count.toNat
  pc : c.pc = wordOffset base k
  file : ∀ r, r ≠ Core.pcNumber → c.registers r = file r
  zero : c.flags.zero = zero
  memory : c.memory = m

/-- The machine has halted. -/
structure Halted (file : Byte → Word) (m : Flat) (c : Core) : Prop where
  stopped : c.running = false
  ok : c.error = .ok
  count : 32 ≤ c.count.toNat
  file : ∀ r, r ≠ Core.pcNumber → c.registers r = file r
  memory : c.memory = m

/-- The machine comes from `P` to `Q`, without interrupts and without accesses to words outside `R`. -/
def Leads (R : Addr → Prop) (P Q : Core → Prop) : Prop :=
  Reaches Core.happen .turn (fun c _ => c.Isolated R) P Q

section
variable {R : Addr → Prop} {m : Flat} {base a : Addr} {ws : List Word} {k t : Nat} {file : Byte → Word} {zero : Bool}
variable {c : Core} {op : Op} {r s r0 r1 r2 : Byte} {v w : Word} {Q : Core → Prop}

/-- A store keeps what can be read. -/
@[simp] lemma Flat.set_readable (m : Flat) (a : Addr) (w : Word) : (m.set a w).readable = m.readable := rfl

/-- A store keeps what can be written. -/
@[simp] lemma Flat.set_writable (m : Flat) (a : Addr) (w : Word) : (m.set a w).writable = m.writable := rfl

/-- The word that has been stored. -/
@[simp] lemma Flat.set_self (m : Flat) (a : Addr) (w : Word) : (m.set a w).words a = w := by simp [Flat.set]

/-- The other words are as before. -/
lemma Flat.set_of_ne (h : v ≠ a) : (m.set a w).words v = m.words v := by simp [Flat.set, h]

/-- A write behind the program. -/
lemma Flat.Holds.set (h : m.Holds R base ws) (ha : ∀ k < ws.length, wordOffset base k ≠ a) :
    (m.set a w).Holds R base ws := by
  intro k v hk
  obtain ⟨hr, hv, hR⟩ := h k v hk
  obtain ⟨hlt, _⟩ := List.getElem?_eq_some_iff.mp hk
  exact ⟨hr, (Flat.set_of_ne (ha k hlt)).trans hv, hR⟩

/-- A program that is written itself. -/
lemma Flat.Holds.setWord (h : m.Holds R base ws) (hk : k < ws.length) (hlen : ws.length ≤ 2 ^ 30) :
    (m.set (wordOffset base k) w).Holds R base (ws.set k w) := by
  intro j v hj
  rw [List.getElem?_set] at hj
  split at hj
  next e =>
    subst e
    cases hj
    obtain ⟨hr, _, hR⟩ := h k ws[k] (List.getElem?_eq_getElem hk)
    exact ⟨hr, m.set_self _ _, hR⟩
  next hne =>
    obtain ⟨hr, hv, hR⟩ := h j v hj
    have hlt := (List.getElem?_eq_some_iff.mp hj).1
    have hother : wordOffset base j ≠ wordOffset base k :=
      fun e => hne (wordOffset_inj (hlt.trans_le hlen) (hk.trans_le hlen) e).symm
    exact ⟨hr, (Flat.set_of_ne hother).trans hv, hR⟩

/-- The arguments of an instruction are decoded. -/
lemma argument_instruction (op : Op) (r0 r1 r2 : Byte) :
    Core.argument (instruction op r0 r1 r2) 0 = op.bytecode ∧ Core.argument (instruction op r0 r1 r2) 1 = r0 ∧
      Core.argument (instruction op r0 r1 r2) 2 = r1 ∧ Core.argument (instruction op r0 r1 r2) 3 = r2 :=
  ByteOrder.byteAt_ofBytes .big _ _ _ _

/-! ### States -/

/-- The numbers below 32 are those of general registers. -/
lemma general_ne (hr : r < 32) : r ≠ Core.pcNumber ∧ r ≠ Core.spNumber ∧ r ≠ Core.csNumber := by
  have hspecial : (32 : Byte) ≤ Core.pcNumber ∧ (32 : Byte) ≤ Core.spNumber ∧ (32 : Byte) ≤ Core.csNumber := by decide
  obtain ⟨hpc, hsp, hcs⟩ := hspecial
  exact ⟨fun e => absurd hr (BitVec.not_lt.mpr (e ▸ hpc)), fun e => absurd hr (BitVec.not_lt.mpr (e ▸ hsp)),
    fun e => absurd hr (BitVec.not_lt.mpr (e ▸ hcs))⟩

section
variable (hr : r < 32)
include hr

/-- `cs` is not among the general registers. -/
@[simp] lemma update_cs : Function.update file r v Core.csNumber = file Core.csNumber :=
  Function.update_of_ne (general_ne hr).2.2.symm v file

/-- `sp` is not among the general registers. -/
@[simp] lemma update_sp : Function.update file r v Core.spNumber = file Core.spNumber :=
  Function.update_of_ne (general_ne hr).2.1.symm v file

/-- The general registers are not changed with `sp`. -/
@[simp] lemma sp_update : Function.update file Core.spNumber v r = file r :=
  Function.update_of_ne (general_ne hr).2.1 v file

end

/-- `cs` is not changed with `sp`. -/
@[simp] lemma sp_update_cs : Function.update file Core.spNumber v Core.csNumber = file Core.csNumber :=
  Function.update_of_ne (by decide : Core.csNumber ≠ Core.spNumber) v file

namespace At
variable (h : At base k file zero m c)
include h

/-- The general registers exist. -/
lemma has (hr : r < 32) : c.has r = true := by
  have hcount := h.count
  have hlt : r < c.count := Nat.lt_of_lt_of_le hr hcount
  simp [Core.has, hlt]

/-- The value of a general register. -/
lemma general (hr : r < 32) : c.registers r = file r := h.file r (general_ne hr).1

/-- The value of `sp`. -/
lemma sp : c.sp = file Core.spNumber := h.file _ (by decide)

/-- The value of `cs`. -/
lemma cs : c.cs = file Core.csNumber := h.file _ (by decide)

/-- A jump to a word of the program. -/
lemma jump (t : Nat) : At base t file zero m (c.jump (wordOffset base t)) where
  running := h.running
  ok := h.ok
  disabled := h.disabled
  count := h.count
  pc := c.put_self _ _
  file r hr := (c.put_of_ne hr _).trans (h.file r hr)
  zero := h.zero
  memory := h.memory

/-- The machine goes on to the next word. -/
lemma advance : At base (k + 1) file zero m c.advance := by
  have hnext : c.pc + addrSize = wordOffset base (k + 1) := by
    rw [h.pc, wordOffset, wordOffset, addrSize]
    bv_omega
  rw [Core.advance, hnext]
  exact h.jump (k + 1)

/-- A value is put into a register. -/
lemma put (hr : r ≠ Core.pcNumber) (v : Word) : At base k (Function.update file r v) zero m (c.put r v) where
  running := h.running
  ok := h.ok
  disabled := h.disabled
  count := h.count
  pc := (c.put_of_ne hr.symm v).trans h.pc
  file r' hr' := by
    rw [Function.update_apply]
    split
    next e => rw [e, Core.put_self]
    next e => rw [c.put_of_ne e, h.file r' hr']
  zero := h.zero
  memory := h.memory

/-- The flags after a value has been assigned. -/
lemma setFlags (v : Word) : At base k file (v == 0) m (c.setFlags v) :=
  ⟨h.running, h.ok, h.disabled, h.count, h.pc, h.file, rfl, h.memory⟩

/-- An error that is none changes nothing. -/
lemma clear : At base k file zero m (c.setError .ok) :=
  ⟨h.running, rfl, h.disabled, h.count, h.pc, h.file, h.zero, h.memory⟩

/-- An assignment to a general register. -/
lemma assign (hr : r < 32) (v : Word) : At base k (Function.update file r v) (v == 0) m (c.assign r v) := by
  rw [Core.assign, if_pos (h.has hr)]
  exact ((h.put (general_ne hr).1 v).setFlags v).clear

/-- A word is stored. -/
lemma place (a : Addr) (w : Word) : At base k file zero (m.set a w) (c.place a w) where
  running := h.running
  ok := h.ok
  disabled := h.disabled
  count := h.count
  pc := h.pc
  file := h.file
  zero := h.zero
  memory := by rw [Core.place, h.memory, Flat.set]

/-- A word is written where that is allowed. -/
lemma write (ha : m.writable a = true) (w : Word) : At base k file zero (m.set a w) (c.write a w) := by
  rw [Core.write, h.memory, if_pos ha]
  exact h.place a w

/-- A word is pushed where that is allowed. -/
lemma push (ha : m.writable (file Core.spNumber - wordSize) = true) (v : Word) :
    At base k (Function.update file Core.spNumber (file Core.spNumber - wordSize)) zero
      (m.set (file Core.spNumber - wordSize) v) (c.push v) := by
  rw [Core.push, h.sp]
  exact (h.put (by decide) _).write ha v

/-- An operand in a general register. -/
lemma withRegister {f : Word → Core} (hr : r < 32) : c.withRegister r f = f (file r) := by
  rw [Core.withRegister, if_pos (h.has hr), h.general hr]

/-- An operand in the memory. -/
lemma withWord {f : Word → Core} (ha : m.readable a = true) : c.withWord a f = f (m.words a) := by
  rw [Core.withWord, h.memory, if_pos ha]

/-- The operand that follows the instruction. -/
lemma withOperand {f : Word → Core → Core} (hm : m.Holds R base ws) (hw : ws[k]? = some w) :
    c.withOperand f = f w c.advance := by
  obtain ⟨hr, hv, _⟩ := hm k w hw
  rw [Core.withOperand, h.memory, h.pc, if_pos hr, hv]

/-- An operand belongs to the program. -/
lemma operand (hm : m.Holds R base ws) (hw : ws[k]? = some w) : R c.pc := by
  rw [h.pc]
  exact (hm k w hw).2.2

end At

/-! ### Rules -/

namespace Leads

/-- Programs are put together. -/
lemma trans {P P' : Core → Prop} (h : Leads R P P') (h' : Leads R P' Q) : Leads R P Q := Reaches.trans h h'

/-- The rule for an instruction: what holds of the effect of its operation. -/
lemma instruction (hm : m.Holds R base ws) (hw : ws[k]? = some (instruction op r0 r1 r2))
    (hd : Core.debugs op = false)
    (h : ∀ c, At base (k + 1) file zero m c → (∀ a ∈ c.accesses op r0 r1 r2, R a) ∧ Q (c.exec op r0 r1 r2)) :
    Leads R (At base k file zero m) Q := by
  apply Reaches.one
  intro c hc
  obtain ⟨hr, hv, hR⟩ := hm k _ hw
  rw [← hc.pc, ← hc.memory] at hr hv
  obtain ⟨h0, h1, h2, h3⟩ := argument_instruction op r0 r1 r2
  obtain ⟨haccess, hq⟩ := h c.advance hc.advance
  refine ⟨fun _ _ => ⟨hc.disabled, fun a ha => ?_⟩, c.advance.exec op r0 r1 r2, ?_, hq⟩
  · rw [Core.footprint, hv] at ha
    rw [h0, ops_bytecode, h1, h2, h3] at ha
    cases List.mem_cons.mp ha with
    | inl e =>
      rw [e, hc.pc]
      exact hR
    | inr ha => exact haccess a ha
  · have haccept : c.accept = c := by
      rw [Core.accept, hc.disabled]
      exact if_neg Bool.false_ne_true
    show c.turn = _
    rw [Core.turn, if_pos ⟨hc.running, hc.ok⟩, haccept, Core.step, if_neg (not_not.mpr hc.ok), if_pos hr, hv]
    dsimp only
    rw [h0, ops_bytecode, h1, h2, h3]
    dsimp only
    rw [if_neg (Bool.eq_false_iff.mp hd)]

section
variable (hm : m.Holds R base ws)
include hm

/-- `MOV r, w` -/
lemma movRW (hw : ws[k]? = some (Vm.instruction .movRW r 0 0)) (hv : ws[k + 1]? = some v) (hr : r < 32) :
    Leads R (At base k file zero m) (At base (k + 2) (Function.update file r v) (v == 0) m) := by
  apply instruction hm hw rfl
  intro c hc
  refine ⟨fun a ha => ?_, ?_⟩
  · rw [List.mem_singleton.mp ha]
    exact hc.operand hm hv
  · rw [Core.exec, hc.withOperand hm hv]
    exact hc.advance.assign hr v

/-- `MOV r, s` -/
lemma movRR (hw : ws[k]? = some (Vm.instruction .movRR r s 0)) (hr : r < 32) (hs : s < 32) :
    Leads R (At base k file zero m) (At base (k + 1) (Function.update file r (file s)) (file s == 0) m) := by
  apply instruction hm hw rfl
  intro c hc
  refine ⟨fun a ha => (List.not_mem_nil ha).elim, ?_⟩
  rw [Core.exec, hc.withRegister hs]
  exact hc.assign hr _

/-- An operation on two registers. -/
lemma binaryRR {f : Word → Word → Word} (hexec : ∀ c r s, Core.exec c op r s 0 = c.binaryRR f r s)
    (haccess : ∀ c r s, Core.accesses c op r s 0 = []) (hd : Core.debugs op = false)
    (hw : ws[k]? = some (Vm.instruction op r s 0)) (hr : r < 32) (hs : s < 32) :
    Leads R (At base k file zero m)
      (At base (k + 1) (Function.update file r (f (file r) (file s))) (f (file r) (file s) == 0) m) := by
  apply instruction hm hw hd
  intro c hc
  refine ⟨fun a ha => ?_, ?_⟩
  · rw [haccess] at ha
    cases ha
  · rw [hexec, Core.binaryRR, hc.withRegister hr, hc.withRegister hs]
    exact hc.assign hr _

/-- `ADD r, s` -/
lemma addRR (hw : ws[k]? = some (Vm.instruction .addRR r s 0)) (hr : r < 32) (hs : s < 32) :
    Leads R (At base k file zero m)
      (At base (k + 1) (Function.update file r (file r + file s)) (file r + file s == 0) m) :=
  binaryRR hm (fun _ _ _ => rfl) (fun _ _ _ => rfl) rfl hw hr hs

/-- `MUL r, s` -/
lemma mulRR (hw : ws[k]? = some (Vm.instruction .mulRR r s 0)) (hr : r < 32) (hs : s < 32) :
    Leads R (At base k file zero m)
      (At base (k + 1) (Function.update file r (file r * file s)) (file r * file s == 0) m) :=
  binaryRR hm (fun _ _ _ => rfl) (fun _ _ _ => rfl) rfl hw hr hs

/-- An operation on a register and a word. -/
lemma binaryRW {f : Word → Word → Word} (hexec : ∀ c r, Core.exec c op r 0 0 = c.binaryRW f r)
    (haccess : ∀ c r, Core.accesses c op r 0 0 = [c.pc]) (hd : Core.debugs op = false)
    (hw : ws[k]? = some (Vm.instruction op r 0 0)) (hv : ws[k + 1]? = some v) (hr : r < 32) :
    Leads R (At base k file zero m)
      (At base (k + 2) (Function.update file r (f (file r) v)) (f (file r) v == 0) m) := by
  apply instruction hm hw hd
  intro c hc
  refine ⟨fun a ha => ?_, ?_⟩
  · rw [haccess, List.mem_singleton] at ha
    rw [ha]
    exact hc.operand hm hv
  · rw [hexec, Core.binaryRW, hc.withOperand hm hv, hc.advance.withRegister hr]
    exact hc.advance.assign hr _

/-- `SUB r, w` -/
lemma subRW (hw : ws[k]? = some (Vm.instruction .subRW r 0 0)) (hv : ws[k + 1]? = some v) (hr : r < 32) :
    Leads R (At base k file zero m) (At base (k + 2) (Function.update file r (file r - v)) (file r - v == 0) m) :=
  binaryRW hm (fun _ _ => rfl) (fun _ _ => rfl) rfl hw hv hr

/-- `DEC r` -/
lemma decR (hw : ws[k]? = some (Vm.instruction .decR r 0 0)) (hr : r < 32) :
    Leads R (At base k file zero m)
      (At base (k + 1) (Function.update file r (file r - 1)) (file r - 1 == 0) m) := by
  apply instruction hm hw rfl
  intro c hc
  refine ⟨fun a ha => (List.not_mem_nil ha).elim, ?_⟩
  rw [Core.exec, Core.unary, hc.withRegister hr]
  exact hc.assign hr _

/-- `CMP r, s` -/
lemma cmpRR (hw : ws[k]? = some (Vm.instruction .cmpRR r s 0)) (hr : r < 32) (hs : s < 32) :
    Leads R (At base k file zero m) (At base (k + 1) file (file r - file s == 0) m) := by
  apply instruction hm hw rfl
  intro c hc
  refine ⟨fun a ha => (List.not_mem_nil ha).elim, ?_⟩
  rw [Core.exec, hc.withRegister hr, hc.withRegister hs]
  exact hc.setFlags _

/-- `CMP r, w` -/
lemma cmpRW (hw : ws[k]? = some (Vm.instruction .cmpRW r 0 0)) (hv : ws[k + 1]? = some v) (hr : r < 32) :
    Leads R (At base k file zero m) (At base (k + 2) file (file r - v == 0) m) := by
  apply instruction hm hw rfl
  intro c hc
  refine ⟨fun a ha => ?_, ?_⟩
  · rw [List.mem_singleton.mp ha]
    exact hc.operand hm hv
  · rw [Core.exec, hc.withRegister hr, hc.withOperand hm hv]
    exact hc.advance.setFlags _

/-- A conditional jump in the segment. -/
lemma jumpIf {z : Bool} (hexec : ∀ c, Core.exec c op 0 0 0 = c.jumpIf z Core.segment)
    (haccess : ∀ c, Core.accesses c op 0 0 0 = [c.pc]) (hd : Core.debugs op = false)
    (hw : ws[k]? = some (Vm.instruction op 0 0 0)) (hv : ws[k + 1]? = some v)
    (ht : file Core.csNumber + v = wordOffset base t) :
    Leads R (At base k file zero m) (At base (if zero = z then t else k + 2) file zero m) := by
  apply instruction hm hw hd
  intro c hc
  refine ⟨fun a ha => ?_, ?_⟩
  · rw [haccess, List.mem_singleton] at ha
    rw [ha]
    exact hc.operand hm hv
  · rw [hexec, Core.jumpIf, hc.zero]
    split
    next hz =>
      rw [hc.withOperand hm hv, Core.segment, hc.advance.cs, ht]
      exact hc.advance.jump t
    next hz => exact hc.advance

/-- `JEQ @t` -/
lemma jeqS (hw : ws[k]? = some (Vm.instruction .jeqS 0 0 0)) (hv : ws[k + 1]? = some v)
    (ht : file Core.csNumber + v = wordOffset base t) :
    Leads R (At base k file zero m) (At base (if zero = true then t else k + 2) file zero m) :=
  jumpIf hm (fun _ => rfl) (fun _ => rfl) rfl hw hv ht

/-- `JNE @t` -/
lemma jneS (hw : ws[k]? = some (Vm.instruction .jneS 0 0 0)) (hv : ws[k + 1]? = some v)
    (ht : file Core.csNumber + v = wordOffset base t) :
    Leads R (At base k file zero m) (At base (if zero = false then t else k + 2) file zero m) :=
  jumpIf hm (fun _ => rfl) (fun _ => rfl) rfl hw hv ht

/-- `J @t` -/
lemma jS (hw : ws[k]? = some (Vm.instruction .jS 0 0 0)) (hv : ws[k + 1]? = some v)
    (ht : file Core.csNumber + v = wordOffset base t) :
    Leads R (At base k file zero m) (At base t file zero m) := by
  apply instruction hm hw rfl
  intro c hc
  refine ⟨fun a ha => ?_, ?_⟩
  · rw [List.mem_singleton.mp ha]
    exact hc.operand hm hv
  · rw [Core.exec, hc.withOperand hm hv, Core.segment, hc.advance.cs, ht]
    exact hc.advance.jump t

/-- `PUSH r` -/
lemma pushR (hw : ws[k]? = some (Vm.instruction .pushR r 0 0)) (hr : r < 32)
    (ha : m.writable (file Core.spNumber - wordSize) = true) (hR : R (file Core.spNumber - wordSize)) :
    Leads R (At base k file zero m)
      (At base (k + 1) (Function.update file Core.spNumber (file Core.spNumber - wordSize)) zero
        (m.set (file Core.spNumber - wordSize) (file r))) := by
  apply instruction hm hw rfl
  intro c hc
  refine ⟨fun a ha => ?_, ?_⟩
  · have hone : c.accesses .pushR r 0 0 = [c.sp - wordSize] := by
      show (if c.has r then _ else _) = _
      rw [if_pos (hc.has hr)]
      rfl
    rw [hone, List.mem_singleton, hc.sp] at ha
    rw [ha]
    exact hR
  · show At _ _ _ _ _ (if c.has r then _ else _)
    rw [if_pos (hc.has hr), hc.general hr]
    exact hc.clear.push ha _

/-- `POP r` -/
lemma popR (hw : ws[k]? = some (Vm.instruction .popR r 0 0)) (hr : r < 32)
    (ha : m.readable (file Core.spNumber) = true) (hR : R (file Core.spNumber)) :
    Leads R (At base k file zero m)
      (At base (k + 1) (Function.update (Function.update file Core.spNumber (file Core.spNumber + wordSize)) r
        (m.words (file Core.spNumber))) (m.words (file Core.spNumber) == 0) m) := by
  apply instruction hm hw rfl
  intro c hc
  refine ⟨fun a ha => ?_, ?_⟩
  · rw [List.mem_singleton.mp ha, hc.sp]
    exact hR
  · show At _ _ _ _ _ (c.withWord _ _)
    rw [hc.sp, hc.withWord ha]
    exact (hc.put (by decide) _).assign hr _

/-- `CALL @t` -/
lemma callS (hw : ws[k]? = some (Vm.instruction .callS 0 0 0)) (hv : ws[k + 1]? = some v)
    (ht : file Core.csNumber + v = wordOffset base t)
    (ha : m.writable (file Core.spNumber - wordSize) = true) (hR : R (file Core.spNumber - wordSize)) :
    Leads R (At base k file zero m)
      (At base t (Function.update file Core.spNumber (file Core.spNumber - wordSize)) zero
        (m.set (file Core.spNumber - wordSize) (wordOffset base (k + 2)))) := by
  apply instruction hm hw rfl
  intro c hc
  refine ⟨fun a ha => ?_, ?_⟩
  · cases List.mem_cons.mp ha with
    | inl e =>
      rw [e]
      exact hc.operand hm hv
    | inr ha =>
      rw [List.mem_singleton.mp ha, hc.sp]
      exact hR
  · have hnext := hc.advance
    rw [Core.exec, hc.withOperand hm hv, Core.segment, hnext.cs, ht, Core.call, hnext.memory, hnext.sp, if_pos ha,
      hnext.pc]
    exact (hnext.push ha _).jump t

/-- `RET`, to the word whose address is on the top of the stack -/
lemma ret (hw : ws[k]? = some (Vm.instruction .ret 0 0 0)) (ha : m.readable (file Core.spNumber) = true)
    (hR : R (file Core.spNumber)) (hv : m.words (file Core.spNumber) = wordOffset base t) :
    Leads R (At base k file zero m)
      (At base t (Function.update file Core.spNumber (file Core.spNumber + wordSize)) zero m) := by
  apply instruction hm hw rfl
  intro c hc
  refine ⟨fun a ha => ?_, ?_⟩
  · rw [List.mem_singleton.mp ha, hc.sp]
    exact hR
  · show At _ _ _ _ _ (c.ret _)
    rw [Core.ret, hc.sp, hc.withWord ha, hv]
    exact (hc.jump t).put (by decide) _

/-- `STOR r, s` -/
lemma storRR (hw : ws[k]? = some (Vm.instruction .storRR r s 0)) (hr : r < 32) (hs : s < 32)
    (ha : m.writable (file r) = true) (hR : R (file r)) :
    Leads R (At base k file zero m) (At base (k + 1) file zero (m.set (file r) (file s))) := by
  apply instruction hm hw rfl
  intro c hc
  refine ⟨fun a ha => ?_, ?_⟩
  · rw [List.mem_singleton.mp ha, hc.general hr]
    exact hR
  · rw [Core.exec, hc.withRegister hr, hc.withRegister hs]
    exact hc.write ha _

/-- `LOAD r, s` -/
lemma loadRR (hw : ws[k]? = some (Vm.instruction .loadRR r s 0)) (hr : r < 32) (hs : s < 32)
    (ha : m.readable (file s) = true) (hR : R (file s)) :
    Leads R (At base k file zero m)
      (At base (k + 1) (Function.update file r (m.words (file s))) (m.words (file s) == 0) m) := by
  apply instruction hm hw rfl
  intro c hc
  refine ⟨fun a ha => ?_, ?_⟩
  · rw [List.mem_singleton.mp ha, hc.general hs]
    exact hR
  · rw [Core.exec, hc.withRegister hs, hc.withWord ha]
    exact hc.assign hr _

/-- `HALT` -/
lemma halt (hw : ws[k]? = some (Vm.instruction .halt 0 0 0)) :
    Leads R (At base k file zero m) (Halted file m) := by
  apply instruction hm hw rfl
  intro c hc
  exact ⟨fun a ha => (List.not_mem_nil ha).elim, rfl, hc.ok, hc.count, hc.file, hc.memory⟩

end

end Leads

end

end Thorium.Vm
