import Thorium.Vm.Decode
import Thorium.Vm.Extras

/-!
# Operations that end without a panic

Inversion of operations that leave `CPU_ERR_OK`: each step that may have failed has succeeded (`*_inv`), so the
operation has its effect on the arguments that are there (`handler_inv`), and one that assigns a register
assigns the result of the table (`assign_inv`).
-/

namespace Thorium.Vm
open Thorium.Isa Thorium.Run

/-- A computation that ends without a panic. -/
structure Ends (m : Run CPU Unit) (s s' : CPU) : Prop where
  run : m s = some ((), s')
  ok : s'.state.panic = .ok

/-- The arguments of an operation whose word argument is at `pc`. -/
def CPU.operands [Host] (s : CPU) (word : Word) : Operands where
  r0 := byteOf word 1
  r1 := byteOf word 2
  r2 := byteOf word 3
  w0 := match busWordRead s.heap s.bus s.pc with
    | some (.ok w) => w
    | _ => 0

/-! ### Steps -/

section
variable {s s' : CPU} {r : Byte} {a : Addr} {v w : Word} {f : Option Word → Run CPU Unit}

/-- What comes back when nothing is returned ends with the panic that is there. -/
lemma Ends.pure (h : Ends (pure ()) s s') : s' = s := by
  have hr := h.run
  cases hr
  rfl

/-- What follows a look at the state. -/
lemma get_inv {k : CPU → Run CPU Unit} (h : Ends (get >>= k) s s') : Ends (k s) s s' := ⟨h.run, h.ok⟩

/-- What follows the fetch of a word. -/
lemma wordArg_inv {k : Word → Run CPU Unit} {w : Word} (h : Ends (wordArg w >>= k) s s') :
    Ends (k w) s.skip s' := ⟨h.run, h.ok⟩

/-- An operation that ends has found its register. -/
lemma registerGet_inv (h : Ends (registerGet r >>= f) s s') (hn : f none = Pure.pure ()) :
    ∃ v, s.register r = some v ∧ Ends (f (some v)) (s.setPanic .ok) s' := by
  obtain ⟨hr, hok⟩ := h
  rw [bind_apply] at hr
  cases hv : s.register r with
  | none =>
    rw [registerGet_none hv, Option.bind_some, hn] at hr
    cases hr
    cases hok
  | some v =>
    rw [registerGet_some hv] at hr
    exact ⟨v, rfl, hr, hok⟩

/-- An operation that ends has read its word. -/
lemma readWord_inv (h : Ends (readWord a >>= f) s s') (hn : f none = Pure.pure ()) :
    ∃ w, busWordRead s.heap s.bus a = some (.ok w) ∧ Ends (f (some w)) s s' := by
  obtain ⟨hr, hok⟩ := h
  rw [bind_apply] at hr
  rcases hw : busWordRead s.heap s.bus a with _ | (e | w)
  · rw [readWord_none hw] at hr
    cases hr
  · rw [readWord_error hw, Option.bind_some, hn] at hr
    cases hr
    cases hok
  · rw [readWord_ok hw] at hr
    exact ⟨w, rfl, hr, hok⟩

/-- An operation that ends has fetched its operand. -/
lemma fetchOperand_inv (h : Ends (fetchOperand >>= f) s s') (hn : f none = Pure.pure ()) :
    ∃ w, s.state.panic = .ok ∧ busWordRead s.heap s.bus s.pc = some (.ok w) ∧ Ends (f (some w)) s.skip s' := by
  obtain ⟨hr, hok⟩ := h
  rw [bind_apply] at hr
  by_cases hp : s.state.panic = .ok
  · rcases hw : busWordRead s.heap s.bus s.pc with _ | (e | w)
    · rw [fetchOperand, bind_apply, cpuFetch_none hp hw] at hr
      cases hr
    · have hmissed : fetchOperand s = some (none, (s.fault.setPanic .cannotReadMemory).skip) := by
        rw [fetchOperand, bind_apply, cpuFetch_error hp hw]
        rfl
      rw [hmissed, Option.bind_some, hn] at hr
      cases hr
      cases hok
    · rw [fetchOperand_ok hp hw] at hr
      exact ⟨w, hp, rfl, hr, hok⟩
  · have hpanic : fetchOperand s = some (none, s.skip) := by
      rw [fetchOperand, bind_apply, cpuFetch_panic hp]
      have hp' : s.skip.state.panic ≠ .ok := hp
      show some (if s.skip.state.panic ≠ .ok then none else some 0, s.skip) = _
      rw [if_pos hp']
    rw [hpanic, Option.bind_some, hn] at hr
    cases hr
    exact absurd hok hp

/-- An operation that ends has set its register. -/
lemma registerSet_inv (h : Ends (registerSet r v) s s') :
    ∃ s1, s.setRegister r v = some s1 ∧ s' = (s1.flagsUpdate v).setPanic .ok := by
  obtain ⟨hr, hok⟩ := h
  cases hv : s.setRegister r v with
  | none =>
    rw [registerSet_none hv] at hr
    cases hr
    cases hok
  | some s1 =>
    rw [registerSet_some hv] at hr
    cases hr
    exact ⟨s1, rfl, rfl⟩

end

/-! ### Printing -/

section
variable [Host] {op : Op} {word : Word} {s s' : CPU}

/-- An operation that has been printed is as it was, or has missed its operand. -/
lemma print_inv {k : Run CPU Unit} (hop : ops (byteOf word 0) = some op)
    (h : Ends (printInstruction word >>= fun _ => k) s s') :
    ∃ s1, Ends k s1 s' ∧ (s1 = s ∨ s1 = s.missed ∧ s.Unreadable) := by
  obtain ⟨hr, hok⟩ := h
  rw [bind_apply] at hr
  rcases printInstruction_cases hop s with hprint | ⟨_, _, hu, hprint⟩ | ⟨_, _, _, hprint⟩ <;> rw [hprint] at hr
  · exact ⟨s, ⟨hr, hok⟩, .inl rfl⟩
  · exact ⟨s.missed, ⟨hr, hok⟩, .inr ⟨rfl, hu⟩⟩
  · cases hr

/-- An operation that reads its word argument first has found it. -/
lemma fetch_reads {g : Option Word → Run CPU Unit} (hop : ops (byteOf word 0) = some op)
    (h : Ends (printInstruction word >>= fun _ => fetchOperand >>= g) s s') (hn : g none = pure ()) :
    ∃ w, busWordRead s.heap s.bus s.pc = some (.ok w) := by
  obtain ⟨s1, hbody, hs1⟩ := print_inv hop h
  obtain ⟨w, _, hw, _⟩ := fetchOperand_inv hbody hn
  rcases hs1 with rfl | ⟨rfl, _⟩
  · exact ⟨w, hw⟩
  · exact ⟨w, hw⟩

/-- So has one that reads a register before. -/
lemma getFetch_reads {r : Byte} {g : Option Word → Run CPU Unit} (hop : ops (byteOf word 0) = some op)
    (h : Ends (printInstruction word >>= fun _ => registerGet r >>= g) s s') (hn : g none = pure ())
    (hs : ∀ a, ∃ g' : Option Word → Run CPU Unit, g (some a) = fetchOperand >>= g' ∧ g' none = pure ()) :
    ∃ w, busWordRead s.heap s.bus s.pc = some (.ok w) := by
  obtain ⟨s1, h, hs1⟩ := print_inv hop h
  obtain ⟨v, _, h⟩ := registerGet_inv h hn
  obtain ⟨g', hg, hn'⟩ := hs v
  rw [hg] at h
  obtain ⟨w, _, hw, _⟩ := fetchOperand_inv h hn'
  rcases hs1 with rfl | ⟨rfl, _⟩
  · exact ⟨w, hw⟩
  · exact ⟨w, hw⟩

/-- A conditional jump has found its address, or moves behind it. -/
lemma jumpIf_reads {z : Bool} {target : CPU → Word → Addr} (hop : ops (byteOf word 0) = some op)
    (h : Ends (jumpIf z target word) s s') :
    (∃ w, busWordRead s.heap s.bus s.pc = some (.ok w)) ∨ (s.flags.zero ≠ z ∧ s' = s.skip) := by
  obtain ⟨s1, ⟨hr, hok⟩, hs1⟩ := print_inv hop h
  rw [bind_apply, get_apply, Option.bind_some] at hr
  dsimp only at hr
  split at hr
  · left
    obtain ⟨w, _, hw, _⟩ := fetchOperand_inv ⟨hr, hok⟩ rfl
    rcases hs1 with rfl | ⟨rfl, _⟩
    · exact ⟨w, hw⟩
    · exact ⟨w, hw⟩
  · rename_i hz
    cases hr
    rcases hs1 with rfl | ⟨rfl, _⟩
    · exact .inr ⟨hz, rfl⟩
    · cases hok

omit [Host] in
/-- A conditional jump that is not taken does not need its operand. -/
lemma effectIf_skip {z : Bool} {target : CPU → Word → Addr} {o : Operands} (hz : s.flags.zero ≠ z) :
    effectIf z target o s = some ((), s.skip) := by
  unfold effectIf
  rw [bind_apply, get_apply, Option.bind_some]
  dsimp only
  rw [if_neg hz]
  rfl

/-- An operation that ends without a panic has found its word argument, or is a jump that does not need it. -/
lemma handler_reads (hop : ops (byteOf word 0) = some op) (ht : op.takesWord = true)
    (h : Ends (handler op word) s s') :
    (∃ w, busWordRead s.heap s.bus s.pc = some (.ok w)) ∨ (NotTaken s op ∧ s' = s.skip) := by
  cases op with
  | movRW | addRW | subRW | mulRW | andRW | orRW | xorRW | storRW | loadRW | pushW | jS | jA | callS | callA =>
    exact .inl (fetch_reads hop h rfl)
  | cmpRW | loadRRW => exact .inl (getFetch_reads hop h rfl fun _ => ⟨_, rfl, rfl⟩)
  | jeqS | jeqA => exact (jumpIf_reads hop h).imp id fun h => ⟨Bool.eq_false_of_not_eq_true h.1, h.2⟩
  | jneS | jneA => exact (jumpIf_reads hop h).imp id fun h => ⟨Bool.eq_true_of_not_eq_false h.1, h.2⟩
  | _ => cases ht

omit [Host] in
/-- A jump that is not taken moves behind its operand. -/
lemma NotTaken.effect {o : Operands} (h : NotTaken s op) : effect op o s = some ((), s.skip) := by
  have hne {z : Bool} (hz : s.flags.zero = !z) : s.flags.zero ≠ z := by
    rw [hz]
    exact Bool.not_ne_self z
  cases op with
  | jeqS | jeqA | jneS | jneA => exact effectIf_skip (hne h)
  | _ => exact False.elim h

/-- An operation that ends without a panic has its effect. -/
theorem handler_inv (hop : ops (byteOf word 0) = some op) (hp : s.state.panic = .ok)
    (h : Ends (handler op word) s s') : Ends (effect op (s.operands word)) s s' := by
  have hof (hw : op.takesWord = true → ∃ w, busWordRead s.heap s.bus s.pc = some (.ok w)) :
      Ends (effect op (s.operands word)) s s' := by
    refine ⟨?_, h.ok⟩
    rw [← h.run]
    refine (handler_effect ⟨rfl, rfl, rfl⟩ hop hp fun ht => ?_).symm
    obtain ⟨w, hw⟩ := hw ht
    rw [CPU.operands, hw]
  cases ht : op.takesWord with
  | false => exact hof fun h => by cases ht.symm.trans h
  | true =>
    rcases handler_reads hop ht h with hw | ⟨hnt, rfl⟩
    · exact hof fun _ => hw
    · exact ⟨hnt.effect, h.ok⟩

end

/-! ### Assignments -/

/-- The word at an address. -/
def wordAt (heap : Heap) (bus : Bus) (a : Addr) : Option Word :=
  match busWordRead heap bus a with
  | some (.ok w) => some w
  | _ => none

/-- The result of an operation on its arguments, after the column `effect` of the table. A register is read
before the word argument in `CMP`, and after it in the other operations. -/
def result (o : Operands) (s : CPU) : Op → Option Word
  | .movRR => s.register o.r1
  | .movRW => some o.w0
  | .addRR => do return (← s.register o.r0) + (← s.register o.r1)
  | .addRW => do return (← s.skip.register o.r0) + o.w0
  | .subRR => do return (← s.register o.r0) - (← s.register o.r1)
  | .subRW => do return (← s.skip.register o.r0) - o.w0
  | .mulRR => do return (← s.register o.r0) * (← s.register o.r1)
  | .mulRW => do return (← s.skip.register o.r0) * o.w0
  | .incR => do return (← s.register o.r0) + 1
  | .decR => do return (← s.register o.r0) - 1
  | .andRR => do return (← s.register o.r0) &&& (← s.register o.r1)
  | .andRW => do return (← s.skip.register o.r0) &&& o.w0
  | .orRR => do return (← s.register o.r0) ||| (← s.register o.r1)
  | .orRW => do return (← s.skip.register o.r0) ||| o.w0
  | .xorRR => do return (← s.register o.r0) ^^^ (← s.register o.r1)
  | .xorRW => do return (← s.skip.register o.r0) ^^^ o.w0
  | .cmpRR => do return (← s.register o.r0) - (← s.register o.r1)
  | .cmpRW => do return (← s.register o.r0) - o.w0
  | .loadRR => do wordAt s.heap s.bus (← s.register o.r1)
  | .loadRRW => do wordAt s.heap s.bus ((← s.register o.r1) + o.w0)
  | .loadRW => wordAt s.heap s.bus o.w0
  | _ => none

/-- The operations that assign their result to a register. -/
def assigns : Op → Bool
  | .movRR | .movRW | .addRR | .addRW | .subRR | .subRW | .mulRR | .mulRW | .incR | .decR | .andRR | .andRW
  | .orRR | .orRW | .xorRR | .xorRW | .loadRR | .loadRRW | .loadRW => true
  | _ => false

/-- The CPU behind the word argument of an operation. -/
def CPU.past (s : CPU) (op : Op) : CPU := if op.takesWord then s.skip else s

section
variable {s s' : CPU} {o : Operands} {op : Op} {f : Word → Word → Word} {g : Word → Word} {w : Word}

/-- A word that can be read. -/
lemma wordAt_ok {heap : Heap} {bus : Bus} {a : Addr} (h : busWordRead heap bus a = some (.ok w)) :
    wordAt heap bus a = some w := by
  rw [wordAt, h]

/-- An assignment of a value that is known. -/
def Assigns (s : CPU) (r : Byte) (v : Option Word) (s' : CPU) : Prop :=
  ∃ w s1, v = some w ∧ s.setRegister r w = some s1 ∧ s' = (s1.flagsUpdate w).setPanic .ok

/-- The operations on two registers assign the first. -/
lemma effectRR_inv (hp : s.state.panic = .ok) (h : Ends (effectRR f o) s s') :
    Assigns s o.r0 (do return f (← s.register o.r0) (← s.register o.r1)) s' := by
  obtain ⟨a, ha, h⟩ := registerGet_inv h rfl
  rw [CPU.setPanic_ok hp] at h
  obtain ⟨b, hb, h⟩ := registerGet_inv h rfl
  rw [CPU.setPanic_ok hp] at h
  obtain ⟨s1, hs1, rfl⟩ := registerSet_inv h
  refine ⟨f a b, s1, ?_, hs1, rfl⟩
  rw [ha, hb]
  rfl

/-- The operations on a register and a word assign the register. -/
lemma effectRW_inv (hp : s.state.panic = .ok) (h : Ends (effectRW f o) s s') :
    Assigns s.skip o.r0 (do return f (← s.skip.register o.r0) o.w0) s' := by
  have hskip : s.skip.state.panic = .ok := hp
  obtain ⟨a, ha, h⟩ := registerGet_inv (wordArg_inv h) rfl
  rw [CPU.setPanic_ok hskip] at h
  obtain ⟨s1, hs1, rfl⟩ := registerSet_inv h
  refine ⟨f a o.w0, s1, ?_, hs1, rfl⟩
  rw [ha]
  rfl

/-- The operations on one register assign it. -/
lemma effectR_inv (hp : s.state.panic = .ok) (h : Ends (effectR g o) s s') :
    Assigns s o.r0 (do return g (← s.register o.r0)) s' := by
  obtain ⟨a, ha, h⟩ := registerGet_inv h rfl
  rw [CPU.setPanic_ok hp] at h
  obtain ⟨s1, hs1, rfl⟩ := registerSet_inv h
  refine ⟨g a, s1, ?_, hs1, rfl⟩
  rw [ha]
  rfl

/-- A word that is loaded. -/
lemma load_inv {a : Addr} {k : Option Word → Run CPU Unit} (h : Ends (readWord a >>= k) s s')
    (hn : k none = Pure.pure ()) (hw : ∀ w, k (some w) = registerSet o.r0 w) :
    Assigns s o.r0 (wordAt s.heap s.bus a) s' := by
  obtain ⟨w, hread, h⟩ := readWord_inv h hn
  rw [hw] at h
  obtain ⟨s1, hs1, rfl⟩ := registerSet_inv h
  exact ⟨w, s1, wordAt_ok hread, hs1, rfl⟩

/-- An operation that assigns a register assigns its result. -/
lemma assign_inv (ha : assigns op = true) (hp : s.state.panic = .ok) (h : Ends (effect op o) s s') :
    Assigns (s.past op) o.r0 (result o s op) s' := by
  cases op with
  | addRR | subRR | mulRR | andRR | orRR | xorRR => exact effectRR_inv hp h
  | addRW | subRW | mulRW | andRW | orRW | xorRW => exact effectRW_inv hp h
  | incR | decR => exact effectR_inv hp h
  | movRR =>
    obtain ⟨a, hr, h⟩ := registerGet_inv h rfl
    rw [CPU.setPanic_ok hp] at h
    obtain ⟨s1, hs1, rfl⟩ := registerSet_inv h
    exact ⟨a, s1, hr, hs1, rfl⟩
  | movRW =>
    have hrest : Ends (registerSet o.r0 o.w0) s.skip s' := ⟨h.run, h.ok⟩
    obtain ⟨s1, hs1, rfl⟩ := registerSet_inv hrest
    exact ⟨o.w0, s1, rfl, hs1, rfl⟩
  | loadRR =>
    obtain ⟨a, hr, h⟩ := registerGet_inv h rfl
    rw [CPU.setPanic_ok hp] at h
    rw [result, hr]
    exact load_inv h rfl fun _ => rfl
  | loadRW => exact load_inv (wordArg_inv h) rfl fun _ => rfl
  | loadRRW =>
    obtain ⟨a, hr, h⟩ := registerGet_inv h rfl
    rw [CPU.setPanic_ok hp] at h
    rw [result, hr]
    exact load_inv (wordArg_inv h) rfl fun _ => rfl
  | _ => cases ha

end

/-! ### Pops -/

/-- The last word that is popped into registers, from a stack pointer on. -/
def popped (heap : Heap) (bus : Bus) : Addr → List Byte → Option Word
  | _, [] => none
  | sp, r :: rs => do
    let w ← wordAt heap bus sp
    (popped heap bus (if r.toNat = regSP then w else sp + wordSize) rs).or (some w)

section
variable {s s' : CPU} {r : Byte} {rs : List Byte} {v w : Word}

/-- An assignment of another register leaves `pc`. -/
lemma setRegister_pc {s1 : CPU} (h : s.setRegister r w = some s1) (hr : r.toNat ≠ regPC) : s1.pc = s.pc := by
  unfold CPU.setRegister at h
  rw [if_neg hr] at h
  split_ifs at h <;> cases h <;> rfl

/-- What an assignment keeps, whether it succeeds or not. -/
lemma registerSet_keeps (h : registerSet r w s = some ((), s')) : s'.heap = s.heap ∧ s'.bus = s.bus ∧
    s'.sp = (if r.toNat = regSP then w else s.sp) ∧ (r.toNat ≠ regPC → s'.pc = s.pc) := by
  cases hv : s.setRegister r w with
  | none =>
    rw [registerSet_none hv] at h
    cases h
    have hsp : r.toNat ≠ regSP := by
      intro hr
      rw [CPU.setRegister, if_pos hr] at hv
      cases hv
    rw [if_neg hsp]
    exact ⟨rfl, rfl, rfl, fun _ => rfl⟩
  | some s1 =>
    rw [registerSet_some hv] at h
    cases h
    obtain ⟨hheap, hbus, _, _, hsp⟩ := setRegister_keeps hv
    have hpc (hr : r.toNat ≠ regPC) : s1.pc = s.pc := setRegister_pc hv hr
    exact ⟨hheap, hbus, hsp, hpc⟩

/-- The first pop, and the others. -/
lemma popRegisters_inv (h : Ends (popRegisters (r :: rs)) s s') : ∃ w s1,
    busWordRead s.heap s.bus s.sp = some (.ok w) ∧ registerSet r w s.up = some ((), s1) ∧
      Ends (popRegisters rs) s1 s' := by
  obtain ⟨w, hw, hrun, hok⟩ := readWord_inv (get_inv h) rfl
  have hset : (registerSet r w s.up).bind (fun x => popRegisters rs x.2) = some ((), s') := hrun
  obtain ⟨⟨_, s1⟩, h1, h2⟩ := Option.bind_eq_some_iff.mp hset
  exact ⟨w, s1, hw, h1, h2, hok⟩

/-- The flags are those of the last word. -/
lemma popRegisters_flags (h : Ends (popRegisters rs) s s') (hne : rs ≠ []) :
    ∃ v, popped s.heap s.bus s.sp rs = some v ∧ s'.flags.zero = (v == 0) ∧ s'.flags.negative = v.msb := by
  induction rs generalizing s with
  | nil => exact absurd rfl hne
  | cons r rs ih =>
    obtain ⟨w, s1, hw, hset, hrest⟩ := popRegisters_inv h
    rw [popped, wordAt_ok hw]
    cases rs with
    | nil =>
      have hlast : s' = s1 := hrest.pure
      subst hlast
      obtain ⟨s2, _, rfl⟩ := registerSet_inv ⟨hset, h.ok⟩
      exact ⟨w, rfl, rfl, rfl⟩
    | cons r' rs =>
      obtain ⟨v, hv, hflags⟩ := ih hrest (List.cons_ne_nil _ _)
      obtain ⟨hheap, hbus, hsp, _⟩ := registerSet_keeps hset
      have hs1 : s1.sp = if r.toNat = regSP then w else s.sp + wordSize := hsp
      rw [hheap, hbus, hs1] at hv
      refine ⟨v, ?_, hflags⟩
      show (popped s.heap s.bus _ (r' :: rs)).or (some w) = some v
      exact congrArg (Option.or · (some w)) hv

/-- Other registers leave `pc`. -/
lemma popRegisters_pc (h : Ends (popRegisters rs) s s') (hpc : ∀ r ∈ rs, r.toNat ≠ regPC) : s'.pc = s.pc := by
  induction rs generalizing s with
  | nil =>
    cases h.pure
    rfl
  | cons r rs ih =>
    obtain ⟨w, s1, _, hset, h⟩ := popRegisters_inv h
    rw [ih h fun r hr => hpc r (List.mem_cons_of_mem _ hr)]
    exact (registerSet_keeps hset).2.2.2 (hpc r List.mem_cons_self)

end

end Thorium.Vm
