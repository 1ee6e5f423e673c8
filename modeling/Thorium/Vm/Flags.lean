import Thorium.Vm.Outcome

/-!
# The flags

The flags after an operation against the column `flags` of the instruction table. `cpu_register_set` updates
them for every register that is assigned, so `LOAD` and `POP`, whose rows list no flags, set them too, and
follow the table only when the flags are those of the loaded word anyway (`flagsFollow_iff`).
-/

namespace Thorium.Vm
open Thorium.Isa Thorium.Run

/-- The flags that the row of an operation lists. -/
def flagsOf (op : Op) : List String := (op.row.map Instruction.flags).getD []

/-- The operations whose rows list `(flags n,z)`. -/
def flagged : Op → Bool
  | .movRR | .movRW | .addRR | .addRW | .subRR | .subRW | .mulRR | .mulRW | .incR | .decR | .andRR | .andRW
  | .orRR | .orRW | .xorRR | .xorRW | .cmpRR | .cmpRW => true
  | _ => false

/-- The other rows list none. -/
lemma flagsOf_eq (op : Op) : flagsOf op = if flagged op then ["n", "z"] else [] := by
  have h : ∀ op ∈ Op.all, flagsOf op = if flagged op then ["n", "z"] else [] := by decide +kernel
  exact h op op.mem_all

/-- The flags of a CPU are those of a word. -/
def CPU.flagsAre (s : CPU) (v : Word) : Prop := s.flags.zero = (v == 0) ∧ s.flags.negative = v.msb

/-- The flags follow the table: they are those of the result where the row lists them, and unchanged where it
lists none. -/
structure FlagsFollow (op : Op) (o : Operands) (s s' : CPU) : Prop where
  listed : flagsOf op = ["n", "z"] → ∃ v, result o s op = some v ∧ s'.flagsAre v
  unlisted : flagsOf op = [] → s'.flags.zero = s.flags.zero ∧ s'.flags.negative = s.flags.negative

/-- The last word that a load or a pop assigns to a register. -/
def loaded (o : Operands) (s : CPU) : Op → Option Word
  | .loadRR => result o s .loadRR
  | .loadRW => result o s .loadRW
  | .loadRRW => result o s .loadRRW
  | .popR => popped s.heap s.bus s.sp [o.r0]
  | .popRR => popped s.heap s.bus s.sp [o.r0, o.r1]
  | .popRRR => popped s.heap s.bus s.sp [o.r0, o.r1, o.r2]
  | .popa => popped s.heap s.bus s.sp (generalRegisters s.registerCount).reverse
  | _ => none

section
variable {s s' : CPU} {o : Operands} {op : Op} {r : Byte} {v : Option Word} {w : Word}

/-- An assignment sets the flags. -/
lemma Assigns.flags (h : Assigns s r v s') : ∃ w, v = some w ∧ s'.flagsAre w := by
  obtain ⟨w, s1, hv, _, rfl⟩ := h
  exact ⟨w, hv, rfl, rfl⟩

/-- Other changes keep them. -/
lemma Change.flags {k : Kind} (h : Change k s s') (hr : k ≠ .register) (hc : k ≠ .compare) :
    s'.flags.zero = s.flags.zero ∧ s'.flags.negative = s.flags.negative := by
  cases h with
  | register => exact absurd rfl hr
  | compare => exact absurd rfl hc
  | _ => exact ⟨rfl, rfl⟩

section
variable [Host] {word : Word}

/-- So do operations without an assignment. -/
lemma handler_flags (hr : .register ∉ opKinds op) (hc : .compare ∉ opKinds op)
    (h : handler op word s = some ((), s')) :
    s'.flags.zero = s.flags.zero ∧ s'.flags.negative = s.flags.negative := by
  refine (handler_changes op).invariant
    (P := fun t => t.flags.zero = s.flags.zero ∧ t.flags.negative = s.flags.negative) ?_ ⟨rfl, rfl⟩ h
  rintro t t' ⟨k, hk, hchange⟩ ⟨hz, hn⟩
  obtain ⟨hz', hn'⟩ := hchange.flags (fun e => hr (e ▸ hk)) (fun e => hc (e ▸ hk))
  exact ⟨hz'.trans hz, hn'.trans hn⟩

omit [Host] in
/-- A comparison sets the flags. -/
lemma compare_inv (h : Ends (effect op o) s s') (hp : s.state.panic = .ok) (hop : op = .cmpRR ∨ op = .cmpRW) :
    ∃ w, result o s op = some w ∧ s'.flagsAre w := by
  rcases hop with rfl | rfl
  · obtain ⟨a, ha, h⟩ := registerGet_inv h rfl
    rw [CPU.setPanic_ok hp] at h
    obtain ⟨b, hb, hr, _⟩ := registerGet_inv h rfl
    cases hr
    refine ⟨a - b, ?_, rfl, rfl⟩
    rw [result, ha, hb]
    rfl
  · obtain ⟨a, ha, hr, _⟩ := registerGet_inv h rfl
    cases hr
    refine ⟨a - o.w0, ?_, rfl, rfl⟩
    rw [result, ha]
    rfl

omit [Host] in
/-- The rows with flags. -/
lemma listed_flags (hf : flagged op = true) (h : Ends (effect op o) s s') (hp : s.state.panic = .ok) :
    ∃ w, result o s op = some w ∧ s'.flagsAre w := by
  have hassign (ha : assigns op = true) : ∃ w, result o s op = some w ∧ s'.flagsAre w :=
    (assign_inv ha hp h).flags
  cases op with
  | cmpRR => exact compare_inv h hp (.inl rfl)
  | cmpRW => exact compare_inv h hp (.inr rfl)
  | movRR | movRW | addRR | addRW | subRR | subRW | mulRR | mulRW | incR | decR | andRR | andRW | orRR | orRW
  | xorRR | xorRW => exact hassign rfl
  | _ => cases hf

omit [Host] in
/-- A word that is loaded or popped sets the flags. -/
lemma loaded_flags (h : Ends (effect op o) s s') (hp : s.state.panic = .ok) (hl : loaded o s op = some w) :
    s'.flagsAre w := by
  have hload (ha : assigns op = true) (he : loaded o s op = result o s op) : s'.flagsAre w := by
    obtain ⟨w', hw', hflags⟩ := (assign_inv ha hp h).flags
    rw [he, hw'] at hl
    cases hl
    exact hflags
  have hpop {rs : List Byte} (hh : Ends (popRegisters rs) s s')
      (he : loaded o s op = popped s.heap s.bus s.sp rs) : s'.flagsAre w := by
    have hne : rs ≠ [] := by
      rintro rfl
      cases he.symm.trans hl
    obtain ⟨w', hw', hflags⟩ := popRegisters_flags hh hne
    rw [he, hw'] at hl
    cases hl
    exact hflags
  cases op with
  | loadRR | loadRW | loadRRW => exact hload rfl rfl
  | popR | popRR | popRRR => exact hpop h rfl
  | popa => exact hpop ⟨h.run, h.ok⟩ rfl
  | _ => cases hl

/-- Where nothing is loaded or popped, the flags stay. -/
lemma unlisted_flags (hop : ops (byteOf word 0) = some op) (hf : flagged op = false) (hp : s.state.panic = .ok)
    (h : Ends (handler op word) s s') (hl : loaded (s.operands word) s op = none) :
    s'.flags.zero = s.flags.zero ∧ s'.flags.negative = s.flags.negative := by
  have he := handler_inv hop hp h
  have hload (ha : assigns op = true) (heq : loaded (s.operands word) s op = result (s.operands word) s op) :
      s'.flags.zero = s.flags.zero ∧ s'.flags.negative = s.flags.negative := by
    obtain ⟨w, hw, _⟩ := (assign_inv ha hp he).flags
    cases (heq.symm.trans hl).symm.trans hw
  have hpop {rs : List Byte} (hh : Ends (popRegisters rs) s s')
      (heq : loaded (s.operands word) s op = popped s.heap s.bus s.sp rs) :
      s'.flags.zero = s.flags.zero ∧ s'.flags.negative = s.flags.negative := by
    cases rs with
    | nil =>
      rw [hh.pure]
      exact ⟨rfl, rfl⟩
    | cons r rs =>
      obtain ⟨w, hw, _⟩ := popRegisters_flags hh (List.cons_ne_nil _ _)
      cases (heq.symm.trans hl).symm.trans hw
  cases op with
  | loadRR | loadRW | loadRRW => exact hload rfl rfl
  | popR | popRR | popRRR => exact hpop he rfl
  | popa => exact hpop ⟨he.run, he.ok⟩ rfl
  | movRR | movRW | addRR | addRW | subRR | subRW | mulRR | mulRW | incR | decR | andRR | andRW | orRR | orRW
  | xorRR | xorRW | cmpRR | cmpRW => cases hf
  | _ => exact handler_flags (by decide) (by decide) h.run

/-- The flags follow the table exactly when a word that is loaded or popped has the flags there are. -/
theorem flagsFollow_iff (hop : ops (byteOf word 0) = some op) (hp : s.state.panic = .ok)
    (h : Ends (handler op word) s s') : FlagsFollow op (s.operands word) s s' ↔
      ∀ w, loaded (s.operands word) s op = some w → s.flagsAre w := by
  have he := handler_inv hop hp h
  cases hf : flagged op with
  | true =>
    have hlist : flagsOf op = ["n", "z"] := by
      rw [flagsOf_eq, hf]
      rfl
    have hnone : loaded (s.operands word) s op = none := by
      cases op with
      | loadRR | loadRW | loadRRW | popR | popRR | popRRR | popa => cases hf
      | _ => rfl
    refine iff_of_true ⟨fun _ => listed_flags hf he hp, fun hl => ?_⟩ fun w hw => ?_
    · cases hlist.symm.trans hl
    · cases hnone.symm.trans hw
  | false =>
    have hlist : flagsOf op = [] := by
      rw [flagsOf_eq, hf]
      rfl
    constructor
    · intro hfollow w hw
      obtain ⟨hz, hn⟩ := hfollow.unlisted hlist
      obtain ⟨hz', hn'⟩ := loaded_flags he hp hw
      exact ⟨hz.symm.trans hz', hn.symm.trans hn'⟩
    · intro hsame
      refine ⟨fun hl => ?_, fun _ => ?_⟩
      · cases hlist.symm.trans hl
      · cases hl : loaded (s.operands word) s op with
        | none => exact unlisted_flags hop hf hp h hl
        | some w =>
          obtain ⟨hz, hn⟩ := hsame w hl
          obtain ⟨hz', hn'⟩ := loaded_flags he hp hl
          exact ⟨hz'.trans hz.symm, hn'.trans hn.symm⟩

end

end

/-! ### Examples -/

/-- The word of an operation on `r0` and `r1`, as it is decoded. -/
def pairWord [Host] (op : Op) : Word := htov (op.bytecode ++ (0 : Byte) ++ (1 : Byte) ++ (0 : Byte))

/-- A sum of 0 sets the zero flag. -/
theorem flagsFollow_add :
    ∃ s', @Ends (@handler ⟨.little⟩ .addRR (@pairWord ⟨.little⟩ .addRR)) (smallCpu smallHeap) s' ∧
      FlagsFollow .addRR (@CPU.operands ⟨.little⟩ (smallCpu smallHeap) (@pairWord ⟨.little⟩ .addRR))
        (smallCpu smallHeap) s' := by
  have hrun : (@handler ⟨.little⟩ .addRR (@pairWord ⟨.little⟩ .addRR) (smallCpu smallHeap)).map
      (fun x => x.2.state.panic) = some .ok := by decide +kernel
  have hop : @ops (@byteOf ⟨.little⟩ (@pairWord ⟨.little⟩ .addRR) 0) = some .addRR := by decide +kernel
  obtain ⟨⟨_, s'⟩, hs', hok⟩ := Option.map_eq_some_iff.mp hrun
  have hends : @Ends (@handler ⟨.little⟩ .addRR (@pairWord ⟨.little⟩ .addRR)) (smallCpu smallHeap) s' := ⟨hs', hok⟩
  refine ⟨s', hends, (@flagsFollow_iff _ _ _ ⟨.little⟩ _ hop rfl hends).mpr fun w hw => ?_⟩
  cases hw

/-- A loaded 0 sets it too. -/
theorem not_flagsFollow_load :
    ∃ s', @Ends (@handler ⟨.little⟩ .loadRR (@pairWord ⟨.little⟩ .loadRR)) (smallCpu smallHeap) s' ∧
      ¬ FlagsFollow .loadRR (@CPU.operands ⟨.little⟩ (smallCpu smallHeap) (@pairWord ⟨.little⟩ .loadRR))
        (smallCpu smallHeap) s' := by
  have hrun : (@handler ⟨.little⟩ .loadRR (@pairWord ⟨.little⟩ .loadRR) (smallCpu smallHeap)).map
      (fun x => (x.2.state.panic, x.2.flags.zero)) = some (.ok, true) := by decide +kernel
  obtain ⟨⟨_, s'⟩, hs', he⟩ := Option.map_eq_some_iff.mp hrun
  obtain ⟨hok, hzero⟩ := Prod.mk.inj he
  refine ⟨s', ⟨hs', hok⟩, fun h => ?_⟩
  obtain ⟨hz, _⟩ := h.unlisted (flagsOf_eq .loadRR)
  cases hzero.symm.trans hz

end Thorium.Vm
