import Thorium.Vm.Source

/-!
# Factorials

The program `examples/fact.a`, from its text to the registers of the CPU that has run it.
-/

namespace Thorium.Vm
open Thorium.Isa Thorium.Asm
open scoped Nat

/-! ### The image -/

/-- The words of the file are those of the program. -/
lemma fact_words : fileWords factImage = factWords := fileWords_image factWords

/-! ### The program -/

/-- The state at a word of the program: the registers `r0` and `r1`, and the stack with one word. -/
def Fact (m : Flat) (k : Nat) (r0 r1 : Word) (c : Core) : Prop :=
  ∃ file zero, At stackSize k file zero m c ∧ file 0 = r0 ∧ file 1 = r1 ∧
    file Core.spNumber = stackSize - wordSize ∧ file Core.csNumber = stackSize

/-- The loop of the program, with `j + 1` in `r1`. -/
def FactLoop (m : Flat) (n : Word) (j : Nat) (c : Core) : Prop :=
  ∃ r0, j + 1 < 2 ^ 32 ∧ r0 * BitVec.ofNat 32 j ! = BitVec.ofNat 32 n.toNat ! ∧
    Fact m 7 r0 (BitVec.ofNat 32 (j + 1)) c

section
variable {m : Flat} {n r0 r1 : Word}
variable (hm : m.Holds NotKey stackSize factWords)
include hm

/-- `DEC r1`, `JEQ @end`, `MUL r0, r1`, `J @loop` -/
lemma fact_turn (n : Word) (j : Nat) : Leads NotKey (FactLoop m n (j + 1)) (FactLoop m n j) := by
  rintro c ⟨r0, hlt, hprod, file, zero, hat, h0, h1, hsp, hcs⟩
  have hdec : BitVec.ofNat 32 (j + 1 + 1) - 1 = BitVec.ofNat 32 (j + 1) := by bv_omega
  have hne : BitVec.ofNat 32 (j + 1) ≠ (0 : Word) := by bv_omega
  refine (Leads.decR hm (r := 1) rfl (by decide)).trans ?_ c hat
  refine (Leads.jeqS hm rfl rfl (t := 13) (by simp [hcs]; decide)).trans ?_
  rw [h1, hdec, if_neg (by simpa using hne)]
  refine (Leads.mulRR hm (r := 0) (s := 1) rfl (by decide) (by decide)).trans ?_
  refine (Leads.jS hm rfl rfl (t := 7) (by simp [hcs]; decide)).trans ?_
  apply Reaches.of_imp
  intro c hc
  refine ⟨r0 * BitVec.ofNat 32 (j + 1), by omega, ?_, _, _, hc, ?_, ?_, ?_, ?_⟩
  · rw [← hprod, Nat.factorial_succ, BitVec.mul_assoc, BitVec.ofNat_mul]
  · simp [← h0]
  · simp
  · simpa using hsp
  · simpa using hcs

/-- `MOV r3, r0`, `POP r0`, `HALT` -/
lemma fact_end (hread : m.readable (stackSize - wordSize) = true) (hsaved : m.words (stackSize - wordSize) = n) :
    Leads NotKey (Fact m 13 r0 r1) (Core.Returns · n r0) := by
  rintro c ⟨file, zero, hat, h0, h1, hsp, hcs⟩
  refine (Leads.movRR hm (r := 3) (s := 0) rfl (by decide) (by decide)).trans ?_ c hat
  refine (Leads.popR hm (r := 0) rfl (by decide) (by simpa [hsp] using hread) (by simp [hsp, NotKey]; decide)).trans ?_
  refine (Leads.halt hm rfl).trans (Reaches.of_imp fun c hc => ?_)
  have hreturns := hc.returns
  simpa [hsp, hsaved, ← h0] using hreturns

/-- `MOV r1, r0` -/
lemma fact_enter (hne : n ≠ 0) : Leads NotKey (Fact m 6 n r1) (FactLoop m n (n.toNat - 1)) := by
  rintro c ⟨file, zero, hat, h0, h1, hsp, hcs⟩
  have hpos : 0 < n.toNat := by bv_omega
  refine (Leads.movRR hm (r := 1) (s := 0) rfl (by decide) (by decide)).trans ?_ c hat
  apply Reaches.of_imp
  intro c hc
  refine ⟨n, by omega, ?_, _, _, hc, by simp [← h0], ?_, by simpa using hsp, by simpa using hcs⟩
  · rw [← Nat.mul_factorial_pred hpos.ne', BitVec.ofNat_mul, BitVec.ofNat_toNat, BitVec.setWidth_eq]
  · simp only [Function.update_self, h0, Nat.sub_add_cancel hpos, BitVec.ofNat_toNat, BitVec.setWidth_eq]

/-- `DEC r1`, `JEQ @end` -/
lemma fact_exit (n : Word) : Leads NotKey (FactLoop m n 0) (Fact m 13 (BitVec.ofNat 32 n.toNat !) 0) := by
  rintro c ⟨r0, _, hprod, file, zero, hat, h0, h1, hsp, hcs⟩
  have hdone : r0 = BitVec.ofNat 32 n.toNat ! := by simpa using hprod
  refine (Leads.decR hm (r := 1) rfl (by decide)).trans ?_ c hat
  refine (Leads.jeqS hm rfl rfl (t := 13) (by simp [hcs]; decide)).trans ?_
  rw [h1, if_pos (by decide)]
  apply Reaches.of_imp
  intro c hc
  exact ⟨_, _, hc, by simp [← hdone, ← h0], by simp, by simpa using hsp, by simpa using hcs⟩

/-- What the program returns. -/
def factResult (n : Word) : Word := if n = 0 then 0 else BitVec.ofNat 32 n.toNat !

/-- From the comparison with `0`. -/
lemma fact_leads (hread : m.readable (stackSize - wordSize) = true) (hsaved : m.words (stackSize - wordSize) = n) :
    Leads NotKey (Fact m (if n = 0 then 13 else 6) n 0) (Core.Returns · n (factResult n)) := by
  unfold factResult
  by_cases hzero : n = 0
  · rw [if_pos hzero, if_pos hzero, ← hzero]
    exact fact_end hm hread hsaved
  · rw [if_neg hzero, if_neg hzero]
    exact (fact_enter hm hzero).trans <| (Reaches.loop (fact_turn hm n) _).trans <| (fact_exit hm n).trans <|
      fact_end hm hread hsaved

end

/-- `PUSH r0`, `MOV r1, 0`, `CMP r0, r1`, `JEQ @end` -/
lemma fact_start {options : Options} {file : Byte → Word} {zero : Bool} {m : Flat}
    (h : Initial options factImage file m) (hsize : stackSize ≤ options.ramSize) :
    Leads NotKey (At stackSize 0 file zero m) (Core.Returns · (file 0) (factResult (file 0))) := by
  have hwords := h.holds
  rw [fact_words] at hwords
  have hlow : stackSize - wordSize < options.ramSize := Nat.lt_of_lt_of_le (by decide) hsize
  obtain ⟨hread, hwrite⟩ := h.ram (stackSize - wordSize) (by decide) hlow
  have hm : (m.set (stackSize - wordSize) (file 0)).Holds NotKey stackSize factWords := hwords.set (by decide)
  have hsaved : (m.set (stackSize - wordSize) (file 0)).words (stackSize - wordSize) = file 0 := Flat.set_self _ _ _
  have hkey : stackSize - wordSize ≠ keyboardOutAddress := by decide
  refine (Leads.pushR hwords (r := 0) rfl (by decide) (h.sp ▸ hwrite) (h.sp ▸ hkey)).trans ?_
  rw [h.sp]
  refine (Leads.movRW hm (r := 1) (v := 0) rfl rfl (by decide)).trans ?_
  refine (Leads.cmpRR hm (r := 0) (s := 1) rfl (by decide) (by decide)).trans ?_
  refine (Leads.jeqS hm rfl rfl (t := 13) (by simp [h.cs]; decide)).trans ?_
  rw [Function.update_self, Function.update_of_ne (by decide), sp_update (by decide), sub_zero]
  simp only [beq_iff_eq]
  refine (Reaches.of_imp fun c hc => ?_).trans (fact_leads hm hread hsaved)
  exact ⟨_, _, hc, by simp, by simp, by simp, by simpa using h.cs⟩

/-- **`examples/fact.a` computes factorials**, modulo the size of a word, but `0` of `0`: what the assembler makes of
it is started by `main` and comes to its end whatever the devices do meanwhile. -/
theorem fact_computes [Host] {options : Options} {n : Byte} {bytes : List Byte} (malloc : Ref → Nat → Word) (raw : CPU)
    (ha : @assemble asciiUnicode [factSource] = some (.image bytes)) (hl : Launch options bytes n) :
    ∃ cpu, setUp malloc raw options = some (some cpu) ∧
      ∃ k, ∀ xs, k ≤ turnCount xs → ∃ log s, happenAll (xs.map Stimulus.event) cpu.started = some (log, s) ∧
        s.Returns (BitVec.ofInt 32 (options.registerValues 0))
          (factResult (BitVec.ofInt 32 (options.registerValues 0))) := by
  cases fact_assembles.symm.trans ha
  have hroom := hl.room
  have hsize : stackSize ≤ options.ramSize := by
    rw [BitVec.le_def]
    omega
  exact launch_returns malloc raw hl fun file zero m hinitial => fact_start hinitial hsize

/-- `5!` -/
theorem fact_computes_five :
    ∃ cpu, @setUp ⟨.little⟩ (fun _ _ => 0) (smallCpu smallHeap) (factOptions 5) = some (some cpu) ∧
      ∃ k, ∀ xs, k ≤ turnCount xs → ∃ log s,
        @happenAll ⟨.little⟩ (xs.map Stimulus.event) cpu.started = some (log, s) ∧ s.Returns 5 120 := by
  have hl : Launch (factOptions 5) factImage 32 :=
    ⟨⟨rfl, fun _ e => File.noConfusion e, by decide, by decide⟩, File.noConfusion, rfl, rfl, by decide, rfl⟩
  exact @fact_computes ⟨.little⟩ _ _ _ (fun _ _ => 0) (smallCpu smallHeap) fact_assembles hl

end Thorium.Vm
