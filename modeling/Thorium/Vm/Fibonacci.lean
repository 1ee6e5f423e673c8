import Thorium.Asm.Assembler
import Thorium.Asm.Lines
import Thorium.Vm.Programs

/-!
# Fibonacci numbers

The program `examples/fibonacci.a`, from its text to the registers of the CPU that has run it. At its end it stores
the result at the address `0x1050`. This is the address of its own instruction `POP r0`, which has been executed then.
-/

namespace Thorium.Vm
open Thorium.Isa Thorium.Asm

/-! ### The image -/

/-- The text of `examples/fibonacci.a`. -/
def fibSource : String := String.join [
  "// computes fibonacci\n",
  "// in:  r0 contains the index to iteration count\n",
  "// out: r3 contains the result\n",
  "\n",
  "    $fib_0 = 0\n",
  "    $fib_1 = 1\n",
  "\n",
  "    PUSH r0\n",
  "    MOV  r3, $fib_0\n",
  "    MOV  r4, $fib_1\n",
  "\n",
  "    // if n == 0, we have the result in r3\n",
  "    CMP  r0, r3\n",
  "    JEQ  @end\n",
  "\n",
  "    // if n != 1, we have to compute the result\n",
  "    CMP  r0, r4\n",
  "    JNE  @loop\n",
  "\n",
  "    // if n == 1, we have the result in r4, just need to move it\n",
  "    MOV  r3, r4\n",
  "    J    @end\n",
  "\n",
  ":loop\n",
  "    // compute next index\n",
  "    MOV  r5, r3\n",
  "    MOV  r3, r4\n",
  "    ADD  r4, r5\n",
  "\n",
  "    // decrement counter, continue looping if > 0\n",
  "    DEC  r0\n",
  "    JNE  @loop\n",
  "\n",
  ":end\n",
  "    POP  r0 // restore initial target\n",
  "\n",
  "    MOV r31, 0x1050\n",
  "    STOR r31, r3\n",
  "    LOAD r4, r31\n",
  "\n",
  "    HALT\n"]

/-- The words of the image. -/
def fibWords : List Word := [
  instruction .pushR 0 0 0,
  instruction .movRW 3 0 0, 0,
  instruction .movRW 4 0 0, 1,
  instruction .cmpRR 0 3 0,
  instruction .jeqS 0 0 0, 80,
  instruction .cmpRR 0 4 0,
  instruction .jneS 0 0 0, 56,
  instruction .movRR 3 4 0,
  instruction .jS 0 0 0, 80,
  instruction .movRR 5 3 0,
  instruction .movRR 3 4 0,
  instruction .addRR 4 5 0,
  instruction .decR 0 0 0,
  instruction .jneS 0 0 0, 56,
  instruction .popR 0 0 0,
  instruction .movRW 31 0 0, 0x1050,
  instruction .storRR 31 3 0,
  instruction .loadRR 4 31 0,
  instruction .halt 0 0 0]

/-- The bytes that the assembler writes. -/
def fibImage : List Byte := fibWords.flatMap Word.toBeBytes

/-- The program that the assembler makes of the text. -/
lemma fib_assembles : @assemble asciiUnicode [fibSource] = some (.image fibImage) := by
  have htext : fibSource.toList = List.flatMap String.toList _ := String.toList_join
  unfold assemble parseFiles parseFiles parseText tokenize Lexer.fromText
  rw [htext]
  decide +kernel

/-- The words of the file are those of the program. -/
lemma fib_words : fileWords fibImage = fibWords := fileWords_image fibWords

/-! ### The program -/

/-- The state at a word of the program: the registers `r0`, `r3` and `r4`, and the stack with one word. -/
def Fib (m : Flat) (k : Nat) (r0 r3 r4 : Word) (c : Core) : Prop :=
  ∃ file zero, At stackSize k file zero m c ∧ file 0 = r0 ∧ file 3 = r3 ∧ file 4 = r4 ∧
    file Core.spNumber = stackSize - wordSize ∧ file Core.csNumber = stackSize

/-- The Fibonacci numbers, as words. -/
def fibWord (i : Nat) : Word := BitVec.ofNat 32 (Nat.fib i)

/-- The loop of the program, with `j + 1` in `r0`. -/
def FibLoop (m : Flat) (n j : Nat) (c : Core) : Prop :=
  ∃ i, i + (j + 1) = n ∧ Fib m 14 (BitVec.ofNat 32 (j + 1)) (fibWord i) (fibWord (i + 1)) c

/-- Fibonacci numbers, modulo the size of a word. -/
lemma fibWord_add (i : Nat) : fibWord (i + 1) + fibWord i = fibWord (i + 2) := by
  rw [fibWord, fibWord, fibWord, Nat.fib_add_two, ← BitVec.ofNat_add, Nat.add_comm]

section
variable {m : Flat} {n : Nat} {r0 r3 r4 : Word}
variable (hm : m.Holds NotKey stackSize fibWords)
include hm

/-- `MOV r5, r3`, `MOV r3, r4`, `ADD r4, r5`, `DEC r0`, `JNE @loop` -/
lemma fib_body (i j : Nat) (hj : j < 2 ^ 32 - 1) :
    Leads NotKey (Fib m 14 (BitVec.ofNat 32 (j + 1)) (fibWord i) (fibWord (i + 1)))
      (Fib m (if j = 0 then 20 else 14) (BitVec.ofNat 32 j) (fibWord (i + 1)) (fibWord (i + 2))) := by
  rintro c ⟨file, zero, hat, h0, h3, h4, hsp, hcs⟩
  have hdec : BitVec.ofNat 32 (j + 1) - 1 = BitVec.ofNat 32 j := by bv_omega
  have hzero : (BitVec.ofNat 32 j == (0 : Word)) = decide (j = 0) := by
    rw [beq_eq_decide]
    congr 1
    rw [eq_iff_iff]
    bv_omega
  refine (Leads.movRR hm (r := 5) (s := 3) rfl (by decide) (by decide)).trans ?_ c hat
  refine (Leads.movRR hm (r := 3) (s := 4) rfl (by decide) (by decide)).trans ?_
  refine (Leads.addRR hm (r := 4) (s := 5) rfl (by decide) (by decide)).trans ?_
  refine (Leads.decR hm (r := 0) rfl (by decide)).trans ?_
  simp (disch := decide) only [Function.update_of_ne, Function.update_self, h0, h3, h4, hdec, hzero, fibWord_add]
  refine (Leads.jneS hm rfl rfl (t := 14) (by simp [hcs]; decide)).trans ?_
  apply Reaches.of_imp
  intro c hc
  simp only [decide_eq_false_iff_not, ite_not] at hc
  exact ⟨_, _, hc, by simp, by simp, by simp, by simpa using hsp, by simpa using hcs⟩

/-- A round of the loop. -/
lemma fib_turn (hn : n < 2 ^ 32) (j : Nat) : Leads NotKey (FibLoop m n (j + 1)) (FibLoop m n j) := by
  rintro c ⟨i, hi, hc⟩
  refine (fib_body hm i (j + 1) (by omega)).weaken (fun _ => id) (fun c hc => ?_) c hc
  rw [if_neg (Nat.succ_ne_zero j)] at hc
  exact ⟨i + 1, by omega, hc⟩

/-- The last round of the loop. -/
lemma fib_exit (n : Nat) : Leads NotKey (FibLoop m n 0) (Fib m 20 0 (fibWord n) (fibWord (n + 1))) := by
  rintro c ⟨i, hi, hc⟩
  subst hi
  exact fib_body hm i 0 (by decide) c hc

/-- `POP r0`, `MOV r31, 0x1050`, `STOR r31, r3`, `LOAD r4, r31`, `HALT` -/
lemma fib_end {saved : Word} (hread : m.readable (stackSize - wordSize) = true)
    (hsaved : m.words (stackSize - wordSize) = saved) (hwrite : m.writable 0x1050 = true) :
    Leads NotKey (Fib m 20 r0 r3 r4) (Core.Returns · saved r3) := by
  rintro c ⟨file, zero, hat, h0, h3, h4, hsp, hcs⟩
  have hplace : (0x1050 : Word) = wordOffset stackSize 20 := by decide
  have hself : (m.set 0x1050 r3).Holds NotKey stackSize (fibWords.set 20 r3) := by
    rw [hplace]
    exact hm.setWord (by decide) (by decide)
  have hkey : NotKey (stackSize - wordSize) := by
    unfold NotKey
    decide
  have hother : NotKey 0x1050 := by
    unfold NotKey
    decide
  have hread' : (m.set 0x1050 r3).readable 0x1050 = true := by
    rw [hplace]
    exact (hm 20 _ rfl).1
  refine (Leads.popR hm (r := 0) rfl (by decide) (hsp ▸ hread) (hsp ▸ hkey)).trans ?_ c hat
  rw [hsp, hsaved]
  refine (Leads.movRW hm (r := 31) (v := 0x1050) rfl rfl (by decide)).trans ?_
  refine (Leads.storRR hm (r := 31) (s := 3) rfl (by decide) (by decide) hwrite hother).trans ?_
  simp (disch := decide) only [Function.update_of_ne, Function.update_self, h3]
  refine (Leads.loadRR hself (r := 4) (s := 31) rfl (by decide) (by decide) hread' hother).trans ?_
  refine (Leads.halt hself rfl).trans (Reaches.of_imp fun c hc => ?_)
  have hreturns := hc.returns
  simpa [← h3] using hreturns

/-- `CMP r0, r3`, `JEQ @end` -/
lemma fib_first {n : Word} : Leads NotKey (Fib m 5 n 0 1) (Fib m (if n = 0 then 20 else 8) n 0 1) := by
  rintro c ⟨file, zero, hat, h0, h3, h4, hsp, hcs⟩
  refine (Leads.cmpRR hm (r := 0) (s := 3) rfl (by decide) (by decide)).trans ?_ c hat
  refine (Leads.jeqS hm rfl rfl (t := 20) (by simp [hcs]; decide)).trans ?_
  simp only [h0, h3, sub_zero, beq_iff_eq]
  exact Reaches.of_imp fun c hc => ⟨file, _, hc, h0, h3, h4, hsp, hcs⟩

/-- `CMP r0, r4`, `JNE @loop` -/
lemma fib_second {n : Word} : Leads NotKey (Fib m 8 n 0 1) (Fib m (if n = 1 then 11 else 14) n 0 1) := by
  rintro c ⟨file, zero, hat, h0, h3, h4, hsp, hcs⟩
  have hone : n - 1 = 0 ↔ n = 1 := sub_eq_zero
  refine (Leads.cmpRR hm (r := 0) (s := 4) rfl (by decide) (by decide)).trans ?_ c hat
  refine (Leads.jneS hm rfl rfl (t := 14) (by simp [hcs]; decide)).trans ?_
  simp only [h0, h4, beq_eq_false_iff_ne, ne_eq, hone, ite_not]
  exact Reaches.of_imp fun c hc => ⟨file, _, hc, h0, h3, h4, hsp, hcs⟩

/-- `MOV r3, r4`, `J @end` -/
lemma fib_one : Leads NotKey (Fib m 11 r0 r3 1) (Fib m 20 r0 1 1) := by
  rintro c ⟨file, zero, hat, h0, h3, h4, hsp, hcs⟩
  refine (Leads.movRR hm (r := 3) (s := 4) rfl (by decide) (by decide)).trans ?_ c hat
  refine (Leads.jS hm rfl rfl (t := 20) (by simp [hcs]; decide)).trans (Reaches.of_imp fun c hc => ?_)
  exact ⟨_, _, hc, by simpa using h0, by simpa using h4, by simpa using h4, by simpa using hsp, by simpa using hcs⟩

omit hm in
/-- Before the first turn. -/
lemma fib_enter {n : Word} {c : Core} (hne : n ≠ 0) (hc : Fib m 14 n 0 1 c) : FibLoop m n.toNat (n.toNat - 1) c := by
  have hpos : 0 < n.toNat := by bv_omega
  refine ⟨0, by omega, ?_⟩
  rw [Nat.sub_add_cancel hpos, BitVec.ofNat_toNat, BitVec.setWidth_eq]
  exact hc

/-- From the first comparison. -/
lemma fib_leads {n : Word} (hread : m.readable (stackSize - wordSize) = true)
    (hsaved : m.words (stackSize - wordSize) = n) (hwrite : m.writable 0x1050 = true) :
    Leads NotKey (Fib m 5 n 0 1) (Core.Returns · n (fibWord n.toNat)) := by
  have hend {r0 r3 r4 : Word} := @fib_end m r0 r3 r4 hm n hread hsaved hwrite
  refine (fib_first hm).trans ?_
  by_cases hzero : n = 0
  · subst hzero
    exact hend
  rw [if_neg hzero]
  refine (fib_second hm).trans ?_
  by_cases hone : n = 1
  · subst hone
    exact (fib_one hm).trans hend
  rw [if_neg hone]
  refine (Reaches.of_imp fun c hc => fib_enter hzero hc).trans ?_
  exact (Reaches.loop (fib_turn hm n.isLt) _).trans <| (fib_exit hm n.toNat).trans hend

end

/-- `PUSH r0`, `MOV r3, $fib_0`, `MOV r4, $fib_1` -/
lemma fib_start {options : Options} {file : Byte → Word} {zero : Bool} {m : Flat}
    (h : Initial options fibImage file m) (hsize : (0x1054 : Word) ≤ options.ramSize) :
    Leads NotKey (At stackSize 0 file zero m) (Core.Returns · (file 0) (fibWord (file 0).toNat)) := by
  have hwords := h.holds
  rw [fib_words] at hwords
  have hlow : stackSize - wordSize < options.ramSize := Nat.lt_of_lt_of_le (by decide) hsize
  have hresult : (0x1050 : Word) < options.ramSize := Nat.lt_of_lt_of_le (by decide) hsize
  obtain ⟨hread, hwrite⟩ := h.ram (stackSize - wordSize) (by decide) hlow
  have hm : (m.set (stackSize - wordSize) (file 0)).Holds NotKey stackSize fibWords := hwords.set (by decide)
  have hsaved : (m.set (stackSize - wordSize) (file 0)).words (stackSize - wordSize) = file 0 := Flat.set_self _ _ _
  have hkey : stackSize - wordSize ≠ keyboardOutAddress := by decide
  refine (Leads.pushR hwords (r := 0) rfl (by decide) (h.sp ▸ hwrite) (h.sp ▸ hkey)).trans ?_
  rw [h.sp]
  refine (Leads.movRW hm (r := 3) (v := 0) rfl rfl (by decide)).trans ?_
  refine (Leads.movRW hm (r := 4) (v := 1) rfl rfl (by decide)).trans ?_
  refine (Reaches.of_imp fun c hc => ?_).trans (fib_leads hm hread hsaved (h.ram 0x1050 (by decide) hresult).2)
  exact ⟨_, _, hc, by simp, by simp, by simp, by simp, by simpa using h.cs⟩

/-- **`examples/fibonacci.a` computes Fibonacci numbers**, modulo the size of a word: what the assembler makes of it
is started by `main` and comes to its end whatever the devices do meanwhile. -/
theorem fibonacci_computes [Host] {options : Options} {n : Byte} {bytes : List Byte} (malloc : Ref → Nat → Word)
    (raw : CPU) (ha : @assemble asciiUnicode [fibSource] = some (.image bytes)) (hl : Launch options bytes n) :
    ∃ cpu, setUp malloc raw options = some (some cpu) ∧
      ∃ k, ∀ xs, k ≤ turnCount xs → ∃ log s, happenAll (xs.map Stimulus.event) cpu.started = some (log, s) ∧
        s.Returns (BitVec.ofInt 32 (options.registerValues 0))
          (fibWord (BitVec.ofInt 32 (options.registerValues 0)).toNat) := by
  cases fib_assembles.symm.trans ha
  have hroom := hl.room
  have hlength : stackSize.toNat + fibImage.length = 0x1068 := congrArg (stackSize.toNat + ·) (length_image fibWords)
  have hsize : (0x1054 : Word) ≤ options.ramSize := by
    rw [BitVec.le_def]
    have hat : (0x1054 : Word).toNat = 0x1054 := rfl
    omega
  exact @launch_returns _ _ _ _ (fun n => fibWord n.toNat) malloc raw hl fun file zero m hinitial =>
    fib_start hinitial hsize

/-- The options `--register 0:16` with the image. -/
def fibOptions : Options :=
  { noFiles with image := .content fibImage, registerValues := fun i => if i = 0 then 16 else 0 }

/-- The 16th Fibonacci number. -/
theorem fibonacci_computes_sixteen :
    ∃ cpu, @setUp ⟨.little⟩ (fun _ _ => 0) (smallCpu smallHeap) fibOptions = some (some cpu) ∧
      ∃ k, ∀ xs, k ≤ turnCount xs → ∃ log s,
        @happenAll ⟨.little⟩ (xs.map Stimulus.event) cpu.started = some (log, s) ∧ s.Returns 16 987 := by
  have hl : Launch fibOptions fibImage 32 :=
    ⟨⟨rfl, fun _ e => File.noConfusion e, by decide, by decide⟩, File.noConfusion, rfl, rfl, by decide, rfl⟩
  exact @fibonacci_computes ⟨.little⟩ _ _ _ (fun _ _ => 0) (smallCpu smallHeap) fib_assembles hl

end Thorium.Vm
