import Thorium.Vm.Fibonacci

/-!
# Recursive Fibonacci numbers

The program `examples/fibonacci_rec.a`, from its text to the registers of the CPU that has run it. The stack is a list
of words: the arguments and results that are saved, and the addresses of the words after the calls. The subroutine at
`:fibonacci` is correct for each argument for which the stack has room (`Computes`), by induction on the argument.
-/

namespace Thorium.Vm
open Thorium.Isa Thorium.Asm

/-! ### The image -/

/-- The text of `examples/fibonacci_rec.a`. -/
def recSource : String := String.join [
  "// computes fibonacci in a recursive way\n",
  "// in:  r0 contains the index to iteration count\n",
  "// out: r3 contains the result\n",
  "\n",
  "    PUSH r0           // save initial target\n",
  "\n",
  "    CALL @fibonacci   // compute r1 = fibonacci(r0)\n",
  "    MOV r3, r0\n",
  "\n",
  "    POP r0            // restore initial target\n",
  "    HALT\n",
  "\n",
  "// in:      r0 contains the index to compute\n",
  "// out:     r0 contains the result\n",
  "// updates: r1\n",
  ":fibonacci\n",
  "    // if index == 0 -> return 0\n",
  "    CMP r0, 0\n",
  "    JNE @not_0\n",
  "    RET\n",
  "\n",
  ":not_0\n",
  "    // if index == 1 -> return 1\n",
  "    CMP r0, 1\n",
  "    JNE @not_1\n",
  "    RET\n",
  "\n",
  ":not_1\n",
  "    PUSH r0\n",
  "\n",
  "    // r1 = fib(n-1)\n",
  "    DEC r0\n",
  "    CALL @fibonacci\n",
  "    MOV r1, r0\n",
  "\n",
  "    // r0 = fib(n-2)\n",
  "    POP r0\n",
  "    SUB r0, 2\n",
  "    PUSH r1\n",
  "    CALL @fibonacci\n",
  "    POP r1\n",
  "\n",
  "    // r0 = fib(n-2) + fib(n-1)\n",
  "    ADD r0, r1\n",
  "    RET\n"]

/-- The words of the image. -/
def recWords : List Word := [
  instruction .pushR 0 0 0,
  instruction .callS 0 0 0, 24,
  instruction .movRR 3 0 0,
  instruction .popR 0 0 0,
  instruction .halt 0 0 0,
  instruction .cmpRW 0 0 0, 0,
  instruction .jneS 0 0 0, 44,
  instruction .ret 0 0 0,
  instruction .cmpRW 0 0 0, 1,
  instruction .jneS 0 0 0, 64,
  instruction .ret 0 0 0,
  instruction .pushR 0 0 0,
  instruction .decR 0 0 0,
  instruction .callS 0 0 0, 24,
  instruction .movRR 1 0 0,
  instruction .popR 0 0 0,
  instruction .subRW 0 0 0, 2,
  instruction .pushR 1 0 0,
  instruction .callS 0 0 0, 24,
  instruction .popR 1 0 0,
  instruction .addRR 0 1 0,
  instruction .ret 0 0 0]

/-- The bytes that the assembler writes. -/
def recImage : List Byte := recWords.flatMap Word.toBeBytes

/-- The program that the assembler makes of the text. -/
lemma rec_assembles : @assemble asciiUnicode [recSource] = some (.image recImage) := by
  have htext : recSource.toList = List.flatMap String.toList _ := String.toList_join
  unfold assemble parseFiles parseFiles parseText tokenize Lexer.fromText
  rw [htext]
  decide +kernel

/-- The words of the file are those of the program. -/
lemma rec_words : fileWords recImage = recWords := fileWords_image recWords

/-! ### The stack -/

/-- The address of the last of `n` words on the stack. -/
def top (n : Nat) : Addr := stackSize - BitVec.ofNat 32 (4 * n)

/-- The words on the stack, the last one first. -/
def Flat.Saves (m : Flat) : List Word → Prop
  | [] => True
  | v :: st => m.words (top (st.length + 1)) = v ∧ m.Saves st

/-- The memory of the program, with words on the stack. -/
structure OnStack (m : Flat) (st : List Word) : Prop where
  program : m.Holds NotKey stackSize recWords
  ram : ∀ n, 0 < n → n ≤ 1024 → m.readable (top n) = true ∧ m.writable (top n) = true
  depth : st.length ≤ 1024
  saves : m.Saves st

/-- A word is pushed below the last one. -/
lemma top_pred (n : Nat) : top n - wordSize = top (n + 1) := by
  unfold top wordSize
  bv_omega

/-- It is popped above it. -/
lemma top_succ (n : Nat) : top (n + 1) + wordSize = top n := by
  unfold top wordSize
  bv_omega

/-- The stack is at the start of the RAM. -/
lemma top_toNat {n : Nat} (hn : n ≤ 1024) : (top n).toNat = 4096 - 4 * n := by
  have hstack : stackSize = 4096 := by decide
  unfold top
  rw [hstack]
  bv_omega

/-- Words of the stack are apart. -/
lemma top_inj {n n' : Nat} (hn : n ≤ 1024) (hn' : n' ≤ 1024) (h : top n = top n') : n = n' := by
  have hat := top_toNat hn
  have hat' := top_toNat hn'
  rw [h] at hat
  omega

/-- None of them is that of the keyboard. -/
lemma top_notKey {n : Nat} (hn : n ≤ 1024) : NotKey (top n) := by
  intro e
  have hat := top_toNat hn
  have hkey : keyboardOutAddress.toNat = 4260899800 := by decide
  rw [e] at hat
  omega

section
variable {m : Flat} {st : List Word} {n : Nat} {v w : Word}

/-- A write above the stack. -/
lemma Flat.Saves.set (h : m.Saves st) (hlt : st.length < n) (hn : n ≤ 1024) : (m.set (top n) w).Saves st := by
  induction st with
  | nil => trivial
  | cons v st ih =>
    obtain ⟨hv, hst⟩ := h
    have hne : top (st.length + 1) ≠ top n := fun e =>
      hlt.ne (top_inj (hlt.le.trans hn) hn e)
    exact ⟨(Flat.set_of_ne hne).trans hv, ih hst (Nat.lt_of_succ_lt hlt)⟩

/-- A word is pushed where there is room. -/
lemma OnStack.push (h : OnStack m st) (hlt : st.length < 1024) :
    OnStack (m.set (top (st.length + 1)) v) (v :: st) where
  program := by
    apply h.program.set
    intro k hk e
    have hat := top_toNat (Nat.succ_le_of_lt hlt)
    have hword := wordOffset_toNat stackSize k
    have hstack : stackSize.toNat = 4096 := by decide
    have hlen : recWords.length = 30 := rfl
    rw [← e] at hat
    omega
  ram n hpos hn := h.ram n hpos hn
  depth := Nat.succ_le_of_lt hlt
  saves := ⟨m.set_self _ _, h.saves.set (Nat.lt_succ_self _) (Nat.succ_le_of_lt hlt)⟩

/-- A word is popped. -/
lemma OnStack.pop (h : OnStack m (v :: st)) : OnStack m st :=
  ⟨h.program, h.ram, Nat.le_of_succ_le h.depth, h.saves.2⟩

end

/-! ### The subroutine -/

/-- The registers: `r0` and `r1`, the others, and the stack pointer with `n` words on the stack. -/
structure Regs (f : Byte → Word) (r0 r1 : Word) (n : Nat) (file : Byte → Word) : Prop where
  r0 : file 0 = r0
  r1 : file 1 = r1
  others : ∀ r < 32, r ≠ 0 → r ≠ 1 → file r = f r
  sp : file Core.spNumber = top n
  cs : file Core.csNumber = stackSize

/-- The state at a word of the program. -/
def Frame (f : Byte → Word) (st : List Word) (k : Nat) (r0 r1 : Word) (c : Core) : Prop :=
  ∃ file zero m, At stackSize k file zero m c ∧ OnStack m st ∧ Regs f r0 r1 st.length file

section
variable {f file : Byte → Word} {st : List Word} {k n : Nat} {r0 r1 v : Word}

/-- The stack pointer is moved. -/
lemma Regs.setSp (h : Regs f r0 r1 n file) (n' : Nat) :
    Regs f r0 r1 n' (Function.update file Core.spNumber (top n')) where
  r0 := by simpa using h.r0
  r1 := by simpa using h.r1
  others r hr h0 h1 := (sp_update hr).trans (h.others r hr h0 h1)
  sp := by simp
  cs := by simpa using h.cs

/-- `r0` is set. -/
lemma Regs.set0 (h : Regs f r0 r1 n file) (v : Word) : Regs f v r1 n (Function.update file 0 v) where
  r0 := by simp
  r1 := by simpa using h.r1
  others r hr h0 h1 := (Function.update_of_ne h0 v file).trans (h.others r hr h0 h1)
  sp := by simpa using h.sp
  cs := by simpa using h.cs

/-- `r1` is set. -/
lemma Regs.set1 (h : Regs f r0 r1 n file) (v : Word) : Regs f r0 v n (Function.update file 1 v) where
  r0 := by simpa using h.r0
  r1 := by simp
  others r hr h0 h1 := (Function.update_of_ne h1 v file).trans (h.others r hr h0 h1)
  sp := by simpa using h.sp
  cs := by simpa using h.cs

/-- `CMP r0, 0`, `JNE @not_0` -/
lemma frame_first : Leads NotKey (Frame f st 6 r0 r1) (Frame f st (if r0 = 0 then 10 else 11) r0 r1) := by
  rintro c ⟨file, zero, m, hat, hm, hfile⟩
  refine (Leads.cmpRW hm.program (r := 0) rfl rfl (by decide)).trans ?_ c hat
  refine (Leads.jneS hm.program rfl rfl (t := 11) (by rw [hfile.cs]; decide)).trans ?_
  simp only [hfile.r0, sub_zero, beq_eq_false_iff_ne, ne_eq, ite_not]
  exact Reaches.of_imp fun c hc => ⟨file, _, m, hc, hm, hfile⟩

/-- `CMP r0, 1`, `JNE @not_1` -/
lemma frame_second : Leads NotKey (Frame f st 11 r0 r1) (Frame f st (if r0 = 1 then 15 else 16) r0 r1) := by
  rintro c ⟨file, zero, m, hat, hm, hfile⟩
  have hone : r0 - 1 = 0 ↔ r0 = 1 := sub_eq_zero
  refine (Leads.cmpRW hm.program (r := 0) rfl rfl (by decide)).trans ?_ c hat
  refine (Leads.jneS hm.program rfl rfl (t := 16) (by rw [hfile.cs]; decide)).trans ?_
  simp only [hfile.r0, beq_eq_false_iff_ne, ne_eq, hone, ite_not]
  exact Reaches.of_imp fun c hc => ⟨file, _, m, hc, hm, hfile⟩

/-- `RET` -/
lemma frame_ret (hw : recWords[k]? = some (instruction .ret 0 0 0)) (k' : Nat) :
    Leads NotKey (Frame f (wordOffset stackSize k' :: st) k r0 r1) (Frame f st k' r0 r1) := by
  rintro c ⟨file, zero, m, hat, hm, hfile⟩
  have hread := (hm.ram (st.length + 1) (Nat.succ_pos _) hm.depth).1
  refine (Leads.ret hm.program hw (hfile.sp ▸ hread) (hfile.sp ▸ top_notKey hm.depth)
    (hfile.sp ▸ hm.saves.1)).trans ?_ c hat
  rw [hfile.sp, List.length_cons, top_succ]
  exact Reaches.of_imp fun c hc => ⟨_, _, m, hc, hm.pop, hfile.setSp _⟩

/-- `CALL @fibonacci` -/
lemma frame_call (hw : recWords[k]? = some (instruction .callS 0 0 0)) (hv : recWords[k + 1]? = some 24)
    (hlt : st.length < 1024) :
    Leads NotKey (Frame f st k r0 r1) (Frame f (wordOffset stackSize (k + 2) :: st) 6 r0 r1) := by
  rintro c ⟨file, zero, m, hat, hm, hfile⟩
  have htop : file Core.spNumber - wordSize = top (st.length + 1) := by rw [hfile.sp, top_pred]
  have hwrite := (hm.ram (st.length + 1) (Nat.succ_pos _) (Nat.succ_le_of_lt hlt)).2
  have hkey := top_notKey (Nat.succ_le_of_lt hlt)
  refine (Leads.callS hm.program hw hv (t := 6) (by rw [hfile.cs]; decide) (htop ▸ hwrite) (htop ▸ hkey)).trans ?_ c hat
  rw [htop]
  exact Reaches.of_imp fun c hc => ⟨_, _, _, hc, hm.push hlt, hfile.setSp _⟩

/-- `PUSH` of a register with the value `v`. -/
lemma frame_push {r : Byte} (hw : recWords[k]? = some (instruction .pushR r 0 0)) (hr : r < 32)
    (hv : ∀ file, Regs f r0 r1 st.length file → file r = v) (hlt : st.length < 1024) :
    Leads NotKey (Frame f st k r0 r1) (Frame f (v :: st) (k + 1) r0 r1) := by
  rintro c ⟨file, zero, m, hat, hm, hfile⟩
  have htop : file Core.spNumber - wordSize = top (st.length + 1) := by rw [hfile.sp, top_pred]
  have hwrite := (hm.ram (st.length + 1) (Nat.succ_pos _) (Nat.succ_le_of_lt hlt)).2
  have hkey := top_notKey (Nat.succ_le_of_lt hlt)
  refine (Leads.pushR hm.program hw hr (htop ▸ hwrite) (htop ▸ hkey)).trans ?_ c hat
  rw [htop, hv file hfile]
  exact Reaches.of_imp fun c hc => ⟨_, _, _, hc, hm.push hlt, hfile.setSp _⟩

/-- `POP` into a register. -/
lemma frame_pop {r : Byte} {r0' r1' : Word} (hw : recWords[k]? = some (instruction .popR r 0 0)) (hr : r < 32)
    (hset : ∀ file, Regs f r0 r1 st.length file → Regs f r0' r1' st.length (Function.update file r v)) :
    Leads NotKey (Frame f (v :: st) k r0 r1) (Frame f st (k + 1) r0' r1') := by
  rintro c ⟨file, zero, m, hat, hm, hfile⟩
  have hread := (hm.ram (st.length + 1) (Nat.succ_pos _) hm.depth).1
  have hv := hm.saves.1
  refine (Leads.popR hm.program hw hr (hfile.sp ▸ hread) (hfile.sp ▸ top_notKey hm.depth)).trans ?_ c hat
  rw [hfile.sp, List.length_cons, hv, top_succ]
  exact Reaches.of_imp fun c hc => ⟨_, _, m, hc, hm.pop, hset _ (hfile.setSp _)⟩

/-- `DEC r0` -/
lemma frame_dec : Leads NotKey (Frame f st 17 r0 r1) (Frame f st 18 (r0 - 1) r1) := by
  rintro c ⟨file, zero, m, hat, hm, hfile⟩
  refine (Leads.decR hm.program (r := 0) rfl (by decide)).trans ?_ c hat
  rw [hfile.r0]
  exact Reaches.of_imp fun c hc => ⟨_, _, m, hc, hm, hfile.set0 _⟩

/-- `MOV r1, r0` -/
lemma frame_mov : Leads NotKey (Frame f st 20 r0 r1) (Frame f st 21 r0 r0) := by
  rintro c ⟨file, zero, m, hat, hm, hfile⟩
  refine (Leads.movRR hm.program (r := 1) (s := 0) rfl (by decide) (by decide)).trans ?_ c hat
  rw [hfile.r0]
  exact Reaches.of_imp fun c hc => ⟨_, _, m, hc, hm, hfile.set1 _⟩

/-- `SUB r0, 2` -/
lemma frame_sub : Leads NotKey (Frame f st 22 r0 r1) (Frame f st 24 (r0 - 2) r1) := by
  rintro c ⟨file, zero, m, hat, hm, hfile⟩
  refine (Leads.subRW hm.program (r := 0) rfl rfl (by decide)).trans ?_ c hat
  rw [hfile.r0]
  exact Reaches.of_imp fun c hc => ⟨_, _, m, hc, hm, hfile.set0 _⟩

/-- `ADD r0, r1` -/
lemma frame_add : Leads NotKey (Frame f st 28 r0 r1) (Frame f st 29 (r0 + r1) r1) := by
  rintro c ⟨file, zero, m, hat, hm, hfile⟩
  refine (Leads.addRR hm.program (r := 0) (s := 1) rfl (by decide) (by decide)).trans ?_ c hat
  rw [hfile.r0, hfile.r1]
  exact Reaches.of_imp fun c hc => ⟨_, _, m, hc, hm, hfile.set0 _⟩

end

/-- The subroutine returns the Fibonacci number of its argument, wherever it is called from, if the stack has room. It
changes no register but `r0` and `r1`. -/
def Computes (n : Nat) : Prop :=
  ∀ f st k r1, st.length + 1 + 2 * (n - 1) ≤ 1024 →
    Leads NotKey (Frame f (wordOffset stackSize k :: st) 6 (BitVec.ofNat 32 n) r1)
      (fun c => ∃ r1', Frame f st k (fibWord n) r1' c)

/-- The subroutine with 0. -/
lemma computes_zero : Computes 0 := by
  intro f st k r1 _
  refine frame_first.trans ?_
  exact (frame_ret (k := 10) rfl k).weaken (fun _ => id) fun c hc => ⟨r1, hc⟩

/-- The subroutine with 1. -/
lemma computes_one : Computes 1 := by
  intro f st k r1 _
  refine frame_first.trans ?_
  rw [if_neg (by decide)]
  refine frame_second.trans ?_
  exact (frame_ret (k := 15) rfl k).weaken (fun _ => id) fun c hc => ⟨r1, hc⟩

/-- The calls for the two numbers before. -/
lemma computes_add_two {n : Nat} (h0 : Computes n) (h1 : Computes (n + 1)) : Computes (n + 2) := by
  intro f st k r1 hroom
  have hpred : BitVec.ofNat 32 (n + 2) - 1 = BitVec.ofNat 32 (n + 1) := by bv_omega
  have hpred2 : BitVec.ofNat 32 (n + 2) - 2 = BitVec.ofNat 32 n := by bv_omega
  have hne0 : BitVec.ofNat 32 (n + 2) ≠ (0 : Word) := by bv_omega
  have hne1 : BitVec.ofNat 32 (n + 2) ≠ (1 : Word) := by bv_omega
  set ret := wordOffset stackSize k
  set arg := BitVec.ofNat 32 (n + 2)
  refine frame_first.trans ?_
  rw [if_neg hne0]
  refine frame_second.trans ?_
  rw [if_neg hne1]
  -- The first call.
  refine (frame_push (r := 0) rfl (by decide) (fun _ h => h.r0) (by simp; omega)).trans ?_
  refine frame_dec.trans ?_
  rw [hpred]
  refine (frame_call rfl rfl (by simp; omega)).trans ?_
  refine (h1 f (arg :: ret :: st) 20 r1 (by simp; omega)).trans ?_
  rintro c ⟨r1', hc⟩
  -- The second call.
  refine (frame_mov.trans ?_) c hc
  refine (frame_pop (r := 0) rfl (by decide) (fun _ h => h.set0 arg)).trans ?_
  refine frame_sub.trans ?_
  rw [hpred2]
  refine (frame_push (r := 1) rfl (by decide) (fun _ h => h.r1) (by simp; omega)).trans ?_
  refine (frame_call rfl rfl (by simp; omega)).trans ?_
  refine (h0 f (fibWord (n + 1) :: ret :: st) 27 _ (by simp; omega)).trans ?_
  rintro c ⟨r1', hc⟩
  -- The sum.
  refine (frame_pop (r := 1) rfl (by decide) (fun _ h => h.set1 (fibWord (n + 1)))).trans ?_ c hc
  refine frame_add.trans ?_
  rw [add_comm, fibWord_add]
  exact (frame_ret rfl k).weaken (fun _ => id) fun c hc => ⟨_, hc⟩

/-- The subroutine with any argument. -/
lemma computes (n : Nat) : Computes n := by
  induction n using Nat.twoStepInduction with
  | zero => exact computes_zero
  | one => exact computes_one
  | more n h0 h1 => exact computes_add_two h0 h1

/-! ### The program -/

/-- `MOV r3, r0`, `POP r0`, `HALT` -/
lemma rec_end {f : Byte → Word} {r0 r1 v : Word} :
    Leads NotKey (Frame f [v] 3 r0 r1) (Core.Returns · v r0) := by
  rintro c ⟨file, zero, m, hat, hm, hfile⟩
  have hread := (hm.ram 1 Nat.one_pos (by decide)).1
  have hsaved : m.words (top 1) = v := hm.saves.1
  have hsp : file Core.spNumber = top 1 := hfile.sp
  refine (Leads.movRR hm.program (r := 3) (s := 0) rfl (by decide) (by decide)).trans ?_ c hat
  refine (Leads.popR hm.program (r := 0) rfl (by decide) (by simpa [hsp] using hread)
    (by simpa [hsp] using top_notKey (by decide))).trans ?_
  refine (Leads.halt hm.program rfl).trans (Reaches.of_imp fun c hc => ?_)
  have hreturns := hc.returns
  simpa [hsp, hsaved, ← hfile.r0] using hreturns

/-- `PUSH r0`, `CALL @fibonacci` -/
lemma rec_start {options : Options} {file : Byte → Word} {zero : Bool} {m : Flat}
    (h : Initial options recImage file m) (hsize : stackSize ≤ options.ramSize) (hn : (file 0).toNat ≤ 512) :
    Leads NotKey (At stackSize 0 file zero m) (Core.Returns · (file 0) (fibWord (file 0).toNat)) := by
  have hstacked : OnStack m [] := by
    refine ⟨rec_words ▸ h.holds, fun n hpos hle => ?_, Nat.zero_le _, trivial⟩
    have hat := top_toNat hle
    refine h.ram (top n) (by omega) (Nat.lt_of_lt_of_le ?_ hsize)
    have hstack : stackSize.toNat = 4096 := by decide
    omega
  have hfile : Regs file (file 0) (file 1) 0 file := ⟨rfl, rfl, fun _ _ _ _ => rfl, h.sp, h.cs⟩
  have hstart : Leads NotKey (At stackSize 0 file zero m) (Frame file [] 0 (file 0) (file 1)) :=
    Reaches.of_imp fun c hc => ⟨file, zero, m, hc, hstacked, hfile⟩
  refine hstart.trans ?_
  refine (frame_push (r := 0) rfl (by decide) (fun _ h => h.r0) (by decide)).trans ?_
  refine (frame_call rfl rfl (by simp)).trans ?_
  have hdepth : [file 0].length + 1 + 2 * ((file 0).toNat - 1) ≤ 1024 := by
    rw [List.length_singleton]
    omega
  have hcall := computes (file 0).toNat file [file 0] 3 (file 1) hdepth
  rw [BitVec.ofNat_toNat, BitVec.setWidth_eq] at hcall
  refine hcall.trans ?_
  rintro c ⟨r1, hc⟩
  exact rec_end c hc

/-- **`examples/fibonacci_rec.a` computes Fibonacci numbers**, modulo the size of a word, up to the depth of the stack:
what the assembler makes of it is started by `main` and comes to its end whatever the devices do meanwhile. -/
theorem recursion_computes [Host] {options : Options} {n : Byte} {bytes : List Byte} (malloc : Ref → Nat → Word)
    (raw : CPU) (ha : @assemble asciiUnicode [recSource] = some (.image bytes)) (hl : Launch options bytes n)
    (hdepth : (BitVec.ofInt 32 (options.registerValues 0)).toNat ≤ 512) :
    ∃ cpu, setUp malloc raw options = some (some cpu) ∧
      ∃ k, ∀ xs, k ≤ turnCount xs → ∃ log s, happenAll (xs.map Stimulus.event) cpu.started = some (log, s) ∧
        s.Returns (BitVec.ofInt 32 (options.registerValues 0))
          (fibWord (BitVec.ofInt 32 (options.registerValues 0)).toNat) := by
  cases rec_assembles.symm.trans ha
  have hroom := hl.room
  have hsize : stackSize ≤ options.ramSize := by
    rw [BitVec.le_def]
    omega
  exact @launch_returns _ _ _ _ (fun n => fibWord n.toNat) malloc raw hl fun file zero m hinitial =>
    rec_start hinitial hsize (by rw [hinitial.general 0 (by decide)]; exact hdepth)

/-- The options `--register 0:16` with the image. -/
def recOptions : Options :=
  { noFiles with image := .content recImage, registerValues := fun i => if i = 0 then 16 else 0 }

/-- The 16th Fibonacci number. -/
theorem recursion_computes_sixteen :
    ∃ cpu, @setUp ⟨.little⟩ (fun _ _ => 0) (smallCpu smallHeap) recOptions = some (some cpu) ∧
      ∃ k, ∀ xs, k ≤ turnCount xs → ∃ log s,
        @happenAll ⟨.little⟩ (xs.map Stimulus.event) cpu.started = some (log, s) ∧ s.Returns 16 987 := by
  have hroom : stackSize.toNat + recImage.length ≤ recOptions.ramSize.toNat := by
    rw [recImage, length_image]
    decide
  have hl : Launch recOptions recImage 32 :=
    ⟨⟨rfl, fun _ e => File.noConfusion e, hroom, by decide⟩, File.noConfusion, rfl, rfl, by decide, rfl⟩
  exact @recursion_computes ⟨.little⟩ _ _ _ (fun _ _ => 0) (smallCpu smallHeap) rec_assembles hl (by decide)

end Thorium.Vm
