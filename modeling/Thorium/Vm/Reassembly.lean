import Thorium.Asm.Numerals
import Thorium.Asm.RoundTrip
import Thorium.Vm.Disassembly
import Thorium.Vm.Source

/-!
# Reassembly

The line that `cpu_instruction_to_string` prints of an instruction, given to the assembler as a file of its own. The
printer writes in the syntax of the assembler, with the state of the CPU in a comment. `reassembles_iff` says which
instructions come back as their own bytes: not those that the printer has forgotten, `XBM`, whose argument it leaves
out, and those with an address, which the assembler takes by a label only.
-/

namespace Thorium.Asm
open Thorium.Isa

/-! ### Numbers -/

section
variable {radix v n : Nat} {s t : List Char}

/-- Digits are read one after the other. -/
lemma digitsValue_append :
    digitsValue radix v (s ++ t) = (digitsValue radix v s).bind fun v => digitsValue radix v t := by
  induction s generalizing v with
  | nil => rfl
  | cons c s ih =>
    rw [List.cons_append, digitsValue, digitsValue]
    cases digitValue c with
    | none => rfl
    | some d =>
      dsimp only
      split
      · exact ih
      · rfl

/-- A digit has its value. -/
lemma digitsValue_digitChar {d : Nat} (hd : d < radix) (hr : radix ≤ 16) :
    digitsValue radix v [Nat.digitChar d] = some (v * radix + d) := by
  have hall : ∀ d < 16, digitValue (Nat.digitChar d) = some d := by decide
  rw [digitsValue, hall d (Nat.lt_of_lt_of_le hd hr)]
  exact if_pos hd

/-- The digits of a number are read as the number. -/
lemma digitsValue_toDigits (h : 1 < radix) (hr : radix ≤ 16) (n : Nat) :
    digitsValue radix 0 (Nat.toDigits radix n) = some n := by
  induction n using Nat.strongRecOn with
  | ind n ih =>
    rw [Nat.toDigits_eq_if h]
    split
    next hlt => rw [digitsValue_digitChar hlt hr, Nat.zero_mul, Nat.zero_add]
    next hge =>
      have hpos : 0 < n := by omega
      rw [digitsValue_append, ih (n / radix) (Nat.div_lt_self hpos h), Option.bind_some,
        digitsValue_digitChar (Nat.mod_lt n (by omega)) hr, Nat.div_add_mod']

/-- Zeros in front change nothing. -/
lemma digitsValue_zeros (k : Nat) (h : 1 < radix) :
    digitsValue radix 0 (List.replicate k '0' ++ s) = digitsValue radix 0 s := by
  induction k with
  | zero => rfl
  | succ k ih =>
    have hzero : digitValue '0' = some 0 := by decide
    rw [List.replicate_succ, List.cons_append, digitsValue, hzero]
    dsimp only
    rw [if_pos (by omega), Nat.zero_mul, Nat.zero_add, ih]

/-- Characters with a value are digits. -/
lemma isDigitOf_of_value (h : digitsValue radix v s = some n) : ∀ c ∈ s, IsDigitOf radix c := by
  induction s generalizing v with
  | nil => exact fun c hc => (List.not_mem_nil hc).elim
  | cons c s ih =>
    rw [digitsValue] at h
    cases hd : digitValue c with
    | none =>
      rw [hd] at h
      cases h
    | some d =>
      rw [hd] at h
      dsimp only at h
      split at h
      next hlt => exact List.forall_mem_cons.mpr ⟨⟨d, hd, hlt⟩, ih h⟩
      next => cases h

/-- Digits of a value that fits are the digits of a word. -/
lemma Digits.of_value (h : digitsValue radix 0 s = some n) (hne : s ≠ []) (hlt : n < 2 ^ 32) :
    Digits radix s (BitVec.ofNat 32 n) := by
  have hdigits := isDigitOf_of_value h
  have hfilter : s.filter (· != '_') = s := by
    rw [List.filter_eq_self]
    rintro c hc
    rw [bne_iff_ne]
    rintro rfl
    obtain ⟨d, hd, _⟩ := hdigits _ hc
    cases hd
  refine ⟨fun c hc => .inr (hdigits c hc), ?_⟩
  rw [hfilter, fromStrRadix, if_neg (by simpa using hne), h]
  exact if_pos hlt

end

/-- `%i` -/
lemma numeral_repr {n : Nat} (h : n < 2 ^ 32) : Numeral n.repr.toList (BitVec.ofNat 32 n) := by
  have hvalue := @digitsValue_toDigits 10 (by decide) (by decide) n
  rw [Nat.repr_eq_ofList_toDigits, String.toList_ofList]
  obtain ⟨c, cs, hcons⟩ := List.exists_cons_of_ne_nil (Nat.toDigits_ne_nil (n := n) (b := 10))
  rw [hcons] at hvalue ⊢
  have hfirst := isDigitOf_of_value hvalue c List.mem_cons_self
  exact .dec (isDigitOf_ten.mp hfirst) (.of_value hvalue (List.cons_ne_nil c cs) h)

end Thorium.Asm

namespace Thorium.Vm
open Thorium.Isa Thorium.Asm Thorium.Run

/-- `0x%08x` -/
lemma numeral_wxhex (w : Word) : Numeral (wxhex w).toList w := by
  have hvalue := (digitsValue_zeros (8 - (Nat.toDigits 16 w.toNat).length) (by decide)).trans
    (@digitsValue_toDigits 16 (by decide) (by decide) w.toNat)
  have hdigits := Digits.of_value hvalue (by simp [Nat.toDigits_ne_nil]) w.isLt
  rw [BitVec.ofNat_toNat, BitVec.setWidth_eq] at hdigits
  rw [wxhex, whex, String.toList_append, String.toList_ofList, String.toList_ofList]
  exact .hex hdigits

/-! ### Registers -/

/-- The registers that have a name in the source. The emitter has none for `pc`. -/
def Named (r : Byte) : Prop := r < 32 ∨ r.toNat ∈ [regSP, regBP, regCS, regIR, regIDT]

/-- What an identifier is, as it can be decided. -/
lemma isIdentifier_of {s : List Char}
    (h : (s.head?.any Char.isLower && s.tail.all fun d => d.isAlphanum || d == '_') = true) : IsIdentifier s := by
  obtain ⟨hhead, htail⟩ := Bool.and_eq_true_iff.mp h
  cases s with
  | nil => cases hhead
  | cons c cs =>
    refine ⟨c, cs, rfl, hhead, fun d hd => ?_⟩
    simpa using List.all_eq_true.mp htail d hd

/-- The text of a general register. -/
lemma toList_general (n : Nat) : (s!"r{n}").toList = 'r' :: Nat.toDigits 10 n := by
  simp [toString, Nat.repr_eq_ofList_toDigits]

/-- A number has one text. -/
lemma toDigits_inj {m n : Nat} (h : Nat.toDigits 10 m = Nat.toDigits 10 n) : m = n := by
  have hm := @digitsValue_toDigits 10 (by decide) (by decide) m
  have hn := @digitsValue_toDigits 10 (by decide) (by decide) n
  rw [h] at hm
  exact Option.some.inj (hm.symm.trans hn)

/-- The printer writes each register as an identifier. -/
lemma isIdentifier_registerName (r : Byte) : IsIdentifier (registerName r).toList := by
  apply isIdentifier_of
  unfold registerName
  split_ifs
  iterate 6 decide
  rw [toList_general]
  refine Bool.and_eq_true_iff.mpr ⟨rfl, List.all_eq_true.mpr fun c hc => ?_⟩
  have hdigit := isDigitOf_ten.mp (isDigitOf_of_value (digitsValue_toDigits (by decide) (by decide) _) c hc)
  simp [Char.isAlphanum, hdigit]

/-- The names that the assembler knows are those of the named registers. -/
lemma named_of_registerName {r : Byte} (h : RegisterName (registerName r)) : Named r := by
  have hpc : ¬ RegisterName "pc" := by
    rintro (h | ⟨n, _, h⟩)
    · simp at h
    · have hlist := congrArg String.toList h
      rw [toList_general] at hlist
      cases hlist
  unfold registerName at h
  split_ifs at h with hir hidt hcs hp hbp hsp
  · exact .inr (by simp [hir])
  · exact .inr (by simp [hidt])
  · exact .inr (by simp [hcs])
  · exact absurd h hpc
  · exact .inr (by simp [hbp])
  · exact .inr (by simp [hsp])
  · rcases h with h | ⟨n, hn, h⟩
    · have hhead : ∀ s ∈ ["sp", "bp", "cs", "ir", "idt"], s.toList.head? ≠ some 'r' := by decide
      refine absurd ?_ (hhead _ h)
      rw [toList_general]
      rfl
    · have hlist := congrArg String.toList h
      rw [toList_general, toList_general] at hlist
      have heq := toDigits_inj (List.cons.inj hlist).2
      exact .inl (show r.toNat < 32 from heq ▸ hn)

/-- A named register is written by a name that the assembler decodes. -/
lemma registerName_named {r : Byte} (h : Named r) :
    RegisterName (registerName r) ∧ Emitter.decodeRegister (registerName r) = some r := by
  obtain ⟨hgeneral, hspecial⟩ : (∀ n < 32, registerName (BitVec.ofNat 8 n) = s!"r{n}" ∧
      Emitter.decodeRegister s!"r{n}" = some (BitVec.ofNat 8 n)) ∧
    ∀ n ∈ [regSP, regBP, regCS, regIR, regIDT],
      registerName (BitVec.ofNat 8 n) ∈ ["sp", "bp", "cs", "ir", "idt"] ∧
        Emitter.decodeRegister (registerName (BitVec.ofNat 8 n)) = some (BitVec.ofNat 8 n) := by decide +kernel
  have hself : BitVec.ofNat 8 r.toNat = r := by simp
  rw [← hself]
  cases h with
  | inl hr =>
    obtain ⟨hname, hdecode⟩ := hgeneral r.toNat hr
    exact ⟨.inr ⟨r.toNat, hr, hname⟩, hname ▸ hdecode⟩
  | inr hr =>
    obtain ⟨hname, hdecode⟩ := hspecial r.toNat hr
    exact ⟨.inl hname, hdecode⟩

/-! ### Lines -/

/-- The token of an argument. -/
def Operands.token (o : Operands) (arg : Arg) : Asm.Kind :=
  match arg.type with
  | .register => .identifier (registerName (o.register arg.value))
  | .byte => .integer (o.b0.setWidth 32)
  | .word | .csRelativeAddress | .absoluteAddress => .integer o.w0

/-- The tokens of all arguments, with commas between them. -/
def Operands.tokens (o : Operands) : List Arg → List Asm.Kind
  | [] => []
  | arg :: args => o.token arg :: args.flatMap fun arg => [.comma, o.token arg]

section
variable {o : Operands} {op : Op} {arg : Arg} {args : List Arg} {blanks : List Char}

/-- The printer spells an operand as the lexer reads it. -/
lemma spelling_text (o : Operands) (arg : Arg) : Spelling (o.token arg) (o.text arg).toList := by
  unfold Operands.token Operands.text
  cases arg.type with
  | register =>
    have hspelling := Spelling.identifier (isIdentifier_registerName (o.register arg.value))
    rwa [String.ofList_toList] at hspelling
  | byte =>
    have hnumeral := numeral_repr (n := o.b0.toNat) (Nat.lt_trans o.b0.isLt (by decide))
    have hword : BitVec.ofNat 32 o.b0.toNat = o.b0.setWidth 32 := by
      apply BitVec.eq_of_toNat_eq
      simp
    exact .integer (hword ▸ hnumeral)
  | word | csRelativeAddress | absoluteAddress => exact .integer (numeral_wxhex o.w0)

/-- The text of some operands, character by character. -/
lemma toList_texts (o : Operands) (arg : Arg) (args : List Arg) : (o.texts (arg :: args)).toList =
    ' ' :: ((o.text arg).toList ++ args.flatMap fun arg => ',' :: ' ' :: (o.text arg).toList) := by
  have hfold (s : String) : (args.foldl (fun s arg => s ++ ", " ++ o.text arg) s).toList =
      s.toList ++ args.flatMap fun arg => ',' :: ' ' :: (o.text arg).toList := by
    induction args generalizing s with
    | nil => simp
    | cons arg args ih =>
      rw [List.foldl_cons, ih]
      simp
  rw [Operands.texts, hfold]
  simp

/-- No blanks are a gap. -/
lemma gap_nil : Gap [] := fun _ hc => (List.not_mem_nil hc).elim

/-- So is another blank. -/
lemma gap_blank (hb : Gap blanks) : Gap (blanks ++ [' ']) := by
  intro c hc
  rcases List.mem_append.mp hc with hc | hc
  · exact hb c hc
  · exact .inl (List.mem_singleton.mp hc)

/-- A line that starts with a separator. -/
lemma separated_cons {c : Char} {cs : List Char} (h : separates c = true) : Separated (c :: cs) := by
  rintro _ ⟨⟩
  exact h

/-- Blanks in front separate. -/
lemma separated_blanks {cs : List Char} (hb : ∀ c ∈ blanks, c = ' ') (h : Separated cs) :
    Separated (blanks ++ cs) := by
  cases blanks with
  | nil => exact h
  | cons b blanks =>
    rw [hb b List.mem_cons_self]
    exact separated_cons rfl

/-- The operands after the first, with the commas in front of them. -/
lemma lineText_rest (o : Operands) (args : List Arg) :
    LineText (args.flatMap fun arg => [.comma, o.token arg])
      ((args.flatMap fun arg => ',' :: ' ' :: (o.text arg).toList) ++ ['\n']) ∧
    Separated ((args.flatMap fun arg => ',' :: ' ' :: (o.text arg).toList) ++ ['\n']) := by
  induction args with
  | nil =>
    exact ⟨.nil gap_nil .newline, separated_cons rfl⟩
  | cons arg args ih =>
    obtain ⟨hline, hsep⟩ := ih
    rw [List.flatMap_cons, List.flatMap_cons, List.append_assoc]
    refine ⟨.cons gap_nil (s := [',']) .comma (fun h => by cases h) ?_, separated_cons rfl⟩
    exact .cons (g := [' ']) (fun c hc => .inl (List.mem_singleton.mp hc)) (spelling_text o arg) (fun _ => hsep) hline

/-- The arguments of a line are its tokens. -/
lemma lineText_texts (hb : Gap blanks) (o : Operands) (args : List Arg) :
    LineText (o.tokens args) (blanks ++ ((o.texts args).toList ++ ['\n'])) := by
  cases args with
  | nil => exact .nil hb .newline
  | cons arg args =>
    obtain ⟨hline, hsep⟩ := lineText_rest o args
    have hcons := LineText.cons (gap_blank hb) (spelling_text o arg) (fun _ => hsep) hline
    rw [toList_texts]
    simpa [Operands.tokens] using hcons

/-- Operands separate from what is in front of them. -/
lemma separated_texts {cs : List Char} (hb : ∀ c ∈ blanks, c = ' ') (o : Operands) (args : List Arg)
    (h : Separated cs) : Separated (blanks ++ ((o.texts args).toList ++ cs)) := by
  refine separated_blanks hb ?_
  cases args with
  | nil => exact h
  | cons arg args =>
    rw [toList_texts]
    exact separated_cons rfl

/-! ### Mnemonics -/

/-- What the table says of every operation. -/
lemma mnemonic_facts (op : Op) : IsMnemonic (mnemonic op).toList ∧ (opsName op.bytecode).length ≤ 5 ∧
    (tableArgs op).length ≤ 3 := by
  have hall : ∀ op ∈ Op.all,
      ((mnemonic op).toList.head?.any Char.isUpper && (mnemonic op).toList.all Char.isUpper) = true ∧
      (opsName op.bytecode).length ≤ 5 ∧ (tableArgs op).length ≤ 3 := by decide +kernel
  obtain ⟨hname, hlength, hargs⟩ := hall op op.mem_all
  obtain ⟨hhead, htail⟩ := Bool.and_eq_true_iff.mp hname
  refine ⟨?_, hlength, hargs⟩
  cases hcs : (mnemonic op).toList with
  | nil =>
    rw [hcs] at hhead
    cases hhead
  | cons c cs =>
    rw [hcs] at hhead htail
    exact ⟨c, cs, rfl, hhead, fun d hd => .inl (List.all_eq_true.mp htail d (List.mem_cons_of_mem c hd))⟩

/-- The line that is printed of an operation, but for a remark. -/
def instructionLine (op : Op) (o : Operands) : String := opsName op.bytecode ++ o.texts (tableArgs op)

/-- A line is the mnemonic and the arguments. -/
lemma lineText_instructionLine (op : Op) (o : Operands) :
    LineText (.op (mnemonic op) :: o.tokens (tableArgs op)) (instructionLine op o ++ "\n").toList := by
  obtain ⟨blanks, hb, hname⟩ := opsName_bytecode op
  have hop := Spelling.op (mnemonic_facts op).1
  rw [String.ofList_toList] at hop
  have hline := LineText.cons gap_nil hop (fun _ => separated_texts hb o (tableArgs op) (separated_cons rfl))
    (lineText_texts (fun c hc => .inl (hb c hc)) o (tableArgs op))
  have htext : (instructionLine op o ++ "\n").toList =
      [] ++ ((mnemonic op).toList ++ (blanks ++ ((o.texts (tableArgs op)).toList ++ ['\n']))) := by
    rw [instructionLine, hname]
    simp
  rwa [htext]

/-! ### Lengths -/

/-- A word is written with ten characters. -/
lemma length_wxhex (w : Word) : (wxhex w).toList.length = 10 := by
  have hdigits : (Nat.toDigits 16 w.toNat).length ≤ 8 :=
    (Nat.length_toDigits_le_iff (by decide) (by decide)).mpr w.isLt
  rw [wxhex, whex, String.toList_append, String.toList_ofList, String.toList_ofList]
  simp only [List.length_append, List.length_replicate, List.length_cons, List.length_nil]
  omega

/-- An operand has at most ten characters. -/
lemma length_text (o : Operands) (arg : Arg) : (o.text arg).toList.length ≤ 10 := by
  have hbyte (b : Byte) : (Nat.toDigits 10 b.toNat).length ≤ 3 :=
    (Nat.length_toDigits_le_iff (by decide) (by decide)).mpr (Nat.lt_trans b.isLt (by decide))
  unfold Operands.text
  cases arg.type with
  | register =>
    dsimp only
    unfold registerName
    split_ifs
    iterate 6 decide
    rw [toList_general]
    exact Nat.le_trans (Nat.succ_le_succ (hbyte _)) (by decide)
  | byte =>
    show (o.b0.toNat.repr).toList.length ≤ 10
    rw [Nat.repr_eq_ofList_toDigits, String.toList_ofList]
    exact Nat.le_trans (hbyte _) (by decide)
  | word | csRelativeAddress | absoluteAddress => exact (length_wxhex o.w0).le

/-- Operands have at most twelve characters each. -/
lemma length_texts (o : Operands) (args : List Arg) : (o.texts args).toList.length ≤ 12 * args.length := by
  cases args with
  | nil => exact Nat.le_refl 0
  | cons arg args =>
    have hrest : (args.flatMap fun arg => ',' :: ' ' :: (o.text arg).toList).length ≤ 12 * args.length := by
      induction args with
      | nil => exact Nat.le_refl 0
      | cons arg args ih =>
        have htext := length_text o arg
        simp only [List.flatMap_cons, List.length_append, List.length_cons] at ih ⊢
        omega
    have htext := length_text o arg
    rw [toList_texts, List.length_cons, List.length_append, List.length_cons]
    omega

/-- A line is short enough for the columns of the lexer. -/
lemma length_instructionLine (op : Op) (o : Operands) : (instructionLine op o ++ "\n").toList.length < 65000 := by
  obtain ⟨_, hname, hthree⟩ := mnemonic_facts op
  have htexts := length_texts o (tableArgs op)
  rw [← String.length_toList] at hname
  simp only [instructionLine, String.toList_append, List.length_append]
  have hend : "\n".toList.length = 1 := rfl
  omega

/-! ### Instructions -/

/-- The operations whose lines the assembler reads. -/
structure Plain (op : Op) : Prop where
  known : ¬ Forgotten op
  argument : op ≠ .xbm
  address : ∀ arg ∈ tableArgs op, arg.type ≠ .csRelativeAddress ∧ arg.type ≠ .absoluteAddress

/-- The arguments of the forms without an address or an offset. -/
def formArgs : Form → Option (List Arg)
  | .void => some []
  | .r => some [⟨.register, 0⟩]
  | .b => some [⟨.byte, 0⟩]
  | .rr => some [⟨.register, 0⟩, ⟨.register, 1⟩]
  | .rrr => some [⟨.register, 0⟩, ⟨.register, 1⟩, ⟨.register, 2⟩]
  | .rw => some [⟨.register, 0⟩, ⟨.word, 0⟩]
  | _ => none

/-- The instruction that is read of a line, by the form of its arguments. -/
def lineInstruction (op : Op) (o : Operands) : Form → Asm.Instruction
  | .r => .IR op (registerName o.r0)
  | .b => .IB op o.r0
  | .rr => .IRR op (registerName o.r0) (registerName o.r1)
  | .rrr => .IRRR op (registerName o.r0) (registerName o.r1) (registerName o.r2)
  | .rw => .IRW op (registerName o.r0) o.w0
  | _ => .I op

/-- A plain operation has a form. -/
lemma Plain.form (h : Plain op) : ∃ fs f, alternatives (mnemonic op) = some fs ∧ (op, f) ∈ fs ∧
    formArgs f = some (tableArgs op) ∧ (op.takesWord = true ↔ f = .rw) := by
  have hall : ∀ op ∈ Op.all, (op = .storRW ∨ op = .loadRRW ∨ op = .pushW) ∨ op = .xbm ∨
      (∃ arg ∈ tableArgs op, arg.type = .csRelativeAddress ∨ arg.type = .absoluteAddress) ∨
      ∃ f ∈ [Form.void, .r, .b, .rr, .rrr, .rw], (op, f) ∈ (alternatives (mnemonic op)).getD [] ∧
        formArgs f = some (tableArgs op) ∧ (op.takesWord = true ↔ f = .rw) := by decide +kernel
  rcases hall op op.mem_all with hf | hx | ⟨arg, hm, ha⟩ | ⟨f, _, hf, hargs, hw⟩
  · exact absurd hf h.known
  · exact absurd hx h.argument
  · obtain ⟨hs, habs⟩ := h.address arg hm
    exact absurd ha (not_or.mpr ⟨hs, habs⟩)
  · cases hfs : alternatives (mnemonic op) with
    | none =>
      rw [hfs] at hf
      cases hf
    | some fs =>
      rw [hfs] at hf
      exact ⟨fs, f, rfl, hf, hargs, hw⟩

/-- The tokens of a line are those announced for its form. -/
lemma announced_tokens {f : Form} (h : formArgs f = some args) :
    Announced .new op f (o.tokens args ++ [.eol]) (lineInstruction op o f) := by
  cases f <;> cases h
  case b =>
    have hbyte : (o.b0.setWidth 32).toNat ≤ 255 := by
      have hlt := o.b0.isLt
      rw [BitVec.toNat_setWidth, Nat.mod_eq_of_lt (by omega)]
      omega
    have hb := @Announced.b .new op _ (o.b0.setWidth 32) .word hbyte
    have hsame : (o.b0.setWidth 32).setWidth 8 = o.r0 := by
      apply BitVec.eq_of_toNat_eq
      have hlt := o.r0.isLt
      simp only [Operands.b0, BitVec.toNat_setWidth]
      omega
    rwa [hsame] at hb
  case r => exact .r
  case rr => exact .rr
  case rw => exact .rw .word
  case rrr => exact .rrr
  case void => exact .void

/-- The other operations with their alternatives. -/
lemma not_plain (hop : ¬ Forgotten op) (h : ¬ Plain op) :
    (op = .xbm ∧ ∀ y ∈ (alternatives (mnemonic op)).getD [], y.2 = .b) ∨
      ∃ arg, tableArgs op = [arg] ∧ (arg.type = .csRelativeAddress ∨ arg.type = .absoluteAddress) ∧
        ∀ y ∈ (alternatives (mnemonic op)).getD [], y.2 ∈ [Form.aa, .as, .r] := by
  have hall : ∀ op ∈ Op.all, (op = .xbm → ∀ y ∈ (alternatives (mnemonic op)).getD [], y.2 = .b) ∧
      ((∃ arg ∈ tableArgs op, arg.type = .csRelativeAddress ∨ arg.type = .absoluteAddress) →
        (tableArgs op).length = 1 ∧ ∀ y ∈ (alternatives (mnemonic op)).getD [], y.2 ∈ [Form.aa, .as, .r]) := by
    decide +kernel
  obtain ⟨hxbm, haddress⟩ := hall op op.mem_all
  by_cases hx : op = .xbm
  · exact .inl ⟨hx, hxbm hx⟩
  by_cases ha : ∃ arg ∈ tableArgs op, arg.type = .csRelativeAddress ∨ arg.type = .absoluteAddress
  · obtain ⟨hone, hforms⟩ := haddress ha
    obtain ⟨arg, hargs⟩ := List.length_eq_one_iff.mp hone
    obtain ⟨arg', hm, htype⟩ := ha
    rw [hargs, List.mem_singleton] at hm
    exact .inr ⟨arg, hargs, hm ▸ htype, hforms⟩
  · refine absurd ⟨hop, hx, fun arg hm => ⟨fun e => ha ⟨arg, hm, .inl e⟩, fun e => ha ⟨arg, hm, .inr e⟩⟩⟩ h

/-! ### Images -/

/-- The bytes that are written for a line. -/
def lineBytes (op : Op) (o : Operands) : Form → List Byte
  | .r | .b => [op.bytecode, o.r0, 0, 0]
  | .rr => [op.bytecode, o.r0, o.r1, 0]
  | .rrr => [op.bytecode, o.r0, o.r1, o.r2]
  | .rw => [op.bytecode, o.r0, 0, 0] ++ o.w0.toBeBytes
  | _ => [op.bytecode, 0, 0, 0]

/-- The register arguments have names. -/
def AllNamed (o : Operands) (args : List Arg) : Prop :=
  ∀ arg ∈ args, arg.type = .register → Named (o.register arg.value)

/-- A register passes the checker and the emitter. -/
lemma register_iff {r n : Byte} : ((mainChecker.registers (registerName r)).isSome = true ∧
    Emitter.decodeRegister (registerName r) = some n) ↔ Named r ∧ n = r := by
  constructor
  · rintro ⟨hcheck, hdecode⟩
    -- The checker knows `pc`, but the emitter does not.
    have hname : RegisterName (registerName r) := by
      by_cases hpc : registerName r = "pc"
      · obtain ⟨m, hm, _⟩ := Option.map_eq_some_iff.mp hdecode
        have hsome : (Emitter.registers (registerName r)).isSome = true := Option.isSome_iff_exists.mpr ⟨m, hm⟩
        exact RegisterName.iff_emitter.mpr ⟨hsome, by rw [hpc]; decide⟩
      · exact RegisterName.iff_checker.mpr ⟨hcheck, hpc⟩
    have hnamed := named_of_registerName hname
    have hself := (registerName_named hnamed).2
    exact ⟨hnamed, Option.some.inj (hdecode.symm.trans hself)⟩
  · rintro ⟨hnamed, rfl⟩
    obtain ⟨hname, hdecode⟩ := registerName_named hnamed
    exact ⟨(RegisterName.iff_checker.mp hname).1, hdecode⟩

/-- What the passes behind the parser make of a line. -/
lemma line_image {f : Form} {e : Emitter} {bytes : List Byte} (h : formArgs f = some args) :
    (mainChecker.check [.instruction (lineInstruction op o f)] = none ∧
      e.emitInstruction 0 (lineInstruction op o f) = some bytes) ↔ AllNamed o args ∧ bytes = lineBytes op o f := by
  have hknown {r : Byte} (hr : Named r) := register_iff.mpr ⟨hr, rfl⟩
  rw [check_eq_none]
  unfold AllNamed
  cases f <;> cases h
  all_goals
    simp only [Asm.operands, lineInstruction, Instruction.checkedRegisters, Emitter.emitInstruction, lineBytes,
      Operands.register, List.flatMap_cons, List.flatMap_nil, List.append_nil, List.mem_cons, List.not_mem_nil,
      or_false, forall_eq, forall_eq_or_imp, reduceCtorEq, false_implies, and_true, true_and, true_implies,
      implies_true, Option.bind_eq_bind, Option.bind_eq_some_iff, Option.some.injEq]
  case void | b => exact ⟨Eq.symm, Eq.symm⟩
  case r | rw =>
    constructor
    · rintro ⟨hcheck, n, hn, rfl⟩
      obtain ⟨hnamed, rfl⟩ := register_iff.mp ⟨hcheck, hn⟩
      exact ⟨hnamed, rfl⟩
    · rintro ⟨hnamed, rfl⟩
      exact ⟨(hknown hnamed).1, _, (hknown hnamed).2, rfl⟩
  case rr =>
    constructor
    · rintro ⟨⟨hcheck0, hcheck1⟩, n0, hn0, n1, hn1, rfl⟩
      obtain ⟨hnamed0, rfl⟩ := register_iff.mp ⟨hcheck0, hn0⟩
      obtain ⟨hnamed1, rfl⟩ := register_iff.mp ⟨hcheck1, hn1⟩
      exact ⟨⟨hnamed0, hnamed1⟩, rfl⟩
    · rintro ⟨⟨hnamed0, hnamed1⟩, rfl⟩
      exact ⟨⟨(hknown hnamed0).1, (hknown hnamed1).1⟩, _, (hknown hnamed0).2, _, (hknown hnamed1).2, rfl⟩
  case rrr =>
    constructor
    · rintro ⟨⟨hcheck0, hcheck1, hcheck2⟩, n0, hn0, n1, hn1, n2, hn2, rfl⟩
      obtain ⟨hnamed0, rfl⟩ := register_iff.mp ⟨hcheck0, hn0⟩
      obtain ⟨hnamed1, rfl⟩ := register_iff.mp ⟨hcheck1, hn1⟩
      obtain ⟨hnamed2, rfl⟩ := register_iff.mp ⟨hcheck2, hn2⟩
      exact ⟨⟨hnamed0, hnamed1, hnamed2⟩, rfl⟩
    · rintro ⟨⟨hnamed0, hnamed1, hnamed2⟩, rfl⟩
      exact ⟨⟨(hknown hnamed0).1, (hknown hnamed1).1, (hknown hnamed2).1⟩, _, (hknown hnamed0).2, _,
        (hknown hnamed1).2, _, (hknown hnamed2).2, rfl⟩

/-- One line with one instruction goes through the passes. -/
lemma assembleNodes_line {f : Form} {bytes : List Byte} (h : formArgs f = some args) :
    assembleNodes [.instruction (lineInstruction op o f)] = some (.image bytes) ↔
      AllNamed o args ∧ bytes = lineBytes op o f := by
  have hop : (lineInstruction op o f).op = op := by cases f <;> rfl
  have hsome : ∃ p, checkedAdd 0 (BitVec.ofNat 32 op.length) = some p := by
    cases op.length_cases with
    | inl hlen => exact hlen ▸ ⟨_, rfl⟩
    | inr hlen => exact hlen ▸ ⟨_, rfl⟩
  obtain ⟨p, hp⟩ := hsome
  have hresolve : resolve [.instruction (lineInstruction op o f)] = some (.ok .new) := by
    rw [resolve, collect, hop, hp]
    cases f <;> rfl
  rw [← line_image (e := ⟨[.instruction (lineInstruction op o f)], .new⟩) h, assembleNodes, hresolve, Option.bind_some]
  dsimp only
  cases hcheck : mainChecker.check [.instruction (lineInstruction op o f)] with
  | some errors => simp
  | none =>
    simp only [Emitter.emit, Emitter.emitFrom, List.foldlM_cons, List.foldlM_nil, Emitter.emitNode, List.nil_append,
      true_and]
    cases Emitter.emitInstruction ⟨[.instruction (lineInstruction op o f)], .new⟩ 0 (lineInstruction op o f) with
    | none => simp
    | some bytes' => simp

/-- The arguments are as the assembler writes them: registers with names, and zero where there is no argument. -/
structure Canonical (op : Op) (o : Operands) : Prop where
  named : AllNamed o (tableArgs op)
  zero : ∀ k < 3, (∀ arg ∈ tableArgs op, arg.value = k → arg.type = .word) → o.register k = 0

/-- The bytes of an instruction are those of its line if what the form leaves out is zero. -/
lemma codeBytes_eq {f : Form} (h : formArgs f = some args) (hw : op.takesWord = true ↔ f = .rw) :
    codeBytes op o = lineBytes op o f ↔
      ∀ k < 3, (∀ arg ∈ args, arg.value = k → arg.type = .word) → o.register k = 0 := by
  have hword : f ≠ .rw → op.takesWord = false := fun hf => Bool.eq_false_iff.mpr (mt hw.mp hf)
  have hall (P : Nat → Prop) : (∀ k < 3, P k) ↔ P 0 ∧ P 1 ∧ P 2 := by
    constructor
    · exact fun h => ⟨h 0 (by decide), h 1 (by decide), h 2 (by decide)⟩
    · rintro ⟨h0, h1, h2⟩ k hk
      interval_cases k
      · exact h0
      · exact h1
      · exact h2
  rw [hall]
  cases f <;> cases h
  case rw => simp [codeBytes, lineBytes, hw.mpr rfl, Operands.register]
  all_goals simp [codeBytes, lineBytes, hword (by decide), Operands.register]

/-! ### Printing -/

section
variable [Host] {word : Word} {cpu : CPU}

/-- The printer writes no remark but after an address. -/
lemma printedArgs_line (hb : Holds word o) (hop : ¬ Forgotten op) (hp : cpu.state.panic = .ok)
    (hw : op.takesWord = true → busWordRead cpu.heap cpu.bus cpu.pc = some (.ok o.w0))
    (haddress : ∀ arg ∈ tableArgs op, arg.type ≠ .csRelativeAddress ∧ arg.type ≠ .absoluteAddress) :
    printedArgs word op cpu = some (o.texts (tableArgs op), cpu) := by
  obtain ⟨h0, h1, h2⟩ := hb
  obtain ⟨none, r, b, rr, rrr, rw', a, s⟩ := tableArgs_groups
  cases op with
  | halt | iret | ind | ine | nop | panic | pusha | popa | ret | wfi | xbm | xbrk | xdbg | xpse | xpsd =>
    rw [none _ (by decide)]
    rfl
  | callR | decR | incR | popR | pushR =>
    rw [r _ (by decide)]
    show some (" " ++ registerName (byteOf word 1), cpu) = _
    rw [h0]
    rfl
  | miB | umiB | intB =>
    rw [b _ (by decide)]
    show some (" " ++ toString (byteOf word 1).toNat, cpu) = _
    rw [h0]
    rfl
  | addRR | andRR | cmpRR | loadRR | orRR | movRR | mulRR | popRR | pushRR | subRR | storRR | xorRR =>
    rw [rr _ (by decide)]
    show some (" " ++ registerName (byteOf word 1) ++ ", " ++ registerName (byteOf word 2), cpu) = _
    rw [h0, h1]
    rfl
  | popRRR | pushRRR =>
    rw [rrr _ (by decide)]
    show some (" " ++ registerName (byteOf word 1) ++ ", " ++ registerName (byteOf word 2) ++
      (", " ++ registerName (byteOf word 3)), cpu) = _
    rw [h0, h1, h2, ← String.append_assoc]
    rfl
  | addRW | andRW | cmpRW | loadRW | movRW | mulRW | orRW | subRW | xorRW =>
    rw [rw' _ (by decide)]
    show (printedWord _ >>= fun val => pure (" " ++ registerName (byteOf word 1) ++ ", " ++ val)) cpu = _
    rw [bind_apply, printedWord_ok _ hp (hw rfl), h0]
    rfl
  | callA | jA | jeqA | jneA => exact absurd rfl (haddress ⟨.absoluteAddress, 0⟩ (by rw [a _ (by decide)]; simp)).2
  | callS | jS | jeqS | jneS => exact absurd rfl (haddress ⟨.csRelativeAddress, 0⟩ (by rw [s _ (by decide)]; simp)).1
  | storRW => exact absurd (.inl rfl) hop
  | loadRRW => exact absurd (.inr (.inl rfl)) hop
  | pushW => exact absurd (.inr (.inr rfl)) hop

end

/-! ### Parsing -/

/-- A short text ends at a column that fits. -/
lemma advanceAll_start {text : List Char} (h : text.length < 65000) :
    ∃ p', Position.advanceAll ⟨1, 1⟩ text = some p' ∧ p'.column < 65001 := by
  have hs := short_of_length h
  apply advanceAll_short _ _ hs.columns
  · have hlines := hs.lines
    show 1 + _ < _
    omega
  · intro m r e hm
    have hcolumns := hs.columns [] m r e hm
    show 1 + _ < _
    omega

variable [Unicode]

/-- A file with printed nodes. -/
lemma parseFiles_prints {nodes : List Node} {text : String} (h : Prints nodes text.toList)
    (hlen : text.toList.length < 65000) : parseFiles .new [] [text] = some (.ok nodes) := by
  obtain ⟨p', hp, hcol⟩ := advanceAll_start hlen
  obtain ⟨tokens, hstream, hlines⟩ := prints_stream h hp hcol
  have htokens : tokenize text = ⟨tokens.map .ok, false⟩ := by rw [tokenize, Lexer.fromText, hstream]
  have hfuel : tokens.length < (tokens.map (.ok : Token → Item)).length + 1 := by
    rw [List.length_map]
    exact Nat.lt_succ_self _
  have hparse := @parseFuel_tokens .new nodes tokens _ [] hlines hfuel
  rw [parseFiles, parseText, htokens]
  show ((parseFuel _).run _).bind _ = _
  rw [hparse]
  rfl

/-- The first token of a text. -/
lemma stream_spelling {k : Asm.Kind} {g s rest : List Char} {p p' : Position} (hg : Gap g) (hs : Spelling k s)
    (hrest : k.isWord = true → Separated rest) (hp : p.advanceAll (g ++ s) = some p') :
    ∃ q, (Lexer.mk (g ++ (s ++ rest)) p).stream =
      ⟨.ok ⟨q, k⟩ :: (Lexer.mk rest p').stream.items, (Lexer.mk rest p').stream.aborts⟩ := by
  rw [Position.advanceAll_append] at hp
  obtain ⟨p1, hp1, hp⟩ := Option.bind_eq_some_iff.mp hp
  refine ⟨p1, Lexer.stream_cons ?_⟩
  rw [Lexer.next, nextItem_gap hg hp1]
  exact hs.nextItem hrest hp

/-- The first two tokens of a file. -/
lemma tokenize_spellings {text : String} {k k' : Asm.Kind} {g s s' rest : List Char} (hs : Spelling k s)
    (hg : Gap g) (hs' : Spelling k' s') (htext : text.toList = s ++ (g ++ (s' ++ rest)))
    (hsep : Separated (g ++ (s' ++ rest))) (hrest : Separated rest) (hlen : (s ++ (g ++ s')).length < 65000) :
    ∃ q q' items aborts, tokenize text = ⟨.ok ⟨q, k⟩ :: .ok ⟨q', k'⟩ :: items, aborts⟩ := by
  obtain ⟨p', hp, _⟩ := advanceAll_start hlen
  rw [Position.advanceAll_append] at hp
  obtain ⟨p1, hp1, hp2⟩ := Option.bind_eq_some_iff.mp hp
  obtain ⟨q', hsecond⟩ := stream_spelling hg hs' (fun _ => hrest) hp2
  obtain ⟨q, hfirst⟩ := stream_spelling gap_nil hs (fun _ => hsep) hp1
  rw [hsecond] at hfirst
  have htokens : tokenize text = (Lexer.mk (s ++ (g ++ (s' ++ rest))) ⟨1, 1⟩).stream := by
    rw [tokenize, Lexer.fromText, htext]
  exact ⟨q, q', _, _, htokens.trans hfirst⟩

/-- A file that starts with a number is refused. -/
lemma not_assembled_integer {text : String} {w : Word} {s rest : List Char} (hs : Spelling (.integer w) s)
    (htext : text.toList = s ++ rest) (hrest : Separated rest) (hlen : s.length < 65000) (bytes : List Byte) :
    assemble [text] ≠ some (.image bytes) := by
  obtain ⟨p', hp, _⟩ := advanceAll_start hlen
  obtain ⟨q, hstream⟩ := @stream_spelling _ _ [] s rest _ _ gap_nil hs (fun _ => hrest) hp
  have htokens : tokenize text = ⟨.ok ⟨q, .integer w⟩ :: (Lexer.mk rest p').stream.items,
      (Lexer.mk rest p').stream.aborts⟩ := by
    rw [tokenize, Lexer.fromText, htext]
    exact hstream
  unfold assemble parseFiles parseText
  rw [htokens]
  exact fun h => by cases h

/-- A file whose first line is of no alternative is refused. -/
lemma not_assembled_op {text name : String} {q q' : Position} {k : Asm.Kind} {items : List Item} {aborts : Bool}
    (htokens : tokenize text = ⟨.ok ⟨q, .op name⟩ :: .ok ⟨q', k⟩ :: items, aborts⟩)
    (hno : ∀ fs op f ks i, alternatives name = some fs → (op, f) ∈ fs → ¬ Announced .new op f (k :: ks) i)
    (bytes : List Byte) : assemble [text] ≠ some (.image bytes) := by
  intro h
  obtain ⟨nodes, _, hparse, _⟩ := assemble_image h
  unfold parseFiles at hparse
  obtain ⟨⟨r, parser⟩, hparse, hend⟩ := Option.bind_eq_some_iff.mp hparse
  cases r with
  | error err => cases hend
  | ok u =>
    rw [parseText, htokens] at hparse
    have hparse : (parseFuel (items.length + 3)).run ⟨⟨.ok ⟨q, .op name⟩ :: .ok ⟨q', k⟩ :: items, aborts⟩, .new, []⟩ =
      some (.ok u, parser) := hparse
    obtain ⟨t, s1, hturn, _⟩ := run_bind_inv hparse
    rw [turn_op] at hturn
    obtain ⟨i, s2, hinstruction, _⟩ := run_bind_inv hturn
    obtain ⟨fs, op, f, tokens, rest, _, hfs, hm, _, hitems, an, _⟩ := parseInstruction_ok hinstruction
    cases tokens with
    | nil => cases an.eol.2
    | cons t tokens =>
      cases hitems
      exact hno fs op f _ i hfs hm an

/-- A line with a plain operation is assembled to its bytes, if they are as the assembler writes them. -/
lemma assemble_line (h : Plain op) (o : Operands) :
    assemble [instructionLine op o ++ "\n"] = some (.image (codeBytes op o)) ↔ Canonical op o := by
  obtain ⟨fs, f, hfs, hf, hargs, hw⟩ := h.form
  have hmatches : Matches .new (mnemonic op) (o.tokens (tableArgs op) ++ [.eol]) (lineInstruction op o f) :=
    ⟨fs, op, f, hfs, hf, announced_tokens hargs⟩
  have hprints : Prints [.instruction (lineInstruction op o f)] (instructionLine op o ++ "\n").toList := by
    have hnode := Prints.node (.instruction hmatches) (lineText_instructionLine op o) .nil
    rwa [List.append_nil] at hnode
  unfold assemble
  rw [parseFiles_prints hprints (length_instructionLine op o), Option.bind_some]
  dsimp only
  rw [assembleNodes_line hargs, codeBytes_eq hargs hw]
  exact ⟨fun ⟨hnamed, hzero⟩ => ⟨hnamed, hzero⟩, fun hc => ⟨hc.named, hc.zero⟩⟩

/-- The line of `XBM` is refused. -/
lemma not_assembled_xbm (o : Operands) (hforms : ∀ y ∈ (alternatives (mnemonic .xbm)).getD [], y.2 = .b)
    (bytes : List Byte) : assemble [instructionLine .xbm o ++ "\n"] ≠ some (.image bytes) := by
  have hargs : tableArgs .xbm = [] := tableArgs_groups.1 .xbm (by decide)
  have hline := lineText_instructionLine .xbm o
  rw [hargs] at hline
  obtain ⟨p', hp, _⟩ := advanceAll_start (length_instructionLine .xbm o)
  have hstream : ∃ tokens : List Token, tokens.map Token.kind = .op (mnemonic .xbm) :: o.tokens [] ++ [.eol] ∧
      (Lexer.mk ((instructionLine .xbm o ++ "\n").toList ++ []) ⟨1, 1⟩).stream =
        ⟨tokens.map .ok ++ (Lexer.mk [] p').stream.items, (Lexer.mk [] p').stream.aborts⟩ := lineText_stream hline hp
  obtain ⟨tokens, hkinds, hstream⟩ := hstream
  obtain ⟨⟨q, _⟩, tokens, rfl, rfl, h1⟩ := List.map_eq_cons_iff.mp hkinds
  obtain ⟨⟨q', _⟩, tokens, rfl, rfl, h2⟩ := List.map_eq_cons_iff.mp h1
  rw [List.append_nil] at hstream
  -- `XBM` has to be followed by a byte, but the line is at its end.
  apply not_assembled_op (k := .eol) hstream
  intro fs op f ks i hfs hm an
  rw [hfs] at hforms
  cases hforms _ hm
  cases an with
  | b hw => cases hw

/-- The line of an operation with an address is refused, whatever follows. -/
lemma not_assembled_address {arg : Arg} {remark : String} (hargs : tableArgs op = [arg])
    (haddress : arg.type = .csRelativeAddress ∨ arg.type = .absoluteAddress)
    (hforms : ∀ y ∈ (alternatives (mnemonic op)).getD [], y.2 ∈ [Form.aa, .as, .r]) (hremark : Remark remark)
    (bytes : List Byte) : assemble [instructionLine op o ++ remark ++ "\n"] ≠ some (.image bytes) := by
  obtain ⟨blanks, hb, hname⟩ := opsName_bytecode op
  obtain ⟨hmnemonic, hlength, _⟩ := mnemonic_facts op
  have htoken : o.token arg = .integer o.w0 := by
    unfold Operands.token
    rcases haddress with h | h <;> rw [h]
  have htext : (o.text arg) = wxhex o.w0 := by
    unfold Operands.text
    rcases haddress with h | h <;> rw [h]
  have hop := Spelling.op hmnemonic
  rw [String.ofList_toList] at hop
  have hword : Spelling (.integer o.w0) (wxhex o.w0).toList := .integer (numeral_wxhex o.w0)
  have hshape : (instructionLine op o ++ remark ++ "\n").toList = (mnemonic op).toList ++
      ((blanks ++ [' ']) ++ ((wxhex o.w0).toList ++ (remark.toList ++ ['\n']))) := by
    rw [instructionLine, hname, hargs]
    simp [toList_texts, htext]
  have hblank {cs : List Char} : Separated ((blanks ++ [' ']) ++ cs) := by
    rw [List.append_assoc]
    exact separated_blanks hb (separated_cons rfl)
  have hsep : Separated (remark.toList ++ ['\n']) := by
    rcases hremark with rfl | ⟨s, rfl⟩
    · exact separated_cons rfl
    · rw [String.toList_append]
      exact separated_cons rfl
  have hlen : ((mnemonic op).toList ++ ((blanks ++ [' ']) ++ (wxhex o.w0).toList)).length < 65000 := by
    have hwx := length_wxhex o.w0
    rw [hname, ← String.length_toList, String.toList_append, String.toList_ofList, List.length_append] at hlength
    simp only [List.length_append, List.length_singleton]
    omega
  obtain ⟨q, q', items, aborts, htokens⟩ := tokenize_spellings hop (gap_blank fun c hc => .inl (hb c hc)) hword hshape
    hblank hsep hlen
  -- The alternatives want a label or a register, but the printer has written a number.
  refine not_assembled_op htokens ?_ bytes
  intro fs op' f ks i hfs hm an
  rw [hfs] at hforms
  have hf := hforms _ hm
  simp only [List.mem_cons, List.not_mem_nil, or_false] at hf
  rcases hf with rfl | rfl | rfl
  all_goals cases an

/-- The line of an operation that the printer has forgotten is refused. -/
lemma not_assembled_unknown (w : Word) (bytes : List Byte) :
    assemble [wxhex w ++ " ???" ++ "\n"] ≠ some (.image bytes) := by
  have htext : (wxhex w ++ " ???" ++ "\n").toList = (wxhex w).toList ++ " ???\n".toList := by simp
  refine not_assembled_integer (.integer (numeral_wxhex w)) htext (separated_cons rfl) ?_ bytes
  rw [length_wxhex]
  decide

/-- **Reassembly**: the line that is printed of an instruction in memory, given to the assembler as a file, is assembled
to the bytes of the instruction exactly when it is plain and its arguments are as the assembler writes them. -/
theorem reassembles_iff [Host] {cpu : CPU} (hp : cpu.state.panic = .ok)
    (hstands : Stands cpu.heap cpu.bus cpu.pc (codeBytes op o)) :
    ∃ word line, cpuFetch cpu = some (word, cpu.skip) ∧
      cpuInstructionToString (htov word) cpu.skip = some (heading cpu.skip ++ line, cpu.skip) ∧
        (assemble [line ++ "\n"] = some (.image (codeBytes op o)) ↔ Plain op ∧ Canonical op o) := by
  obtain ⟨hfirst, hword⟩ := stands_instruction hstands
  obtain ⟨h0, h1, h2, h3⟩ := byteOf_htov op.bytecode o.r0 o.r1 o.r2
  have hfetch := cpuFetch_ok hp hfirst
  by_cases hop : Forgotten op
  · obtain ⟨text, htext, w, rfl⟩ := @cpuInstructionToString_unknown _ _ cpu.skip op h0 hop
    refine ⟨_, wxhex w ++ " ???", hfetch, htext, ?_⟩
    exact iff_of_false (not_assembled_unknown w _) fun h => h.1.known hop
  by_cases hplain : Plain op
  · refine ⟨_, instructionLine op o, hfetch, ?_, ?_⟩
    · exact cpuInstructionToString_args h0 hop (printedArgs_line ⟨h1, h2, h3⟩ hop hp hword hplain.address)
    · rw [assemble_line hplain]
      exact (and_iff_right hplain).symm
  rcases not_plain hop hplain with ⟨rfl, hforms⟩ | ⟨arg, hargs, haddress, hforms⟩
  · have hnone : tableArgs .xbm = [] := tableArgs_groups.1 .xbm (by decide)
    have hprinted := @printedArgs_line o .xbm _ _ cpu.skip ⟨h1, h2, h3⟩ hop hp hword (by simp [hnone])
    refine ⟨_, instructionLine .xbm o, hfetch, cpuInstructionToString_args h0 hop hprinted, ?_⟩
    exact iff_of_false (not_assembled_xbm o hforms _) fun h => hplain h.1
  · obtain ⟨remark, hremark, hprinted⟩ := @printedArgs_texts _ _ o cpu.skip op ⟨h1, h2, h3⟩ hop hp hword
    have hline : cpuInstructionToString (htov (ByteOrder.big.ofBytes op.bytecode o.r0 o.r1 o.r2)) cpu.skip =
        some (heading cpu.skip ++ (instructionLine op o ++ remark), cpu.skip) := by
      rw [instructionLine, String.append_assoc]
      exact cpuInstructionToString_args h0 hop hprinted
    refine ⟨_, instructionLine op o ++ remark, hfetch, hline, ?_⟩
    exact iff_of_false (not_assembled_address hargs haddress hforms hremark _) fun h => hplain h.1

end

/-- A machine before `MOV r1, 4`. -/
def movCpu : CPU := twoWords (ByteOrder.big.ofBytes (Op.bytecode .movRW) 1 0 0) 4

/-- Its line is assembled to its bytes. -/
theorem reassembles_mov : ∃ word line, cpuFetch movCpu = some (word, movCpu.skip) ∧
    @cpuInstructionToString ⟨.little⟩ (@htov ⟨.little⟩ word) movCpu.skip =
        some (heading movCpu.skip ++ line, movCpu.skip) ∧
      @assemble asciiUnicode [line ++ "\n"] = some (.image [Op.bytecode .movRW, 1, 0, 0, 0, 0, 0, 4]) := by
  have hargs : tableArgs .movRW = [⟨.register, 0⟩, ⟨.word, 0⟩] := tableArgs_groups.2.2.2.2.2.1 _ (by decide)
  have hstands : Stands movCpu.heap movCpu.bus movCpu.pc (codeBytes .movRW ⟨1, 0, 0, 4⟩) :=
    ⟨by decide +kernel, by decide +kernel, rfl⟩
  obtain ⟨word, line, hfetch, hline, hiff⟩ :=
    @reassembles_iff ⟨1, 0, 0, 4⟩ .movRW asciiUnicode ⟨.little⟩ movCpu rfl hstands
  refine ⟨word, line, hfetch, hline, hiff.mpr ⟨⟨by unfold Forgotten; decide, by decide, ?_⟩, ?_, ?_⟩⟩
  · rw [hargs]
    decide
  · rw [hargs]
    intro arg hm htype
    simp only [List.mem_cons, List.not_mem_nil, or_false] at hm
    rcases hm with rfl | rfl
    · exact .inl (by decide)
    · cases htype
  · rw [hargs]
    intro k hk
    interval_cases k <;> simp [Operands.register]

end Thorium.Vm
