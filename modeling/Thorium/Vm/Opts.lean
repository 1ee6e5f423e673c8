import Thorium.Lib.Numeral
import Thorium.Vm.Main

/-!
# Register values

Model of `parse_register_values` (`src/vm/opts.c`). `turn` is a turn of its loop and `Reached` are the states of
the loop before each character. `Reached.reads` ties them to the fields that have been read, each a
`<reg>:<val>`. The numbers are `int`s that wrap around, registers are compared with their count only from above,
and the digits of all values of a register go to the same entry.
-/

namespace Thorium.Vm

/-! ### The code -/

/-- The `mode` of the loop: what is parsed. -/
inductive Mode where
  | register
  | value
  deriving DecidableEq, Repr

/-- The variables of the loop. -/
structure Locals where
  mode : Mode
  reg : Word
  parsedValues : Nat → Word

/-- The labels `parse_error` and `register_error`. -/
inductive ErrorLabel where
  | parseError
  | registerError (reg : Word)
  deriving DecidableEq, Repr

/-- `x * 10 + c - '0'` -/
def appendDigit (x : Word) (c : Char) : Word := x * 10 + BitVec.ofNat 32 c.toNat - 48

/-- `case 0`: a character of a register, followed by `rest`. -/
def registerTurn (registers : Nat) (reg : Word) (values : Nat → Word) (c : Char) (rest : List Char) :
    Except ErrorLabel Locals :=
  if c = ':' then
    if registers ≤ reg.toInt then .error (.registerError reg)
    else if rest = [] then .error .parseError
    else .ok ⟨.value, reg, values⟩
  else if !c.isDigit then .error .parseError
  else .ok ⟨.register, appendDigit reg c, values⟩

/-- `case 1`: a character of a value. A write outside of the array is undefined. -/
def valueTurn (registers : Nat) (reg : Word) (values : Nat → Word) (c : Char) (rest : List Char) :
    Option (Except ErrorLabel Locals) :=
  if c = ',' then
    if rest = [] then some (.error .parseError)
    else some (.ok ⟨.register, 0, values⟩)
  else if !c.isDigit then some (.error .parseError)
  else if 0 ≤ reg.toInt ∧ reg.toInt < registers then
    let i := reg.toInt.toNat
    some (.ok ⟨.value, reg, Function.update values i (appendDigit (values i) c)⟩)
  else none

/-- A turn of the loop at a character that is followed by `rest`. -/
def turn (registers : Nat) (s : Locals) (c : Char) (rest : List Char) : Option (Except ErrorLabel Locals) :=
  match s.mode with
  | .register => some (registerTurn registers s.reg s.parsedValues c rest)
  | .value => valueTurn registers s.reg s.parsedValues c rest

/-- The loop. -/
def turns (registers : Nat) (s : Locals) : List Char → Option (Except ErrorLabel Locals)
  | [] => some (.ok s)
  | c :: rest =>
    match turn registers s c rest with
    | some (.ok s) => turns registers s rest
    | r => r

/-- The variables before the loop. -/
def Locals.start : Locals := ⟨.register, 0, fun _ => 0⟩

/-- The entries of the array that is returned, and what is written to `stderr`. -/
structure ParsedValues where
  values : Nat → Word
  message : Option String

/-- What follows `parse_error`. -/
def parseError (str : List Char) : ParsedValues :=
  ⟨fun _ => 0, some s!"Cannot parse `{String.ofList str}` as a valid --register-values <VAL>\n"⟩

/-- What follows `register_error`. -/
def registerError (reg : Word) : ParsedValues :=
  ⟨fun _ => 0, some s!"Register `{reg.toInt}` is not a valid register for --register-values <VAL>\n"⟩

/-- `parse_register_values`, on a string that is not `NULL`. -/
def parseRegisterValues (registers : Nat) (str : List Char) : Option ParsedValues :=
  match turns registers .start str with
  | some (.ok s) => some (if s.mode ≠ .value then parseError str else ⟨s.parsedValues, none⟩)
  | some (.error .parseError) => some (parseError str)
  | some (.error (.registerError reg)) => some (registerError reg)
  | none => none

/-- The states of the loop, each with the characters that are left. -/
inductive Reached (registers : Nat) (str : List Char) : Locals → List Char → Prop where
  | start : Reached registers str .start str
  | next {s s' c rest} : Reached registers str s (c :: rest) → turn registers s c rest = some (.ok s') →
      Reached registers str s' rest

/-! ### Fields -/

/-- A `<reg>:<val>`. -/
@[ext] structure Field where
  reg : List Char
  val : List Char

/-- A field as it is written. -/
def Field.text (f : Field) : List Char := f.reg ++ ':' :: f.val

/-- Fields, each with the comma after it. -/
def fieldsText (fs : List Field) : List Char := fs.flatMap fun f => f.text ++ [',']

/-- Fields one after the other. -/
lemma fieldsText_append (fs fs' : List Field) : fieldsText (fs ++ fs') = fieldsText fs ++ fieldsText fs' :=
  List.flatMap_append

/-- The text of a last field with its comma. -/
lemma fieldsText_snoc (fs : List Field) (f : Field) (rest : List Char) :
    fieldsText (fs ++ [f]) ++ rest = fieldsText fs ++ (f.reg ++ ':' :: (f.val ++ ',' :: rest)) := by
  rw [fieldsText_append]
  simp [fieldsText, Field.text]

/-- A string of decimal digits, which may be empty. -/
def AllDigits (cs : List Char) : Prop := ∀ c ∈ cs, c.isDigit = true

instance (cs : List Char) : Decidable (AllDigits cs) := decidable_of_iff (cs.all Char.isDigit = true) List.all_eq_true

/-- The number it denotes. -/
def decimal (cs : List Char) : Nat := numeral 10 0 (cs.map fun c => c.toNat - '0'.toNat)

/-- The digits in front weigh more. -/
lemma decimal_append (cs cs' : List Char) : decimal (cs ++ cs') = decimal cs * 10 ^ cs'.length + decimal cs' := by
  rw [decimal, List.map_append, numeral_append, numeral_shift, List.length_map]
  rfl

/-- A last digit. -/
lemma decimal_snoc (cs : List Char) (c : Char) : decimal (cs ++ [c]) = decimal cs * 10 + (c.toNat - '0'.toNat) := by
  rw [decimal_append]
  simp [decimal]

/-- A number is below the power of ten of its length. -/
lemma decimal_lt {cs : List Char} (h : AllDigits cs) : decimal cs < 10 ^ cs.length := by
  induction cs using List.reverseRecOn with
  | nil => decide
  | append_singleton cs c ih =>
    have hc := (Char.isDigit_iff_toNat.mp (h c (by simp))).2
    have hcs := ih fun d hd => h d (List.mem_append_left _ hd)
    rw [decimal_snoc, List.length_append, List.length_singleton, pow_succ]
    have hdigit : c.toNat - '0'.toNat ≤ 9 := Nat.sub_le_sub_right hc _
    omega

/-- A digit is read modulo `2 ^ 32`. -/
lemma appendDigit_eq {c : Char} (hc : c.isDigit = true) (n : Nat) :
    appendDigit (BitVec.ofNat 32 n) c = BitVec.ofNat 32 (n * 10 + (c.toNat - '0'.toNat)) := by
  obtain ⟨d, hd⟩ := Nat.exists_eq_add_of_le' (Char.isDigit_iff_toNat.mp hc).1
  rw [appendDigit, hd, Nat.add_sub_cancel, BitVec.ofNat_add, BitVec.ofNat_add, BitVec.ofNat_mul, ← BitVec.add_assoc]
  exact BitVec.add_sub_cancel _ _

/-- Digits are read modulo `2 ^ 32`. -/
lemma foldl_appendDigit {cs : List Char} (h : AllDigits cs) (n : Nat) : cs.foldl appendDigit (BitVec.ofNat 32 n) =
    BitVec.ofNat 32 (numeral 10 n (cs.map fun c => c.toNat - '0'.toNat)) := by
  induction cs generalizing n with
  | nil => rfl
  | cons c cs ih =>
    obtain ⟨hc, hcs⟩ := List.forall_mem_cons.mp h
    rw [List.foldl_cons, appendDigit_eq hc, ih hcs]
    rfl

/-- The register number of a field as it is read. -/
def Field.register (f : Field) : Word := BitVec.ofNat 32 (decimal f.reg)

/-- The entries after the value of a field is read. -/
def Field.store (v : Nat → Word) (f : Field) : Nat → Word :=
  Function.update v f.register.toInt.toNat (f.val.foldl appendDigit (v f.register.toInt.toNat))

/-- A field the code reads: its register is below the count, as an `int`, and its digits, if any, have a place in
the array. -/
structure Field.Reads (registers : Nat) (f : Field) : Prop where
  reg : AllDigits f.reg
  val : AllDigits f.val
  below : f.register.toInt < registers
  inside : f.val ≠ [] → 0 ≤ f.register.toInt

/-! ### What is reached -/

section
variable {registers : Nat} {str rest : List Char} {s s' : Locals} {v : Nat → Word} {r : Word} {ds : List Char}
variable {fs : List Field} {f : Field} {c : Char}

/-- A digit of a register number. -/
lemma registerTurn_digit (hc : c.isDigit = true) :
    registerTurn registers r v c rest = .ok ⟨.register, appendDigit r c, v⟩ := by
  have hne : c ≠ ':' := by
    rintro rfl
    cases hc
  rw [registerTurn, if_neg hne, hc]
  rfl

/-- The end of a register number below the count. -/
lemma registerTurn_colon (hr : r.toInt < registers) (hne : rest ≠ []) :
    registerTurn registers r v ':' rest = .ok ⟨.value, r, v⟩ := by
  rw [registerTurn, if_pos rfl, if_neg (Int.not_le.mpr hr), if_neg hne]

/-- A digit of a value, for a register below the count. -/
lemma valueTurn_digit (hc : c.isDigit = true) (hlo : 0 ≤ r.toInt) (hhi : r.toInt < registers) :
    valueTurn registers r v c rest = some (.ok ⟨.value, r,
      Function.update v r.toInt.toNat (appendDigit (v r.toInt.toNat) c)⟩) := by
  have hne : c ≠ ',' := by
    rintro rfl
    cases hc
  rw [valueTurn, if_neg hne, if_neg (by rw [hc]; decide), if_pos ⟨hlo, hhi⟩]

/-- The end of a value. -/
lemma valueTurn_comma (hne : rest ≠ []) :
    valueTurn registers r v ',' rest = some (.ok ⟨.register, 0, v⟩) := by
  rw [valueTurn, if_pos rfl, if_neg hne]

/-- From a state that is reached the loop goes on as it would have. -/
lemma Reached.turns (h : Reached registers str s rest) : turns registers .start str = Vm.turns registers s rest := by
  induction h with
  | start => rfl
  | next _ ht ih => rw [ih, Vm.turns, ht]

/-- Digits of a register. -/
lemma Reached.digits (h : Reached registers str ⟨.register, r, v⟩ (ds ++ rest)) (hds : AllDigits ds) :
    Reached registers str ⟨.register, ds.foldl appendDigit r, v⟩ rest := by
  induction ds generalizing r with
  | nil => exact h
  | cons c ds ih =>
    obtain ⟨hc, hds⟩ := List.forall_mem_cons.mp hds
    exact ih (h.next (congrArg some (registerTurn_digit hc))) hds

/-- Digits of a value. -/
lemma Reached.value (h : Reached registers str ⟨.value, r, v⟩ (ds ++ rest)) (hds : AllDigits ds)
    (hlo : ds ≠ [] → 0 ≤ r.toInt) (hhi : r.toInt < registers) :
    Reached registers str
      ⟨.value, r, Function.update v r.toInt.toNat (ds.foldl appendDigit (v r.toInt.toNat))⟩ rest := by
  induction ds generalizing v with
  | nil =>
    rw [List.foldl_nil, Function.update_eq_self]
    exact h
  | cons c ds ih =>
    obtain ⟨hc, hds⟩ := List.forall_mem_cons.mp hds
    have hlo' : 0 ≤ r.toInt := hlo (List.cons_ne_nil c ds)
    have h1 := ih (h.next (valueTurn_digit hc hlo' hhi)) hds fun _ => hlo'
    rwa [Function.update_idem, Function.update_self] at h1

/-- A field. -/
lemma Reached.field (h : Reached registers str ⟨.register, 0, v⟩ (f.text ++ rest)) (hf : f.Reads registers)
    (hne : f.val ++ rest ≠ []) : Reached registers str ⟨.value, f.register, f.store v⟩ rest := by
  have htext : f.text ++ rest = f.reg ++ ':' :: (f.val ++ rest) := by
    rw [Field.text, List.append_assoc, List.cons_append]
  rw [htext] at h
  have hreg : f.reg.foldl appendDigit 0 = f.register := foldl_appendDigit hf.reg 0
  have h1 := h.digits hf.reg
  rw [hreg] at h1
  exact (h1.next (congrArg some (registerTurn_colon hf.below hne))).value hf.val hf.inside hf.below

/-- Fields with their commas. -/
lemma Reached.fields (h : Reached registers str ⟨.register, 0, v⟩ (fieldsText fs ++ rest))
    (hfs : ∀ f ∈ fs, f.Reads registers) (hne : rest ≠ []) :
    Reached registers str ⟨.register, 0, fs.foldl Field.store v⟩ rest := by
  induction fs generalizing v with
  | nil => exact h
  | cons f fs ih =>
    obtain ⟨hf, hfs⟩ := List.forall_mem_cons.mp hfs
    have htext : fieldsText (f :: fs) ++ rest = f.text ++ ',' :: (fieldsText fs ++ rest) := by
      rw [fieldsText, List.flatMap_cons, List.append_assoc, List.append_assoc]
      rfl
    rw [htext] at h
    have h1 := h.field hf (by simp)
    exact ih (h1.next (valueTurn_comma (by simp [hne]))) hfs

/-! ### What has been read -/

/-- What a character does to a register number. -/
lemma registerTurn_ok (h : registerTurn registers r v c rest = .ok s) :
    (c = ':' ∧ r.toInt < registers ∧ rest ≠ [] ∧ s = ⟨.value, r, v⟩) ∨
      (c.isDigit = true ∧ s = ⟨.register, appendDigit r c, v⟩) := by
  unfold registerTurn at h
  split at h
  · rename_i hc
    split at h
    · cases h
    split at h
    · cases h
    cases h
    exact .inl ⟨hc, Int.not_le.mp ‹_›, ‹_›, rfl⟩
  · split at h
    · cases h
    · rename_i hc
      cases h
      exact .inr ⟨by simpa using hc, rfl⟩

/-- What a character does to a value. -/
lemma valueTurn_ok (h : valueTurn registers r v c rest = some (.ok s)) :
    (c = ',' ∧ rest ≠ [] ∧ s = ⟨.register, 0, v⟩) ∨
      (c.isDigit = true ∧ 0 ≤ r.toInt ∧ r.toInt < registers ∧
        s = ⟨.value, r, Function.update v r.toInt.toNat (appendDigit (v r.toInt.toNat) c)⟩) := by
  unfold valueTurn at h
  split at h
  · rename_i hc
    split at h
    · cases h
    · cases h
      exact .inl ⟨hc, ‹_›, rfl⟩
  · split at h
    · cases h
    · rename_i hc
      split at h
      · rename_i hr
        cases h
        exact .inr ⟨by simpa using hc, hr.1, hr.2, rfl⟩
      · cases h

/-- What has been read of a string in a state of the loop. -/
inductive HasRead (registers : Nat) (str : List Char) : Locals → List Char → Prop where
  | register {fs : List Field} {ds rest : List Char} : (∀ f ∈ fs, f.Reads registers) → AllDigits ds →
      str = fieldsText fs ++ (ds ++ rest) →
      HasRead registers str ⟨.register, BitVec.ofNat 32 (decimal ds), fs.foldl Field.store fun _ => 0⟩ rest
  | value {fs : List Field} {f : Field} {rest : List Char} : (∀ f ∈ fs, f.Reads registers) → f.Reads registers →
      str = fieldsText fs ++ (f.text ++ rest) → f.val ++ rest ≠ [] →
      HasRead registers str ⟨.value, f.register, (fs ++ [f]).foldl Field.store fun _ => 0⟩ rest

/-- No digits. -/
lemma AllDigits.nil : AllDigits [] := fun _ hc => absurd hc List.not_mem_nil

/-- One digit more. -/
lemma AllDigits.snoc (h : AllDigits ds) (hc : c.isDigit = true) : AllDigits (ds ++ [c]) := by
  intro d hd
  rcases List.mem_append.mp hd with hd | hd
  · exact h d hd
  · rwa [List.mem_singleton.mp hd]

/-- A register number with its colon begins a field. -/
lemma Field.text_open (ds rest : List Char) : ds ++ ':' :: rest = Field.text ⟨ds, []⟩ ++ rest := by
  simp [Field.text]

/-- A field goes on with a character of its value. -/
lemma Field.text_snoc (f : Field) (c : Char) (rest : List Char) :
    f.text ++ c :: rest = Field.text ⟨f.reg, f.val ++ [c]⟩ ++ rest := by
  simp [Field.text]

/-- One more digit of the value of a field. -/
lemma Field.store_snoc (f : Field) (c : Char) (v : Nat → Word) :
    Field.store v ⟨f.reg, f.val ++ [c]⟩ = Function.update (f.store v) f.register.toInt.toNat
      (appendDigit (f.store v f.register.toInt.toNat) c) := by
  rw [Field.store, Field.store, List.foldl_append, Function.update_idem, Function.update_self]
  rfl

/-- Where the loop has come to, fields have been read. -/
lemma Reached.hasRead (h : Reached registers str s rest) : HasRead registers str s rest := by
  induction h with
  | start => exact @HasRead.register _ _ [] [] _ (fun _ hf => absurd hf List.not_mem_nil) .nil rfl
  | @next s s' c rest _ ht ih =>
    cases ih with
    | @register fs ds _ hfs hds e =>
      rcases registerTurn_ok (Option.some.inj ht) with ⟨rfl, hr, hne, rfl⟩ | ⟨hc, rfl⟩
      · have hf : Field.Reads registers ⟨ds, []⟩ := ⟨hds, .nil, hr, fun h => absurd rfl h⟩
        have hstore : (fs ++ [(⟨ds, []⟩ : Field)]).foldl Field.store (fun _ => 0) =
            fs.foldl Field.store fun _ => 0 := by
          rw [List.foldl_append]
          exact Function.update_eq_self _ _
        rw [Field.text_open] at e
        have h1 := HasRead.value hfs hf e hne
        rwa [hstore] at h1
      · rw [appendDigit_eq hc, ← decimal_snoc]
        exact .register hfs (hds.snoc hc) (e.trans (by simp))
    | @value fs f _ hfs hf e _ =>
      rcases valueTurn_ok ht with ⟨rfl, hne, rfl⟩ | ⟨hc, hlo, hhi, rfl⟩
      · have hall : ∀ g ∈ fs ++ [f], g.Reads registers := by
          intro g hg
          rcases List.mem_append.mp hg with hg | hg
          · exact hfs g hg
          · rwa [List.mem_singleton.mp hg]
        have htext : fieldsText fs ++ (f.text ++ ',' :: rest) = fieldsText (fs ++ [f]) ++ ([] ++ rest) := by
          rw [fieldsText_append]
          simp [fieldsText]
        exact @HasRead.register _ _ _ [] _ hall .nil (e.trans htext)
      · have hf' : Field.Reads registers ⟨f.reg, f.val ++ [c]⟩ := ⟨hf.reg, hf.val.snoc hc, hhi, fun _ => hlo⟩
        rw [Field.text_snoc] at e
        have h1 := HasRead.value hfs hf' e (by simp)
        rw [List.foldl_append] at h1 ⊢
        rw [List.foldl_cons, List.foldl_nil, Field.store_snoc] at h1
        exact h1

/-! ### Bounds -/

/-- The numbers of type `int`. -/
def IntRange (x : Int) : Prop := -2 ^ 31 ≤ x ∧ x < 2 ^ 31

/-- What a turn computes for `reg` stays in the range of `int`, and what it writes to, in the array. -/
structure InBounds (registers : Nat) (s : Locals) (c : Char) : Prop where
  accumulates : s.mode = .register → c.isDigit = true → IntRange (s.reg.toInt * 10) ∧
    IntRange (s.reg.toInt * 10 + c.toNat) ∧ IntRange (s.reg.toInt * 10 + c.toNat - '0'.toNat)
  writes : s.mode = .value → c.isDigit = true → 0 ≤ s.reg.toInt ∧ s.reg.toInt < registers

/-- Every turn on a string stays in bounds. -/
def StaysInBounds (registers : Nat) (str : List Char) : Prop :=
  ∀ s c rest, Reached registers str s (c :: rest) → InBounds registers s c

/-- The greatest register number that can be accumulated: `reg * 10 + c` comes before `- '0'`. -/
def regMax : Nat := 2 ^ 31 - 1 - '0'.toNat

/-- A field whose register is below the count. -/
structure Field.Below (registers : Nat) (f : Field) : Prop where
  reg : AllDigits f.reg
  val : AllDigits f.val
  below : decimal f.reg < registers

/-- Every register number that follows nothing but fields with registers below the count is at most `regMax`. -/
def RegistersFit (registers : Nat) (str : List Char) : Prop :=
  ∀ fs ds rest, (∀ f ∈ fs, Field.Below registers f) → AllDigits ds → str = fieldsText fs ++ (ds ++ rest) →
    decimal ds ≤ regMax

/-- A number below `2 ^ 31` is not read as a negative one. -/
lemma toInt_ofNat {n : Nat} (h : n < 2 ^ 31) : (BitVec.ofNat 32 n).toInt = n := by
  have hmod : n % 2 ^ 32 = n := Nat.mod_eq_of_lt (by omega)
  rw [BitVec.toInt_eq_toNat_of_lt, BitVec.toNat_ofNat, hmod]
  rw [BitVec.toNat_ofNat, hmod]
  omega

/-- The largest register number is below that. -/
lemma lt_of_le_regMax {n : Nat} (h : n ≤ regMax) : n < 2 ^ 31 := Nat.lt_of_le_of_lt h (by decide)

/-- The registers of the fields that are read in bounds are the numbers they denote. -/
lemma RegistersFit.below (hfit : RegistersFit registers str) (hfs : ∀ f ∈ fs, f.Reads registers)
    (e : str = fieldsText fs ++ rest) : ∀ f ∈ fs, Field.Below registers f := by
  induction fs using List.reverseRecOn generalizing rest with
  | nil => exact fun _ hf => absurd hf List.not_mem_nil
  | append_singleton fs f ih =>
    have hf := hfs f (List.mem_append_right _ (List.mem_singleton_self f))
    rw [fieldsText_snoc] at e
    have hbelow := ih (fun g hg => hfs g (List.mem_append_left _ hg)) e
    intro g hg
    rcases List.mem_append.mp hg with hg | hg
    · exact hbelow g hg
    · rw [List.mem_singleton.mp hg]
      have hlt := hf.below
      rw [Field.register, toInt_ofNat (lt_of_le_regMax (hfit fs f.reg _ hbelow hf.reg e))] at hlt
      exact ⟨hf.reg, hf.val, Int.ofNat_lt.mp hlt⟩

/-- Fields with registers that fit are read. -/
lemma Field.Below.reads (h : f.Below registers) (hlt : decimal f.reg < 2 ^ 31) : f.Reads registers where
  reg := h.reg
  val := h.val
  below := by
    rw [Field.register, toInt_ofNat hlt]
    exact Int.ofNat_lt.mpr h.below
  inside := fun _ => by
    rw [Field.register, toInt_ofNat hlt]
    exact Int.natCast_nonneg _

/-- The digits of a register number stay in bounds as long as it is small enough. -/
lemma StaysInBounds.decimal_le (h : StaysInBounds registers str)
    (hr : Reached registers str ⟨.register, 0, v⟩ (ds ++ rest)) (hds : AllDigits ds) : decimal ds ≤ regMax := by
  induction ds using List.reverseRecOn generalizing rest with
  | nil => exact Nat.zero_le _
  | append_singleton ds c ih =>
    have hds' : AllDigits ds := fun d hd => hds d (List.mem_append_left _ hd)
    have hc := hds c (List.mem_append_right _ (List.mem_singleton_self c))
    rw [List.append_assoc] at hr
    have hle := ih hr hds'
    have hr' := hr.digits hds'
    have hreg : ds.foldl appendDigit 0 = BitVec.ofNat 32 (decimal ds) := foldl_appendDigit hds' 0
    obtain ⟨_, ⟨_, hlt⟩, _⟩ := (h _ _ _ hr').accumulates rfl hc
    rw [hreg, toInt_ofNat (lt_of_le_regMax hle)] at hlt
    have hge := (Char.isDigit_iff_toNat.mp hc).1
    have e : '0'.toNat = 48 := rfl
    rw [decimal_snoc, regMax]
    omega

/-- In bounds, all fields with registers below the count are read. -/
lemma StaysInBounds.reads (h : StaysInBounds registers str) (hfs : ∀ f ∈ fs, Field.Below registers f)
    (e : str = fieldsText fs ++ rest) : ∀ f ∈ fs, f.Reads registers := by
  induction fs using List.reverseRecOn generalizing rest with
  | nil => exact fun _ hf => absurd hf List.not_mem_nil
  | append_singleton fs f ih =>
    have hf := hfs f (List.mem_append_right _ (List.mem_singleton_self f))
    rw [fieldsText_snoc] at e
    have hreads := ih (fun g hg => hfs g (List.mem_append_left _ hg)) e
    have hr : Reached registers str .start (fieldsText fs ++ (f.reg ++ ':' :: (f.val ++ ',' :: rest))) := e ▸ .start
    have hmax := h.decimal_le (hr.fields hreads (by simp)) hf.reg
    intro g hg
    rcases List.mem_append.mp hg with hg | hg
    · exact hreads g hg
    · rw [List.mem_singleton.mp hg]
      exact hf.reads (lt_of_le_regMax hmax)

/-- **Staying in bounds**: the registers are accumulated in the range of `int`, and only entries of the array are
written, exactly when the numbers of the registers fit. -/
theorem stays_in_bounds_iff (registers : Nat) (str : List Char) :
    StaysInBounds registers str ↔ RegistersFit registers str := by
  constructor
  · intro h fs ds rest hbelow hds e
    by_cases hne : ds ++ rest = []
    · rw [(List.append_eq_nil_iff.mp hne).1]
      exact Nat.zero_le _
    · have hr : Reached registers str .start (fieldsText fs ++ (ds ++ rest)) := e ▸ .start
      exact h.decimal_le (hr.fields (h.reads hbelow e) hne) hds
  · intro hfit s c rest hr
    cases hr.hasRead with
    | @register fs ds _ hfs hds e =>
      refine ⟨fun _ hc => ?_, fun hmode => Mode.noConfusion hmode⟩
      have hbelow := hfit.below hfs e
      have hsnoc := hfit fs (ds ++ [c]) rest hbelow (hds.snoc hc) (by rw [e, List.append_assoc]; rfl)
      rw [decimal_snoc] at hsnoc
      have hle := hfit fs ds _ hbelow hds e
      have hmax : regMax = 2147483599 := rfl
      have hc := Char.isDigit_iff_toNat.mp hc
      have e0 : '0'.toNat = 48 := rfl
      have e9 : '9'.toNat = 57 := rfl
      rw [toInt_ofNat (lt_of_le_regMax hle)]
      unfold IntRange
      omega
    | @value fs f _ hfs hf e _ =>
      refine ⟨fun hmode => Mode.noConfusion hmode, fun _ _ => ?_⟩
      have hreg : str = fieldsText fs ++ (f.reg ++ ':' :: (f.val ++ c :: rest)) := by
        rw [e]
        simp [Field.text]
      have hle := hfit fs f.reg _ (hfit.below hfs e) hf.reg hreg
      have hlt := hf.below
      rw [Field.register, toInt_ofNat (lt_of_le_regMax hle)] at hlt ⊢
      exact ⟨Int.natCast_nonneg _, hlt⟩

/-! ### Results -/

/-- A field of a valid string. -/
structure Field.Valid (registers : Nat) (f : Field) : Prop extends f.Below registers where
  reg_ne_nil : f.reg ≠ []
  val_ne_nil : f.val ≠ []
  fits : decimal f.val < 2 ^ 32

/-- A valid string is a list of valid fields with commas between them. -/
def Valid (registers : Nat) (str : List Char) : Prop :=
  ∃ fs f, str = fieldsText fs ++ f.text ∧ ∀ g ∈ fs ++ [f], g.Valid registers

/-- The values that fields give to a register, in their order. -/
def valuesOf (fs : List Field) (r : Nat) : List (List Char) :=
  (fs.filter fun f => decimal f.reg = r).map Field.val

/-- The last value that fields give to a register, or 0. -/
def lastValue (fs : List Field) (r : Nat) : Nat := (valuesOf fs r).getLast?.elim 0 decimal

/-- What `parse_register_values` is to do: it takes the valid strings, of which it returns the last value of each
register, and of every other it returns zeros. -/
def ParsesExactly (registers : Nat) (str : List Char) : Prop :=
  ∃ p, parseRegisterValues registers str = some p ∧ (p.message = none ↔ Valid registers str) ∧
    (∀ fs f, str = fieldsText fs ++ f.text → (∀ g ∈ fs ++ [f], g.Valid registers) →
      ∀ r < registers, p.values r = BitVec.ofNat 32 (lastValue (fs ++ [f]) r)) ∧
    (¬ Valid registers str → ∀ r < registers, p.values r = 0)

/-- The strings for which it does. Registers are compared as `int`s, with the lowest 32 bits of their numbers, and
the digits of all values of a register go to one number. -/
structure Parsable (registers : Nat) (str : List Char) : Prop where
  inside : ∀ fs reg d rest, (∀ f ∈ fs, Field.Reads registers f) → AllDigits reg → d.isDigit = true →
    str = fieldsText fs ++ (reg ++ ':' :: d :: rest) → (BitVec.ofNat 32 (decimal reg)).toInt < registers →
    0 ≤ (BitVec.ofNat 32 (decimal reg)).toInt
  valid : ∀ fs f, (∀ g ∈ fs ++ [f], Field.Reads registers g) → f.val ≠ [] → str = fieldsText fs ++ f.text →
    ∀ g ∈ fs ++ [f], g.Valid registers
  values : ∀ fs f, (∀ g ∈ fs ++ [f], Field.Reads registers g) → f.val ≠ [] → str = fieldsText fs ++ f.text →
    ∀ r vs v, valuesOf (fs ++ [f]) r = vs ++ [v] → 2 ^ 32 ∣ decimal vs.flatten * 10 ^ v.length

/-- The loop goes on from a state that is reached, or stops in one. -/
lemma Reached.none (h : Reached registers str s rest) (hn : Vm.turns registers s rest = none) :
    ∃ s' c rest', Reached registers str s' (c :: rest') ∧ turn registers s' c rest' = none := by
  induction rest generalizing s with
  | nil => cases hn
  | cons c rest ih =>
    rw [Vm.turns] at hn
    cases ht : turn registers s c rest with
    | none => exact ⟨s, c, rest, h, ht⟩
    | some r =>
      cases r with
      | error e =>
        rw [ht] at hn
        cases hn
      | ok s' =>
        rw [ht] at hn
        exact ih (h.next ht) hn

/-- The loop ends in a state that is reached. -/
lemma Reached.end (h : Reached registers str s rest) (hn : Vm.turns registers s rest = some (.ok s')) :
    Reached registers str s' [] := by
  induction rest generalizing s with
  | nil =>
    cases hn
    exact h
  | cons c rest ih =>
    rw [Vm.turns] at hn
    cases ht : turn registers s c rest with
    | none =>
      rw [ht] at hn
      cases hn
    | some r =>
      cases r with
      | error e =>
        rw [ht] at hn
        cases hn
      | ok s1 =>
        rw [ht] at hn
        exact ih (h.next ht) hn

/-- A digit stops the loop if the register is not inside. -/
lemma valueTurn_none (h : valueTurn registers r v c rest = none) :
    c.isDigit = true ∧ ¬ (0 ≤ r.toInt ∧ r.toInt < registers) := by
  unfold valueTurn at h
  split at h
  · split at h <;> cases h
  · split at h
    · cases h
    · rename_i hc
      split at h
      · cases h
      · exact ⟨by simpa using hc, ‹_›⟩

/-- Fields that are read to the end are taken. -/
lemma parseRegisterValues_fields (hfs : ∀ g ∈ fs ++ [f], g.Reads registers) (hne : f.val ≠ [])
    (e : str = fieldsText fs ++ f.text) :
    parseRegisterValues registers str = some ⟨(fs ++ [f]).foldl Field.store fun _ => 0, none⟩ := by
  have hf := hfs f (List.mem_append_right _ (List.mem_singleton_self f))
  have htext : f.text ≠ [] := by simp [Field.text]
  have hr : Reached registers str .start (fieldsText fs ++ f.text) := e ▸ .start
  have h1 := hr.fields (fun g hg => hfs g (List.mem_append_left _ hg)) htext
  have h2 := (List.append_nil f.text).symm ▸ h1
  have h3 := h2.field hf (by simpa using hne)
  rw [parseRegisterValues, h3.turns, List.foldl_append]
  rfl

/-- The characters before and after the first one that is no digit. -/
lemma AllDigits.split {ds' x y : List Char} (h : AllDigits ds) (h' : AllDigits ds') (hc : c.isDigit = false)
    (e : ds ++ c :: x = ds' ++ c :: y) : ds = ds' ∧ x = y := by
  induction ds generalizing ds' with
  | nil =>
    cases ds' with
    | nil => exact ⟨rfl, (List.cons.inj e).2⟩
    | cons d ds' =>
      cases (List.cons.inj e).1
      cases hc.symm.trans (h' c List.mem_cons_self)
  | cons d ds ih =>
    cases ds' with
    | nil =>
      cases (List.cons.inj e).1
      cases hc.symm.trans (h c List.mem_cons_self)
    | cons d' ds' =>
      obtain ⟨rfl, htail⟩ := List.cons.inj e
      obtain ⟨rfl, rfl⟩ := ih (fun a ha => h a (List.mem_cons_of_mem _ ha))
        (fun a ha => h' a (List.mem_cons_of_mem _ ha)) htail
      exact ⟨rfl, rfl⟩

/-- A string has its fields in one way. -/
lemma fields_unique {fs' : List Field} {f' : Field} (h : ∀ g ∈ fs ++ [f], AllDigits g.reg ∧ AllDigits g.val)
    (h' : ∀ g ∈ fs' ++ [f'], AllDigits g.reg ∧ AllDigits g.val)
    (e : fieldsText fs ++ f.text = fieldsText fs' ++ f'.text) : fs = fs' ∧ f = f' := by
  have hcons (g : Field) (gs : List Field) (k : Field) :
      fieldsText (g :: gs) ++ k.text = g.reg ++ ':' :: (g.val ++ ',' :: (fieldsText gs ++ k.text)) := by
    simp [fieldsText, Field.text]
  have hcomma {cs x : List Char} (h : AllDigits (cs ++ ',' :: x)) : False := by
    cases h ',' (by simp)
  induction fs generalizing fs' with
  | nil =>
    cases fs' with
    | nil =>
      obtain ⟨hr, hv⟩ := (h f (by simp)).1.split (h' f' (by simp)).1 rfl e
      exact ⟨rfl, Field.ext hr hv⟩
    | cons g' fs' =>
      rw [hcons] at e
      obtain ⟨_, hv⟩ := (h f (by simp)).1.split (h' g' (by simp)).1 rfl e
      exact (hcomma (hv ▸ (h f (by simp)).2)).elim
  | cons g fs ih =>
    cases fs' with
    | nil =>
      rw [hcons] at e
      obtain ⟨_, hv⟩ := (h g (by simp)).1.split (h' f' (by simp)).1 rfl e
      exact (hcomma (hv ▸ (h' f' (by simp)).2)).elim
    | cons g' fs' =>
      rw [hcons, hcons] at e
      obtain ⟨hr, hrest⟩ := (h g (by simp)).1.split (h' g' (by simp)).1 rfl e
      obtain ⟨hv, htail⟩ := (h g (by simp)).2.split (h' g' (by simp)).2 rfl hrest
      obtain ⟨rfl, rfl⟩ := ih (fun k hk => h k (List.mem_cons_of_mem _ hk))
        (fun k hk => h' k (List.mem_cons_of_mem _ hk)) htail
      have hg : g = g' := Field.ext hr hv
      exact ⟨by rw [hg], rfl⟩

/-- The entries after some fields: the digits of all values of a register, one after another. -/
lemma foldl_store (hn : registers < 2 ^ 31) (hfs : ∀ g ∈ fs, g.Valid registers) (v : Nat → Word) (i : Nat) :
    fs.foldl Field.store v i = (valuesOf fs i).flatten.foldl appendDigit (v i) := by
  induction fs generalizing v with
  | nil => rfl
  | cons f fs ih =>
    obtain ⟨hf, hfs⟩ := List.forall_mem_cons.mp hfs
    have hreg : f.register.toInt.toNat = decimal f.reg := by
      rw [Field.register, toInt_ofNat (hf.below.trans hn)]
      rfl
    rw [List.foldl_cons, ih hfs, Field.store, hreg]
    by_cases hi : decimal f.reg = i
    · subst hi
      rw [Function.update_self, valuesOf, valuesOf, List.filter_cons_of_pos (by simp), List.map_cons,
        List.flatten_cons, List.foldl_append]
    · rw [Function.update_of_ne (Ne.symm hi), valuesOf, valuesOf, List.filter_cons_of_neg (by simpa using hi)]

/-- An entry is the last value for it exactly when the digits before that one count for nothing. -/
lemma foldl_store_eq_iff (hn : registers < 2 ^ 31) (hfs : ∀ g ∈ fs, g.Valid registers) (i : Nat) :
    fs.foldl Field.store (fun _ => 0) i = BitVec.ofNat 32 (lastValue fs i) ↔
      ∀ vs v, valuesOf fs i = vs ++ [v] → 2 ^ 32 ∣ decimal vs.flatten * 10 ^ v.length := by
  have hdigits : AllDigits (valuesOf fs i).flatten := by
    intro c hc
    obtain ⟨cs, hcs, hc⟩ := List.mem_flatten.mp hc
    obtain ⟨f, hf, rfl⟩ := List.mem_map.mp hcs
    exact (hfs f (List.mem_of_mem_filter hf)).val c hc
  have hentry : fs.foldl Field.store (fun _ => 0) i = BitVec.ofNat 32 (decimal (valuesOf fs i).flatten) :=
    (foldl_store hn hfs _ i).trans (foldl_appendDigit hdigits 0)
  rw [hentry, lastValue]
  rcases List.eq_nil_or_concat (valuesOf fs i) with h | ⟨vs, v, h⟩
  · rw [h]
    exact iff_of_true rfl fun vs v e => absurd e (by simp)
  · rw [h, List.concat_eq_append, List.getLast?_concat, List.flatten_append, decimal_append]
    have hiff : BitVec.ofNat 32 (decimal vs.flatten * 10 ^ v.length + decimal v) = BitVec.ofNat 32 (decimal v) ↔
        2 ^ 32 ∣ decimal vs.flatten * 10 ^ v.length := by
      rw [← BitVec.toNat_inj, BitVec.toNat_ofNat, BitVec.toNat_ofNat]
      omega
    have hflat : [v].flatten = v := by simp
    rw [hflat, Option.elim_some, hiff]
    constructor
    · intro hdvd vs' v' e
      obtain ⟨rfl, hv⟩ := List.append_inj' e rfl
      cases hv
      exact hdvd
    · exact fun h => h vs v rfl

/-- A valid field is read. -/
lemma Field.Valid.reads (hn : registers < 2 ^ 31) (h : f.Valid registers) : f.Reads registers :=
  h.toBelow.reads (h.below.trans hn)

/-- Valid fields are parsed, and stored in their order. -/
lemma parseRegisterValues_valid (hn : registers < 2 ^ 31) (hfs : ∀ g ∈ fs ++ [f], g.Valid registers)
    (e : str = fieldsText fs ++ f.text) :
    parseRegisterValues registers str = some ⟨(fs ++ [f]).foldl Field.store fun _ => 0, none⟩ :=
  parseRegisterValues_fields (fun g hg => (hfs g hg).reads hn)
    (hfs f (List.mem_append_right _ (List.mem_singleton_self f))).val_ne_nil e

/-- A value of a register whose number is negative is written outside of the array. -/
lemma parseRegisterValues_outside (hfs : ∀ g ∈ fs, g.Reads registers) (hf : f.Reads registers) (hc : c.isDigit = true)
    (e : str = fieldsText fs ++ (f.text ++ c :: rest)) (hneg : ¬ 0 ≤ f.register.toInt) :
    parseRegisterValues registers str = none := by
  have hr : Reached registers str .start (fieldsText fs ++ (f.text ++ c :: rest)) := e ▸ .start
  have h1 := (hr.fields hfs (by simp)).field hf (by simp)
  have hne : c ≠ ',' := by
    rintro rfl
    cases hc
  have hnone (v : Nat → Word) : turn registers ⟨.value, f.register, v⟩ c rest = none := by
    show valueTurn registers f.register v c rest = none
    rw [valueTurn, if_neg hne, if_neg (by rw [hc]; decide), if_neg fun h => hneg h.1]
  rw [parseRegisterValues, h1.turns, Vm.turns, hnone]

/-- A string that is refused is not valid, as valid ones are taken. -/
lemma ParsesExactly.of_refused {p : ParsedValues} (hn : registers < 2 ^ 31)
    (hp : parseRegisterValues registers str = some p) (hmsg : p.message ≠ none) (hzero : p.values = fun _ => 0) :
    ParsesExactly registers str := by
  have hnot : ¬ Valid registers str := by
    rintro ⟨fs, f, e, hfs⟩
    cases hp.symm.trans (parseRegisterValues_valid hn hfs e)
    exact hmsg rfl
  refine ⟨p, hp, iff_of_false hmsg hnot, fun fs f e hfs => absurd ⟨fs, f, e, hfs⟩ hnot, fun _ r _ => ?_⟩
  rw [hzero]

/-- The fields of a string, if they are valid. -/
lemma fields_unique_valid {fs' : List Field} {f' : Field} (hfs : ∀ g ∈ fs ++ [f], g.Reads registers)
    (hfs' : ∀ g ∈ fs' ++ [f'], g.Valid registers) (e : str = fieldsText fs ++ f.text)
    (e' : str = fieldsText fs' ++ f'.text) : fs = fs' ∧ f = f' :=
  fields_unique (fun g hg => ⟨(hfs g hg).reg, (hfs g hg).val⟩) (fun g hg => ⟨(hfs' g hg).reg, (hfs' g hg).val⟩)
    (e.symm.trans e')

/-- What is parsed exactly meets the condition. -/
lemma ParsesExactly.parsable (hn : registers < 2 ^ 31) (h : ParsesExactly registers str) : Parsable registers str := by
  obtain ⟨p, hp, hmsg, hvalues, _⟩ := h
  have hread {fs f} (hfs : ∀ g ∈ fs ++ [f], Field.Reads registers g) (hne : f.val ≠ [])
      (e : str = fieldsText fs ++ f.text) : (∀ g ∈ fs ++ [f], g.Valid registers) ∧
        p.values = (fs ++ [f]).foldl Field.store fun _ => 0 := by
    cases hp.symm.trans (parseRegisterValues_fields hfs hne e)
    obtain ⟨fs', f', e', hfs'⟩ := hmsg.mp rfl
    obtain ⟨rfl, rfl⟩ := fields_unique_valid hfs hfs' e e'
    exact ⟨hfs', rfl⟩
  refine ⟨?_, fun fs f hfs hne e => (hread hfs hne e).1, ?_⟩
  · intro fs reg d rest hfs hreg hd e hbelow
    by_contra hneg
    have hf : Field.Reads registers ⟨reg, []⟩ := ⟨hreg, .nil, hbelow, fun h => absurd rfl h⟩
    rw [Field.text_open] at e
    cases hp.symm.trans (parseRegisterValues_outside hfs hf hd e hneg)
  · intro fs f hfs hne e r vs v hvs
    obtain ⟨hall, hstore⟩ := hread hfs hne e
    obtain ⟨g, hg, _⟩ := List.mem_map.mp (hvs.symm ▸ List.mem_append_right vs (List.mem_singleton_self v))
    obtain ⟨hg, hgr⟩ := List.mem_filter.mp hg
    have hr : r < registers := of_decide_eq_true hgr ▸ (hall g hg).below
    have hentry := hvalues fs f e hall r hr
    rw [hstore] at hentry
    exact (foldl_store_eq_iff hn hall r).mp hentry vs v hvs

/-- A string that is parsable is not written outside of the array for. -/
lemma Parsable.turns_ne_none (h : Parsable registers str) : Vm.turns registers .start str ≠ none := by
  intro ht
  obtain ⟨s, c, rest, hr, hturn⟩ := Reached.start.none ht
  cases hr.hasRead with
  | register _ _ _ => cases hturn
  | @value fs f _ hfs hf e _ =>
    obtain ⟨hc, hout⟩ := valueTurn_none hturn
    have hneg : ¬ 0 ≤ f.register.toInt := fun h0 => hout ⟨h0, hf.below⟩
    have hval : f.val = [] := by
      by_contra hne
      exact hneg (hf.inside hne)
    rw [Field.text, hval, List.append_assoc] at e
    exact hneg (h.inside fs f.reg c rest hfs hf.reg hc e hf.below)

/-- **`--register-values`** is parsed exactly when its registers and values are such that nothing wraps around,
nothing is empty, and no register comes again after digits that count. -/
theorem parses_exactly_iff (hn : registers < 2 ^ 31) (str : List Char) :
    ParsesExactly registers str ↔ Parsable registers str := by
  refine ⟨fun h => h.parsable hn, fun h => ?_⟩
  rcases ht : Vm.turns registers .start str with _ | (e | s)
  · exact absurd ht h.turns_ne_none
  · cases e with
    | parseError => exact .of_refused hn (by rw [parseRegisterValues, ht]) (Option.some_ne_none _) rfl
    | registerError reg => exact .of_refused hn (by rw [parseRegisterValues, ht]) (Option.some_ne_none _) rfl
  · have hr := Reached.start.end ht
    cases hr.hasRead with
    | register _ _ _ => exact .of_refused hn (by rw [parseRegisterValues, ht]) (Option.some_ne_none _) rfl
    | @value fs f _ hfs hf e hne =>
      rw [List.append_nil] at e hne
      have hall : ∀ g ∈ fs ++ [f], g.Reads registers :=
        List.forall_mem_append.mpr ⟨hfs, List.forall_mem_singleton.mpr hf⟩
      have hvalid := h.valid fs f hall hne e
      have hp := parseRegisterValues_fields hall hne e
      refine ⟨_, hp, iff_of_true rfl ⟨fs, f, e, hvalid⟩, ?_, fun hnot => absurd ⟨fs, f, e, hvalid⟩ hnot⟩
      intro fs' f' e' hfs' r _
      obtain ⟨rfl, rfl⟩ := fields_unique_valid hall hfs' e e'
      exact (foldl_store_eq_iff hn hvalid r).mpr (h.values fs f hall hne e r)

end

/-- A list of two registers. -/
theorem parses_exactly_two : ParsesExactly 32 "0:1,1:2".toList := by
  have htwo {fs f} (hfs : ∀ g ∈ fs ++ [f], Field.Reads 32 g) (e : "0:1,1:2".toList = fieldsText fs ++ f.text) :
      fs = [⟨['0'], ['1']⟩] ∧ f = ⟨['1'], ['2']⟩ :=
    fields_unique (fun g hg => ⟨(hfs g hg).reg, (hfs g hg).val⟩) (by decide) e.symm
  have hvalid : ∀ g ∈ [⟨['0'], ['1']⟩] ++ [⟨['1'], ['2']⟩], Field.Valid 32 g :=
    List.forall_mem_append.mpr
      ⟨List.forall_mem_singleton.mpr ⟨⟨by decide, by decide, by decide⟩, by decide, by decide, by decide⟩,
        List.forall_mem_singleton.mpr ⟨⟨by decide, by decide, by decide⟩, by decide, by decide, by decide⟩⟩
  refine (parses_exactly_iff (by decide) _).mpr ⟨?_, ?_, ?_⟩
  · -- A number of so few digits is not negative.
    intro fs reg d rest _ hreg _ e _
    have hlen : 7 = (fieldsText fs).length + (reg.length + (rest.length + 1 + 1)) := by
      simpa using congrArg List.length e
    have hlt := (decimal_lt hreg).trans_le (Nat.pow_le_pow_right (by decide) (show reg.length ≤ 5 by omega))
    rw [BitVec.toInt_eq_toNat_of_lt (by rw [BitVec.toNat_ofNat]; omega)]
    exact Int.natCast_nonneg _
  · intro fs f hfs _ e
    obtain ⟨rfl, rfl⟩ := htwo hfs e
    exact hvalid
  · intro fs f hfs _ e r vs v hvs
    obtain ⟨rfl, rfl⟩ := htwo hfs e
    have hle : (valuesOf ([⟨['0'], ['1']⟩] ++ [⟨['1'], ['2']⟩]) r).length ≤ 1 := by
      have h0 : decimal ['0'] = 0 := rfl
      have h1 : decimal ['1'] = 1 := rfl
      rcases r with _ | _ | r <;> simp [valuesOf, h0, h1]
    rw [hvs, List.length_append, List.length_singleton] at hle
    have hvs : vs = [] := List.length_eq_zero_iff.mp (by omega)
    rw [hvs, List.flatten_nil]
    exact (Nat.zero_mul _).symm ▸ Nat.dvd_zero _

/-- The values of a register that comes twice are put together. -/
theorem not_parses_exactly_twice : ¬ ∀ registers < 2 ^ 31, ∀ str, ParsesExactly registers str := by
  intro h
  obtain ⟨p, hp, _, hvalues, _⟩ := h 32 (by decide) "0:1,0:2".toList
  have hentry : (parseRegisterValues 32 "0:1,0:2".toList).map (fun p => p.values 0) = some 12 := by decide
  rw [hp] at hentry
  have hvalid : ∀ d ∈ ['1', '2'], Field.Valid 32 ⟨['0'], [d]⟩ := by
    intro d hd
    rcases List.mem_cons.mp hd with rfl | hd
    · exact ⟨⟨by decide, by decide +kernel, by decide⟩, by decide, by decide, by decide⟩
    · cases List.mem_singleton.mp hd
      exact ⟨⟨by decide, by decide +kernel, by decide⟩, by decide, by decide, by decide⟩
  have hlast := hvalues [⟨['0'], ['1']⟩] ⟨['0'], ['2']⟩ rfl (by
    intro g hg
    rcases List.mem_cons.mp hg with rfl | hg
    · exact hvalid '1' (by decide)
    · cases List.mem_singleton.mp hg
      exact hvalid '2' (by decide)) 0 (by decide)
  exact absurd ((Option.some.inj hentry).symm.trans hlast) (by decide)

/-- `2147483648:1` -/
theorem not_stays_in_bounds : ¬ ∀ registers str, 1 ≤ registers → registers ≤ 255 → StaysInBounds registers str := by
  intro h
  have hds : AllDigits "2147483648".toList := by decide
  have hle := @StaysInBounds.decimal_le 1 "2147483648:1".toList [':', '1'] (fun _ => 0) "2147483648".toList
    (h 1 _ (by decide) (by decide)) .start hds
  exact absurd hle (by decide)

end Thorium.Vm
