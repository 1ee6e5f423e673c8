import Thorium.Isa.Table
import Thorium.Thi.Codes
import Thorium.Thi.Parser

/-!
# The generated tables

Model of `bin/thi.lua` in its mode `source`: the tables `ops`, `ops_list` and `ops_name` of
`ops_array.h` and the type `Op` of `op.rs` with `bytecode` and `from`. The tables of `ops_array.h` are
indexed by code; an enumerator and a variant have the value they are declared with, which takes that
their name is declared once.
-/

namespace Thorium.Thi
open Thorium.Isa

/-- The `ast` of `thi.lua`. A code above 255 stops it in the message it would print: `toString` is
called there without an instruction. -/
def thi (text : List Char) : Except String (List Instruction) := do
  let ts ← lex text
  let ds ← parse ts
  let ast ← parseDirectives 0 ds
  if ast.all fun v => v.opcode ≤ 255 then .ok ast
  else .error "attempt to index a nil value (local 'self')"

/-! ### `ops_array.h` -/

/-- The suffix of the names in `ops_array.h`. -/
def suffix (v : Instruction) : List Char := if v.suffix.isEmpty then [] else '_' :: v.suffix

/-- The handler of an instruction. -/
def handler (v : Instruction) : String :=
  String.ofList ("op_".toList ++ v.name.toList.map Char.toLower ++ (suffix v).map Char.toLower)

/-- The enumerator of an instruction. -/
def enumerator (v : Instruction) : String :=
  String.ofList (v.name.toList.map Char.toUpper ++ (suffix v).map Char.toUpper)

/-- `string:rpad`. -/
def rpad (s : List Char) (l : Nat) : List Char := s ++ List.replicate (l - s.length) ' '

/-- A table of `ops_array.h`: an entry for each instruction, another for each free code. -/
def table {α : Type} (ast : List Instruction) (entry : Instruction → α) (free : Nat → α) : List α :=
  (List.range 256).map fun n =>
    match instructionAt ast n with
    | some v => entry v
    | none => free n

/-- `ops`; `none` is `NULL`. -/
def ops (ast : List Instruction) : List (Option String) :=
  table ast (fun v => some (handler v)) fun _ => none

/-- `enum ops_list`. -/
def opsList (ast : List Instruction) : List String :=
  table ast enumerator fun n => "_" ++ toString n

/-- `ops_name`. -/
def opsName (ast : List Instruction) : List String :=
  table ast (fun v => String.ofList (rpad (v.name.toList.map Char.toUpper) 5)) fun _ => "_    "

/-! ### `op.rs` -/

/-- `pub enum Op`: the variants with their discriminants. -/
def variants (ast : List Instruction) : List (String × Nat) :=
  ast.map fun v => (v.variant, v.opcode)

/-- The value of a name that is declared once. The compilers refuse a second declaration. -/
def declared (ds : List (String × Nat)) (name : String) : Option Nat :=
  match ds.filter fun d => d.1 == name with
  | [d] => some d.2
  | _ => none

/-- The value of an enumerator, which C counts from 0. -/
def enumValue (ast : List Instruction) (name : String) : Option Nat :=
  declared (opsList ast).zipIdx name

/-- `Op::bytecode`: the discriminant as a `u8`. -/
def bytecode (ast : List Instruction) (name : String) : Option Nat :=
  (declared (variants ast) name).map fun n => n % 256

/-- `Op::from`: the first arm that matches. -/
def opFrom (ast : List Instruction) (n : Nat) : String :=
  match ast.find? fun v => v.opcode == n with
  | some v => v.variant
  | none => "Panic"

/-! ### Agreement -/

/-- What the tables say at the code of an instruction. -/
structure Indexed (ast : List Instruction) (v : Instruction) : Prop where
  code : v.code = some v.opcode
  handler : (ops ast)[v.opcode]? = some (some (handler v))
  name : (opsName ast)[v.opcode]? = some (String.ofList (rpad v.name.toList 5))
  variant : opFrom ast v.opcode = v.variant

/-- The code at the names of an instruction. -/
structure Declared (ast : List Instruction) (v : Instruction) : Prop where
  enumerator : enumValue ast (enumerator v) = some v.opcode
  bytecode : bytecode ast v.variant = some v.opcode

/-- The mnemonic of an instruction and the types of its arguments. -/
def form (v : Instruction) : String × List ArgType := (v.name, v.args.map Arg.type)

/-! ### Lookups -/

section Lookup

variable {ast : List Instruction} {v w : Instruction} {n : Nat} {ds : List (String × Nat)}
variable {name : String} {a b : Nat}

/-- A code belongs to one instruction. -/
lemma opcode_inj (hp : (ast.map Instruction.opcode).Pairwise (· < ·)) (hv : v ∈ ast) (hw : w ∈ ast)
    (h : v.opcode = w.opcode) : v = w :=
  List.inj_on_of_nodup_map (hp.imp fun hlt => Nat.ne_of_lt hlt) hv hw h

/-- Both ends of the `ast` find the instruction of a code. -/
lemma find_opcode (hp : (ast.map Instruction.opcode).Pairwise (· < ·)) (hv : v ∈ ast)
    {l : List Instruction} (hl : ∀ w, w ∈ l ↔ w ∈ ast) :
    (l.find? fun w => w.opcode == v.opcode) = some v := by
  cases hfind : l.find? fun w => w.opcode == v.opcode with
  | none =>
    have hne := List.find?_eq_none.mp hfind v ((hl v).mpr hv)
    exact absurd (beq_self_eq_true _) hne
  | some w =>
    have hw := (hl w).mp (List.mem_of_find?_eq_some hfind)
    have he := List.find?_some hfind
    rw [opcode_inj hp hw hv (eq_of_beq he)]

/-- Each instruction is found by its code. -/
lemma instructionAt_opcode (hp : (ast.map Instruction.opcode).Pairwise (· < ·)) (hv : v ∈ ast) :
    instructionAt ast v.opcode = some v :=
  find_opcode hp hv fun _ => List.mem_reverse

/-- What is found has the code. -/
lemma instructionAt_mem (h : instructionAt ast n = some v) : v ∈ ast ∧ v.opcode = n := by
  unfold instructionAt at h
  have hc := List.find?_some h
  exact ⟨List.mem_reverse.mp (List.mem_of_find?_eq_some h), eq_of_beq hc⟩

/-- The entry of an instruction in a table. -/
lemma table_get {α : Type} {entry : Instruction → α} {free : Nat → α}
    (h : instructionAt ast n = some v) (hn : n ≤ 255) : (table ast entry free)[n]? = some (entry v) := by
  rw [table, List.getElem?_map, List.getElem?_range (Nat.lt_succ_of_le hn), Option.map_some, h]

/-- An entry of a table comes from an instruction or stands at a free code. -/
lemma table_entry {α : Type} {entry : Instruction → α} {free : Nat → α} {x : α}
    (h : (table ast entry free)[n]? = some x) :
    (∃ v ∈ ast, v.opcode = n ∧ entry v = x) ∨ free n = x := by
  rw [table, List.getElem?_map] at h
  obtain ⟨m, hm, h⟩ := Option.map_eq_some_iff.mp h
  obtain ⟨hlt, he⟩ := List.getElem?_eq_some_iff.mp hm
  rw [List.getElem_range] at he
  subst he
  split at h
  · next v hat =>
    obtain ⟨hv, hc⟩ := instructionAt_mem hat
    exact .inl ⟨v, hv, hc, h⟩
  · exact .inr h

/-- The value of a name is the only one it is declared with. -/
lemma declared_unique (h : declared ds name = some a) (hb : (name, b) ∈ ds) : b = a := by
  have hmem : (name, b) ∈ ds.filter fun d => d.1 == name :=
    List.mem_filter.mpr ⟨hb, beq_self_eq_true name⟩
  unfold declared at h
  split at h
  · next d hf =>
    cases h
    rw [hf] at hmem
    rw [← List.mem_singleton.mp hmem]
  · cases h

/-- A name has a value when it is declared with no other and no value is declared twice. -/
lemma declared_of_unique (hn : (ds.map Prod.snd).Nodup) (ha : (name, a) ∈ ds)
    (hu : ∀ b, (name, b) ∈ ds → b = a) : declared ds name = some a := by
  have hall : ∀ d ∈ ds.filter fun d => d.1 == name, d = (name, a) := by
    rintro ⟨k, b⟩ hd
    obtain ⟨hb, hk⟩ := List.mem_filter.mp hd
    have hk : k = name := eq_of_beq hk
    rw [hk] at hb ⊢
    rw [hu b hb]
  have hfn : (ds.filter fun d => d.1 == name).Nodup := (List.Nodup.of_map _ hn).filter _
  have hmem : (name, a) ∈ ds.filter fun d => d.1 == name :=
    List.mem_filter.mpr ⟨ha, beq_self_eq_true name⟩
  have hone : ∀ d, (d ∈ ds.filter fun d => d.1 == name) ↔ d ∈ [(name, a)] := by
    intro d
    constructor
    · intro hd
      rw [hall d hd]
      exact List.mem_singleton_self _
    · intro hd
      rw [List.mem_singleton.mp hd]
      exact hmem
  have he := List.perm_singleton.mp ((List.perm_ext_iff_of_nodup hfn (List.nodup_singleton _)).mpr hone)
  rw [declared, he]

end Lookup

/-! ### Names -/

section Names

variable {v w : Instruction} {c : Char} {s t : List Char} {n : Nat}

/-- The letter of a type of argument. -/
def letter (type : ArgType) : Char := Arg.typeLetter ⟨type, 0⟩

/-- The argument types have different letters. -/
lemma letter_injective : Function.Injective letter := by
  intro a b h
  cases a <;> cases b <;> first | rfl | exact absurd h (by decide)

/-- Their letters are small. -/
lemma letter_lower (type : ArgType) : (letter type).isLower := by
  cases type <;> decide

/-- A suffix has the letter of each argument. -/
lemma suffix_eq (v : Instruction) : v.suffix = (v.args.map Arg.type).map letter := by
  rw [List.map_map]
  rfl

/-- A suffix is of small letters. -/
lemma suffix_lower (v : Instruction) : ∀ c ∈ v.suffix, c.isLower := by
  intro c hc
  rw [suffix_eq] at hc
  obtain ⟨type, _, rfl⟩ := List.mem_map.mp hc
  exact letter_lower type

/-- A map that can be undone on a list. -/
lemma map_back {f g : Char → Char} (h : ∀ c ∈ s, g (f c) = c) : (s.map f).map g = s := by
  rw [List.map_map]
  exact (List.map_congr_left h).trans (List.map_id s)

/-- A capital is its own capital. -/
lemma toUpper_eq (h : c.isUpper) : c.toUpper = c :=
  Char.toUpper_eq_of_not_isLower (Char.not_isLower_of_isUpper h)

/-- Capitals stay as they are. -/
lemma map_toUpper (hs : ∀ c ∈ s, c.isUpper) : s.map Char.toUpper = s :=
  (List.map_congr_left fun c hc => toUpper_eq (hs c hc)).trans (List.map_id s)

/-- Lower case keeps capitals apart. -/
lemma map_toLower_inj (hs : ∀ c ∈ s, c.isUpper) (ht : ∀ c ∈ t, c.isUpper)
    (h : s.map Char.toLower = t.map Char.toLower) : s = t := by
  have hback : ∀ c : Char, c.isUpper → c.toLower.toUpper = c := by
    intro c hc
    rw [Char.toUpper_toLower_eq_toUpper]
    exact toUpper_eq hc
  rw [← map_back fun c hc => hback c (hs c hc), ← map_back fun c hc => hback c (ht c hc), h]

/-- Capitals keep lower case letters apart. -/
lemma map_toUpper_inj (hs : ∀ c ∈ s, c.isLower) (ht : ∀ c ∈ t, c.isLower)
    (h : s.map Char.toUpper = t.map Char.toUpper) : s = t := by
  have hback : ∀ c : Char, c.isLower → c.toUpper.toLower = c := by
    intro c hc
    rw [Char.toLower_toUpper_eq_toLower]
    exact Char.toLower_eq_of_not_isUpper (Char.not_isUpper_of_isLower hc)
  rw [← map_back fun c hc => hback c (hs c hc), ← map_back fun c hc => hback c (ht c hc), h]

/-- A text splits in one way where a property of its characters ends. -/
lemma split_unique {p : Char → Bool} {a b : List Char} (ha : ∀ c ∈ a, p c) (hb : ∀ c ∈ b, p c)
    (hs : s.takeWhile p = []) (ht : t.takeWhile p = []) (h : a ++ s = b ++ t) : a = b ∧ s = t := by
  have htake := congrArg (List.takeWhile p) h
  rw [List.takeWhile_append_of_pos ha, List.takeWhile_append_of_pos hb, hs, ht, List.append_nil,
    List.append_nil] at htake
  rw [htake] at h
  exact ⟨htake, List.append_cancel_left h⟩

/-- The name and the suffix of an instruction are its form. -/
lemma form_eq (hname : v.name = w.name) (hsuffix : v.suffix = w.suffix) : form v = form w := by
  rw [suffix_eq, suffix_eq] at hsuffix
  have htypes := List.map_injective_iff.mpr letter_injective hsuffix
  rw [form, form, hname, htypes]

/-- Instructions of one form have one name in `op.rs`. -/
lemma variant_of_form (h : form v = form w) : v.variant = w.variant := by
  obtain ⟨hname, htypes⟩ := Prod.mk.inj h
  have hsuffix : v.suffix = w.suffix := by
    rw [suffix_eq, suffix_eq, htypes]
  rw [Instruction.variant, Instruction.variant, hname, hsuffix]

/-- The suffixes in `ops_array.h`, in capitals, tell those of the instructions apart. -/
lemma suffix_inj (h : (suffix v).map Char.toUpper = (suffix w).map Char.toUpper) : v.suffix = w.suffix := by
  unfold suffix at h
  split at h
  · next hv =>
    split at h
    · next hw => rw [List.isEmpty_iff.mp hv, List.isEmpty_iff.mp hw]
    · cases h
  · split at h
    · cases h
    · exact map_toUpper_inj (suffix_lower v) (suffix_lower w) (List.cons.inj h).2

/-- The enumerator of an instruction whose name is in capitals. -/
lemma enumerator_eq (hv : Mnemonic v.name.toList) :
    (enumerator v).toList = v.name.toList ++ (suffix v).map Char.toUpper := by
  rw [enumerator, String.toList_ofList, map_toUpper hv.2]

/-- Enumerators tell the forms apart. -/
lemma enumerator_inj (hv : Mnemonic v.name.toList) (hw : Mnemonic w.name.toList)
    (h : enumerator v = enumerator w) : form v = form w := by
  have hsuffix : ∀ u : Instruction, ((suffix u).map Char.toUpper).takeWhile Char.isUpper = [] := by
    intro u
    unfold suffix
    split
    · rfl
    · rfl
  have htext := congrArg String.toList h
  rw [enumerator_eq hv, enumerator_eq hw] at htext
  obtain ⟨hname, hs⟩ := split_unique hv.2 hw.2 (hsuffix v) (hsuffix w) htext
  exact form_eq (String.toList_injective hname) (suffix_inj hs)

/-- Variants tell the forms apart. -/
lemma variant_inj (hv : Mnemonic v.name.toList) (hw : Mnemonic w.name.toList)
    (h : v.variant = w.variant) : form v = form w := by
  have hlower : ∀ {u : List Char}, (∀ c ∈ u, c.isUpper) → ∀ c ∈ u.map Char.toLower, c.isLower := by
    intro u hu c hc
    obtain ⟨d, hd, rfl⟩ := List.mem_map.mp hc
    rw [Char.isLower_toLower_eq_isAlpha, Char.isAlpha, hu d hd]
    rfl
  have hsuffix : ∀ u : Instruction, (u.suffix.map Char.toUpper).takeWhile Char.isLower = [] := by
    intro u
    cases u.suffix with
    | nil => rfl
    | cons c cs =>
      rw [List.map_cons, List.takeWhile_cons_of_neg]
      rw [Char.isLower_toUpper_eq_false]
      exact Bool.false_ne_true
  obtain ⟨hvne, hvup⟩ := hv
  obtain ⟨hwne, hwup⟩ := hw
  have htext := String.ofList_injective h
  cases hvl : v.name.toList with
  | nil => exact absurd hvl hvne
  | cons c cs =>
    cases hwl : w.name.toList with
    | nil => exact absurd hwl hwne
    | cons d ds =>
      rw [hvl] at htext hvup
      rw [hwl] at htext hwup
      obtain ⟨hc, hcs⟩ := List.forall_mem_cons.mp hvup
      obtain ⟨hd, hds⟩ := List.forall_mem_cons.mp hwup
      obtain ⟨hfirst, hrest⟩ := List.cons.inj htext
      rw [toUpper_eq hc, toUpper_eq hd] at hfirst
      obtain ⟨hlow, hs⟩ := split_unique (hlower hcs) (hlower hds) (hsuffix v) (hsuffix w) hrest
      refine form_eq (String.toList_injective ?_) ?_
      · rw [hvl, hwl, hfirst, map_toLower_inj hcs hds hlow]
      · exact map_toUpper_inj (suffix_lower v) (suffix_lower w) hs

/-- No enumerator is that of a free code. -/
lemma enumerator_ne (hv : Mnemonic v.name.toList) : enumerator v ≠ "_" ++ toString n := by
  intro h
  have htext := congrArg String.toList h
  rw [enumerator_eq hv, String.toList_append] at htext
  obtain ⟨hne, hup⟩ := hv
  cases hl : v.name.toList with
  | nil => exact hne hl
  | cons c cs =>
    rw [hl] at htext hup
    have hc := (List.cons.inj htext).1
    have := hup c List.mem_cons_self
    rw [hc] at this
    cases this

end Names

/-! ### Accepted files -/

section Accepted

variable {text : List Char} {ast : List Instruction} {v : Instruction}

/-- What holds of the `ast` of every file that is accepted. -/
structure Accepted (ast : List Instruction) : Prop where
  ascends : (ast.map Instruction.opcode).Pairwise (· < ·)
  coded : ∀ v ∈ ast, v.code = some v.opcode
  mnemonic : ∀ v ∈ ast, Mnemonic v.name.toList
  small : ∀ v ∈ ast, v.opcode ≤ 255

/-- The list that `thi` returns is accepted. -/
lemma thi_accepted (h : thi text = .ok ast) : Accepted ast := by
  obtain ⟨ts, hlex, h⟩ := bind_ok h
  obtain ⟨ds, hparse, h⟩ := bind_ok h
  obtain ⟨is, his, h⟩ := bind_ok h
  split at h
  · next hall =>
    cases h
    obtain ⟨n, hasc, hnames⟩ := parseDirectives_ascends his
    refine ⟨hasc.pairwise, hasc.coded, ?_, ?_⟩
    · intro v hv
      obtain ⟨d, hd, hname⟩ := hnames v hv
      rw [hname]
      exact parse_mnemonic (lex_named hlex) hparse d hd
    · intro v hv
      exact of_decide_eq_true (List.all_eq_true.mp hall v hv)
  · cases h

/-- The tables are right at every code. -/
lemma Accepted.indexed (ha : Accepted ast) (hv : v ∈ ast) : Indexed ast v where
  code := ha.coded v hv
  handler := table_get (instructionAt_opcode ha.ascends hv) (ha.small v hv)
  name := by
    rw [opsName, table_get (instructionAt_opcode ha.ascends hv) (ha.small v hv),
      map_toUpper (ha.mnemonic v hv).2]
  variant := by
    rw [opFrom, find_opcode ha.ascends hv fun _ => Iff.rfl]

/-- The discriminants are the codes. -/
lemma variants_snd : (variants ast).map Prod.snd = ast.map Instruction.opcode := by
  rw [variants, List.map_map]
  rfl

/-- The names of an instruction have its code when no other instruction is of its form. -/
lemma Accepted.declared (ha : Accepted ast) (hf : (ast.map form).Nodup) (hv : v ∈ ast) :
    Declared ast v where
  enumerator := by
    have hat : (opsList ast)[v.opcode]? = some (Thi.enumerator v) :=
      table_get (instructionAt_opcode ha.ascends hv) (ha.small v hv)
    apply declared_of_unique
    · rw [List.zipIdx_map_snd]
      exact List.nodup_range'
    · exact List.mem_zipIdx_iff_getElem?.mpr hat
    · intro b hb
      cases table_entry (List.mem_zipIdx_iff_getElem?.mp hb) with
      | inl h =>
        obtain ⟨w, hw, hc, he⟩ := h
        have hform := enumerator_inj (ha.mnemonic w hw) (ha.mnemonic v hv) he
        have hwv : w = v := List.inj_on_of_nodup_map hf hw hv hform
        exact hc.symm.trans (congrArg Instruction.opcode hwv)
      | inr h => exact absurd h.symm (enumerator_ne (ha.mnemonic v hv))
  bytecode := by
    have hd : Thi.declared (variants ast) v.variant = some v.opcode := by
      apply declared_of_unique
      · rw [variants_snd]
        exact ha.ascends.imp fun hlt => Nat.ne_of_lt hlt
      · exact List.mem_map_of_mem hv
      · intro b hb
        obtain ⟨w, hw, he⟩ := List.mem_map.mp hb
        obtain ⟨hname, hc⟩ := Prod.mk.inj he
        have hform := variant_inj (ha.mnemonic w hw) (ha.mnemonic v hv) hname
        have hwv : w = v := List.inj_on_of_nodup_map hf hw hv hform
        exact hc.symm.trans (congrArg Instruction.opcode hwv)
    rw [bytecode, hd, Option.map_some, Nat.mod_eq_of_lt (Nat.lt_succ_of_le (ha.small v hv))]

/-- Names that have a value are declared for one form only. -/
lemma Accepted.forms (ha : Accepted ast) (hd : ∀ v ∈ ast, Declared ast v) : (ast.map form).Nodup := by
  have hcodes : (ast.map Instruction.opcode).Nodup := ha.ascends.imp fun hlt => Nat.ne_of_lt hlt
  refine List.Nodup.map_on ?_ (List.Nodup.of_map _ hcodes)
  intro v hv w hw h
  have hbyte := (hd v hv).bytecode
  obtain ⟨n, hn, _⟩ := Option.map_eq_some_iff.mp hbyte
  have hvn : v.opcode = n := declared_unique hn (List.mem_map_of_mem hv)
  have hwmem : (v.variant, w.opcode) ∈ variants ast := by
    rw [variant_of_form h]
    exact List.mem_map_of_mem hw
  have hwn : w.opcode = n := declared_unique hn hwmem
  exact opcode_inj ha.ascends hv hw (hvn.trans hwn.symm)

end Accepted

/-- In every accepted file the codes increase strictly in source order and the tables are right at the
code of every instruction; its enumerator and its variant have that code for all of them exactly when
no two instructions have one mnemonic and arguments of the same types. -/
theorem tables_agree {text : List Char} {ast : List Instruction} (h : thi text = .ok ast) :
    (ast.map Instruction.opcode).Pairwise (· < ·) ∧ (∀ v ∈ ast, Indexed ast v) ∧
      ((∀ v ∈ ast, Declared ast v) ↔ (ast.map form).Nodup) := by
  have ha := thi_accepted h
  refine ⟨ha.ascends, fun v hv => ha.indexed hv, ha.forms, ?_⟩
  intro hf v hv
  exact ha.declared hf hv

/-- A file with codes at both levels, one of them ignored and one for later forms. -/
theorem tables_agree_mov : ∃ ast,
    thi "(op NOP) (op MOV ((args r0,w0) (code 4)) (code 2) (code 8) ((args r0,r1)))".toList = .ok ast ∧
      ast.map Instruction.opcode = [0, 4, 8] ∧ ∀ v ∈ ast, Declared ast v := by
  have h : thi "(op NOP) (op MOV ((args r0,w0) (code 4)) (code 2) (code 8) ((args r0,r1)))".toList = .ok [
      { name := "NOP", code := some 0 },
      { name := "MOV", code := some 4, args := [⟨.register, 0⟩, ⟨.word, 0⟩] },
      { name := "MOV", code := some 8, args := [⟨.register, 0⟩, ⟨.register, 1⟩] }] := by decide +kernel
  obtain ⟨_, _, hd⟩ := tables_agree h
  exact ⟨_, h, rfl, hd.mpr (by decide +kernel)⟩

/-- Nothing keeps a file from giving two instructions one name. -/
theorem not_tables_agree : ¬ ∀ {text : List Char} {ast : List Instruction}, thi text = .ok ast →
    (ast.map Instruction.opcode).Pairwise (· < ·) ∧ ∀ v ∈ ast, Indexed ast v ∧ Declared ast v := by
  have htwo : thi "(op NOP) (op NOP)".toList =
      .ok [{ name := "NOP", code := some 0 }, { name := "NOP", code := some 1 }] := by decide +kernel
  intro h
  obtain ⟨_, hd⟩ := (h htwo).2 _ List.mem_cons_self
  have hnone : enumValue [{ name := "NOP", code := some 0 }, { name := "NOP", code := some 1 }] "NOP" = none := by
    decide +kernel
  cases hnone.symm.trans hd.enumerator

/-! ### The instruction set -/

section InstructionSet

/-- `instructions.thi` gives the instructions of the model. -/
lemma parse_instructionsThi : parseDirectives 0 instructionsThi = .ok Isa.ast := by
  have hok : (parseDirectives 0 instructionsThi).isOk = true := by decide +kernel
  cases h : parseDirectives 0 instructionsThi with
  | error e =>
    rw [h] at hok
    cases hok
  | ok is => rw [Isa.ast, h]

/-- The instruction set of the repository is an accepted one. -/
lemma accepted_ast : Accepted Isa.ast := by
  have h := parse_instructionsThi
  obtain ⟨n, hasc, hnames⟩ := parseDirectives_ascends h
  have hm : (instructionsThi.all fun d => !d.name.toList.isEmpty && d.name.toList.all Char.isUpper) = true := by
    decide +kernel
  refine ⟨hasc.pairwise, hasc.coded, ?_, by decide +kernel⟩
  intro v hv
  obtain ⟨d, hd, hname⟩ := hnames v hv
  obtain ⟨hne, hup⟩ := Bool.and_eq_true_iff.mp (List.all_eq_true.mp hm d hd)
  rw [hname]
  refine ⟨?_, List.all_eq_true.mp hup⟩
  intro hnil
  rw [hnil] at hne
  cases hne

/-- Its tables agree on every operation. -/
theorem op_agrees (op : Op) : ∃ v ∈ Isa.ast, op.row = some v ∧ v.opcode = op.bytecode.toNat ∧
    Indexed Isa.ast v ∧ Declared Isa.ast v := by
  have hforms : (Isa.ast.map form).Nodup := by decide +kernel
  have hrow : ∀ op ∈ Op.all, op.row.isSome := by decide +kernel
  obtain ⟨v, hv⟩ := Option.isSome_iff_exists.mp (hrow op op.mem_all)
  have hmem := List.mem_of_find?_eq_some hv
  refine ⟨v, hmem, hv, ?_, accepted_ast.indexed hmem, accepted_ast.declared hforms hmem⟩
  rw [Op.bytecode, hv, Option.map_some, Option.getD_some, BitVec.toNat_ofNat]
  exact (Nat.mod_eq_of_lt (Nat.lt_succ_of_le (accepted_ast.small v hmem))).symm

end InstructionSet

end Thorium.Thi
