import Thorium.Asm.Layout

/-!
# Bases

`resolve` numbers the labels from the start of the image and does not look at `#base`; `emit` adds the base
in force at a reference to the number of its label. So the absolute references to a label have one operand
word for each base that is in force at one of them (`absolute_word_iff`).
-/

namespace Thorium.Asm
open Thorium.Isa

variable {em : Emitter} {nodes l l' m m' : List Node} {state state' : List Byte × Word} {map : HashMap Word}
variable {image : List Byte} {name : String} {i j : Instruction}

/-- The base in force after some nodes. -/
def baseAt (l : List Node) : Word := (l.filterMap Node.base).getLast?.getD 0

/-- The image has an operand word four bytes after some others. -/
def OperandAt (image before : List Byte) (w : Word) : Prop :=
  ∃ first after, image = before ++ (first ++ w.toBeBytes) ++ after ∧ first.length = 4

/-- The loop of `emit` takes the last base. -/
lemma emitFrom_last (h : em.emitFrom state l = some state') :
    state'.2 = (l.filterMap Node.base).getLast?.getD state.2 := by
  induction l generalizing state with
  | nil =>
    cases h
    rfl
  | cons n l ih =>
    rw [emitFrom_cons] at h
    obtain ⟨state1, hn, h⟩ := Option.bind_eq_some_iff.mp h
    obtain ⟨_, _, hbase, _⟩ := emitNode_inv hn
    rw [ih h, hbase]
    cases hb : n.base with
    | none => rw [List.filterMap_cons_none hb, Option.getD_none]
    | some b =>
      rw [List.filterMap_cons_some hb, List.getLast?_cons, Option.getD_some, Option.getD_some]

/-- A reference is emitted with the base in force and the number of its label. -/
lemma emit_reference {kind : AddressKind} (he : (Emitter.mk nodes map).emit = some image)
    (e : nodes = l ++ .instruction i :: l') (ha : i.address = some (name, kind)) :
    ∃ before w, (Emitter.mk nodes map).emitFrom ([], 0) l = some (before, baseAt l) ∧
      OperandAt image before w ∧ (Emitter.mk nodes map).operandAddress (baseAt l) name kind = some w := by
  obtain ⟨⟨_, base'⟩, hemit, rfl⟩ := Option.map_eq_some_iff.mp he
  have hsplit : (Emitter.mk nodes map).emitFrom ([], 0) (l ++ .instruction i :: l') = some (_, base') :=
    e ▸ hemit
  rw [emitFrom_append] at hsplit
  obtain ⟨⟨before, base⟩, hl, hrest⟩ := Option.bind_eq_some_iff.mp hsplit
  obtain rfl : base = baseAt l := emitFrom_last hl
  rw [emitFrom_cons] at hrest
  obtain ⟨state1, hn, hrest⟩ := Option.bind_eq_some_iff.mp hrest
  obtain ⟨bytes, hi, hn⟩ := Option.bind_eq_some_iff.mp hn
  cases hn
  obtain ⟨after, hafter, _⟩ := emitFrom_inv hrest
  obtain ⟨first, w, hw, rfl, hfirst⟩ := emitInstruction_address hi ha
  exact ⟨before, w, hl, ⟨first, after, hafter, hfirst⟩, hw⟩

/-- The operand words of one label differ as the bases do. -/
lemma operandAddress_iff {base base' w w' a : Word} (hw : w.toNat = base.toNat + a.toNat)
    (hw' : w'.toNat = base'.toNat + a.toNat) : w = w' ↔ base = base' := by
  constructor
  · rintro rfl
    exact BitVec.eq_of_toNat_eq (Nat.add_right_cancel (hw.symm.trans hw'))
  · rintro rfl
    exact BitVec.eq_of_toNat_eq (hw.trans hw'.symm)

/-- An absolute operand is the base in force and the number of its label. -/
lemma operandAddress_absolute {base w : Word} (hw : em.operandAddress base name .absolute = some w) :
    ∃ a, em.addresses name = some a ∧ w.toNat = base.toNat + a.toNat := by
  obtain ⟨a, ha, hw⟩ := Option.bind_eq_some_iff.mp hw
  exact ⟨a, ha, checkedAdd_eq_some hw⟩

/-- The number of a label is its place in the image. -/
lemma resolve_address {a : Word} (hr : resolve nodes = some (.ok map)) (ha : map name = some a) :
    ∃ r n r', nodes = r ++ n :: r' ∧ n.declares = some name ∧ a.toNat = imageLength r := by
  obtain ⟨p', hc, _⟩ := resolve_ok_iff.mp hr
  have hk : name ∈ declared nodes :=
    ((collect_key hc name).mp (Option.isSome_of_eq_some ha)).resolve_left nofun
  obtain ⟨n, hn, hd⟩ := List.mem_filterMap.mp hk
  obtain ⟨r, r', er⟩ := List.append_of_mem hn
  obtain ⟨a', ha', hp⟩ := collect_address hc er hd
  cases ha.symm.trans ha'
  exact ⟨r, n, r', er, hd, hp.trans (Nat.zero_add _)⟩

/-- **One address for each base**: every absolute reference to a label is emitted as the base in force at the
reference plus the place of the label, so two of them have one operand word exactly when one base is in force
at both. -/
theorem absolute_word_iff (hr : resolve nodes = some (.ok map))
    (he : (Emitter.mk nodes map).emit = some image)
    (el : nodes = l ++ .instruction i :: l') (em : nodes = m ++ .instruction j :: m')
    (hi : i.address = some (name, .absolute)) (hj : j.address = some (name, .absolute)) :
    ∃ before before' w w' r n r', (Emitter.mk nodes map).emitFrom ([], 0) l = some (before, baseAt l) ∧
      (Emitter.mk nodes map).emitFrom ([], 0) m = some (before', baseAt m) ∧
      OperandAt image before w ∧ OperandAt image before' w' ∧
      nodes = r ++ n :: r' ∧ n.declares = some name ∧
      w.toNat = (baseAt l).toNat + imageLength r ∧ w'.toNat = (baseAt m).toNat + imageLength r ∧
      (w = w' ↔ baseAt l = baseAt m) := by
  obtain ⟨before, w, hl, hat, hw⟩ := emit_reference he el hi
  obtain ⟨before', w', hm, hat', hw'⟩ := emit_reference he em hj
  obtain ⟨a, ha, hw⟩ := operandAddress_absolute hw
  obtain ⟨a', ha', hw'⟩ := operandAddress_absolute hw'
  cases ha.symm.trans ha'
  obtain ⟨r, n, r', er, hd, hp⟩ := resolve_address hr ha
  exact ⟨before, before', w, w', r, n, r', hl, hm, hat, hat', er, hd, hp ▸ hw, hp ▸ hw',
    operandAddress_iff hw hw'⟩

/-- Two jumps to one label, each under a base of its own. -/
def twoBases : List Node :=
  [.directive (.base 16), .instruction (.IA .jA "l" .absolute), .directive (.base 32),
    .instruction (.IA .jA "l" .absolute), .label "l"]

/-- The numbers of `twoBases`. -/
def twoBasesMap : HashMap Word := HashMap.new.insert "l" 16

/-- The labels of the example. -/
lemma resolve_twoBases : resolve twoBases = some (.ok twoBasesMap) := by
  have hlen : Op.length .jA = 8 := by decide +kernel
  simp only [resolve, twoBases, collect, Instruction.op, hlen]
  rfl

/-- The bytes of the example. -/
lemma emit_twoBases : (Emitter.mk twoBases twoBasesMap).emit =
    some [Op.bytecode .jA, 0, 0, 0, 0, 0, 0, 32, Op.bytecode .jA, 0, 0, 0, 0, 0, 0, 48] := by
  simp only [Emitter.emit, Emitter.emitFrom, twoBases]
  rfl

/-- The two jumps of `twoBases`. -/
theorem absolute_word_jumps : ∃ image before before' w w' r n r',
    (Emitter.mk twoBases twoBasesMap).emitFrom ([], 0) (twoBases.take 1) =
      some (before, baseAt (twoBases.take 1)) ∧
    (Emitter.mk twoBases twoBasesMap).emitFrom ([], 0) (twoBases.take 3) =
      some (before', baseAt (twoBases.take 3)) ∧
    OperandAt image before w ∧ OperandAt image before' w' ∧
    twoBases = r ++ n :: r' ∧ n.declares = some "l" ∧
    w.toNat = (baseAt (twoBases.take 1)).toNat + imageLength r ∧
    w'.toNat = (baseAt (twoBases.take 3)).toNat + imageLength r ∧
    (w = w' ↔ baseAt (twoBases.take 1) = baseAt (twoBases.take 3)) :=
  ⟨_, absolute_word_iff resolve_twoBases emit_twoBases (i := .IA .jA "l" .absolute)
    (j := .IA .jA "l" .absolute) rfl rfl rfl rfl⟩

/-- The absolute references to one label have one operand word. -/
def OneAddress : Prop :=
  ∀ nodes map image, resolve nodes = some (.ok map) → (Emitter.mk nodes map).emit = some image →
    ∀ l l' m m' i j name, nodes = l ++ .instruction i :: l' → nodes = m ++ .instruction j :: m' →
      i.address = some (name, .absolute) → j.address = some (name, .absolute) →
      ∀ before base before' base', (Emitter.mk nodes map).emitFrom ([], 0) l = some (before, base) →
        (Emitter.mk nodes map).emitFrom ([], 0) m = some (before', base') →
        ∀ w w', OperandAt image before w → OperandAt image before' w' → w = w'

/-- A label that is reached from two bases has two addresses. -/
theorem not_oneAddress : ¬ OneAddress := by
  intro h
  have h := h twoBases twoBasesMap _ resolve_twoBases emit_twoBases (twoBases.take 1) (twoBases.drop 2)
    (twoBases.take 3) (twoBases.drop 4) _ _ "l" rfl rfl rfl rfl [] 16
    [Op.bytecode .jA, 0, 0, 0, 0, 0, 0, 32] 32 rfl rfl 32 48
    ⟨[Op.bytecode .jA, 0, 0, 0], [Op.bytecode .jA, 0, 0, 0, 0, 0, 0, 48], rfl, rfl⟩
    ⟨[Op.bytecode .jA, 0, 0, 0], [], rfl, rfl⟩
  exact absurd h (by decide)

end Thorium.Asm
