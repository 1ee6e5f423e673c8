import Thorium.Asm.Labels
import Thorium.Asm.Lines

/-!
# Layout of the image

The resolver counts the bytes before a label with `Op::length`, which comes from the argument kinds of
the instruction table; the emitter writes what the constructor of the instruction holds. The two agree
on every instruction the parser makes (`Matches.length_op`), so the address of a label is where its node
is emitted (`layout_agrees`).
-/

namespace Thorium.Asm
open Thorium.Isa

/-! ### Sizes -/

/-- The bytes `emit` writes for an instruction. -/
def Instruction.width : Instruction → Nat
  | .I _ | .IB _ _ | .IR _ _ | .IRR _ _ _ | .IRRR _ _ _ _ => 4
  | .IRW _ _ _ | .IW _ _ | .IRRW _ _ _ _ | .IRA _ _ _ _ | .IA _ _ _ => 8

/-- The bytes `emit` writes for the instruction of a form. -/
def Form.width : Form → Nat
  | .b | .r | .rr | .rrr | .void => 4
  | .aa | .as | .aar | .raa | .ras | .ro | .rw | .w | .wr => 8

/-- The mnemonics of `parse_instruction`. -/
def mnemonics : List String := ["ADD", "AND", "CALL", "CMP", "DEC", "HALT", "INC", "IND", "INE", "INT",
  "J", "JEQ", "JNE", "LOAD", "MI", "MOV", "MUL", "NOP", "OR", "PANIC", "POP", "POPA", "PUSH", "PUSHA",
  "RET", "STOR", "SUB", "UMI", "IRET", "WFI", "XBM", "XBRK", "XDBG", "XPSE", "XPSD", "XOR"]

/-- The names with alternatives are the mnemonics. -/
lemma mem_mnemonics {name fs} (h : alternatives name = some fs) : name ∈ mnemonics := by
  unfold alternatives at h
  split at h <;> cases h <;> simp [mnemonics]

/-- The generated length of each alternative is the width of its form. -/
lemma alternatives_length {name fs} (h : alternatives name = some fs) :
    ∀ x ∈ fs, x.1.length = x.2.width := by
  have hall : ∀ name ∈ mnemonics, ∀ x ∈ (alternatives name).getD [], x.1.length = x.2.width := by
    decide +kernel
  have hname := hall name (mem_mnemonics h)
  rw [h, Option.getD_some] at hname
  exact hname

/-- An announced operand list stands for an instruction of its form. -/
lemma Announced.width {symbols op f line i} (h : Announced symbols op f line i) :
    i.op = op ∧ i.width = f.width := by
  cases h <;> exact ⟨rfl, rfl⟩

/-- The generated length of an instruction of the parser is what the emitter writes. -/
lemma Matches.length_op {symbols name line i} (h : Matches symbols name line i) :
    i.op.length = i.width := by
  obtain ⟨fs, op, f, hfs, hm, an⟩ := h
  obtain ⟨rfl, hw⟩ := an.width
  exact (alternatives_length hfs (i.op, f) hm).trans hw.symm

/-! ### Produced nodes -/

/-- Node lists that parsing some files produces. -/
def Produced [Unicode] (nodes : List Node) : Prop :=
  ∃ symbols texts, parseFiles symbols [] texts = some (.ok nodes)

/-- An instruction of a line is one of its alternatives. -/
lemma LineNode.matches {symbols ks n i} (h : LineNode symbols ks n) (e : n = .instruction i) :
    ∃ symbols name line, Matches symbols name line i := by
  cases h with
  | instruction hm => cases e; exact ⟨_, _, _, hm⟩
  | _ => cases e

/-- The instructions among the nodes of lines are announced. -/
lemma Lines.matches {symbols symbols' ls nodes} (h : Lines symbols ls nodes symbols') {i}
    (hi : .instruction i ∈ nodes) : ∃ symbols name line, Matches symbols name line i := by
  induction h with
  | nil => cases hi
  | define _ ih => exact ih hi
  | node hn _ ih =>
    cases hi with
    | head => exact hn.matches rfl
    | tail _ hi => exact ih hi
  | other _ _ ih => exact ih hi

/-- The instructions of parsed files are announced. -/
lemma parseFiles_matches [Unicode] {symbols nodes texts nodes'}
    (h : parseFiles symbols nodes texts = some (.ok nodes'))
    (hn : ∀ i, .instruction i ∈ nodes → ∃ symbols name line, Matches symbols name line i) :
    ∀ i, .instruction i ∈ nodes' → ∃ symbols name line, Matches symbols name line i := by
  induction texts generalizing symbols nodes with
  | nil => cases h; exact hn
  | cons text texts ih =>
    obtain ⟨⟨r, self⟩, hp, h⟩ := Option.bind_eq_some_iff.mp h
    cases r with
    | error err => cases h
    | ok u =>
      obtain ⟨_, new, _, hlines, hnodes⟩ := parse_ok hp
      refine ih h fun i hi => ?_
      rw [hnodes] at hi
      cases List.mem_append.mp hi with
      | inl hi => exact hn i hi
      | inr hi => exact hlines.matches hi

/-- So is every instruction of a program that the parser returns. -/
lemma Produced.matches [Unicode] {nodes} (h : Produced nodes) :
    ∀ i, .instruction i ∈ nodes → ∃ symbols name line, Matches symbols name line i := by
  obtain ⟨symbols, texts, h⟩ := h
  exact parseFiles_matches h fun _ hi => absurd hi List.not_mem_nil

/-- Nodes whose instructions have the generated length. -/
def WellSized (nodes : List Node) : Prop := ∀ i, .instruction i ∈ nodes → i.op.length = i.width

/-- The sizes of its nodes are those of the bytes. -/
lemma Produced.wellSized [Unicode] {nodes} (h : Produced nodes) : WellSized nodes := by
  intro i hi
  obtain ⟨symbols, name, line, hm⟩ := h.matches i hi
  exact hm.length_op

/-! ### The loop of `emit` -/

section
variable {em : Emitter} {state state' : List Byte × Word} {n : Node} {nodes l l' : List Node}

/-- The label of an instruction and how it is addressed. -/
def Instruction.address : Instruction → Option (String × AddressKind)
  | .IA _ a kind => some (a, kind)
  | .IRA _ _ a kind => some (a, kind)
  | _ => none

/-- The base address a node sets. -/
def Node.base : Node → Option Word
  | .directive (.base addr) => some addr
  | _ => none

/-- An instruction is emitted as its width says. -/
lemma emitInstruction_length {base i bytes} (h : em.emitInstruction base i = some bytes) :
    bytes.length = i.width := by
  cases i with
  | I | IB | IW => cases h; rfl
  | IR | IRW =>
    obtain ⟨_, _, h⟩ := Option.bind_eq_some_iff.mp h
    cases h; rfl
  | IRR | IRRW =>
    obtain ⟨_, _, h⟩ := Option.bind_eq_some_iff.mp h
    obtain ⟨_, _, h⟩ := Option.bind_eq_some_iff.mp h
    cases h; rfl
  | IRRR =>
    obtain ⟨_, _, h⟩ := Option.bind_eq_some_iff.mp h
    obtain ⟨_, _, h⟩ := Option.bind_eq_some_iff.mp h
    obtain ⟨_, _, h⟩ := Option.bind_eq_some_iff.mp h
    cases h; rfl
  | IRA =>
    obtain ⟨_, _, h⟩ := Option.bind_eq_some_iff.mp h
    obtain ⟨_, _, h⟩ := Option.bind_eq_some_iff.mp h
    cases h; rfl
  | IA =>
    obtain ⟨_, _, h⟩ := Option.bind_eq_some_iff.mp h
    cases h; rfl

/-- An instruction with an address ends in the word of its operand. -/
lemma emitInstruction_address {base i bytes name kind} (h : em.emitInstruction base i = some bytes)
    (ha : i.address = some (name, kind)) :
    ∃ first w, em.operandAddress base name kind = some w ∧ bytes = first ++ w.toBeBytes ∧
      first.length = 4 := by
  cases i with
  | IRA op r =>
    cases ha
    obtain ⟨_, _, h⟩ := Option.bind_eq_some_iff.mp h
    obtain ⟨w, hw, h⟩ := Option.bind_eq_some_iff.mp h
    cases h
    exact ⟨_, w, hw, rfl, rfl⟩
  | IA op =>
    cases ha
    obtain ⟨w, hw, h⟩ := Option.bind_eq_some_iff.mp h
    cases h
    exact ⟨_, w, hw, rfl, rfl⟩
  | _ => cases ha

/-- A node appends its bytes and may set the base. -/
lemma emitNode_inv (h : em.emitNode state n = some state') :
    ∃ bytes, state'.1 = state.1 ++ bytes ∧ state'.2 = n.base.getD state.2 ∧
      (WellSized [n] → bytes.length = n.size) := by
  match n with
  | .directive (.base a) => cases h; exact ⟨[], by simp, rfl, fun _ => rfl⟩
  | .directive (.word _ v) => cases h; exact ⟨v.toBeBytes, rfl, rfl, fun _ => rfl⟩
  | .label _ => cases h; exact ⟨[], by simp, rfl, fun _ => rfl⟩
  | .instruction i =>
    obtain ⟨bytes, hb, h⟩ := Option.bind_eq_some_iff.mp h
    cases h
    refine ⟨bytes, rfl, rfl, fun hs => ?_⟩
    rw [emitInstruction_length hb, ← hs i List.mem_cons_self]
    rfl

/-- The first node is emitted before the others. -/
lemma emitFrom_cons : em.emitFrom state (n :: nodes) =
    (em.emitNode state n).bind fun state => em.emitFrom state nodes :=
  List.foldlM_cons

/-- Nodes are emitted in two parts. -/
lemma emitFrom_append : em.emitFrom state (l ++ l') =
    (em.emitFrom state l).bind fun state => em.emitFrom state l' :=
  List.foldlM_append

/-- The loop appends bytes, as many as the nodes take up. -/
lemma emitFrom_inv (h : em.emitFrom state nodes = some state') :
    ∃ bytes, state'.1 = state.1 ++ bytes ∧ (WellSized nodes → bytes.length = imageLength nodes) := by
  induction nodes generalizing state with
  | nil => cases h; exact ⟨[], by simp, fun _ => rfl⟩
  | cons n nodes ih =>
    rw [emitFrom_cons] at h
    obtain ⟨state1, hn, h⟩ := Option.bind_eq_some_iff.mp h
    obtain ⟨bytes1, h1, _, hs1⟩ := emitNode_inv hn
    obtain ⟨bytes2, h2, hs2⟩ := ih h
    refine ⟨bytes1 ++ bytes2, by rw [h2, h1, List.append_assoc], fun hs => ?_⟩
    rw [List.length_append, imageLength_cons, hs1, hs2]
    · exact fun i hi => hs i (List.mem_cons_of_mem _ hi)
    · intro i hi
      cases List.mem_singleton.mp hi
      exact hs i List.mem_cons_self

/-- Nodes that set no base leave it unchanged. -/
lemma emitFrom_base (h : em.emitFrom state nodes = some state') (hb : ∀ n ∈ nodes, n.base = none) :
    state'.2 = state.2 := by
  induction nodes generalizing state with
  | nil => cases h; rfl
  | cons n nodes ih =>
    rw [emitFrom_cons] at h
    obtain ⟨state1, hn, h⟩ := Option.bind_eq_some_iff.mp h
    obtain ⟨hn0, hb⟩ := List.forall_mem_cons.mp hb
    obtain ⟨_, _, h1, _⟩ := emitNode_inv hn
    rw [ih h hb, h1, hn0]
    rfl

end

/-! ### Agreement -/

section
variable {nodes l l' : List Node} {map : HashMap Word} {name : String} {kind : AddressKind}

/-- The only `#base` is `#base B`, and no instruction stands before it. -/
def OnlyBase (B : Word) (nodes : List Node) : Prop :=
  ∃ l l' : List Node, nodes = l ++ .directive (.base B) :: l' ∧
    (∀ n ∈ l, n.base = none ∧ ∀ i, n ≠ .instruction i) ∧ ∀ n ∈ l', n.base = none

/-- The node that declares `name` is emitted after `p` bytes. -/
def Emitter.EmittedAt (em : Emitter) (name : String) (p : Nat) : Prop :=
  ∃ l n l' bytes base, em.nodes = l ++ n :: l' ∧ n.declares = some name ∧
    em.emitFrom ([], 0) l = some (bytes, base) ∧ bytes.length = p

/-- The byte an address operand stands for. -/
def AddressKind.designates : AddressKind → Word → Word → Word
  | .absolute, _, w => w
  | .segment, cs, w => cs + w

/-- The map of the resolver and the image of the emitter agree. -/
structure LayoutAgrees (nodes : List Node) (map : HashMap Word) (image : List Byte) : Prop where
  addresses : ∀ l n l' name, nodes = l ++ n :: l' → n.declares = some name →
    ∃ a bytes base, map name = some a ∧ (Emitter.mk nodes map).emitFrom ([], 0) l = some (bytes, base) ∧
      a.toNat = bytes.length
  operands : ∀ B, OnlyBase B nodes → B.toNat + image.length < 2 ^ 32 →
    ∀ l i l' name kind, nodes = l ++ .instruction i :: l' → i.address = some (name, kind) →
      ∃ before base first w after p,
        (Emitter.mk nodes map).emitFrom ([], 0) l = some (before, base) ∧
        image = before ++ (first ++ Word.toBeBytes w) ++ after ∧ first.length = 4 ∧
        (∀ q, (Emitter.mk nodes map).EmittedAt name q ↔ q = p) ∧
        (kind.designates B w).toNat = B.toNat + p

/-- The base at every instruction is the only one there is. -/
lemma OnlyBase.base {em : Emitter} {B bytes base i} (h : OnlyBase B nodes)
    (e : nodes = l ++ .instruction i :: l') (hl : em.emitFrom ([], 0) l = some (bytes, base)) :
    base = B := by
  obtain ⟨lb, lb', rfl, hbefore, hafter⟩ := h
  rcases List.append_eq_append_iff.mp e with ⟨as, rfl, he⟩ | ⟨as, rfl, he⟩
  · rcases as with _ | ⟨m, as⟩
    · cases he
    · cases he
      rw [emitFrom_append] at hl
      obtain ⟨state1, _, hl⟩ := Option.bind_eq_some_iff.mp hl
      rw [emitFrom_cons] at hl
      exact emitFrom_base hl fun n hn => hafter n (List.mem_append_left _ hn)
  · rcases as with _ | ⟨m, as⟩
    · cases he
    · cases he
      exact absurd rfl ((hbefore _ (List.mem_append_right _ List.mem_cons_self)).2 i)

/-- Distinct names have one node. -/
lemma declares_unique {n m : Node} {r r'} (nodup : (declared nodes).Nodup)
    (e : nodes = l ++ n :: l') (e' : nodes = r ++ m :: r') (hn : n.declares = some name)
    (hm : m.declares = some name) : l = r := by
  subst e
  induction l generalizing r with
  | nil =>
    cases r with
    | nil => rfl
    | cons x r =>
      cases e'
      rw [List.nil_append, declared, List.filterMap_cons_some hn] at nodup
      exact absurd (List.mem_filterMap.mpr ⟨m, by simp, hm⟩) (List.nodup_cons.mp nodup).1
  | cons x l ih =>
    have hmem : ∀ {y : Node} {s s'}, y.declares = some name → name ∈ declared (s ++ y :: s') :=
      fun hy => List.mem_filterMap.mpr ⟨_, by simp, hy⟩
    cases r with
    | nil =>
      cases e'
      rw [List.cons_append, declared, List.filterMap_cons_some hm] at nodup
      exact absurd (hmem hn) (List.nodup_cons.mp nodup).1
    | cons y r =>
      rw [List.cons_append, List.cons_append] at e'
      obtain ⟨rfl, e1⟩ := List.cons.inj e'
      have nodup' : (declared (l ++ n :: l')).Nodup := by
        rw [List.cons_append, declared] at nodup
        exact nodup.sublist ((List.sublist_cons_self _ _).filterMap _)
      rw [ih nodup' e1]

/-- The byte an emitted operand stands for, when the base is that of the segment. -/
lemma operandAddress_designates {em : Emitter} {base a w : Word}
    (hw : em.operandAddress base name kind = some w) (ha : em.addresses name = some a)
    (hfit : base.toNat + a.toNat < 2 ^ 32) : (kind.designates base w).toNat = base.toNat + a.toNat := by
  obtain ⟨a', ha', hw⟩ := Option.bind_eq_some_iff.mp hw
  cases ha.symm.trans ha'
  cases kind with
  | absolute => exact checkedAdd_eq_some hw
  | segment =>
    have h0 : w.toNat = 0 + a.toNat := checkedAdd_eq_some hw
    show (base + w).toNat = _
    rw [BitVec.toNat_add, h0, Nat.zero_add]
    exact Nat.mod_eq_of_lt hfit

/-- `emit` reaches every node, after the bytes of the nodes before it. -/
lemma emit_reaches {em : Emitter} {n state} (sized : WellSized nodes)
    (he : em.emitFrom ([], 0) nodes = some state) (e : nodes = l ++ n :: l') :
    ∃ bytes base, em.emitFrom ([], 0) l = some (bytes, base) ∧ bytes.length = imageLength l ∧
      em.emitFrom (bytes, base) (n :: l') = some state := by
  subst e
  rw [emitFrom_append] at he
  obtain ⟨⟨bytes, base⟩, h1, h2⟩ := Option.bind_eq_some_iff.mp he
  obtain ⟨bytes', hb, hs⟩ := emitFrom_inv h1
  cases hb
  exact ⟨_, base, h1, hs fun i hi => sized i (List.mem_append_left _ hi), h2⟩

/-- **Layout**: after `resolve` and `emit` have succeeded on nodes of the parser, addresses and positions
in the image agree. -/
theorem layout_agrees [Unicode] {image} (h : Produced nodes) (hr : resolve nodes = some (.ok map))
    (he : (Emitter.mk nodes map).emit = some image) : LayoutAgrees nodes map image := by
  have sized := h.wellSized
  obtain ⟨⟨image', base'⟩, hemit, rfl⟩ := Option.map_eq_some_iff.mp he
  obtain ⟨p', hc, _⟩ := resolve_ok_iff.mp hr
  obtain ⟨nodup, _, _⟩ := collect_ok hc
  have addresses : ∀ l n l' name, nodes = l ++ n :: l' → n.declares = some name →
      ∃ a bytes base, map name = some a ∧
        (Emitter.mk nodes map).emitFrom ([], 0) l = some (bytes, base) ∧ a.toNat = bytes.length := by
    intro l n l' name e hn
    obtain ⟨a, ha, hp⟩ := collect_address hc e hn
    obtain ⟨bytes, base, hl, hlen, _⟩ := emit_reaches sized hemit e
    exact ⟨a, bytes, base, ha, hl, by rw [hp, hlen]; exact Nat.zero_add _⟩
  refine ⟨addresses, fun B hB hfit l i l' name kind e ha => ?_⟩
  obtain ⟨before, base, hl, _, hrest⟩ := emit_reaches sized hemit e
  obtain rfl := hB.base e hl
  rw [emitFrom_cons] at hrest
  obtain ⟨state1, hn, hrest⟩ := Option.bind_eq_some_iff.mp hrest
  obtain ⟨bytes, hi, hn⟩ := Option.bind_eq_some_iff.mp hn
  cases hn
  obtain ⟨after, hafter, _⟩ := emitFrom_inv hrest
  obtain ⟨first, w, hw, rfl, hfirst⟩ := emitInstruction_address hi ha
  obtain ⟨a, hlook, _⟩ := Option.bind_eq_some_iff.mp hw
  -- the name is declared, as it is a key of the map
  have hk : name ∈ declared nodes :=
    ((collect_key hc name).mp (Option.isSome_of_eq_some hlook)).resolve_left nofun
  obtain ⟨m, hm, hd⟩ := List.mem_filterMap.mp hk
  obtain ⟨r, r', er⟩ := List.append_of_mem hm
  obtain ⟨a', bytes, base1, ha', hbytes, hlen⟩ := addresses r m r' name er hd
  cases hlook.symm.trans ha'
  have hbound : bytes.length ≤ image'.length := by
    obtain ⟨_, _, hr1, _, hr2⟩ := emit_reaches sized hemit er
    cases hbytes.symm.trans hr1
    obtain ⟨tail, htail, _⟩ := emitFrom_inv hr2
    rw [show image' = bytes ++ tail from htail, List.length_append]
    exact Nat.le_add_right _ _
  have hfit' : base.toNat + image'.length < 2 ^ 32 := hfit
  refine ⟨before, base, first, w, after, a.toNat, hl, hafter, hfirst, fun q => ⟨?_, ?_⟩, ?_⟩
  · rintro ⟨s, n, s', bytes', base2, es, hn, hs, rfl⟩
    obtain rfl := declares_unique nodup es er hn hd
    cases hs.symm.trans hbytes
    exact hlen.symm
  · rintro rfl
    exact ⟨r, m, r', bytes, base1, er, hd, hbytes, hlen.symm⟩
  · exact operandAddress_designates hw hlook (by omega)

/-- The items of a jump to a label. -/
lemma tokenize_jump : @tokenize asciiUnicode "#base 16\n:l\nJ @l\n" =
    ⟨[.ok ⟨⟨1, 1⟩, .directive "base"⟩, .ok ⟨⟨1, 7⟩, .integer 16⟩, .ok ⟨⟨1, 9⟩, .eol⟩,
      .ok ⟨⟨2, 1⟩, .label "l"⟩, .ok ⟨⟨2, 3⟩, .eol⟩,
      .ok ⟨⟨3, 1⟩, .op "J"⟩, .ok ⟨⟨3, 3⟩, .address "l" .segment⟩, .ok ⟨⟨3, 5⟩, .eol⟩], false⟩ := by
  decide +kernel

/-- A jump to itself. -/
def jumpNodes : List Node :=
  [.directive (.base 16), .label "l", .instruction (.IA .jS "l" .segment)]

/-- The parser returns the nodes of the example. -/
lemma jump_produced : @Produced asciiUnicode jumpNodes := by
  refine ⟨.new, ["#base 16\n:l\nJ @l\n"], ?_⟩
  have h : @parseText asciiUnicode "#base 16\n:l\nJ @l\n" .new [] =
      some (.ok (), ⟨⟨[], false⟩, .new, jumpNodes⟩) := by
    show parse.run ⟨@tokenize asciiUnicode "#base 16\n:l\nJ @l\n", .new, []⟩ = _
    rw [tokenize_jump]
    rfl
  unfold parseFiles
  rw [h]
  rfl

/-- The layout of a jump to itself. -/
theorem layout_agrees_jump : ∃ map image, resolve jumpNodes = some (.ok map) ∧
    (Emitter.mk jumpNodes map).emit = some image ∧ LayoutAgrees jumpNodes map image := by
  have hlen : Op.length .jS = 8 := by decide +kernel
  have hr : resolve jumpNodes = some (.ok (HashMap.new.insert "l" 0)) := by
    simp only [resolve, jumpNodes, collect, Instruction.op, hlen]
    rfl
  have he : (Emitter.mk jumpNodes (HashMap.new.insert "l" 0)).emit =
      some [Op.bytecode .jS, 0, 0, 0, 0, 0, 0, 0] := by
    simp only [Emitter.emit, Emitter.emitFrom, jumpNodes]
    rfl
  exact ⟨_, _, hr, he, @layout_agrees _ _ asciiUnicode _ jump_produced hr he⟩

end

end Thorium.Asm
