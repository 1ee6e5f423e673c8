import Thorium.Asm.AddressResolver
import Thorium.Asm.Emitter

/-!
# Labels

What `resolve` accepts and which map it returns. A node declares a name (`Node.declares`), an
instruction may refer to one (`Instruction.label`), and a node takes up `Node.size` bytes of the image.
The loop of `resolve` that builds the map is inverted one node at a time (`collect_cons_inv`,
`collect_cons`); from these come the shape of the map after a successful run (`collect_address`,
`collect_key`) and the condition for success (`collect_total`).

The last section is about acceptance: the second loop of `resolve` looks at `IA` instructions only, so
an undeclared label of an `IRA` instruction is noticed first by the `unwrap` of `decode_address`.
-/

namespace Thorium.Asm
open Thorium.Isa

/-- The name a node declares. -/
def Node.declares : Node → Option String
  | .directive (.word name _) => some name
  | .label name => some name
  | _ => none

/-- The names declared by labels and `#word` directives. -/
def declared (nodes : List Node) : List String := nodes.filterMap Node.declares

/-- The label an instruction names. -/
def Instruction.label : Instruction → Option String
  | .IA _ a _ => some a
  | .IRA _ _ a _ => some a
  | _ => none

/-- The bytes a node takes up, as the resolver counts them. -/
def Node.size : Node → Nat
  | .directive (.word _ _) => 4
  | .instruction i => i.op.length
  | _ => 0

/-- The bytes a list of nodes takes up, as the resolver counts them. -/
def imageLength (nodes : List Node) : Nat := (nodes.map Node.size).sum

/-- No nodes have no length. -/
@[simp] lemma imageLength_nil : imageLength [] = 0 := rfl

/-- The length of the first node comes before that of the others. -/
@[simp] lemma imageLength_cons (n : Node) (nodes : List Node) :
    imageLength (n :: nodes) = n.size + imageLength nodes := by
  simp [imageLength]

/-- The map after a node at position `p`. -/
def HashMap.declare (map : HashMap Word) (n : Node) (p : Word) : HashMap Word :=
  fun k => if n.declares = some k then some p else map k

/-- A node without a label declares none. -/
lemma HashMap.declare_none {n : Node} (h : n.declares = none) (map : HashMap Word) (p : Word) :
    map.declare n p = map := by
  funext k
  simp [HashMap.declare, h]

/-- A label is declared at its place. -/
lemma HashMap.declare_some {n : Node} {name : String} (h : n.declares = some name)
    (map : HashMap Word) (p : Word) : map.declare n p = map.insert name p := by
  funext k
  simp only [HashMap.declare, HashMap.insert, h, Option.some.injEq]
  exact if_congr eq_comm rfl rfl

/-- Lengths are small. -/
lemma toNat_length (op : Op) : (BitVec.ofNat 32 op.length).toNat = op.length := by
  rw [BitVec.toNat_ofNat]
  have h := op.length_cases
  omega

/-- An addition without an overflow. -/
lemma checkedAdd_of_lt {x y : Word} (h : x.toNat + y.toNat < 2 ^ 32) :
    checkedAdd x y = some (x + y) := by
  simp only [checkedAdd, h, if_true]

/-- A successful run of `collect` took its first node. -/
lemma collect_cons_inv {map p n nodes r} (h : collect map p (n :: nodes) = some (.ok r)) :
    ∃ p', (∀ k, n.declares = some k → map k = none) ∧ p'.toNat = p.toNat + n.size ∧
      collect (map.declare n p) p' nodes = some (.ok r) := by
  match n with
  | .directive (.word name v) =>
    simp only [collect] at h
    split at h
    · cases h
    · rename_i hk
      obtain ⟨p', hp, h⟩ := Option.bind_eq_some_iff.mp h
      refine ⟨p', ?_, checkedAdd_eq_some hp, ?_⟩
      · intro k e
        cases e
        simpa [HashMap.containsKey] using hk
      · rw [HashMap.declare_some rfl]
        exact h
  | .directive (.base a) =>
    exact ⟨p, nofun, rfl, by rw [HashMap.declare_none rfl]; exact h⟩
  | .instruction i =>
    obtain ⟨p', hp, h⟩ := Option.bind_eq_some_iff.mp h
    refine ⟨p', nofun, ?_, by rw [HashMap.declare_none rfl]; exact h⟩
    rw [checkedAdd_eq_some hp, toNat_length]
    rfl
  | .label name =>
    simp only [collect] at h
    split at h
    · cases h
    · rename_i hk
      refine ⟨p, ?_, rfl, ?_⟩
      · intro k e
        cases e
        simpa [HashMap.containsKey] using hk
      · rw [HashMap.declare_some rfl]
        exact h

/-- `collect` takes a node that declares no name of the map, as long as the position fits. -/
lemma collect_cons {map p n} (nodes) (hk : ∀ k, n.declares = some k → map k = none)
    (hp : p.toNat + n.size < 2 ^ 32) :
    ∃ p', p'.toNat = p.toNat + n.size ∧
      collect map p (n :: nodes) = collect (map.declare n p) p' nodes := by
  match n with
  | .directive (.word name v) =>
    have hc : checkedAdd p 4 = some (p + 4) := checkedAdd_of_lt hp
    refine ⟨p + 4, checkedAdd_eq_some hc, ?_⟩
    have hn : map.containsKey name = false := by simp [HashMap.containsKey, hk name rfl]
    rw [HashMap.declare_some rfl, collect, hn, hc]
    rfl
  | .directive (.base a) =>
    exact ⟨p, rfl, by rw [HashMap.declare_none rfl]; rfl⟩
  | .instruction i =>
    have hl := toNat_length i.op
    have hc : checkedAdd p (BitVec.ofNat 32 i.op.length) = some _ :=
      checkedAdd_of_lt (by rw [hl]; exact hp)
    refine ⟨_, by rw [checkedAdd_eq_some hc, hl]; rfl, ?_⟩
    rw [HashMap.declare_none rfl, collect, hc]
    rfl
  | .label name =>
    refine ⟨p, rfl, ?_⟩
    have hn : map.containsKey name = false := by simp [HashMap.containsKey, hk name rfl]
    rw [HashMap.declare_some rfl, collect, hn]
    rfl

/-- `collect` keeps the entries of the map. -/
lemma collect_keep {map p nodes map' p'} (h : collect map p nodes = some (.ok (map', p')))
    {k v} (hk : map k = some v) : map' k = some v := by
  induction nodes generalizing map p with
  | nil => cases h; exact hk
  | cons n nodes ih =>
    obtain ⟨q, hn, _, h⟩ := collect_cons_inv h
    apply ih h
    rw [HashMap.declare, if_neg, hk]
    intro e
    rw [hn k e] at hk
    cases hk

/-- The address of a name is the size of the nodes before the one that declares it. -/
lemma collect_address {map p nodes map' p'} (h : collect map p nodes = some (.ok (map', p')))
    {l n l' k} (e : nodes = l ++ n :: l') (hk : n.declares = some k) :
    ∃ a, map' k = some a ∧ a.toNat = p.toNat + imageLength l := by
  induction nodes generalizing map p l with
  | nil => cases l <;> cases e
  | cons m nodes ih =>
    obtain ⟨q, hn, hq, h⟩ := collect_cons_inv h
    cases l with
    | nil =>
      cases e
      refine ⟨p, collect_keep h ?_, rfl⟩
      rw [HashMap.declare, if_pos hk]
    | cons _ l =>
      cases e
      obtain ⟨a, ha, hp⟩ := ih h rfl
      exact ⟨a, ha, by rw [hp, hq, imageLength_cons, Nat.add_assoc]⟩

/-- The keys of the map are those of the start and the declared names. -/
lemma collect_key {map p nodes map' p'} (h : collect map p nodes = some (.ok (map', p'))) (k) :
    (map' k).isSome ↔ (map k).isSome ∨ k ∈ declared nodes := by
  induction nodes generalizing map p with
  | nil => cases h; simp [declared]
  | cons n nodes ih =>
    obtain ⟨q, _, _, h⟩ := collect_cons_inv h
    rw [ih h]
    cases hd : n.declares with
    | none => simp [HashMap.declare, declared, hd]
    | some k' =>
      simp only [HashMap.declare, declared, hd, List.filterMap_cons_some hd, List.mem_cons,
        Option.some.injEq]
      by_cases e : k' = k
      · simp [e]
      · simp [e, Ne.symm e]

/-- After a successful run the declared names are distinct and new, and the image fits. -/
lemma collect_ok {map p nodes map' p'} (h : collect map p nodes = some (.ok (map', p'))) :
    (declared nodes).Nodup ∧ (∀ k ∈ declared nodes, map k = none) ∧
      p.toNat + imageLength nodes < 2 ^ 32 := by
  induction nodes generalizing map p with
  | nil => exact ⟨List.nodup_nil, nofun, p.isLt⟩
  | cons n nodes ih =>
    obtain ⟨q, hn, hq, h⟩ := collect_cons_inv h
    obtain ⟨nodup, fresh, fits⟩ := ih h
    rw [hq, Nat.add_assoc] at fits
    cases hd : n.declares with
    | none =>
      rw [HashMap.declare_none hd] at fresh
      rw [declared, List.filterMap_cons_none hd]
      exact ⟨nodup, fresh, by simpa using fits⟩
    | some k =>
      have hk : k ∉ declared nodes := fun hm => by
        have := fresh k hm
        rw [HashMap.declare, if_pos hd] at this
        cases this
      rw [declared, List.filterMap_cons_some hd]
      refine ⟨List.nodup_cons.mpr ⟨hk, nodup⟩, ?_, by simpa using fits⟩
      intro k' hm
      cases List.mem_cons.mp hm with
      | inl e => exact e ▸ hn k hd
      | inr hm =>
        have := fresh k' hm
        rw [HashMap.declare] at this
        split at this
        · cases this
        · exact this

/-- `collect` succeeds on distinct new names when the image fits. -/
lemma collect_total {map p nodes} (nodup : (declared nodes).Nodup)
    (fresh : ∀ k ∈ declared nodes, map k = none) (fits : p.toNat + imageLength nodes < 2 ^ 32) :
    ∃ r, collect map p nodes = some (.ok r) := by
  induction nodes generalizing map p with
  | nil => exact ⟨_, rfl⟩
  | cons n nodes ih =>
    rw [imageLength_cons, ← Nat.add_assoc] at fits
    have hn : ∀ k, n.declares = some k → map k = none := fun k hk =>
      fresh k (by rw [declared, List.filterMap_cons_some hk]; exact List.mem_cons_self)
    have hp : p.toNat + n.size < 2 ^ 32 := by omega
    obtain ⟨q, hq, h⟩ := collect_cons nodes hn hp
    rw [h]
    rw [← hq] at fits
    cases hd : n.declares with
    | none =>
      rw [declared, List.filterMap_cons_none hd] at nodup fresh
      rw [HashMap.declare_none hd]
      exact ih nodup fresh fits
    | some k =>
      rw [declared, List.filterMap_cons_some hd] at nodup fresh
      obtain ⟨hk, nodup⟩ := List.nodup_cons.mp nodup
      refine ih nodup (fun k' hm => ?_) fits
      rw [HashMap.declare, if_neg]
      · exact fresh k' (List.mem_cons_of_mem k hm)
      · intro e
        rw [hd] at e
        cases e
        exact hk hm

/-- The label of an `IA` instruction. -/
def Node.labelIA : Node → Option String
  | .instruction (.IA _ a _) => some a
  | _ => none

/-- The label of an `IRA` instruction. -/
def Node.labelIRA : Node → Option String
  | .instruction (.IRA _ _ a _) => some a
  | _ => none

/-- The labels of the `IA` instructions. -/
def labelsIA (nodes : List Node) : List String := nodes.filterMap Node.labelIA

/-- The labels of the `IRA` instructions. -/
def labelsIRA (nodes : List Node) : List String := nodes.filterMap Node.labelIRA

/-- The second loop of `resolve` on one node. -/
lemma checkAddresses_cons {map n nodes} :
    checkAddresses map (n :: nodes) = .ok () ↔
      (∀ a, n.labelIA = some a → (map a).isSome) ∧ checkAddresses map nodes = .ok () := by
  match n with
  | .instruction (.IA op a kind) =>
    rw [checkAddresses, HashMap.containsKey]
    cases hk : map a with
    | none => simp [Node.labelIA, hk]
    | some v => simp [Node.labelIA, hk]
  | .instruction (.I _) | .instruction (.IB _ _) | .instruction (.IR _ _)
  | .instruction (.IRA _ _ _ _) | .instruction (.IRW _ _ _) | .instruction (.IRR _ _ _)
  | .instruction (.IRRR _ _ _ _) | .instruction (.IRRW _ _ _ _) | .instruction (.IW _ _)
  | .directive _ | .label _ => simp [checkAddresses, Node.labelIA]

/-- The second loop of `resolve` accepts when the label of every `IA` instruction is a key. -/
lemma checkAddresses_ok {map nodes} :
    checkAddresses map nodes = .ok () ↔ ∀ a ∈ labelsIA nodes, (map a).isSome := by
  induction nodes with
  | nil => simp [checkAddresses, labelsIA]
  | cons n nodes ih =>
    rw [checkAddresses_cons, ih]
    cases hn : n.labelIA with
    | none => simp [labelsIA, List.filterMap_cons_none hn]
    | some a => simp [labelsIA, List.filterMap_cons_some hn]

/-- `resolve` returns the map of its first loop when its second loop accepts. -/
lemma resolve_ok_iff {nodes map} :
    resolve nodes = some (.ok map) ↔
      ∃ p, collect .new 0 nodes = some (.ok (map, p)) ∧ ∀ a ∈ labelsIA nodes, (map a).isSome := by
  rw [resolve, ← checkAddresses_ok]
  rcases hc : collect .new 0 nodes with _ | err | ⟨map', p⟩
  · exact ⟨nofun, fun h => nomatch h.choose_spec.1⟩
  · exact ⟨nofun, fun h => nomatch h.choose_spec.1⟩
  · have hr : some ((checkAddresses map' nodes).map fun _ => map') = some (.ok map) ↔
        map' = map ∧ checkAddresses map' nodes = .ok () := by
      cases checkAddresses map' nodes with
      | error err => simp [Except.map]
      | ok u => simp [Except.map]
    refine hr.trans ⟨fun ⟨e, hk⟩ => ⟨p, by rw [e], e ▸ hk⟩, fun ⟨_, e, hk⟩ => ?_⟩
    cases e
    exact ⟨rfl, hk⟩

/-- When `resolve` returns a map: an image of less than 2^32 bytes, distinct names and the labels of
all `IA` instructions declared. -/
lemma exists_resolve_iff {nodes} :
    (∃ map, resolve nodes = some (.ok map)) ↔
      imageLength nodes < 2 ^ 32 ∧ (declared nodes).Nodup ∧
        ∀ a ∈ labelsIA nodes, a ∈ declared nodes := by
  constructor
  · rintro ⟨map, h⟩
    obtain ⟨p, hc, hk⟩ := resolve_ok_iff.mp h
    obtain ⟨nodup, _, fits⟩ := collect_ok hc
    refine ⟨by simpa using fits, nodup, fun a ha => ?_⟩
    exact ((collect_key hc a).mp (hk a ha)).resolve_left (by simp)
  · rintro ⟨fits, nodup, hl⟩
    have hc : ∃ r, collect .new 0 nodes = some (.ok r) :=
      collect_total nodup (fun _ _ => rfl) (by simpa using fits)
    obtain ⟨⟨map, p⟩, hc⟩ := hc
    exact ⟨map, resolve_ok_iff.mpr ⟨p, hc, fun a ha => (collect_key hc a).mpr (.inr (hl a ha))⟩⟩

/-! ### Acceptance -/

/-- Labels are well defined: no name is declared twice and every label an instruction names is
declared. -/
structure WellDefined (nodes : List Node) : Prop where
  nodup : (declared nodes).Nodup
  labels : ∀ i a, .instruction i ∈ nodes → i.label = some a → a ∈ declared nodes

/-- `resolve` accepts exactly the nodes with well defined labels, and after that `decode_address` never
fails. -/
structure ResolveExact (nodes : List Node) : Prop where
  accepts : (∃ map, resolve nodes = some (.ok map)) ↔ WellDefined nodes
  decodes : ∀ map, resolve nodes = some (.ok map) → ∀ i a, .instruction i ∈ nodes →
    i.label = some a → (Emitter.mk nodes map).decodeAddress a ≠ none

/-- The labels instructions name are those of the `IA` and the `IRA` instructions. -/
lemma wellDefined_iff {nodes} :
    WellDefined nodes ↔ (declared nodes).Nodup ∧ (∀ a ∈ labelsIA nodes, a ∈ declared nodes) ∧
      ∀ a ∈ labelsIRA nodes, a ∈ declared nodes := by
  constructor
  · rintro ⟨nodup, labels⟩
    refine ⟨nodup, fun a ha => ?_, fun a ha => ?_⟩
    · obtain ⟨n, hn, e⟩ := List.mem_filterMap.mp ha
      unfold Node.labelIA at e
      split at e
      · cases e
        exact labels _ _ hn rfl
      · cases e
    · obtain ⟨n, hn, e⟩ := List.mem_filterMap.mp ha
      unfold Node.labelIRA at e
      split at e
      · cases e
        exact labels _ _ hn rfl
      · cases e
  · rintro ⟨nodup, hia, hira⟩
    refine ⟨nodup, fun i a hi hl => ?_⟩
    unfold Instruction.label at hl
    split at hl
    · cases hl
      exact hia _ (List.mem_filterMap.mpr ⟨_, hi, rfl⟩)
    · cases hl
      exact hira _ (List.mem_filterMap.mpr ⟨_, hi, rfl⟩)
    · cases hl

/-- The resolver is exact unless its only complaint would be an `IRA` label, or the position
overflows on nodes with well defined labels. -/
theorem resolve_exact_iff (nodes : List Node) :
    ResolveExact nodes ↔
      (imageLength nodes < 2 ^ 32 → (declared nodes).Nodup →
        (∀ a ∈ labelsIA nodes, a ∈ declared nodes) → ∀ a ∈ labelsIRA nodes, a ∈ declared nodes) ∧
      (2 ^ 32 ≤ imageLength nodes → ¬ WellDefined nodes) := by
  constructor
  · rintro ⟨accepts, _⟩
    rw [exists_resolve_iff] at accepts
    refine ⟨fun fits nodup hia => ?_, fun fits wd => ?_⟩
    · exact (wellDefined_iff.mp (accepts.mp ⟨fits, nodup, hia⟩)).2.2
    · exact absurd (accepts.mpr wd).1 (by omega)
  · rintro ⟨short, long⟩
    have accepts : (∃ map, resolve nodes = some (.ok map)) ↔ WellDefined nodes := by
      rw [exists_resolve_iff]
      constructor
      · rintro ⟨fits, nodup, hia⟩
        exact wellDefined_iff.mpr ⟨nodup, hia, short fits nodup hia⟩
      · intro wd
        obtain ⟨nodup, hia, _⟩ := wellDefined_iff.mp wd
        exact ⟨by by_contra fits; exact long (by omega) wd, nodup, hia⟩
    refine ⟨accepts, fun map h i a hi hl => ?_⟩
    obtain ⟨p, hc, _⟩ := resolve_ok_iff.mp h
    have hd := (accepts.mp ⟨map, h⟩).labels i a hi hl
    exact Option.isSome_iff_ne_none.mp ((collect_key hc a).mpr (.inr hd))

/-- `MOV r1, @missing` alone is accepted. -/
theorem not_resolve_exact_ira :
    ¬ ResolveExact [.instruction (.IRA .movRW "r1" "missing" .segment)] := by
  rintro ⟨accepts, _⟩
  have wd := accepts.mp (exists_resolve_iff.mpr ⟨by decide +kernel, by decide, by decide⟩)
  have labels := (wellDefined_iff.mp wd).2.2
  exact absurd (labels "missing" (by decide)) (by decide)

end Thorium.Asm
