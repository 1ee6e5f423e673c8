import Thorium.Vm.Bus

/-!
# Accesses to the bus

What a write on the bus changes. A write keeps the sizes and the modes of the memories (`Shape`), on which
alone it depends whether an access succeeds, and changes the word at its address. It changes no other
word when each memory is in one zone only (`Bus.Distinct`).
-/

namespace Thorium.Vm

variable {heap heap' : Heap} {bus : Bus} {a b : Addr} {w : Word} {conds : List Cond}

/-- Memories with the same sizes and modes. -/
def Shape (heap heap' : Heap) : Prop :=
  ∀ r, (heap' r).size = (heap r).size ∧ (heap' r).mode = (heap r).mode

/-- Each memory is in one zone. -/
def Bus.Distinct (bus : Bus) : Prop := (bus.zones.map Zone.memory).Nodup

/-- A heap has its own shape. -/
lemma Shape.refl (heap : Heap) : Shape heap heap := fun _ => ⟨rfl, rfl⟩

/-- Shapes of three heaps. -/
lemma Shape.trans {h1 h2 h3 : Heap} (h : Shape h1 h2) (h' : Shape h2 h3) : Shape h1 h3 :=
  fun r => ⟨(h' r).1.trans (h r).1, (h' r).2.trans (h r).2⟩

/-- The zone of an address depends on the sizes only. -/
lemma findZone_shape (h : Shape heap heap') (bus : Bus) (a : Addr) :
    findZone heap' bus a = findZone heap bus a := by
  unfold findZone inZone memoryMaxAddress
  simp only [(h _).1]

/-! ### Memories -/

/-- What a write does to a memory. -/
lemma memoryWordSet_ok {memory memory' : Memory} (h : memoryWordSet memory a w = .ok memory') :
    memory' = { memory with raw := fun i => if i = (a / wordSize).toNat then w else memory.raw i } ∧
      a % wordSize = 0 := by
  unfold memoryWordSet at h
  split at h
  · cases h
  · split at h
    · cases h
    · rename_i ha
      split at h
      · cases h
      · cases h
        exact ⟨rfl, not_not.mp ha⟩

/-- A word that has been set is got back. -/
lemma memoryWordGet_set {memory memory' : Memory} (h : memoryWordSet memory a w = .ok memory') :
    memoryWordGet memory' a = .ok w := by
  have hget := memoryWordGet_of_set h
  obtain ⟨rfl, _⟩ := memoryWordSet_ok h
  unfold memoryWordGet at hget ⊢
  split at hget
  · cases hget
  · rename_i ha
    split at hget
    · cases hget
    · rename_i hs
      rw [if_neg ha, if_neg hs]
      exact congrArg _ (if_pos rfl)

/-- Aligned addresses have different words. -/
lemma div_wordSize_ne (ha : a % wordSize = 0) (hb : b % wordSize = 0) (h : b ≠ a) :
    (b / wordSize).toNat ≠ (a / wordSize).toNat := by
  intro e
  apply h
  have ha' : a.toNat % 4 = 0 := congrArg BitVec.toNat ha
  have hb' : b.toNat % 4 = 0 := congrArg BitVec.toNat hb
  have e' : b.toNat / 4 = a.toNat / 4 := e
  apply BitVec.eq_of_toNat_eq
  omega

/-- The other words are not changed. -/
lemma memoryWordGet_set_ne {memory memory' : Memory} (h : memoryWordSet memory a w = .ok memory')
    (hne : b ≠ a) : memoryWordGet memory' b = memoryWordGet memory b := by
  obtain ⟨rfl, ha⟩ := memoryWordSet_ok h
  unfold memoryWordGet
  split
  · rfl
  · rename_i hb
    split
    · rfl
    · exact congrArg _ (if_neg (div_wordSize_ne ha (not_not.mp hb) hne))

/-- A memory that has been set keeps its size and its mode. -/
lemma memoryWordSet_shape {r : Ref} {memory : Memory} (h : memoryWordSet (heap r) a w = .ok memory) :
    Shape heap (heap.set r memory) := by
  obtain ⟨rfl, _⟩ := memoryWordSet_ok h
  intro r'
  unfold Heap.set
  split
  · rename_i e
    subst e
    exact ⟨rfl, rfl⟩
  · exact ⟨rfl, rfl⟩

/-! ### Reads after writes -/

/-- A write that succeeds has set a word of the zone of its address. -/
lemma busWordWrite_ok (h : busWordWrite heap bus a w = some (.ok (heap', conds))) :
    ∃ zone memory, findZone heap bus a = some zone ∧
      memoryWordSet (heap zone.memory) (translate zone a) w = .ok memory ∧
      heap' = heap.set zone.memory memory := by
  unfold busWordWrite at h
  split at h
  · rename_i zone hz
    split at h
    · rename_i memory hm
      cases h
      exact ⟨zone, memory, hz, hm, rfl⟩
    · rename_i e _
      cases e <;> cases h
  · cases h

/-- A write through the bus keeps the shape. -/
lemma busWordWrite_shape (h : busWordWrite heap bus a w = some (.ok (heap', conds))) :
    Shape heap heap' := by
  obtain ⟨zone, memory, _, hm, rfl⟩ := busWordWrite_ok h
  exact memoryWordSet_shape hm

/-- A word that has been written is read back. -/
lemma busWordRead_write (h : busWordWrite heap bus a w = some (.ok (heap', conds))) :
    busWordRead heap' bus a = some (.ok w) := by
  have hshape := busWordWrite_shape h
  obtain ⟨zone, memory, hz, hm, rfl⟩ := busWordWrite_ok h
  have hget : memoryWordGet (heap.set zone.memory memory zone.memory) (translate zone a) = .ok w := by
    rw [Heap.set, if_pos rfl]
    exact memoryWordGet_set hm
  rw [busWordRead, findZone_shape hshape, hz]
  dsimp only
  rw [hget]

/-- Zones with the same memory are the same. -/
lemma Bus.Distinct.zone_eq (hd : bus.Distinct) {z z' : Zone} (hz : z ∈ bus.zones) (hz' : z' ∈ bus.zones)
    (h : z.memory = z'.memory) : z = z' :=
  List.inj_on_of_nodup_map hd hz hz' h

/-- No other word is changed. -/
lemma busWordRead_write_ne (hd : bus.Distinct) (h : busWordWrite heap bus a w = some (.ok (heap', conds)))
    (hne : b ≠ a) : busWordRead heap' bus b = busWordRead heap bus b := by
  have hshape := busWordWrite_shape h
  obtain ⟨zone, memory, hz, hm, rfl⟩ := busWordWrite_ok h
  unfold busWordRead
  rw [findZone_shape hshape]
  cases hzb : findZone heap bus b with
  | none => rfl
  | some zone' =>
    dsimp only
    by_cases e : zone'.memory = zone.memory
    · obtain rfl := hd.zone_eq (List.mem_of_find?_eq_some hzb) (List.mem_of_find?_eq_some hz) e
      have htr : translate zone' b ≠ translate zone' a := fun he => hne (by
        unfold translate at he
        bv_omega)
      rw [Heap.set, if_pos rfl, memoryWordGet_set_ne hm htr]
    · rw [Heap.set, if_neg e]

/-! ### What succeeds -/

/-- What becomes of a write, whatever the word. -/
def writeStatus (heap : Heap) (bus : Bus) (a : Addr) : Option (Except BusError Unit) :=
  (busWordWrite heap bus a 0).map fun r => r.map fun _ => ()

/-- What becomes of a read. -/
def readStatus (heap : Heap) (bus : Bus) (a : Addr) : Option (Except BusError Unit) :=
  (busWordRead heap bus a).map fun r => r.map fun _ => ()

/-- Whether a write succeeds depends on the size and the mode. -/
lemma memoryWordSet_status {memory memory' : Memory} (hs : memory'.size = memory.size)
    (hm : memory'.mode = memory.mode) (w w' : Word) :
    (memoryWordSet memory' a w').map (fun _ => ()) = (memoryWordSet memory a w).map fun _ => () := by
  unfold memoryWordSet
  rw [hs, hm]
  split <;> [rfl; split <;> [rfl; split <;> rfl]]

/-- Whether a read succeeds depends on the size. -/
lemma memoryWordGet_status {memory memory' : Memory} (hs : memory'.size = memory.size) :
    (memoryWordGet memory' a).map (fun _ => ()) = (memoryWordGet memory a).map fun _ => () := by
  unfold memoryWordGet
  rw [hs]
  split <;> [rfl; split <;> rfl]

/-- Whether a write succeeds does not depend on what is in the memories, nor on the word. -/
lemma busWordWrite_status (h : Shape heap heap') (a : Addr) (w : Word) :
    (busWordWrite heap' bus a w).map (fun r => r.map fun _ => ()) = writeStatus heap bus a := by
  unfold writeStatus busWordWrite
  rw [findZone_shape h]
  cases findZone heap bus a with
  | none => rfl
  | some zone =>
    dsimp only
    have hst := @memoryWordSet_status (translate zone a) _ _ (h zone.memory).1 (h zone.memory).2 0 w
    revert hst
    cases memoryWordSet (heap' zone.memory) (translate zone a) w <;>
      cases memoryWordSet (heap zone.memory) (translate zone a) 0 <;> intro hst
    · cases hst
      rename_i e
      cases e <;> rfl
    · cases hst
    · cases hst
    · rfl

/-- What becomes of a write depends on the shape. -/
lemma writeStatus_shape (h : Shape heap heap') (a : Addr) :
    writeStatus heap' bus a = writeStatus heap bus a :=
  busWordWrite_status h a 0

end Thorium.Vm
