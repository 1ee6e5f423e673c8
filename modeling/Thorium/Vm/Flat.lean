import Thorium.Vm.Access
import Thorium.Vm.Zones

/-!
# A flat memory

What the bus is for: one memory of words for all addresses, of which some can be read and some written.
`Flat.run` is this memory, and `busRun` the calls of `bus_word_read` and `bus_word_write`; on a bus with
proper zones the second does what the first does (`flat_memory`).
-/

namespace Thorium.Vm

/-! ### Accesses -/

/-- A call of `bus_word_read` or `bus_word_write`. -/
inductive Access where
  | read (a : Addr)
  | write (a : Addr) (w : Word)
  deriving DecidableEq, Repr

/-- What a call returns: an error, or the word of a read. -/
inductive Answer where
  | failed
  | word (w : Word)
  | written
  deriving DecidableEq, Repr

/-- A call, its answer and the memories after it. -/
def busAccess (heap : Heap) (bus : Bus) : Access → Option (Answer × Heap)
  | .read a =>
    (busWordRead heap bus a).map fun r =>
      match r with
      | .ok w => (.word w, heap)
      | .error _ => (.failed, heap)
  | .write a w =>
    (busWordWrite heap bus a w).map fun r =>
      match r with
      | .ok (heap', _) => (.written, heap')
      | .error _ => (.failed, heap)

/-- Calls in a row. -/
def busRun (heap : Heap) (bus : Bus) : List Access → Option (List Answer × Heap)
  | [] => some ([], heap)
  | c :: cs => do
    let r ← busAccess heap bus c
    let rs ← busRun r.2 bus cs
    return (r.1 :: rs.1, rs.2)

/-! ### The flat memory -/

/-- A memory of words, and the addresses at which it can be read and written. -/
structure Flat where
  readable : Addr → Bool
  writable : Addr → Bool
  words : Addr → Word

/-- An access to a flat memory. One that fails changes nothing. -/
def Flat.access (m : Flat) : Access → Answer × Flat
  | .read a => (if m.readable a then .word (m.words a) else .failed, m)
  | .write a w =>
    if m.writable a then (.written, { m with words := Function.update m.words a w }) else (.failed, m)

/-- Accesses in a row. -/
def Flat.run (m : Flat) : List Access → List Answer × Flat
  | [] => ([], m)
  | c :: cs => ((m.access c).1 :: ((m.access c).2.run cs).1, ((m.access c).2.run cs).2)

/-! ### The memory of a bus -/

/-- An address lies in a zone. -/
def Zone.covers (heap : Heap) (zone : Zone) (a : Addr) : Bool :=
  decide (zone.from.toNat ≤ a.toNat) && decide (a.toNat < zone.from.toNat + zone.size heap)

/-- The flat memory that a bus stands for. -/
def flat (heap : Heap) (bus : Bus) : Flat where
  readable a := a.toNat % 4 == 0 && bus.zones.any fun z => z.covers heap a
  writable a := a.toNat % 4 == 0 && bus.zones.any fun z => z.covers heap a && (heap z.memory).mode == .rw
  words a :=
    match bus.zones.find? fun z => z.covers heap a with
    | some z => if a.toNat % 4 = 0 then (heap z.memory).raw ((a.toNat - z.from.toNat) / 4) else 0
    | none => 0

/-- Zones with distinct memories of whole words, that begin at words, do not wrap around and are
disjoint. -/
structure WellZoned (heap : Heap) (bus : Bus) : Prop where
  distinct : bus.Distinct
  proper : ∀ z ∈ bus.zones, z.Proper heap
  sizes : ∀ z ∈ bus.zones, (heap z.memory).size.toNat % 4 = 0
  bases : ∀ z ∈ bus.zones, z.from.toNat % 4 = 0
  apart : ZonesApart heap bus.zones

section

variable {heap heap' : Heap} {bus : Bus} {a b : Addr} {w : Word} {zone : Zone}

/-- Whether a zone covers an address can be computed. -/
lemma covers_iff : zone.covers heap a = true ↔ zone.Covers heap a.toNat := by
  rw [Zone.covers, Bool.and_eq_true, decide_eq_true_iff, decide_eq_true_iff]
  rfl

/-- Memories of the same sizes are as well zoned. -/
lemma WellZoned.shape (h : WellZoned heap bus) (hs : Shape heap heap') : WellZoned heap' bus := by
  have hsize : ∀ z : Zone, z.size heap' = z.size heap := by
    intro z
    exact congrArg BitVec.toNat (hs z.memory).1
  refine ⟨h.distinct, fun z hz => ?_, fun z hz => ?_, h.bases, ?_⟩
  · obtain ⟨hpos, hwrap⟩ := h.proper z hz
    refine ⟨?_, ?_⟩
    · rwa [hsize]
    · rwa [hsize]
  · rw [(hs z.memory).1]
    exact h.sizes z hz
  · refine h.apart.imp ?_
    intro z z' hz c hc
    unfold Zone.Covers at hc
    rw [hsize, hsize] at hc
    exact hz c hc

/-- The zone that is found covers the address. -/
lemma WellZoned.found (h : WellZoned heap bus) (hf : findZone heap bus a = some zone) :
    zone ∈ bus.zones ∧ zone.Covers heap a.toNat := by
  have hz := List.mem_of_find?_eq_some hf
  unfold findZone at hf
  have hin := List.find?_some hf
  exact ⟨hz, (inZone_iff (h.proper zone hz)).mp hin⟩

/-- The word of an address in the memory of its zone. -/
lemma WellZoned.offset (h : WellZoned heap bus) (hz : zone ∈ bus.zones) (hc : zone.Covers heap a.toNat) :
    (translate zone a).toNat = a.toNat - zone.from.toNat ∧
      (translate zone a % wordSize = 0 ↔ a.toNat % 4 = 0) ∧
      (a.toNat % 4 = 0 → ¬ (heap zone.memory).size < translate zone a + wordSize) := by
  obtain ⟨hpos, hwrap⟩ := h.proper zone hz
  obtain ⟨hle, hlt⟩ := hc
  have hsize := h.sizes zone hz
  have hbase := h.bases zone hz
  unfold Zone.size at hlt hwrap
  have htr : (translate zone a).toNat = a.toNat - zone.from.toNat :=
    BitVec.toNat_sub_of_le (BitVec.le_def.mpr hle)
  have hmod : translate zone a % wordSize = 0 ↔ (translate zone a).toNat % 4 = 0 :=
    ⟨fun h => congrArg BitVec.toNat h, fun h => BitVec.eq_of_toNat_eq h⟩
  have hsum : (translate zone a + wordSize).toNat = ((translate zone a).toNat + 4) % 2 ^ 32 := rfl
  have hbound := (heap zone.memory).size.isLt
  refine ⟨htr, ?_, ?_⟩
  · rw [hmod, htr]
    omega
  · intro ha
    rw [BitVec.lt_def, hsum, htr]
    omega

/-- The zones that cover an address are those that `in_zone` accepts. -/
lemma WellZoned.find_covers (h : WellZoned heap bus) :
    (bus.zones.find? fun z => z.covers heap a) = findZone heap bus a := by
  cases hf : findZone heap bus a with
  | none =>
    refine List.find?_eq_none.mpr fun z hz hc => ?_
    exact List.find?_eq_none.mp hf z hz ((inZone_iff (h.proper z hz)).mpr (covers_iff.mp hc))
  | some zone =>
    obtain ⟨hz, hc⟩ := h.found hf
    cases hfind : bus.zones.find? fun z => z.covers heap a with
    | none => exact absurd (covers_iff.mpr hc) (List.find?_eq_none.mp hfind zone hz)
    | some z =>
      have hcov := List.find?_some hfind
      have hz' := findZone_covers h.proper h.apart (List.mem_of_find?_eq_some hfind) (covers_iff.mp hcov)
      rw [← hf, hz']

/-- The words that can be read. -/
lemma readable_iff : (flat heap bus).readable a = true ↔
    a.toNat % 4 = 0 ∧ ∃ z ∈ bus.zones, z.Covers heap a.toNat := by
  show (a.toNat % 4 == 0 && bus.zones.any fun z => z.covers heap a) = true ↔ _
  rw [Bool.and_eq_true, beq_iff_eq, List.any_eq_true]
  exact and_congr_right fun _ => exists_congr fun z => and_congr_right fun _ => covers_iff

/-- The words that can be written. -/
lemma writable_iff : (flat heap bus).writable a = true ↔
    a.toNat % 4 = 0 ∧ ∃ z ∈ bus.zones, z.Covers heap a.toNat ∧ (heap z.memory).mode = .rw := by
  show (a.toNat % 4 == 0 && bus.zones.any fun z => z.covers heap a && (heap z.memory).mode == .rw) =
    true ↔ _
  rw [Bool.and_eq_true, beq_iff_eq, List.any_eq_true]
  refine and_congr_right fun _ => exists_congr fun z => and_congr_right fun _ => ?_
  rw [Bool.and_eq_true, beq_iff_eq, covers_iff]

/-- What `bus_word_read` returns. -/
lemma WellZoned.read (h : WellZoned heap bus) (a : Addr) : busWordRead heap bus a =
    some (if (flat heap bus).readable a then .ok ((flat heap bus).words a) else .error .invalidAddress) := by
  have hwords : (flat heap bus).words a = match findZone heap bus a with
      | some z => if a.toNat % 4 = 0 then (heap z.memory).raw ((a.toNat - z.from.toNat) / 4) else 0
      | none => 0 := by
    rw [← h.find_covers]
    rfl
  cases hf : findZone heap bus a with
  | none =>
    have hno : ¬ (flat heap bus).readable a = true := by
      rw [readable_iff]
      rintro ⟨_, z, hz, hc⟩
      cases hf.symm.trans (findZone_covers h.proper h.apart hz hc)
    rw [if_neg hno, busWordRead, hf]
  | some zone =>
    obtain ⟨hz, hc⟩ := h.found hf
    obtain ⟨htr, haligned, hfits⟩ := h.offset hz hc
    rw [busWordRead, hwords, hf]
    dsimp only
    by_cases ha : a.toNat % 4 = 0
    · have hyes : (flat heap bus).readable a = true := readable_iff.mpr ⟨ha, zone, hz, hc⟩
      have hindex : (translate zone a / wordSize).toNat = (a.toNat - zone.from.toNat) / 4 := by
        rw [← htr]
        rfl
      rw [if_pos hyes, if_pos ha, memoryWordGet, if_neg (not_not.mpr (haligned.mpr ha)), if_neg (hfits ha),
        hindex]
    · have hno : ¬ (flat heap bus).readable a = true := fun hr => ha (readable_iff.mp hr).1
      rw [if_neg hno, memoryWordGet, if_pos fun hal => ha (haligned.mp hal)]
      rfl

/-- Whether `bus_word_write` succeeds. -/
lemma WellZoned.write (h : WellZoned heap bus) (a : Addr) (w : Word) :
    ((flat heap bus).writable a = true ∧ ∃ heap' conds, busWordWrite heap bus a w = some (.ok (heap', conds))) ∨
      (flat heap bus).writable a = false ∧ ∃ e, busWordWrite heap bus a w = some (.error e) := by
  cases hf : findZone heap bus a with
  | none =>
    refine .inr ⟨eq_false_of_ne_true fun hw => ?_, .invalidAddress, ?_⟩
    · obtain ⟨_, z, hz, hc, _⟩ := writable_iff.mp hw
      cases hf.symm.trans (findZone_covers h.proper h.apart hz hc)
    · rw [busWordWrite, hf]
  | some zone =>
    obtain ⟨hz, hc⟩ := h.found hf
    obtain ⟨htr, haligned, hfits⟩ := h.offset hz hc
    rw [busWordWrite, hf]
    dsimp only
    by_cases hm : (heap zone.memory).mode = .rw
    · by_cases ha : a.toNat % 4 = 0
      · refine .inl ⟨writable_iff.mpr ⟨ha, zone, hz, hc, hm⟩, ?_⟩
        rw [memoryWordSet, if_neg (not_not.mpr hm), if_neg (not_not.mpr (haligned.mpr ha)),
          if_neg (hfits ha)]
        exact ⟨_, _, rfl⟩
      · refine .inr ⟨eq_false_of_ne_true fun hw => ha (writable_iff.mp hw).1, .invalidAddress, ?_⟩
        rw [memoryWordSet, if_neg (not_not.mpr hm), if_pos fun hal => ha (haligned.mp hal)]
        rfl
    · refine .inr ⟨eq_false_of_ne_true fun hw => ?_, .illegalAccess, ?_⟩
      · obtain ⟨_, z, hz', hc', hm'⟩ := writable_iff.mp hw
        cases hf.symm.trans (findZone_covers h.proper h.apart hz' hc')
        exact hm hm'
      · rw [memoryWordSet, if_pos hm]
        rfl

/-- Where nothing can be read there is no word. -/
lemma words_unreadable (h : ¬ (flat heap bus).readable a = true) : (flat heap bus).words a = 0 := by
  show (match bus.zones.find? fun z => z.covers heap a with
    | some z => if a.toNat % 4 = 0 then (heap z.memory).raw ((a.toNat - z.from.toNat) / 4) else 0
    | none => 0) = 0
  cases hf : bus.zones.find? fun z => z.covers heap a with
  | none => rfl
  | some z =>
    have hc := List.find?_some hf
    have hz := List.mem_of_find?_eq_some hf
    exact if_neg fun ha => h (readable_iff.mpr ⟨ha, z, hz, covers_iff.mp hc⟩)

/-- Sizes and modes decide what can be read and written. -/
lemma flat_shape (hs : Shape heap heap') : (flat heap' bus).readable = (flat heap bus).readable ∧
    (flat heap' bus).writable = (flat heap bus).writable := by
  have hcovers : ∀ (z : Zone) (a : Addr), z.covers heap' a = z.covers heap a := by
    intro z a
    unfold Zone.covers Zone.size
    rw [(hs z.memory).1]
  unfold flat
  dsimp only
  constructor
  · funext a
    simp only [hcovers]
  · funext a
    simp only [hcovers, (hs _).2]

/-- The flat memory after a write. -/
lemma WellZoned.flat_write (h : WellZoned heap bus) {conds : List Cond}
    (hw : busWordWrite heap bus a w = some (.ok (heap', conds))) :
    flat heap' bus = { flat heap bus with words := Function.update (flat heap bus).words a w } := by
  have hshape := busWordWrite_shape hw
  obtain ⟨hread, hwrite⟩ := @flat_shape _ _ bus hshape
  have h' := h.shape hshape
  have hback := (h'.read a).symm.trans (busWordRead_write hw)
  have ha : (flat heap' bus).readable a = true ∧ (flat heap' bus).words a = w := by
    split at hback
    next hr =>
      cases hback
      exact ⟨hr, rfl⟩
    · cases hback
  have hwords : (flat heap' bus).words = Function.update (flat heap bus).words a w := by
    funext b
    by_cases hb : b = a
    · rw [hb, Function.update_self]
      exact ha.2
    · rw [Function.update_of_ne hb]
      by_cases hr : (flat heap bus).readable b = true
      · have hr' : (flat heap' bus).readable b = true := by rwa [hread]
        have hsame := busWordRead_write_ne h.distinct hw hb
        rw [h.read, h'.read, if_pos hr, if_pos hr'] at hsame
        exact Except.ok.inj (Option.some.inj hsame)
      · rw [words_unreadable hr, words_unreadable (by rwa [hread])]
  calc flat heap' bus = ⟨(flat heap' bus).readable, (flat heap' bus).writable, (flat heap' bus).words⟩ := rfl
    _ = _ := by rw [hread, hwrite, hwords]

/-! ### Refinement -/

/-- A call does what the access to the flat memory does, and changes nothing when it fails. -/
lemma WellZoned.access (h : WellZoned heap bus) (c : Access) : ∃ heap',
    busAccess heap bus c = some (((flat heap bus).access c).1, heap') ∧
      flat heap' bus = ((flat heap bus).access c).2 ∧ WellZoned heap' bus := by
  cases c with
  | read a =>
    refine ⟨heap, ?_, rfl, h⟩
    rw [busAccess, h.read]
    unfold Flat.access
    dsimp only
    split
    · rfl
    · rfl
  | write a w =>
    unfold Flat.access
    dsimp only
    rcases h.write a w with ⟨hw, heap', conds, hrun⟩ | ⟨hw, e, hrun⟩
    · refine ⟨heap', ?_, ?_, h.shape (busWordWrite_shape hrun)⟩
      · rw [busAccess, hrun, hw]
        rfl
      · rw [h.flat_write hrun, hw]
        rfl
    · refine ⟨heap, ?_, ?_, h⟩
      · rw [busAccess, hrun, hw]
        rfl
      · rw [hw]
        rfl

/-- A call that fails changes no memory. -/
lemma busAccess_failed {c : Access} (h : busAccess heap bus c = some (.failed, heap')) : heap' = heap := by
  cases c with
  | read a =>
    obtain ⟨r, _, he⟩ := Option.map_eq_some_iff.mp h
    cases r with
    | ok w => cases he
    | error e => cases he; rfl
  | write a w =>
    obtain ⟨r, _, he⟩ := Option.map_eq_some_iff.mp h
    cases r with
    | ok r => cases he
    | error e => cases he; rfl

/-- **The bus is a flat memory**: calls in any number return what the accesses to the flat memory return,
and leave its words behind them. None of them aborts, and those that fail change no memory. -/
theorem flat_memory (h : WellZoned heap bus) (cs : List Access) : ∃ heap',
    busRun heap bus cs = some (((flat heap bus).run cs).1, heap') ∧
      flat heap' bus = ((flat heap bus).run cs).2 ∧
      ∀ c heap'', busAccess heap' bus c = some (.failed, heap'') → heap'' = heap' := by
  induction cs generalizing heap with
  | nil => exact ⟨heap, rfl, rfl, fun _ _ => busAccess_failed⟩
  | cons c cs ih =>
    obtain ⟨heap1, hc, hflat, h1⟩ := h.access c
    obtain ⟨heap2, hcs, hflat2, hfailed⟩ := ih h1
    refine ⟨heap2, ?_, ?_, hfailed⟩
    · rw [busRun, hc, Option.bind_eq_bind, Option.bind_some, hcs, hflat]
      rfl
    · rw [hflat2, hflat]
      rfl

end

/-- A word of ROM behind a word of RAM. -/
theorem flat_memory_words : ∃ heap', busRun (fun r => memoryCreate (fun _ => 0) 4 (if r = 0 then .rw else .r))
    ⟨[⟨0, 0, "RAM", []⟩, ⟨1, 4, "ROM", []⟩], by decide⟩ [.write 0 7, .write 4 8, .read 0, .read 4, .read 2] =
      some ([.written, .failed, .word 7, .word 0, .failed], heap') := by
  have hzoned : WellZoned (fun r => memoryCreate (fun _ => 0) 4 (if r = 0 then .rw else .r))
      ⟨[⟨0, 0, "RAM", []⟩, ⟨1, 4, "ROM", []⟩], by decide⟩ := by
    have hdistinct : ([0, 1] : List Ref).Nodup := by decide
    refine ⟨hdistinct, fun z hz => ?_, fun z hz => ?_, fun z hz => ?_, ?_⟩
    · rcases List.mem_pair.mp hz with rfl | rfl <;> exact ⟨by decide, by decide⟩
    · rcases List.mem_pair.mp hz with rfl | rfl <;> rfl
    · rcases List.mem_pair.mp hz with rfl | rfl <;> rfl
    · refine List.pairwise_pair.mpr ?_
      rintro a ⟨⟨_, h1⟩, ⟨h2, _⟩⟩
      exact absurd (Nat.lt_of_le_of_lt h2 h1) (by decide)
  obtain ⟨heap', hrun, _⟩ := flat_memory hzoned [.write 0 7, .write 4 8, .read 0, .read 4, .read 2]
  exact ⟨heap', hrun⟩

end Thorium.Vm
