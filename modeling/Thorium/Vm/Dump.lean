import Thorium.Vm.Loading
import Thorium.Vm.Loop

/-!
# The end of a memory dump

The loop of `bus_dump` compares its address with `from + count - 1`, and both are reduced modulo 2^32. The
addresses that it reads are recorded by `busDumpReads`; `dumps_iff` says for which dumps it ends after the
words that were asked for.
-/

namespace Thorium.Vm

/-- The addresses that the loop of `bus_dump` reads, if it ends within `n` turns. -/
def busDumpReads (heap : Heap) (bus : Bus) (limit : Addr) : Nat → Addr → Option (List Addr)
  | 0, _ => none
  | n + 1, address =>
    if address < limit then do
      let _ ← busWordRead heap bus address
      let addresses ← busDumpReads heap bus limit n (address + wordSize)
      return address :: addresses
    else some []

/-- The words of a dump, by the addresses from `from` on below `from + count`. -/
def dumped («from» count : Addr) : List Nat :=
  (List.range ((count.toNat + 3) / 4)).map fun k => «from».toNat + 4 * k

/-- The addresses of a dump. -/
lemma mem_dumped {first count : Addr} {a : Nat} :
    a ∈ dumped first count ↔ ∃ k, a = first.toNat + 4 * k ∧ a < first.toNat + count.toNat := by
  rw [dumped, List.mem_map]
  constructor
  · rintro ⟨k, hk, rfl⟩
    have hlt := List.mem_range.mp hk
    exact ⟨k, rfl, by omega⟩
  · rintro ⟨k, rfl, hlt⟩
    exact ⟨k, List.mem_range.mpr (by omega), rfl⟩

/-- The dump ends, and reads these words. -/
def Dumps (heap : Heap) (bus : Bus) («from» count : Addr) : Prop :=
  ∃ n addresses, busDumpReads heap bus («from» + count - 1) n «from» = some addresses ∧
    addresses.map BitVec.toNat = dumped «from» count

section
variable {heap : Heap} {bus : Bus} {limit a first count : Addr} {n m : Nat} {addresses : List Addr}

/-- The loop of the debugger is this one. -/
lemma busDumpLoop_reads : busDumpLoop heap bus limit n a = (busDumpReads heap bus limit n a).map fun _ => () := by
  induction n generalizing a with
  | zero => rfl
  | succ n ih =>
    rw [busDumpLoop, busDumpReads]
    split
    · cases busWordRead heap bus a with
      | none => rfl
      | some w =>
        show busDumpLoop heap bus limit n (a + wordSize) = _
        rw [ih]
        cases busDumpReads heap bus limit n (a + wordSize) <;> rfl
    · rfl

/-! ### The turns -/

/-- The loop takes `m` turns and ends. -/
structure Turns (heap : Heap) (bus : Bus) (limit a : Addr) (m : Nat) : Prop where
  below : ∀ k < m, wordOffset a k < limit
  reads : ∀ k < m, busWordRead heap bus (wordOffset a k) ≠ none
  ends : ¬ wordOffset a m < limit

/-- A dump that ends at once. -/
lemma Turns.zero_iff : Turns heap bus limit a 0 ↔ ¬ a < limit := by
  constructor
  · intro h
    exact wordOffset_zero a ▸ h.ends
  · intro h
    exact ⟨nofun, nofun, (wordOffset_zero a).symm ▸ h⟩

/-- A dump that reads a word. -/
lemma Turns.succ_iff : Turns heap bus limit a (m + 1) ↔
    (a < limit ∧ busWordRead heap bus a ≠ none) ∧ Turns heap bus limit (a + wordSize) m := by
  constructor
  · intro h
    refine ⟨⟨?_, ?_⟩, fun k hk => ?_, fun k hk => ?_, ?_⟩
    · exact wordOffset_zero a ▸ h.below 0 (Nat.zero_lt_succ m)
    · exact wordOffset_zero a ▸ h.reads 0 (Nat.zero_lt_succ m)
    · exact wordOffset_succ a k ▸ h.below (k + 1) (Nat.succ_lt_succ hk)
    · exact wordOffset_succ a k ▸ h.reads (k + 1) (Nat.succ_lt_succ hk)
    · exact wordOffset_succ a m ▸ h.ends
  · rintro ⟨⟨hlt, hread⟩, h⟩
    refine ⟨fun k hk => ?_, fun k hk => ?_, wordOffset_succ a m ▸ h.ends⟩
    · cases k with
      | zero => exact (wordOffset_zero a).symm ▸ hlt
      | succ k => exact wordOffset_succ a k ▸ h.below k (Nat.lt_of_succ_lt_succ hk)
    · cases k with
      | zero => exact (wordOffset_zero a).symm ▸ hread
      | succ k => exact wordOffset_succ a k ▸ h.reads k (Nat.lt_of_succ_lt_succ hk)

/-- The first word of a dump. -/
lemma map_wordOffset (a : Addr) (m : Nat) :
    (List.range (m + 1)).map (wordOffset a) = a :: (List.range m).map (wordOffset (a + wordSize)) := by
  rw [List.range_succ_eq_map, List.map_cons, List.map_map, wordOffset_zero]
  congr 1
  apply List.map_congr_left
  intro k _
  exact (wordOffset_succ a k).symm

/-- What the loop has read when it ends. -/
lemma busDumpReads_iff : busDumpReads heap bus limit n a = some addresses ↔
    ∃ m < n, addresses = (List.range m).map (wordOffset a) ∧ Turns heap bus limit a m := by
  induction n generalizing a addresses with
  | zero =>
    constructor
    · intro h
      cases h
    · rintro ⟨m, hm, _⟩
      cases hm
  | succ n ih =>
    rw [busDumpReads]
    by_cases hlt : a < limit
    · rw [if_pos hlt]
      constructor
      · intro h
        obtain ⟨w, hr, h⟩ := Option.bind_eq_some_iff.mp h
        obtain ⟨rest, hrest, h⟩ := Option.bind_eq_some_iff.mp h
        cases h
        obtain ⟨m, hm, rfl, hturns⟩ := ih.mp hrest
        refine ⟨m + 1, Nat.succ_lt_succ hm, (map_wordOffset a m).symm, Turns.succ_iff.mpr ⟨⟨hlt, ?_⟩, hturns⟩⟩
        rw [hr]
        exact Option.some_ne_none w
      · rintro ⟨m, hm, rfl, hturns⟩
        cases m with
        | zero => exact absurd hlt (Turns.zero_iff.mp hturns)
        | succ m =>
          obtain ⟨⟨_, hread⟩, hturns⟩ := Turns.succ_iff.mp hturns
          obtain ⟨w, hr⟩ := Option.ne_none_iff_exists'.mp hread
          have hrest := ih.mpr ⟨m, Nat.lt_of_succ_lt_succ hm, rfl, hturns⟩
          rw [hr, Option.bind_eq_bind, Option.bind_some, hrest, map_wordOffset]
          rfl
    · rw [if_neg hlt]
      constructor
      · intro h
        cases h
        exact ⟨0, Nat.zero_lt_succ n, rfl, Turns.zero_iff.mpr hlt⟩
      · rintro ⟨m, hm, rfl, hturns⟩
        cases m with
        | zero => rfl
        | succ m => exact absurd (Turns.succ_iff.mp hturns).1.1 hlt

/-- The loop does not take 2^30 turns and end: the addresses would come back. -/
lemma Turns.lt (h : Turns heap bus limit a m) : m < 2 ^ 30 := by
  by_contra hge
  obtain ⟨k, rfl⟩ := Nat.exists_eq_add_of_le (Nat.le_of_not_lt hge)
  have hback : wordOffset a (2 ^ 30 + k) = wordOffset a k := by
    apply BitVec.eq_of_toNat_eq
    rw [wordOffset_toNat, wordOffset_toNat]
    omega
  exact h.ends (hback ▸ h.below k (by omega))

/-- The fuel of `bus_dump` is enough. -/
lemma busDump_iff : busDump heap bus first count = some () ↔
    ∃ n addresses, busDumpReads heap bus (first + count - 1) n first = some addresses := by
  rw [busDump, busDumpLoop_reads]
  constructor
  · intro h
    obtain ⟨addresses, hreads, _⟩ := Option.map_eq_some_iff.mp h
    exact ⟨_, addresses, hreads⟩
  · rintro ⟨n, addresses, hreads⟩
    obtain ⟨m, _, rfl, hturns⟩ := busDumpReads_iff.mp hreads
    rw [busDumpReads_iff.mpr ⟨m, Nat.lt_succ_of_lt hturns.lt, rfl, hturns⟩]
    rfl

/-! ### The condition -/

/-- The last of the words is not a single byte, a dump of nothing does not begin at 0, and the address after
the words has not wrapped around; nor does the bus abort. -/
structure Dumpable (heap : Heap) (bus : Bus) («from» count : Addr) : Prop where
  whole : count.toNat % 4 ≠ 1
  nonzero : count = 0 → «from» ≠ 0
  noWrap : «from».toNat + 4 * ((count.toNat + 3) / 4) < 2 ^ 32
  reads : ∀ k, 4 * k < count.toNat → busWordRead heap bus (wordOffset «from» k) ≠ none

/-- The turns of a dump that is read completely. -/
lemma Dumpable.turns (h : Dumpable heap bus first count) :
    Turns heap bus (first + count - 1) first ((count.toNat + 3) / 4) := by
  obtain ⟨hwhole, hnonzero, hwrap, hreads⟩ := h
  have hlimit : (first + count - 1).toNat = (2 ^ 32 - 1 + (first.toNat + count.toNat) % 2 ^ 32) % 2 ^ 32 := rfl
  have hzero : count.toNat = 0 → first.toNat ≠ 0 := fun hc hf =>
    hnonzero (BitVec.eq_of_toNat_eq hc) (BitVec.eq_of_toNat_eq hf)
  refine ⟨fun k hk => ?_, fun k hk => hreads k (by omega), ?_⟩
  · rw [BitVec.lt_def, wordOffset_toNat, hlimit]
    omega
  · rw [BitVec.lt_def, wordOffset_toNat, hlimit]
    omega

/-- **A memory dump** ends after exactly its words when its length is not one more than a multiple of 4,
when it is not the empty dump from 0, and when the address behind its last word is still in the address
space. -/
theorem dumps_iff (heap : Heap) (bus : Bus) (first count : Addr) :
    Dumps heap bus first count ↔ Dumpable heap bus first count := by
  have hlimit : (first + count - 1).toNat = (2 ^ 32 - 1 + (first.toNat + count.toNat) % 2 ^ 32) % 2 ^ 32 := rfl
  constructor
  · rintro ⟨n, addresses, hreads, hwords⟩
    obtain ⟨m, _, rfl, hturns⟩ := busDumpReads_iff.mp hreads
    have hm : m = (count.toNat + 3) / 4 := by
      have hlength := congrArg List.length hwords
      rwa [List.length_map, List.length_map, dumped, List.length_map, List.length_range,
        List.length_range] at hlength
    have hword : ∀ k < m, (wordOffset first k).toNat = first.toNat + 4 * k := by
      intro k hk
      rw [dumped, ← hm, List.map_map] at hwords
      exact List.map_inj_left.mp hwords k (List.mem_range.mpr hk)
    have hends := hturns.ends
    rw [BitVec.lt_def, wordOffset_toNat, hlimit] at hends
    have hlt := first.isLt
    by_cases hzero : m = 0
    · have hnot : ¬ (first.toNat = 0 ∧ count.toNat = 0) := by omega
      refine ⟨by omega, fun hc hf => ?_, by omega, fun k hk => by omega⟩
      exact hnot ⟨congrArg BitVec.toNat hf, congrArg BitVec.toNat hc⟩
    · -- The last word that is read is below the limit.
      have hlast := hturns.below (m - 1) (by omega)
      rw [BitVec.lt_def, hword (m - 1) (by omega), hlimit] at hlast
      have hin := (wordOffset first (m - 1)).isLt
      rw [hword (m - 1) (by omega)] at hin
      refine ⟨by omega, fun hc => ?_, by omega, fun k hk => hturns.reads k (by omega)⟩
      have hc : count.toNat = 0 := congrArg BitVec.toNat hc
      omega
  · intro h
    have hturns := h.turns
    refine ⟨_, _, busDumpReads_iff.mpr ⟨_, Nat.lt_succ_self _, rfl, hturns⟩, ?_⟩
    rw [dumped, List.map_map]
    apply List.map_congr_left
    intro k hk
    have hk := List.mem_range.mp hk
    have hwrap := h.noWrap
    show (wordOffset first k).toNat = _
    rw [wordOffset_toNat]
    omega

end

/-- The dump of the last word of the address space never ends. -/
theorem not_dumps_last : ¬ Dumps smallHeap busCreate 0xFFFFFFFC 4 := by
  rintro ⟨n, addresses, hreads, hwords⟩
  obtain ⟨m, _, rfl, hturns⟩ := busDumpReads_iff.mp hreads
  -- No address of the words is the largest one.
  apply hturns.ends
  have hlimit : (0xFFFFFFFC + 4 - 1 : Addr).toNat = 0xFFFFFFFF := by decide
  have hfirst : (0xFFFFFFFC : Addr).toNat = 0xFFFFFFFC := rfl
  rw [BitVec.lt_def, wordOffset_toNat, hlimit, hfirst]
  omega

end Thorium.Vm
