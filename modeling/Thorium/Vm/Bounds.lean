import Thorium.Vm.Access
import Thorium.Vm.Zones

/-!
# Bounds

The bounds that `memory.c` and `bus.c` check with 32-bit arithmetic. `memory_word_get` and
`memory_word_set` add `WORD_SIZE` to the address, which wraps around at the last word of the address space
(`wordBounds_iff`); `memory_create` rounds the size up but clears the words of the size asked for rounded
down (`memoryCreate_iff`); and `memory_max_address` of an empty memory at 0 is the end of the address
space, so that the bus finds it everywhere (`neverAborts_iff`).
-/

namespace Thorium.Vm

variable {memory memory' : Memory} {a b : Addr} {w : Word}

/-! ### Words -/

/-- The word of the caller after `memory_word_get`. -/
def callerWord (memory : Memory) (address : Addr) (word : Word) : Word :=
  match memoryWordGet memory address with
  | .ok w => w
  | .error _ => word

/-- The memory after `memory_word_set`. -/
def memoryAfter (memory : Memory) (address : Addr) (word : Word) : Memory :=
  match memoryWordSet memory address word with
  | .ok memory => memory
  | .error _ => memory

/-- The bytes of a word lie in a memory. -/
def Memory.Holds (memory : Memory) (address : Addr) : Prop :=
  address.toNat % 4 = 0 ∧ address.toNat + 4 ≤ memory.size.toNat

/-- The calls for a word do what they should: they succeed where the word lies in the memory, touch `raw`
inside of it only, and an error changes nothing. -/
structure WordBounds (memory : Memory) (a : Addr) : Prop where
  get_ok : (∃ w, memoryWordGet memory a = .ok w) ↔ memory.Holds a
  set_ok : ∀ w, (∃ m, memoryWordSet memory a w = .ok m) ↔ memory.Holds a ∧ memory.mode = .rw
  get_inside : ∀ w, memoryWordGet memory a = .ok w →
    a.toNat / 4 < memory.size.toNat / 4 ∧ w = memory.raw (a.toNat / 4)
  set_inside : ∀ w m, memoryWordSet memory a w = .ok m →
    a.toNat / 4 < memory.size.toNat / 4 ∧
      m = { memory with raw := fun i => if i = a.toNat / 4 then w else memory.raw i }
  get_set : ∀ w m, memoryWordSet memory a w = .ok m → memoryWordGet m a = .ok w
  get_set_ne : ∀ w m b, memoryWordSet memory a w = .ok m → b ≠ a →
    memoryWordGet m b = memoryWordGet memory b
  get_error : ∀ w e, memoryWordGet memory a = .error e → callerWord memory a w = w
  set_error : ∀ w e, memoryWordSet memory a w = .error e → memoryAfter memory a w = memory

/-- The address of the last word there could be. -/
def lastWord : Addr := -wordSize

/-- What the code checks before it takes a word. -/
def Memory.Takes (memory : Memory) (address : Addr) : Prop :=
  address % wordSize = 0 ∧ ¬ memory.size < address + wordSize

/-- A word is read where the memory takes the address. -/
lemma memoryWordGet_ok_iff : (∃ w, memoryWordGet memory a = .ok w) ↔ memory.Takes a := by
  unfold memoryWordGet Memory.Takes
  constructor
  · rintro ⟨w, h⟩
    split at h
    · cases h
    next ha =>
    split at h
    · cases h
    next hs => exact ⟨not_not.mp ha, hs⟩
  · rintro ⟨ha, hs⟩
    rw [if_neg (not_not.mpr ha), if_neg hs]
    exact ⟨_, rfl⟩

/-- A word is written where the memory can be written, too. -/
lemma memoryWordSet_ok_iff : (∃ m, memoryWordSet memory a w = .ok m) ↔ memory.Takes a ∧ memory.mode = .rw := by
  unfold memoryWordSet Memory.Takes
  constructor
  · rintro ⟨w, h⟩
    split at h
    · cases h
    next hm =>
    split at h
    · cases h
    next ha =>
    split at h
    · cases h
    next hs => exact ⟨⟨not_not.mp ha, hs⟩, not_not.mp hm⟩
  · rintro ⟨⟨ha, hs⟩, hm⟩
    rw [if_neg (not_not.mpr hm), if_neg (not_not.mpr ha), if_neg hs]
    exact ⟨_, rfl⟩

/-- The comparison of the code is the bound, but for the last word. -/
lemma takes_iff (ha : a ≠ lastWord) : memory.Takes a ↔ memory.Holds a := by
  have hne : a.toNat ≠ 2 ^ 32 - 4 := fun h => ha (BitVec.eq_of_toNat_eq h)
  have haligned : a % wordSize = 0 ↔ a.toNat % 4 = 0 :=
    ⟨fun h => congrArg BitVec.toNat h, fun h => BitVec.eq_of_toNat_eq h⟩
  have hsum : (a + wordSize).toNat = (a.toNat + 4) % 2 ^ 32 := rfl
  rw [Memory.Takes, Memory.Holds, haligned, BitVec.lt_def, hsum]
  have hlt := a.isLt
  omega

/-- Every memory takes the last word of the address space: the bound wraps around. -/
lemma takes_lastWord (memory : Memory) : memory.Takes lastWord := by
  have hzero : lastWord + wordSize = 0 := by decide
  refine ⟨by decide, ?_⟩
  rw [hzero]
  exact BitVec.not_lt_zero

/-- The last word lies in no memory. -/
lemma not_holds_lastWord (memory : Memory) : ¬ memory.Holds lastWord := by
  rintro ⟨_, h⟩
  have hlast : lastWord.toNat = 2 ^ 32 - 4 := by decide
  have hlt := memory.size.isLt
  omega

/-- The word that is read. -/
lemma memoryWordGet_eq (h : memoryWordGet memory a = .ok w) : w = memory.raw (a.toNat / 4) := by
  unfold memoryWordGet at h
  split at h
  · cases h
  split at h
  · cases h
  · cases h
    rfl

/-- **The bounds of a memory** hold at every address but that of the last word there could be. -/
theorem wordBounds_iff (hsize : memory.size.toNat % 4 = 0) : WordBounds memory a ↔ a ≠ lastWord := by
  constructor
  · rintro h rfl
    exact not_holds_lastWord memory (h.get_ok.mp (memoryWordGet_ok_iff.mpr (takes_lastWord memory)))
  · intro ha
    have htakes := @takes_iff memory a ha
    have hinside : memory.Holds a → a.toNat / 4 < memory.size.toNat / 4 := by
      rintro ⟨_, hend⟩
      omega
    refine ⟨memoryWordGet_ok_iff.trans htakes, fun w => ?_, fun w h => ?_, fun w m h => ?_, fun w m h => ?_,
      fun w m b h hne => ?_, fun w e h => ?_, fun w e h => ?_⟩
    · rw [memoryWordSet_ok_iff, htakes]
    · exact ⟨hinside (htakes.mp (memoryWordGet_ok_iff.mp ⟨w, h⟩)), memoryWordGet_eq h⟩
    · obtain ⟨hm, _⟩ := memoryWordSet_ok h
      exact ⟨hinside (htakes.mp (memoryWordSet_ok_iff.mp ⟨m, h⟩).1), hm⟩
    · exact memoryWordGet_set h
    · exact memoryWordGet_set_ne h hne
    · rw [callerWord, h]
    · rw [memoryAfter, h]

/-- The first word of a memory of one word. -/
theorem wordBounds_first : WordBounds (memoryCreate (fun _ => 0) 4 .rw) 0 :=
  (@wordBounds_iff (memoryCreate (fun _ => 0) 4 .rw) 0 (by decide)).mpr (by decide)

/-- Every memory gives a word at the end of the address space. -/
theorem not_wordBounds_last :
    ¬ ∀ memory : Memory, memory.size.toNat % 4 = 0 → ∀ a, WordBounds memory a := by
  intro h
  have hword := h (memoryCreate (fun _ => 0) 4 .rw) (by decide) lastWord
  have hholds := hword.get_ok.mp ⟨_, rfl⟩
  exact not_holds_lastWord _ hholds

/-! ### New memories -/

/-- The words that the loop of `memory_create` writes. -/
def initWrites (bytes : Addr) : List Nat := List.range (bytes.toNat / 4)

/-- The loop writes 0 to them, and leaves the others as `malloc` returns them. -/
lemma memoryCreate_raw (malloc : Nat → Word) (bytes : Addr) (mode : MemMode) :
    (memoryCreate malloc bytes mode).raw =
      (initWrites bytes).foldl (fun raw i => Function.update raw i 0) malloc := by
  have hloop : ∀ n : Nat, (List.range n).foldl (fun raw i => Function.update raw i 0) malloc =
      fun i => if i < n then (0 : Word) else malloc i := by
    intro n
    induction n with
    | zero => rfl
    | succ n ih =>
      rw [List.range_succ, List.foldl_append, ih]
      funext i
      rw [List.foldl_cons, List.foldl_nil, Function.update_apply]
      split
      next hi => rw [if_pos (by omega)]
      next hi =>
        split
        · rw [if_pos (by omega)]
        · rw [if_neg (by omega)]
  exact (hloop _).symm

/-- A new memory is as it should be: the size is rounded up, the loop stays inside of it, and its words
are 0. -/
structure Created (malloc : Nat → Word) (bytes : Addr) (mode : MemMode) : Prop where
  size : IsLeast {n : Nat | 4 ∣ n ∧ bytes.toNat ≤ n} (memoryCreate malloc bytes mode).size.toNat
  loop : (memoryCreate malloc bytes mode).raw =
    (initWrites bytes).foldl (fun raw i => Function.update raw i 0) malloc
  inside : ∀ i ∈ initWrites bytes, i < (memoryCreate malloc bytes mode).size.toNat / 4
  zero : ∀ i < (memoryCreate malloc bytes mode).size.toNat / 4,
    (memoryCreate malloc bytes mode).raw i = 0

/-- The size of a memory after the rounding. -/
lemma roundUp_toNat (n : Addr) : (roundUp n).toNat = (n.toNat + 3) % 2 ^ 32 / 4 * 4 := by
  show (2 ^ 32 - 1 + (n.toNat + 4) % 2 ^ 32) % 2 ^ 32 / 4 * 4 % 2 ^ 32 = _
  omega

/-- **A new memory** is as it should be when the rounding does not wrap around and either there is nothing
to round or the word that is not cleared happens to be 0. -/
theorem memoryCreate_iff {malloc : Nat → Word} {bytes : Addr} {mode : MemMode} :
    Created malloc bytes mode ↔
      bytes.toNat ≤ 2 ^ 32 - 4 ∧ (bytes.toNat % 4 = 0 ∨ malloc (bytes.toNat / 4) = 0) := by
  have hsize : (memoryCreate malloc bytes mode).size.toNat = (bytes.toNat + 3) % 2 ^ 32 / 4 * 4 :=
    roundUp_toNat bytes
  have hlt := bytes.isLt
  constructor
  · intro h
    obtain ⟨⟨_, hge⟩, _⟩ := h.size
    rw [hsize] at hge
    have hle : bytes.toNat ≤ 2 ^ 32 - 4 := by omega
    refine ⟨hle, ?_⟩
    by_cases hmod : bytes.toNat % 4 = 0
    · exact .inl hmod
    · have hzero := h.zero (bytes.toNat / 4) (by omega)
      have hraw : (memoryCreate malloc bytes mode).raw (bytes.toNat / 4) = malloc (bytes.toNat / 4) :=
        if_neg (Nat.lt_irrefl _)
      exact .inr (hraw.symm.trans hzero)
  · rintro ⟨hle, hlast⟩
    refine ⟨⟨⟨?_, ?_⟩, ?_⟩, memoryCreate_raw malloc bytes mode, ?_, ?_⟩
    · rw [hsize]
      exact Nat.dvd_mul_left 4 _
    · rw [hsize]
      omega
    · rintro n ⟨⟨k, rfl⟩, hn⟩
      rw [hsize]
      omega
    · intro i hi
      have hi' := List.mem_range.mp hi
      omega
    · intro i hi
      show (if i < bytes.toNat / 4 then (0 : Word) else malloc i) = 0
      split
      · rfl
      next hge =>
        cases hlast with
        | inl hmod => omega
        | inr hz =>
          have he : i = bytes.toNat / 4 := by omega
          rw [he, hz]

/-- One byte, in a word that was in use before. -/
theorem not_memoryCreate_byte : ¬ ∀ malloc bytes mode, Created malloc bytes mode := by
  intro h
  have hzero := (h (fun _ => 1) 1 .rw).zero 0 (by decide)
  exact absurd hzero (by decide)

/-! ### The bus -/

section Bus

variable {heap : Heap} {bus : Bus} {z : Zone} {rs : List Request}

/-- No access to the bus aborts. -/
def NeverAborts (heap : Heap) (bus : Bus) : Prop :=
  ∀ a w, busWordRead heap bus a ≠ none ∧ busWordWrite heap bus a w ≠ none

/-- Every memory has a size that `memory_create` gives. What is in it and its mode may have changed. -/
def Heap.Created (heap : Heap) : Prop := ∀ r, ∃ bytes, (heap r).size = roundUp bytes

/-- A memory that has been created has whole words. -/
lemma Heap.Created.size (h : heap.Created) (r : Ref) : (heap r).size.toNat % 4 = 0 := by
  obtain ⟨bytes, hr⟩ := h r
  rw [hr, roundUp_toNat]
  exact Nat.mul_mod_left _ 4

/-- A zone of no size at 0. -/
def Zone.Endless (heap : Heap) (zone : Zone) : Prop := zone.from = 0 ∧ (heap zone.memory).size = 0

/-- The zone that is found has the address. -/
lemma findZone_inZone (h : findZone heap bus a = some z) : inZone heap z a = true := by
  unfold findZone at h
  have hin := List.find?_some h
  exact hin

/-- What lies in another zone is not out of bounds. -/
lemma inZone_inside (hc : heap.Created) (hin : inZone heap z a = true) (hz : ¬ z.Endless heap)
    (ha : translate z a % wordSize = 0) : ¬ (heap z.memory).size < translate z a + wordSize := by
  have hsize := hc.size z.memory
  have haligned : (translate z a).toNat % 4 = 0 := congrArg BitVec.toNat ha
  obtain ⟨hfrom, hmax⟩ := Bool.and_eq_true_iff.mp hin
  have hfrom : z.from.toNat ≤ a.toNat := of_decide_eq_true hfrom
  have hmax : a.toNat ≤ (memoryMaxAddress (heap z.memory) z.from).toNat := of_decide_eq_true hmax
  have hoffset : (translate z a).toNat = a.toNat - z.from.toNat :=
    BitVec.toNat_sub_of_le (BitVec.le_def.mpr hfrom)
  have hend : (memoryMaxAddress (heap z.memory) z.from).toNat =
      (2 ^ 32 - 1 + ((heap z.memory).size.toNat + z.from.toNat) % 2 ^ 32) % 2 ^ 32 := rfl
  have hsum : (translate z a + wordSize).toNat = ((translate z a).toNat + 4) % 2 ^ 32 := rfl
  have hne : z.from.toNat ≠ 0 ∨ (heap z.memory).size.toNat ≠ 0 := by
    by_contra hno
    obtain ⟨hf, hs⟩ := not_or.mp hno
    exact hz ⟨BitVec.eq_of_toNat_eq (not_not.mp hf), BitVec.eq_of_toNat_eq (not_not.mp hs)⟩
  have hf := z.from.isLt
  have hs := (heap z.memory).size.isLt
  have ha := a.isLt
  rw [BitVec.lt_def, hsum]
  rw [hend] at hmax
  -- An empty zone above 0, and one that wraps around, end below their base.
  rcases Nat.lt_or_ge (2 ^ 32) ((heap z.memory).size.toNat + z.from.toNat) with hwrap | hwrap <;> omega

/-- The accesses do not abort when each word of a zone is inside of its memory. -/
lemma neverAborts_inside (h : ∀ z a, findZone heap bus a = some z → translate z a % wordSize = 0 →
    ¬ (heap z.memory).size < translate z a + wordSize) : NeverAborts heap bus := by
  intro a w
  unfold busWordRead busWordWrite
  cases hfind : findZone heap bus a with
  | none => exact ⟨Option.some_ne_none _, Option.some_ne_none _⟩
  | some z =>
    have hbound := h z a hfind
    dsimp only
    unfold memoryWordGet memoryWordSet
    constructor
    · split
      · exact Option.some_ne_none _
      next e herror =>
        split at herror
        · cases herror
          exact Option.some_ne_none _
        next ha =>
        rw [if_neg (hbound (not_not.mp ha))] at herror
        cases herror
    · split
      · exact Option.some_ne_none _
      next e herror =>
        split at herror
        · cases herror
          exact Option.some_ne_none _
        split at herror
        · cases herror
          exact Option.some_ne_none _
        next ha =>
        rw [if_neg (hbound (not_not.mp ha))] at herror
        cases herror

/-- Zones that end abort nowhere. -/
lemma neverAborts_of (hc : heap.Created) (h : ∀ z ∈ bus.zones, ¬ z.Endless heap) :
    NeverAborts heap bus :=
  neverAborts_inside fun z _ hz => inZone_inside hc (findZone_inZone hz) (h z (List.mem_of_find?_eq_some hz))

/-- At most one zone contains the address 0. -/
def ZeroOnce (heap : Heap) (bus : Bus) : Prop :=
  ∀ z ∈ bus.zones, ∀ z' ∈ bus.zones, inZone heap z 0 = true → inZone heap z' 0 = true → z = z'

/-- The zones after a call. -/
lemma attach_mem (heap : Heap) (bus : Bus) (r : Request) :
    attach heap bus r = bus ∨ (∀ z ∈ bus.zones, inZone heap z r.from = false) ∧
      ∀ z ∈ (attach heap bus r).zones, z = r.zone ∨ z ∈ bus.zones := by
  unfold attach busMemoryAttach
  by_cases hany : bus.zones.any fun zone => inZone heap zone r.from
  · rw [if_pos hany]
    exact .inl rfl
  · rw [if_neg hany]
    refine .inr ⟨fun z hz => ?_, fun z hz => ?_⟩
    · exact eq_false_of_ne_true fun hin => hany (List.any_eq_true.mpr ⟨z, hz, hin⟩)
    · cases List.mem_append.mp (List.mem_of_mem_take hz) with
      | inl h => exact .inr ((List.takeWhile_prefix _).subset h)
      | inr h =>
        cases List.mem_cons.mp h with
        | inl h => exact .inl h
        | inr h => exact .inr ((List.dropWhile_suffix _).subset h)

/-- A zone that contains 0 begins there, so no other is attached. -/
lemma attach_zeroOnce (h : ZeroOnce heap bus) (r : Request) : ZeroOnce heap (attach heap bus r) := by
  have hbase : inZone heap r.zone 0 = true → r.from = 0 := by
    intro hin
    have hle : r.from ≤ 0 := of_decide_eq_true (Bool.and_eq_true_iff.mp hin).1
    exact BitVec.le_zero_iff.mp hle
  rcases attach_mem heap bus r with he | ⟨hfree, hmem⟩
  · rw [he]
    exact h
  · have hother : inZone heap r.zone 0 = true → ∀ z ∈ bus.zones, inZone heap z 0 ≠ true := by
      intro hin z hz hzin
      have hno := hfree z hz
      rw [hbase hin] at hno
      exact Bool.false_ne_true (hno.symm.trans hzin)
    intro z hz z' hz' hin hin'
    rcases hmem z hz with rfl | hold <;> rcases hmem z' hz' with rfl | hold'
    · rfl
    · exact absurd hin' (hother hin z' hold')
    · exact absurd hin (hother hin' z hold)
    · exact h z hold z' hold' hin hin'

/-- Calls leave 0 in one zone at most. -/
lemma attachAll_zeroOnce (h : ZeroOnce heap bus) : ZeroOnce heap (attachAll heap bus rs) := by
  induction rs generalizing bus with
  | nil => exact h
  | cons r rs ih => exact ih (attach_zeroOnce h r)

/-- A word at 0 is out of bounds in a zone of no size. -/
lemma endless_aborts (h : ZeroOnce heap bus) (hz : z ∈ bus.zones) (he : z.Endless heap) :
    busWordRead heap bus 0 = none := by
  have hin : inZone heap z 0 = true := by
    obtain ⟨hfrom, hsize⟩ := he
    rw [inZone, memoryMaxAddress, hfrom, hsize]
    decide
  cases hfind : findZone heap bus 0 with
  | none => exact absurd hin (List.find?_eq_none.mp hfind z hz)
  | some z' =>
    have hz' := h z' (List.mem_of_find?_eq_some hfind) z hz (findZone_inZone hfind) hin
    subst hz'
    rw [busWordRead, hfind]
    dsimp only
    rw [memoryWordGet, translate, he.1, he.2]
    rfl

/-- **The bus aborts** in the runs that attach a memory of no size at 0, and in no others. -/
theorem neverAborts_iff (hc : heap.Created) :
    NeverAborts heap (attachAll heap busCreate rs) ↔
      ∀ z ∈ (attachAll heap busCreate rs).zones, ¬ z.Endless heap := by
  constructor
  · intro h z hz he
    have hzero : ZeroOnce heap (attachAll heap busCreate rs) :=
      attachAll_zeroOnce fun _ hz => absurd hz List.not_mem_nil
    exact (h 0 0).1 (endless_aborts hzero hz he)
  · exact neverAborts_of hc

/-- A memory of one word at 0. -/
theorem neverAborts_word : NeverAborts (fun _ => memoryCreate (fun _ => 0) 4 .rw)
    (attachAll (fun _ => memoryCreate (fun _ => 0) 4 .rw) busCreate [⟨0, 0, "RAM"⟩]) := by
  refine (@neverAborts_iff (fun _ => memoryCreate (fun _ => 0) 4 .rw) _ fun _ => ⟨4, rfl⟩).mpr ?_
  intro z hz he
  cases List.mem_singleton.mp hz
  exact absurd he.2 (by decide)

/-- A memory of no bytes at 0. -/
theorem not_neverAborts_empty : ¬ ∀ (heap : Heap) (rs : List Request), heap.Created →
    NeverAborts heap (attachAll heap busCreate rs) := by
  intro h
  have hempty := h (fun _ => memoryCreate (fun _ => 0) 0 .rw) [⟨0, 0, "RAM"⟩] fun _ => ⟨0, rfl⟩
  exact (hempty 0 0).1 rfl

end Bus

end Thorium.Vm
