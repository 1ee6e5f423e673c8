import Thorium.Vm.Main
import Thorium.Vm.MemoryMap

/-!
# What a load leaves in the memories

`load_file` stores the whole words of a file one after another (`storeWords`) until the bus refuses one. The
bytes after the last whole word are dropped without an error, and the address of a word wraps around at the
end of the ROM. `loadFile_exact_iff` says for which files the two loads of `main` are exact.
-/

namespace Thorium.Vm

/-! ### The words of a file -/

/-- The whole words of a file, most significant byte first. -/
def fileWords : List Byte → List Word
  | b0 :: b1 :: b2 :: b3 :: bytes => ByteOrder.big.ofBytes b0 b1 b2 b3 :: fileWords bytes
  | _ => []

/-- A file has a word for every four bytes. -/
lemma length_fileWords (bytes : List Byte) : (fileWords bytes).length = bytes.length / 4 := by
  induction bytes using fileWords.induct with
  | case1 b0 b1 b2 b3 bytes ih =>
    rw [fileWords, List.length_cons, ih]
    simp only [List.length_cons]
    omega
  | case2 bytes hshort =>
    match bytes with
    | [] | [_] | [_, _] | [_, _, _] => simp [fileWords]
    | b0 :: b1 :: b2 :: b3 :: bytes => exact (hshort b0 b1 b2 b3 bytes rfl).elim

/-- The bytes of a word, by their number. -/
lemma byteAt_big_ofBytes {b0 b1 b2 b3 : Byte} {i : Nat} (hi : i < [b0, b1, b2, b3].length) :
    ByteOrder.big.byteAt (ByteOrder.big.ofBytes b0 b1 b2 b3) i = [b0, b1, b2, b3][i] := by
  obtain ⟨h0, h1, h2, h3⟩ := ByteOrder.byteAt_ofBytes .big b0 b1 b2 b3
  match i, hi with
  | 0, _ => exact h0
  | 1, _ => exact h1
  | 2, _ => exact h2
  | 3, _ => exact h3

/-- A byte of the file is in the word of its number. -/
lemma fileWords_byte {bytes : List Byte} {i : Nat} (h : i < bytes.length) {w : Word}
    (hw : (fileWords bytes)[i / 4]? = some w) : ByteOrder.big.byteAt w (i % 4) = bytes[i] := by
  induction bytes using fileWords.induct generalizing i with
  | case1 b0 b1 b2 b3 bytes ih =>
    rw [fileWords] at hw
    by_cases hi : i < 4
    · rw [Nat.div_eq_of_lt hi] at hw
      cases hw
      rw [Nat.mod_eq_of_lt hi, byteAt_big_ofBytes hi]
      exact (@List.getElem_append_left _ i [b0, b1, b2, b3] bytes hi _).symm
    · obtain ⟨j, rfl⟩ := Nat.exists_eq_add_of_le (Nat.le_of_not_lt hi)
      rw [Nat.add_div_left j (by decide), List.getElem?_cons_succ] at hw
      rw [Nat.add_mod_left, ih (by simp only [List.length_cons] at h; omega) hw]
      simp only [Nat.add_comm 4 j, List.getElem_cons_succ]
  | case2 bytes hshort =>
    rw [fileWords] at hw
    · cases hw
    · exact hshort

/-! ### Storing words -/

/-- Words stored one after another, until one is refused. -/
def storeWords (heap : Heap) (bus : Bus) : Addr → List Word → Option (Bool × Heap)
  | _, [] => some (true, heap)
  | a, w :: ws =>
    match busWordWrite heap bus a w with
    | some (.ok (heap, _)) => storeWords heap bus (a + wordSize) ws
    | some (.error _) => some (false, heap)
    | none => none

section
variable {heap heap' : Heap} {bus : Bus} {a b : Addr}

/-- The loop of `load_file` stores the words of the file. -/
lemma loadWords_eq [Host] (heap : Heap) (bus : Bus) (a n : Addr) (bytes : List Byte) :
    loadWords heap bus a n bytes = storeWords heap bus (a + n * wordSize) (fileWords bytes) := by
  induction heap, n, bytes using loadWords.induct bus a with
  | case1 heap n b0 b1 b2 b3 bytes word heap1 conds hw ih =>
    have hnext : a + (n + 1) * wordSize = a + n * wordSize + wordSize := by
      unfold wordSize
      bv_omega
    have hbig := hw
    rw [vtoh, ByteOrder.ntoh_ofBytes] at hbig
    rw [loadWords, hw, fileWords, storeWords, hbig]
    dsimp only
    rw [ih, hnext]
  | case2 heap n b0 b1 b2 b3 bytes word error hw =>
    have hbig := hw
    rw [vtoh, ByteOrder.ntoh_ofBytes] at hbig
    rw [loadWords, hw, fileWords, storeWords, hbig]
  | case3 heap n b0 b1 b2 b3 bytes word hw =>
    have hbig := hw
    rw [vtoh, ByteOrder.ntoh_ofBytes] at hbig
    rw [loadWords, hw, fileWords, storeWords, hbig]
  | case4 bytes heap n hshort =>
    rw [fileWords, storeWords, loadWords]
    · exact hshort
    · exact hshort

/-- The address `k` words further. -/
def wordOffset (a : Addr) (k : Nat) : Addr := a + BitVec.ofNat 32 (4 * k)

/-- The words behind the first. -/
lemma wordOffset_succ (a : Addr) (k : Nat) : wordOffset (a + wordSize) k = wordOffset a (k + 1) := by
  unfold wordOffset wordSize
  bv_omega

/-- The first word. -/
lemma wordOffset_zero (a : Addr) : wordOffset a 0 = a := BitVec.add_zero a

/-- Addresses of words wrap around. -/
lemma wordOffset_toNat (a : Addr) (k : Nat) : (wordOffset a k).toNat = (a.toNat + 4 * k % 2 ^ 32) % 2 ^ 32 := by
  rw [wordOffset, BitVec.toNat_add, BitVec.toNat_ofNat]

/-- Fewer than 2^30 words have different addresses. -/
lemma wordOffset_inj {j k : Nat} (hj : j < 2 ^ 30) (hk : k < 2 ^ 30)
    (h : wordOffset a j = wordOffset a k) : j = k := by
  unfold wordOffset at h
  have h' := congrArg BitVec.toNat ((BitVec.add_right_inj a).mp h)
  rw [BitVec.toNat_ofNat, BitVec.toNat_ofNat] at h'
  omega

/-- What becomes of a write that succeeds, or is refused. -/
def Accepts (heap : Heap) (bus : Bus) (a : Addr) : Prop := writeStatus heap bus a = some (.ok ())

/-- The bus refuses a word at an address. -/
def Refuses (heap : Heap) (bus : Bus) (a : Addr) : Prop := ∃ e, writeStatus heap bus a = some (.error e)

/-- Stores keep what the bus accepts. -/
lemma Accepts.shape (h : Accepts heap bus a) (hs : Shape heap heap') : Accepts heap' bus a :=
  (writeStatus_shape hs a).trans h

/-- Stores keep what the bus refuses. -/
lemma Refuses.shape (h : Refuses heap bus a) (hs : Shape heap heap') : Refuses heap' bus a := by
  obtain ⟨e, he⟩ := h
  exact ⟨e, (writeStatus_shape hs a).trans he⟩

/-- What it accepts does not depend on the word. -/
lemma Accepts.write (h : Accepts heap bus a) (w : Word) :
    ∃ heap' conds, busWordWrite heap bus a w = some (.ok (heap', conds)) := by
  have hst := (@busWordWrite_status _ _ bus (.refl heap) a w).trans h
  rcases hw : busWordWrite heap bus a w with _ | (e | ⟨heap', conds⟩)
  · rw [hw] at hst
    cases hst
  · rw [hw] at hst
    cases hst
  · exact ⟨heap', conds, rfl⟩

/-- What it refuses does not depend on the word either. -/
lemma Refuses.write (h : Refuses heap bus a) (w : Word) : ∃ e, busWordWrite heap bus a w = some (.error e) := by
  obtain ⟨e, he⟩ := h
  have hst := (@busWordWrite_status _ _ bus (.refl heap) a w).trans he
  rcases hw : busWordWrite heap bus a w with _ | (e | ⟨heap', conds⟩)
  · rw [hw] at hst
    cases hst
  · exact ⟨e, rfl⟩
  · rw [hw] at hst
    cases hst

/-- What words that have been stored leave. -/
structure Stored (heap heap' : Heap) (bus : Bus) (a : Addr) (ws : List Word) : Prop where
  shape : Shape heap heap'
  words : ws.length ≤ 2 ^ 30 → ∀ k w, ws[k]? = some w → busWordRead heap' bus (wordOffset a k) = some (.ok w)
  others : ∀ b, (∀ k < ws.length, b ≠ wordOffset a k) → busWordRead heap' bus b = busWordRead heap bus b

/-- Words are stored when the bus accepts all of them. -/
lemma storeWords_stored {ws : List Word} (hd : bus.Distinct)
    (h : ∀ k < ws.length, Accepts heap bus (wordOffset a k)) :
    ∃ heap', storeWords heap bus a ws = some (true, heap') ∧ Stored heap heap' bus a ws := by
  induction ws generalizing heap a with
  | nil => exact ⟨heap, rfl, .refl heap, (fun _ _ _ h => nomatch h), fun _ _ => rfl⟩
  | cons w ws ih =>
    have hfirst : Accepts heap bus a := wordOffset_zero a ▸ h 0 (Nat.zero_lt_succ _)
    obtain ⟨heap1, conds, hw⟩ := hfirst.write w
    have hshape := busWordWrite_shape hw
    obtain ⟨heap', hrun, hstored⟩ := @ih heap1 (a + wordSize) fun k hk =>
      wordOffset_succ a k ▸ (h (k + 1) (Nat.succ_lt_succ hk)).shape hshape
    refine ⟨heap', ?_, hshape.trans hstored.shape, fun hlen k v hk => ?_, fun b hb => ?_⟩
    · rw [storeWords, hw]
      exact hrun
    · cases k with
      | zero =>
        cases hk
        rw [wordOffset_zero, hstored.others, busWordRead_write hw]
        -- No later word has the address of the first.
        intro k hk he
        rw [wordOffset_succ] at he
        have hinj := @wordOffset_inj a 0 (k + 1) (by decide) (Nat.lt_of_lt_of_le (Nat.succ_lt_succ hk) hlen)
        cases hinj ((wordOffset_zero a).trans he)
      | succ k =>
        rw [← wordOffset_succ]
        exact hstored.words (Nat.le_of_succ_le hlen) k v hk
    · rw [hstored.others b fun k hk => wordOffset_succ a k ▸ hb (k + 1) (Nat.succ_lt_succ hk),
        busWordRead_write_ne hd hw (wordOffset_zero a ▸ hb 0 (Nat.zero_lt_succ _))]

/-- The first word that is refused ends it. -/
lemma storeWords_refused {ws : List Word} {n : Nat} (h : ∀ k < n, Accepts heap bus (wordOffset a k))
    (hn : Refuses heap bus (wordOffset a n)) (hlt : n < ws.length) :
    ∃ heap', storeWords heap bus a ws = some (false, heap') := by
  induction ws generalizing heap a n with
  | nil => cases hlt
  | cons w ws ih =>
    cases n with
    | zero =>
      obtain ⟨e, he⟩ := (wordOffset_zero a ▸ hn).write w
      refine ⟨heap, ?_⟩
      rw [storeWords, he]
    | succ n =>
      have hfirst : Accepts heap bus a := wordOffset_zero a ▸ h 0 (Nat.zero_lt_succ _)
      obtain ⟨heap1, conds, hw⟩ := hfirst.write w
      have hshape := busWordWrite_shape hw
      obtain ⟨heap', hrun⟩ := @ih heap1 (a + wordSize) n
        (fun k hk => wordOffset_succ a k ▸ (h (k + 1) (Nat.succ_lt_succ hk)).shape hshape)
        (wordOffset_succ a n ▸ hn.shape hshape) (Nat.lt_of_succ_lt_succ hlt)
      refine ⟨heap', ?_⟩
      rw [storeWords, hw]
      exact hrun

end

/-! ### The bytes of the machine -/

/-- The byte at an address, most significant byte first within each word. -/
def busByteRead (heap : Heap) (bus : Bus) (a : Addr) : Option Byte :=
  match busWordRead heap bus (a - a % wordSize) with
  | some (.ok w) => some (ByteOrder.big.byteAt w (a % wordSize).toNat)
  | _ => none

/-- The byte `i` of a region that begins with a word. -/
def byteOffset (a : Addr) (i : Nat) : Addr := a + BitVec.ofNat 32 i

section
variable {heap heap' : Heap} {bus : Bus} {a : Addr} {bytes : List Byte} {i : Nat}

/-- A byte of a file is in its word. -/
lemma byteOffset_word (ha : a % wordSize = 0) (i : Nat) :
    byteOffset a i - byteOffset a i % wordSize = wordOffset a (i / 4) ∧
      (byteOffset a i % wordSize).toNat = i % 4 := by
  have ha' : a.toNat % 4 = 0 := congrArg BitVec.toNat ha
  have hmod : (byteOffset a i % wordSize).toNat = i % 4 := by
    show (a.toNat + i % 2 ^ 32) % 2 ^ 32 % 4 = i % 4
    omega
  refine ⟨?_, hmod⟩
  apply BitVec.eq_of_toNat_eq
  have hsum : (byteOffset a i).toNat = (a.toNat + i % 2 ^ 32) % 2 ^ 32 := rfl
  have hword : (wordOffset a (i / 4)).toNat = (a.toNat + 4 * (i / 4) % 2 ^ 32) % 2 ^ 32 := rfl
  rw [BitVec.toNat_sub, hmod, hsum, hword]
  have hlt := a.isLt
  omega

/-- A byte is read from its word, most significant first. -/
lemma busByteRead_offset (ha : a % wordSize = 0) (heap : Heap) (bus : Bus) (i : Nat) :
    busByteRead heap bus (byteOffset a i) =
      match busWordRead heap bus (wordOffset a (i / 4)) with
      | some (.ok w) => some (ByteOrder.big.byteAt w (i % 4))
      | _ => none := by
  obtain ⟨hword, hmod⟩ := byteOffset_word ha i
  rw [busByteRead, hword, hmod]

/-- A byte in a whole word of the file. -/
lemma Stored.byte (h : Stored heap heap' bus a (fileWords bytes)) (ha : a % wordSize = 0)
    (hlen : (fileWords bytes).length ≤ 2 ^ 30) (hi : i < bytes.length) (hin : i / 4 < (fileWords bytes).length) :
    busByteRead heap' bus (byteOffset a i) = some bytes[i] := by
  have hget := List.getElem?_eq_getElem hin
  rw [busByteRead_offset ha, h.words hlen _ _ hget]
  exact congrArg some (fileWords_byte hi hget)

/-- A byte behind the whole words. -/
lemma Stored.rest (h : Stored heap heap' bus a (fileWords bytes)) (ha : a % wordSize = 0)
    (hi : i / 4 < 2 ^ 30) (hout : (fileWords bytes).length ≤ i / 4) :
    busByteRead heap' bus (byteOffset a i) = busByteRead heap bus (byteOffset a i) := by
  rw [busByteRead_offset ha, busByteRead_offset ha, h.others]
  intro k hk he
  have hinj := wordOffset_inj hi (Nat.lt_of_lt_of_le (Nat.lt_of_lt_of_le hk hout) (Nat.le_of_lt hi)) he
  omega

/-- Words that do not wrap around are not below the first. -/
lemma Stored.below {ws : List Word} (h : Stored heap heap' bus a ws) (hend : a.toNat + 4 * ws.length ≤ 2 ^ 32)
    {b : Addr} (hb : b < a) : busWordRead heap' bus b = busWordRead heap bus b := by
  apply h.others
  intro k hk he
  unfold wordOffset at he
  bv_omega

end

/-! ### The loads of `main` -/

section
variable {heap heap' : Heap} {bus : Bus} {ramSize : Addr} {video : Bool} {a : Addr}

/-- Whether a zone wraps around depends on the sizes only. -/
lemma Zone.proper_sizes (h : ∀ r, (heap' r).size = (heap r).size) (z : Zone) : z.Proper heap' ↔ z.Proper heap := by
  have hsize : z.size heap' = z.size heap := congrArg BitVec.toNat (h z.memory)
  constructor
  · intro hp
    exact ⟨hsize ▸ hp.pos, hsize ▸ hp.noWrap⟩
  · intro hp
    exact ⟨hsize.symm ▸ hp.pos, hsize.symm ▸ hp.noWrap⟩

/-- Only the sizes matter. -/
lemma Mapped.sizes (h : Mapped heap bus ramSize video) (hs : ∀ r, (heap' r).size = (heap r).size) :
    Mapped heap' bus ramSize video where
  zones := h.zones
  proper z hz := (Zone.proper_sizes hs z).mpr (h.proper z hz)
  apart := by
    apply h.apart.imp
    intro z z' hapart b hb
    unfold Zone.Covers Zone.size at hb
    rw [hs, hs] at hb
    exact hapart b hb
  sized d hd := (hs d.memory).trans (h.sized d hd)
  ram := (hs ramRef).trans h.ram

/-- The addresses of a writable memory are accepted. -/
lemma Mapped.accepts (h : Mapped heap bus ramSize video) {z : Zone} (hz : z ∈ bus.zones)
    (hmode : (heap z.memory).mode = .rw) {k : Nat} (hk : 4 * k < (heap z.memory).size.toNat) :
    Accepts heap bus (wordOffset z.from k) := by
  have hsize := (heap z.memory).size.isLt
  have hoffset : (BitVec.ofNat 32 (4 * k)).toNat = 4 * k := Nat.mod_eq_of_lt (by omega)
  have haligned : BitVec.ofNat 32 (4 * k) % wordSize = 0 := by
    apply BitVec.eq_of_toNat_eq
    show (BitVec.ofNat 32 (4 * k)).toNat % 4 = 0
    rw [hoffset]
    omega
  obtain ⟨hc, htr, hfit⟩ := zone_word h.proper hz (h.words hz) haligned (by rwa [BitVec.lt_def, hoffset])
  rw [Accepts, writeStatus, busWordWrite, wordOffset, findZone_covers h.proper h.apart hz hc]
  dsimp only
  rw [htr, memoryWordSet, if_neg (not_not.mpr hmode), if_neg (not_not.mpr haligned), if_neg hfit]
  rfl

/-- No zone is between the RAM and the devices. -/
lemma Mapped.gap (h : Mapped heap bus ramSize video) (hlow : (roundUp ramSize).toNat ≤ a.toNat)
    (hhigh : a < keyboardInAddress) : findZone heap bus a = none := by
  apply List.find?_eq_none.mpr
  intro z hz hin
  obtain ⟨hfrom, hend⟩ := (inZone_iff (h.proper z hz)).mp hin
  cases List.mem_cons.mp (h.zones.mem_iff.mp hz) with
  | inl e =>
    rw [e] at hend
    have hsize : ramZone.size heap = (roundUp ramSize).toNat := congrArg BitVec.toNat h.ram
    have hzero : ramZone.from.toNat = 0 := rfl
    omega
  | inr hz =>
    obtain ⟨d, hd, hfrom', _⟩ := zone_region z hz
    have hdevices : ∀ d ∈ deviceRegions video ++ [romRegion], keyboardInAddress ≤ d.from := by
      cases video <;> decide
    have hle := hdevices d hd
    rw [hfrom'] at hfrom
    exact absurd hhigh (Nat.not_lt.mpr (Nat.le_trans hle hfrom))

/-- An address without a zone is refused. -/
lemma refuses_none (h : findZone heap bus a = none) : Refuses heap bus a := by
  refine ⟨.invalidAddress, ?_⟩
  rw [writeStatus, busWordWrite, h]
  rfl

/-- Nothing is read there. -/
lemma busWordRead_none (h : findZone heap bus a = none) :
    busWordRead heap bus a = some (.error .invalidAddress) := by
  rw [busWordRead, h]

end

/-- The two loads of `main`. -/
inductive Load where
  | image
  | rom
  deriving DecidableEq, Repr

/-- The address of the first byte. -/
def Load.from : Load → Addr
  | image => stackSize
  | rom => romAddress

/-- The memories as `main` gives them to the load. -/
def Load.heap (heap : Heap) : Load → Heap
  | image => heap
  | rom => memoryModeSet heap romRef .rw

/-- The bytes from the first address to the end of the RAM, or of the ROM. -/
def Load.room (ramSize : Addr) : Load → Nat
  | image => (roundUp ramSize).toNat - stackSize.toNat
  | rom => romSize.toNat

/-- The bytes that the bus accepts. The RAM is behind the ROM. -/
def Load.accepted (ramSize : Addr) : Load → Nat
  | image => (roundUp ramSize).toNat - stackSize.toNat
  | rom => romSize.toNat + (roundUp ramSize).toNat

/-- The result of a load is the file, or the file is refused. -/
structure Exact (heap heap' : Heap) (bus : Bus) (load : Load) (ramSize : Addr) (bytes : List Byte) (ok : Bool) :
    Prop where
  loaded : ok = true → ∀ (i : Nat) (hi : i < bytes.length),
    load.from.toNat + i < 2 ^ 32 ∧ busByteRead heap' bus (byteOffset load.from i) = some bytes[i]
  below : ok = true → ∀ a < load.from, busWordRead heap' bus a = busWordRead (load.heap heap) bus a
  refused : ¬ bytes.length ≤ load.room ramSize → ok = false

/-- A load that ends so. -/
def LoadsExactly [Host] (heap : Heap) (bus : Bus) (load : Load) (ramSize : Addr) (bytes : List Byte) : Prop :=
  ∃ ok heap', loadFile (load.heap heap) bus (.content bytes) load.from = some (ok, heap') ∧
    Exact heap heap' bus load ramSize bytes ok

/-- The bytes after the last whole word are what the memory holds anyway, or the bus refuses a word of the
file. -/
def Loadable (heap : Heap) (bus : Bus) (load : Load) (ramSize : Addr) (bytes : List Byte) : Prop :=
  (bytes.length ≤ load.room ramSize ∧ ∀ (i : Nat) (hi : i < bytes.length), 4 * (bytes.length / 4) ≤ i →
    busByteRead (load.heap heap) bus (byteOffset load.from i) = some bytes[i]) ∨
    load.accepted ramSize < 4 * (bytes.length / 4)

section
variable {heap heap' : Heap} {bus : Bus} {ramSize : Addr} {video : Bool} {vm : VM} {load : Load}
variable {bytes : List Byte}

/-- What is known of the machine when `main` loads a file. -/
structure Loading (heap : Heap) (bus : Bus) (load : Load) (ramSize : Addr) (video : Bool) : Prop where
  mapped : Mapped (load.heap heap) bus ramSize video
  ramMode : (load.heap heap ramRef).mode = .rw
  romMode : load = .rom → (load.heap heap romRef).mode = .rw
  size : (roundUp ramSize).toNat % 4 = 0 ∧ roundUp ramSize < keyboardInAddress

/-- The places of the stack, the ROM and the devices, as numbers. -/
lemma places_eq : stackSize.toNat = 4096 ∧ romSize.toNat = 33554432 ∧ romAddress.toNat = 4261412864 ∧
    keyboardInAddress.toNat = 4260899796 := by decide

/-- A mode does not change the sizes. -/
lemma memoryModeSet_size (heap : Heap) (r r' : Ref) (mode : MemMode) :
    (memoryModeSet heap r mode r').size = (heap r').size := by
  unfold memoryModeSet Heap.set
  split
  · rename_i e
    rw [e]
  · rfl

/-- A machine that `vm_create` has made is ready to load. -/
lemma loading_of {malloc : Ref → Nat → Word} (hvm : vmCreate malloc ramSize video = some vm) (hpos : 0 < ramSize)
    (hle : ramSize ≤ keyboardInAddress - wordSize) (hshape : Shape vm.heap heap) (load : Load) :
    Loading heap vm.bus load ramSize video := by
  have hkeyboard : (keyboardInAddress - wordSize).toNat = 4260899792 := by decide
  have hsize : ramSize.toNat ≤ 4260899792 := hkeyboard ▸ hle
  have hround := roundUp_toNat ramSize
  have hmapped := (vmCreate_mapped hvm hpos (Nat.le_trans hsize (by decide))).sizes fun r => (hshape r).1
  obtain ⟨vm', _, hvm', _, _, _, hram, _⟩ := vmCreate_ok malloc ramSize video
  cases hvm.symm.trans hvm'
  have hmode : (heap ramRef).mode = .rw := (hshape ramRef).2.trans (congrArg Memory.mode hram)
  have hgap : (roundUp ramSize).toNat % 4 = 0 ∧ roundUp ramSize < keyboardInAddress := by
    refine ⟨by omega, ?_⟩
    rw [BitVec.lt_def, places_eq.2.2.2]
    omega
  cases load with
  | image => exact ⟨hmapped, hmode, nofun, hgap⟩
  | rom =>
    refine ⟨hmapped.sizes (memoryModeSet_size heap romRef · .rw), ?_, fun _ => ?_, hgap⟩
    · exact (congrArg Memory.mode (if_neg (by decide))).trans hmode
    · exact congrArg Memory.mode (if_pos rfl)

/-- The RAM is accepted. -/
lemma Loading.ram (h : Loading heap bus load ramSize video) {k : Nat} (hk : 4 * k < (roundUp ramSize).toNat) :
    Accepts (load.heap heap) bus (wordOffset 0 k) := by
  have hsize : (load.heap heap ramZone.memory).size = roundUp ramSize := h.mapped.ram
  exact h.mapped.accepts (h.mapped.zones.mem_iff.mpr List.mem_cons_self) h.ramMode (hsize ▸ hk)

/-- The words that the load stores. -/
lemma Loading.accepts (h : Loading heap bus load ramSize video) {k : Nat} (hk : 4 * k < load.accepted ramSize) :
    Accepts (load.heap heap) bus (wordOffset load.from k) := by
  cases load with
  | image =>
    have hsplit : wordOffset stackSize k = wordOffset 0 (1024 + k) := by
      unfold wordOffset stackSize stackLength wordSize
      bv_omega
    rw [Load.from, hsplit]
    rw [Load.accepted, places_eq.1] at hk
    exact h.ram (by omega)
  | rom =>
    rw [Load.accepted, places_eq.2.1] at hk
    by_cases hlow : 4 * k < 33554432
    · have hsize : (Load.heap heap .rom romZone.memory).size = romSize := h.mapped.rom
      apply h.mapped.accepts (z := romZone)
      · apply h.mapped.zones.mem_iff.mpr
        exact List.mem_cons_of_mem _ (List.mem_append_right _ List.mem_cons_self)
      · exact h.romMode rfl
      · rw [hsize, places_eq.2.1]
        exact hlow
    · -- The address wraps around, into the RAM.
      obtain ⟨j, rfl⟩ : ∃ j, k = 8388608 + j := Nat.exists_eq_add_of_le (by omega)
      have hwrap : wordOffset romAddress (8388608 + j) = wordOffset 0 j := by
        unfold wordOffset romAddress romSize
        bv_omega
      rw [Load.from, hwrap]
      exact h.ram (by omega)

/-- The first address behind them is in no zone. -/
lemma Loading.unmapped (h : Loading heap bus load ramSize video) :
    findZone (load.heap heap) bus (wordOffset load.from (load.accepted ramSize / 4)) = none := by
  obtain ⟨hstack, hrom, hromAddress, hkeyboard⟩ := places_eq
  obtain ⟨hwords, hgap⟩ := h.size
  rw [BitVec.lt_def, hkeyboard] at hgap
  cases load with
  | image =>
    have hend := wordOffset_toNat stackSize (((roundUp ramSize).toNat - 4096) / 4)
    rw [Load.from, Load.accepted, hstack]
    rw [hstack] at hend
    apply h.mapped.gap
    · omega
    · rw [BitVec.lt_def, hkeyboard]
      omega
  | rom =>
    have hend := wordOffset_toNat romAddress ((33554432 + (roundUp ramSize).toNat) / 4)
    rw [Load.from, Load.accepted, hrom]
    rw [hromAddress] at hend
    apply h.mapped.gap
    · omega
    · rw [BitVec.lt_def, hkeyboard]
      omega

/-- The bus accepts the whole room of a load, and whole words. -/
lemma Loading.accepted_lt (h : Loading heap bus load ramSize video) :
    load.room ramSize ≤ load.accepted ramSize ∧ load.accepted ramSize % 4 = 0 ∧ load.room ramSize % 4 = 0 ∧
      load.accepted ramSize < 2 ^ 32 := by
  obtain ⟨hstack, hrom, _, hkeyboard⟩ := places_eq
  obtain ⟨hwords, hgap⟩ := h.size
  rw [BitVec.lt_def, hkeyboard] at hgap
  cases load with
  | image =>
    rw [Load.room, Load.accepted, hstack]
    omega
  | rom =>
    rw [Load.room, Load.accepted, hrom]
    omega

/-- A load begins at a word. -/
lemma Load.from_aligned (load : Load) : load.from % wordSize = 0 := by cases load <;> decide

/-- The byte behind the room of a load wraps around, or is in no zone. -/
lemma Loading.not_loaded (h : Loading heap bus load ramSize video) (hshape : Shape (load.heap heap) heap')
    {b : Byte} :
    ¬ (load.from.toNat + load.room ramSize < 2 ^ 32 ∧
      busByteRead heap' bus (byteOffset load.from (load.room ramSize)) = some b) := by
  rintro ⟨hlt, hread⟩
  cases load with
  | image =>
    have hnone : busWordRead heap' bus _ = _ := busWordRead_none ((findZone_shape hshape bus _).trans h.unmapped)
    have hroom : Load.room ramSize .image = Load.accepted ramSize .image := rfl
    rw [busByteRead_offset (Load.from_aligned .image), hroom, hnone] at hread
    cases hread
  | rom =>
    rw [Load.from, Load.room, places_eq.2.1, places_eq.2.2.1] at hlt
    exact absurd hlt (by decide)

variable [Host]

/-- A file is loaded word by word. -/
lemma loadFile_content (heap : Heap) (bus : Bus) (a : Addr) (bytes : List Byte) :
    loadFile heap bus (.content bytes) a = storeWords heap bus a (fileWords bytes) := by
  rw [loadFile, loadWords_eq]
  congr 1
  exact BitVec.add_zero a

/-- A file of words that the bus accepts. -/
lemma Loading.stores (h : Loading heap bus load ramSize video)
    (hlen : 4 * (bytes.length / 4) ≤ load.accepted ramSize) :
    ∃ heap', loadFile (load.heap heap) bus (.content bytes) load.from = some (true, heap') ∧
      Stored (load.heap heap) heap' bus load.from (fileWords bytes) := by
  rw [loadFile_content]
  apply storeWords_stored h.mapped.distinct
  intro k hk
  rw [length_fileWords] at hk
  exact h.accepts (by omega)

/-- A file with more words. -/
lemma Loading.refuses (h : Loading heap bus load ramSize video)
    (hlen : load.accepted ramSize < 4 * (bytes.length / 4)) :
    ∃ heap', loadFile (load.heap heap) bus (.content bytes) load.from = some (false, heap') := by
  obtain ⟨_, hwords, _⟩ := h.accepted_lt
  rw [loadFile_content]
  apply storeWords_refused (fun k hk => h.accepts ?_) (refuses_none h.unmapped)
  · rw [length_fileWords]
    omega
  · omega

/-- A load that fits and leaves no byte behind. -/
lemma Loading.exact_of (h : Loading heap bus load ramSize video) (hlen : bytes.length ≤ load.room ramSize)
    (hrest : ∀ (i : Nat) (hi : i < bytes.length), 4 * (bytes.length / 4) ≤ i →
      busByteRead (load.heap heap) bus (byteOffset load.from i) = some bytes[i]) :
    LoadsExactly heap bus load ramSize bytes := by
  obtain ⟨hroom, _, _, hmax⟩ := h.accepted_lt
  have hcount := length_fileWords bytes
  have hfit : load.from.toNat + load.room ramSize ≤ 2 ^ 32 := by
    obtain ⟨hstack, hrom, hromAddress, hkeyboard⟩ := places_eq
    have hlt := (roundUp ramSize).isLt
    cases load with
    | image =>
      rw [Load.from, Load.room, hstack]
      omega
    | rom =>
      rw [Load.from, Load.room, hrom, hromAddress]
      decide
  obtain ⟨heap', hrun, hstored⟩ := @Loading.stores _ _ _ _ _ bytes _ h (by omega)
  refine ⟨true, heap', hrun, fun _ i hi => ⟨by omega, ?_⟩, fun _ a ha => ?_, fun hnot => absurd hlen hnot⟩
  · by_cases hin : i / 4 < (fileWords bytes).length
    · exact hstored.byte load.from_aligned (by omega) hi hin
    · rw [hstored.rest load.from_aligned (by omega) (Nat.le_of_not_lt hin)]
      exact hrest i hi (by omega)
  · exact hstored.below (by omega) ha

/-- **Loading is exact or refused** when the file, with the bytes after its last whole word, is no longer
than the region and these bytes are what the memory holds anyway, or when the file has more words than the
bus accepts from the address on: for the ROM these are its words and, behind the end of the address space,
those of the RAM. -/
theorem loadFile_exact_iff {malloc : Ref → Nat → Word} (hvm : vmCreate malloc ramSize video = some vm)
    (hpos : 0 < ramSize) (hle : ramSize ≤ keyboardInAddress - wordSize) (hshape : Shape vm.heap heap) (load : Load)
    (bytes : List Byte) :
    LoadsExactly heap vm.bus load ramSize bytes ↔ Loadable heap vm.bus load ramSize bytes := by
  have h := loading_of hvm hpos hle hshape load
  obtain ⟨hroom, hwords, hroomWords, hmax⟩ := h.accepted_lt
  have hcount := length_fileWords bytes
  constructor
  · rintro ⟨ok, heap', hrun, hexact⟩
    by_cases hmany : load.accepted ramSize < 4 * (bytes.length / 4)
    · exact .inr hmany
    · obtain ⟨heap1, hrun1, hstored⟩ := @Loading.stores _ _ _ _ _ bytes _ h (Nat.le_of_not_lt hmany)
      cases hrun.symm.trans hrun1
      have hlen : bytes.length ≤ load.room ramSize := by
        by_contra hlong
        exact h.not_loaded hstored.shape (hexact.loaded rfl _ (Nat.lt_of_not_le hlong))
      refine .inl ⟨hlen, fun i hi hout => ?_⟩
      rw [← hstored.rest load.from_aligned (by omega) (by omega)]
      exact (hexact.loaded rfl i hi).2
  · rintro (⟨hlen, hrest⟩ | hmany)
    · exact h.exact_of hlen hrest
    · obtain ⟨heap', hrun⟩ := h.refuses hmany
      exact ⟨false, heap', hrun, nofun, nofun, fun _ => rfl⟩

end

/-- A file of three bytes is accepted, and the RAM stays as it was. -/
theorem not_loadFile_exact : ∃ vm, vmCreate (fun _ _ => 0) 5120 false = some vm ∧
    ¬ @LoadsExactly ⟨.little⟩ vm.heap vm.bus .image 5120 [7, 7, 7] := by
  obtain ⟨vm, hvm, hmap⟩ := @memoryMap_of 5120 false (fun _ _ => 0) (by decide) (by decide)
  obtain ⟨vm', _, hvm', _, _, _, hram, _⟩ := vmCreate_ok (fun _ _ => 0) 5120 false
  cases hvm.symm.trans hvm'
  refine ⟨vm, hvm, ?_⟩
  rintro ⟨ok, heap', hrun, hexact⟩
  have hloaded : some (true, vm.heap) = some (ok, heap') := hrun
  cases hloaded
  have hbyte := (hexact.loaded rfl 0 (by decide)).2
  have hread := hmap.ram vm.heap (.refl _) 4096 (by decide) (by decide) (by decide)
  have hzero : (vm.heap ramRef).raw ((4096 : Addr) / wordSize).toNat = 0 := by
    rw [hram]
    show (if 1024 < 5120 / 4 then (0 : Word) else 0) = 0
    exact ite_self 0
  rw [busByteRead_offset (Load.from_aligned .image)] at hbyte
  rw [hzero] at hread
  rw [show wordOffset (Load.from .image) (0 / 4) = 4096 by decide, hread] at hbyte
  exact absurd hbyte (by decide)

/-- A file of two words is loaded into the ROM. -/
theorem loadFile_exact_words : ∃ vm, vmCreate (fun _ _ => 0) 5120 false = some vm ∧
    @LoadsExactly ⟨.little⟩ vm.heap vm.bus .rom 5120 [1, 2, 3, 4, 5, 6, 7, 8] := by
  obtain ⟨vm, hvm, _⟩ := @memoryMap_of 5120 false (fun _ _ => 0) (by decide) (by decide)
  have hloadable : Loadable vm.heap vm.bus .rom 5120 [1, 2, 3, 4, 5, 6, 7, 8] :=
    .inl ⟨by decide, fun i hi hrest => absurd hi (Nat.not_lt.mpr hrest)⟩
  exact ⟨vm, hvm, (@loadFile_exact_iff _ _ _ _ ⟨.little⟩ _ hvm (by decide) (by decide) (.refl _) .rom _).mpr hloadable⟩

end Thorium.Vm
