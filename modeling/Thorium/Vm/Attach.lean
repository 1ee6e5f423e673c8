import Thorium.Vm.Zones

/-!
# Attaching

What `bus_memory_attach` does to the zones that are there. A call inserts the new zone before the first zone
that ends above the new base. In increasing order of bases this is the right place unless an empty zone, or
one that wraps around, is at the new base or is the next above it, and no zone is lost unless the count, a
`uint8_t`, wraps around (`Request.Fits`). `attach_exact_iff` says so for whole runs.
-/

namespace Thorium.Vm

variable {heap : Heap} {bus : Bus}

/-- In increasing order of base address. -/
def Increasing (zones : List Zone) : Prop := zones.Pairwise fun z z' => z.from < z'.from

/-- A call that succeeds adds its zone to the zones there are, which stay in order. One that fails changes
nothing. -/
def Request.Exact (heap : Heap) (bus : Bus) (r : Request) : Prop :=
  match busMemoryAttach heap bus r.memory r.from r.name with
  | .ok bus' => bus'.zones.Perm (r.zone :: bus.zones) ∧ Increasing bus'.zones
  | .error _ => attach heap bus r = bus

/-- A zone that does not begin below an address. -/
def notBelow («from» : Addr) (zone : Zone) : Bool := decide («from» ≤ zone.from)

/-- The base is in a zone, and the call is refused. Otherwise the count does not wrap around, and the first zone
that does not begin below the base ends above it. -/
def Request.Fits (heap : Heap) (bus : Bus) (r : Request) : Prop :=
  (bus.zones.any fun zone => inZone heap zone r.from) = true ∨
    bus.zones.length ≠ 255 ∧ ∀ z, bus.zones.find? (notBelow r.from) = some z →
      r.from < memoryMaxAddress (heap z.memory) z.from

/-! ### One call -/

/-- The zones with a new one among them. -/
def Request.inserted (heap : Heap) (zones : List Zone) (r : Request) : List Zone :=
  zones.takeWhile (passes heap r.from) ++ r.zone :: zones.dropWhile (passes heap r.from)

/-- The new zone and the old ones are attached. -/
lemma inserted_perm (zones : List Zone) (r : Request) : (r.inserted heap zones).Perm (r.zone :: zones) := by
  have := @List.perm_middle _ r.zone (zones.takeWhile (passes heap r.from)) (zones.dropWhile (passes heap r.from))
  rwa [List.takeWhile_append_dropWhile] at this

/-- A call on a base in no zone. -/
lemma busMemoryAttach_free {r : Request} (hfree : ∀ z ∈ bus.zones, inZone heap z r.from = false) :
    ∃ bus', busMemoryAttach heap bus r.memory r.from r.name = .ok bus' ∧
      bus'.zones = (r.inserted heap bus.zones).take ((bus.zones.length + 1) % 256) := by
  have hany : ¬ (bus.zones.any fun zone => inZone heap zone r.from) = true := by
    rintro h
    obtain ⟨z, hz, hin⟩ := List.any_eq_true.mp h
    exact Bool.eq_false_iff.mp (hfree z hz) hin
  rw [busMemoryAttach, if_neg hany]
  exact ⟨_, rfl, rfl⟩

/-- Where a zone is inserted. -/
lemma increasing_inserted {r : Request} {zones : List Zone} (hs : Increasing zones)
    (hfree : ∀ z ∈ zones, inZone heap z r.from = false) :
    Increasing (r.inserted heap zones) ↔
      ∀ z, zones.find? (notBelow r.from) = some z → r.from < memoryMaxAddress (heap z.memory) z.from := by
  induction zones with
  | nil => exact ⟨fun _ _ => nofun, fun _ => List.pairwise_singleton _ _⟩
  | cons z zones ih =>
    obtain ⟨hz, hs'⟩ := List.pairwise_cons.mp hs
    obtain ⟨hout, hfree⟩ := List.forall_mem_cons.mp hfree
    have ih := ih hs' hfree
    by_cases hpass : r.from < memoryMaxAddress (heap z.memory) z.from
    · -- The zone ends above the new base and does not contain it, so it begins above it.
      have hp : ¬ passes heap r.from z = true := by
        rw [passes, decide_eq_true hpass]
        nofun
      have habove : r.from < z.from := by
        by_contra hle
        rw [inZone, decide_eq_true (BitVec.not_lt.mp hle), decide_eq_true (BitVec.le_of_lt hpass)] at hout
        cases hout
      rw [Request.inserted, List.takeWhile_cons_of_neg hp, List.dropWhile_cons_of_neg hp,
        @List.find?_cons_of_pos _ (notBelow r.from) _ _ (decide_eq_true (BitVec.le_of_lt habove))]
      constructor
      · rintro _ z' e
        cases e
        exact hpass
      · rintro _
        refine List.pairwise_cons.mpr ⟨?_, hs⟩
        intro z' hz'
        cases List.mem_cons.mp hz' with
        | inl e => exact e ▸ habove
        | inr hz' => exact BitVec.lt_trans habove (hz z' hz')
    · have hp : passes heap r.from z = true := by rw [passes, decide_eq_false hpass]; rfl
      rw [Request.inserted, List.takeWhile_cons_of_pos hp, List.dropWhile_cons_of_pos hp, List.cons_append]
      by_cases hbelow : r.from ≤ z.from
      · rw [@List.find?_cons_of_pos _ (notBelow r.from) _ _ (decide_eq_true hbelow)]
        constructor
        · intro h
          have hlt := (List.pairwise_cons.mp h).1 r.zone (List.mem_append_right _ List.mem_cons_self)
          exact absurd hlt (BitVec.not_lt.mpr hbelow)
        · intro h
          exact absurd (h z rfl) hpass
      · rw [@List.find?_cons_of_neg _ (notBelow r.from) _ _ (fun h => hbelow (of_decide_eq_true h)), ← ih]
        constructor
        · exact fun h => (List.pairwise_cons.mp h).2
        · intro h
          refine List.pairwise_cons.mpr ⟨?_, h⟩
          intro z' hz'
          rcases List.mem_append.mp hz' with hz' | hz'
          · exact hz z' (List.takeWhile_subset _ hz')
          · cases List.mem_cons.mp hz' with
            | inl e => exact e ▸ BitVec.not_le.mp hbelow
            | inr hz' => exact hz z' (List.dropWhile_subset _ hz')

/-- A call on zones in order does exactly what it should when it fits, and only then. -/
lemma exact_iff (hs : Increasing bus.zones) (r : Request) : r.Exact heap bus ↔ r.Fits heap bus := by
  by_cases hany : (bus.zones.any fun zone => inZone heap zone r.from) = true
  · have hrefused : busMemoryAttach heap bus r.memory r.from r.name = .error .zoneOutOfOrder := if_pos hany
    rw [Request.Exact, attach, hrefused]
    exact ⟨fun _ => .inl hany, fun _ => rfl⟩
  · have hfree : ∀ z ∈ bus.zones, inZone heap z r.from = false := fun z hz =>
      Bool.eq_false_iff.mpr fun h => hany (List.any_eq_true.mpr ⟨z, hz, h⟩)
    obtain ⟨bus', hok, hzones⟩ := busMemoryAttach_free hfree
    have hperm := @inserted_perm heap bus.zones r
    rw [Request.Exact, hok, Request.Fits, or_iff_right hany]
    show bus'.zones.Perm _ ∧ Increasing bus'.zones ↔ _
    rw [hzones]
    by_cases hlen : bus.zones.length = 255
    · rw [hlen]
      constructor
      · intro h
        have hnil : (r.zone :: bus.zones).length = 0 := h.1.length_eq.symm
        cases hnil
      · intro h
        exact absurd rfl h.1
    · have hcount := bus.count
      have hmod : (bus.zones.length + 1) % 256 = bus.zones.length + 1 := Nat.mod_eq_of_lt (by omega)
      have htake : List.take (bus.zones.length + 1) (r.inserted heap bus.zones) = r.inserted heap bus.zones :=
        List.take_of_length_le (Nat.le_of_eq hperm.length_eq)
      rw [hmod, htake, increasing_inserted hs hfree]
      exact ⟨fun h => ⟨hlen, h.2⟩, fun h => ⟨hperm, h.2⟩⟩

/-- A call that does what it should keeps the order. -/
lemma Request.Exact.increasing {r : Request} (h : r.Exact heap bus) (hs : Increasing bus.zones) :
    Increasing (attach heap bus r).zones := by
  unfold Request.Exact at h
  unfold attach at h ⊢
  cases hr : busMemoryAttach heap bus r.memory r.from r.name with
  | ok bus' =>
    rw [hr] at h
    exact h.2
  | error e => exact hs

/-! ### Runs -/

/-- A run of calls, from any increasing bus. -/
lemma attachAll_exact_iff {rs : List Request} (hs : Increasing bus.zones) :
    (∀ n (r : Request), rs[n]? = some r → r.Exact heap (attachAll heap bus (rs.take n))) ↔
      ∀ n (r : Request), rs[n]? = some r → r.Fits heap (attachAll heap bus (rs.take n)) := by
  induction rs generalizing bus with
  | nil => exact ⟨fun _ n r h => by simp at h, fun _ n r h => by simp at h⟩
  | cons r rs ih =>
    have hstep := @exact_iff heap bus hs r
    constructor
    · intro h n
      have hr := h 0 r rfl
      cases n with
      | zero =>
        intro r' e
        cases e
        exact hstep.mp hr
      | succ n => exact (ih (hr.increasing hs)).mp (fun m => h (m + 1)) n
    · intro h n
      have hr := hstep.mpr (h 0 r rfl)
      cases n with
      | zero =>
        intro r' e
        cases e
        exact hr
      | succ n => exact (ih (hr.increasing hs)).mpr (fun m => h (m + 1)) n

/-- **Attaching loses no zone**, over a run from a new bus, exactly when each of its calls fits. -/
theorem attach_exact_iff (heap : Heap) (rs : List Request) :
    (∀ n (r : Request), rs[n]? = some r → r.Exact heap (attachAll heap busCreate (rs.take n))) ↔
      ∀ n (r : Request), rs[n]? = some r → r.Fits heap (attachAll heap busCreate (rs.take n)) :=
  attachAll_exact_iff List.Pairwise.nil

/-! ### The 256th zone -/

/-- Calls that attach words one after another. -/
def words (n : Nat) : List Request := (List.range n).map fun i => ⟨0, BitVec.ofNat 32 (4 * i), "Word"⟩

/-- One zone more. -/
lemma words_succ (n : Nat) : words (n + 1) = words n ++ [⟨0, BitVec.ofNat 32 (4 * n), "Word"⟩] := by
  rw [words, List.range_succ, List.map_append]
  rfl

/-- The number of zones. -/
lemma words_length (n : Nat) : (words n).length = n := by rw [words, List.length_map, List.length_range]

/-- A word ends below the next. -/
lemma words_below {n : Nat} {z : Zone} (hn : n < 256) (hz : z ∈ (words n).map Request.zone) :
    memoryMaxAddress (twoMemories z.memory) z.from < BitVec.ofNat 32 (4 * n) := by
  obtain ⟨r, hr, rfl⟩ := List.mem_map.mp hz
  obtain ⟨i, hi, rfl⟩ := List.mem_map.mp hr
  have hi := List.mem_range.mp hi
  have hsize : (twoMemories 0).size = 4 := by decide
  show (twoMemories 0).size + BitVec.ofNat 32 (4 * i) - 1 < _
  rw [hsize]
  bv_omega

/-- The next of some words: all of them are there, unless it is the 256th. -/
lemma words_attached {n : Nat} (hn : n < 256)
    (hz : (attachAll twoMemories busCreate (words n)).zones = (words n).map Request.zone) :
    ∃ bus', busMemoryAttach twoMemories (attachAll twoMemories busCreate (words n)) 0 (BitVec.ofNat 32 (4 * n))
        "Word" = .ok bus' ∧
      bus'.zones = ((words (n + 1)).map Request.zone).take ((n + 1) % 256) := by
  obtain ⟨bus', hok, hzones⟩ := @busMemoryAttach_free twoMemories (attachAll twoMemories busCreate (words n))
    ⟨0, BitVec.ofNat 32 (4 * n), "Word"⟩ (by
      intro z hmem
      rw [inZone, decide_eq_false (BitVec.not_le.mpr (words_below hn (hz ▸ hmem))), Bool.and_false])
  have hpass : ∀ z ∈ (words n).map Request.zone, passes twoMemories (BitVec.ofNat 32 (4 * n)) z = true := by
    intro z hmem
    rw [passes, decide_eq_false (BitVec.not_lt.mpr (BitVec.le_of_lt (words_below hn hmem)))]
    rfl
  refine ⟨bus', hok, ?_⟩
  rw [hzones, hz, Request.inserted, List.takeWhile_eq_self_iff.mpr hpass, List.dropWhile_eq_nil_iff.mpr hpass,
    List.length_map, words_length, words_succ, List.map_append]
  rfl

/-- Up to 255 words are all there. -/
lemma attachAll_words {n : Nat} (hn : n < 256) :
    (attachAll twoMemories busCreate (words n)).zones = (words n).map Request.zone := by
  induction n with
  | zero => rfl
  | succ n ih =>
    obtain ⟨bus', hok, hzones⟩ := words_attached (Nat.lt_of_succ_lt hn) (ih (Nat.lt_of_succ_lt hn))
    rw [Nat.mod_eq_of_lt hn, List.take_of_length_le (by rw [List.length_map, words_length])] at hzones
    rw [← hzones, words_succ, attachAll, List.foldl_append]
    show (attach twoMemories (attachAll twoMemories busCreate (words n)) _).zones = _
    rw [attach, hok]

/-- The last zone. -/
lemma words_getElem (n : Nat) : (words (n + 1))[n]? = some ⟨0, BitVec.ofNat 32 (4 * n), "Word"⟩ := by
  rw [words_succ, List.getElem?_append_right (Nat.le_of_eq (words_length n)), words_length, Nat.sub_self]
  rfl

/-- The zones before it. -/
lemma words_take (n : Nat) : (words (n + 1)).take n = words n := by
  rw [words_succ, List.take_append_of_le_length (Nat.le_of_eq (words_length n).symm),
    List.take_of_length_le (Nat.le_of_eq (words_length n))]

/-- The 256th of 256 words: no zone is left. -/
theorem not_attach_exact : ¬ ∀ (rs : List Request) n (r : Request), rs[n]? = some r →
    r.Exact twoMemories (attachAll twoMemories busCreate (rs.take n)) := by
  intro h
  -- As a variable, so that nothing computes with the list.
  obtain ⟨n, hn⟩ : ∃ n, n = 255 := ⟨_, rfl⟩
  have hlt : n < 256 := by omega
  have hwrap : (n + 1) % 256 = 0 := by omega
  obtain ⟨bus', hok, hzones⟩ := words_attached hlt (attachAll_words hlt)
  have hlast := h _ n _ (words_getElem n)
  rw [words_take, Request.Exact] at hlast
  dsimp only at hlast
  rw [hok] at hlast
  have hperm := hlast.1.length_eq
  rw [hzones, hwrap, List.take_zero, List.length_cons] at hperm
  exact Nat.succ_ne_zero _ hperm.symm

end Thorium.Vm
