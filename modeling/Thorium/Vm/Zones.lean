import Thorium.Vm.Bus

/-!
# Zones

When the zones of a bus keep apart. `bus_memory_attach` refuses a base that lies in a zone but never
looks at the end of the new zone, so the zones stay disjoint exactly as long as no base of an older zone
lies behind it (`Request.Clear`, `attach_apart`). `attach_apart_iff` says so for whole runs.
-/

namespace Thorium.Vm

variable {heap : Heap} {bus : Bus}

/-! ### Ranges -/

/-- The size of the memory of a zone. -/
def Zone.size (heap : Heap) (zone : Zone) : Nat := (heap zone.memory).size.toNat

/-- The address range of a zone. -/
def Zone.Covers (heap : Heap) (zone : Zone) (address : Nat) : Prop :=
  zone.from.toNat ≤ address ∧ address < zone.from.toNat + zone.size heap

/-- Two zones with no address in common. -/
def Zone.Apart (heap : Heap) (z z' : Zone) : Prop := ∀ a, ¬ (z.Covers heap a ∧ z'.Covers heap a)

/-- Pairwise disjoint zones. -/
def ZonesApart (heap : Heap) (zones : List Zone) : Prop := zones.Pairwise (Zone.Apart heap)

/-- A zone that is not empty and does not wrap around. -/
structure Zone.Proper (heap : Heap) (zone : Zone) : Prop where
  pos : 0 < zone.size heap
  noWrap : zone.from.toNat + zone.size heap ≤ 2 ^ 32

/-- Being apart is symmetric. -/
lemma Zone.Apart.symm {z z' : Zone} (h : z.Apart heap z') : z'.Apart heap z :=
  fun a ha => h a ha.symm

/-- Two zones are apart if one ends before the other begins. -/
lemma apart_iff {z z' : Zone} (h : z.Proper heap) (h' : z'.Proper heap) :
    z.Apart heap z' ↔ z.from.toNat + z.size heap ≤ z'.from.toNat ∨
      z'.from.toNat + z'.size heap ≤ z.from.toNat := by
  obtain ⟨pos, _⟩ := h
  obtain ⟨pos', _⟩ := h'
  constructor
  · intro ha
    have h1 := ha z.from.toNat
    have h2 := ha z'.from.toNat
    unfold Zone.Covers at h1 h2
    omega
  · rintro h a ⟨⟨_, _⟩, ⟨_, _⟩⟩
    omega

/-- `in_zone` is about the range of a proper zone. -/
lemma inZone_iff {zone : Zone} (h : zone.Proper heap) {address : Addr} :
    inZone heap zone address = true ↔ zone.Covers heap address.toNat := by
  obtain ⟨pos, noWrap⟩ := h
  unfold Zone.size at pos noWrap
  have hmax : (memoryMaxAddress (heap zone.memory) zone.from).toNat =
      zone.from.toNat + (heap zone.memory).size.toNat - 1 := by
    unfold memoryMaxAddress
    bv_omega
  rw [inZone, Bool.and_eq_true, decide_eq_true_iff, decide_eq_true_iff, BitVec.le_def, BitVec.le_def, hmax,
    Zone.Covers, Zone.size]
  omega

/-- In disjoint zones, the zone that covers an address is the one that is found. -/
lemma findZone_covers {zone : Zone} {a : Addr} (proper : ∀ z ∈ bus.zones, z.Proper heap)
    (apart : ZonesApart heap bus.zones) (hz : zone ∈ bus.zones) (hc : zone.Covers heap a.toNat) :
    findZone heap bus a = some zone := by
  have hin := (inZone_iff (proper zone hz)).mpr hc
  unfold findZone
  cases hf : bus.zones.find? fun z => inZone heap z a with
  | none => exact absurd hin (List.find?_eq_none.mp hf zone hz)
  | some z' =>
    have hz' := List.mem_of_find?_eq_some hf
    have hin' := List.find?_some hf
    have hc' := (inZone_iff (proper z' hz')).mp hin'
    by_cases e : z' = zone
    · rw [e]
    · have : Std.Symm (Zone.Apart heap) := ⟨fun _ _ h => h.symm⟩
      exact (apart.forall hz' hz e _ ⟨hc', hc⟩).elim

/-! ### One call -/

/-- The arguments of a call of `bus_memory_attach`. -/
structure Request where
  memory : Ref
  «from» : Addr
  name : String

/-- The zone a call is about. -/
def Request.zone (r : Request) : Zone := ⟨r.memory, r.from, r.name, []⟩

/-- The bus after a call, whatever it returns. -/
def attach (heap : Heap) (bus : Bus) (r : Request) : Bus :=
  match busMemoryAttach heap bus r.memory r.from r.name with
  | .ok bus => bus
  | .error _ => bus

/-- No call goes wrong in one of two ways: it is refused, it attaches the zone that makes the count wrap
around, or there is no base of a zone behind the base of the new one. -/
def Request.Clear (heap : Heap) (bus : Bus) (r : Request) : Prop :=
  (∃ z ∈ bus.zones, z.Covers heap r.from.toNat) ∨ bus.zones.length = 255 ∨
    ∀ z ∈ bus.zones, ¬ (r.from.toNat < z.from.toNat ∧ z.from.toNat < r.from.toNat + r.zone.size heap)

/-- The zones after a call. -/
lemma attach_zones (proper : ∀ z ∈ bus.zones, z.Proper heap) (r : Request) :
    ((∃ z ∈ bus.zones, z.Covers heap r.from.toNat) ∧ attach heap bus r = bus) ∨
      ((∀ z ∈ bus.zones, ¬ z.Covers heap r.from.toNat) ∧ bus.zones.length = 255 ∧
        (attach heap bus r).zones = []) ∨
      ((∀ z ∈ bus.zones, ¬ z.Covers heap r.from.toNat) ∧ bus.zones.length ≠ 255 ∧
        (attach heap bus r).zones.Perm (r.zone :: bus.zones)) := by
  unfold attach busMemoryAttach
  by_cases hany : bus.zones.any fun zone => inZone heap zone r.from
  · rw [if_pos hany]
    obtain ⟨z, hz, hin⟩ := List.any_eq_true.mp hany
    exact .inl ⟨⟨z, hz, (inZone_iff (proper z hz)).mp hin⟩, rfl⟩
  · rw [if_neg hany]
    have hfree : ∀ z ∈ bus.zones, ¬ z.Covers heap r.from.toNat := fun z hz hc =>
      hany (List.any_eq_true.mpr ⟨z, hz, (inZone_iff (proper z hz)).mpr hc⟩)
    have hperm : (bus.zones.takeWhile (passes heap r.from) ++
        r.zone :: bus.zones.dropWhile (passes heap r.from)).Perm (r.zone :: bus.zones) := by
      have := @List.perm_middle _ r.zone (bus.zones.takeWhile (passes heap r.from))
        (bus.zones.dropWhile (passes heap r.from))
      rwa [List.takeWhile_append_dropWhile] at this
    by_cases hlen : bus.zones.length = 255
    · refine .inr (.inl ⟨hfree, hlen, ?_⟩)
      show List.take ((bus.zones.length + 1) % 256) _ = []
      rw [hlen]
      rfl
    · refine .inr (.inr ⟨hfree, hlen, ?_⟩)
      have hcount := bus.count
      have hmod : (bus.zones.length + 1) % 256 = bus.zones.length + 1 := Nat.mod_eq_of_lt (by omega)
      show (List.take ((bus.zones.length + 1) % 256) _).Perm _
      rw [hmod, List.take_of_length_le]
      · exact hperm
      · exact Nat.le_of_eq hperm.length_eq

/-- A call keeps the zones proper. -/
lemma attach_proper (proper : ∀ z ∈ bus.zones, z.Proper heap) {r : Request} (hr : r.zone.Proper heap) :
    ∀ z ∈ (attach heap bus r).zones, z.Proper heap := by
  rcases attach_zones proper r with ⟨_, h⟩ | ⟨_, _, h⟩ | ⟨_, _, h⟩
  · rwa [h]
  · rw [h]
    nofun
  · intro z hz
    cases List.mem_cons.mp (h.mem_iff.mp hz) with
    | inl e => exact e ▸ hr
    | inr hz => exact proper z hz

/-- A call keeps disjoint zones disjoint when it is clear, and only then. -/
lemma attach_apart (proper : ∀ z ∈ bus.zones, z.Proper heap) (apart : ZonesApart heap bus.zones)
    {r : Request} (hr : r.zone.Proper heap) :
    ZonesApart heap (attach heap bus r).zones ↔ r.Clear heap bus := by
  rcases attach_zones proper r with ⟨hin, h⟩ | ⟨_, hlen, h⟩ | ⟨hfree, hlen, h⟩
  · rw [h]
    exact ⟨fun _ => .inl hin, fun _ => apart⟩
  · rw [h]
    exact ⟨fun _ => .inr (.inl hlen), fun _ => List.Pairwise.nil⟩
  · have hiff : ZonesApart heap (attach heap bus r).zones ↔ ∀ z ∈ bus.zones, r.zone.Apart heap z := by
      rw [ZonesApart, h.pairwise_iff (fun h => h.symm), List.pairwise_cons]
      exact and_iff_left apart
    rw [hiff]
    constructor
    · intro ha
      refine .inr (.inr fun z hz => ?_)
      have := (apart_iff hr (proper z hz)).mp (ha z hz)
      have e : r.zone.from = r.from := rfl
      rw [e] at this
      have := (proper z hz).pos
      omega
    · rintro (⟨z, hz, hc⟩ | hlen' | hclear)
      · exact absurd hc (hfree z hz)
      · exact absurd hlen' hlen
      · intro z hz
        rw [apart_iff hr (proper z hz)]
        have h1 := hfree z hz
        have h2 := hclear z hz
        have e : r.zone.from = r.from := rfl
        rw [e]
        unfold Zone.Covers at h1
        omega

/-! ### Runs -/

/-- The bus after some calls. -/
def attachAll (heap : Heap) (bus : Bus) (rs : List Request) : Bus := rs.foldl (attach heap) bus

/-- A run of calls, from any bus whose zones are apart. -/
lemma attachAll_apart_iff {rs : List Request} (valid : ∀ r ∈ rs, r.zone.Proper heap)
    (proper : ∀ z ∈ bus.zones, z.Proper heap) (apart : ZonesApart heap bus.zones) :
    (∀ n, ZonesApart heap (attachAll heap bus (rs.take n)).zones) ↔
      ∀ n (r : Request), rs[n]? = some r → r.Clear heap (attachAll heap bus (rs.take n)) := by
  induction rs generalizing bus with
  | nil => exact ⟨fun _ n r h => by simp at h, fun _ n => by rw [List.take_nil]; exact apart⟩
  | cons r rs ih =>
    obtain ⟨hr, valid⟩ := List.forall_mem_cons.mp valid
    have hstep := attach_apart proper apart hr
    have ih := fun h => @ih (attach heap bus r) valid (attach_proper proper hr) h
    constructor
    · intro h n
      have h1 : ZonesApart heap (attach heap bus r).zones := h 1
      cases n with
      | zero =>
        intro r' e
        cases e
        exact hstep.mp h1
      | succ n => exact (ih h1).mp (fun m => h (m + 1)) n
    · intro h n
      have h1 := hstep.mpr (h 0 r rfl)
      cases n with
      | zero => exact apart
      | succ n => exact (ih h1).mpr (fun m => h (m + 1)) n

/-- **Zones stay apart** over a run from a new bus exactly when each of its calls is clear. -/
theorem attach_apart_iff {rs : List Request} (valid : ∀ r ∈ rs, r.zone.Proper heap) :
    (∀ n, ZonesApart heap (attachAll heap busCreate (rs.take n)).zones) ↔
      ∀ n (r : Request), rs[n]? = some r → r.Clear heap (attachAll heap busCreate (rs.take n)) :=
  attachAll_apart_iff valid nofun List.Pairwise.nil

/-- Memories of one and of two words. -/
def twoMemories : Heap := fun r => memoryCreate (fun _ => 0) (if r = 0 then 4 else 8) .rw

/-- A word after another. -/
theorem attach_apart_words : ZonesApart twoMemories
    (attachAll twoMemories busCreate ([⟨0, 0, "First"⟩, ⟨0, 4, "Second"⟩].take 2)).zones := by
  have valid : ∀ r ∈ [(⟨0, 0, "First"⟩ : Request), ⟨0, 4, "Second"⟩], r.zone.Proper twoMemories := by
    intro r hr
    rcases List.mem_pair.mp hr with rfl | rfl <;> exact ⟨by decide, by decide⟩
  refine (attach_apart_iff valid).mpr (fun n r h => .inr (.inr ?_)) 2
  match n with
  | 0 => exact nofun
  | 1 =>
    cases h
    intro z hz
    cases List.mem_singleton.mp hz
    decide
  | n + 2 => cases h

/-- Two words at 0, below a word at 4. -/
theorem not_attach_apart_below :
    ¬ ∀ rs : List Request, (∀ r ∈ rs, r.zone.Proper twoMemories) →
      ∀ n, ZonesApart twoMemories (attachAll twoMemories busCreate (rs.take n)).zones := by
  intro h
  have valid : ∀ r ∈ [(⟨0, 4, "First"⟩ : Request), ⟨1, 0, "Second"⟩], r.zone.Proper twoMemories := by
    intro r hr
    rcases List.mem_pair.mp hr with rfl | rfl <;> exact ⟨by decide, by decide⟩
  have hz : (attachAll twoMemories busCreate ([⟨0, 4, "First"⟩, ⟨1, 0, "Second"⟩].take 2)).zones =
      [⟨1, 0, "Second", []⟩, ⟨0, 4, "First", []⟩] := by decide
  have apart := h _ valid 2
  rw [hz] at apart
  have h4 := (List.pairwise_cons.mp apart).1 ⟨0, 4, "First", []⟩ (List.mem_singleton.mpr rfl) 4
  exact h4 ⟨⟨by decide, by decide⟩, ⟨by decide, by decide⟩⟩

end Thorium.Vm
