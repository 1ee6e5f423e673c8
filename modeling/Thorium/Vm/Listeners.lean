import Thorium.Lib.Steps
import Thorium.Vm.Access
import Thorium.Vm.Zones

/-!
# Listeners

The calls of a bus in any order: zones are attached, condition variables are registered for addresses, and
words are written. As the zones keep apart, the notifications of a zone are the registrations for its
addresses, in their order (`Listening`), whatever is attached after them. `write_signals` says which
variables a write signals.
-/

namespace Thorium.Vm

variable {heap heap' : Heap} {bus bus' : Bus}

/-- The calls. -/
inductive BusCall where
  | attach (r : Request)
  | register (cond : Cond) (addr : Addr)
  | write (addr : Addr) (word : Word)

/-- A call that does not abort. An attachment is made only if it succeeds. -/
def BusCall.next : BusCall → Heap × Bus → Option (Heap × Bus)
  | .attach r, (heap, bus) =>
    match busMemoryAttach heap bus r.memory r.from r.name with
    | .ok bus' => some (heap, bus')
    | .error _ => none
  | .register cond addr, (heap, bus) => (busNotificationRegister heap bus cond addr).map fun bus' => (heap, bus')
  | .write addr word, (heap, bus) =>
    match busWordWrite heap bus addr word with
    | some (.ok (heap', _)) => some (heap', bus)
    | some (.error _) => some (heap, bus)
    | none => none

/-- The condition variables a write signals. -/
def signals : Option (Except BusError (Heap × List Cond)) → List Cond
  | some (.ok (_, conds)) => conds
  | _ => []

/-- A write succeeds. -/
def succeeds : Option (Except BusError (Heap × List Cond)) → Bool
  | some (.ok _) => true
  | _ => false

/-- What a call attaches. -/
def BusCall.attached : BusCall → Option Zone
  | .attach r => some r.zone
  | _ => none

/-- What a call registers. -/
def BusCall.registered : BusCall → Option Notification
  | .register cond addr => some ⟨addr, cond⟩
  | _ => none

/-- The condition variables that are registered for an address, in the order of their registrations. -/
def listeners (calls : List BusCall) (a : Addr) : List Cond :=
  ((calls.filterMap BusCall.registered).filter fun n => n.addr == a).map Notification.cond

/-! ### Shapes -/

/-- A zone has the same addresses in memories of the same shape. -/
lemma inZone_shape (h : Shape heap heap') (zone : Zone) (a : Addr) :
    inZone heap' zone a = inZone heap zone a := by
  unfold inZone memoryMaxAddress
  rw [(h _).1]

/-- It covers the same ones. -/
lemma covers_shape (h : Shape heap heap') (zone : Zone) (a : Nat) :
    zone.Covers heap' a ↔ zone.Covers heap a := by
  unfold Zone.Covers Zone.size
  rw [(h _).1]

/-- It is proper in both. -/
lemma Zone.Proper.shape {zone : Zone} (h : zone.Proper heap) (hs : Shape heap heap') : zone.Proper heap' := by
  have hsize : zone.size heap' = zone.size heap := congrArg BitVec.toNat (hs _).1
  exact ⟨hsize ▸ h.pos, hsize ▸ h.noWrap⟩

/-- Two zones are apart in both. -/
lemma Zone.Apart.shape {z z' : Zone} (h : z.Apart heap z') (hs : Shape heap heap') : z.Apart heap' z' :=
  fun a hc => h a ⟨(covers_shape hs _ _).mp hc.1, (covers_shape hs _ _).mp hc.2⟩

/-- A registration is at the end of the list of the first zone that contains the address. -/
lemma busNotificationRegister_some {cond : Cond} {a : Addr}
    (h : busNotificationRegister heap bus cond a = some bus') :
    ∃ before zone after, bus.zones = before ++ zone :: after ∧ inZone heap zone a = true ∧
      bus'.zones = before ++ zone.listen ⟨a, cond⟩ :: after := by
  unfold busNotificationRegister at h
  split at h
  · rename_i i hi
    cases h
    obtain ⟨hlt, hin, _⟩ := List.findIdx?_eq_some_iff_getElem.mp hi
    obtain ⟨before, zone, after, e, rfl, e'⟩ :=
      List.exists_of_modify (fun zone => zone.listen ⟨a, cond⟩) hlt
    refine ⟨before, zone, after, e, ?_, e'⟩
    simp only [e, List.getElem_append_right (Nat.le_refl _), Nat.sub_self, List.getElem_cons_zero] at hin
    exact hin
  · cases h

/-! ### The invariant -/

/-- The zones are some of those attached, and each has the registrations for its addresses, in their order. -/
structure Listening (heap : Heap) (attached : List Zone) (log : List Notification) (bus : Bus) : Prop where
  proper : ∀ z ∈ bus.zones, z.Proper heap
  apart : ZonesApart heap bus.zones
  old : ∀ z ∈ bus.zones, ∃ z' ∈ attached, ∀ a, z.Covers heap a → z'.Covers heap a
  mapped : ∀ n ∈ log, ∃ z ∈ attached, z.Covers heap n.addr.toNat
  heard : ∀ z ∈ bus.zones, z.notification = log.filter fun n => inZone heap z n.addr

namespace Listening

variable {attached : List Zone} {log : List Notification} {a : Addr} {zone : Zone} {cond : Cond}

/-- On a new bus nobody listens. -/
lemma create (heap : Heap) : Listening heap [] [] busCreate :=
  ⟨nofun, List.Pairwise.nil, nofun, nofun, nofun⟩

/-- The notifications of the zone of an address. -/
lemma find (h : Listening heap attached log bus) (hz : findZone heap bus a = some zone) :
    (zone.notification.filter fun n => n.addr == a) = log.filter fun n => n.addr == a := by
  rw [h.heard zone (List.mem_of_find?_eq_some hz), List.filter_filter]
  apply List.filter_congr
  intro n _
  have hin : inZone heap zone a = true := @List.find?_some _ (fun zone => inZone heap zone a) _ _ hz
  by_cases e : n.addr = a
  · rw [e, hin, Bool.and_true]
  · rw [beq_eq_false_iff_ne.mpr e, Bool.false_and]

/-- A new zone has no registrations yet. -/
lemma attach {r : Request} (h : Listening heap attached log bus) (hr : r.zone.Proper heap)
    (hapart : ∀ z ∈ attached, r.zone.Apart heap z)
    (hok : busMemoryAttach heap bus r.memory r.from r.name = .ok bus') :
    Listening heap (attached ++ [r.zone]) log bus' := by
  have hattach : Vm.attach heap bus r = bus' := by rw [Vm.attach, hok]
  have hold : ∀ z ∈ bus.zones, ∃ z' ∈ attached ++ [r.zone], ∀ a, z.Covers heap a → z'.Covers heap a := by
    intro z hz
    obtain ⟨z', hz', hc⟩ := h.old z hz
    exact ⟨z', List.mem_append_left _ hz', hc⟩
  have hmapped : ∀ n ∈ log, ∃ z ∈ attached ++ [r.zone], z.Covers heap n.addr.toNat := by
    intro n hn
    obtain ⟨z, hz, hc⟩ := h.mapped n hn
    exact ⟨z, List.mem_append_left _ hz, hc⟩
  have hproper := attach_proper h.proper hr
  rw [hattach] at hproper
  rcases attach_zones h.proper r with ⟨_, e⟩ | ⟨_, _, e⟩ | ⟨_, _, e⟩
  · rw [hattach] at e
    rw [e] at hproper ⊢
    exact ⟨hproper, h.apart, hold, hmapped, h.heard⟩
  · rw [hattach] at e
    refine ⟨hproper, ?_, ?_, hmapped, ?_⟩ <;> rw [e]
    · exact List.Pairwise.nil
    · nofun
    · nofun
  · rw [hattach] at e
    have hmem : ∀ {z}, z ∈ bus'.zones → z = r.zone ∨ z ∈ bus.zones := fun hz => List.mem_cons.mp (e.mem_iff.mp hz)
    refine ⟨hproper, ?_, ?_, hmapped, ?_⟩
    · rw [ZonesApart, e.pairwise_iff (fun h => h.symm), List.pairwise_cons]
      refine ⟨?_, h.apart⟩
      intro z hz a ha
      obtain ⟨z', hz', hc⟩ := h.old z hz
      exact hapart z' hz' a ⟨ha.1, hc a ha.2⟩
    · intro z hz
      cases hmem hz with
      | inl e => exact ⟨r.zone, List.mem_append_right _ (List.mem_singleton.mpr rfl), fun a hc => e ▸ hc⟩
      | inr hz => exact hold z hz
    · intro z hz
      cases hmem hz with
      | inl e =>
        subst e
        symm
        show (log.filter _) = []
        rw [List.filter_eq_nil_iff]
        intro n hn hin
        obtain ⟨z, hz, hc⟩ := h.mapped n hn
        exact hapart z hz _ ⟨(inZone_iff hr).mp hin, hc⟩
      | inr hz => exact h.heard z hz

/-- A registration is heard in the zone of its address, and in no other. -/
lemma register (h : Listening heap attached log bus) (hok : busNotificationRegister heap bus cond a = some bus') :
    Listening heap attached (log ++ [⟨a, cond⟩]) bus' := by
  obtain ⟨before, zone, after, e, hin, e'⟩ := busNotificationRegister_some hok
  have hmem : ∀ {z}, z ∈ bus'.zones → z = zone.listen ⟨a, cond⟩ ∨ z ∈ before ++ after := by
    intro z hz
    rw [e'] at hz
    exact List.mem_cons.mp (List.perm_middle.mem_iff.mp hz)
  have hzone : zone ∈ bus.zones := by rw [e]; exact List.mem_append_right _ List.mem_cons_self
  have hrest : ∀ {z}, z ∈ before ++ after → z ∈ bus.zones := fun hz => by
    rw [e]
    exact List.perm_middle.mem_iff.mpr (List.mem_cons_of_mem _ hz)
  have hapart := h.apart
  rw [ZonesApart, e, List.pairwise_middle Zone.Apart.symm, List.pairwise_cons] at hapart
  constructor
  · intro z hz
    cases hmem hz with
    | inl e => exact e ▸ ⟨(h.proper zone hzone).pos, (h.proper zone hzone).noWrap⟩
    | inr hz => exact h.proper z (hrest hz)
  · rw [ZonesApart, e', List.pairwise_middle Zone.Apart.symm, List.pairwise_cons]
    exact hapart
  · intro z hz
    cases hmem hz with
    | inl e => exact e ▸ h.old zone hzone
    | inr hz => exact h.old z (hrest hz)
  · intro n hn
    cases List.mem_append.mp hn with
    | inl hn => exact h.mapped n hn
    | inr hn =>
      cases List.mem_singleton.mp hn
      obtain ⟨z', hz', hc⟩ := h.old zone hzone
      exact ⟨z', hz', hc _ ((inZone_iff (h.proper zone hzone)).mp hin)⟩
  · intro z hz
    rw [List.filter_append]
    cases hmem hz with
    | inl e =>
      have hone : ([⟨a, cond⟩] : List Notification).filter (fun n => inZone heap z n.addr) = [⟨a, cond⟩] := by
        refine List.filter_eq_self.mpr fun n hn => ?_
        rw [List.mem_singleton.mp hn, e]
        exact hin
      rw [hone, e]
      exact congrArg (· ++ [⟨a, cond⟩]) (h.heard zone hzone)
    | inr hz =>
      have hnone : ([⟨a, cond⟩] : List Notification).filter (fun n => inZone heap z n.addr) = [] := by
        refine List.filter_eq_nil_iff.mpr fun n hn hin' => ?_
        rw [List.mem_singleton.mp hn] at hin'
        exact hapart.1 z hz _ ⟨(inZone_iff (h.proper zone hzone)).mp hin,
          (inZone_iff (h.proper z (hrest hz))).mp hin'⟩
      rw [hnone, List.append_nil]
      exact h.heard z (hrest hz)

/-- The words in the memories do not matter. -/
lemma shape (h : Listening heap attached log bus) (hs : Shape heap heap') : Listening heap' attached log bus := by
  constructor
  · intro z hz
    exact (h.proper z hz).shape hs
  · exact h.apart.imp fun hz => hz.shape hs
  · intro z hz
    obtain ⟨z', hz', hc⟩ := h.old z hz
    exact ⟨z', hz', fun a ha => (covers_shape hs _ _).mpr (hc a ((covers_shape hs _ _).mp ha))⟩
  · intro n hn
    obtain ⟨z, hz, hc⟩ := h.mapped n hn
    exact ⟨z, hz, (covers_shape hs _ _).mpr hc⟩
  · intro z hz
    simp only [inZone_shape hs]
    exact h.heard z hz

end Listening

/-! ### Runs -/

/-- The signals of a write, if it succeeds. -/
lemma signals_eq {r : Option (Except BusError (Heap × List Cond))} {conds : List Cond}
    (h : ∀ heap' conds', r = some (.ok (heap', conds')) → conds' = conds) :
    signals r = if succeeds r then conds else [] := by
  match r with
  | some (.ok (heap', conds')) => exact h heap' conds' rfl
  | some (.error _) => rfl
  | none => rfl

/-- A write that succeeds signals the registrations for its address. -/
lemma conds_listening {attached : List Zone} {log : List Notification} {a : Addr} {w : Word} {conds : List Cond}
    (h : Listening heap attached log bus) (hw : busWordWrite heap bus a w = some (.ok (heap', conds))) :
    conds = (log.filter fun n => n.addr == a).map Notification.cond := by
  unfold busWordWrite at hw
  split at hw
  · rename_i zone hz
    split at hw
    · cases hw
      exact congrArg _ (h.find hz)
    · rename_i e _
      cases e <;> cases hw
  · cases hw

/-- The invariant over a run. The heap it begins with gives the sizes. -/
lemma listening_steps {heap0 : Heap} {calls : List BusCall} {attached : List Zone} {log : List Notification}
    (h : Listening heap attached log bus) (hs : Shape heap0 heap)
    (proper : ∀ z ∈ calls.filterMap BusCall.attached, z.Proper heap0)
    (apart : (attached ++ calls.filterMap BusCall.attached).Pairwise (Zone.Apart heap0))
    (hr : steps BusCall.next calls (heap, bus) = some (heap', bus')) :
    Listening heap' (attached ++ calls.filterMap BusCall.attached)
      (log ++ calls.filterMap BusCall.registered) bus' := by
  induction calls generalizing heap bus attached log with
  | nil =>
    cases hr
    rw [List.filterMap_nil, List.filterMap_nil, List.append_nil, List.append_nil]
    exact h
  | cons c calls ih =>
    obtain ⟨⟨heap1, bus1⟩, hc, hr⟩ := steps_cons.mp hr
    cases c with
    | attach r =>
      have hcons : (BusCall.attach r :: calls).filterMap BusCall.attached =
        r.zone :: calls.filterMap BusCall.attached := rfl
      rw [hcons, List.append_cons] at apart ⊢
      rw [hcons, List.forall_mem_cons] at proper
      dsimp only [BusCall.next] at hc
      cases hok : busMemoryAttach heap bus r.memory r.from r.name with
      | error e =>
        rw [hok] at hc
        cases hc
      | ok bus2 =>
        rw [hok] at hc
        cases hc
        refine ih (h.attach (proper.1.shape hs) ?_ hok) hs proper.2 apart hr
        intro z hz
        have hz := (List.pairwise_append.mp (List.pairwise_append.mp apart).1).2.2 z hz r.zone
          (List.mem_singleton.mpr rfl)
        exact hz.symm.shape hs
    | register cond addr =>
      obtain ⟨bus2, hok, e⟩ := Option.map_eq_some_iff.mp hc
      cases e
      have hcons : (BusCall.register cond addr :: calls).filterMap BusCall.registered =
        ⟨addr, cond⟩ :: calls.filterMap BusCall.registered := rfl
      rw [hcons, List.append_cons]
      exact ih (h.register hok) hs proper apart hr
    | write addr word =>
      dsimp only [BusCall.next] at hc
      split at hc
      · rename_i heap2 conds hw
        cases hc
        have hs2 := busWordWrite_shape hw
        exact ih (h.shape hs2) (hs.trans hs2) proper apart hr
      · cases hc
        exact ih h hs proper apart hr
      · cases hc

/-- **A write signals exactly its listeners**, whatever zones, registrations and words came before it. -/
theorem write_signals {calls : List BusCall} (proper : ∀ z ∈ calls.filterMap BusCall.attached, z.Proper heap)
    (apart : ZonesApart heap (calls.filterMap BusCall.attached))
    (hr : steps BusCall.next calls (heap, busCreate) = some (heap', bus)) (a : Addr) (w : Word) :
    signals (busWordWrite heap' bus a w) =
      if succeeds (busWordWrite heap' bus a w) then listeners calls a else [] := by
  have h := listening_steps (Listening.create heap) (Shape.refl heap) proper apart hr
  exact signals_eq fun _ _ hw => conds_listening h hw

/-- Two listeners of an address, one before and one after another zone is attached below. -/
theorem write_signals_both : ∃ bus, steps BusCall.next
      [.attach ⟨1, 4, "Above"⟩, .register (.device 0) 4, .attach ⟨0, 0, "Below"⟩, .register (.device 1) 0,
        .register (.device 2) 4] (twoMemories, busCreate) = some (twoMemories, bus) ∧
    signals (busWordWrite twoMemories bus 4 7) = [.device 0, .device 2] := by
  have proper : ∀ z ∈ [(⟨1, 4, "Above", []⟩ : Zone), ⟨0, 0, "Below", []⟩], z.Proper twoMemories := by
    intro z hz
    rcases List.mem_pair.mp hz with rfl | rfl <;> exact ⟨by decide, by decide⟩
  have apart : ZonesApart twoMemories [(⟨1, 4, "Above", []⟩ : Zone), ⟨0, 0, "Below", []⟩] := by
    refine List.pairwise_pair.mpr ?_
    rw [apart_iff (proper _ List.mem_cons_self) (proper _ (List.mem_cons_of_mem _ (List.mem_singleton.mpr rfl)))]
    exact .inr (by decide)
  refine ⟨_, rfl, ?_⟩
  exact @write_signals twoMemories _ _ [.attach ⟨1, 4, "Above"⟩, .register (.device 0) 4, .attach ⟨0, 0, "Below"⟩,
    .register (.device 1) 0, .register (.device 2) 4] proper apart rfl 4 7

end Thorium.Vm
