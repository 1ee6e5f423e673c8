import Thorium.Asm.Grammar

/-!
# The choice between alternatives

When `parse_op` is a backtracking choice. An alternative that fits the line takes it, unless it names an
undefined variable or a byte above 255; then it stops with an error after it has consumed tokens. `Idle`
are the alternatives that only look at the items and leave them, and `backtracks_iff` says that the
choice backtracks exactly when the alternatives after the one that takes the line are idle on what
follows it.
-/

namespace Thorium.Asm
open Thorium.Isa Thorium.Run

variable {α β : Type} {symbols : HashMap Token} {position : Position} {self : Parser}
  {items rest line : List Item} {aborts : Bool} {nodes : List Node} {op : Op} {f : Form} {ps : List Part}
  {i : Instruction} {fs : List (Op × Form)} {tokens : List Token}

/-! ### What looking ahead returns -/

/-- Items that end before the parts do, and fit them as far as they go. -/
def RunsOut : List Part → List Item → Prop
  | [], _ => False
  | _ :: _, [] => True
  | p :: ps, item :: items => p.fits (itemKind item) = true ∧ RunsOut ps items

/-- Items one of which is not the part at its place. -/
def Differs : List Part → List Item → Prop
  | p :: ps, item :: items => p.fits (itemKind item) = false ∨ Differs ps items
  | _, _ => False

/-- A pattern fits, or the items run out, or one of them differs. -/
lemma fits_or_runsOut_or_differs (ps : List Part) (items : List Item) :
    Fits ps items ∨ RunsOut ps items ∨ Differs ps items := by
  induction ps generalizing items with
  | nil => exact .inl trivial
  | cons p ps ih =>
    cases items with
    | nil => exact .inr (.inl trivial)
    | cons item items =>
      cases hp : p.fits (itemKind item) with
      | false => exact .inr (.inr (.inl hp))
      | true =>
        rcases ih items with h | h | h
        · exact .inl ⟨hp, h⟩
        · exact .inr (.inl ⟨hp, h⟩)
        · exact .inr (.inr (.inr h))

/-- The check of a part where the lexer panics. -/
lemma Part.check_abort {p : Part} {n : Nat} (h : self.lexer.items.length ≤ n)
    (ha : self.lexer.aborts = true) : (p.check n).holds self = none := by
  have hpeek : ∀ s, peekSlot s n self = none := fun s => by
    rw [peekSlot, Run.bind_apply, peekNth, if_neg (Nat.not_lt.mpr h), if_pos ha]
    rfl
  cases p with
  | slot s => exact hpeek s
  | wordOrVar =>
    rw [Part.check, Check.holds, Run.bind_apply, hpeek]
    rfl

/-- Looking ahead stops at the first item that differs, with one error whatever follows the items. -/
lemma lookAhead_differs {checks : List (Check × String)} {n : Nat}
    (e : checks.map Prod.fst = checksFrom n ps) (h : Differs ps (items.drop n)) :
    ∃ error, ∀ self : Parser, items <+: self.lexer.items →
      (lookAhead position checks).run self = some (.error error, self) := by
  induction ps generalizing checks n with
  | nil => exact absurd h (by simp [Differs])
  | cons p ps ih =>
    obtain ⟨⟨c, message⟩, checks, rfl, rfl, he⟩ := List.map_eq_cons_iff.mp e
    cases hd : items.drop n with
    | nil =>
      rw [hd] at h
      exact absurd h (by simp [Differs])
    | cons item l =>
      obtain ⟨hn, hl⟩ := drop_cons_inv hd
      have hcheck : ∀ self : Parser, items <+: self.lexer.items →
          (p.check n).holds self = some (p.fits (itemKind item), self) := by
        rintro self ⟨t, ht⟩
        apply Part.check_run
        rw [← ht, List.getElem?_append_left (List.getElem?_eq_some_iff.mp hn).1]
        exact hn
      rw [hd] at h
      cases hp : p.fits (itemKind item) with
      | false =>
        refine ⟨s!"{message} at {position.display}", fun self hself => ?_⟩
        rw [lookAhead, run_lift_bind, hcheck self hself, hp]
        rfl
      | true =>
        have hps : Differs ps (items.drop (n + 1)) := by
          rw [hl]
          exact h.resolve_left (by simp [hp])
        obtain ⟨error, herror⟩ := ih he hps
        refine ⟨error, fun self hself => ?_⟩
        rw [lookAhead, run_lift_bind, hcheck self hself, hp]
        exact herror self hself

/-- Looking ahead runs into a panic of the lexer. -/
lemma lookAhead_runsOut {checks : List (Check × String)} {n : Nat}
    (e : checks.map Prod.fst = checksFrom n ps) (h : RunsOut ps (self.lexer.items.drop n))
    (ha : self.lexer.aborts = true) : (lookAhead position checks).run self = none := by
  induction ps generalizing checks n with
  | nil => cases h
  | cons p ps ih =>
    obtain ⟨⟨c, message⟩, checks, rfl, rfl, he⟩ := List.map_eq_cons_iff.mp e
    cases hd : self.lexer.items.drop n with
    | nil =>
      rw [lookAhead, run_lift_bind, Part.check_abort (List.drop_eq_nil_iff.mp hd) ha]
      rfl
    | cons item l =>
      obtain ⟨hn, rfl⟩ := drop_cons_inv hd
      rw [hd] at h
      rw [lookAhead, run_lift_bind, Part.check_run hn, h.1]
      exact ih he h.2

/-! ### One alternative -/

/-- An alternative consumes tokens and then fails: an operand is an undefined variable or a byte above 255,
or there is another item than the end of line `op_void` asks for. -/
inductive Form.Stops (symbols : HashMap Token) : Form → List Item → Prop where
  | undefined {f : Form} {items : List Item} {p : Position} {name : String} : Fits f.pattern items →
      .ok ⟨p, .variable name⟩ ∈ items.take f.pattern.length → symbols.integer name = none →
      Stops symbols f items
  | range {items : List Item} {p : Position} {k : Kind} {w : Word} : Fits Form.b.pattern items →
      items.head? = some (.ok ⟨p, k⟩) → WordOrVar symbols k w → 255 < w.toNat → Stops symbols .b items
  | void {item : Item} {items : List Item} : itemKind item ≠ some .eol → Stops symbols .void (item :: items)

/-- An alternative only looks at the items: they do not fit it, and where they end before it does no panic
of the lexer follows. -/
structure Form.Idle (symbols : HashMap Token) (aborts : Bool) (items : List Item) (f : Form) : Prop where
  fits : ¬ Fits f.pattern items
  stops : ¬ f.Stops symbols items
  runsOut : aborts = true → ¬ RunsOut f.pattern items

/-- The end of a line fits that token only. -/
lemma Slot.fits_eol {k : Option Kind} : Slot.eol.fits k = true ↔ k = some .eol := by
  rcases k with _ | k
  · exact ⟨nofun, nofun⟩
  · cases k with
    | eol => exact ⟨fun _ => rfl, fun _ => rfl⟩
    | _ => exact ⟨nofun, nofun⟩

/-- Items on which `op_void` neither succeeds nor stops. -/
lemma void_nil (hf : ¬ Fits Form.void.pattern items) (hs : ¬ Form.void.Stops symbols items) :
    items = [] := by
  cases items with
  | nil => rfl
  | cons item items =>
    exfalso
    apply hs
    apply Form.Stops.void
    intro hk
    exact hf ⟨Slot.fits_eol.mpr hk, trivial⟩

/-- Items that differ give one error, whatever follows them. -/
lemma Form.parse_differs (hf : f ≠ .void) (h : Differs f.pattern items) :
    ∃ error, ∀ self : Parser, items <+: self.lexer.items →
      (f.parse op position).run self = some (.error error, self) := by
  obtain ⟨checks, e, message, hb⟩ := Form.beginsWith hf op position
  obtain ⟨error, herror⟩ := @lookAhead_differs position items f.pattern checks 0 e h
  exact ⟨message error, fun self hself => (hb self).2 _ _ (herror self hself)⟩

/-- Items that end before the alternative does let the panic through. -/
lemma Form.parse_runsOut (h : RunsOut f.pattern self.lexer.items) (ha : self.lexer.aborts = true) :
    (f.parse op position).run self = none := by
  by_cases hf : f = .void
  · subst hf
    obtain ⟨⟨items, aborts⟩, symbols, nodes⟩ := self
    cases ha
    cases items with
    | nil => rfl
    | cons item items => cases h.2
  · obtain ⟨checks, e, _, hb⟩ := Form.beginsWith hf op position
    exact (hb self).1 (lookAhead_runsOut e h ha)

/-- An idle alternative leaves the parser as it was. -/
lemma Form.Idle.parse (h : f.Idle symbols aborts items) :
    ∃ error, (f.parse op position).run ⟨⟨items, aborts⟩, symbols, nodes⟩ =
      some (.error error, ⟨⟨items, aborts⟩, symbols, nodes⟩) := by
  by_cases hf : f = .void
  · subst hf
    cases void_nil h.fits h.stops
    cases aborts with
    | false => exact ⟨_, rfl⟩
    | true => exact absurd trivial (h.runsOut rfl)
  · rcases fits_or_runsOut_or_differs f.pattern items with hfits | hout | hdiffers
    · exact absurd hfits h.fits
    · have hr : Refuses (f.parse op position) ⟨⟨items, aborts⟩, symbols, nodes⟩ :=
        Form.parse_refuses hf op h.fits
      rcases hr with hr | ⟨ha, _⟩
      · exact hr
      · exact absurd hout (h.runsOut ha)
    · obtain ⟨error, herror⟩ := @Form.parse_differs position items op f hf hdiffers
      exact ⟨error, herror _ (List.prefix_refl _)⟩

/-- An alternative that neither fits nor stops refuses. -/
lemma Form.parse_refuses' (hf : ¬ Fits f.pattern items) (hs : ¬ f.Stops symbols items) :
    Refuses (f.parse op position) ⟨⟨items, aborts⟩, symbols, nodes⟩ := by
  by_cases hout : aborts = true ∧ RunsOut f.pattern items
  · exact .inr ⟨hout.1, Form.parse_runsOut hout.2 hout.1⟩
  · have hidle : f.Idle symbols aborts items := ⟨hf, hs, fun ha h => hout ⟨ha, h⟩⟩
    exact .inl hidle.parse

/-- An alternative that fits and does not stop meets an announced operand list. -/
lemma Form.announced_of_fits (op : Op) (hf : Fits f.pattern items) (hs : ¬ f.Stops symbols items) :
    ∃ i, ∃ tokens : List Token, items = tokens.map .ok ++ items.drop f.pattern.length ∧
      Announced symbols op f (tokens.map Token.kind) i := by
  obtain ⟨r, rest, _, hreads⟩ := @Form.parse_fits symbols ⟨1, 1⟩ items f op false [] hf
  cases hreads with
  | @ok tokens _ i e an =>
    refine ⟨i, tokens, ?_, an⟩
    have hlen := an.length_eq
    rw [List.length_map] at hlen
    rw [e, List.drop_left' (by simpa using hlen)]
  | @undefined _ p name l _ hsym e hl _ =>
    exfalso
    refine hs (@Form.Stops.undefined _ _ _ p name hf ?_ hsym)
    have hlt : l.length < f.pattern.length := by
      rcases hl with rfl | ⟨rfl, p0, r, p1, rfl⟩
      · cases f <;> decide
      · exact Nat.lt_of_sub_pos (Nat.succ_pos 1)
    have hget : (items.take f.pattern.length)[l.length]? = some (.ok ⟨p, .variable name⟩) := by
      rw [List.getElem?_take_of_lt hlt, e, List.getElem?_append_right (Nat.le_refl _), Nat.sub_self]
      rfl
    exact List.mem_of_getElem? hget
  | range hb hhead hw hlt =>
    subst hb
    exact absurd (.range hf hhead hw hlt) hs

/-- An alternative reads the announced operand list it fits. -/
lemma Form.parse_announced (an : Announced symbols op f (tokens.map Token.kind) i)
    (hf : Fits f.pattern (tokens.map .ok ++ rest)) :
    (f.parse op position).run ⟨⟨tokens.map .ok ++ rest, aborts⟩, symbols, nodes⟩ =
      some (.ok i, ⟨⟨rest, aborts⟩, symbols, nodes⟩) := by
  obtain ⟨r, rest', hr, hreads⟩ := @Form.parse_fits symbols position _ f op aborts nodes hf
  obtain ⟨rfl, rfl⟩ := hreads.of_announced rfl an
  exact hr

/-- A byte above 255 leaves fewer items. -/
lemma opB_range {p : Position} {k : Kind} {w : Word} (hf : Fits Form.b.pattern items)
    (hhead : items.head? = some (.ok ⟨p, k⟩)) (hw : WordOrVar symbols k w) (hlt : 255 < w.toNat) :
    ∃ error rest, (opB op position).run ⟨⟨items, aborts⟩, symbols, nodes⟩ =
      some (.error error, ⟨⟨rest, aborts⟩, symbols, nodes⟩) ∧ rest.length < items.length := by
  obtain ⟨p0, k', items, rfl, _, h1⟩ := hf.cons_inv
  obtain ⟨p1, _, rest, rfl, ⟨⟩, _⟩ := h1.cons_inv
  cases hhead
  rcases @parseW_run symbols position rest k p p1 aborts nodes hw.is hf with
    ⟨w', hw', hr⟩ | ⟨name, e, rfl, hs, hr⟩
  · cases hw.unique hw'
    refine ⟨s!"Expected <b> at {position.display}", rest, (run_bind_ok (run_adapt hr)).trans ?_, by simp⟩
    rw [if_neg (Nat.not_le.mpr hlt)]
    rfl
  · cases hw with
    | var hsome => cases hs.symm.trans hsome

/-- An alternative that stops leaves fewer items. -/
lemma Form.Stops.parse (h : f.Stops symbols items) :
    ∃ error rest, (f.parse op position).run ⟨⟨items, aborts⟩, symbols, nodes⟩ =
      some (.error error, ⟨⟨rest, aborts⟩, symbols, nodes⟩) ∧ rest.length < items.length := by
  cases h with
  | @undefined _ _ p name hf hm hs =>
    obtain ⟨r, rest, hr, hreads⟩ := @Form.parse_fits symbols position items f op aborts nodes hf
    cases hreads with
    | ok tokens rest e an =>
      exfalso
      have hlen := an.length_eq
      rw [List.length_map] at hlen
      rw [e, List.take_left' (by simpa using hlen)] at hm
      obtain ⟨t, ht, hk⟩ := List.mem_map.mp hm
      cases hk
      obtain ⟨w, hw⟩ := an.defined (List.mem_map.mpr ⟨_, ht, rfl⟩)
      cases hs.symm.trans hw
    | undefined l rest _ e =>
      refine ⟨_, rest, hr, ?_⟩
      rw [e, List.length_append, List.length_cons]
      omega
    | range hb hhead hw hlt =>
      subst hb
      exact opB_range hf hhead hw hlt
  | range hf hhead hw hlt => exact opB_range hf hhead hw hlt
  | @void item items hk =>
    refine ⟨s!"Expected <eol> at {position.display}", items, ?_, Nat.lt_succ_self _⟩
    rcases item with _ | ⟨p, k⟩
    · rfl
    · cases k with
      | eol => exact absurd rfl hk
      | _ => rfl

/-! ### Lines -/

/-- A pattern whose only end of line is the last part. -/
def endsInEol : List Part → Bool
  | [] => false
  | [p] => p == .slot .eol
  | p :: ps => p != .slot .eol && endsInEol ps

/-- Each form ends at the end of the line. -/
lemma Form.endsInEol (f : Form) : endsInEol f.pattern = true := by
  cases f <;> rfl

/-- No other part fits the end of the line. -/
lemma Part.fits_eol {p : Part} : p.fits (some .eol) = true ↔ p = .slot .eol := by
  cases p with
  | slot s => cases s <;> decide
  | wordOrVar => decide

/-- Whether items fit a pattern is settled by the end of their line. -/
lemma LineItems.differs (h : LineItems line) (hp : endsInEol ps = true) (hf : ¬ Fits ps (line ++ rest)) :
    Differs ps line := by
  obtain ⟨l, position, rfl, hl⟩ := h
  induction l generalizing ps with
  | nil =>
    cases ps with
    | nil => cases hp
    | cons p ps =>
      refine .inl (Bool.eq_false_iff.mpr fun heol => ?_)
      rw [show itemKind (some (.ok ⟨position, .eol⟩)) = some .eol from rfl, Part.fits_eol] at heol
      subst heol
      cases ps with
      | nil => exact hf ⟨rfl, trivial⟩
      | cons q ps => cases hp
  | cons item l ih =>
    cases ps with
    | nil => cases hp
    | cons p ps =>
      cases hfit : p.fits (itemKind item) with
      | false => exact .inl hfit
      | true =>
        have hps : endsInEol ps = true := by
          cases ps with
          | nil =>
            rw [eq_of_beq hp] at hfit
            exact absurd (Slot.fits_eol.mp hfit) (hl _ List.mem_cons_self)
          | cons q ps => exact (Bool.and_eq_true_iff.mp hp).2
        exact .inr (ih hps (fun x hx => hl x (List.mem_cons_of_mem _ hx)) fun hfits => hf ⟨hfit, hfits⟩)

/-! ### One alternative after the other -/

/-- The instruction of an alternative. -/
def instruction : Option (Except String Instruction × Parser) → Option Instruction
  | some (.ok i, _) => some i
  | _ => none

/-- The instructions of the alternatives that succeed when each is run on its own. -/
def alone (position : Position) (fs : List (Op × Form)) (self : Parser) : List Instruction :=
  fs.filterMap fun x => instruction ((x.2.parse x.1 position).run self)

/-- Alternatives that stand alone, in two lists. -/
lemma alone_append {gs : List (Op × Form)} :
    alone position (fs ++ gs) self = alone position fs self ++ alone position gs self :=
  List.filterMap_append

/-- An alternative that returns. -/
lemma alone_cons {x : Op × Form} {s : Parser} (h : (x.2.parse x.1 position).run self = some (.ok i, s)) :
    alone position (x :: fs) self = i :: alone position fs self := by
  rw [alone, List.filterMap_cons, h]
  rfl

/-- Alternatives that refuse on their own. -/
lemma alone_refuse (h : ∀ x ∈ fs, Refuses (x.2.parse x.1 position) self) : alone position fs self = [] := by
  apply List.filterMap_eq_nil_iff.mpr
  intro x hx
  rcases h x hx with ⟨e, hr⟩ | ⟨_, hr⟩
  · rw [hr]
    rfl
  · rw [hr]
    rfl

/-- Idle alternatives leave the parser as it was. -/
lemma runAlternatives_idle (h : ∀ x ∈ fs, x.2.Idle symbols aborts items) :
    ∃ results, successes results = [] ∧ runAlternatives position fs ⟨⟨items, aborts⟩, symbols, nodes⟩ =
      some (results, ⟨⟨items, aborts⟩, symbols, nodes⟩) := by
  have herrors : ∀ x ∈ fs, ∃ error, ∀ self : Parser, self = ⟨⟨items, aborts⟩, symbols, nodes⟩ →
      (x.2.parse x.1 position).run self = some (.error error, self) := by
    intro x hx
    obtain ⟨error, herror⟩ := @Form.Idle.parse symbols position items aborts nodes x.1 x.2 (h x hx)
    exact ⟨error, fun self hself => hself ▸ herror⟩
  obtain ⟨results, hnil, hrun⟩ := runAlternatives_errors herrors
  exact ⟨results, hnil, hrun _ rfl⟩

/-- No alternative adds items. -/
lemma Form.parse_length {r s} (h : (f.parse op position).run ⟨⟨items, aborts⟩, symbols, nodes⟩ = some (r, s)) :
    ∃ rest : List Item, s = ⟨⟨rest, aborts⟩, symbols, nodes⟩ ∧ rest.length ≤ items.length := by
  by_cases hs : f.Stops symbols items
  · obtain ⟨e, rest, hr, hlt⟩ := @Form.Stops.parse symbols position items aborts nodes op f hs
    cases hr.symm.trans h
    exact ⟨rest, rfl, Nat.le_of_lt hlt⟩
  by_cases hf : Fits f.pattern items
  · obtain ⟨i, tokens, e, an⟩ := Form.announced_of_fits op hf hs
    rw [e] at h hf
    cases (Form.parse_announced an hf).symm.trans h
    exact ⟨_, rfl, by simp⟩
  · have hr : Refuses (f.parse op position) ⟨⟨items, aborts⟩, symbols, nodes⟩ := Form.parse_refuses' hf hs
    rcases hr with ⟨e, hr⟩ | ⟨_, hr⟩
    · cases hr.symm.trans h
      exact ⟨items, rfl, Nat.le_refl _⟩
    · cases hr.symm.trans h

/-- The alternatives leave no more items than there were. -/
lemma runAlternatives_length {results s}
    (h : runAlternatives position fs ⟨⟨items, aborts⟩, symbols, nodes⟩ = some (results, s)) :
    s.lexer.items.length ≤ items.length := by
  induction fs generalizing items results with
  | nil => cases h; exact Nat.le_refl _
  | cons x fs ih =>
    obtain ⟨op, f⟩ := x
    rw [runAlternatives_cons] at h
    obtain ⟨⟨r, s1⟩, hr, h⟩ := Option.bind_eq_some_iff.mp h
    obtain ⟨⟨rs, s2⟩, hrs, hresult⟩ := Option.map_eq_some_iff.mp h
    cases hresult
    obtain ⟨rest, rfl, hle⟩ := Form.parse_length hr
    exact Nat.le_trans (ih hrs) hle

/-- Alternatives without an instruction that leave all the items are idle. -/
lemma idle_of_runAlternatives {results s}
    (h : runAlternatives position fs ⟨⟨items, aborts⟩, symbols, nodes⟩ = some (results, s))
    (hnil : successes results = []) (hlen : s.lexer.items.length = items.length) :
    ∀ x ∈ fs, x.2.Idle symbols aborts items := by
  induction fs generalizing results with
  | nil => exact nofun
  | cons x fs ih =>
    obtain ⟨op, f⟩ := x
    rw [runAlternatives_cons] at h
    obtain ⟨⟨r, s1⟩, hr, h⟩ := Option.bind_eq_some_iff.mp h
    obtain ⟨⟨rs, s2⟩, hrs, hresult⟩ := Option.map_eq_some_iff.mp h
    cases hresult
    have hs : ¬ f.Stops symbols items := by
      intro hs
      obtain ⟨e, rest, hr', hlt⟩ := @Form.Stops.parse symbols position items aborts nodes op f hs
      cases hr'.symm.trans hr
      exact absurd hlt (Nat.not_lt.mpr (hlen ▸ runAlternatives_length hrs))
    have hf : ¬ Fits f.pattern items := by
      intro hf
      obtain ⟨i, tokens, e, an⟩ := Form.announced_of_fits op hf hs
      rw [e] at hr hf
      cases (Form.parse_announced an hf).symm.trans hr
      rw [successes_ok] at hnil
      cases hnil
    have hidle : f.Idle symbols aborts items := by
      refine ⟨hf, hs, fun ha hout => ?_⟩
      rw [Form.parse_runsOut hout ha] at hr
      cases hr
    obtain ⟨e, hr'⟩ := @Form.Idle.parse symbols position items aborts nodes op f hidle
    cases hr'.symm.trans hr
    intro y hy
    cases List.mem_cons.mp hy with
    | inl hy => exact hy ▸ hidle
    | inr hy => exact ih hrs hnil y hy

/-! ### Backtracking -/

/-- `parse_op` is a backtracking choice on an input. -/
structure Backtracks (position : Position) (fs : List (Op × Form)) (start : Parser) : Prop where
  /-- It returns the instruction of the only alternative that succeeds on its own. -/
  choice : ∀ i, (∃ s, (parseOp position fs).run start = some (.ok i, s)) ↔ alone position fs start = [i]
  /-- Then the tokens of that alternative, up to its end of line, have been consumed. -/
  consumed : ∀ i s, (parseOp position fs).run start = some (.ok i, s) →
    ∃ x ∈ fs, (x.2.parse x.1 position).run start = some (.ok i, s) ∧
      ∃ tokens rest, IsLine tokens ∧ start.lexer.items = tokens.map .ok ++ rest ∧ s.lexer.items = rest
  /-- An alternative that fails consumes nothing. -/
  failing : ∀ x ∈ fs, ∀ e s, (x.2.parse x.1 position).run start = some (.error e, s) → s = start
  /-- The result is the one the line gives alone. -/
  line : ∀ line rest, LineItems line → start.lexer.items = line ++ rest →
    ((parseOp position fs).run start).map Prod.fst =
      ((parseOp position fs).run { start with lexer := ⟨line, false⟩ }).map Prod.fst

/-- No alternative stops, and those after one that fits the items neither fit them nor do anything on the
items that follow. -/
structure Separate (symbols : HashMap Token) (fs : List (Op × Form)) (items : List Item) (aborts : Bool) :
    Prop where
  stops : ∀ x ∈ fs, ¬ x.2.Stops symbols items
  next : ∀ before x after, fs = before ++ x :: after → Fits x.2.pattern items →
    ∀ y ∈ after, ¬ Fits y.2.pattern items ∧ y.2.Idle symbols aborts (items.drop x.2.pattern.length)

/-- On a line that none of them fits the alternatives fail in the same way whatever follows it. -/
lemma runAlternatives_line (hline : LineItems line)
    (h : ∀ x ∈ fs, ¬ Fits x.2.pattern (line ++ rest) ∧ ¬ x.2.Stops symbols (line ++ rest)) :
    ∃ results, successes results = [] ∧
      ∀ self : Parser, line <+: self.lexer.items → runAlternatives position fs self = some (results, self) := by
  apply runAlternatives_errors
  intro x hx
  obtain ⟨hf, hs⟩ := h x hx
  have hv : x.2 ≠ .void := by
    intro hv
    rw [hv] at hf hs
    obtain ⟨l, p, rfl, _⟩ := hline
    simpa using void_nil hf hs
  exact Form.parse_differs hv (hline.differs x.2.endsInEol hf)

/-- Fitting looks at as many items as there are parts. -/
lemma Fits.append {l rest' : List Item} (h : Fits ps (l ++ rest)) (hlen : ps.length ≤ l.length) :
    Fits ps (l ++ rest') := by
  induction ps generalizing l with
  | nil => trivial
  | cons p ps ih =>
    cases l with
    | nil => cases hlen
    | cons item l => exact ⟨h.1, ih h.2 (Nat.le_of_succ_le_succ hlen)⟩

/-- `parse_op` on the line of one alternative, when those before it do not fit and those after it are idle
on what follows. -/
lemma parseOp_announced {before after : List (Op × Form)} {rest' : List Item}
    (an : Announced symbols op f (tokens.map Token.kind) i) (hf : Fits f.pattern (tokens.map .ok ++ rest))
    (hbefore : ∀ x ∈ before, ¬ Fits x.2.pattern (tokens.map .ok ++ rest) ∧
      ¬ x.2.Stops symbols (tokens.map .ok ++ rest))
    (hafter : ∀ x ∈ after, x.2.Idle symbols aborts rest') :
    (parseOp position (before ++ (op, f) :: after)).run ⟨⟨tokens.map .ok ++ rest', aborts⟩, symbols, nodes⟩ =
      some (.ok i, ⟨⟨rest', aborts⟩, symbols, nodes⟩) := by
  obtain ⟨es, hes, hrun⟩ := @runAlternatives_line symbols position rest (tokens.map .ok) before
    an.isLine.lineItems hbefore
  obtain ⟨rs, hrs, hidle⟩ := @runAlternatives_idle symbols position rest' aborts nodes after hafter
  have hlen := an.length_eq
  rw [List.length_map] at hlen
  have hf' : Fits f.pattern (tokens.map .ok ++ rest') := hf.append (by simp [hlen])
  apply parseOp_ok_iff.mpr
  refine ⟨es ++ .ok i :: rs, ?_, by rw [successes_append, hes, successes_ok, hrs]; rfl⟩
  rw [runAlternatives_append, hrun _ (List.prefix_append _ _), Option.bind_some, runAlternatives_cons,
    Form.parse_announced an hf', Option.bind_some, hidle]
  rfl

/-- Nothing fits no items. -/
lemma Form.idle_nil : f.Idle symbols false [] := by
  have hf : ¬ Fits f.pattern [] := by cases f <;> exact id
  refine ⟨hf, fun hs => ?_, nofun⟩
  cases hs with
  | undefined h _ _ => exact hf h
  | range h _ _ _ => exact hf h

/-- The same result with other items left. -/
lemma parseOp_congr {self' : Parser} {results s s'}
    (h : runAlternatives position fs self = some (results, s))
    (h' : runAlternatives position fs self' = some (results, s')) :
    ((parseOp position fs).run self).map Prod.fst = ((parseOp position fs).run self').map Prod.fst := by
  rw [parseOp, run_lift_bind, run_lift_bind, h, h', Option.bind_some, Option.bind_some]
  dsimp only
  split <;> rfl

/-- A choice that no alternative takes backtracks. -/
lemma backtracks_of_none
    (h : ∀ x ∈ fs, ¬ Fits x.2.pattern items ∧ ¬ x.2.Stops symbols items) :
    Backtracks position fs ⟨⟨items, aborts⟩, symbols, nodes⟩ := by
  have hrefuse : ∀ x ∈ fs, Refuses (x.2.parse x.1 position) ⟨⟨items, aborts⟩, symbols, nodes⟩ :=
    fun x hx => Form.parse_refuses' (h x hx).1 (h x hx).2
  have hfail : ∀ i s, (parseOp position fs).run ⟨⟨items, aborts⟩, symbols, nodes⟩ ≠ some (.ok i, s) := by
    intro i s hrun
    obtain ⟨results, hresults, hi⟩ := parseOp_ok_iff.mp hrun
    rw [(runAlternatives_refuses hrefuse hresults).2] at hi
    cases hi
  refine ⟨fun i => ⟨?_, ?_⟩, ?_, ?_, ?_⟩
  · rintro ⟨s, hrun⟩
    exact absurd hrun (hfail i s)
  · intro hi
    rw [alone_refuse hrefuse] at hi
    cases hi
  · exact fun i s hrun => absurd hrun (hfail i s)
  · intro x hx e s hrun
    rcases hrefuse x hx with ⟨_, hr⟩ | ⟨_, hr⟩
    · cases hr.symm.trans hrun
      rfl
    · cases hr.symm.trans hrun
  · rintro line rest hline rfl
    obtain ⟨results, _, hrun⟩ := @runAlternatives_line symbols position rest line fs hline h
    exact parseOp_congr (hrun _ (List.prefix_append _ _)) (hrun _ (List.prefix_refl _))

/-- A choice that one alternative takes backtracks when those after it are idle on what follows. -/
lemma backtracks_of_announced {before after : List (Op × Form)}
    (an : Announced symbols op f (tokens.map Token.kind) i) (hf : Fits f.pattern (tokens.map .ok ++ rest))
    (hothers : ∀ x ∈ before ++ after, ¬ Fits x.2.pattern (tokens.map .ok ++ rest) ∧
      ¬ x.2.Stops symbols (tokens.map .ok ++ rest))
    (hafter : ∀ x ∈ after, x.2.Idle symbols aborts rest) :
    Backtracks position (before ++ (op, f) :: after) ⟨⟨tokens.map .ok ++ rest, aborts⟩, symbols, nodes⟩ := by
  have hbefore := fun x hx => hothers x (List.mem_append_left after hx)
  have hrun := @parseOp_announced symbols position rest aborts nodes op f i tokens before after rest
    an hf hbefore hafter
  have hf_run := @Form.parse_announced symbols position rest aborts nodes op f i tokens an hf
  have hrefuse : ∀ x ∈ before ++ after,
      Refuses (x.2.parse x.1 position) ⟨⟨tokens.map .ok ++ rest, aborts⟩, symbols, nodes⟩ :=
    fun x hx => Form.parse_refuses' (hothers x hx).1 (hothers x hx).2
  have halone : alone position (before ++ (op, f) :: after)
      ⟨⟨tokens.map .ok ++ rest, aborts⟩, symbols, nodes⟩ = [i] := by
    rw [alone_append, alone_refuse fun x hx => hrefuse x (List.mem_append_left _ hx),
      alone_cons (x := (op, f)) hf_run, alone_refuse fun x hx => hrefuse x (List.mem_append_right _ hx)]
    rfl
  refine ⟨fun j => ⟨?_, ?_⟩, ?_, ?_, ?_⟩
  · rintro ⟨s, hj⟩
    cases hrun.symm.trans hj
    exact halone
  · intro hj
    cases halone.symm.trans hj
    exact ⟨_, hrun⟩
  · intro j s hj
    cases hrun.symm.trans hj
    exact ⟨(op, f), by simp, hf_run, tokens, rest, an.isLine, rfl, rfl⟩
  · intro x hx e s hx_run
    by_cases hmem : x ∈ before ++ after
    · rcases hrefuse x hmem with ⟨_, hr⟩ | ⟨_, hr⟩
      · cases hr.symm.trans hx_run
        rfl
      · cases hr.symm.trans hx_run
    · have hx' : x = (op, f) := by
        simp only [List.mem_append, List.mem_cons, not_or] at hx hmem
        tauto
      subst hx'
      cases hf_run.symm.trans hx_run
  · intro line rest' hline e
    obtain ⟨rfl, rfl⟩ := an.isLine.lineItems.unique hline e
    have hline_run := @parseOp_announced symbols position rest false nodes op f i tokens before after []
      an hf hbefore fun _ _ => Form.idle_nil
    rw [List.append_nil] at hline_run
    rw [hrun, hline_run]
    rfl

/-- Alternatives that are apart backtrack. -/
lemma Separate.backtracks (h : Separate symbols fs items aborts) :
    Backtracks position fs ⟨⟨items, aborts⟩, symbols, nodes⟩ := by
  by_cases htake : ∃ x ∈ fs, Fits x.2.pattern items
  · obtain ⟨⟨op, f⟩, hx, hf⟩ := htake
    obtain ⟨before, after, rfl⟩ := List.append_of_mem hx
    have hnext := h.next before (op, f) after rfl hf
    have hbefore : ∀ y ∈ before, ¬ Fits y.2.pattern items := by
      intro y hy hfy
      obtain ⟨b1, b2, rfl⟩ := List.append_of_mem hy
      exact (h.next b1 y (b2 ++ (op, f) :: after) (by simp) hfy (op, f) (by simp)).1 hf
    have hothers : ∀ y ∈ before ++ after, ¬ Fits y.2.pattern items ∧ ¬ y.2.Stops symbols items := by
      intro y hy
      cases List.mem_append.mp hy with
      | inl hy => exact ⟨hbefore y hy, h.stops y (List.mem_append_left _ hy)⟩
      | inr hy =>
        exact ⟨(hnext y hy).1, h.stops y (List.mem_append_right _ (List.mem_cons_of_mem _ hy))⟩
    obtain ⟨i, tokens, e, an⟩ := Form.announced_of_fits op hf (h.stops _ hx)
    have hafter := fun y hy => (hnext y hy).2
    dsimp only at hafter
    generalize items.drop f.pattern.length = rest at e hafter
    subst e
    exact backtracks_of_announced an hf hothers hafter
  · exact backtracks_of_none fun x hx => ⟨fun hf => htake ⟨x, hx, hf⟩, h.stops x hx⟩

/-- The first alternative that fits. -/
lemma first_fits (h : ∃ x ∈ fs, Fits x.2.pattern items) :
    ∃ before x after, fs = before ++ x :: after ∧ Fits x.2.pattern items ∧
      ∀ y ∈ before, ¬ Fits y.2.pattern items := by
  induction fs with
  | nil => obtain ⟨x, hx, _⟩ := h; cases hx
  | cons x fs ih =>
    by_cases hf : Fits x.2.pattern items
    · exact ⟨[], x, fs, rfl, hf, nofun⟩
    · obtain ⟨y, hy, hfy⟩ := h
      have hy : y ∈ fs := (List.mem_cons.mp hy).resolve_left fun e => hf (e ▸ hfy)
      obtain ⟨before, z, after, rfl, hz, hbefore⟩ := ih ⟨y, hy, hfy⟩
      refine ⟨x :: before, z, after, rfl, hz, fun w hw => ?_⟩
      cases List.mem_cons.mp hw with
      | inl e => exact e ▸ hf
      | inr hw => exact hbefore w hw

/-- No alternative fits that does not succeed on its own. -/
lemma not_fits_of_alone (hs : ∀ x ∈ fs, ¬ x.2.Stops symbols items)
    (h : alone position fs ⟨⟨items, aborts⟩, symbols, nodes⟩ = []) : ∀ x ∈ fs, ¬ Fits x.2.pattern items := by
  intro x hx hf
  obtain ⟨i, tokens, e, an⟩ := Form.announced_of_fits x.1 hf (hs x hx)
  have hnone := List.filterMap_eq_nil_iff.mp h x hx
  rw [e] at hf
  rw [e, Form.parse_announced an hf] at hnone
  cases hnone

/-- A choice that backtracks returns an instruction on a line that fits: the line alone gives the one of the
first alternative that fits it, since all later ones meet the end of the items. -/
lemma Backtracks.returns (h : Backtracks position fs ⟨⟨tokens.map .ok ++ rest, aborts⟩, symbols, nodes⟩)
    (hs : ∀ x ∈ fs, ¬ x.2.Stops symbols (tokens.map .ok ++ rest)) (hline : IsLine tokens)
    (hfits : ∃ x ∈ fs, Fits x.2.pattern (tokens.map .ok ++ rest)) :
    ∃ i s, (parseOp position fs).run ⟨⟨tokens.map .ok ++ rest, aborts⟩, symbols, nodes⟩ =
      some (.ok i, s) := by
  obtain ⟨before, ⟨op, f⟩, after, rfl, hf, hbefore⟩ := first_fits hfits
  obtain ⟨i, tokens', e, an⟩ := Form.announced_of_fits op hf (hs (op, f) (by simp))
  obtain ⟨htokens, _⟩ := hline.unique an.isLine e
  subst htokens
  have hb : ∀ y ∈ before, ¬ Fits y.2.pattern (tokens.map .ok ++ rest) ∧
      ¬ y.2.Stops symbols (tokens.map .ok ++ rest) :=
    fun y hy => ⟨hbefore y hy, hs y (List.mem_append_left _ hy)⟩
  have halone := @parseOp_announced symbols position rest false nodes op f i tokens before after []
    an hf hb fun _ _ => Form.idle_nil
  have hresult := h.line (tokens.map .ok) rest an.isLine.lineItems rfl
  rw [List.append_nil] at halone
  rw [halone] at hresult
  obtain ⟨⟨r, s⟩, hrun, hr⟩ := Option.map_eq_some_iff.mp hresult
  dsimp only at hr
  subst hr
  exact ⟨i, s, hrun⟩

/-- Of alternatives that backtrack only one fits, and those after it are idle. -/
lemma Backtracks.separate (h : Backtracks position fs ⟨⟨items, aborts⟩, symbols, nodes⟩) :
    Separate symbols fs items aborts := by
  have hstops : ∀ x ∈ fs, ¬ x.2.Stops symbols items := by
    intro x hx hs
    obtain ⟨e, rest, hr, hlt⟩ := @Form.Stops.parse symbols position items aborts nodes x.1 x.2 hs
    cases h.failing x hx _ _ hr
    exact Nat.lt_irrefl _ hlt
  refine ⟨hstops, ?_⟩
  rintro before ⟨op, f⟩ after rfl hf
  obtain ⟨i, tokens, e, an⟩ := Form.announced_of_fits op hf (hstops (op, f) (by simp))
  dsimp only
  generalize items.drop f.pattern.length = rest at e ⊢
  subst e
  obtain ⟨i', s, hrun⟩ := h.returns hstops an.isLine ⟨(op, f), by simp, hf⟩
  -- The alternative that fits is the only one that succeeds on its own.
  have halone := (h.choice i').mp ⟨s, hrun⟩
  rw [alone_append, alone_cons (x := (op, f)) (Form.parse_announced an hf)] at halone
  have hnil : alone position before ⟨⟨tokens.map .ok ++ rest, aborts⟩, symbols, nodes⟩ = [] ∧
      alone position after ⟨⟨tokens.map .ok ++ rest, aborts⟩, symbols, nodes⟩ = [] := by
    have hlen := congrArg List.length halone
    rw [List.length_append, List.length_cons, List.length_singleton] at hlen
    exact ⟨List.length_eq_zero_iff.mp (by omega), List.length_eq_zero_iff.mp (by omega)⟩
  have hbefore := not_fits_of_alone (fun x hx => hstops x (List.mem_append_left _ hx)) hnil.1
  have hafter := not_fits_of_alone
    (fun x hx => hstops x (List.mem_append_right _ (List.mem_cons_of_mem _ hx))) hnil.2
  -- Those after it have found no instruction in what follows the line, and have left all of it.
  obtain ⟨results, hresults, hi⟩ := parseOp_ok_iff.mp hrun
  obtain ⟨es, hes, hbefore_run⟩ := @runAlternatives_line symbols position rest (tokens.map .ok) before
    an.isLine.lineItems fun y hy => ⟨hbefore y hy, hstops y (List.mem_append_left _ hy)⟩
  rw [runAlternatives_append, hbefore_run _ (List.prefix_append _ _), Option.bind_some,
    runAlternatives_cons, Form.parse_announced an hf, Option.bind_some, Option.map_map] at hresults
  obtain ⟨⟨rs, s'⟩, hrs, hresult⟩ := Option.map_eq_some_iff.mp hresults
  cases hresult
  rw [successes_append, hes, List.nil_append, successes_ok] at hi
  obtain ⟨x, _, _, tokens', rest', hline', e', hs⟩ := h.consumed _ _ hrun
  obtain ⟨_, rfl⟩ := an.isLine.unique hline' e'
  have hidle := idle_of_runAlternatives hrs (List.cons.inj hi).2 (congrArg List.length hs)
  exact fun y hy => ⟨hafter y hy, hidle y hy⟩

/-- The alternatives of a mnemonic never fit the same items. -/
theorem separate_alternatives_iff {name : String} (hfs : alternatives name = some fs) :
    Separate symbols fs items aborts ↔ (∀ x ∈ fs, ¬ x.2.Stops symbols items) ∧
      ∀ before x after, fs = before ++ x :: after → Fits x.2.pattern items →
        ∀ y ∈ after, y.2.Idle symbols aborts (items.drop x.2.pattern.length) := by
  constructor
  · exact fun h => ⟨h.stops, fun before x after e hf y hy => (h.next before x after e hf y hy).2⟩
  · rintro ⟨hstops, hnext⟩
    refine ⟨hstops, fun before x after e hf y hy => ⟨fun hfy => ?_, hnext before x after e hf y hy⟩⟩
    have hp := alternatives_precede hfs
    rw [e] at hp
    have hxy := (List.pairwise_cons.mp (List.pairwise_append.mp hp).2.1).1 y hy
    simp only [Form.precedes, Bool.and_eq_true] at hxy
    exact clashes_fits hxy.1.1.1.1.1 hf hfy

/-- `parse_op` is a backtracking choice exactly on the inputs on which the alternatives are separate. -/
theorem backtracks_iff :
    Backtracks position fs self ↔ Separate self.symbols fs self.lexer.items self.lexer.aborts :=
  ⟨Backtracks.separate, Separate.backtracks⟩

/-- The operands of `PUSH r1` and a next line `5`. -/
def linePush : List Item :=
  [.ok ⟨⟨1, 6⟩, .identifier "r1"⟩, .ok ⟨⟨1, 8⟩, .eol⟩, .ok ⟨⟨2, 1⟩, .integer 5⟩, .ok ⟨⟨2, 2⟩, .eol⟩]

/-- `PUSH r1` is the only alternative that succeeds on its own, but `PUSH <w>` then takes the next line. -/
theorem not_backtracks_push :
    alternatives "PUSH" = some [(.pushR, .r), (.pushRR, .rr), (.pushRRR, .rrr), (.pushW, .w)] ∧
      ¬ Backtracks ⟨1, 1⟩ [(.pushR, .r), (.pushRR, .rr), (.pushRRR, .rrr), (.pushW, .w)]
        ⟨⟨linePush, false⟩, HashMap.new, []⟩ := by
  refine ⟨by decide +kernel, fun h => ?_⟩
  obtain ⟨s, hrun⟩ := (h.choice (.IR .pushR "r1")).mpr rfl
  cases hrun

end Thorium.Asm
