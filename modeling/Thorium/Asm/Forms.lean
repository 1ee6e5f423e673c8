import Thorium.Asm.Parser

/-!
# Operand forms

What each alternative of `parse_instruction` does on any items. `Announced` is the grammar of the
forms, as the doc comments and messages of `parser.rs` announce them. `Form.pattern` is the list of
items the look-ahead of an alternative asks for; an alternative whose pattern does not fit leaves the
parser as it was (`Form.parse_refuses`), and `Form.parse_fits` says what it does otherwise.
-/

namespace Thorium.Asm
open Thorium.Isa Thorium.Run

variable {α β : Type} {symbols : HashMap Token} {position : Position} {self : Parser} {items : List Item}

/-! ### The announced forms -/

/-- `( <w> | <var> )`, with its value. -/
inductive WordOrVar (symbols : HashMap Token) : Kind → Word → Prop where
  | word {w} : WordOrVar symbols (.integer w) w
  | var {name w} : symbols.integer name = some w → WordOrVar symbols (.variable name) w

/-- The operand lists of each form, with the instruction they stand for. -/
inductive Announced (symbols : HashMap Token) (op : Op) : Form → List Kind → Instruction → Prop where
  | aa {a} : Announced symbols op .aa [.address a .absolute, .eol] (.IA op a .absolute)
  | as {a} : Announced symbols op .as [.address a .segment, .eol] (.IA op a .segment)
  | aar {a r} : Announced symbols op .aar [.address a .absolute, .comma, .identifier r, .eol]
      (.IRA op r a .absolute)
  | b {k w} : WordOrVar symbols k w → w.toNat ≤ 255 →
      Announced symbols op .b [k, .eol] (.IB op (w.setWidth 8))
  | r {r} : Announced symbols op .r [.identifier r, .eol] (.IR op r)
  | raa {r a} : Announced symbols op .raa [.identifier r, .comma, .address a .absolute, .eol]
      (.IRA op r a .absolute)
  | ras {r a} : Announced symbols op .ras [.identifier r, .comma, .address a .segment, .eol]
      (.IRA op r a .segment)
  | ro {r1 r2 k w} : WordOrVar symbols k w → Announced symbols op .ro
      [.identifier r1, .comma, .lbracket, .identifier r2, .plus, k, .rbracket, .eol] (.IRRW op r1 r2 w)
  | rr {r1 r2} : Announced symbols op .rr [.identifier r1, .comma, .identifier r2, .eol] (.IRR op r1 r2)
  | rw {r k w} : WordOrVar symbols k w →
      Announced symbols op .rw [.identifier r, .comma, k, .eol] (.IRW op r w)
  | rrr {r1 r2 r3} : Announced symbols op .rrr
      [.identifier r1, .comma, .identifier r2, .comma, .identifier r3, .eol] (.IRRR op r1 r2 r3)
  | void : Announced symbols op .void [.eol] (.I op)
  | w {k w} : WordOrVar symbols k w → Announced symbols op .w [k, .eol] (.IW op w)
  | wr {k w r} : WordOrVar symbols k w →
      Announced symbols op .wr [k, .comma, .identifier r, .eol] (.IRW op r w)

/-! ### Looking ahead -/

/-- One position of an operand list. -/
inductive Part where
  | slot (s : Slot)
  | wordOrVar
  deriving DecidableEq, Repr

/-- The items a part stands for. -/
def Part.fits : Part → Option Kind → Bool
  | slot s, k => s.fits k
  | wordOrVar, k => Slot.word.fits k || Slot.var.fits k

/-- Items that begin with a list of parts. -/
def Fits : List Part → List Item → Prop
  | [], _ => True
  | _ :: _, [] => False
  | p :: ps, item :: items => p.fits (itemKind item) = true ∧ Fits ps items

/-- The check of a part at position `n`. -/
def Part.check (n : Nat) : Part → Check
  | slot s => .one s n
  | wordOrVar => .wordOrVar n n

/-- The checks of a list of parts from position `n` on. -/
def checksFrom (n : Nat) : List Part → List Check
  | [] => []
  | p :: ps => p.check n :: checksFrom (n + 1) ps

/-- The parts an alternative looks for. At the offset of `ro` only an integer passes: the variable is
looked for at position 3, where a register has been seen. -/
def Form.pattern : Form → List Part
  | aa => [.slot .absAddress, .slot .eol]
  | as => [.slot .segAddress, .slot .eol]
  | aar => [.slot .absAddress, .slot .comma, .slot .register, .slot .eol]
  | b => [.wordOrVar, .slot .eol]
  | r => [.slot .register, .slot .eol]
  | raa => [.slot .register, .slot .comma, .slot .absAddress, .slot .eol]
  | ras => [.slot .register, .slot .comma, .slot .segAddress, .slot .eol]
  | ro => [.slot .register, .slot .comma, .slot .lbracket, .slot .register, .slot .plus, .slot .word,
      .slot .rbracket, .slot .eol]
  | rr => [.slot .register, .slot .comma, .slot .register, .slot .eol]
  | rw => [.slot .register, .slot .comma, .wordOrVar, .slot .eol]
  | rrr => [.slot .register, .slot .comma, .slot .register, .slot .comma, .slot .register, .slot .eol]
  | void => [.slot .eol]
  | w => [.wordOrVar, .slot .eol]
  | wr => [.wordOrVar, .slot .comma, .slot .register, .slot .eol]

/-- Whether the items pass a check. -/
def Check.passes (items : List Item) : Check → Bool
  | one slot n => slot.fits (itemKind items[n]?)
  | wordOrVar n v => Slot.word.fits (itemKind items[n]?) || Slot.var.fits (itemKind items[v]?)

/-- At the end of the items no slot fits. -/
@[simp] lemma Slot.fits_none (s : Slot) : s.fits none = false := by
  cases s <;> rfl

/-- The kinds of token a part stands for. -/
inductive Part.Is : Part → Kind → Prop where
  | register {r} : Is (.slot .register) (.identifier r)
  | comma : Is (.slot .comma) .comma
  | lbracket : Is (.slot .lbracket) .lbracket
  | rbracket : Is (.slot .rbracket) .rbracket
  | plus : Is (.slot .plus) .plus
  | absAddress {a} : Is (.slot .absAddress) (.address a .absolute)
  | segAddress {a} : Is (.slot .segAddress) (.address a .segment)
  | word {w} : Is (.slot .word) (.integer w)
  | var {name} : Is (.slot .var) (.variable name)
  | eol : Is (.slot .eol) .eol
  | orWord {w} : Is .wordOrVar (.integer w)
  | orVar {name} : Is .wordOrVar (.variable name)

/-- A part fits the tokens it stands for. -/
lemma Part.fits_iff {p : Part} {k : Option Kind} : p.fits k = true ↔ ∃ k', k = some k' ∧ p.Is k' := by
  constructor
  · intro h
    rcases k with _ | k
    · cases p <;> simp [Part.fits] at h
    · refine ⟨k, rfl, ?_⟩
      cases p with
      | slot s =>
        cases s <;> cases k with
        | address a kind => cases kind <;> first | constructor | cases h
        | _ => first | constructor | cases h
      | wordOrVar => cases k <;> first | constructor | cases h
  · rintro ⟨k, rfl, h⟩
    cases h <;> rfl

/-- The first item of a list that fits. -/
lemma Fits.cons_inv {p ps} (h : Fits (p :: ps) items) :
    ∃ position k rest, items = .ok ⟨position, k⟩ :: rest ∧ p.Is k ∧ Fits ps rest := by
  cases items with
  | nil => cases h
  | cons item rest =>
    obtain ⟨k, e, hk⟩ := Part.fits_iff.mp h.1
    cases item with
    | error err => cases e
    | ok t => cases e; exact ⟨t.position, t.kind, rest, rfl, hk, h.2⟩

/-- The item and the items after it at a place that is not the end. -/
lemma drop_cons_inv {l rest : List Item} {n : Nat} {item : Item} (h : l.drop n = item :: rest) :
    l[n]? = some item ∧ l.drop (n + 1) = rest := by
  constructor
  · rw [← List.head?_drop, h]
    rfl
  · rw [← List.tail_drop, h]
    rfl

/-- Items that pass the checks of a list of parts begin with it. -/
lemma fits_of_checks {ps : List Part} {n : Nat}
    (h : ∀ c ∈ checksFrom n ps, c.passes items = true) : Fits ps (items.drop n) := by
  induction ps generalizing n with
  | nil => trivial
  | cons p ps ih =>
    have hp := h (p.check n) List.mem_cons_self
    have hps := ih fun c hc => h c (List.mem_cons_of_mem _ hc)
    have hfits : p.fits (itemKind items[n]?) = true := by
      cases p with
      | slot s => exact hp
      | wordOrVar => exact hp
    cases hd : items.drop n with
    | nil =>
      have hn : items[n]? = none := List.getElem?_eq_none (List.drop_eq_nil_iff.mp hd)
      rw [hn] at hfits
      cases p <;> simp [Part.fits, itemKind] at hfits
    | cons item rest =>
      obtain ⟨hn, hr⟩ := drop_cons_inv hd
      rw [hn] at hfits
      rw [hr] at hps
      exact ⟨hfits, hps⟩

/-- The check of a part on an item. -/
lemma Part.check_run {p : Part} {n : Nat} {item : Item} (h : self.lexer.items[n]? = some item) :
    (p.check n).holds self = some (p.fits (itemKind item), self) := by
  have hpeek : ∀ s, peekSlot s n self = some (s.fits (itemKind item), self) := fun s => by
    rw [peekSlot, Run.bind_apply, peekNth, if_pos (List.getElem?_eq_some_iff.mp h).1, h]
    rfl
  cases p with
  | slot s => exact hpeek s
  | wordOrVar =>
    rw [Part.check, Check.holds, Run.bind_apply, hpeek, Part.fits]
    cases Slot.word.fits (itemKind item) with
    | true => rfl
    | false => exact hpeek .var

/-! ### Refusal -/

/-- An error that leaves the parser as it was, unless the items end in a panic of the lexer. -/
def Refuses (m : ParserR α) (self : Parser) : Prop :=
  (∃ e, m.run self = some (.error e, self)) ∨ self.lexer.aborts = true ∧ m.run self = none

/-- A peek returns whether the item fits. -/
lemma peekSlot_run (s : Slot) (n : Nat) :
    peekSlot s n self = some (s.fits (itemKind self.lexer.items[n]?), self) ∨
      self.lexer.aborts = true ∧ peekSlot s n self = none := by
  rw [peekSlot, Run.bind_apply, peekNth]
  split
  · exact .inl rfl
  · rename_i hn
    rw [List.getElem?_eq_none (Nat.le_of_not_lt hn)]
    split
    · rename_i ha
      exact .inr ⟨ha, rfl⟩
    · exact .inl rfl

/-- A check returns whether the items pass it. -/
lemma Check.holds_run (c : Check) :
    c.holds self = some (c.passes self.lexer.items, self) ∨
      self.lexer.aborts = true ∧ c.holds self = none := by
  cases c with
  | one s n => exact peekSlot_run s n
  | wordOrVar n v =>
    rw [Check.holds, Run.bind_apply, Check.passes]
    rcases @peekSlot_run self .word n with h | ⟨ha, h⟩
    · rw [h]
      cases Slot.word.fits (itemKind self.lexer.items[n]?) with
      | true => exact .inl rfl
      | false => exact peekSlot_run .var v
    · exact .inr ⟨ha, by rw [h]; rfl⟩

/-- Looking ahead refuses items that do not pass. -/
lemma lookAhead_refuses {checks : List (Check × String)}
    (h : ¬ ∀ c ∈ checks.map Prod.fst, c.passes self.lexer.items = true) :
    Refuses (lookAhead position checks) self := by
  induction checks with
  | nil => exact absurd nofun h
  | cons c checks ih =>
    obtain ⟨c, message⟩ := c
    rw [Refuses, lookAhead, run_lift_bind]
    rcases @Check.holds_run self c with hc | ⟨ha, hc⟩
    · rw [hc]
      cases hp : c.passes self.lexer.items with
      | false => exact .inl ⟨_, rfl⟩
      | true =>
        apply ih
        intro hall
        apply h
        intro c' hm
        cases List.mem_cons.mp hm with
        | inl e => exact e ▸ hp
        | inr hm => exact hall c' hm
    · exact .inr ⟨ha, by rw [hc]; rfl⟩

/-- Looking ahead at the same items after a first check. -/
lemma lookAhead_congr {c : Check} {message : String} {checks checks' : List (Check × String)}
    (h : c.passes self.lexer.items = true →
      (lookAhead position checks).run self = (lookAhead position checks').run self) :
    (lookAhead position ((c, message) :: checks)).run self =
      (lookAhead position ((c, message) :: checks')).run self := by
  rw [lookAhead, lookAhead, run_lift_bind, run_lift_bind]
  rcases @Check.holds_run self c with hc | ⟨_, hc⟩
  · rw [hc]
    cases hp : c.passes self.lexer.items with
    | false => rfl
    | true => exact h hp
  · rw [hc]
    rfl

/-- A first check that comes to the same. -/
lemma lookAhead_check_congr {c c' : Check} {message : String} {checks : List (Check × String)}
    (h : c.holds self = c'.holds self) :
    (lookAhead position ((c, message) :: checks)).run self =
      (lookAhead position ((c', message) :: checks)).run self := by
  rw [lookAhead, lookAhead, run_lift_bind, run_lift_bind, h]

/-- The check for a variable at the register of `parse_ro` never passes. -/
lemma lookAhead_ro {m0 m1 m2 m3 m4 m5 m6 m7 : String} :
    (lookAhead position [(.one .register 0, m0), (.one .comma 1, m1), (.one .lbracket 2, m2),
      (.one .register 3, m3), (.one .plus 4, m4), (.wordOrVar 5 3, m5), (.one .rbracket 6, m6),
      (.one .eol 7, m7)]).run self =
    (lookAhead position [(.one .register 0, m0), (.one .comma 1, m1), (.one .lbracket 2, m2),
      (.one .register 3, m3), (.one .plus 4, m4), (.one .word 5, m5), (.one .rbracket 6, m6),
      (.one .eol 7, m7)]).run self := by
  refine lookAhead_congr fun _ => lookAhead_congr fun _ => lookAhead_congr fun _ =>
    lookAhead_congr fun h3 => lookAhead_congr fun _ => ?_
  obtain ⟨k, hk, hr⟩ := (@Part.fits_iff (.slot .register) _).mp h3
  cases hr
  -- Item 3 has been seen to be a register, so peeking at it again does not panic.
  have hvar : peekSlot .var 3 self = some (false, self) := by
    rw [peekSlot, Run.bind_apply, peekNth, if_pos ?_]
    · rw [Option.bind_some, hk]
      rfl
    · by_contra hlt
      rw [List.getElem?_eq_none (Nat.le_of_not_lt hlt)] at hk
      cases hk
  apply lookAhead_check_congr
  rw [Check.holds, Check.holds, Run.bind_apply]
  rcases @peekSlot_run self .word 5 with hw | ⟨_, hw⟩
  · rw [hw]
    cases Slot.word.fits (itemKind self.lexer.items[5]?) with
    | true => rfl
    | false => exact hvar
  · rw [hw]
    rfl

/-- A computation that ends with `l` when `l` fails or panics. -/
def BeginsWith (l : ParserR α) (m : ParserR β) : Prop :=
  ∃ message : String → String, ∀ self, (l.run self = none → m.run self = none) ∧
    ∀ e s, l.run self = some (.error e, s) → m.run self = some (.error (message e), s)

namespace BeginsWith
variable {γ : Type} {l : ParserR α} {m : ParserR β}

/-- A sequence begins with its first part. -/
lemma start {f : α → ParserR β} : BeginsWith l (l >>= f) := by
  refine ⟨id, fun self => ⟨fun h => ?_, fun e s h => run_bind_error h⟩⟩
  rw [ExceptT.run_bind, Run.bind_apply, h]
  rfl

/-- What follows does not matter. -/
lemma bind {f : β → ParserR γ} (h : BeginsWith l m) : BeginsWith l (m >>= f) := by
  obtain ⟨message, h⟩ := h
  refine ⟨message, fun self => ⟨fun hl => ?_, fun e s hl => run_bind_error ((h self).2 e s hl)⟩⟩
  rw [ExceptT.run_bind, Run.bind_apply, (h self).1 hl]
  rfl

/-- The texts of errors do not matter. -/
lemma adapt {g : String → String} (h : BeginsWith l m) : BeginsWith l (ExceptT.adapt g m) := by
  obtain ⟨message, h⟩ := h
  refine ⟨g ∘ message, fun self => ⟨fun hl => ?_, fun e s hl => run_adapt ((h self).2 e s hl)⟩⟩
  rw [ExceptT.run_adapt, Run.map_apply, (h self).1 hl]
  rfl

/-- What runs in the same way begins in the same way. -/
lemma congr {l' : ParserR α} (h : BeginsWith l m) (hl : ∀ self, l.run self = l'.run self) :
    BeginsWith l' m := by
  obtain ⟨message, h⟩ := h
  refine ⟨message, fun self => ?_⟩
  rw [← hl self]
  exact h self

end BeginsWith

/-- An alternative begins by looking ahead at its pattern. -/
lemma Form.beginsWith {f : Form} (hf : f ≠ .void) (op : Op) (position : Position) :
    ∃ checks : List (Check × String), checks.map Prod.fst = checksFrom 0 f.pattern ∧
      BeginsWith (lookAhead position checks) (f.parse op position) := by
  cases f with
  | aa => exact ⟨_, rfl, BeginsWith.start.bind⟩
  | as => exact ⟨_, rfl, BeginsWith.start.bind⟩
  | aar => exact ⟨_, rfl, BeginsWith.start.bind⟩
  | b => exact ⟨_, rfl, BeginsWith.start.adapt.bind⟩
  | r => exact ⟨_, rfl, BeginsWith.start.bind⟩
  | raa => exact ⟨_, rfl, BeginsWith.start.bind⟩
  | ras => exact ⟨_, rfl, BeginsWith.start.bind⟩
  | ro => exact ⟨_, rfl, BeginsWith.start.bind.congr fun _ => lookAhead_ro⟩
  | rr => exact ⟨_, rfl, BeginsWith.start.bind⟩
  | rw => exact ⟨_, rfl, BeginsWith.start.bind⟩
  | rrr => exact ⟨_, rfl, BeginsWith.start.bind⟩
  | void => exact absurd rfl hf
  | w => exact ⟨_, rfl, BeginsWith.start.bind⟩
  | wr => exact ⟨_, rfl, BeginsWith.start.bind⟩

/-- An alternative whose pattern does not fit refuses. -/
lemma Form.parse_refuses {f : Form} (hf : f ≠ .void) (op : Op)
    (h : ¬ Fits f.pattern self.lexer.items) : Refuses (f.parse op position) self := by
  obtain ⟨checks, e, message, hb⟩ := Form.beginsWith hf op position
  have hl : Refuses (lookAhead position checks) self := by
    apply lookAhead_refuses
    rw [e]
    exact fun hc => h (fits_of_checks hc)
  rcases hl with ⟨error, hl⟩ | ⟨ha, hl⟩
  · exact .inl ⟨message error, (hb self).2 _ _ hl⟩
  · exact .inr ⟨ha, (hb self).1 hl⟩

/-! ### Acceptance -/

/-- What an alternative whose pattern fits makes of the items: the instruction of an announced operand
list, or an error because a variable is not defined, which leaves the items after it, or because a byte
is too large. -/
inductive Reads (symbols : HashMap Token) (op : Op) (f : Form) (items : List Item) :
    Except String Instruction → List Item → Prop where
  | ok (tokens : List Token) (rest : List Item) {i} : items = tokens.map .ok ++ rest →
      Announced symbols op f (tokens.map Token.kind) i → Reads symbols op f items (.ok i) rest
  | undefined {e p name} (l rest : List Item) : symbols.integer name = none →
      items = l ++ .ok ⟨p, .variable name⟩ :: rest →
      l = [] ∨ f = .rw ∧ (∃ p0 r p1, l = [.ok ⟨p0, .identifier r⟩, .ok ⟨p1, .comma⟩]) →
      itemKind rest.head? = some .eol ∨ itemKind rest.head? = some .comma →
      Reads symbols op f items (.error e) rest
  | range {e p k w rest} : f = .b → items.head? = some (.ok ⟨p, k⟩) → WordOrVar symbols k w →
      255 < w.toNat → Reads symbols op f items (.error e) rest

/-- `readWord` on an integer or a variable. -/
lemma readWord_run {k p aborts nodes} (hk : Part.Is .wordOrVar k) :
    (∃ w, WordOrVar symbols k w ∧ (readWord position).run ⟨⟨.ok ⟨p, k⟩ :: items, aborts⟩, symbols, nodes⟩ =
        some (.ok w, ⟨⟨items, aborts⟩, symbols, nodes⟩)) ∨
      ∃ name e, k = .variable name ∧ symbols.integer name = none ∧
        (readWord position).run ⟨⟨.ok ⟨p, k⟩ :: items, aborts⟩, symbols, nodes⟩ =
          some (.error e, ⟨⟨items, aborts⟩, symbols, nodes⟩) := by
  cases hk with
  | @orWord w => exact .inl ⟨w, .word, rfl⟩
  | @orVar name =>
    have hr (f : Option Token → ParserR Word) :
        ((liftM readNext : ParserR (Option Token)) >>= f).run
            ⟨⟨.ok ⟨p, .variable name⟩ :: items, aborts⟩, symbols, nodes⟩ =
          (f (some ⟨p, .variable name⟩)).run ⟨⟨items, aborts⟩, symbols, nodes⟩ := rfl
    have hget (f : Parser → ParserR Word) : (get >>= f).run ⟨⟨items, aborts⟩, symbols, nodes⟩ =
        (f ⟨⟨items, aborts⟩, symbols, nodes⟩).run ⟨⟨items, aborts⟩, symbols, nodes⟩ := rfl
    cases hs : symbols.integer name with
    | some w =>
      refine .inl ⟨w, .var hs, ?_⟩
      simp only [readWord, hr, hget, hs]
      rfl
    | none =>
      refine .inr ⟨name, s!"Unknown variable '{name}' at {position.display}", rfl, hs, ?_⟩
      simp only [readWord, hr, hget, hs]
      rfl

/-- Looking ahead passes on items that begin with the parts it checks for. -/
lemma lookAhead_drop {ps : List Part} {checks : List (Check × String)} {n : Nat}
    (e : checks.map Prod.fst = checksFrom n ps) (h : Fits ps (self.lexer.items.drop n)) :
    (lookAhead position checks).run self = some (.ok (), self) := by
  induction ps generalizing checks n with
  | nil =>
    cases List.map_eq_nil_iff.mp e
    rfl
  | cons p ps ih =>
    obtain ⟨⟨c, message⟩, checks, rfl, rfl, he⟩ := List.map_eq_cons_iff.mp e
    obtain ⟨position', k, rest, hd, hk, h⟩ := h.cons_inv
    obtain ⟨hn, rfl⟩ := drop_cons_inv hd
    have hfits : p.fits (itemKind (some (.ok ⟨position', k⟩))) = true := Part.fits_iff.mpr ⟨k, rfl, hk⟩
    rw [lookAhead, run_lift_bind, Part.check_run hn, hfits]
    exact ih he h

/-- A look ahead passes where the pattern fits. -/
lemma lookAhead_pass {ps : List Part} {checks : List (Check × String)} {aborts nodes}
    (e : checks.map Prod.fst = checksFrom 0 ps) (h : Fits ps items) :
    (lookAhead position checks).run ⟨⟨items, aborts⟩, symbols, nodes⟩ =
      some (.ok (), ⟨⟨items, aborts⟩, symbols, nodes⟩) :=
  lookAhead_drop e h

/-- `parse_w` on its pattern. -/
lemma parseW_run {k p0 p1 aborts nodes} (hk : Part.Is .wordOrVar k)
    (h : Fits Form.w.pattern (.ok ⟨p0, k⟩ :: .ok ⟨p1, .eol⟩ :: items)) :
    (∃ w, WordOrVar symbols k w ∧
      (parseW position).run ⟨⟨.ok ⟨p0, k⟩ :: .ok ⟨p1, .eol⟩ :: items, aborts⟩, symbols, nodes⟩ =
        some (.ok w, ⟨⟨items, aborts⟩, symbols, nodes⟩)) ∨
      ∃ name e, k = .variable name ∧ symbols.integer name = none ∧
        (parseW position).run ⟨⟨.ok ⟨p0, k⟩ :: .ok ⟨p1, .eol⟩ :: items, aborts⟩, symbols, nodes⟩ =
          some (.error e, ⟨⟨.ok ⟨p1, .eol⟩ :: items, aborts⟩, symbols, nodes⟩) := by
  rcases readWord_run hk with ⟨w, hw, hr⟩ | ⟨name, e, rfl, hs, hr⟩
  · refine .inl ⟨w, hw, ?_⟩
    refine (run_bind_ok (lookAhead_pass rfl h)).trans ?_
    exact run_bind_ok hr
  · refine .inr ⟨name, e, rfl, hs, ?_⟩
    refine (run_bind_ok (lookAhead_pass rfl h)).trans ?_
    exact run_bind_error hr

/-- What an alternative whose pattern fits returns. -/
lemma Form.parse_fits {f : Form} (op : Op) (aborts : Bool) (nodes : List Node)
    (h : Fits f.pattern items) :
    ∃ r rest, (f.parse op position).run ⟨⟨items, aborts⟩, symbols, nodes⟩ =
        some (r, ⟨⟨rest, aborts⟩, symbols, nodes⟩) ∧ Reads symbols op f items r rest := by
  cases f with
  | aa =>
    obtain ⟨p0, _, items, rfl, ⟨⟩, h1⟩ := h.cons_inv
    obtain ⟨p1, _, rest, rfl, ⟨⟩, h2⟩ := h1.cons_inv
    exact ⟨_, rest, rfl, .ok [⟨p0, _⟩, ⟨p1, _⟩] rest rfl .aa⟩
  | as =>
    obtain ⟨p0, _, items, rfl, ⟨⟩, h1⟩ := h.cons_inv
    obtain ⟨p1, _, rest, rfl, ⟨⟩, h2⟩ := h1.cons_inv
    exact ⟨_, rest, rfl, .ok [⟨p0, _⟩, ⟨p1, _⟩] rest rfl .as⟩
  | aar =>
    obtain ⟨p0, _, items, rfl, ⟨⟩, h1⟩ := h.cons_inv
    obtain ⟨p1, _, items, rfl, ⟨⟩, h2⟩ := h1.cons_inv
    obtain ⟨p2, _, items, rfl, ⟨⟩, h3⟩ := h2.cons_inv
    obtain ⟨p3, _, rest, rfl, ⟨⟩, h4⟩ := h3.cons_inv
    exact ⟨_, rest, rfl, .ok [⟨p0, _⟩, ⟨p1, _⟩, ⟨p2, _⟩, ⟨p3, _⟩] rest rfl .aar⟩
  | b =>
    obtain ⟨p0, k, items, rfl, hk, h1⟩ := h.cons_inv
    obtain ⟨p1, _, rest, rfl, ⟨⟩, h2⟩ := h1.cons_inv
    rcases parseW_run hk h with ⟨w, hw, hr⟩ | ⟨name, e, rfl, hs, hr⟩
    -- The byte is checked after the line has been consumed.
    · by_cases hle : w.toNat ≤ 255
      · refine ⟨.ok (.IB op (w.setWidth 8)), rest, ?_, .ok [⟨p0, k⟩, ⟨p1, _⟩] rest rfl (.b hw hle)⟩
        refine (run_bind_ok (run_adapt hr)).trans ?_
        rw [if_pos hle]
        rfl
      · refine ⟨.error s!"Expected <b> at {position.display}", rest, ?_, .range rfl rfl hw (by omega)⟩
        refine (run_bind_ok (run_adapt hr)).trans ?_
        rw [if_neg hle]
        rfl
    · exact ⟨_, .ok ⟨p1, .eol⟩ :: rest, run_bind_error (run_adapt hr),
        .undefined [] _ hs rfl (.inl rfl) (.inl rfl)⟩
  | r =>
    obtain ⟨p0, _, items, rfl, ⟨⟩, h1⟩ := h.cons_inv
    obtain ⟨p1, _, rest, rfl, ⟨⟩, h2⟩ := h1.cons_inv
    exact ⟨_, rest, rfl, .ok [⟨p0, _⟩, ⟨p1, _⟩] rest rfl .r⟩
  | raa =>
    obtain ⟨p0, _, items, rfl, ⟨⟩, h1⟩ := h.cons_inv
    obtain ⟨p1, _, items, rfl, ⟨⟩, h2⟩ := h1.cons_inv
    obtain ⟨p2, _, items, rfl, ⟨⟩, h3⟩ := h2.cons_inv
    obtain ⟨p3, _, rest, rfl, ⟨⟩, h4⟩ := h3.cons_inv
    exact ⟨_, rest, rfl, .ok [⟨p0, _⟩, ⟨p1, _⟩, ⟨p2, _⟩, ⟨p3, _⟩] rest rfl .raa⟩
  | ras =>
    obtain ⟨p0, _, items, rfl, ⟨⟩, h1⟩ := h.cons_inv
    obtain ⟨p1, _, items, rfl, ⟨⟩, h2⟩ := h1.cons_inv
    obtain ⟨p2, _, items, rfl, ⟨⟩, h3⟩ := h2.cons_inv
    obtain ⟨p3, _, rest, rfl, ⟨⟩, h4⟩ := h3.cons_inv
    exact ⟨_, rest, rfl, .ok [⟨p0, _⟩, ⟨p1, _⟩, ⟨p2, _⟩, ⟨p3, _⟩] rest rfl .ras⟩
  | ro =>
    obtain ⟨p0, _, items, rfl, ⟨⟩, h1⟩ := h.cons_inv
    obtain ⟨p1, _, items, rfl, ⟨⟩, h2⟩ := h1.cons_inv
    obtain ⟨p2, _, items, rfl, ⟨⟩, h3⟩ := h2.cons_inv
    obtain ⟨p3, _, items, rfl, ⟨⟩, h4⟩ := h3.cons_inv
    obtain ⟨p4, _, items, rfl, ⟨⟩, h5⟩ := h4.cons_inv
    obtain ⟨p5, _, items, rfl, ⟨⟩, h6⟩ := h5.cons_inv
    obtain ⟨p6, _, items, rfl, ⟨⟩, h7⟩ := h6.cons_inv
    obtain ⟨p7, _, rest, rfl, ⟨⟩, h8⟩ := h7.cons_inv
    exact ⟨_, rest, rfl,
      .ok [⟨p0, _⟩, ⟨p1, _⟩, ⟨p2, _⟩, ⟨p3, _⟩, ⟨p4, _⟩, ⟨p5, _⟩, ⟨p6, _⟩, ⟨p7, _⟩] rest rfl (.ro .word)⟩
  | rr =>
    obtain ⟨p0, _, items, rfl, ⟨⟩, h1⟩ := h.cons_inv
    obtain ⟨p1, _, items, rfl, ⟨⟩, h2⟩ := h1.cons_inv
    obtain ⟨p2, _, items, rfl, ⟨⟩, h3⟩ := h2.cons_inv
    obtain ⟨p3, _, rest, rfl, ⟨⟩, h4⟩ := h3.cons_inv
    exact ⟨_, rest, rfl, .ok [⟨p0, _⟩, ⟨p1, _⟩, ⟨p2, _⟩, ⟨p3, _⟩] rest rfl .rr⟩
  | rw =>
    obtain ⟨p0, _, items, rfl, ⟨⟩, h1⟩ := h.cons_inv
    obtain ⟨p1, _, items, rfl, ⟨⟩, h2⟩ := h1.cons_inv
    obtain ⟨p2, k, items, rfl, hk, h3⟩ := h2.cons_inv
    obtain ⟨p3, _, rest, rfl, ⟨⟩, h4⟩ := h3.cons_inv
    rcases readWord_run hk with ⟨w, hw, hr⟩ | ⟨name, e, rfl, hs, hr⟩
    · refine ⟨.ok (.IRW op _ w), rest, ?_, .ok [⟨p0, _⟩, ⟨p1, _⟩, ⟨p2, k⟩, ⟨p3, _⟩] rest rfl (.rw hw)⟩
      refine (run_bind_ok (a := (_, w)) ?_).trans rfl
      refine (run_bind_ok (lookAhead_pass rfl h)).trans ?_
      refine (run_bind_ok rfl).trans ?_
      refine (run_bind_ok rfl).trans ?_
      exact run_bind_ok hr
    · refine ⟨.error e, .ok ⟨p3, .eol⟩ :: rest, run_bind_error ?_,
        .undefined [.ok ⟨p0, _⟩, .ok ⟨p1, _⟩] _ hs rfl (.inr ⟨rfl, p0, _, p1, rfl⟩) (.inl rfl)⟩
      refine (run_bind_ok (lookAhead_pass rfl h)).trans ?_
      refine (run_bind_ok rfl).trans ?_
      refine (run_bind_ok rfl).trans ?_
      exact run_bind_error hr
  | rrr =>
    obtain ⟨p0, _, items, rfl, ⟨⟩, h1⟩ := h.cons_inv
    obtain ⟨p1, _, items, rfl, ⟨⟩, h2⟩ := h1.cons_inv
    obtain ⟨p2, _, items, rfl, ⟨⟩, h3⟩ := h2.cons_inv
    obtain ⟨p3, _, items, rfl, ⟨⟩, h4⟩ := h3.cons_inv
    obtain ⟨p4, _, items, rfl, ⟨⟩, h5⟩ := h4.cons_inv
    obtain ⟨p5, _, rest, rfl, ⟨⟩, h6⟩ := h5.cons_inv
    exact ⟨_, rest, rfl, .ok [⟨p0, _⟩, ⟨p1, _⟩, ⟨p2, _⟩, ⟨p3, _⟩, ⟨p4, _⟩, ⟨p5, _⟩] rest rfl .rrr⟩
  | void =>
    obtain ⟨p0, _, rest, rfl, ⟨⟩, h1⟩ := h.cons_inv
    exact ⟨_, rest, rfl, .ok [⟨p0, _⟩] rest rfl .void⟩
  | w =>
    obtain ⟨p0, k, items, rfl, hk, h1⟩ := h.cons_inv
    obtain ⟨p1, _, rest, rfl, ⟨⟩, h2⟩ := h1.cons_inv
    rcases parseW_run hk h with ⟨w, hw, hr⟩ | ⟨name, e, rfl, hs, hr⟩
    · exact ⟨_, rest, run_bind_ok hr, .ok [⟨p0, k⟩, ⟨p1, _⟩] rest rfl (.w hw)⟩
    · exact ⟨_, .ok ⟨p1, .eol⟩ :: rest, run_bind_error hr,
        .undefined [] _ hs rfl (.inl rfl) (.inl rfl)⟩
  | wr =>
    obtain ⟨p0, k, items, rfl, hk, h1⟩ := h.cons_inv
    obtain ⟨p1, _, items, rfl, ⟨⟩, h2⟩ := h1.cons_inv
    obtain ⟨p2, _, items, rfl, ⟨⟩, h3⟩ := h2.cons_inv
    obtain ⟨p3, _, rest, rfl, ⟨⟩, h4⟩ := h3.cons_inv
    rcases readWord_run hk with ⟨w, hw, hr⟩ | ⟨name, e, rfl, hs, hr⟩
    · refine ⟨.ok (.IRW op _ w), rest, ?_, .ok [⟨p0, k⟩, ⟨p1, _⟩, ⟨p2, _⟩, ⟨p3, _⟩] rest rfl (.wr hw)⟩
      refine (run_bind_ok (a := (w, _)) ?_).trans rfl
      refine (run_bind_ok (lookAhead_pass rfl h)).trans ?_
      exact run_bind_ok hr
    · refine ⟨.error e, _, run_bind_error ?_, .undefined [] _ hs rfl (.inl rfl) (.inr rfl)⟩
      refine (run_bind_ok (lookAhead_pass rfl h)).trans ?_
      exact run_bind_error hr

end Thorium.Asm
