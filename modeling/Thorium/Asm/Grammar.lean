import Thorium.Asm.Forms

/-!
# The operand grammar

`parse_instruction` against the announced forms. The alternatives of a mnemonic clash pairwise
(`alternatives_precede`), so at most one of them fits a line. They are nonetheless all tried, one after
the other, and after the one that fits has consumed its line those that follow it read on in the next
line; `Outcome` says what can come of that.
-/

namespace Thorium.Asm
open Thorium.Isa Thorium.Run

variable {symbols : HashMap Token} {position : Position} {items rest : List Item} {op : Op} {f g : Form}
  {ks : List Kind} {i : Instruction} {fs : List (Op × Form)}

/-! ### Facts about the announced forms -/

/-- A word is read in one way. -/
lemma WordOrVar.unique {k w w'} (h : WordOrVar symbols k w) (h' : WordOrVar symbols k w') : w = w' := by
  cases h with
  | word => cases h'; rfl
  | var hs =>
    cases h' with
    | var hs' => exact Option.some.inj (hs.symm.trans hs')

/-- An operand list stands for one instruction. -/
lemma Announced.unique {i'} (h : Announced symbols op f ks i) (h' : Announced symbols op f ks i') :
    i = i' := by
  cases h with
  | b hw _ => cases h' with | b hw' _ => rw [hw.unique hw']
  | ro hw => cases h' with | ro hw' => rw [hw.unique hw']
  | rw hw => cases h' with | rw hw' => rw [hw.unique hw']
  | w hw => cases h' with | w hw' => rw [hw.unique hw']
  | wr hw => cases h' with | wr hw' => rw [hw.unique hw']
  | _ => cases h'; rfl

/-- An operand list is as long as the pattern of its form. -/
lemma Announced.length_eq (h : Announced symbols op f ks i) : ks.length = f.pattern.length := by
  cases h <;> rfl

/-- The only end of line of an operand list is its last token. -/
lemma Announced.eol (h : Announced symbols op f ks i) :
    Kind.eol ∉ ks.dropLast ∧ ks.getLast? = some .eol := by
  cases h with
  | b hw _ => cases hw <;> simp
  | ro hw => cases hw <;> simp
  | rw hw => cases hw <;> simp
  | w hw => cases hw <;> simp
  | wr hw => cases hw <;> simp
  | _ => simp

/-- Tokens up to the end of a line. -/
def IsLine (tokens : List Token) : Prop :=
  ∃ l p, tokens = l ++ [⟨p, .eol⟩] ∧ ∀ t ∈ l, t.kind ≠ .eol

/-- Items up to the end of a line. -/
def LineItems (line : List Item) : Prop :=
  ∃ l p, line = l ++ [.ok ⟨p, .eol⟩] ∧ ∀ item ∈ l, itemKind (some item) ≠ some .eol

/-- A line of tokens is a line of items. -/
lemma IsLine.lineItems {tokens : List Token} (h : IsLine tokens) : LineItems (tokens.map .ok) := by
  obtain ⟨l, p, rfl, hl⟩ := h
  refine ⟨l.map .ok, p, by simp, fun item hm hk => ?_⟩
  obtain ⟨t, ht, rfl⟩ := List.mem_map.mp hm
  exact hl t ht (Option.some.inj hk)

/-- Two lines of items at the beginning of the same items. -/
lemma LineItems.unique {line line' rest' : List Item} (h : LineItems line) (h' : LineItems line')
    (e : line ++ rest = line' ++ rest') : line = line' ∧ rest = rest' := by
  obtain ⟨l, p, rfl, hl⟩ := h
  obtain ⟨l', p', rfl, hl'⟩ := h'
  rw [List.append_assoc, List.append_assoc] at e
  induction l generalizing l' with
  | nil =>
    cases l' with
    | nil => cases e; exact ⟨rfl, rfl⟩
    | cons item l' => cases e; exact absurd rfl (hl' _ List.mem_cons_self)
  | cons item l ih =>
    cases l' with
    | nil => cases e; exact absurd rfl (hl _ List.mem_cons_self)
    | cons item' l' =>
      obtain ⟨rfl, hrec⟩ := List.cons.inj e
      obtain ⟨hline, hrest⟩ := ih (fun x hx => hl x (List.mem_cons_of_mem _ hx)) l'
        (fun x hx => hl' x (List.mem_cons_of_mem _ hx)) hrec
      exact ⟨congrArg (item :: ·) hline, hrest⟩

/-- Two lines at the beginning of the same items. -/
lemma IsLine.unique {xs ys : List Token} {l l' : List Item} (hx : IsLine xs) (hy : IsLine ys)
    (e : xs.map .ok ++ l = ys.map .ok ++ l') : xs = ys ∧ l = l' := by
  obtain ⟨hline, hrest⟩ := hx.lineItems.unique hy.lineItems e
  exact ⟨List.map_injective_iff.mpr (fun _ _ => Except.ok.inj) hline, hrest⟩

/-- An operand list is a line. -/
lemma Announced.isLine {tokens : List Token} (h : Announced symbols op f (tokens.map Token.kind) i) :
    IsLine tokens := by
  obtain ⟨hmem, hlast⟩ := h.eol
  rw [List.getLast?_map, Option.map_eq_some_iff] at hlast
  obtain ⟨⟨p, k⟩, hlast, rfl⟩ := hlast
  refine ⟨tokens.dropLast, p, (List.dropLast_append_getLast? _ hlast).symm, fun t ht hk => ?_⟩
  rw [← List.map_dropLast] at hmem
  exact hmem (List.mem_map.mpr ⟨t, ht, hk⟩)

/-- The variables of an operand list are defined. -/
lemma Announced.defined {name} (h : Announced symbols op f ks i) (hn : Kind.variable name ∈ ks) :
    ∃ w, symbols.integer name = some w := by
  have hv : ∀ {k w}, WordOrVar symbols k w → Kind.variable name = k →
      ∃ w, symbols.integer name = some w := by
    rintro k w hw rfl
    cases hw with
    | var hs => exact ⟨_, hs⟩
  cases h with
  | b hw _ => exact hv hw (by simpa using hn)
  | ro hw => exact hv hw (by simpa using hn)
  | rw hw => exact hv hw (by simpa using hn)
  | w hw => exact hv hw (by simpa using hn)
  | wr hw => exact hv hw (by simpa using hn)
  | _ => simp at hn

/-- A word or a variable is what its part announces. -/
lemma WordOrVar.is {k w} (h : WordOrVar symbols k w) : Part.Is .wordOrVar k := by
  cases h with
  | word => exact .orWord
  | var => exact .orVar

/-- Tokens that a list of parts stands for fit it. -/
lemma fits_of_forall₂ {ps : List Part} {tokens : List Token}
    (h : List.Forall₂ Part.Is ps (tokens.map Token.kind)) : Fits ps (tokens.map .ok ++ rest) := by
  induction ps generalizing tokens with
  | nil => trivial
  | cons p ps ih =>
    cases tokens with
    | nil => cases h
    | cons t tokens =>
      cases h with
      | cons hp h => exact ⟨Part.fits_iff.mpr ⟨t.kind, rfl, hp⟩, ih h⟩

/-- An announced operand list fits the pattern of its form, unless it has a variable for the offset of
`ro`. -/
lemma Announced.fits {tokens : List Token} (h : Announced symbols op f (tokens.map Token.kind) i)
    (hro : f = .ro → ∃ w, (tokens.map Token.kind)[5]? = some (.integer w)) :
    Fits f.pattern (tokens.map .ok ++ rest) := by
  apply fits_of_forall₂
  generalize tokens.map Token.kind = ks at h hro
  cases h with
  | aa => exact .cons .absAddress (.cons .eol .nil)
  | as => exact .cons .segAddress (.cons .eol .nil)
  | aar => exact .cons .absAddress (.cons .comma (.cons .register (.cons .eol .nil)))
  | b hw _ => exact .cons hw.is (.cons .eol .nil)
  | r => exact .cons .register (.cons .eol .nil)
  | raa => exact .cons .register (.cons .comma (.cons .absAddress (.cons .eol .nil)))
  | ras => exact .cons .register (.cons .comma (.cons .segAddress (.cons .eol .nil)))
  | ro hw =>
    obtain ⟨w, e⟩ := hro rfl
    cases e
    exact .cons .register (.cons .comma (.cons .lbracket (.cons .register (.cons .plus (.cons .word
      (.cons .rbracket (.cons .eol .nil)))))))
  | rr => exact .cons .register (.cons .comma (.cons .register (.cons .eol .nil)))
  | rw hw => exact .cons .register (.cons .comma (.cons hw.is (.cons .eol .nil)))
  | rrr =>
    exact .cons .register (.cons .comma (.cons .register (.cons .comma (.cons .register
      (.cons .eol .nil)))))
  | void => exact .cons .eol .nil
  | w hw => exact .cons hw.is (.cons .eol .nil)
  | wr hw => exact .cons hw.is (.cons .comma (.cons .register (.cons .eol .nil)))

/-- An alternative that meets an announced operand list reads it. -/
lemma Reads.of_announced {r rest'} {tokens : List Token} (h : Reads symbols op f items r rest')
    (e : items = tokens.map .ok ++ rest) (an : Announced symbols op f (tokens.map Token.kind) i) :
    r = .ok i ∧ rest' = rest := by
  have hlen := an.length_eq
  rw [List.length_map] at hlen
  cases h with
  | ok tokens' rest' e' an' =>
    have hlen' := an'.length_eq
    rw [List.length_map] at hlen'
    obtain ⟨ht, hr⟩ := List.append_inj (e'.symm.trans e) (by simp [hlen, hlen'])
    have hm : tokens' = tokens := List.map_injective_iff.mpr (fun _ _ => Except.ok.inj) ht
    subst hm
    exact ⟨congrArg _ (an'.unique an), hr⟩
  | @undefined _ p name l rest' hs e' hl hr =>
    exfalso
    have hlt : l.length < tokens.length := by
      rw [hlen]
      rcases hl with rfl | ⟨rfl, p0, r, p1, rfl⟩
      · cases f <;> decide
      · exact Nat.lt_of_sub_pos (Nat.succ_pos 1)
    have hv := congrArg (fun l' => l'[l.length]?) (e.symm.trans e')
    rw [List.getElem?_append_left (by simpa using hlt), List.getElem?_append_right (Nat.le_refl _),
      Nat.sub_self, List.getElem?_cons_zero, List.getElem?_map, Option.map_eq_some_iff] at hv
    obtain ⟨t, ht, hk⟩ := hv
    cases hk
    have hm : Kind.variable name ∈ tokens.map Token.kind :=
      List.mem_map.mpr ⟨_, List.mem_of_getElem? ht, rfl⟩
    obtain ⟨w, hw⟩ := an.defined hm
    exact nomatch hs.symm.trans hw
  | @range _ p k w _ hf hhead hw hb =>
    exfalso
    subst hf
    generalize hks : tokens.map Token.kind = ks at an
    cases an with
    | b hw' hb' =>
      obtain ⟨t, tokens, rfl, rfl, _⟩ := List.map_eq_cons_iff.mp hks
      rw [e] at hhead
      cases hhead
      rw [hw.unique hw'] at hb
      exact Nat.not_lt.mpr hb' hb

/-! ### Clashing patterns -/

/-- Parts that stand for different tokens. -/
def Part.clash : Part → Part → Bool
  | slot s, slot t => s != t
  | slot s, wordOrVar => s != .word && s != .var
  | wordOrVar, slot s => s != .word && s != .var
  | wordOrVar, wordOrVar => false

/-- Parts that clash read different tokens. -/
lemma Part.clash_is {p q : Part} {k : Kind} (h : p.clash q = true) (hp : p.Is k) (hq : q.Is k) : False := by
  cases hp <;> cases hq <;> cases h

/-- Patterns that clash somewhere. -/
def clashes : List Part → List Part → Bool
  | p :: ps, q :: qs => p.clash q || clashes ps qs
  | _, _ => false

/-- No items fit clashing patterns. -/
lemma clashes_fits {ps qs : List Part} (h : clashes ps qs = true) (hp : Fits ps items)
    (hq : Fits qs items) : False := by
  induction ps generalizing qs items with
  | nil => cases h
  | cons p ps ih =>
    cases qs with
    | nil => cases h
    | cons q qs =>
      obtain ⟨_, k, rest, rfl, hp, hps⟩ := hp.cons_inv
      obtain ⟨_, _, _, e, hq, hqs⟩ := hq.cons_inv
      cases e
      rw [clashes, Bool.or_eq_true] at h
      cases h with
      | inl h => exact Part.clash_is h hp hq
      | inr h => exact ih h hps hqs

/-- An alternative may stand before another: their patterns clash, and only a last alternative is one
of `void`, `b` and `w`. -/
def Form.precedes (f g : Form) : Bool :=
  clashes f.pattern g.pattern && f != .void && f != .b && f != .w && g != .void && g != .b

/-- The alternatives of every mnemonic are in such an order. -/
lemma alternatives_precede {name} (h : alternatives name = some fs) :
    fs.Pairwise fun x y => x.2.precedes y.2 = true := by
  unfold alternatives at h
  split at h <;> cases h <;> decide

/-! ### One alternative after the other -/

/-- A success is counted. -/
@[simp] lemma successes_ok {results} : successes (.ok i :: results) = i :: successes results := rfl

/-- Successes of two lists of results. -/
@[simp] lemma successes_append {results results'} :
    successes (results ++ results') = successes results ++ successes results' :=
  List.filterMap_append

/-- An error is not counted. -/
@[simp] lemma successes_error {e results} : successes (.error e :: results) = successes results := rfl

/-- The first alternative runs before the others. -/
lemma runAlternatives_cons {s : Parser} :
    runAlternatives position ((op, f) :: fs) s =
      ((f.parse op position).run s).bind fun r =>
        (runAlternatives position fs r.2).map fun rs => (r.1 :: rs.1, rs.2) := by
  rw [runAlternatives, Run.bind_apply]
  congr 1
  funext r
  rw [Run.bind_apply]
  cases runAlternatives position fs r.2 <;> rfl

/-- What alternatives without an instruction leave of the items: all of them, or those after an
undefined variable. -/
def Leftover (symbols : HashMap Token) (items rest : List Item) : Prop :=
  rest = items ∨ ∃ l p name, symbols.integer name = none ∧ items = l ++ .ok ⟨p, .variable name⟩ :: rest ∧
    (l = [] ∨ ∃ p0 r p1, l = [.ok ⟨p0, .identifier r⟩, .ok ⟨p1, .comma⟩]) ∧
    (itemKind rest.head? = some .eol ∨ itemKind rest.head? = some .comma)

/-- What can come of the alternatives `fs` on some items: the instructions and the items left. -/
inductive Outcome (symbols : HashMap Token) (fs : List (Op × Form)) (items : List Item) :
    List Instruction → List Item → Prop where
  | none {rest : List Item} : (∃ x ∈ fs, x.2 = .void ∨ x.2 = .b) ∨ Leftover symbols items rest →
      Outcome symbols fs items [] rest
  | one {op : Op} {f : Form} {i : Instruction} {rest' : List Item} (tokens : List Token)
      (rest : List Item) : (op, f) ∈ fs → Fits f.pattern items → items = tokens.map .ok ++ rest →
      Announced symbols op f (tokens.map Token.kind) i → Leftover symbols rest rest' →
      Outcome symbols fs items [i] rest'
  | many {op : Op} {f : Form} {i j : Instruction} {is : List Instruction} {rest' : List Item}
      (tokens : List Token) (rest : List Item) : (op, f) ∈ fs → items = tokens.map .ok ++ rest →
      Announced symbols op f (tokens.map Token.kind) i → Outcome symbols fs items (i :: j :: is) rest'

/-- The alternatives after one that refuses. -/
lemma Outcome.cons {is} (h : Outcome symbols fs items is rest) :
    Outcome symbols ((op, f) :: fs) items is rest := by
  cases h with
  | none h =>
    refine .none (h.imp_left ?_)
    rintro ⟨x, hx, hv⟩
    exact ⟨x, List.mem_cons_of_mem _ hx, hv⟩
  | one tokens rest hm hf e an hl => exact .one tokens rest (List.mem_cons_of_mem _ hm) hf e an hl
  | many tokens rest hm e an => exact .many tokens rest (List.mem_cons_of_mem _ hm) e an

/-- No alternative but `void` fits items that begin with an end of line or a comma. -/
lemma not_fits_of_head (hg : g ≠ .void)
    (h : itemKind items.head? = some .eol ∨ itemKind items.head? = some .comma) :
    ¬ Fits g.pattern items := by
  intro hf
  have hp : ∃ p ps, g.pattern = p :: ps ∧ ¬ p.Is .eol ∧ ¬ p.Is .comma := by
    cases g with
    | void => exact absurd rfl hg
    | _ => exact ⟨_, _, rfl, nofun, nofun⟩
  obtain ⟨p, ps, e, heol, hcomma⟩ := hp
  rw [e] at hf
  obtain ⟨_, k, _, rfl, hk, _⟩ := hf.cons_inv
  cases h with
  | inl h => cases h; exact heol hk
  | inr h => cases h; exact hcomma hk

/-- Alternatives run one after the other. -/
lemma runAlternatives_append {self : Parser} {gs : List (Op × Form)} :
    runAlternatives position (fs ++ gs) self = (runAlternatives position fs self).bind fun r =>
      (runAlternatives position gs r.2).map fun r' => (r.1 ++ r'.1, r'.2) := by
  induction fs generalizing self with
  | nil =>
    rw [List.nil_append, runAlternatives, Run.pure_apply, Option.bind_some]
    exact Option.map_id'.symm
  | cons x fs ih =>
    obtain ⟨op, f⟩ := x
    rw [List.cons_append, runAlternatives_cons, runAlternatives_cons, Option.bind_assoc]
    congr 1
    funext r
    rw [ih]
    cases runAlternatives position fs r.2 with
    | none => rfl
    | some r' => simp [Function.comp_def]

/-- Alternatives that refuse leave the parser as it was. -/
lemma runAlternatives_refuses {self : Parser} {results s}
    (h : ∀ x ∈ fs, Refuses (x.2.parse x.1 position) self)
    (hrun : runAlternatives position fs self = some (results, s)) : s = self ∧ successes results = [] := by
  induction fs generalizing results with
  | nil => cases hrun; exact ⟨rfl, rfl⟩
  | cons x fs ih =>
    obtain ⟨op, f⟩ := x
    rw [runAlternatives_cons] at hrun
    rcases h _ List.mem_cons_self with ⟨e, hr⟩ | ⟨_, hr⟩
    · rw [hr] at hrun
      obtain ⟨⟨rs, s'⟩, hrs, hresult⟩ := Option.map_eq_some_iff.mp hrun
      cases hresult
      obtain ⟨rfl, hnil⟩ := ih (fun y hy => h y (List.mem_cons_of_mem _ hy)) hrs
      exact ⟨rfl, hnil⟩
    · rw [hr] at hrun
      cases hrun

/-- `op_void` without an end of line. -/
lemma opVoid_refuse {aborts nodes r s'} (hf : ¬ Fits Form.void.pattern items)
    (h : (opVoid op position).run ⟨⟨items, aborts⟩, symbols, nodes⟩ = some (r, s')) :
    ∃ e rest, r = .error e ∧ s' = ⟨⟨rest, aborts⟩, symbols, nodes⟩ := by
  rcases items with _ | ⟨_ | ⟨p, k⟩, items⟩
  · cases aborts with
    | true => cases h
    | false => cases h; exact ⟨_, _, rfl, rfl⟩
  · cases h; exact ⟨_, _, rfl, rfl⟩
  · by_cases hk : k = .eol
    · subst hk
      exact absurd ⟨rfl, trivial⟩ hf
    · cases k with
      | eol => exact absurd rfl hk
      | _ => cases h; exact ⟨_, _, rfl, rfl⟩

/-- The outcome of the alternatives of a mnemonic. -/
lemma runAlternatives_outcome {aborts nodes results s'}
    (hfs : fs.Pairwise fun x y => x.2.precedes y.2 = true)
    (h : runAlternatives position fs ⟨⟨items, aborts⟩, symbols, nodes⟩ = some (results, s')) :
    ∃ rest, s' = ⟨⟨rest, aborts⟩, symbols, nodes⟩ ∧
      Outcome symbols fs items (successes results) rest := by
  induction fs generalizing items results with
  | nil => cases h; exact ⟨items, rfl, .none (.inr (.inl rfl))⟩
  | cons x fs ih =>
    obtain ⟨op, f⟩ := x
    obtain ⟨hx, hfs⟩ := List.pairwise_cons.mp hfs
    have hlast : f = .void ∨ f = .b → fs = [] := by
      intro hv
      cases fs with
      | nil => rfl
      | cons y fs =>
        have hy := hx y List.mem_cons_self
        rcases hv with rfl | rfl <;> simp [Form.precedes] at hy
    have htail : ∀ y ∈ fs, y.2 ≠ .void ∧ y.2 ≠ .b := by
      intro y hy
      have hp := hx y hy
      constructor <;> intro e <;> simp [Form.precedes, e] at hp
    rw [runAlternatives_cons] at h
    -- The first alternative takes the line, stops in it or refuses; the others run on what it leaves.
    by_cases hf : Fits f.pattern items
    · obtain ⟨r, rest, hr, hreads⟩ := @Form.parse_fits symbols position items f op aborts nodes hf
      rw [hr] at h
      obtain ⟨⟨rs, s''⟩, hrs, e⟩ := Option.map_eq_some_iff.mp h
      cases e
      cases hreads with
      | ok tokens _ e an =>
        obtain ⟨rest', rfl, ho⟩ := ih hfs hrs
        refine ⟨rest', rfl, ?_⟩
        rw [successes_ok]
        generalize successes rs = is at ho
        cases ho with
        | none hl =>
          refine .one tokens rest List.mem_cons_self hf e an (hl.resolve_left ?_)
          rintro ⟨y, hy, hv⟩
          exact hv.elim (htail y hy).1 (htail y hy).2
        | one => exact .many tokens rest List.mem_cons_self e an
        | many => exact .many tokens rest List.mem_cons_self e an
      | undefined l _ hs e hl hhead =>
        have hrefuse : ∀ y ∈ fs, Refuses (y.2.parse y.1 position) ⟨⟨rest, aborts⟩, symbols, nodes⟩ :=
          fun y hy => Form.parse_refuses (htail y hy).1 y.1 (not_fits_of_head (htail y hy).1 hhead)
        obtain ⟨rfl, hnil⟩ := runAlternatives_refuses hrefuse hrs
        rw [successes_error, hnil]
        exact ⟨rest, rfl, .none (.inr (.inr ⟨l, _, _, hs, e, hl.imp_right And.right, hhead⟩))⟩
      | range hb =>
        cases hlast (.inr hb)
        cases hrs
        exact ⟨rest, rfl, .none (.inl ⟨_, List.mem_cons_self, .inr hb⟩)⟩
    · by_cases hv : f = .void
      · cases hlast (.inl hv)
        subst hv
        obtain ⟨⟨r, s''⟩, hr, hrs⟩ := Option.bind_eq_some_iff.mp h
        obtain ⟨e, rest, rfl, rfl⟩ := opVoid_refuse hf hr
        cases hrs
        exact ⟨rest, rfl, .none (.inl ⟨_, List.mem_cons_self, .inl rfl⟩)⟩
      · have hr : Refuses (f.parse op position) ⟨⟨items, aborts⟩, symbols, nodes⟩ :=
          Form.parse_refuses hv op hf
        rcases hr with ⟨e, hr⟩ | ⟨_, hr⟩
        · rw [hr] at h
          obtain ⟨⟨rs, s''⟩, hrs, e⟩ := Option.map_eq_some_iff.mp h
          cases e
          obtain ⟨rest, rfl, ho⟩ := ih hfs hrs
          exact ⟨rest, rfl, ho.cons⟩
        · rw [hr] at h
          cases h

/-- On items that end without a panic an alternative returns. -/
lemma Form.parse_total {nodes} :
    ∃ r rest, (f.parse op position).run ⟨⟨items, false⟩, symbols, nodes⟩ =
      some (r, ⟨⟨rest, false⟩, symbols, nodes⟩) := by
  by_cases hf : Fits f.pattern items
  · obtain ⟨r, rest, hr, _⟩ := @Form.parse_fits symbols position items f op false nodes hf
    exact ⟨r, rest, hr⟩
  · by_cases hv : f = .void
    · subst hv
      rcases items with _ | ⟨_ | ⟨p, k⟩, items⟩
      · exact ⟨_, _, rfl⟩
      · exact ⟨_, _, rfl⟩
      · cases k <;> exact ⟨_, _, rfl⟩
    · have hr : Refuses (f.parse op position) ⟨⟨items, false⟩, symbols, nodes⟩ :=
        Form.parse_refuses hv op hf
      rcases hr with ⟨e, hr⟩ | ⟨ha, _⟩
      · exact ⟨_, _, hr⟩
      · cases ha

/-- The alternatives return, whatever the items are. -/
lemma runAlternatives_total {nodes} :
    ∃ results s', runAlternatives position fs ⟨⟨items, false⟩, symbols, nodes⟩ = some (results, s') := by
  induction fs generalizing items with
  | nil => exact ⟨_, _, rfl⟩
  | cons x fs ih =>
    obtain ⟨op, f⟩ := x
    obtain ⟨r, rest, hr⟩ := @Form.parse_total symbols position items op f nodes
    obtain ⟨results, s', hrs⟩ := @ih rest
    refine ⟨r :: results, s', ?_⟩
    rw [runAlternatives_cons, hr, Option.bind_some, hrs]
    rfl

/-- Alternatives that fail and leave the items all the same return. -/
lemma runAlternatives_errors {S : Parser → Prop}
    (h : ∀ x ∈ fs, ∃ error, ∀ self, S self → (x.2.parse x.1 position).run self = some (.error error, self)) :
    ∃ results, successes results = [] ∧
      ∀ self, S self → runAlternatives position fs self = some (results, self) := by
  induction fs with
  | nil => exact ⟨[], rfl, fun _ _ => rfl⟩
  | cons x fs ih =>
    obtain ⟨op, f⟩ := x
    obtain ⟨error, herror⟩ := h _ List.mem_cons_self
    obtain ⟨results, hnil, hrun⟩ := ih fun y hy => h y (List.mem_cons_of_mem _ hy)
    refine ⟨.error error :: results, hnil, fun self hself => ?_⟩
    rw [runAlternatives_cons, herror self hself, Option.bind_some, hrun self hself]
    rfl

/-- An alternative that meets an announced operand list succeeds, after those before it have failed. -/
lemma runAlternatives_split {nodes fs'} {tokens : List Token}
    (hfs : (fs ++ (op, f) :: fs').Pairwise fun x y => x.2.precedes y.2 = true)
    (hf : Fits f.pattern (tokens.map .ok ++ rest))
    (an : Announced symbols op f (tokens.map Token.kind) i) :
    ∃ es, successes es = [] ∧
      runAlternatives position (fs ++ (op, f) :: fs') ⟨⟨tokens.map .ok ++ rest, false⟩, symbols, nodes⟩ =
        (runAlternatives position fs' ⟨⟨rest, false⟩, symbols, nodes⟩).map
          fun r => (es ++ .ok i :: r.1, r.2) := by
  have hbefore : ∀ x ∈ fs, ∃ error, ∀ self : Parser,
      self = ⟨⟨tokens.map .ok ++ rest, false⟩, symbols, nodes⟩ →
        (x.2.parse x.1 position).run self = some (.error error, self) := by
    intro x hx
    have hp : x.2.precedes f = true :=
      (List.pairwise_append.mp hfs).2.2 x hx (op, f) List.mem_cons_self
    simp only [Form.precedes, Bool.and_eq_true, bne_iff_ne] at hp
    have hg : ¬ Fits x.2.pattern (tokens.map .ok ++ rest) := fun hg =>
      clashes_fits hp.1.1.1.1.1 hg hf
    have hr : Refuses (x.2.parse x.1 position) ⟨⟨tokens.map .ok ++ rest, false⟩, symbols, nodes⟩ :=
      Form.parse_refuses hp.1.1.1.1.2 x.1 hg
    rcases hr with ⟨e, hr⟩ | ⟨ha, _⟩
    · exact ⟨e, fun self hself => hself ▸ hr⟩
    · cases ha
  obtain ⟨es, hes, hrun⟩ := runAlternatives_errors hbefore
  obtain ⟨r, rest', hr, hreads⟩ := @Form.parse_fits symbols position _ f op false nodes hf
  obtain ⟨rfl, rfl⟩ := hreads.of_announced rfl an
  refine ⟨es, hes, ?_⟩
  rw [runAlternatives_append, hrun _ rfl, Option.bind_some, runAlternatives_cons, hr, Option.bind_some,
    Option.map_map]
  rfl

/-! ### `parse_instruction` -/

/-- When `parse_op` returns an instruction. -/
lemma parseOp_ok_iff {s s' : Parser} :
    (parseOp position fs).run s = some (.ok i, s') ↔
      ∃ results, runAlternatives position fs s = some (results, s') ∧ successes results = [i] := by
  rw [parseOp, run_lift_bind, Option.bind_eq_some_iff]
  constructor
  · rintro ⟨⟨results, s''⟩, hrun, h⟩
    refine ⟨results, ?_⟩
    dsimp only at h
    split at h
    · cases h
    · rename_i j hj
      cases h
      exact ⟨hrun, hj⟩
    · cases h
  · rintro ⟨results, hrun, h⟩
    refine ⟨_, hrun, ?_⟩
    dsimp only
    rw [h]
    rfl

/-- What `parse_instruction` has read when it returns an instruction. -/
theorem parseInstruction_ok {name aborts nodes s'}
    (h : (parseInstruction name position).run ⟨⟨items, aborts⟩, symbols, nodes⟩ = some (.ok i, s')) :
    ∃ fs op f, ∃ tokens : List Token, ∃ rest rest', alternatives name = some fs ∧ (op, f) ∈ fs ∧
      Fits f.pattern items ∧ items = tokens.map .ok ++ rest ∧
      Announced symbols op f (tokens.map Token.kind) i ∧ Leftover symbols rest rest' ∧
      s' = ⟨⟨rest', aborts⟩, symbols, nodes⟩ := by
  rw [parseInstruction] at h
  cases hfs : alternatives name with
  | none => rw [hfs] at h; cases h
  | some fs =>
    rw [hfs] at h
    obtain ⟨results, hrun, hs⟩ := parseOp_ok_iff.mp h
    obtain ⟨rest', rfl, ho⟩ := runAlternatives_outcome (alternatives_precede hfs) hrun
    rw [hs] at ho
    cases ho with
    | one tokens rest hm hf e an hl =>
      exact ⟨fs, _, _, tokens, rest, rest', rfl, hm, hf, e, an, hl, rfl⟩

/-- `parse_instruction` reads an announced operand list when no later alternative finds another one
after it. -/
theorem parseInstruction_complete {name fs' nodes} {tokens : List Token}
    (hfs : alternatives name = some (fs ++ (op, f) :: fs'))
    (an : Announced symbols op f (tokens.map Token.kind) i)
    (hro : f = .ro → ∃ w, (tokens.map Token.kind)[5]? = some (.integer w))
    (hrest : ∀ y ∈ fs', ∀ (tokens' : List Token) rest' j, rest = tokens'.map .ok ++ rest' →
      ¬ Announced symbols y.1 y.2 (tokens'.map Token.kind) j) :
    ∃ rest', Leftover symbols rest rest' ∧
      (parseInstruction name position).run ⟨⟨tokens.map .ok ++ rest, false⟩, symbols, nodes⟩ =
        some (.ok i, ⟨⟨rest', false⟩, symbols, nodes⟩) := by
  have hp := alternatives_precede hfs
  obtain ⟨es, hes, hrun⟩ := @runAlternatives_split symbols position rest op f i fs nodes fs' tokens hp
    (an.fits hro) an
  obtain ⟨results, s', hrs⟩ := @runAlternatives_total symbols position rest fs' nodes
  obtain ⟨_, hp', _⟩ := List.pairwise_append.mp hp
  obtain ⟨hf, hp'⟩ := List.pairwise_cons.mp hp'
  obtain ⟨rest', rfl, ho⟩ := runAlternatives_outcome hp' hrs
  have hnil : successes results = [] ∧ Leftover symbols rest rest' := by
    generalize successes results = is at ho
    cases ho with
    | none hl =>
      refine ⟨rfl, hl.resolve_left ?_⟩
      rintro ⟨y, hy, hv⟩
      have hpy := hf y hy
      rcases hv with e | e <;> simp [Form.precedes, e] at hpy
    | one tokens' rest' hm _ e an' => exact absurd an' (hrest _ hm tokens' rest' _ e)
    | many tokens' rest' hm e an' => exact absurd an' (hrest _ hm tokens' rest' _ e)
  refine ⟨rest', hnil.2, ?_⟩
  rw [parseInstruction, hfs]
  apply parseOp_ok_iff.mpr
  refine ⟨es ++ .ok i :: results, by rw [hrun, hrs]; rfl, ?_⟩
  rw [successes_append, hes, successes_ok, hnil.1]
  rfl

/-- `parse_instruction` fails when a later alternative finds another operand list in the next line. -/
theorem parseInstruction_not_unique {name fs1 fs2 fs3 op' j s' nodes} {tokens tokens' : List Token}
    (hfs : alternatives name = some (fs1 ++ (op, f) :: (fs2 ++ (op', g) :: fs3)))
    (an : Announced symbols op f (tokens.map Token.kind) i) (hro : f ≠ .ro)
    (an' : Announced symbols op' g (tokens'.map Token.kind) j) (hro' : g ≠ .ro) {i'} :
    (parseInstruction name position).run
        ⟨⟨tokens.map .ok ++ (tokens'.map .ok ++ rest), false⟩, symbols, nodes⟩ ≠ some (.ok i', s') := by
  intro h
  have hp := alternatives_precede hfs
  obtain ⟨es, hes, hrun⟩ := @runAlternatives_split symbols position _ op f i fs1 nodes _ tokens hp
    (an.fits (absurd · hro)) an
  obtain ⟨_, hp', _⟩ := List.pairwise_append.mp hp
  obtain ⟨_, hp'⟩ := List.pairwise_cons.mp hp'
  obtain ⟨es', hes', hrun'⟩ := @runAlternatives_split symbols position rest op' g j fs2 nodes fs3 tokens'
    hp' (an'.fits (absurd · hro')) an'
  rw [parseInstruction, hfs] at h
  obtain ⟨results, hr, hs⟩ := parseOp_ok_iff.mp h
  rw [hrun, hrun', Option.map_map] at hr
  obtain ⟨⟨r, s''⟩, hr, e⟩ := Option.map_eq_some_iff.mp hr
  cases e
  rw [successes_append, hes, List.nil_append, successes_ok, successes_append, hes', successes_ok] at hs
  cases hs

/-! ### The grammar of a line -/

/-- An operand list of a mnemonic, with the instruction it stands for. -/
def Matches (symbols : HashMap Token) (name : String) (line : List Kind) (i : Instruction) : Prop :=
  ∃ fs op f, alternatives name = some fs ∧ (op, f) ∈ fs ∧ Announced symbols op f line i

/-- The tokens that start a line. -/
def Kind.startsLine : Kind → Bool
  | .op _ | .label _ | .directive _ | .variable _ | .eol => true
  | _ => false

/-- The rest of a line, and after it the end of the input or a token that starts a line. -/
structure LineRest (line : List Token) (rest : List Item) : Prop where
  eol : IsLine line
  next : rest = [] ∨ ∃ t rest', rest = .ok t :: rest' ∧ t.kind.startsLine = true

/-- The line has a defined variable for the offset of a `LOAD`. -/
inductive VariableOffset (symbols : HashMap Token) : String → List Kind → Prop where
  | load {r1 r2 v w} : symbols.integer v = some w → VariableOffset symbols "LOAD"
      [.identifier r1, .comma, .lbracket, .identifier r2, .plus, .variable v, .rbracket, .eol]

/-- Operand lists of registers only. -/
inductive Registers : List Kind → Prop where
  | r {r} : Registers [.identifier r, .eol]
  | rr {r1 r2} : Registers [.identifier r1, .comma, .identifier r2, .eol]
  | rrr {r1 r2 r3} : Registers [.identifier r1, .comma, .identifier r2, .comma, .identifier r3, .eol]

/-- The next line, too, begins with operands of the mnemonic: a line `$v` after a `PUSH` of registers or
a line `$v, <r>` after a `STOR` of two registers, with `$v` defined. -/
inductive ReadsOn (symbols : HashMap Token) : String → List Kind → List Item → Prop where
  | push {line p v w p' rest} : Registers line → symbols.integer v = some w →
      ReadsOn symbols "PUSH" line (.ok ⟨p, .variable v⟩ :: .ok ⟨p', .eol⟩ :: rest)
  | stor {r1 r2 p v w p1 p2 r p3 rest} : symbols.integer v = some w →
      ReadsOn symbols "STOR" [.identifier r1, .comma, .identifier r2, .eol]
        (.ok ⟨p, .variable v⟩ :: .ok ⟨p1, .comma⟩ :: .ok ⟨p2, .identifier r⟩ :: .ok ⟨p3, .eol⟩ :: rest)

/-- `parse_instruction` reads exactly the announced operand lists of the mnemonic. -/
def GrammarExact (symbols : HashMap Token) (name : String) (line : List Token) (rest : List Item) : Prop :=
  ∀ position nodes i,
    (∃ s', (parseInstruction name position).run ⟨⟨line.map .ok ++ rest, false⟩, symbols, nodes⟩ =
      some (.ok i, s')) ↔ Matches symbols name (line.map Token.kind) i

/-- The alternatives before `w` and `wr`. -/
lemma alternatives_before {name} (h : alternatives name = some fs) :
    fs.Pairwise fun x y => (y.2 = .w → name = "PUSH" ∧ x.2 ∈ [.r, .rr, .rrr]) ∧
      (y.2 = .wr → name = "STOR" ∧ x.2 = .rr) := by
  unfold alternatives at h
  split at h <;> cases h <;> decide

/-- The operand lists that begin with a token that starts a line. -/
lemma Announced.startsLine (an : Announced symbols op f ks i)
    (hk : ∃ k ks', ks = k :: ks' ∧ k.startsLine = true) :
    f = .void ∨ f = .b ∨
      (f = .w ∧ ∃ v w, symbols.integer v = some w ∧ ks = [.variable v, .eol]) ∨
      (f = .wr ∧ ∃ v w r, symbols.integer v = some w ∧
        ks = [.variable v, .comma, .identifier r, .eol]) := by
  obtain ⟨k, ks', rfl, hk⟩ := hk
  cases an with
  | b => exact .inr (.inl rfl)
  | void => exact .inl rfl
  | w hw =>
    cases hw with
    | word => cases hk
    | var hs => exact .inr (.inr (.inl ⟨rfl, _, _, hs, rfl⟩))
  | wr hw =>
    cases hw with
    | word => cases hk
    | var hs => exact .inr (.inr (.inr ⟨rfl, _, _, _, hs, rfl⟩))
  | _ => cases hk

/-- Only `LOAD` has an offset. -/
lemma alternatives_ro {name op} (h : alternatives name = some fs) (hm : (op, .ro) ∈ fs) :
    name = "LOAD" := by
  unfold alternatives at h
  split at h <;> cases h <;> first | rfl | simp at hm

/-- A later alternative finds its operands in the next line in the cases of `ReadsOn` only. -/
lemma readsOn_of_later {name fs' y j} {line tokens : List Token} {rest' : List Item} (h : LineRest line rest)
    (hfs : alternatives name = some (fs ++ (op, f) :: fs'))
    (an : Announced symbols op f (line.map Token.kind) i) (hy : y ∈ fs')
    (an' : Announced symbols y.1 y.2 (tokens.map Token.kind) j) (e : rest = tokens.map .ok ++ rest') :
    ReadsOn symbols name (line.map Token.kind) rest := by
  have hp := (List.pairwise_cons.mp (List.pairwise_append.mp (alternatives_precede hfs)).2.1).1 y hy
  have hb := (List.pairwise_cons.mp (List.pairwise_append.mp (alternatives_before hfs)).2.1).1 y hy
  have hstart : ∃ k ks', tokens.map Token.kind = k :: ks' ∧ k.startsLine = true := by
    cases tokens with
    | nil => cases an'.eol.2
    | cons t tokens =>
      subst e
      rcases h.next with hnil | ⟨t', rest', ht, hk⟩
      · cases hnil
      · cases ht
        exact ⟨_, _, rfl, hk⟩
  rcases an'.startsLine hstart with hg | hg | ⟨hg, v, w, hs, hks⟩ | ⟨hg, v, w, r, hs, hks⟩
  · simp [Form.precedes, hg] at hp
  · simp [Form.precedes, hg] at hp
  · obtain ⟨rfl, hf⟩ := hb.1 hg
    obtain ⟨⟨p, _⟩, tokens, rfl, rfl, h1⟩ := List.map_eq_cons_iff.mp hks
    obtain ⟨⟨p', _⟩, tokens, rfl, rfl, h2⟩ := List.map_eq_cons_iff.mp h1
    cases List.map_eq_nil_iff.mp h2
    subst e
    refine .push ?_ hs
    generalize line.map Token.kind = ks at an
    simp only [List.mem_cons, List.not_mem_nil, or_false] at hf
    rcases hf with rfl | rfl | rfl
    · cases an; exact .r
    · cases an; exact .rr
    · cases an; exact .rrr
  · obtain ⟨rfl, hf⟩ := hb.2 hg
    obtain ⟨⟨p, _⟩, tokens, rfl, rfl, h1⟩ := List.map_eq_cons_iff.mp hks
    obtain ⟨⟨p1, _⟩, tokens, rfl, rfl, h2⟩ := List.map_eq_cons_iff.mp h1
    obtain ⟨⟨p2, _⟩, tokens, rfl, rfl, h3⟩ := List.map_eq_cons_iff.mp h2
    obtain ⟨⟨p3, _⟩, tokens, rfl, rfl, h4⟩ := List.map_eq_cons_iff.mp h3
    cases List.map_eq_nil_iff.mp h4
    subst e
    dsimp only at hf
    subst hf
    generalize line.map Token.kind = ks at an
    cases an
    exact .stor hs

/-- The alternative with an offset does not read a variable. -/
lemma Fits.offset {line : List Token} {v} (hf : Fits Form.ro.pattern (line.map .ok ++ rest)) :
    (line.map Token.kind)[5]? ≠ some (.variable v) := by
  intro h5
  obtain ⟨_, _, _, e0, _, h⟩ := hf.cons_inv
  obtain ⟨_, _, _, rfl, _, h⟩ := h.cons_inv
  obtain ⟨_, _, _, rfl, _, h⟩ := h.cons_inv
  obtain ⟨_, _, _, rfl, _, h⟩ := h.cons_inv
  obtain ⟨_, _, _, rfl, _, h⟩ := h.cons_inv
  obtain ⟨_, _, _, rfl, hk, _⟩ := h.cons_inv
  rw [List.getElem?_map, Option.map_eq_some_iff] at h5
  obtain ⟨t, ht, hv⟩ := h5
  have hlt := (List.getElem?_eq_some_iff.mp ht).1
  have h5 := congrArg (fun l => l[5]?) e0
  rw [List.getElem?_append_left (by simpa using hlt), List.getElem?_map, ht] at h5
  cases h5
  cases hv
  cases hk

/-- A mnemonic is not exact when a later alternative finds an operand list in the next line. -/
lemma not_grammarExact (fs1 fs2 fs3 : List (Op × Form)) {name op' j} {line tokens : List Token}
    (hfs : alternatives name = some (fs1 ++ (op, f) :: (fs2 ++ (op', g) :: fs3)))
    (an : Announced symbols op f (line.map Token.kind) i) (hro : f ≠ .ro)
    (an' : Announced symbols op' g (tokens.map Token.kind) j) (hro' : g ≠ .ro) :
    ¬ GrammarExact symbols name line (tokens.map .ok ++ rest) := by
  intro hex
  obtain ⟨s', hrun⟩ := (hex ⟨1, 1⟩ [] i).mpr ⟨_, op, f, hfs, by simp, an⟩
  exact parseInstruction_not_unique hfs an hro an' hro' hrun

/-- A variable for the offset is announced and refused. -/
lemma GrammarExact.offset {name} {line : List Token} (h : LineRest line rest)
    (hex : GrammarExact symbols name line rest) : ¬ VariableOffset symbols name (line.map Token.kind) := by
  intro hv
  generalize hks : line.map Token.kind = ks at hv
  cases hv with
  | @load r1 r2 v w hs =>
    obtain ⟨s', hrun⟩ := (hex ⟨1, 1⟩ [] (.IRRW .loadRRW r1 r2 w)).mpr
      ⟨_, .loadRRW, .ro, rfl, by decide, hks ▸ .ro (.var hs)⟩
    obtain ⟨fs, op, f, tokens, l, l', hfs, hm, hf, e, an, _, _⟩ := parseInstruction_ok hrun
    obtain ⟨rfl, _⟩ := h.eol.unique an.isLine e
    rw [hks] at an
    cases an with
    | ro => exact hf.offset (by rw [hks]; rfl)

/-- A next line that is read as well makes the line not unique. -/
lemma GrammarExact.readsOn {name} {line : List Token} (hex : GrammarExact symbols name line rest) :
    ¬ ReadsOn symbols name (line.map Token.kind) rest := by
  intro hr
  generalize hks : line.map Token.kind = ks at hr
  cases hr with
  | @push _ p v w p' rest hl hs =>
    have hfs : alternatives "PUSH" =
        some [(.pushR, .r), (.pushRR, .rr), (.pushRRR, .rrr), (.pushW, .w)] := by decide +kernel
    have an' : Announced symbols .pushW .w ([⟨p, .variable v⟩, ⟨p', .eol⟩].map Token.kind)
      (.IW .pushW w) := .w (.var hs)
    cases hl with
    | @r r1 =>
      have an : Announced symbols .pushR .r (line.map Token.kind) (.IR .pushR r1) := hks ▸ .r
      exact not_grammarExact [] [(.pushRR, .rr), (.pushRRR, .rrr)] [] hfs an nofun an' nofun hex
    | @rr r1 r2 =>
      have an : Announced symbols .pushRR .rr (line.map Token.kind) (.IRR .pushRR r1 r2) := hks ▸ .rr
      exact not_grammarExact [(.pushR, .r)] [(.pushRRR, .rrr)] [] hfs an nofun an' nofun hex
    | @rrr r1 r2 r3 =>
      have an : Announced symbols .pushRRR .rrr (line.map Token.kind) (.IRRR .pushRRR r1 r2 r3) :=
        hks ▸ .rrr
      exact not_grammarExact [(.pushR, .r), (.pushRR, .rr)] [] [] hfs an nofun an' nofun hex
  | @stor r1 r2 p v w p1 p2 r p3 rest hs =>
    have hfs : alternatives "STOR" =
        some [(.storRR, .rr), (.storRW, .wr), (.storRW, .aar)] := by decide +kernel
    have an : Announced symbols .storRR .rr (line.map Token.kind) (.IRR .storRR r1 r2) := hks ▸ .rr
    have an' : Announced symbols .storRW .wr
        ([⟨p, .variable v⟩, ⟨p1, .comma⟩, ⟨p2, .identifier r⟩, ⟨p3, .eol⟩].map Token.kind)
        (.IRW .storRW r w) := .wr (.var hs)
    exact not_grammarExact [] [] [(.storRW, .aar)] hfs an nofun an' nofun hex

/-- All other lines are read as announced. -/
lemma grammarExact_of {name} {line : List Token} (h : LineRest line rest)
    (hv : ¬ VariableOffset symbols name (line.map Token.kind))
    (hr : ¬ ReadsOn symbols name (line.map Token.kind) rest) : GrammarExact symbols name line rest := by
  intro position nodes i
  constructor
  · rintro ⟨s', hrun⟩
    obtain ⟨fs, op, f, tokens, l, l', hfs, hm, _, e, an, _, _⟩ := parseInstruction_ok hrun
    obtain ⟨rfl, _⟩ := h.eol.unique an.isLine e
    exact ⟨fs, op, f, hfs, hm, an⟩
  · rintro ⟨fs, op, f, hfs, hm, an⟩
    obtain ⟨fs1, fs2, rfl⟩ := List.append_of_mem hm
    have hro : f = .ro → ∃ w, (line.map Token.kind)[5]? = some (.integer w) := by
      rintro rfl
      obtain rfl := alternatives_ro hfs hm
      generalize line.map Token.kind = ks at an hv
      cases an with
      | ro hw =>
        cases hw with
        | word => exact ⟨_, rfl⟩
        | var hs => exact absurd (.load hs) hv
    obtain ⟨rest', _, hrun⟩ := parseInstruction_complete hfs an hro
      fun y hy tokens l j e an' => hr (readsOn_of_later h hfs an hy an' e)
    exact ⟨_, hrun⟩

/-- `parse_instruction` reads a line exactly as announced, unless the line has a variable for an offset
or the next line is read as well. -/
theorem grammar_exact_iff {name} {line : List Token} (h : LineRest line rest) :
    GrammarExact symbols name line rest ↔
      ¬ VariableOffset symbols name (line.map Token.kind) ∧
        ¬ ReadsOn symbols name (line.map Token.kind) rest := by
  constructor
  · exact fun hex => ⟨hex.offset h, hex.readsOn⟩
  · rintro ⟨hv, hr⟩
    exact grammarExact_of h hv hr

/-- Symbols with a variable `$v`. -/
def symbolsV : HashMap Token := HashMap.new.insert "$v" ⟨⟨1, 6⟩, .integer 4⟩

/-- The operands of `ADD r1, $v`. -/
def lineAdd : List Token :=
  [⟨⟨2, 5⟩, .identifier "r1"⟩, ⟨⟨2, 7⟩, .comma⟩, ⟨⟨2, 9⟩, .variable "$v"⟩, ⟨⟨2, 11⟩, .eol⟩]

/-- The operands of `LOAD r1, [r0 + $v]`. -/
def lineLoad : List Token :=
  [⟨⟨2, 6⟩, .identifier "r1"⟩, ⟨⟨2, 8⟩, .comma⟩, ⟨⟨2, 10⟩, .lbracket⟩, ⟨⟨2, 11⟩, .identifier "r0"⟩,
    ⟨⟨2, 14⟩, .plus⟩, ⟨⟨2, 16⟩, .variable "$v"⟩, ⟨⟨2, 18⟩, .rbracket⟩, ⟨⟨2, 19⟩, .eol⟩]

/-- `ADD r1, $v` at the end of the input is read as announced. -/
theorem grammar_exact_add : GrammarExact symbolsV "ADD" lineAdd [] := by
  have h : LineRest lineAdd [] := ⟨⟨lineAdd.dropLast, ⟨2, 11⟩, rfl, by decide⟩, .inl rfl⟩
  have hv : ∀ {name ks}, VariableOffset symbolsV name ks → name = "LOAD" := fun h => by cases h; rfl
  have hr : ∀ {name ks}, ¬ ReadsOn symbolsV name ks [] := nofun
  exact (grammar_exact_iff h).mpr ⟨fun h => absurd (hv h) (by decide), hr⟩

/-- `LOAD r1, [r0 + $v]` at the end of the input is not. -/
theorem not_grammarExact_load : LineRest lineLoad [] ∧ ¬ GrammarExact symbolsV "LOAD" lineLoad [] := by
  refine ⟨⟨⟨lineLoad.dropLast, ⟨2, 19⟩, rfl, by decide⟩, .inl rfl⟩, fun hex => ?_⟩
  have hm : Announced symbolsV .loadRRW .ro (lineLoad.map Token.kind) (.IRRW .loadRRW "r1" "r0" 4) :=
    .ro (.var rfl)
  obtain ⟨s', hrun⟩ := (hex ⟨2, 1⟩ [] _).mpr ⟨_, _, _, rfl, by decide, hm⟩
  cases hrun

end Thorium.Asm
