import Thorium.Asm.Grammar

/-!
# Lines

What `parse` makes of a whole text. `Lines` reads the lines of a token list one by one: a line that
begins with a label, a directive or a mnemonic is one node (`LineNode`), a variable definition adds a
symbol and no node. A turn of the loop is inverted by `turn_ok`, and `parseFuel_ok` is the induction
over all turns.

A `.section` token ends the loop like the end of the text does, so what follows it is lost.
-/

namespace Thorium.Asm
open Thorium.Isa Thorium.Run

variable {symbols symbols' : HashMap Token} {items rest : List Item} {aborts : Bool} {nodes : List Node}

/-! ### The nodes of a text -/

/-- The node of a line. -/
inductive LineNode (symbols : HashMap Token) : List Kind → Node → Prop where
  | label {name} : LineNode symbols [.label name] (.label name)
  | base {name k w} : toLowercase name = "base" → WordOrVar symbols k w →
      LineNode symbols [.directive name, k] (.directive (.base w))
  | word {name a w} : toLowercase name = "word" →
      LineNode symbols [.directive name, .identifier a, .integer w] (.directive (.word a w))
  | instruction {name ks i} : Matches symbols name (ks ++ [.eol]) i →
      LineNode symbols (.op name :: ks) (.instruction i)

/-- The tokens that start the line of a node. -/
def Kind.startsNode : Kind → Bool
  | .label _ | .directive _ | .op _ => true
  | _ => false

/-- The lines of a token list, without their ends. -/
def lines : List Token → List (List Token)
  | [] => [[]]
  | t :: tokens =>
    if t.kind = .eol then [] :: lines tokens
    else match lines tokens with
      | line :: ls => (t :: line) :: ls
      | [] => [[t]]

/-- The nodes and the symbols of lines: variable definitions are taken off the beginning of a line, and
what is left is one node when it starts like one and none otherwise. -/
inductive Lines : HashMap Token → List (List Token) → List Node → HashMap Token → Prop where
  | nil {symbols : HashMap Token} : Lines symbols [] [] symbols
  | define {symbols symbols' : HashMap Token} {p0 p1 p2 name w line ls} {nodes : List Node} :
      Lines (symbols.insert name ⟨p2, .integer w⟩) (line :: ls) nodes symbols' →
      Lines symbols ((⟨p0, .variable name⟩ :: ⟨p1, .equal⟩ :: ⟨p2, .integer w⟩ :: line) :: ls) nodes symbols'
  | node {symbols symbols' : HashMap Token} {line ls n} {nodes : List Node} : LineNode symbols (line.map Token.kind) n →
      Lines symbols ls nodes symbols' → Lines symbols (line :: ls) (n :: nodes) symbols'
  | other {symbols symbols' : HashMap Token} {line : List Token} {ls} {nodes : List Node} :
      (∀ k ks, line.map Token.kind = k :: ks → k.startsNode = false ∧
        ∀ name w ks', k = .variable name → ks ≠ .equal :: .integer w :: ks') →
      Lines symbols ls nodes symbols' → Lines symbols (line :: ls) nodes symbols'

/-! ### One turn -/

/-- What a turn does with the items: its result, the symbols and the items after it. -/
inductive TurnStep (symbols : HashMap Token) (aborts : Bool) :
    List Item → Turn → HashMap Token → List Item → Prop where
  | done : aborts = false → TurnStep symbols aborts [] .done symbols []
  | sect {p name} {rest : List Item} : TurnStep symbols aborts (.ok ⟨p, .section name⟩ :: rest) .done symbols rest
  | eol {p} {rest : List Item} : TurnStep symbols aborts (.ok ⟨p, .eol⟩ :: rest) .again symbols rest
  | define {p0 p1 p2 name w} {rest : List Item} : TurnStep symbols aborts
      (.ok ⟨p0, .variable name⟩ :: .ok ⟨p1, .equal⟩ :: .ok ⟨p2, .integer w⟩ :: rest) .again
      (symbols.insert name ⟨p2, .integer w⟩) rest
  | node (line : List Token) {p n} {rest rest' : List Item} : LineNode symbols (line.map Token.kind) n →
      (∀ t ∈ line, t.kind ≠ .eol) → Leftover symbols rest rest' →
      TurnStep symbols aborts (line.map .ok ++ .ok ⟨p, .eol⟩ :: rest) (.node n) symbols rest'

/-- A token that is read is the next one. -/
lemma readNext_inv {t s'} (h : readNext ⟨⟨items, aborts⟩, symbols, nodes⟩ = some (some t, s')) :
    ∃ rest, items = .ok t :: rest ∧ s' = ⟨⟨rest, aborts⟩, symbols, nodes⟩ := by
  rcases items with _ | ⟨e | t', items⟩
  · cases aborts <;> cases h
  · cases h
  · cases h
    exact ⟨items, rfl, rfl⟩

/-- A line that ends, ends in the next token. -/
lemma readEol_inv {s'} (h : readEol ⟨⟨items, aborts⟩, symbols, nodes⟩ = some (true, s')) :
    ∃ p rest, items = .ok ⟨p, .eol⟩ :: rest ∧ s' = ⟨⟨rest, aborts⟩, symbols, nodes⟩ := by
  obtain ⟨⟨t, s1⟩, hn, h⟩ := Option.bind_eq_some_iff.mp h
  rcases t with _ | ⟨p, k⟩
  · cases h
  · obtain ⟨rest, rfl, rfl⟩ := readNext_inv hn
    cases k with
    | eol => cases h; exact ⟨p, rest, rfl, rfl⟩
    | _ => cases h

/-- What `parse_directive` has read when it returns a directive. -/
lemma parseDirective_ok {name position d s'}
    (h : (parseDirective name position).run ⟨⟨items, aborts⟩, symbols, nodes⟩ = some (.ok d, s')) :
    ∃ line : List Token, ∃ p rest, items = line.map .ok ++ .ok ⟨p, .eol⟩ :: rest ∧
      LineNode symbols (.directive name :: line.map Token.kind) (.directive d) ∧
      (∀ t ∈ line, t.kind ≠ .eol) ∧ s' = ⟨⟨rest, aborts⟩, symbols, nodes⟩ := by
  rw [parseDirective] at h
  split at h
  · rename_i hname
    rw [run_lift_bind] at h
    obtain ⟨⟨t, s1⟩, hn, h⟩ := Option.bind_eq_some_iff.mp h
    rw [show (get : ParserR Parser) = liftM (get : ParserM Parser) from rfl, run_lift_bind] at h
    obtain ⟨⟨_, _⟩, hg, h⟩ := Option.bind_eq_some_iff.mp h
    cases hg
    rw [run_lift_bind] at h
    obtain ⟨⟨b, s2⟩, he, h⟩ := Option.bind_eq_some_iff.mp h
    cases b with
    | false => cases h
    | true =>
      rcases t with _ | ⟨p1, k⟩
      · cases h
      · obtain ⟨rest1, rfl, rfl⟩ := readNext_inv hn
        obtain ⟨p, rest, rfl, rfl⟩ := readEol_inv he
        cases k with
        | integer w => cases h; exact ⟨[⟨p1, _⟩], p, rest, rfl, .base hname .word, by simp, rfl⟩
        | «variable» v =>
          cases hs : symbols.integer v with
          | none =>
            simp only [if_true, hs] at h
            cases h
          | some w =>
            simp only [if_true, hs] at h
            cases h
            exact ⟨[⟨p1, _⟩], p, rest, rfl, .base hname (.var hs), by simp, rfl⟩
        | _ => cases h
  · rename_i hname
    rw [run_lift_bind] at h
    obtain ⟨⟨t, s1⟩, hn, h⟩ := Option.bind_eq_some_iff.mp h
    rcases t with _ | ⟨p1, k⟩
    · cases h
    · obtain ⟨rest1, rfl, rfl⟩ := readNext_inv hn
      cases k with
      | identifier a =>
        dsimp only at h
        rw [run_lift_bind] at h
        obtain ⟨⟨t, s2⟩, hn2, h⟩ := Option.bind_eq_some_iff.mp h
        rcases t with _ | ⟨p2, k⟩
        · cases h
        · obtain ⟨rest2, rfl, rfl⟩ := readNext_inv hn2
          cases k with
          | integer w =>
            dsimp only at h
            rw [run_lift_bind] at h
            obtain ⟨⟨b, s3⟩, he, h⟩ := Option.bind_eq_some_iff.mp h
            cases b with
            | false => cases h
            | true =>
              obtain ⟨p, rest, rfl, rfl⟩ := readEol_inv he
              cases h
              exact ⟨[⟨p1, _⟩, ⟨p2, _⟩], p, rest, rfl, .word hname, by simp, rfl⟩
          | _ => cases h
      | _ => cases h
  · cases h

/-- What `parse_variable` has read when it returns. -/
lemma parseVariable_ok {name position s'}
    (h : (parseVariable name position).run ⟨⟨items, aborts⟩, symbols, nodes⟩ = some (.ok (), s')) :
    ∃ p1 p2 w rest, items = .ok ⟨p1, .equal⟩ :: .ok ⟨p2, .integer w⟩ :: rest ∧
      s' = ⟨⟨rest, aborts⟩, symbols.insert name ⟨p2, .integer w⟩, nodes⟩ := by
  rcases items with _ | ⟨e | ⟨p1, k⟩, items⟩
  · cases aborts <;> cases h
  · cases h
  · cases k with
    | equal =>
      rcases items with _ | ⟨e | ⟨p2, k⟩, items⟩
      · cases aborts <;> cases h
      · cases h
      · cases k with
        | integer w => cases h; exact ⟨p1, p2, w, items, rfl, rfl⟩
        | _ => cases h
    | _ => cases h

/-- A variable begins a definition. -/
lemma turn_variable {p name} : turn.run ⟨⟨.ok ⟨p, .variable name⟩ :: items, aborts⟩, symbols, nodes⟩ =
    (parseVariable name p >>= fun _ => pure .again : ParserR Turn).run
      ⟨⟨items, aborts⟩, symbols, nodes⟩ := rfl

/-- A directive begins a node. -/
lemma turn_directive {p name} : turn.run ⟨⟨.ok ⟨p, .directive name⟩ :: items, aborts⟩, symbols, nodes⟩ =
    (parseDirective name p >>= fun d => pure (.node (.directive d)) : ParserR Turn).run
      ⟨⟨items, aborts⟩, symbols, nodes⟩ := rfl

/-- An operation begins an instruction. -/
lemma turn_op {p name} : turn.run ⟨⟨.ok ⟨p, .op name⟩ :: items, aborts⟩, symbols, nodes⟩ =
    (parseInstruction name p >>= fun i => pure (.node (.instruction i)) : ParserR Turn).run
      ⟨⟨items, aborts⟩, symbols, nodes⟩ := rfl

/-- What a turn has read when it does not fail. -/
lemma turn_ok {r s'} (h : turn.run ⟨⟨items, aborts⟩, symbols, nodes⟩ = some (.ok r, s')) :
    ∃ symbols' rest, s' = ⟨⟨rest, aborts⟩, symbols', nodes⟩ ∧
      TurnStep symbols aborts items r symbols' rest := by
  rcases items with _ | ⟨e | ⟨p, k⟩, items⟩
  · cases aborts with
    | true => cases h
    | false => cases h; exact ⟨symbols, [], rfl, .done rfl⟩
  · cases h
  · cases k with
    | eol => cases h; exact ⟨symbols, items, rfl, .eol⟩
    | «section» name => cases h; exact ⟨symbols, items, rfl, .sect⟩
    | «variable» name =>
      rw [turn_variable] at h
      obtain ⟨_, s1, hv, h⟩ := run_bind_inv h
      cases h
      obtain ⟨p1, p2, w, rest, rfl, rfl⟩ := parseVariable_ok hv
      exact ⟨_, rest, rfl, .define⟩
    | directive name =>
      rw [turn_directive] at h
      obtain ⟨d, s1, hd, h⟩ := run_bind_inv h
      cases h
      obtain ⟨line, p', rest, rfl, hn, hl, rfl⟩ := parseDirective_ok hd
      exact ⟨symbols, rest, rfl, .node (⟨p, .directive name⟩ :: line) hn (by simpa using hl) (.inl rfl)⟩
    | label name => 
      rcases items with _ | ⟨e | ⟨p1, k⟩, items⟩
      · cases aborts <;> cases h
      · cases h
      · cases k with
        | eol =>
          cases h
          exact ⟨symbols, items, rfl, .node [⟨p, .label name⟩] .label (by simp) (.inl rfl)⟩
        | _ => cases h
    | op name =>
      rw [turn_op] at h
      obtain ⟨i, s1, hi, h⟩ := run_bind_inv h
      cases h
      obtain ⟨fs, op, f, tokens, rest, rest', hfs, hm, _, rfl, an, hl, rfl⟩ := parseInstruction_ok hi
      obtain ⟨line, p', rfl, hline⟩ := an.isLine
      rw [List.map_append] at an ⊢
      rw [List.append_assoc]
      have hn : LineNode symbols (.op name :: line.map Token.kind) (.instruction i) :=
        .instruction ⟨fs, op, f, hfs, hm, an⟩
      exact ⟨symbols, rest', rfl, .node (⟨p, .op name⟩ :: line) hn (by simpa using hline) hl⟩
    | _ => cases h

/-! ### All turns -/

/-- Every list of tokens has a line. -/
lemma lines_ne_nil (tokens : List Token) : lines tokens ≠ [] := by
  cases tokens with
  | nil => nofun
  | cons t tokens =>
    rw [lines]
    split
    · nofun
    · split <;> nofun

/-- What is left is no longer than what was there. -/
lemma Leftover.length_le (h : Leftover symbols items rest) : rest.length ≤ items.length := by
  rcases h with rfl | ⟨l, p, name, _, rfl, _, _⟩
  · exact Nat.le_refl _
  · simp only [List.length_append, List.length_cons]
    omega

/-- A definition at the beginning of a line. -/
lemma lines_define {p0 p1 p2 name w tokens line ls} (h : lines tokens = line :: ls) :
    lines (⟨p0, .variable name⟩ :: ⟨p1, .equal⟩ :: ⟨p2, .integer w⟩ :: tokens) =
      (⟨p0, .variable name⟩ :: ⟨p1, .equal⟩ :: ⟨p2, .integer w⟩ :: line) :: ls := by
  rw [lines, if_neg nofun, lines, if_neg nofun, lines, if_neg nofun, h]

/-- The first line of tokens. -/
lemma lines_line {line : List Token} (h : ∀ t ∈ line, t.kind ≠ .eol) (p) (tokens : List Token) :
    lines (line ++ ⟨p, .eol⟩ :: tokens) = line :: lines tokens := by
  induction line with
  | nil => rfl
  | cons t line ih =>
    obtain ⟨ht, h⟩ := List.forall_mem_cons.mp h
    rw [List.cons_append, lines, if_neg ht, ih h]

/-- An empty line adds nothing. -/
lemma Lines.tail {ls new} (h : Lines symbols ([] :: ls) new symbols') : Lines symbols ls new symbols' := by
  cases h with
  | node hn _ => cases hn
  | other _ h => exact h

/-- Tokens without a `.section`. -/
def NoSection (tokens : List Token) : Prop := ∀ t ∈ tokens, ∀ name, t.kind ≠ .section name

/-- No section in either part. -/
lemma NoSection.append {l l' : List Token} (h : NoSection l) (h' : NoSection l') : NoSection (l ++ l') :=
  List.forall_mem_append.mpr ⟨h, h'⟩

/-- The line of a node has no `.section`. -/
lemma LineNode.noSection {line : List Token} {n} (h : LineNode symbols (line.map Token.kind) n) :
    NoSection line := by
  have hw : ∀ {k w name}, WordOrVar symbols k w → Kind.section name ≠ k := by
    rintro _ _ _ (_ | _) <;> nofun
  have han : ∀ {op f ks i name}, Announced symbols op f ks i → Kind.section name ∉ ks := by
    intro op f ks i name an
    cases an with
    | b h _ => simpa using hw h
    | ro h => simpa using hw h
    | rw h => simpa using hw h
    | w h => simpa using hw h
    | wr h => simpa using hw h
    | _ => simp
  have hks : ∀ {ks name}, LineNode symbols ks n → Kind.section name ∉ ks := by
    intro ks name h
    cases h with
    | label => simp
    | base _ hk => simpa using hw hk
    | word => simp
    | instruction hm =>
      obtain ⟨_, _, _, _, _, an⟩ := hm
      have hi := @han _ _ _ _ name an
      simp only [List.mem_append, not_or] at hi
      simpa using hi.1
  intro t ht name e
  exact hks h (List.mem_map.mpr ⟨t, ht, e⟩)

/-- Where a parse that returns `Ok` stops: at the end of the items, or after the first `.section`. -/
inductive Stops (aborts : Bool) (items : List Item) : List Token → Stream → Prop where
  | finish (tokens : List Token) : items = tokens.map .ok → aborts = false → NoSection tokens →
      Stops aborts items tokens ⟨[], false⟩
  | sect {rest : List Item} (tokens : List Token) (p : Position) (name : String) :
      items = tokens.map .ok ++ .ok ⟨p, .section name⟩ :: rest → NoSection tokens →
      Stops aborts items (tokens ++ [⟨p, .section name⟩]) ⟨rest, aborts⟩

/-- The tokens a turn has read. -/
lemma Stops.prepend {lexer} {tokens tokens' : List Token} (h : Stops aborts rest tokens lexer)
    (ht : NoSection tokens') (e : items = tokens'.map .ok ++ rest) :
    Stops aborts items (tokens' ++ tokens) lexer := by
  subst e
  cases h with
  | finish tokens e ha hs =>
    subst e
    exact .finish _ (by rw [List.map_append]) ha (ht.append hs)
  | sect tokens p name e hs =>
    subst e
    rw [← List.append_assoc, ← List.append_assoc, ← List.map_append]
    exact .sect _ p name rfl (ht.append hs)

/-- The first of the tokens a parse has read. -/
lemma Stops.head {p lexer tokens} (h : Stops aborts (.ok ⟨p, .eol⟩ :: rest) tokens lexer) :
    ∃ tokens', tokens = ⟨p, .eol⟩ :: tokens' := by
  cases h with
  | finish tokens e =>
    obtain ⟨t, tokens, rfl, ht, _⟩ := List.map_eq_cons_iff.mp e.symm
    cases ht
    exact ⟨tokens, rfl⟩
  | sect tokens p' name e =>
    cases tokens with
    | nil => cases e
    | cons t tokens => cases e; exact ⟨_, rfl⟩

/-- No turn begins with a comma. -/
lemma TurnStep.head {r} (h : TurnStep symbols aborts items r symbols' rest) :
    itemKind items.head? ≠ some .comma := by
  cases h with
  | node line hn =>
    rcases line with _ | ⟨⟨p, k⟩, line⟩
    · nofun
    · intro e
      cases e
      cases hn
  | _ => nofun

/-- The kind of the next item. -/
lemma itemKind_head {k} (h : itemKind items.head? = some k) : ∃ p rest, items = .ok ⟨p, k⟩ :: rest := by
  rcases items with _ | ⟨e | ⟨p, k'⟩, rest⟩
  · cases h
  · cases h
  · cases h
    exact ⟨p, rest, rfl⟩

/-- The items an alternative has taken from the next line are no node and no definition. -/
lemma stray_line {l : List Item} (h : l = [] ∨ ∃ p0 r p1, l = [.ok ⟨p0, .identifier r⟩, .ok ⟨p1, .comma⟩])
    (p : Position) (v : String) :
    ∃ stray : List Token, l ++ [.ok ⟨p, .variable v⟩] = stray.map .ok ∧
      (∀ t ∈ stray, t.kind ≠ .eol ∧ ∀ name, t.kind ≠ .section name) ∧
      ∀ k ks, stray.map Token.kind = k :: ks → k.startsNode = false ∧
        ∀ name w ks', k = .variable name → ks ≠ .equal :: .integer w :: ks' := by
  rcases h with rfl | ⟨p0, r, p1, rfl⟩
  · refine ⟨[⟨p, .variable v⟩], rfl, by simp, ?_⟩
    rintro k ks ⟨⟩
    exact ⟨rfl, nofun⟩
  · refine ⟨[⟨p0, .identifier r⟩, ⟨p1, .comma⟩, ⟨p, .variable v⟩], rfl, by simp, ?_⟩
    rintro k ks ⟨⟩
    exact ⟨rfl, nofun⟩

/-- The loop of `parse`. -/
lemma parseFuel_ok {fuel s'} (hf : items.length < fuel)
    (h : (parseFuel fuel).run ⟨⟨items, aborts⟩, symbols, nodes⟩ = some (.ok (), s')) :
    ∃ tokens new, Stops aborts items tokens s'.lexer ∧ Lines symbols (lines tokens) new s'.symbols ∧
      s'.nodes = nodes ++ new := by
  induction fuel generalizing items symbols nodes with
  | zero => exact absurd hf (Nat.not_lt_zero _)
  | succ fuel ih =>
    obtain ⟨r, s1, ht, hloop⟩ := run_bind_inv h
    obtain ⟨symbols1, rest, rfl, hstep⟩ := turn_ok ht
    cases hstep with
    | done ha =>
      cases hloop
      subst ha
      exact ⟨[], [], .finish [] rfl rfl nofun, .other nofun .nil, by simp⟩
    | @sect p name =>
      cases hloop
      refine ⟨[⟨p, .section name⟩], [], .sect [] p name rfl nofun, .other ?_ .nil, by simp⟩
      rintro k ks ⟨⟩
      exact ⟨rfl, nofun⟩
    | @eol p =>
      obtain ⟨tokens, new, hstop, hlines, hnodes⟩ := ih (Nat.lt_of_succ_lt_succ hf) hloop
      have hs : NoSection [⟨p, .eol⟩] := by simp [NoSection]
      exact ⟨⟨p, .eol⟩ :: tokens, new, hstop.prepend hs rfl, .other nofun hlines, hnodes⟩
    | @define p0 p1 p2 name w =>
      simp only [List.length_cons] at hf
      obtain ⟨tokens, new, hstop, hlines, hnodes⟩ := ih (by omega) hloop
      have hs : NoSection [⟨p0, .variable name⟩, ⟨p1, .equal⟩, ⟨p2, .integer w⟩] := by simp [NoSection]
      obtain ⟨line, ls, hl⟩ := List.exists_cons_of_ne_nil (lines_ne_nil tokens)
      refine ⟨_, new, hstop.prepend hs rfl, ?_, hnodes⟩
      exact lines_define hl ▸ .define (hl ▸ hlines)
    | @node line p n rest0 rest hn hl hleft =>
      have hs : NoSection (line ++ [⟨p, .eol⟩]) := hn.noSection.append (by simp [NoSection])
      have hlen : rest.length ≤ rest0.length := hleft.length_le
      obtain ⟨tokens, new, hstop, hlines, hnodes⟩ := ih (by simp at hf; omega) hloop
      -- A later alternative may have consumed an undefined variable of the next line: the rest of that line
      -- is then read as a line of its own.
      rcases hleft with rfl | ⟨l, pv, v, hv, rfl, hl', hhead | hhead⟩
      · refine ⟨_, n :: new, hstop.prepend hs (by simp), ?_, by simpa using hnodes⟩
        rw [List.append_assoc]
        exact lines_line hl p tokens ▸ .node hn hlines
      · obtain ⟨p', rest, rfl⟩ := itemKind_head hhead
        obtain ⟨tokens, rfl⟩ := hstop.head
        obtain ⟨stray, hstray, hother⟩ := stray_line hl' pv v
        have hne : ∀ t ∈ stray, t.kind ≠ .eol := fun t ht => (hother.1 t ht).1
        have hs' : NoSection stray := fun t ht => (hother.1 t ht).2
        have e : l ++ .ok ⟨pv, .variable v⟩ :: .ok ⟨p', .eol⟩ :: rest =
            stray.map .ok ++ .ok ⟨p', .eol⟩ :: rest := by
          rw [← hstray, List.append_assoc]
          rfl
        refine ⟨_, n :: new, (hstop.prepend hs' e).prepend hs (by simp), ?_, by simpa using hnodes⟩
        rw [List.append_assoc]
        refine lines_line hl p _ ▸ .node hn ?_
        exact lines_line hne p' tokens ▸ .other hother.2 hlines.tail
      · cases fuel with
        | zero => simp at hf
        | succ fuel =>
          have hloop' : (parseFuel (fuel + 1)).run ⟨⟨rest, aborts⟩, symbols, nodes ++ [n]⟩ =
              some (.ok (), s') := hloop
          obtain ⟨r, s1, ht, _⟩ := run_bind_inv hloop'
          obtain ⟨_, _, _, hstep⟩ := turn_ok ht
          exact absurd hhead hstep.head

/-- What `parse` has read when it returns `Ok`. The fuel is never used up, as every turn that goes on
has read an item. -/
lemma parse_ok {stream self} (h : parse.run ⟨stream, symbols, nodes⟩ = some (.ok (), self)) :
    ∃ tokens new, Stops stream.aborts stream.items tokens self.lexer ∧
      Lines symbols (lines tokens) new self.symbols ∧ self.nodes = nodes ++ new := by
  obtain ⟨items, aborts⟩ := stream
  exact parseFuel_ok (Nat.lt_succ_self _) h

/-! ### The whole text -/

/-- Nothing of the items of a text is lost: all are consumed, and the nodes appended are those of its
lines. -/
structure NothingLost (text : Stream) (symbols : HashMap Token) (nodes : List Node) (self : Parser) :
    Prop where
  consumed : self.lexer.items = [] ∧ self.lexer.aborts = false
  nodes : ∃ tokens new, text.items = tokens.map .ok ∧ text.aborts = false ∧
    Lines symbols (lines tokens) new self.symbols ∧ self.nodes = nodes ++ new

/-- Nothing follows a `.section` in a text. -/
def SectionLast (text : Stream) : Prop :=
  ∀ l p name rest, text.items = l ++ .ok ⟨p, .section name⟩ :: rest → rest = [] ∧ text.aborts = false

/-- A `.section` is not among tokens without one. -/
lemma NoSection.ne {l : List Item} {tokens : List Token} (h : NoSection tokens) (p name) :
    l ++ .ok ⟨p, .section name⟩ :: rest ≠ tokens.map .ok := by
  intro e
  have hm : (Except.ok ⟨p, .section name⟩ : Item) ∈ tokens.map .ok := by simp [← e]
  obtain ⟨t, ht, hk⟩ := List.mem_map.mp hm
  cases hk
  exact h _ ht name rfl

/-- A parse that returns `Ok` loses nothing if and only if nothing follows a `.section`. -/
theorem nothing_lost_iff [Unicode] {text symbols nodes self}
    (h : parseText text symbols nodes = some (.ok (), self)) :
    NothingLost (tokenize text) symbols nodes self ↔ SectionLast (tokenize text) := by
  obtain ⟨tokens, new, hstop, hlines, hnodes⟩ := parse_ok h
  obtain ⟨lexer, symbols', nodes'⟩ := self
  clear h
  generalize tokenize text = stream at hstop ⊢
  obtain ⟨items, aborts⟩ := stream
  cases hstop with
  | finish tokens e ha hs =>
    refine iff_of_true ⟨⟨rfl, rfl⟩, tokens, new, e, ha, hlines, hnodes⟩ ?_
    intro l p name rest e'
    exact absurd (e'.symm.trans e) (hs.ne p name)
  | @sect rest tokens p name e hs =>
    constructor
    · rintro ⟨⟨hrest, ha⟩, _⟩ l p' name' rest' e'
      refine ⟨?_, ha⟩
      cases hrest
      rcases List.eq_nil_or_concat rest' with hnil | ⟨r, x, rfl⟩
      · exact hnil
      · have heq : (l ++ .ok ⟨p', .section name'⟩ :: r) ++ [x] = tokens.map .ok ++ [.ok ⟨p, .section name⟩] := by
          rw [← e, e']
          simp
        exact absurd (List.append_inj_left' heq rfl) (hs.ne p' name')
    · intro hlast
      obtain ⟨rfl, ha⟩ := hlast _ _ _ _ e
      refine ⟨⟨rfl, ha⟩, _, new, ?_, ha, hlines, hnodes⟩
      rw [e, List.map_append]
      rfl

/-- The characters of an ASCII text. -/
@[reducible] def asciiUnicode : Unicode := ⟨fun _ => false⟩

/-- A text of a definition, a label, an empty line and two instructions. -/
def loopSource : String := "$n = 5\n:loop\n\n    PUSH $n\n    J @loop\n"

/-- Its tokens. -/
def loopTokens : List Token := [
  ⟨⟨1, 1⟩, .variable "$n"⟩, ⟨⟨1, 4⟩, .equal⟩, ⟨⟨1, 6⟩, .integer 5⟩, ⟨⟨1, 7⟩, .eol⟩,
  ⟨⟨2, 1⟩, .label "loop"⟩, ⟨⟨2, 6⟩, .eol⟩,
  ⟨⟨3, 1⟩, .eol⟩,
  ⟨⟨4, 5⟩, .op "PUSH"⟩, ⟨⟨4, 10⟩, .variable "$n"⟩, ⟨⟨4, 12⟩, .eol⟩,
  ⟨⟨5, 5⟩, .op "J"⟩, ⟨⟨5, 7⟩, .address "loop" .segment⟩, ⟨⟨5, 12⟩, .eol⟩]

/-- Its nodes. -/
def loopNodes : List Node :=
  [.label "loop", .instruction (.IW .pushW 5), .instruction (.IA .jS "loop" .segment)]

/-- The items of the text are its tokens. -/
lemma tokenize_loop : @tokenize asciiUnicode loopSource = ⟨loopTokens.map .ok, false⟩ := by
  decide +kernel

/-- Each line of the text is read. -/
theorem nothing_lost_loop : ∃ self, @parseText asciiUnicode loopSource .new [] = some (.ok (), self) ∧
    self.nodes = loopNodes ∧ NothingLost (@tokenize asciiUnicode loopSource) .new [] self := by
  have hrun : (@parseText asciiUnicode loopSource .new []).map (fun x => (x.1.isOk, x.2.nodes)) =
      some (true, loopNodes) := by decide +kernel
  obtain ⟨⟨result, self⟩, hrun, hfinal⟩ := Option.map_eq_some_iff.mp hrun
  obtain ⟨hok, hnodes⟩ := Prod.mk.inj hfinal
  cases result with
  | error e => cases hok
  | ok =>
    refine ⟨self, hrun, hnodes, (@nothing_lost_iff asciiUnicode _ _ _ _ hrun).mpr ?_⟩
    intro l p name rest e
    rw [tokenize_loop] at e
    have hs : NoSection loopTokens := by simp [NoSection, loopTokens]
    exact absurd e.symm (hs.ne p name)

/-- The items of `HALT` after a `.text`. -/
lemma tokenize_section : @tokenize asciiUnicode ".text\nHALT\n" =
    ⟨[.ok ⟨⟨1, 1⟩, .section "text"⟩, .ok ⟨⟨1, 6⟩, .eol⟩, .ok ⟨⟨2, 1⟩, .op "HALT"⟩,
      .ok ⟨⟨2, 5⟩, .eol⟩], false⟩ := by
  decide +kernel

/-- `HALT` after a `.text` is lost, and the parse returns `Ok`. -/
theorem not_nothing_lost_section : ∃ self,
    @parseText asciiUnicode ".text\nHALT\n" .new [] = some (.ok (), self) ∧
      ¬ NothingLost (@tokenize asciiUnicode ".text\nHALT\n") .new [] self := by
  show ∃ self, parse.run ⟨@tokenize asciiUnicode ".text\nHALT\n", .new, []⟩ = some (.ok (), self) ∧ _
  rw [tokenize_section]
  refine ⟨_, rfl, ?_⟩
  rintro ⟨⟨hitems, _⟩, _⟩
  cases hitems

end Thorium.Asm
