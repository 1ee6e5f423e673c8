import Thorium.Asm.Lines
import Thorium.Asm.Printer

/-!
# Source round trip

Printed nodes are parsed back. `Prints` relates nodes to every text with one node on a line and with
blank lines and comments among them; `prints_stream` brings it down to tokens (`TokenLines`), and
`parseFuel_tokens` is the induction over the lines. No alternative of a mnemonic takes anything from a
line that starts with a label, a directive, a mnemonic or its end, so the alternatives tried after the
one that has read its line do no harm (`turn_node`).
-/

namespace Thorium.Asm
open Thorium.Isa Thorium.Run

variable {symbols : HashMap Token} {rest : List Item} {nodes : List Node}

/-! ### Printed nodes -/

/-- The tokens of the line of a node. Words are integers, not variables. -/
inductive NodeText : Node → List Kind → Prop where
  | label {name} : NodeText (.label name) [.label name]
  | base {w} : NodeText (.directive (.base w)) [.directive "base", .integer w]
  | word {a w} : NodeText (.directive (.word a w)) [.directive "word", .identifier a, .integer w]
  | instruction {name ks i} : Matches .new name (ks ++ [.eol]) i →
      NodeText (.instruction i) (.op name :: ks)

/-- The ways to print nodes, one on a line. -/
inductive Prints : List Node → List Char → Prop where
  | nil : Prints [] []
  | blank {cs nodes text} : LineText [] cs → Prints nodes text → Prints nodes (cs ++ text)
  | node {n ks cs nodes text} : NodeText n ks → LineText ks cs → Prints nodes text →
      Prints (n :: nodes) (cs ++ text)

/-- Fewer than 65000 lines, each shorter than 65000 characters. -/
structure Short (text : List Char) : Prop where
  lines : text.count '\n' < 65000
  columns : ∀ l m r, text = l ++ m ++ r → '\n' ∉ m → m.length < 65000

/-- The tokens of printed nodes. -/
inductive TokenLines : List Node → List Kind → Prop where
  | nil : TokenLines [] []
  | blank {nodes ks} : TokenLines nodes ks → TokenLines nodes (.eol :: ks)
  | node {n line nodes ks} : NodeText n line → TokenLines nodes ks →
      TokenLines (n :: nodes) (line ++ .eol :: ks)

/-! ### Positions -/

/-- The position does not overflow on a short text. -/
lemma advanceAll_short {text : List Char} {p : Position} (hl : p.line + text.count '\n' < 65001)
    (hc : ∀ m r, text = m ++ r → '\n' ∉ m → p.column + m.length < 65001)
    (hs : ∀ l m r, text = l ++ m ++ r → '\n' ∉ m → m.length < 65000) :
    ∃ p', p.advanceAll text = some p' ∧ p'.column < 65001 := by
  induction text generalizing p with
  | nil => exact ⟨p, rfl, by simpa using hc [] [] rfl nofun⟩
  | cons c text ih =>
    have hs' : ∀ l m r, text = l ++ m ++ r → '\n' ∉ m → m.length < 65000 := fun l m r e =>
      hs (c :: l) m r (by rw [e]; rfl)
    by_cases h : c = '\n'
    · subst h
      rw [List.count_cons_self] at hl
      have hp : p.advance (some '\n') = some ⟨p.line + 1, 1⟩ := if_pos (by omega)
      have hih : ∃ p', Position.advanceAll ⟨p.line + 1, 1⟩ text = some p' ∧ p'.column < 65001 := by
        apply ih _ _ hs'
        · show p.line + 1 + _ < _
          omega
        · intro m r e hm
          have := hs' [] m r e hm
          show 1 + _ < _
          omega
      obtain ⟨p', hp', hcol⟩ := hih
      exact ⟨p', by rw [Position.advanceAll, hp, Option.bind_some, hp'], hcol⟩
    · have hcol := hc [c] text rfl (by simpa using Ne.symm h)
      rw [List.length_singleton] at hcol
      have hp : p.advance (some c) = some ⟨p.line, p.column + 1⟩ := by
        unfold Position.advance
        split
        · rename_i e
          cases e
          exact absurd rfl h
        · exact if_pos (by omega)
      rw [List.count_cons_of_ne h] at hl
      have hih : ∃ p', Position.advanceAll ⟨p.line, p.column + 1⟩ text = some p' ∧ p'.column < 65001 := by
        apply ih (p := ⟨p.line, p.column + 1⟩) hl _ hs'
        intro m r e hm
        have hm' : '\n' ∉ c :: m := by simp [hm, Ne.symm h]
        have := hc (c :: m) r (by rw [e]; rfl) hm'
        rw [List.length_cons] at this
        show p.column + 1 + _ < _
        omega
      obtain ⟨p', hp', hcol⟩ := hih
      exact ⟨p', by rw [Position.advanceAll, hp, Option.bind_some, hp'], hcol⟩

/-! ### Tokens of printed nodes -/

/-- The items of printed nodes. -/
lemma prints_stream [Unicode] {text : List Char} {p p' : Position} (h : Prints nodes text)
    (hp : p.advanceAll text = some p') (hcol : p'.column < 65001) :
    ∃ tokens : List Token, (Lexer.mk text p).stream = ⟨tokens.map .ok, false⟩ ∧
      TokenLines nodes (tokens.map Token.kind) := by
  induction h generalizing p with
  | nil =>
    cases hp
    refine ⟨[], ?_, .nil⟩
    have ha : p'.advance none = some ⟨p'.line, p'.column + 1⟩ := if_pos (by omega)
    have hn : (Lexer.mk [] p').next = some (none, ⟨[], ⟨p'.line, p'.column + 1⟩⟩) := by
      rw [Lexer.next, nextItem, ha]
      rfl
    rw [Lexer.stream, Lexer.streamFuel, hn]
    rfl
  | blank hcs _ ih =>
    rw [Position.advanceAll_append] at hp
    obtain ⟨p1, hp1, hp⟩ := Option.bind_eq_some_iff.mp hp
    obtain ⟨tokens, hstream, hlines⟩ := ih hp
    obtain ⟨line, hk, hline⟩ := lineText_stream hcs hp1
    refine ⟨line ++ tokens, ?_, ?_⟩
    · rw [hline, hstream, List.map_append]
    · rw [List.map_append, hk]
      exact .blank hlines
  | node hn hcs _ ih =>
    rw [Position.advanceAll_append] at hp
    obtain ⟨p1, hp1, hp⟩ := Option.bind_eq_some_iff.mp hp
    obtain ⟨tokens, hstream, hlines⟩ := ih hp
    obtain ⟨line, hk, hline⟩ := lineText_stream hcs hp1
    refine ⟨line ++ tokens, ?_, ?_⟩
    · rw [hline, hstream, List.map_append]
    · rw [List.map_append, hk, List.append_assoc]
      exact .node hn hlines

/-! ### Parsing the tokens -/

/-- Operands without variables are announced for any symbols, and have an integer for an offset. -/
lemma Announced.of_new {op f ks i} (h : Announced .new op f ks i) :
    Announced symbols op f ks i ∧ (f = .ro → ∃ w, ks[5]? = some (.integer w)) := by
  have hw : ∀ {k w}, WordOrVar .new k w → k = .integer w := by
    rintro _ _ (_ | h)
    · rfl
    · cases h
  cases h with
  | b h hb => cases hw h; exact ⟨.b .word hb, nofun⟩
  | ro h => cases hw h; exact ⟨.ro .word, fun _ => ⟨_, rfl⟩⟩
  | rw h => cases hw h; exact ⟨.rw .word, nofun⟩
  | w h => cases hw h; exact ⟨.w .word, nofun⟩
  | wr h => cases hw h; exact ⟨.wr .word, nofun⟩
  | aa => exact ⟨.aa, nofun⟩
  | as => exact ⟨.as, nofun⟩
  | aar => exact ⟨.aar, nofun⟩
  | r => exact ⟨.r, nofun⟩
  | raa => exact ⟨.raa, nofun⟩
  | ras => exact ⟨.ras, nofun⟩
  | rr => exact ⟨.rr, nofun⟩
  | rrr => exact ⟨.rrr, nofun⟩
  | void => exact ⟨.void, nofun⟩

/-- The items after the line of a node: the end, or a token that starts the line of a node or ends an
empty one. -/
def NextLine (rest : List Item) : Prop :=
  rest = [] ∨ ∃ p k rest', rest = .ok ⟨p, k⟩ :: rest' ∧ (k.startsNode = true ∨ k = .eol)

/-- What starts a line of printed nodes is no operand. -/
lemma NextLine.not_announced {op f i rest'} {tokens : List Token} (h : NextLine rest)
    (e : rest = tokens.map .ok ++ rest') (an : Announced symbols op f (tokens.map Token.kind) i) :
    f = .void ∨ f = .b := by
  obtain ⟨k, ks, hks, hk⟩ : ∃ k ks, tokens.map Token.kind = k :: ks ∧ (k.startsNode = true ∨ k = .eol) := by
    cases tokens with
    | nil => cases an.eol.2
    | cons t tokens =>
      rcases h with rfl | ⟨p, k, rest', rfl, hk⟩
      · cases e
      · cases e
        exact ⟨k, _, rfl, hk⟩
  have hstart : k.startsLine = true := by
    rcases hk with hk | rfl
    · cases k <;> first | rfl | cases hk
    · rfl
  rcases an.startsLine ⟨k, ks, hks, hstart⟩ with hf | hf | ⟨_, v, w, _, hv⟩ | ⟨_, v, w, r, _, hv⟩
  · exact .inl hf
  · exact .inr hf
  · cases hks.symm.trans hv
    rcases hk with hk | hk <;> cases hk
  · cases hks.symm.trans hv
    rcases hk with hk | hk <;> cases hk

/-- Of a next line nothing is left over. -/
lemma NextLine.leftover {rest'} (h : NextLine rest) (hl : Leftover symbols rest rest') : rest' = rest := by
  rcases hl with rfl | ⟨l, p, name, _, rfl, hl, _⟩
  · rfl
  · rcases h with h | ⟨p1, k, r, e, hk⟩
    · simp at h
    · rcases hl with rfl | ⟨p0, r0, p2, rfl⟩
      · cases e
        rcases hk with hk | hk <;> cases hk
      · cases e
        rcases hk with hk | hk <;> cases hk

/-- A turn reads the line of a node. -/
lemma turn_node {n} {line : List Token} {p} (h : NodeText n (line.map Token.kind)) (hrest : NextLine rest) :
    turn.run ⟨⟨line.map .ok ++ .ok ⟨p, .eol⟩ :: rest, false⟩, symbols, nodes⟩ =
      some (.ok (.node n), ⟨⟨rest, false⟩, symbols, nodes⟩) := by
  generalize hks : line.map Token.kind = ks at h
  cases h with
  | label =>
    obtain ⟨⟨p0, _⟩, tokens, rfl, rfl, h1⟩ := List.map_eq_cons_iff.mp hks
    cases List.map_eq_nil_iff.mp h1
    rfl
  | @base w =>
    obtain ⟨⟨p0, _⟩, tokens, rfl, rfl, h1⟩ := List.map_eq_cons_iff.mp hks
    obtain ⟨⟨p1, _⟩, tokens, rfl, rfl, h2⟩ := List.map_eq_cons_iff.mp h1
    cases List.map_eq_nil_iff.mp h2
    have hd : (parseDirective "base" p0).run
        ⟨⟨.ok ⟨p1, .integer w⟩ :: .ok ⟨p, .eol⟩ :: rest, false⟩, symbols, nodes⟩ =
          some (.ok (.base w), ⟨⟨rest, false⟩, symbols, nodes⟩) := by
      have e : toLowercase "base" = "base" := by decide
      rw [parseDirective, e]
      rfl
    exact turn_directive.trans (run_bind_ok hd)
  | @word a w =>
    obtain ⟨⟨p0, _⟩, tokens, rfl, rfl, h1⟩ := List.map_eq_cons_iff.mp hks
    obtain ⟨⟨p1, _⟩, tokens, rfl, rfl, h2⟩ := List.map_eq_cons_iff.mp h1
    obtain ⟨⟨p2, _⟩, tokens, rfl, rfl, h3⟩ := List.map_eq_cons_iff.mp h2
    cases List.map_eq_nil_iff.mp h3
    have hd : (parseDirective "word" p0).run
        ⟨⟨.ok ⟨p1, .identifier a⟩ :: .ok ⟨p2, .integer w⟩ :: .ok ⟨p, .eol⟩ :: rest, false⟩, symbols, nodes⟩ =
          some (.ok (.word a w), ⟨⟨rest, false⟩, symbols, nodes⟩) := by
      have e : toLowercase "word" = "word" := by decide
      rw [parseDirective, e]
      rfl
    exact turn_directive.trans (run_bind_ok hd)
  | @instruction name ks i hm =>
    obtain ⟨⟨p0, _⟩, tokens, rfl, rfl, h1⟩ := List.map_eq_cons_iff.mp hks
    subst h1
    obtain ⟨fs, op, f, hfs, hm, an⟩ := hm
    obtain ⟨fs1, fs2, rfl⟩ := List.append_of_mem hm
    have hline : (tokens ++ [(⟨p, .eol⟩ : Token)]).map Token.kind = tokens.map Token.kind ++ [.eol] :=
      List.map_append
    rw [← hline] at an
    obtain ⟨an', hro⟩ := @Announced.of_new symbols _ _ _ _ an
    -- The later alternatives run on the next line, which starts with no operand.
    have hlater : ∀ y ∈ fs2, ∀ (tokens' : List Token) rest' j, rest = tokens'.map .ok ++ rest' →
        ¬ Announced symbols y.1 y.2 (tokens'.map Token.kind) j := by
      intro y hy tokens' rest' j e an2
      have hp := (List.pairwise_cons.mp (List.pairwise_append.mp (alternatives_precede hfs)).2.1).1 y hy
      rcases hrest.not_announced e an2 with hg | hg <;> simp [Form.precedes, hg] at hp
    obtain ⟨rest', hl, hrun⟩ := @parseInstruction_complete symbols p0 rest op f i fs1 name fs2 nodes
      (tokens ++ [⟨p, .eol⟩]) hfs an' hro hlater
    cases hrest.leftover hl
    have hitems : (tokens ++ [(⟨p, .eol⟩ : Token)]).map Except.ok ++ rest =
        tokens.map .ok ++ .ok ⟨p, .eol⟩ :: rest := by
      rw [List.map_append, List.append_assoc]
      rfl
    rw [hitems] at hrun
    exact turn_op.trans (run_bind_ok hrun)

/-- The tokens of printed nodes start with the line of a node or an empty line. -/
lemma TokenLines.nextLine {tokens : List Token} (h : TokenLines nodes (tokens.map Token.kind)) :
    NextLine (tokens.map .ok) := by
  rcases tokens with _ | ⟨⟨p, k⟩, tokens⟩
  · exact .inl rfl
  · refine .inr ⟨p, k, _, rfl, ?_⟩
    rw [List.map_cons] at h
    generalize tokens.map Token.kind = ks at h
    generalize hk : k :: ks = ks' at h
    cases h with
    | nil => cases hk
    | blank => cases hk; exact .inr rfl
    | node hn => cases hn <;> cases hk <;> exact .inl rfl

/-- The loop of `parse` on the tokens of printed nodes. -/
lemma parseFuel_tokens {tokens : List Token} {fuel} {nodes0 : List Node}
    (h : TokenLines nodes (tokens.map Token.kind)) (hf : tokens.length < fuel) :
    (parseFuel fuel).run ⟨⟨tokens.map .ok, false⟩, symbols, nodes0⟩ =
      some (.ok (), ⟨⟨[], false⟩, symbols, nodes0 ++ nodes⟩) := by
  generalize hks : tokens.map Token.kind = ks at h
  induction h generalizing tokens fuel nodes0 with
  | nil =>
    cases List.map_eq_nil_iff.mp hks
    cases fuel with
    | zero => exact absurd hf (Nat.not_lt_zero _)
    | succ fuel => rw [List.append_nil]; rfl
  | blank hl ih =>
    obtain ⟨⟨p, _⟩, tokens, rfl, rfl, rfl⟩ := List.map_eq_cons_iff.mp hks
    rw [List.length_cons] at hf
    cases fuel with
    | zero => exact absurd hf (Nat.not_lt_zero _)
    | succ fuel => exact @ih tokens fuel nodes0 (Nat.lt_of_succ_lt_succ hf) rfl
  | @node n line nodes ks hn hl ih =>
    obtain ⟨ltokens, rtokens, rfl, rfl, hr⟩ := List.map_eq_append_iff.mp hks
    obtain ⟨⟨p, _⟩, tokens, rfl, rfl, rfl⟩ := List.map_eq_cons_iff.mp hr
    cases fuel with
    | zero => exact absurd hf (Nat.not_lt_zero _)
    | succ fuel =>
      rw [List.length_append, List.length_cons] at hf
      have ht := @turn_node symbols (tokens.map .ok) nodes0 n ltokens p hn hl.nextLine
      have hih := @ih tokens fuel (nodes0 ++ [n]) (by omega) rfl
      rw [List.append_assoc] at hih
      rw [List.map_append, List.map_cons]
      exact (run_bind_ok ht).trans hih

/-! ### Round trip -/

/-- **Round trip**: parsing a printing of nodes appends exactly these nodes, and reads the whole text. -/
theorem parse_prints [Unicode] {text : String} (h : Prints nodes text.toList) (hs : Short text.toList)
    (nodes0 : List Node) :
    parseText text symbols nodes0 = some (.ok (), ⟨⟨[], false⟩, symbols, nodes0 ++ nodes⟩) := by
  obtain ⟨p', hp, hcol⟩ : ∃ p', Position.advanceAll ⟨1, 1⟩ text.toList = some p' ∧ p'.column < 65001 := by
    apply advanceAll_short _ _ hs.columns
    · have := hs.lines
      show 1 + _ < _
      omega
    · intro m r e hm
      have := hs.columns [] m r e hm
      show 1 + _ < _
      omega
  obtain ⟨tokens, hstream, hlines⟩ := prints_stream h hp hcol
  have ht : tokenize text = ⟨tokens.map .ok, false⟩ := by rw [tokenize, Lexer.fromText, hstream]
  have hlen : tokens.length < (tokens.map (.ok : Token → Item)).length + 1 := by
    rw [List.length_map]
    exact Nat.lt_succ_self _
  rw [parseText, ht]
  exact parseFuel_tokens hlines hlen

/-- A text of less than 65000 characters is short. -/
lemma short_of_length {text : List Char} (h : text.length < 65000) : Short text := by
  constructor
  · exact Nat.lt_of_le_of_lt List.count_le_length h
  · rintro l m r rfl _
    rw [List.length_append, List.length_append] at h
    omega

/-- A label, a blank line and an instruction with a comment after it are read back. -/
theorem parse_prints_inc :
    @parseText asciiUnicode ":l\n\nINC r1 //\n" .new [] =
      some (.ok (), ⟨⟨[], false⟩, .new, [.label "l", .instruction (.IR .incR "r1")]⟩) := by
  have label : LineText [.label "l"] [':', 'l', '\n'] :=
    .cons (g := []) nofun (.label ⟨'l', [], rfl, rfl, nofun⟩) (fun _ _ e => by cases e; rfl)
      (.nil (g := []) nofun .newline)
  have blank : LineText [] ['\n'] := .nil (g := []) nofun .newline
  have comment : LineText [] [' ', '/', '/', '\n'] :=
    .nil (g := [' ']) (fun _ h => .inl (List.mem_singleton.mp h)) (.comment (s := []) nofun)
  have register : LineText [.identifier "r1"] [' ', 'r', '1', ' ', '/', '/', '\n'] :=
    .cons (g := [' ']) (fun _ h => .inl (List.mem_singleton.mp h))
      (.identifier ⟨'r', ['1'], rfl, rfl, fun _ h => .inl (by cases List.mem_singleton.mp h; rfl)⟩)
      (fun _ _ e => by cases e; rfl) comment
  have inc : LineText [.op "INC", .identifier "r1"]
      ['I', 'N', 'C', ' ', 'r', '1', ' ', '/', '/', '\n'] :=
    .cons (g := []) nofun (.op ⟨'I', ['N', 'C'], rfl, rfl, List.forall_mem_cons.mpr
      ⟨.inl rfl, List.forall_mem_cons.mpr ⟨.inl rfl, nofun⟩⟩⟩) (fun _ _ e => by cases e; rfl) register
  have matched : Matches .new "INC" ([.identifier "r1"] ++ [.eol]) (.IR .incR "r1") :=
    ⟨[(.incR, .r)], .incR, .r, rfl, .head _, .r⟩
  have prints : Prints [.label "l", .instruction (.IR .incR "r1")] ":l\n\nINC r1 //\n".toList :=
    .node .label label (.blank blank (.node (.instruction matched) inc .nil))
  exact @parse_prints .new _ asciiUnicode _ prints (short_of_length (by decide)) []

end Thorium.Asm
