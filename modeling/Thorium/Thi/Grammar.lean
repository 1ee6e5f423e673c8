import Thorium.Thi.Reading

/-!
# The grammar of pairs

`IsPair` relates the key of a pair to its tokens, without white space, and `OpenText` holds for what starts a pair
whose text no closing parenthesis ends. `parsePair` returns on the former, asks for tokens for ever on the latter,
and writes an error on the rest.
-/

namespace Thorium.Thi.Generator
open Thorium.Isa

/-- The keys of pairs with a text. -/
def textKeys : List String := ["effect", "cond", "comment"]

/-- An item, and then items and commas. -/
def Listing {α : Type} (item : Token → Option α) (ts : List Token) : Prop :=
  (∃ t us, ts = t :: us ∧ (item t).isSome = true) ∧ ∀ t ∈ ts, (item t).isSome = true ∨ t.type = .comma

/-- The tokens of a text: one `TEXT`, or any that do not start with one. -/
def IsText (ts : List Token) : Prop :=
  ∃ t us, ts = t :: us ∧ (t.type = .text ∧ us = [] ∨ t.type ≠ .text ∧ ∀ t ∈ ts, t.type ≠ .rpar)

/-- What stands between the key of a pair and its closing parenthesis. -/
inductive IsValue : String → List Token → Prop where
  | code {t} : t.type = .number → IsValue "code" [t]
  | args {ts} : Listing argOf ts → IsValue "args" ts
  | text {key ts} : key ∈ textKeys → IsText ts → IsValue key ts
  | flags {ts} : Listing flagOf ts → IsValue "flags" ts
  | other {key} : key ∉ "code" :: "args" :: "flags" :: textKeys → IsValue key []

/-- The tokens of a pair. -/
inductive IsPair : String → List Token → Prop where
  | intro {l k r vs} : l.type = .lpar → k.type = .keyword → IsValue (String.ofList k.value) vs → r.type = .rpar →
      IsPair (String.ofList k.value) (l :: k :: (vs ++ [r]))

/-- A pair with a text that is neither one `TEXT` nor ended. -/
inductive OpenText : List Token → Prop where
  | intro {l k ts} : l.type = .lpar → k.type = .keyword → String.ofList k.value ∈ textKeys →
      (tokenAt ts 0).type ≠ .text → (∀ t ∈ ts, t.type ≠ .rpar) → OpenText (l :: k :: ts)

variable {ts ts' us rest : List Token} {t r : Token} {type : TokenType} {value : List Char} {key : String}
  {pair : Pair}

/-! ### Single tokens -/

/-- The first token behind the white space, and what follows it. -/
lemma tokenAt_strip (h : strip ts = t :: us) : tokenAt ts (spaces ts) = t ∧ strip (ts.drop (spaces ts + 1)) = us := by
  obtain ⟨hfirst, hrest⟩ := @strip_drop ts
  rw [h] at hfirst hrest
  exact ⟨hfirst.symm, hrest.symm⟩

/-- `next` takes a token of its type. -/
lemma next_cons (htype : type ≠ .eof) (h : strip ts = t :: us) (ht : t.type = type) :
    ∃ ts', Thi.next type ts = .ok (t.value, ts') ∧ strip ts' = us := by
  obtain ⟨hfirst, hrest⟩ := tokenAt_strip h
  rw [next_drop htype, hfirst, if_pos ht]
  exact ⟨_, rfl, hrest⟩

/-- There is white space, a token and the rest, unless the tokens end. -/
lemma strip_first (h : (tokenAt ts (spaces ts)).type ≠ .eof) :
    strip ts = tokenAt ts (spaces ts) :: strip (ts.drop (spaces ts + 1)) := by
  obtain ⟨hfirst, hrest⟩ := @strip_drop ts
  rw [← hfirst] at h
  rw [← hfirst, ← hrest]
  cases hs : strip ts with
  | nil =>
    rw [hs] at h
    exact absurd rfl h
  | cons t us => rfl

/-- What `next` takes. -/
lemma next_inv (htype : type ≠ .eof) (h : Thi.next type ts = .ok (value, ts')) :
    ∃ t, strip ts = t :: strip ts' ∧ t.type = type ∧ t.value = value := by
  rw [next_drop htype] at h
  split at h
  · next ht =>
    cases h
    exact ⟨_, strip_first (by rw [ht]; exact htype), ht, rfl⟩
  · cases h

/-- A token of another type is no endless loop. -/
lemma next_error {e : String} (htype : type ≠ .eof) (h : Thi.next type ts = .error e) : e ≠ "endless loop" := by
  rw [next_drop htype] at h
  split at h
  · cases h
  · cases h
    exact expected_ne

/-! ### Arguments and flags -/

section List

variable {α : Type} {item : Token → Option α} {first others : List TokenType} {items items' : List α}

/-- What a list takes. -/
lemma parseList_inv (h : Thi.parseList item first others items ts = .ok (items', ts')) :
    ∃ us, strip ts = us ++ strip ts' ∧ (∀ t ∈ us, (item t).isSome = true ∨ t.type = .comma) ∧
      (items = [] → Listing item us) := by
  induction ts generalizing items with
  | nil => cases h
  | cons t ts ih =>
    rw [Thi.parseList] at h
    by_cases hw : t.type = .whitespace
    · rw [if_pos hw] at h
      rw [strip_space hw]
      exact ih h
    rw [if_neg hw] at h
    rw [strip_cons hw]
    by_cases hr : t.type = .rpar
    · rw [if_pos hr] at h
      split at h
      · cases h
      · next hne =>
        cases h
        refine ⟨[], (strip_cons hw).symm, fun t ht => absurd ht List.not_mem_nil, ?_⟩
        rintro rfl
        exact absurd rfl hne
    rw [if_neg hr] at h
    by_cases hc : t.type = .comma
    · rw [if_pos hc] at h
      split at h
      · cases h
      · next hne =>
        obtain ⟨us, hs, hall, _⟩ := ih h
        refine ⟨t :: us, congrArg (t :: ·) hs, List.forall_mem_cons.mpr ⟨.inr hc, hall⟩, ?_⟩
        rintro rfl
        exact absurd rfl hne
    rw [if_neg hc] at h
    split at h
    · next a ha =>
      obtain ⟨us, hs, hall, _⟩ := ih h
      have hi : (item t).isSome = true := by
        rw [ha]
        rfl
      have hall' : ∀ v ∈ t :: us, (item v).isSome = true ∨ v.type = .comma :=
        List.forall_mem_cons.mpr ⟨.inl hi, hall⟩
      exact ⟨t :: us, congrArg (t :: ·) hs, hall', fun _ => ⟨⟨t, us, rfl, hi⟩, hall'⟩⟩
    · cases h

/-- The list is read up to a closing parenthesis. -/
lemma parseList_append (hitem : ∀ t, (item t).isSome = true → t.type ≠ .rpar ∧ t.type ≠ .comma)
    (hs : strip ts = us ++ r :: rest) (hr : r.type = .rpar)
    (hall : ∀ t ∈ us, (item t).isSome = true ∨ t.type = .comma) (hfirst : items = [] → Listing item us) :
    ∃ items' ts', Thi.parseList item first others items ts = .ok (items', ts') ∧ strip ts' = r :: rest := by
  induction ts generalizing items us with
  | nil =>
    cases us with
    | nil => cases hs
    | cons u us => cases hs
  | cons t ts ih =>
    rw [Thi.parseList]
    by_cases hw : t.type = .whitespace
    · rw [strip_space hw] at hs
      rw [if_pos hw]
      exact ih hs hall hfirst
    rw [strip_cons hw] at hs
    rw [if_neg hw]
    cases us with
    | nil =>
      obtain ⟨rfl, htail⟩ := List.cons.inj hs
      have hne : items ≠ [] := by
        intro hi
        obtain ⟨⟨_, _, he, _⟩, _⟩ := hfirst hi
        cases he
      rw [if_pos hr, List.isEmpty_eq_false_iff.mpr hne]
      exact ⟨_, _, rfl, by rw [strip_cons hw, htail]⟩
    | cons u us =>
      obtain ⟨rfl, htail⟩ := List.cons.inj hs
      obtain ⟨ht, hall⟩ := List.forall_mem_cons.mp hall
      by_cases hi : (item t).isSome = true
      · obtain ⟨hnr, hnc⟩ := hitem t hi
        obtain ⟨a, ha⟩ := Option.isSome_iff_exists.mp hi
        rw [if_neg hnr, if_neg hnc, ha]
        exact ih htail hall fun he => absurd he (List.append_ne_nil_of_right_ne_nil _ (List.cons_ne_nil _ _))
      · have hc := ht.resolve_left hi
        have hne : items ≠ [] := by
          intro hitems
          obtain ⟨⟨_, _, he, hi'⟩, _⟩ := hfirst hitems
          cases he
          exact hi hi'
        rw [if_neg (by rw [hc]; exact TokenType.noConfusion), if_pos hc, List.isEmpty_eq_false_iff.mpr hne]
        exact ih htail hall fun he => absurd he hne

/-- A list that fails does not loop. -/
lemma parseList_error {e : String} (h : Thi.parseList item first others items ts = .error e) :
    e ≠ "endless loop" := by
  induction ts generalizing items with
  | nil =>
    cases h
    exact expected_ne
  | cons t ts ih =>
    rw [Thi.parseList] at h
    split at h
    · exact ih h
    split at h
    · split at h
      · cases h
        decide
      · cases h
    split at h
    · split at h
      · cases h
        exact expected_ne
      · exact ih h
    split at h
    · exact ih h
    · cases h
      exact expected_ne

end List

/-- An argument is no punctuation. -/
lemma argOf_type (h : (argOf t).isSome = true) : t.type ≠ .rpar ∧ t.type ≠ .comma := by
  unfold argOf at h
  refine ⟨fun ht => ?_, fun ht => ?_⟩
  · rw [ht] at h
    cases h
  · rw [ht] at h
    cases h

/-- Nor is a flag. -/
lemma flagOf_type (h : (flagOf t).isSome = true) : t.type ≠ .rpar ∧ t.type ≠ .comma := by
  unfold flagOf at h
  split at h
  · next ht =>
    rw [ht]
    exact ⟨TokenType.noConfusion, TokenType.noConfusion⟩
  · cases h

/-! ### Texts -/

/-- White space closes nothing. -/
lemma strip_rpar : (∀ t ∈ strip ts, t.type ≠ .rpar) ↔ ∀ t ∈ ts, t.type ≠ .rpar := by
  refine ⟨fun h t ht hr => ?_, fun h t ht => h t (List.mem_of_mem_filter ht)⟩
  refine h t (List.mem_filter.mpr ⟨ht, ?_⟩) hr
  rw [hr]
  rfl

/-- What is from the first closing parenthesis on. -/
lemma strip_dropWhile :
    strip (ts.dropWhile fun t => t.type != .rpar) = (strip ts).dropWhile fun t => t.type != .rpar := by
  induction ts with
  | nil => rfl
  | cons t ts ih =>
    rw [List.dropWhile_cons]
    by_cases hr : t.type = .rpar
    · have hb : ¬ (t.type != .rpar) = true := fun hb => bne_iff_ne.mp hb hr
      have hw : t.type ≠ .whitespace := by
        rw [hr]
        exact TokenType.noConfusion
      rw [if_neg hb, strip_cons hw, List.dropWhile_cons, if_neg hb]
    have hb : (t.type != .rpar) = true := bne_iff_ne.mpr hr
    rw [if_pos hb, ih]
    by_cases hw : t.type = .whitespace
    · rw [strip_space hw]
    · rw [strip_cons hw, List.dropWhile_cons, if_pos hb]

/-- What a text takes. -/
lemma parseText_inv (h : Thi.parseText ts = .ok (value, ts')) : ∃ us, strip ts = us ++ strip ts' ∧ IsText us := by
  unfold Thi.parseText at h
  rw [@look_eq ts 0] at h
  split at h
  · obtain ⟨t, hs, ht, _⟩ := next_inv TokenType.noConfusion h
    exact ⟨[t], hs, t, [], rfl, .inl ⟨ht, rfl⟩⟩
  next htext =>
  split at h
  · cases h
  next hrpar =>
  dsimp only at h
  split at h
  · cases h
  next hempty =>
  cases h
  rw [dropWhile_isEmpty, ← strip_rpar] at hempty
  rw [strip_dropWhile]
  refine ⟨_, List.takeWhile_append_dropWhile.symm, ?_⟩
  cases hs : strip ts with
  | nil =>
    rw [hs] at hempty
    exact absurd (fun t ht => absurd ht List.not_mem_nil) hempty
  | cons t us =>
    rw [hs] at htext hrpar
    have hb : (t.type != .rpar) = true := bne_iff_ne.mpr hrpar
    refine ⟨t, _, by rw [List.takeWhile_cons, if_pos hb], .inr ⟨htext, fun v hv => ?_⟩⟩
    have hv' : (v.type != .rpar) = true := List.mem_takeWhile_imp (p := fun u : Token => u.type != .rpar) hv
    exact bne_iff_ne.mp hv'

/-- A text is read up to the closing parenthesis. -/
lemma parseText_append (hs : strip ts = us ++ r :: rest) (hr : r.type = .rpar) (ht : IsText us) :
    ∃ value ts', Thi.parseText ts = .ok (value, ts') ∧ strip ts' = r :: rest := by
  obtain ⟨t, us, rfl, ht⟩ := ht
  have hlook : tokenAt (strip ts) 0 = t := by
    rw [hs]
    rfl
  unfold Thi.parseText
  rw [@look_eq ts 0, hlook]
  obtain ⟨ht, rfl⟩ | ⟨ht, hall⟩ := ht
  · rw [if_pos ht]
    obtain ⟨ts', hn, hs'⟩ := next_cons TokenType.noConfusion hs ht
    exact ⟨_, ts', hn, hs'⟩
  · have hempty : ¬ (ts.dropWhile fun t => t.type != .rpar).isEmpty = true := by
      rw [dropWhile_isEmpty, ← strip_rpar, hs]
      exact fun h => h r (List.mem_append_right _ List.mem_cons_self) hr
    rw [if_neg ht, if_neg (hall t List.mem_cons_self)]
    dsimp only
    rw [if_neg hempty]
    refine ⟨_, _, rfl, ?_⟩
    rw [strip_dropWhile, hs, List.dropWhile_append_of_pos fun v hv => bne_iff_ne.mpr (hall v hv), List.dropWhile_cons,
      if_neg fun hb => bne_iff_ne.mp hb hr]

/-- A text loops where nothing closes it. -/
lemma parseText_endless : Thi.parseText ts = .error "endless loop" ↔
    (tokenAt (strip ts) 0).type ≠ .text ∧ ∀ t ∈ strip ts, t.type ≠ .rpar := by
  unfold Thi.parseText
  rw [@look_eq ts 0, strip_rpar, ← dropWhile_isEmpty]
  dsimp only
  split
  · next ht => exact iff_of_false (fun h => next_error TokenType.noConfusion h rfl) fun h => h.1 ht
  next ht =>
  split
  · next hr =>
    refine iff_of_false (by decide) fun h => ?_
    have hfirst := dropWhile_isEmpty.mp h.2
    rw [← strip_rpar] at hfirst
    cases hs : strip ts with
    | nil =>
      rw [hs] at hr
      cases hr
    | cons t us =>
      rw [hs] at hr hfirst
      exact hfirst t List.mem_cons_self hr
  · split
    · next he => exact iff_of_true rfl ⟨ht, he⟩
    · next he => exact iff_of_false (fun h => by cases h) fun h => he h.2

/-! ### Pairs -/

/-- A bind that fails, in its first part or in its second. -/
lemma error_of_bind {α β : Type} {m : Except String α} {f : α → Except String β} {e : String}
    (h : (m >>= f) = .error e) : m = .error e ∨ ∃ a, m = .ok a ∧ f a = .error e := by
  cases m with
  | error e' =>
    cases h
    exact .inl rfl
  | ok a => exact .inr ⟨a, rfl, h⟩

/-- The values that are texts. -/
lemma parseValue_text (hkey : key ∈ textKeys) : ∃ f : String → Pair, (∀ s as, f s ≠ .args as) ∧
    Thi.parseValue key ts = Thi.parseText ts >>= fun (s, ts) => .ok (f (String.ofList s), ts) := by
  simp only [textKeys, List.mem_cons, List.not_mem_nil, or_false] at hkey
  obtain rfl | rfl | rfl := hkey
  · exact ⟨.effect, fun _ _ => Pair.noConfusion, rfl⟩
  · exact ⟨.cond, fun _ _ => Pair.noConfusion, rfl⟩
  · exact ⟨.comment, fun _ _ => Pair.noConfusion, rfl⟩

/-- The value of `code`. -/
lemma parseValue_code :
    Thi.parseValue "code" ts = Thi.next .number ts >>= fun (n, ts) => .ok (.code (tonumber n), ts) := rfl

/-- The value of `args`. -/
lemma parseValue_args : Thi.parseValue "args" ts = Thi.parseArgs ts >>= fun (as, ts) => .ok (.args as, ts) := rfl

/-- The value of `flags`. -/
lemma parseValue_flags : Thi.parseValue "flags" ts = Thi.parseFlags ts >>= fun (fs, ts) => .ok (.flags fs, ts) := rfl

/-- Other keys have no value. -/
lemma parseValue_other (hkey : key ∉ "code" :: "args" :: "flags" :: textKeys) :
    Thi.parseValue key ts = .ok (.flags [], ts) := by
  simp only [textKeys, List.mem_cons, List.not_mem_nil, or_false, not_or] at hkey
  obtain ⟨h1, h2, h3, h4, h5, h6⟩ := hkey
  unfold Thi.parseValue
  dsimp only
  rw [if_neg h1, if_neg h2, if_neg h4, if_neg h5, if_neg h6, if_neg h3]

/-- The keys that `parsePair` tells apart. -/
lemma key_cases : key = "code" ∨ key = "args" ∨ key = "flags" ∨ key ∈ textKeys ∨
    key ∉ "code" :: "args" :: "flags" :: textKeys := by
  by_cases h1 : key = "code"
  · exact .inl h1
  by_cases h2 : key = "args"
  · exact .inr (.inl h2)
  by_cases h3 : key = "flags"
  · exact .inr (.inr (.inl h3))
  by_cases h4 : key ∈ textKeys
  · exact .inr (.inr (.inr (.inl h4)))
  · simp only [List.mem_cons, not_or]
    exact .inr (.inr (.inr (.inr ⟨h1, h2, h3, h4⟩)))

/-- What a value takes. -/
lemma parseValue_inv (h : Thi.parseValue key ts = .ok (pair, ts')) :
    ∃ us, strip ts = us ++ strip ts' ∧ IsValue key us ∧ ((∃ as, pair = .args as) ↔ key = "args") := by
  obtain rfl | rfl | rfl | hkey | hkey := @key_cases key
  · rw [parseValue_code] at h
    obtain ⟨⟨n, ts1⟩, hn, h⟩ := bind_ok h
    cases h
    obtain ⟨t, hs, ht, _⟩ := next_inv TokenType.noConfusion hn
    exact ⟨[t], hs, .code ht, iff_of_false (fun ⟨_, h⟩ => Pair.noConfusion h) (by decide)⟩
  · rw [parseValue_args] at h
    obtain ⟨⟨as, ts1⟩, ha, h⟩ := bind_ok h
    cases h
    obtain ⟨us, hs, _, hl⟩ := parseList_inv ha
    exact ⟨us, hs, .args (hl rfl), iff_of_true ⟨as, rfl⟩ rfl⟩
  · rw [parseValue_flags] at h
    obtain ⟨⟨fs, ts1⟩, hf, h⟩ := bind_ok h
    cases h
    obtain ⟨us, hs, _, hl⟩ := parseList_inv hf
    exact ⟨us, hs, .flags (hl rfl), iff_of_false (fun ⟨_, h⟩ => Pair.noConfusion h) (by decide)⟩
  · obtain ⟨f, hf, he⟩ := @parseValue_text ts key hkey
    rw [he] at h
    obtain ⟨⟨s, ts1⟩, ht, h⟩ := bind_ok h
    cases h
    obtain ⟨us, hs, hu⟩ := parseText_inv ht
    refine ⟨us, hs, .text hkey hu, iff_of_false (fun ⟨as, h⟩ => hf _ as h) ?_⟩
    rintro rfl
    revert hkey
    decide
  · rw [parseValue_other hkey] at h
    cases h
    refine ⟨[], rfl, .other hkey, iff_of_false (fun ⟨_, h⟩ => Pair.noConfusion h) ?_⟩
    rintro rfl
    revert hkey
    decide

/-- A value is read up to the closing parenthesis. -/
lemma parseValue_append (hs : strip ts = us ++ r :: rest) (hr : r.type = .rpar) (h : IsValue key us) :
    ∃ pair ts', Thi.parseValue key ts = .ok (pair, ts') ∧ strip ts' = r :: rest := by
  cases h with
  | code ht =>
    obtain ⟨ts', hn, hs'⟩ := next_cons TokenType.noConfusion hs ht
    exact ⟨_, ts', by rw [parseValue_code, hn]; rfl, hs'⟩
  | args hl =>
    obtain ⟨as, ts', ha, hs'⟩ := parseList_append (fun _ => argOf_type) hs hr hl.2 fun _ : [] = [] => hl
    exact ⟨_, ts', by rw [parseValue_args, Thi.parseArgs, ha]; rfl, hs'⟩
  | text hkey ht =>
    obtain ⟨f, _, he⟩ := @parseValue_text ts key hkey
    obtain ⟨s, ts', hp, hs'⟩ := parseText_append hs hr ht
    exact ⟨_, ts', by rw [he, hp]; rfl, hs'⟩
  | flags hl =>
    obtain ⟨fs, ts', hf, hs'⟩ := parseList_append (fun _ => flagOf_type) hs hr hl.2 fun _ : [] = [] => hl
    exact ⟨_, ts', by rw [parseValue_flags, Thi.parseFlags, hf]; rfl, hs'⟩
  | other hkey => exact ⟨_, ts, parseValue_other hkey, hs⟩

/-- A result that is changed loops where it did. -/
lemma map_endless {α β : Type} {x : Except String (α × List Token)} {f : α → β} :
    (x >>= fun (a, ts) => Except.ok (f a, ts)) = .error "endless loop" ↔ x = .error "endless loop" := by
  cases x with
  | error e =>
    refine ⟨fun h => ?_, fun h => ?_⟩
    · cases h
      rfl
    · cases h
      rfl
  | ok r => exact iff_of_false (fun h => by cases h) fun h => by cases h

/-- A value loops where it is a text that does. -/
lemma parseValue_endless : Thi.parseValue key ts = .error "endless loop" ↔
    key ∈ textKeys ∧ Thi.parseText ts = .error "endless loop" := by
  obtain rfl | rfl | rfl | hkey | hkey := @key_cases key
  · rw [parseValue_code, map_endless (f := fun n => Pair.code (tonumber n))]
    exact iff_of_false (fun h => next_error TokenType.noConfusion h rfl) fun h => absurd h.1 (by decide)
  · rw [parseValue_args, map_endless]
    exact iff_of_false (fun h => parseList_error h rfl) fun h => absurd h.1 (by decide)
  · rw [parseValue_flags, map_endless]
    exact iff_of_false (fun h => parseList_error h rfl) fun h => absurd h.1 (by decide)
  · obtain ⟨f, _, he⟩ := @parseValue_text ts key hkey
    rw [he, and_iff_right hkey]
    exact map_endless (f := fun s => f (String.ofList s))
  · rw [parseValue_other hkey]
    exact iff_of_false (fun h => by cases h) fun h => hkey (.tail _ (.tail _ (.tail _ h.1)))

/-- What `parsePair` reads is a pair. -/
lemma parsePair_inv (h : Thi.parsePair ts = .ok (pair, ts')) :
    ∃ key us, strip ts = us ++ strip ts' ∧ IsPair key us ∧ ((∃ as, pair = .args as) ↔ key = "args") := by
  obtain ⟨⟨_, ts1⟩, h1, h⟩ := bind_ok h
  obtain ⟨⟨key, ts2⟩, h2, h⟩ := bind_ok h
  obtain ⟨⟨pair1, ts3⟩, h3, h⟩ := bind_ok h
  obtain ⟨⟨_, ts4⟩, h4, h⟩ := bind_ok h
  cases h
  obtain ⟨l, hs1, hl, _⟩ := next_inv TokenType.noConfusion h1
  obtain ⟨k, hs2, hk, rfl⟩ := next_inv TokenType.noConfusion h2
  obtain ⟨vs, hs3, hv, hargs⟩ := parseValue_inv h3
  obtain ⟨r, hs4, hr, _⟩ := next_inv TokenType.noConfusion h4
  refine ⟨_, _, ?_, .intro hl hk hv hr, hargs⟩
  rw [hs1, hs2, hs3, hs4, List.cons_append, List.cons_append, List.append_assoc]
  rfl

/-- Every pair is read. -/
lemma parsePair_append (hs : strip ts = us ++ rest) (h : IsPair key us) :
    ∃ pair ts', Thi.parsePair ts = .ok (pair, ts') ∧ strip ts' = rest ∧ ((∃ as, pair = .args as) ↔ key = "args") := by
  cases h with
  | @intro l k r vs hl hk hv hr =>
    rw [List.cons_append, List.cons_append, List.append_assoc] at hs
    obtain ⟨ts1, h1, hs1⟩ := next_cons TokenType.noConfusion hs hl
    obtain ⟨ts2, h2, hs2⟩ := next_cons TokenType.noConfusion hs1 hk
    obtain ⟨pair, ts3, h3, hs3⟩ := parseValue_append hs2 hr hv
    obtain ⟨ts4, h4, hs4⟩ := next_cons TokenType.noConfusion hs3 hr
    obtain ⟨_, _, _, hargs⟩ := parseValue_inv h3
    refine ⟨pair, ts4, ?_, hs4, hargs⟩
    show (Thi.next .lpar ts >>= _) = _
    rw [h1]
    show (Thi.next .keyword ts1 >>= _) = _
    rw [h2]
    show (Thi.parseValue (String.ofList k.value) ts2 >>= _) = _
    rw [h3]
    show (Thi.next .rpar ts3 >>= _) = _
    rw [h4]
    rfl

/-- `parsePair` does not return or fail only on a text that is not ended. -/
lemma parsePair_endless : Thi.parsePair ts = .error "endless loop" ↔ OpenText (strip ts) := by
  constructor
  · intro h
    obtain h | ⟨⟨_, ts1⟩, h1, h⟩ := error_of_bind h
    · exact absurd rfl (next_error TokenType.noConfusion h)
    obtain h | ⟨⟨key, ts2⟩, h2, h⟩ := error_of_bind h
    · exact absurd rfl (next_error TokenType.noConfusion h)
    obtain h | ⟨⟨pair, ts3⟩, _, h⟩ := error_of_bind h
    · obtain ⟨l, hs1, hl, _⟩ := next_inv TokenType.noConfusion h1
      obtain ⟨k, hs2, hk, rfl⟩ := next_inv TokenType.noConfusion h2
      obtain ⟨hkey, ht⟩ := parseValue_endless.mp h
      obtain ⟨hfirst, hr⟩ := parseText_endless.mp ht
      rw [hs1, hs2]
      exact .intro hl hk hkey hfirst hr
    obtain h | ⟨_, _, h⟩ := error_of_bind h
    · exact absurd rfl (next_error TokenType.noConfusion h)
    · cases h
  · intro h
    generalize hs : strip ts = us at h
    cases h with
    | @intro l k us hl hk hkey hfirst hr =>
      obtain ⟨ts1, h1, hs1⟩ := next_cons TokenType.noConfusion hs hl
      obtain ⟨ts2, h2, hs2⟩ := next_cons TokenType.noConfusion hs1 hk
      have ht : Thi.parseText ts2 = .error "endless loop" := by
        rw [parseText_endless, hs2]
        exact ⟨hfirst, hr⟩
      show (Thi.next .lpar ts >>= _) = _
      rw [h1]
      show (Thi.next .keyword ts1 >>= _) = _
      rw [h2]
      show (Thi.parseValue (String.ofList k.value) ts2 >>= _) = _
      rw [parseValue_endless.mpr ⟨hkey, ht⟩]
      rfl

end Thorium.Thi.Generator
