import Mathlib.Data.List.Induction
import Reckon.Token.Diagnostic

/-!
# Where names are mentioned

The occurrences of names in a row of tokens, told by their positions: which of
them declare a name, use it, define it as a label or jump to it. The scan lists
each kind of them once and in order (`Mentions.lists_collect`), so that what is
said of lists of mentions can be said of positions (`Lists`).
-/

namespace Reckon

variable {α β : Type} {P Q : Nat → α → Prop} {xs : List α}

/-! ## What is listed by position -/

/-- A list shows what there is at all positions, each of them once and in an
order. -/
def ListsBy (R : Nat × α → Nat × α → Prop) (P : Nat → α → Prop)
    (xs : List α) : Prop :=
  ∃ places : List (Nat × α), places.map Prod.snd = xs ∧ places.Pairwise R ∧
    ∀ i x, (i, x) ∈ places ↔ P i x

/-- A list shows what there is at all positions, in their order. -/
abbrev Lists (P : Nat → α → Prop) (xs : List α) : Prop :=
  ListsBy (fun a b => a.1 < b.1) P xs

theorem ListsBy.congr {R : Nat × α → Nat × α → Prop} (h : ListsBy R P xs)
    (hPQ : ∀ i x, P i x ↔ Q i x) : ListsBy R Q xs := by
  obtain ⟨places, hxs, hsorted, hmem⟩ := h
  exact ⟨places, hxs, hsorted, fun i x => (hmem i x).trans (hPQ i x)⟩

theorem ListsBy.mem_iff {R : Nat × α → Nat × α → Prop} (h : ListsBy R P xs)
    {x : α} : x ∈ xs ↔ ∃ i, P i x := by
  obtain ⟨places, rfl, -, hmem⟩ := h
  rw [List.mem_map]
  constructor
  · rintro ⟨⟨i, x⟩, hplace, rfl⟩
    exact ⟨i, (hmem i x).mp hplace⟩
  · rintro ⟨i, hx⟩
    exact ⟨(i, x), (hmem i x).mpr hx, rfl⟩

namespace Lists

/-- What one position adds in front of all others. -/
theorem cons {k : Nat} (first : Option α) (h : Lists P xs)
    (hfirst : ∀ i y, P i y → k < i) :
    Lists (fun i y => i = k ∧ first = some y ∨ P i y) (first.toList ++ xs) := by
  cases first with
  | none => exact h.congr fun i y => (or_iff_right fun h => nomatch h.2).symm
  | some x =>
      obtain ⟨places, rfl, hsorted, hmem⟩ := h
      refine ⟨(k, x) :: places, rfl, List.pairwise_cons.mpr ⟨?_, hsorted⟩,
        fun i y => ?_⟩
      · rintro ⟨i, y⟩ hplace
        exact hfirst i y ((hmem i y).mp hplace)
      · simp only [List.mem_cons, Prod.mk.injEq, hmem, Option.some.injEq,
          eq_comm]

theorem filter (h : Lists P xs) (q : α → Bool) :
    Lists (fun i x => P i x ∧ q x = true) (xs.filter q) := by
  obtain ⟨places, rfl, hsorted, hmem⟩ := h
  refine ⟨places.filter fun a => q a.2, ?_, hsorted.filter _, fun i x => ?_⟩
  · rw [List.filter_map]
    rfl
  · rw [List.mem_filter, hmem]

theorem map (h : Lists P xs) (f : α → β) :
    Lists (fun i y => ∃ x, P i x ∧ y = f x) (xs.map f) := by
  obtain ⟨places, rfl, hsorted, hmem⟩ := h
  refine ⟨places.map fun a => (a.1, f a.2), ?_, List.pairwise_map.mpr hsorted,
    fun i y => ?_⟩
  · rw [List.map_map, List.map_map]
    rfl
  · rw [List.mem_map]
    constructor
    · rintro ⟨⟨j, x⟩, hplace, heq⟩
      obtain ⟨rfl, rfl⟩ := Prod.mk.inj heq
      exact ⟨x, (hmem j x).mp hplace, rfl⟩
    · rintro ⟨x, hx, rfl⟩
      exact ⟨(i, x), (hmem i x).mpr hx, rfl⟩

/-- What some positions in a row add. -/
theorem flatMap_range' (f : Nat → Option α) (count : Nat) : ∀ start,
    Lists (fun i x => (start ≤ i ∧ i < start + count) ∧ f i = some x)
      ((List.range' start count).flatMap fun i => (f i).toList) := by
  induction count with
  | zero =>
      exact fun start => ⟨[], rfl, List.Pairwise.nil, fun i x =>
        iff_of_false List.not_mem_nil (by omega)⟩
  | succ count ih =>
      intro start
      rw [List.range'_succ, List.flatMap_cons]
      refine ((ih (start + 1)).cons (f start) fun i x h => h.1.1).congr
        fun i x => ?_
      constructor
      · rintro (⟨rfl, hx⟩ | ⟨hi, hx⟩)
        · exact ⟨by omega, hx⟩
        · exact ⟨by omega, hx⟩
      · rintro ⟨⟨hle, hlt⟩, hx⟩
        rcases Nat.eq_or_lt_of_le hle with rfl | hlt'
        · exact .inl ⟨rfl, hx⟩
        · exact .inr ⟨by omega, hx⟩

end Lists

/-! ## Stretches of a text -/

/-- Behind a keyword, and behind no later one of the other kind. -/
def Standing (opener closer : String) (before : List Token) : Prop :=
  ∃ a t b, before = a ++ t :: b ∧ t.isKeyword opener = true ∧
    ∀ s ∈ b, s.isKeyword closer = false

theorem standing_concat {opener closer : String} {before : List Token}
    {t : Token} : Standing opener closer (before ++ [t]) ↔
      t.isKeyword opener = true ∨
        Standing opener closer before ∧ t.isKeyword closer = false := by
  constructor
  · rintro ⟨a, s, b, heq, hopens, hopen⟩
    rcases List.eq_nil_or_concat b with rfl | ⟨b, u, rfl⟩
    · obtain ⟨-, heq⟩ := List.append_inj' heq rfl
      exact .inl ((List.cons.inj heq).1 ▸ hopens)
    · rw [List.concat_eq_append, ← List.cons_append, ← List.append_assoc] at heq
      obtain ⟨rfl, hlast⟩ := List.append_inj' heq rfl
      obtain rfl := (List.cons.inj hlast).1
      rw [List.concat_eq_append] at hopen
      exact .inr
        ⟨⟨a, s, b, rfl, hopens,
          fun x hx => hopen x (List.mem_append_left _ hx)⟩,
        hopen t (List.mem_append_right _ (List.mem_singleton_self _))⟩
  · rintro (hopens | ⟨⟨a, s, b, rfl, hopens, hopen⟩, hclosed⟩)
    · exact ⟨before, t, [], rfl, hopens, fun x hx => absurd hx List.not_mem_nil⟩
    · refine ⟨a, s, b ++ [t], by simp, hopens, fun x hx => ?_⟩
      rcases List.mem_append.mp hx with hx | hx
      · exact hopen x hx
      · rw [List.mem_singleton.mp hx]
        exact hclosed

namespace Mentions

variable {tokens : List Token} {i : Nat} {m : Mention}

/-- Where the scan takes itself to be behind some tokens. -/
def Place.behind (before : List Token) : Place := before.foldl Place.after {}

theorem Place.behind_concat (before : List Token) (t : Token) :
    Place.behind (before ++ [t]) = (Place.behind before).after t :=
  List.foldl_append

theorem Place.declares_behind (before : List Token) :
    (Place.behind before).declares = true ↔ Standing "var" "begin" before := by
  induction before using List.reverseRecOn with
  | nil => exact iff_of_false (by decide) fun ⟨a, t, b, h, _⟩ => by simp at h
  | append_singleton before t ih =>
      rw [standing_concat, ← ih, behind_concat]
      unfold after
      split
      · next hvar => simp [hvar]
      · next hvar =>
          split
          · next hbegin => simp [hvar, hbegin]
          · next hbegin => split <;> simp [hvar, hbegin]

theorem Place.inBody_behind (before : List Token) :
    (Place.behind before).inBody = true ↔ Standing "begin" "end" before := by
  induction before using List.reverseRecOn with
  | nil => exact iff_of_false (by decide) fun ⟨a, t, b, h, _⟩ => by simp at h
  | append_singleton before t ih =>
      rw [standing_concat, ← ih, behind_concat]
      unfold after
      split
      · next hvar =>
          have hapart : ∀ text, text ≠ "var" → t.isKeyword text = false := by
            intro text hne
            rw [Token.isKeyword, beq_iff_eq.mp hvar]
            simpa using hne.symm
          simp [hapart "begin" (by decide), hapart "end" (by decide)]
      · split
        · next hbegin => simp [hbegin]
        · next hbegin => split <;> simp_all

/-! ## Kinds of mentions -/

/-- An identifier from `var` to `begin`. -/
def Declares (tokens : List Token) (i : Nat) (m : Mention) : Prop :=
  (∃ index, tokens[i]? = some (.word (.identifier m.name) m.line index)) ∧
    Standing "var" "begin" (tokens.take i)

/-- An identifier from `begin` to `end` that declares nothing. -/
def Uses (tokens : List Token) (i : Nat) (m : Mention) : Prop :=
  (∃ index, tokens[i]? = some (.word (.identifier m.name) m.line index)) ∧
    ¬Standing "var" "begin" (tokens.take i) ∧
    Standing "begin" "end" (tokens.take i)

/-- A label from `begin` to `end` in front of a colon. -/
def Defines (tokens : List Token) (i : Nat) (m : Mention) : Prop :=
  (∃ index, tokens[i]? = some (.word (.label m.name) m.line index)) ∧
    Standing "begin" "end" (tokens.take i) ∧
    ∃ t, tokens[i + 1]? = some t ∧ t.isKeyword ":" = true

/-- A label from `begin` to `end` behind `goto`. -/
def Targets (tokens : List Token) (i : Nat) (m : Mention) : Prop :=
  (∃ index, tokens[i]? = some (.word (.label m.name) m.line index)) ∧
    Standing "begin" "end" (tokens.take i) ∧
    ∃ t, (tokens.take i).getLast? = some t ∧ t.isKeyword "goto" = true

/-- The name that an identifier mentions. -/
def identified : Token → Option Mention
  | .word (.identifier name) line _ => some ⟨name, line⟩
  | _ => none

/-- The name that a label mentions. -/
def labelled : Token → Option Mention
  | .word (.label name) line _ => some ⟨name, line⟩
  | _ => none

theorem bind_identified_eq_some_iff {token : Option Token} :
    token.bind identified = some m ↔
      ∃ index, token = some (.word (.identifier m.name) m.line index) := by
  constructor
  · intro h
    obtain ⟨t, rfl, ht⟩ := Option.bind_eq_some_iff.mp h
    unfold identified at ht
    split at ht
    · cases ht
      exact ⟨_, rfl⟩
    · cases ht
  · rintro ⟨index, rfl⟩
    rfl

theorem bind_labelled_eq_some_iff {token : Option Token} :
    token.bind labelled = some m ↔
      ∃ index, token = some (.word (.label m.name) m.line index) := by
  constructor
  · intro h
    obtain ⟨t, rfl, ht⟩ := Option.bind_eq_some_iff.mp h
    unfold labelled at ht
    split at ht
    · cases ht
      exact ⟨_, rfl⟩
    · cases ht
  · rintro ⟨index, rfl⟩
    rfl

theorem ofToken_eq (place : Place) (before : Option Token) (t : Token)
    (after : Option Token) : ofToken place before t after =
      { declared := (if place.declares then identified t else none).toList
        used :=
  (if !place.declares && place.inBody then identified t else none).toList
        defined :=
  (if place.inBody && after.any (·.isKeyword ":") then labelled t
          else none).toList
        targeted :=
  (if place.inBody && before.any (·.isKeyword "goto") then labelled t
          else none).toList } := by
  obtain ⟨declares, inBody⟩ := place
  rcases t with ⟨lexeme, line, index⟩ | ⟨parts, line⟩
  · cases lexeme with
    | identifier name =>
        cases declares <;> cases inBody <;> simp [ofToken, identified, labelled]
    | label name =>
        cases hafter : after.any (·.isKeyword ":") <;>
          cases hbefore : before.any (·.isKeyword "goto") <;>
            cases inBody <;>
              simp [ofToken, identified, labelled, hafter, hbefore]
    | _ => simp [ofToken, identified, labelled]
  · simp [ofToken, identified, labelled]

/-! ## The scan -/

/-- What the token at a position mentions, given its neighbours. -/
def around (tokens : List Token) (i : Nat) : Mentions :=
  match tokens[i]? with
  | none => {}
  | some t =>
      ofToken (Place.behind (tokens.take i)) (tokens.take i).getLast? t
        tokens[i + 1]?

/-- The scan adds up what the positions mention. -/
theorem collect_eq {field : Mentions → List Mention} (hnil : field {} = [])
    (happend : ∀ a b, field (append a b) = field a ++ field b)
    (rest : List Token) :
    ∀ before, field (collect (Place.behind before) before.getLast? rest) =
      (List.range' before.length rest.length).flatMap fun i =>
        field (around (before ++ rest) i) := by
  induction rest with
  | nil => exact fun before => hnil
  | cons t rest ih =>
      intro before
      have hfirst : around (before ++ t :: rest) before.length =
          ofToken (Place.behind before) before.getLast? t rest.head? := by
        simp [around, List.head?_eq_getElem?, List.getElem?_append_right]
      have hrest := ih (before ++ [t])
      rw [Place.behind_concat, List.getLast?_concat, List.length_append,
        List.length_singleton, List.append_assoc,
        List.singleton_append] at hrest
      rw [collect, happend, hrest, List.length_cons, List.range'_succ,
        List.flatMap_cons, hfirst]

/-- A kind of mentions is listed by position: a token makes one of them, if it
mentions something and stands where it has to. -/
theorem lists_field {field : Mentions → List Mention}
    {mentioned : Token → Option Mention} (stands : Place → Option Token →
      Option Token → Bool) (hnil : field {} = [])
    (happend : ∀ a b, field (append a b) = field a ++ field b)
    (hfield : ∀ place before t after, field (ofToken place before t after) =
      (if stands place before after then mentioned t else none).toList)
    (tokens : List Token) :
    Lists (fun i m => tokens[i]?.bind mentioned = some m ∧
        stands (Place.behind (tokens.take i)) (tokens.take i).getLast?
          tokens[i + 1]? = true)
      (field (collect {} none tokens)) := by
  have haround : ∀ i, field (around tokens i) =
      (if stands (Place.behind (tokens.take i)) (tokens.take i).getLast?
        tokens[i + 1]? then
        tokens[i]?.bind mentioned else none).toList := by
    intro i
    unfold around
    cases tokens[i]? with
    | none => simp [hnil]
    | some t => exact hfield ..
  have hcollect := collect_eq hnil happend tokens []
  rw [List.nil_append] at hcollect
  change field (collect {} none tokens) = _ at hcollect
  rw [hcollect, funext haround]
  refine (Lists.flatMap_range' _ _ _).congr fun i m => ?_
  rw [Option.ite_none_right_eq_some]
  constructor
  · exact fun ⟨_, hstands, hm⟩ => ⟨hm, hstands⟩
  · rintro ⟨hm, hstands⟩
    obtain ⟨t, htoken, -⟩ := Option.bind_eq_some_iff.mp hm
    obtain ⟨hlt, -⟩ := List.getElem?_eq_some_iff.mp htoken
    exact ⟨⟨Nat.zero_le i, by simpa using hlt⟩, hstands, hm⟩

theorem any_isKeyword_eq_true_iff {neighbour : Option Token} {text : String} :
    neighbour.any (·.isKeyword text) = true ↔
      ∃ t, neighbour = some t ∧ t.isKeyword text = true := by
  cases neighbour <;> simp

theorem lists_declared (tokens : List Token) :
    Lists (Declares tokens) (collect {} none tokens).declared := by
  refine (lists_field (fun place _ _ => place.declares) rfl (fun _ _ => rfl)
    (fun _ _ _ _ => congrArg declared (ofToken_eq ..)) tokens).congr
      fun i m => ?_
  rw [bind_identified_eq_some_iff, Place.declares_behind, Declares]

theorem lists_used (tokens : List Token) :
    Lists (Uses tokens) (collect {} none tokens).used := by
  refine (lists_field (fun place _ _ => !place.declares && place.inBody) rfl
    (fun _ _ => rfl) (fun _ _ _ _ => congrArg used (ofToken_eq ..))
    tokens).congr fun i m => ?_
  rw [bind_identified_eq_some_iff, Bool.and_eq_true, Bool.not_eq_true',
    ← Bool.not_eq_true, Place.declares_behind, Place.inBody_behind, Uses]

theorem lists_defined (tokens : List Token) :
    Lists (Defines tokens) (collect {} none tokens).defined := by
  refine (lists_field (fun place _ after => place.inBody &&
    after.any (·.isKeyword ":")) rfl (fun _ _ => rfl)
    (fun _ _ _ _ => congrArg defined (ofToken_eq ..)) tokens).congr
      fun i m => ?_
  rw [bind_labelled_eq_some_iff, Bool.and_eq_true, Place.inBody_behind,
    any_isKeyword_eq_true_iff, Defines]

theorem lists_targeted (tokens : List Token) :
    Lists (Targets tokens) (collect {} none tokens).targeted := by
  refine (lists_field (fun place before _ => place.inBody &&
    before.any (·.isKeyword "goto")) rfl (fun _ _ => rfl)
    (fun _ _ _ _ => congrArg targeted (ofToken_eq ..)) tokens).congr
      fun i m => ?_
  rw [bind_labelled_eq_some_iff, Bool.and_eq_true, Place.inBody_behind,
    any_isKeyword_eq_true_iff, Targets]

end Mentions

end Reckon
