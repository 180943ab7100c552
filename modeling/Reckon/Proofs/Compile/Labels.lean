import Reckon.Proofs.Compile.Rendering
import Reckon.Token.Diagnostic

/-!
# The labels of a program

A label is defined in front of a line and targeted behind `goto`, and a
tree says which labels these are. The advice about names does not look at
trees: it goes through the tokens, knows whether it is between `begin` and
`end`, and looks at the neighbours of a label. For the words of a program
both find the same labels.

The words go through the scan from the left with anything behind them. What is
found in a statement does not depend on what follows, except that no colon may
follow a label that ends it; and it does not depend on what was in front of it,
except that this is no `goto` where a label comes first.
-/

namespace Reckon

variable {t : Tier} {x : Extent} {tokens : List Token} {place : Mentions.Place}
  {words u v : List Lexeme} {before : Option Lexeme} {inBody : Bool}
  {l : String}

/-! ## Labels of trees -/

namespace Stmt

/-- The labels in front of lines. -/
def labels {x : Extent} : Stmt x → List String
  | assign _ _ | transfer _ _ | branch _ _ => []
  | loop _ _ _ body => body.labels
  | plain s | one s => s.labels
  | labelled label s => label :: s.labels
  | more before s => before.labels ++ s.labels

/-- The labels that are jumped to. -/
def targets {x : Extent} : Stmt x → List String
  | assign _ _ | transfer _ _ => []
  | branch _ target => [target]
  | loop _ _ _ body => body.targets
  | plain s | one s | labelled _ s => s.targets
  | more before s => before.targets ++ s.targets

theorem target_mem_lexemes (s : Stmt x) (h : l ∈ s.targets) :
    .label l ∈ s.lexemes := by
  induction s with
  | assign | transfer => cases h
  | branch c target =>
      obtain rfl := List.mem_singleton.mp h
      simp [lexemes]
  | loop parameter first last body ih => simp [lexemes, ih h]
  | plain s ih => exact ih h
  | one s ih | labelled label s ih => simp [lexemes, ih h]
  | more b s ihb ih =>
      rcases List.mem_append.mp h with h | h
      · simp [lexemes, ihb h]
      · simp [lexemes, ih h]

end Stmt

/-! ## Labels of words -/

namespace Lexeme

/-- The name of a label. -/
def label? : Lexeme → Option String
  | label l => some l
  | _ => none

/-- Whether a word stands in front of a statement, given this for
the word before it. -/
def opens (inBody : Bool) (x : Lexeme) : Bool :=
  if x = .keyword "begin" then true
  else if x = .keyword "end" then false
  else inBody

/-- A word that is no label and does not surround the statements. -/
structure IsQuiet (x : Lexeme) : Prop where
  label : x.label? = none
  opens : ∀ inBody, x.opens inBody = inBody

end Lexeme

/-- The labels in front of a colon. -/
def definedLabels : (inBody : Bool) → List Lexeme → List String
  | _, [] => []
  | inBody, x :: rest =>
    (if inBody = true ∧ rest.head? = some (.keyword ":") then x.label?.toList
      else []) ++ definedLabels (x.opens inBody) rest

/-- The labels behind `goto`. -/
def targetedLabels : (inBody : Bool) → (before : Option Lexeme) → List Lexeme →
    List String
  | _, _, [] => []
  | inBody, before, x :: rest =>
    (if inBody = true ∧ before = some (.keyword "goto") then x.label?.toList
      else []) ++ targetedLabels (x.opens inBody) (some x) rest

/-- Words that no label is among and that do not surround the statements. -/
def Quiet (words : List Lexeme) : Prop := ∀ x ∈ words, x.IsQuiet

theorem definedLabels_quiet (hu : Quiet u) :
    definedLabels inBody (u ++ v) = definedLabels inBody v := by
  induction u with
  | nil => rfl
  | cons x u ih =>
      obtain ⟨hx, hu⟩ := List.forall_mem_cons.mp hu
      rw [List.cons_append, definedLabels, hx.label, hx.opens, ih hu]
      simp

/-- What is in front of words matters only if a label comes first. -/
theorem targetedLabels_of_head (hv : v.head?.bind Lexeme.label? = none) :
    targetedLabels inBody before v = targetedLabels inBody none v := by
  cases v with
  | nil => rfl
  | cons x v =>
      have hx : x.label? = none := hv
      simp [targetedLabels, hx]

theorem targetedLabels_quiet (hu : Quiet u)
    (hv : v.head?.bind Lexeme.label? = none) :
    targetedLabels inBody before (u ++ v) = targetedLabels inBody none v := by
  induction u generalizing before with
  | nil => exact targetedLabels_of_head hv
  | cons x u ih =>
      obtain ⟨hx, hu⟩ := List.forall_mem_cons.mp hu
      rw [List.cons_append, targetedLabels, hx.label, hx.opens, ih hu]
      simp

/-! ## Quiet words -/

theorem Lexeme.isQuiet_of_ne {x : Lexeme} (hlabel : ∀ l, x ≠ .label l)
    (hframe : ∀ text ∈ frameWords, x ≠ .keyword text) : x.IsQuiet where
  label := by
    cases x with
    | label l => exact absurd rfl (hlabel l)
    | _ => rfl
  opens inBody := by
    unfold opens
    rw [if_neg (hframe "begin" (by decide)), if_neg (hframe "end" (by decide))]

theorem Lexeme.isQuiet_keyword {text : String} (h : text ∉ frameWords) :
    (keyword text).IsQuiet := by
  refine isQuiet_of_ne nofun fun other hother he => ?_
  obtain rfl := Lexeme.keyword.inj he
  exact h hother

theorem Formula.label_not_mem (e : Formula t) : .label l ∉ e.lexemes := by
  induction e with
  | name | constant => simp [lexemes]
  | compare a o b iha ihb | join a o b iha ihb => simp [lexemes, iha, ihb]
  | group e ih | bracket e ih | not e ih | negated e ih => simp [lexemes, ih]
  | only a ih => exact ih

namespace Quiet

theorem of_not_mem (hlabel : ∀ l, .label l ∉ words)
    (hframe : ∀ text ∈ frameWords, .keyword text ∉ words) : Quiet words := by
  refine fun x hx => Lexeme.isQuiet_of_ne ?_ ?_
  · rintro l rfl
    exact hlabel l hx
  · rintro text htext rfl
    exact hframe text htext hx

theorem nil : Quiet [] := nofun

theorem keyword {text : String} (h : text ∉ frameWords) (hu : Quiet u) :
    Quiet (.keyword text :: u) :=
  List.forall_mem_cons.mpr ⟨Lexeme.isQuiet_keyword h, hu⟩

theorem identifier (y : String) (hu : Quiet u) : Quiet (.identifier y :: u) :=
  List.forall_mem_cons.mpr ⟨Lexeme.isQuiet_of_ne nofun nofun, hu⟩

theorem append (hu : Quiet u) (hv : Quiet v) : Quiet (u ++ v) :=
  List.forall_mem_append.mpr ⟨hu, hv⟩

theorem formula (e : Formula t) : Quiet e.lexemes :=
  of_not_mem (fun _ => e.label_not_mem) fun _ htext => e.keyword_not_mem htext

theorem names (n : Names) : Quiet n.lexemes :=
  of_not_mem (fun l hl => by simp [Names.lexemes] at hl) fun _ htext =>
    n.keyword_not_mem htext

theorem definitions (d : Definitions) : Quiet d.lexemes := by
  induction d with
  | one n =>
      exact (names n).append (keyword (by decide) (keyword (by decide) nil))
  | more before n ih =>
      exact ih.append (keyword (by decide)
        ((names n).append (keyword (by decide) (keyword (by decide) nil))))

theorem assign (y : String) (e : Expression) :
    Quiet (Stmt.assign y e).lexemes :=
  identifier y (keyword (by decide) (formula e))

theorem transfer (kind : Transfer) (n : Names) :
    Quiet (Stmt.transfer kind n).lexemes :=
  keyword (by cases kind <;> decide)
    (keyword (by decide) ((names n).append (keyword (by decide) nil)))

end Quiet

/-! ## Labels of the words of a tree -/

theorem definedLabels_keyword (text : String) (h : text ∉ frameWords)
    (v : List Lexeme) :
    definedLabels true (.keyword text :: v) = definedLabels true v :=
  definedLabels_quiet (Quiet.keyword h .nil)

theorem definedLabels_label (l : String) (v : List Lexeme) :
    definedLabels true (.label l :: v) =
      (if v.head? = some (.keyword ":") then [l]
        else []) ++ definedLabels true v := by
  simp [definedLabels, Lexeme.opens, Lexeme.label?]

theorem targetedLabels_keyword (text : String) (h : text ∉ frameWords)
    (v : List Lexeme) : targetedLabels true before (.keyword text :: v) =
      targetedLabels true (some (.keyword text)) v := by
  have hx := Lexeme.isQuiet_keyword h
  rw [targetedLabels, hx.label, hx.opens]
  simp

theorem targetedLabels_label (l : String) (v : List Lexeme) :
    targetedLabels true before (.label l :: v) =
      (if before = some (.keyword "goto") then [l] else []) ++
        targetedLabels true (some (.label l)) v := by
  simp [targetedLabels, Lexeme.opens, Lexeme.label?]

namespace Stmt

/-- In front of the jump of an `if` there are no labels. -/
theorem exists_front_branch (c : Condition) (target : String) :
    ∃ front, Quiet front ∧ (branch c target).lexemes =
      front ++ [.keyword "goto", .label target] :=
  ⟨.keyword "if" :: (c.lexemes ++ [.keyword "then"]),
    .keyword (by decide) ((Quiet.formula c).append (.keyword (by decide) .nil)),
    by simp [lexemes]⟩

/-- In front of the body of a loop there are no labels. -/
theorem exists_front_loop (parameter : String) (first last : Expression)
    (body : Stmt .block) : ∃ front, Quiet front ∧
      (loop parameter first last body).lexemes =
        front ++ (body.lexemes ++ [.keyword lineBreak, .keyword "next"]) :=
  ⟨.keyword "do" :: .identifier parameter :: .keyword "=" ::
      (first.lexemes ++ .keyword "to" :: last.lexemes),
    .keyword (by decide) (.identifier _ (.keyword (by decide)
      ((Quiet.formula first).append (.keyword (by decide) (.formula last))))),
    by simp [lexemes]⟩

theorem head?_lexemes (b : Stmt .block) :
    (b.lexemes ++ v).head? = some (.keyword lineBreak) := by
  obtain ⟨rest, hb⟩ := b.exists_lexemes_block
  rw [hb]
  rfl

theorem quiet_next : Quiet [.keyword lineBreak, .keyword "next"] :=
  .keyword (by decide) (.keyword (by decide) .nil)

theorem definedLabels_eq (s : Stmt x) : ∀ {v : List Lexeme},
    v.head? ≠ some (.keyword ":") →
      definedLabels true (s.lexemes ++ v) = s.labels ++
        definedLabels true v := by
  induction s with
  | assign y e => exact fun _ => definedLabels_quiet (.assign y e)
  | transfer kind names =>
      exact fun _ => definedLabels_quiet (.transfer kind names)
  | branch c target =>
      intro v hv
      obtain ⟨front, hfront, hwords⟩ := exists_front_branch c target
      rw [hwords, List.append_assoc, definedLabels_quiet hfront]
      refine (definedLabels_keyword "goto" (by decide)
        (.label target :: v)).trans ?_
      rw [definedLabels_label, if_neg hv]
      rfl
  | loop parameter first last body ih =>
      intro v hv
      obtain ⟨front, hfront, hwords⟩ :=
        exists_front_loop parameter first last body
      rw [hwords, List.append_assoc, definedLabels_quiet hfront,
        List.append_assoc, ih (by simp [lineBreak]),
        definedLabels_quiet quiet_next, labels]
  | plain s ih => exact ih
  | labelled label s ih =>
      intro v hv
      have hcolon := definedLabels_keyword ":" (by decide) (s.lexemes ++ v)
      refine (definedLabels_label label
        (.keyword ":" :: (s.lexemes ++ v))).trans ?_
      rw [List.head?_cons, if_pos rfl, hcolon, ih hv]
      rfl
  | one s ih =>
      intro v hv
      exact (definedLabels_keyword lineBreak (by decide) _).trans (ih hv)
  | more b s ihb ih =>
      intro v hv
      rw [lexemes, List.append_assoc, ihb (by simp [lineBreak]), labels,
        List.append_assoc]
      exact congrArg _
        ((definedLabels_keyword lineBreak (by decide) _).trans (ih hv))

theorem targetedLabels_eq (s : Stmt x) :
    ∀ {before : Option Lexeme} {v : List Lexeme},
    before ≠ some (.keyword "goto") → v.head?.bind Lexeme.label? = none →
      targetedLabels true before (s.lexemes ++ v) =
        s.targets ++ targetedLabels true none v := by
  induction s with
  | assign y e => exact fun _ hv => targetedLabels_quiet (.assign y e) hv
  | transfer kind names =>
      exact fun _ hv => targetedLabels_quiet (.transfer kind names) hv
  | branch c target =>
      intro before v _ hv
      obtain ⟨front, hfront, hwords⟩ := exists_front_branch c target
      rw [hwords, List.append_assoc, targetedLabels_quiet hfront rfl]
      refine (targetedLabels_keyword "goto" (by decide)
        (.label target :: v)).trans ?_
      rw [targetedLabels_label, if_pos rfl, targetedLabels_of_head hv]
      rfl
  | loop parameter first last body ih =>
      intro before v _ hv
      obtain ⟨front, hfront, hwords⟩ :=
        exists_front_loop parameter first last body
      have hnone : (none : Option Lexeme) ≠ some (.keyword "goto") := nofun
      rw [hwords, List.append_assoc, List.append_assoc,
        targetedLabels_quiet hfront (by rw [body.head?_lexemes]; rfl),
        ih hnone rfl, targetedLabels_quiet quiet_next hv, targets]
  | plain s ih => exact ih
  | labelled label s ih =>
      intro before v hbefore hv
      refine (targetedLabels_label label
        (.keyword ":" :: (s.lexemes ++ v))).trans ?_
      rw [if_neg hbefore, targetedLabels_keyword ":" (by decide),
        ih (by simp) hv]
      rfl
  | one s ih =>
      intro before v _ hv
      exact (targetedLabels_keyword lineBreak (by decide) _).trans
        (ih (by simp [lineBreak]) hv)
  | more b s ihb ih =>
      intro before v hbefore hv
      rw [lexemes, List.append_assoc, ihb hbefore rfl, targets,
        List.append_assoc]
      exact congrArg _ ((targetedLabels_keyword lineBreak (by decide) _).trans
        (ih (by simp [lineBreak]) hv))

end Stmt

/-- In front of the statements of a program there are no labels. -/
theorem Source.exists_front (source : Source) : ∃ front, Quiet front ∧
    source.lexemes = front ++ .keyword "begin" ::
      (source.body.lexemes ++ [.keyword lineBreak, .keyword "end"]) :=
  ⟨.keyword "program" :: .identifier source.name :: .keyword lineBreak ::
      .keyword "var" :: (source.definitions.lexemes ++ [.keyword lineBreak]),
    .keyword (by decide)
      (.identifier _ (.keyword (by decide) (.keyword (by decide)
        ((Quiet.definitions source.definitions).append
          (.keyword (by decide) .nil))))),
    by simp [Source.lexemes]⟩

theorem Source.definedLabels_eq (source : Source) :
    definedLabels false source.lexemes = source.body.labels := by
  obtain ⟨front, hfront, hwords⟩ := source.exists_front
  have hbegin : ∀ words, definedLabels false (.keyword "begin" :: words) =
      definedLabels true words := by
    simp [definedLabels, Lexeme.opens]
  have hend : definedLabels true [.keyword lineBreak, .keyword "end"] = [] := by
    simp [definedLabels]
  rw [hwords, definedLabels_quiet hfront, hbegin,
    source.body.definedLabels_eq (by simp [lineBreak]), hend, List.append_nil]

theorem Source.targetedLabels_eq (source : Source) :
    targetedLabels false none source.lexemes = source.body.targets := by
  obtain ⟨front, hfront, hwords⟩ := source.exists_front
  have hbegin : ∀ words, targetedLabels false none (.keyword "begin" :: words) =
      targetedLabels true (some (.keyword "begin")) words := by
    simp [targetedLabels, Lexeme.opens]
  have hend :
      targetedLabels true none [.keyword lineBreak, .keyword "end"] = [] := by
    simp [targetedLabels, Lexeme.label?]
  rw [hwords, targetedLabels_quiet hfront rfl, hbegin,
    source.body.targetedLabels_eq (by simp) rfl, hend, List.append_nil]

/-! ## Labels of tokens -/

theorem Spells.firstLexeme_eq (h : Spells tokens words) :
    firstLexeme tokens = words.head? := by
  cases words with
  | nil => rw [List.map_eq_nil_iff.mp h]; rfl
  | cons y words =>
      obtain ⟨token, rest, rfl, hy, -⟩ := List.map_eq_cons_iff.mp h
      exact hy

namespace Mentions

variable {token : Token}

theorem Place.inBody_after {y : Lexeme} (h : token.lexeme? = some y) :
    (place.after token).inBody = y.opens place.inBody := by
  have hkeyword : ∀ text, token.isKeyword text = true ↔ y = .keyword text := by
    intro text
    rw [Token.isKeyword_iff, h, Option.some.injEq]
  unfold Place.after Lexeme.opens
  simp only [hkeyword]
  by_cases hvar : y = .keyword "var"
  · subst hvar
    simp
  · rw [if_neg hvar]
    split
    · rfl
    · split <;> rfl

theorem any_isKeyword (neighbour : Option Token) (text : String) :
    neighbour.any (·.isKeyword text) = true ↔
      neighbour.bind Token.lexeme? = some (.keyword text) := by
  cases neighbour with
  | none => simp
  | some token => exact Token.isKeyword_iff

/-- A token mentions the label that it is, in a place for labels. -/
theorem ofToken_labels {y : Lexeme} (h : token.lexeme? = some y) (place : Place)
    (beforeToken after : Option Token) :
    (ofToken place beforeToken token after).defined.map Mention.name =
        (if place.inBody = true ∧
          after.bind Token.lexeme? = some (.keyword ":") then
          y.label?.toList else []) ∧
      (ofToken place beforeToken token after).targeted.map Mention.name =
        (if place.inBody = true ∧
            beforeToken.bind Token.lexeme? = some (.keyword "goto") then
          y.label?.toList else []) := by
  obtain ⟨line, index, rfl⟩ := exists_word h
  simp only [← any_isKeyword]
  unfold ofToken
  cases y with
  | label l =>
      cases place.inBody with
      | false => simp
      | true =>
          cases after.any (·.isKeyword ":") <;>
            cases beforeToken.any (·.isKeyword "goto") <;> simp [Lexeme.label?]
  | identifier y =>
      cases place.declares <;> cases place.inBody <;> simp [Lexeme.label?]
  | _ => simp [Lexeme.label?]

/-- The scan finds the labels of the words. -/
theorem collect_labels : ∀ {words : List Lexeme}, Spells tokens words →
    ∀ (place : Place) (beforeToken : Option Token),
      (collect place beforeToken tokens).defined.map Mention.name =
          definedLabels place.inBody words ∧
        (collect place beforeToken tokens).targeted.map Mention.name =
          targetedLabels place.inBody (beforeToken.bind Token.lexeme?)
            words := by
  induction tokens with
  | nil =>
      intro words h place beforeToken
      obtain rfl := List.map_eq_nil_iff.mp h.symm
      exact ⟨rfl, rfl⟩
  | cons token rest ih =>
      intro words h place beforeToken
      obtain ⟨y, words, rfl, hy, hrest⟩ := List.map_eq_cons_iff.mp h.symm
      obtain ⟨hdefined, htargeted⟩ :=
        ofToken_labels hy.symm place beforeToken rest.head?
      obtain ⟨hdefinedRest, htargetedRest⟩ :=
        ih hrest.symm (place.after token) (some token)
      have hafter : rest.head?.bind Token.lexeme? = words.head? :=
        Spells.firstLexeme_eq hrest.symm
      rw [Place.inBody_after hy.symm] at hdefinedRest htargetedRest
      rw [hafter] at hdefined
      constructor
      · rw [definedLabels, ← hdefined, ← hdefinedRest]
        exact List.map_append
      · have hbefore : (some token).bind Token.lexeme? = some y := hy.symm
        rw [targetedLabels, ← htargeted, ← hbefore, ← htargetedRest]
        exact List.map_append

theorem name_mem_firsts {m : List Mention} : ∀ {seen : List String},
    l ∈ (firsts seen m).map Mention.name ↔ l ∈ m.map Mention.name ∧
    l ∉ seen := by
  induction m with
  | nil => simp [firsts]
  | cons first rest ih =>
      intro seen
      rw [firsts, List.map_cons, List.mem_cons]
      split
      · next hseen =>
          have hmem := List.contains_iff_mem.mp hseen
          rw [ih]
          refine ⟨fun h => ⟨.inr h.1, h.2⟩, ?_⟩
          rintro ⟨rfl | hrest, hnot⟩
          · exact absurd hmem hnot
          · exact ⟨hrest, hnot⟩
      · next hseen =>
          have hmem := mt List.contains_iff_mem.mpr hseen
          rw [List.map_cons, List.mem_cons, ih, List.mem_cons]
          constructor
          · rintro (rfl | ⟨hrest, hnot⟩)
            · exact ⟨.inl rfl, hmem⟩
            · exact ⟨.inr hrest, fun h => hnot (.inr h)⟩
          · rintro ⟨rfl | hrest, hnot⟩
            · exact .inl rfl
            · by_cases hl : l = first.name
              · exact .inl hl
              · exact .inr ⟨hrest, fun h => h.elim hl hnot⟩

theorem names_iff {m : List Mention} :
    names m l = true ↔ l ∈ m.map Mention.name := by
  simp only [names, List.any_eq_true, beq_iff_eq, List.mem_map]

end Mentions

/-! ## Advice about jumps -/

namespace Diagnostic

theorem aboutDefinitions_finding {targeted earlier m : List Mention}
    {d : Diagnostic} (h : d ∈ aboutDefinitions targeted earlier m) :
    d.finding ≠ .undefinedLabel l := by
  induction m generalizing earlier with
  | nil => cases h
  | cons first rest ih =>
      unfold aboutDefinitions at h
      dsimp only at h
      split at h
      · rcases List.mem_cons.mp h with rfl | h
        · nofun
        · exact ih h
      · split at h
        · exact ih h
        · rcases List.mem_cons.mp h with rfl | h
          · nofun
          · exact ih h

/-- The other findings are not about jumps. -/
theorem mem_ofTokens_iff {line : Nat} :
    ⟨.undefinedLabel l, line⟩ ∈ ofTokens tokens ↔
      ⟨.undefinedLabel l, line⟩ ∈ undefined
        (Mentions.collect {} none tokens) := by
  unfold ofTokens
  dsimp only
  rw [mem_sortBy, List.mem_append]
  refine or_iff_right fun h => ?_
  rcases List.mem_append.mp h with h | h
  · simp [unused, undeclared] at h
  · exact aboutDefinitions_finding h rfl

/-- A jump to nowhere is reported for the labels that are targeted and not
defined. -/
theorem undefinedLabel_iff :
    (∃ line, ⟨.undefinedLabel l, line⟩ ∈ ofTokens tokens) ↔
    l ∈ (Mentions.collect {} none tokens).targeted.map Mention.name ∧
      l ∉ (Mentions.collect {} none tokens).defined.map Mention.name := by
  simp only [mem_ofTokens_iff]
  generalize Mentions.collect {} none tokens = m
  rw [← Mentions.names_iff (m := m.defined), Bool.not_eq_true]
  constructor
  · rintro ⟨line, h⟩
    obtain ⟨mention, hmem, heq⟩ := List.mem_map.mp h
    obtain ⟨hfirst, hdefined⟩ := List.mem_filter.mp hmem
    obtain rfl : mention.name = l := by
      injection heq with hfinding
      injection hfinding
    have hname := Mentions.name_mem_firsts.mp (List.mem_map_of_mem hfirst)
    exact ⟨hname.1, by simpa using hdefined⟩
  · rintro ⟨htargeted, hdefined⟩
    obtain ⟨mention, hfirst, rfl⟩ := List.mem_map.mp
      (Mentions.name_mem_firsts.mpr ⟨htargeted, List.not_mem_nil⟩)
    exact ⟨mention.line, List.mem_map.mpr
      ⟨mention, List.mem_filter.mpr ⟨hfirst, by simpa using hdefined⟩, rfl⟩⟩

/-- For a program the reported labels are those that its statements jump to and
that are in front of none of them. -/
theorem undefinedLabel_iff_of_spells {source : Source}
    (h : Spells tokens source.lexemes) :
    (∃ line, ⟨.undefinedLabel l, line⟩ ∈ ofTokens tokens) ↔
      l ∈ source.body.targets ∧ l ∉ source.body.labels := by
  obtain ⟨hdefined, htargeted⟩ :=
    Mentions.collect_labels h {} none
  rw [undefinedLabel_iff, hdefined, htargeted, ← source.definedLabels_eq,
    ← source.targetedLabels_eq]
  rfl

end Diagnostic

end Reckon
