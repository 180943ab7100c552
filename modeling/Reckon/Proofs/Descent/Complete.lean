import Reckon.Proofs.Descent.Sound
import Reckon.Proofs.Syntax.Derivable
import Reckon.Proofs.Syntax.Edges

/-!
# What the patterns of the language find

A pattern of the language takes every tree of its kind, all of it, provided that
what follows does not carry the tree on and that the pattern is unfolded as
deep as the tree is long. The first condition is what makes greed harmless: a
repetition that could stop early or go on too far would need a separator behind
the tree. The second one holds of any input at the depth that the recogniser
chooses for it.

Lists are grouped to the left and read from the left, so the induction along a
list has to look ahead: it is stated with a repetition that already takes what
follows.
-/

namespace Reckon.Descent

open Pattern

variable {s m r : List Token}

/-- The pattern takes every formula of a tier that is not too long. -/
def Complete (n : Nat) (t : Tier) (p : Pattern) : Prop :=
  ∀ e : Formula t, e.lexemes.length ≤ n → ∀ s r, Reads s e.lexemes r →
    Ends t r → Takes p s r

/-! ## Lists -/

/-- The first item of a list, with its sign if it has one. -/
def IsHead {l : Level} : Formula (.chain l) → Prop
  | .join _ _ _ => False
  | _ => True

theorem takesAll_chain {l : Level} {n : Nat} {lead : List Pattern}
    {separator item : Pattern}
    (hseparator : ∀ (o : l.Operator) (t : Token) (r : List Token),
      t.lexeme? = some (.keyword o.val.text) → Takes separator (t :: r) r)
    (hlead : ∀ e : Formula (.chain l), IsHead e → e.lexemes.length ≤ n →
      ∀ s m, Reads s e.lexemes m → Ends l.below m → TakesAll lead s m)
    (hitem : Complete n l.below item) :
    ∀ e : Formula (.chain l), e.lexemes.length ≤ n → ∀ s m r,
      Reads s e.lexemes m → Ends l.below m →
      Takes (.repetition (.sequence [separator, item])) m r →
      TakesAll (lead ++ [.repetition (.sequence [separator, item])]) s r
  | .only a, hlength, s, m, r, hreads, hends, hrest =>
      takesAll_append (hlead (.only a) trivial hlength s m hreads hends)
        (takesAll_cons hrest takesAll_nil)
  | .negated a, hlength, s, m, r, hreads, hends, hrest =>
      takesAll_append (hlead (.negated a) trivial hlength s m hreads hends)
        (takesAll_cons hrest takesAll_nil)
  | .join a o b, hlength, s, m, r, hreads, hends, hrest => by
      have hsum : (Formula.join a o b).lexemes.length =
          a.lexemes.length + (b.lexemes.length + 1) := by
        rw [Formula.lexemes, List.length_append, List.length_cons]
      obtain ⟨q, ha, hq⟩ := reads_append_iff.mp hreads
      have hstop := ends_of_operator o hq.first
      obtain ⟨t, v, rfl, ht, hb⟩ := reads_cons_iff.mp hq
      refine takesAll_chain hseparator hlead hitem a (by omega) s (t :: v) r ha
        hstop ?_
      -- One more round takes the operator and the item, and then the rest.
      have hround : Takes (.sequence [separator, item]) (t :: v) m :=
        takes_sequence (takesAll_cons (hseparator o t v ht)
          (takesAll_cons (hitem b (by omega) v m hb hends) takesAll_nil))
      refine takes_repetition_step hround ?_ hrest
      rw [List.length_cons, hb.length_eq]
      omega

theorem complete_separated {l : Level} {n : Nat} {separator item : Pattern}
    (hl : l ≠ .sum)
    (hseparator : ∀ (o : l.Operator) (t : Token) (r : List Token),
      t.lexeme? = some (.keyword o.val.text) → Takes separator (t :: r) r)
    (hstop : ∀ r, (∀ o ∈ l.operators, firstLexeme r ≠ some (.keyword o.text)) →
      Refuses separator r)
    (hitem : Complete n l.below item) :
    Complete n (.chain l) (separated item separator) := by
  intro e hlength s r hreads hends
  refine takes_sequence (@takesAll_chain l n [item] _ _ hseparator ?_ hitem e
    hlength s r r hreads hends.below ?_)
  · intro e hhead hlength s m hreads hends
    cases e with
    | only a =>
        exact takesAll_cons (hitem a hlength s m hreads hends) takesAll_nil
    | negated a => exact absurd rfl hl
    | join a o b => exact hhead.elim
  · exact takes_repetition_stop (refuses_sequence (refusesAll_head
      (hstop r hends.first_ne)))

/-! ## Arithmetic and conditions -/

theorem takes_between {opening closing : String} {inner : Pattern} {t : Token}
    {q v : List Token} (ht : t.lexeme? = some (.keyword opening))
    (hinner : Takes inner q v) (hv : Reads v [.keyword closing] r) :
    Takes (between opening closing inner) (t :: q) r := by
  obtain ⟨u, _, rfl, hu, hnil⟩ := reads_cons_iff.mp hv
  obtain rfl := reads_nil_iff.mp hnil
  exact takes_sequence (takesAll_cons (takes_keyword ht)
    (takesAll_cons hinner (takesAll_cons (takes_keyword hu) takesAll_nil)))

theorem complete_factor {n : Nat} {inner : Pattern}
    (h : Complete n (.chain .sum) inner) :
    Complete (n + 1) .factor (factor inner) := by
  intro e hlength s r hreads hends
  cases e with
  | name x =>
      obtain ⟨t, _, rfl, ht, hnil⟩ := reads_cons_iff.mp hreads
      obtain rfl := reads_nil_iff.mp hnil
      exact takes_choice (takesFirst_head (takes_identifier ht))
  | constant v =>
      have hfirst := hreads.first
      obtain ⟨t, _, rfl, ht, hnil⟩ := reads_cons_iff.mp hreads
      obtain rfl := reads_nil_iff.mp hnil
      refine takes_choice (takesFirst_tail (refuses_identifier ?_)
        (takesFirst_head (takes_constant ht)))
      simp [hfirst]
  | group e =>
      have hfirst := hreads.first
      obtain ⟨t, q, rfl, ht, hq⟩ := reads_cons_iff.mp hreads
      obtain ⟨v, he, hv⟩ := reads_append_iff.mp hq
      rw [Formula.lexemes, List.length_cons, List.length_append] at hlength
      have hinner := h e (by omega) q v he (ends_of_first hv.first (by decide))
      refine takes_choice (takesFirst_tail (refuses_identifier ?_)
        (takesFirst_tail (refuses_constant ?_)
          (takesFirst_head (takes_between ht hinner hv))))
      · simp [hfirst]
      · simp [hfirst]

theorem takes_operator {l : Level} {texts : List String} {name : String}
    (htexts : texts = l.operators.map Binary.text) (o : l.Operator) (t : Token)
    (r : List Token) (ht : t.lexeme? = some (.keyword o.val.text)) :
    Takes (.keywordOf texts name) (t :: r) r := by
  refine takes_keywordOf ?_ ht
  rw [htexts]
  exact List.mem_map_of_mem o.property

theorem refuses_operator {l : Level} {texts : List String} {name : String}
    (htexts : texts = l.operators.map Binary.text) (r : List Token)
    (hr : ∀ o ∈ l.operators, firstLexeme r ≠ some (.keyword o.text)) :
    Refuses (.keywordOf texts name) r := by
  refine refuses_keywordOf fun text htext => ?_
  rw [htexts] at htext
  obtain ⟨o, ho, rfl⟩ := List.mem_map.mp htext
  exact hr o ho

theorem complete_term {n : Nat} {inner : Pattern}
    (h : Complete n (.chain .sum) inner) :
    Complete (n + 1) (.chain .product) (term inner) :=
  complete_separated (by decide) (takes_operator rfl) (refuses_operator rfl)
    (complete_factor h)

theorem complete_expression (depth : Nat) :
    Complete depth (.chain .sum) (expression depth) := by
  induction depth with
  | zero =>
      intro e hlength
      have := e.lexemes_length_pos
      omega
  | succ depth ih =>
      intro e hlength s r hreads hends
      have hterm := complete_term ih
      refine takes_sequence (@takesAll_chain .sum (depth + 1)
        [.option (.keyword "-"), term (expression depth)] _ _
        (takes_operator rfl) ?_ hterm e hlength s r r hreads hends.below ?_)
      · intro e hhead hlength s m hreads hends
        cases e with
        | only a =>
            have hsign : firstLexeme s ≠ some (.keyword "-") :=
              hreads.first_ne (e := a) (by decide)
            exact takesAll_cons (takes_option_nothing (refuses_keyword hsign))
              (takesAll_cons (hterm a hlength s m hreads hends) takesAll_nil)
        | negated a =>
            obtain ⟨t, v, rfl, ht, ha⟩ := reads_cons_iff.mp hreads
            rw [Formula.lexemes, List.length_cons] at hlength
            exact takesAll_cons (takes_option (takes_keyword ht))
              (takesAll_cons (hterm a (by omega) v m ha hends) takesAll_nil)
        | join a o b => exact hhead.elim
      · exact takes_repetition_stop (refuses_sequence (refusesAll_head
          (refuses_operator (l := .sum) rfl r hends.first_ne)))

theorem takes_comparison {n : Nat} {inner : Pattern} {a b : Expression}
    (h : Complete n (.chain .sum) inner) {o : Comparison}
    (hlength : (Formula.compare a o b).lexemes.length ≤ n)
    (hreads : Reads s (Formula.compare a o b).lexemes r)
    (hends : Ends .test r) : Takes (comparison inner) s r := by
  obtain ⟨q, ha, hq⟩ := reads_append_iff.mp hreads
  have hstop := ends_of_comparison o hq.first
  obtain ⟨t, v, rfl, ht, hb⟩ := reads_cons_iff.mp hq
  rw [Formula.lexemes, List.length_append, List.length_cons] at hlength
  have hoperator : o.val.text ∈ Language.relationalOperators := by
    have hall : ∀ o ∈ Binary.comparisons,
        o.text ∈ Language.relationalOperators := by decide
    exact hall o.val o.property
  exact takes_sequence (takesAll_cons (h a (by omega) s (t :: v) ha hstop)
    (takesAll_cons (takes_keywordOf hoperator ht)
      (takesAll_cons (h b (by omega) v r hb hends) takesAll_nil)))

theorem complete_condition {n : Nat} {inner : Pattern}
    (h : Complete n .test inner) :
    Complete n (.chain .condition) (condition inner) := by
  refine complete_separated (by decide) ?_ ?_
    (complete_separated (by decide) ?_ ?_ h)
  · rintro ⟨o, ho⟩ t r ht
    obtain rfl := List.mem_singleton.mp ho
    exact takes_keyword ht
  · exact fun r hr => refuses_keyword (hr .or (by decide))
  · rintro ⟨o, ho⟩ t r ht
    obtain rfl := List.mem_singleton.mp ho
    exact takes_keyword ht
  · exact fun r hr => refuses_keyword (hr .and (by decide))

theorem complete_logicalFactor {n : Nat} {inner : Pattern}
    (h : Complete n (.chain .sum) inner) {depth : Nat} (hdepth : depth ≤ n) :
    Complete depth .test (logicalFactor inner depth) := by
  induction depth with
  | zero =>
      intro e hlength
      have := e.lexemes_length_pos
      omega
  | succ depth ih =>
      intro e hlength s r hreads hends
      have hinner := ih (by omega)
      refine takes_choice ?_
      cases e with
      | compare a o b =>
          obtain ⟨q, ha, -⟩ := reads_append_iff.mp hreads
          have hopen : Refuses (.keyword "[") s :=
            refuses_keyword (ha.first_ne (by decide))
          have hturn : Refuses (.keyword "!") s :=
            refuses_keyword (ha.first_ne (by decide))
          exact takesFirst_tail (refuses_sequence (refusesAll_head hopen))
            (takesFirst_tail (refuses_sequence (refusesAll_head hturn))
              (takesFirst_head
                (takes_comparison h (by omega) hreads hends)))
      | bracket c =>
          obtain ⟨t, q, rfl, ht, hq⟩ := reads_cons_iff.mp hreads
          obtain ⟨v, hc, hv⟩ := reads_append_iff.mp hq
          rw [Formula.lexemes, List.length_cons, List.length_append] at hlength
          have hcondition := complete_condition hinner c (by omega) q v hc
            (ends_of_first hv.first (by decide))
          exact takesFirst_head (takes_between ht hcondition hv)
      | not a =>
          have hfirst := hreads.first
          obtain ⟨t, v, rfl, ht, ha⟩ := reads_cons_iff.mp hreads
          rw [Formula.lexemes, List.length_cons] at hlength
          have hopen : Refuses (.keyword "[") (t :: v) :=
            refuses_keyword (by simp [hfirst])
          exact takesFirst_tail (refuses_sequence (refusesAll_head hopen))
            (takesFirst_head (takes_sequence (takesAll_cons (takes_keyword ht)
              (takesAll_cons (hinner a (by omega) v r ha hends) takesAll_nil))))

/-! ## Statements -/

/-- The pattern takes every statement that is not too long and that a line break
follows. -/
def CompleteStmt (n : Nat) (x : Extent) (p : Pattern) : Prop :=
  ∀ a : Stmt x, a.lexemes.length ≤ n → ∀ s r, Reads s a.lexemes r →
    firstLexeme r = some (.keyword lineBreak) → Takes p s r

/-- The word belongs to no statement and starts none. -/
def Closes (x : Lexeme) : Prop := x = .keyword "next" ∨ x = .keyword "end"

theorem takes_names (names : List String) :
    ∀ s, Reads s (names.flatMap fun x => [.keyword ",", .identifier x]) r →
      firstLexeme r ≠ some (.keyword ",") →
      Takes (.repetition (.sequence [.keyword ",", .identifier])) s r := by
  induction names with
  | nil =>
      intro s hreads hfirst
      obtain rfl := reads_nil_iff.mp hreads
      exact takes_repetition_stop (refuses_sequence (refusesAll_head
        (refuses_keyword hfirst)))
  | cons x names ih =>
      intro s hreads hfirst
      rw [List.flatMap_cons] at hreads
      obtain ⟨t, _, rfl, ht, hq⟩ := reads_cons_iff.mp hreads
      obtain ⟨u, v, rfl, hu, hv⟩ := reads_cons_iff.mp hq
      refine takes_repetition_step (m := v) (takes_sequence (takesAll_cons
        (takes_keyword ht) (takesAll_cons (takes_identifier hu) takesAll_nil)))
        ?_ (ih v hv hfirst)
      simp only [List.length_cons]
      omega

theorem takes_identifiers (n : Names) (hreads : Reads s n.lexemes r)
    (hfirst : firstLexeme r ≠ some (.keyword ",")) : Takes identifiers s r := by
  unfold Names.lexemes Names.toList at hreads
  rw [List.flatMap_cons] at hreads
  obtain ⟨t, _, rfl, ht, hq⟩ := reads_cons_iff.mp hreads
  obtain ⟨u, v, rfl, hu, hv⟩ := reads_cons_iff.mp hq
  exact takes_sequence (takesAll_cons (takes_keyword ht)
    (takesAll_cons (takes_identifier hu)
      (takesAll_cons (takes_names n.others v hv hfirst) takesAll_nil)))

theorem takes_transfer {kind : Transfer} {n : Names}
    (hreads : Reads s (Stmt.transfer kind n).lexemes r) :
    Takes (transfer kind.keyword) s r := by
  obtain ⟨t, _, rfl, ht, hq⟩ := reads_cons_iff.mp hreads
  obtain ⟨u, v, rfl, hu, hv⟩ := reads_cons_iff.mp hq
  obtain ⟨w, hnames, hw⟩ := reads_append_iff.mp hv
  have hinner := takes_identifiers n hnames (by simp [hw.first])
  exact takes_sequence (takesAll_cons (takes_keyword ht)
    (takesAll_cons (takes_between hu hinner hw) takesAll_nil))

theorem completeStmt_statement {n : Nat} {inner : Pattern}
    (h : CompleteStmt n .bare inner) :
    CompleteStmt n .line (statement inner) := by
  intro a hlength s r hreads hbreak
  cases a with
  | plain a =>
      have hlabel : Refuses .label s := by
        refine refuses_label fun x hx => ?_
        cases a with
        | assign | transfer | branch | loop =>
            rw [hreads.first] at hx
            cases hx
      exact takes_choice (takesFirst_tail (refuses_sequence
        (refusesAll_head hlabel)) (takesFirst_head
          (h a hlength s r hreads hbreak)))
  | labelled x a =>
      obtain ⟨t, _, rfl, ht, hq⟩ := reads_cons_iff.mp hreads
      obtain ⟨u, v, rfl, hu, ha⟩ := reads_cons_iff.mp hq
      simp only [Stmt.lexemes, List.length_cons] at hlength
      exact takes_choice (takesFirst_head (takes_sequence
        (takesAll_cons (takes_label ht) (takesAll_cons (takes_keyword hu)
          (takesAll_cons (h a (by omega) v r ha hbreak) takesAll_nil)))))

/-- Lines are read to the end of the last one, if a repetition takes the
rest. -/
theorem takesAll_block {n : Nat} {line : Pattern}
    (h : CompleteStmt n .line line) :
    ∀ b : Stmt .block, b.lexemes.length ≤ n → ∀ s m r, Reads s b.lexemes m →
      firstLexeme m = some (.keyword lineBreak) →
      Takes (.repetition (.sequence [newLine, line])) m r →
      TakesAll [newLine, line, .repetition (.sequence [newLine, line])] s r
  | .one a, hlength, s, m, r, hreads, hbreak, hrest => by
      obtain ⟨t, v, rfl, ht, ha⟩ := reads_cons_iff.mp hreads
      simp only [Stmt.lexemes, List.length_cons] at hlength
      exact takesAll_cons (takes_keyword ht)
        (takesAll_cons (h a (by omega) v m ha hbreak)
          (takesAll_cons hrest takesAll_nil))
  | .more b a, hlength, s, m, r, hreads, hbreak, hrest => by
      simp only [Stmt.lexemes, List.length_append, List.length_cons] at hlength
      obtain ⟨q, hb, hq⟩ := reads_append_iff.mp hreads
      have hnext := hq.first
      obtain ⟨t, v, rfl, ht, ha⟩ := reads_cons_iff.mp hq
      refine takesAll_block h b (by omega) s (t :: v) r hb hnext ?_
      have hround : Takes (.sequence [newLine, line]) (t :: v) m :=
        takes_sequence (takesAll_cons (takes_keyword ht)
          (takesAll_cons (h a (by omega) v m ha hbreak) takesAll_nil))
      refine takes_repetition_step hround ?_ hrest
      rw [List.length_cons, ha.length_eq]
      omega

theorem refuses_assignment {e : Pattern}
    (h : ∀ x, firstLexeme s ≠ some (.identifier x)) :
    Refuses (assignment e) s :=
  refuses_sequence (refusesAll_head (refuses_identifier h))

theorem refuses_transfer {keyword : String}
    (h : firstLexeme s ≠ some (.keyword keyword)) :
    Refuses (transfer keyword) s :=
  refuses_sequence (refusesAll_head (refuses_keyword h))

/-- No statement starts with a closing word. -/
theorem refuses_unlabelled {e c : Pattern} {depth : Nat} {x : Lexeme}
    (hfirst : firstLexeme s = some x) (hcloses : Closes x) :
    Refuses (unlabelled e c depth) s := by
  cases depth with
  | zero => exact refuses_choice fun p hp => absurd hp List.not_mem_nil
  | succ depth =>
      refine refuses_choice fun p hp => ?_
      simp only [List.mem_cons, List.not_mem_nil, or_false] at hp
      rcases hp with rfl | rfl | rfl | rfl | rfl
      · refine refuses_sequence (refusesAll_head (refuses_identifier ?_))
        rcases hcloses with rfl | rfl <;> simp [hfirst]
      all_goals
        refine refuses_sequence (refusesAll_head (refuses_keyword ?_))
        rcases hcloses with rfl | rfl <;> simp [hfirst]

theorem refuses_statement {e c : Pattern} {depth : Nat} {x : Lexeme}
    (hfirst : firstLexeme s = some x) (hcloses : Closes x) :
    Refuses (statement (unlabelled e c depth)) s := by
  have hlabel : Refuses .label s := by
    refine refuses_label ?_
    rcases hcloses with rfl | rfl <;> simp [hfirst]
  refine refuses_choice fun p hp => ?_
  simp only [List.mem_cons, List.not_mem_nil, or_false] at hp
  rcases hp with rfl | rfl
  · exact refuses_sequence (refusesAll_head hlabel)
  · exact refuses_unlabelled hfirst hcloses

theorem takes_statements {n depth : Nat} {e c : Pattern} {x : Lexeme}
    (h : CompleteStmt n .bare (unlabelled e c depth)) {b : Stmt .block}
    (hlength : b.lexemes.length ≤ n)
    (hreads : Reads s (b.lexemes ++ [.keyword lineBreak]) r)
    (hfirst : firstLexeme r = some x) (hcloses : Closes x) :
    Takes (statements (unlabelled e c depth)) s r := by
  obtain ⟨q, hb, hq⟩ := reads_append_iff.mp hreads
  have hbreak := hq.first
  obtain ⟨t, v, rfl, ht, hnil⟩ := reads_cons_iff.mp hq
  obtain rfl : r = v := (reads_nil_iff.mp hnil).symm
  have hstop : Refuses (.sequence [newLine, statement (unlabelled e c depth)])
      (t :: r) :=
    refuses_sequence (refusesAll_tail (takes_keyword ht)
      (refusesAll_head (refuses_statement hfirst hcloses)))
  have hlines := takesAll_block (completeStmt_statement h) b hlength s (t :: r)
    (t :: r) hb hbreak (takes_repetition_stop hstop)
  exact takes_sequence (takesAll_append hlines
    (takesAll_cons (takes_keyword ht) takesAll_nil))

theorem takes_assignment {n : Nat} {e : Pattern} {x : String} {a : Expression}
    (he : Complete n (.chain .sum) e)
    (hlength : (Stmt.assign x a).lexemes.length ≤ n)
    (hreads : Reads s (Stmt.assign x a).lexemes r)
    (hbreak : firstLexeme r = some (.keyword lineBreak)) :
    Takes (assignment e) s r := by
  obtain ⟨t, _, rfl, ht, hq⟩ := reads_cons_iff.mp hreads
  obtain ⟨u, v, rfl, hu, ha⟩ := reads_cons_iff.mp hq
  simp only [Stmt.lexemes, List.length_cons] at hlength
  have hvalue := he a (by omega) v r ha (ends_of_first hbreak (by decide))
  exact takes_sequence (takesAll_cons (takes_identifier ht)
    (takesAll_cons (takes_keyword hu) (takesAll_cons hvalue takesAll_nil)))

theorem takes_jump {n : Nat} {c : Pattern} {a : Condition} {target : String}
    (hc : Complete n (.chain .condition) c)
    (hlength : (Stmt.branch a target).lexemes.length ≤ n)
    (hreads : Reads s (Stmt.branch a target).lexemes r) :
    Takes (jump c) s r := by
  obtain ⟨t, v, rfl, ht, hv⟩ := reads_cons_iff.mp hreads
  obtain ⟨w, ha, hw⟩ := reads_append_iff.mp hv
  simp only [Stmt.lexemes, List.length_cons, List.length_append] at hlength
  have htest := hc a (by omega) v w ha (ends_of_first hw.first (by decide))
  obtain ⟨t₁, _, rfl, h₁, hw⟩ := reads_cons_iff.mp hw
  obtain ⟨t₂, _, rfl, h₂, hw⟩ := reads_cons_iff.mp hw
  obtain ⟨t₃, q, rfl, h₃, hnil⟩ := reads_cons_iff.mp hw
  obtain rfl := reads_nil_iff.mp hnil
  exact takes_sequence (takesAll_cons (takes_keyword ht)
    (takesAll_cons htest (takesAll_cons (takes_keyword h₁)
      (takesAll_cons (takes_keyword h₂)
        (takesAll_cons (takes_label h₃) takesAll_nil)))))

theorem takes_loop {n depth : Nat} {e c : Pattern} {x : String}
    {first last : Expression} {body : Stmt .block}
    (he : Complete n (.chain .sum) e)
    (hbody : CompleteStmt depth .bare (unlabelled e c depth))
    (hdepth : depth + 1 ≤ n)
    (hlength : (Stmt.loop x first last body).lexemes.length ≤ depth + 1)
    (hreads : Reads s (Stmt.loop x first last body).lexemes r) :
    Takes (loop e (statements (unlabelled e c depth))) s r := by
  simp only [Stmt.lexemes, List.length_cons, List.length_append] at hlength
  obtain ⟨t₁, _, rfl, h₁, hq⟩ := reads_cons_iff.mp hreads
  obtain ⟨t₂, _, rfl, h₂, hq⟩ := reads_cons_iff.mp hq
  obtain ⟨t₃, v, rfl, h₃, hq⟩ := reads_cons_iff.mp hq
  obtain ⟨w, hfirst, hq⟩ := reads_append_iff.mp hq
  have hstart := he first (by omega) v w hfirst
    (ends_of_first hq.first (by decide))
  obtain ⟨t₄, w, rfl, h₄, hq⟩ := reads_cons_iff.mp hq
  obtain ⟨q, hlast, hq⟩ := reads_append_iff.mp hq
  have hbreak : firstLexeme q = some (.keyword lineBreak) := by
    obtain ⟨rest, hrest⟩ := body.exists_lexemes_block
    rw [hrest] at hq
    exact hq.first
  have hlimit := he last (by omega) w q hlast (ends_of_first hbreak (by decide))
  rw [show ([.keyword lineBreak, .keyword "next"] : List Lexeme) =
    [.keyword lineBreak] ++ [.keyword "next"] from rfl,
    ← List.append_assoc] at hq
  obtain ⟨p, hblock, hp⟩ := reads_append_iff.mp hq
  have hnext := hp.first
  obtain ⟨t₅, q, rfl, h₅, hnil⟩ := reads_cons_iff.mp hp
  obtain rfl := reads_nil_iff.mp hnil
  have hlines := takes_statements hbody (by omega) hblock hnext (.inl rfl)
  exact takes_sequence (takesAll_cons (takes_keyword h₁)
    (takesAll_cons (takes_identifier h₂) (takesAll_cons (takes_keyword h₃)
      (takesAll_cons hstart (takesAll_cons (takes_keyword h₄)
        (takesAll_cons hlimit (takesAll_cons hlines
          (takesAll_cons (takes_keyword h₅) takesAll_nil))))))))

theorem completeStmt_unlabelled {n : Nat} {e c : Pattern}
    (he : Complete n (.chain .sum) e) (hc : Complete n (.chain .condition) c)
    {depth : Nat} (hdepth : depth ≤ n) :
    CompleteStmt depth .bare (unlabelled e c depth) := by
  induction depth with
  | zero =>
      intro a hlength
      cases a <;> simp [Stmt.lexemes] at hlength
  | succ depth ih =>
      intro a hlength s r hreads hbreak
      refine takes_choice ?_
      cases a with
      | assign x a =>
          exact takesFirst_head (takes_assignment he (by omega) hreads hbreak)
      | transfer kind names =>
          have hfirst := hreads.first
          refine takesFirst_tail (refuses_assignment (by simp [hfirst])) ?_
          cases kind with
          | read => exact takesFirst_head (takes_transfer hreads)
          | write =>
              exact takesFirst_tail (refuses_transfer (by
                simp [hfirst, Transfer.keyword]))
                (takesFirst_head (takes_transfer hreads))
      | loop x first last body =>
          have hfirst := hreads.first
          refine takesFirst_tail (refuses_assignment (by simp [hfirst]))
            (takesFirst_tail (refuses_transfer (by simp [hfirst]))
              (takesFirst_tail (refuses_transfer (by simp [hfirst])) ?_))
          exact takesFirst_head
            (takes_loop he (ih (by omega)) hdepth hlength hreads)
      | branch c target =>
          have hfirst := hreads.first
          refine takesFirst_tail (refuses_assignment (by simp [hfirst]))
            (takesFirst_tail (refuses_transfer (by simp [hfirst]))
              (takesFirst_tail (refuses_transfer (by simp [hfirst]))
                (takesFirst_tail (refuses_sequence (refusesAll_head
                  (refuses_keyword (by simp [hfirst])))) ?_)))
          exact takesFirst_head (takes_jump hc (by omega) hreads)

/-! ## Programs -/

theorem takes_definition {n : Names}
    (hreads : Reads s (n.lexemes ++ [.keyword ":", .keyword "float"]) r) :
    Takes definition s r := by
  obtain ⟨q, hn, hq⟩ := reads_append_iff.mp hreads
  have hnames := takes_identifiers n hn (by simp [hq.first])
  obtain ⟨t, _, rfl, ht, hq⟩ := reads_cons_iff.mp hq
  obtain ⟨u, v, rfl, hu, hnil⟩ := reads_cons_iff.mp hq
  obtain rfl := reads_nil_iff.mp hnil
  exact takes_sequence (takesAll_cons hnames (takesAll_cons (takes_keyword ht)
    (takesAll_cons (takes_keyword hu) takesAll_nil)))

theorem takesAll_definitions : ∀ (d : Definitions) (s m r : List Token),
    Reads s d.lexemes m →
    Takes (.repetition (.sequence [.keyword ";", definition])) m r →
    TakesAll [definition,
      .repetition (.sequence [.keyword ";", definition])] s r
  | .one n, s, m, r, hreads, hrest =>
      takesAll_cons (takes_definition hreads) (takesAll_cons hrest takesAll_nil)
  | .more d n, s, m, r, hreads, hrest => by
      obtain ⟨q, hd, hq⟩ := reads_append_iff.mp hreads
      obtain ⟨t, v, rfl, ht, hn⟩ := reads_cons_iff.mp hq
      refine takesAll_definitions d s (t :: v) r hd ?_
      refine takes_repetition_step (m := m) (takes_sequence (takesAll_cons
        (takes_keyword ht) (takesAll_cons (takes_definition hn) takesAll_nil)))
        ?_ hrest
      rw [List.length_cons, hn.length_eq]
      omega

theorem takes_definitions {d : Definitions} (hreads : Reads s d.lexemes r)
    (hfirst : firstLexeme r ≠ some (.keyword ";")) :
    Takes (separated definition (.keyword ";")) s r :=
  takes_sequence (takesAll_definitions d s r r hreads (takes_repetition_stop
    (refuses_sequence (refusesAll_head (refuses_keyword hfirst)))))

/-- A program is taken whole at any depth that is not below its length. -/
theorem takes_program {source : Source} {depth : Nat}
    (hspells : Spells s source.lexemes) (hdepth : s.length ≤ depth) :
    Takes (program depth) s [] := by
  have hlength := hspells.length_eq
  have hq := spells_iff_reads.mp hspells
  simp only [Source.lexemes, List.length_cons, List.length_append] at hlength
  obtain ⟨t₁, _, rfl, h₁, hq⟩ := reads_cons_iff.mp hq
  obtain ⟨t₂, _, rfl, h₂, hq⟩ := reads_cons_iff.mp hq
  obtain ⟨t₃, _, rfl, h₃, hq⟩ := reads_cons_iff.mp hq
  obtain ⟨t₄, v, rfl, h₄, hq⟩ := reads_cons_iff.mp hq
  obtain ⟨w, hd, hq⟩ := reads_append_iff.mp hq
  have hdefinitions := takes_definitions hd (by simp [hq.first, lineBreak])
  obtain ⟨t₅, _, rfl, h₅, hq⟩ := reads_cons_iff.mp hq
  obtain ⟨t₆, q, rfl, h₆, hq⟩ := reads_cons_iff.mp hq
  rw [show ([.keyword lineBreak, .keyword "end"] : List Lexeme) =
    [.keyword lineBreak] ++ [.keyword "end"] from rfl,
    ← List.append_assoc] at hq
  obtain ⟨p, hblock, hp⟩ := reads_append_iff.mp hq
  have hend := hp.first
  obtain ⟨t₇, _, rfl, h₇, hnil⟩ := reads_cons_iff.mp hp
  obtain rfl := reads_nil_iff.mp hnil
  have he := complete_expression depth
  have hc := complete_condition (complete_logicalFactor he (Nat.le_refl depth))
  have hbody := takes_statements
    (completeStmt_unlabelled he hc (Nat.le_refl depth)) (by omega) hblock hend
    (.inr rfl)
  exact takes_sequence (takesAll_cons (takes_keyword h₁)
    (takesAll_cons (takes_identifier h₂) (takesAll_cons (takes_keyword h₃)
      (takesAll_cons (takes_keyword h₄) (takesAll_cons hdefinitions
        (takesAll_cons (takes_keyword h₅) (takesAll_cons (takes_keyword h₆)
          (takesAll_cons hbody (takesAll_cons (takes_keyword h₇)
            (takesAll_cons takes_endOfInput takesAll_nil))))))))))

/-- The recogniser accepts the spellings of programs. -/
theorem check_ok_iff {tokens : List Token} : check tokens = .ok () ↔
    ∃ source : Source, Spells tokens source.lexemes := by
  unfold check matchTokens
  constructor
  · intro h
    cases hrun : run (program (tokens.length + 1)) (.ofTokens tokens) with
    | error failure =>
        rw [hrun] at h
        cases h
    | ok d => exact sound_program (leaves_of_run _ hrun).1
  · rintro ⟨source, hspells⟩
    obtain ⟨d, hd, -⟩ := takes_program hspells (Nat.le_succ _)
      (.ofTokens tokens) rfl
    rw [hd]
    rfl

/-- The recogniser that matches patterns accepts exactly the tokens that have
terminals and whose terminals are derived from the start symbol. -/
theorem check_ok_iff_derives (tokens : List Token) : check tokens = .ok () ↔
    ∃ w, Language.grammar.Classes tokens w ∧
      Language.grammar.Derives [Language.program] w := by
  rw [check_ok_iff, Language.derives_iff_source]

end Reckon.Descent
