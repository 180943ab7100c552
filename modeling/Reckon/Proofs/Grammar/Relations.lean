import Reckon.Proofs.Grammar.Order
import Reckon.Proofs.Grammar.Table
import Reckon.Proofs.Grammar.Weights

/-!
# The table is its relations

What precedence is can be said without a table and without an order of the
productions: three sets of pairs, read off what stands side by side and what
begins and ends the nonterminals there (`Related`). The table is filled in one
order, and the first entry of a cell stays. That nothing of this is to be seen
in the outcome is shown here.

The requirements are the pairs of the three sets and those of the end mark, and
nothing else (`required_iff`). Those of the end mark are never in anybody's way,
so it is two pairs of the three sets that a conflict is about, and a grammar has
a table if and only if the sets have no pair in common.
-/

namespace Reckon

namespace Precedence

variable {c : Conflict} {cells : List Cell}

/-- A requirement is refused for another relation of the same pair. -/
theorem lookup_of_record_error {req : Cell} (h : record cells req = .error c) :
    ⟨c.left, c.right, c.attempted⟩ = req ∧ c.existing ≠ c.attempted ∧
      lookup cells c.left c.right = some c.existing := by
  unfold record at h
  split at h
  · cases h
  · next existing hlookup =>
      split at h
      · cases h
      · next hne =>
          cases h
          exact ⟨rfl, hne, hlookup⟩

/-- Both relations of a conflict are required, or one of them was there from the
start. -/
theorem required_of_records_error {reqs : List Cell} :
    ∀ {init : List Cell}, reqs.foldlM record init = .error c →
      c.existing ≠ c.attempted ∧ ⟨c.left, c.right, c.attempted⟩ ∈ reqs ∧
        (lookup init c.left c.right = some c.existing ∨
          ⟨c.left, c.right, c.existing⟩ ∈ reqs) := by
  induction reqs with
  | nil =>
      intro init h
      rw [List.foldlM_nil] at h
      cases h
  | cons req reqs ih =>
      intro init h
      rw [List.foldlM_cons] at h
      cases hrecord : record init req with
      | error c' =>
          rw [hrecord] at h
          cases h
          obtain ⟨rfl, hne, hlookup⟩ := lookup_of_record_error hrecord
          exact ⟨hne, List.mem_cons_self, .inl hlookup⟩
      | ok mid =>
          rw [hrecord] at h
          obtain ⟨hne, hattempted, hexisting⟩ := ih h
          refine ⟨hne, List.mem_cons_of_mem _ hattempted, ?_⟩
          rcases hexisting with hlookup | hmem
          · rw [lookup_of_record hrecord] at hlookup
            split at hlookup
            · next hpair =>
                obtain ⟨hleft, hright⟩ := hpair
                rw [← hleft, ← hright, ← Option.some.inj hlookup]
                exact .inr List.mem_cons_self
            · exact .inl hlookup
          · exact .inr (List.mem_cons_of_mem _ hmem)

/-- The two relations of a conflict are both required. -/
theorem required_of_conflict {g : Grammar} (h : ofGrammar g = .error c) :
    c.existing ≠ c.attempted ∧ ⟨c.left, c.right, c.existing⟩ ∈ g.requirements ∧
      ⟨c.left, c.right, c.attempted⟩ ∈ g.requirements := by
  unfold ofGrammar at h
  cases hcells : g.requirements.foldlM record [] with
  | ok cells => rw [hcells] at h; cases h
  | error c' =>
      rw [hcells] at h
      cases h
      obtain ⟨hne, hattempted, hexisting⟩ := required_of_records_error hcells
      exact ⟨hne, hexisting.resolve_left (by simp [lookup]), hattempted⟩

theorem rows_of_built {g : Grammar} {table : Precedence}
    (h : ofGrammar g = .ok table) :
    table.rows =
      if g.vocabulary.isEmpty then [] else g.vocabulary ++ [.endMark] := by
  unfold ofGrammar at h
  cases hcells : g.requirements.foldlM record [] with
  | error c => rw [hcells] at h; cases h
  | ok cells =>
      rw [hcells] at h
      cases h
      rfl

end Precedence

namespace Grammar

variable {g g' : Grammar} {side : Side} {l r s x y : Symbol} {a b : Relation}

/-! ## The three relations -/

/-- Two symbols stand side by side in a right-hand side. -/
def Adjacent (g : Grammar) (l r : Symbol) : Prop :=
  ∃ p ∈ g.productions, ∃ before after, p.rhs = before ++ l :: r :: after

/-- A symbol begins (or ends) what another one derives in one or more steps. -/
def LeadsTo (g : Grammar) (side : Side) : Symbol → Symbol → Prop :=
  Relation.TransGen (g.Leads side)

/-- How two symbols stand to each other for what is side by side in the
right-hand sides. -/
inductive Related (g : Grammar) : Relation → Symbol → Symbol → Prop where
  /-- The two are side by side. -/
  | equal {l r : Symbol} : g.Adjacent l r → Related g .equal l r
  /-- One ends a nonterminal that has the other, a terminal, behind it. -/
  | more {n t x : Symbol} : g.Adjacent n t → n.isNonterminal = true →
      t.isTerminal = true → g.LeadsTo .last n x → Related g .more x t
  /-- One ends a nonterminal and the other begins the nonterminal behind it. -/
  | between {n m x y : Symbol} : g.Adjacent n m → n.isNonterminal = true →
      m.isNonterminal = true → g.LeadsTo .last n x → g.LeadsTo .first m y →
      Related g .more x y
  /-- One has a nonterminal behind it that the other begins. -/
  | less {l m y : Symbol} : g.Adjacent l m → m.isNonterminal = true →
      g.LeadsTo .first m y → Related g .less l y

/-- No pair of symbols is in two relations. -/
def Consistent (g : Grammar) : Prop :=
  ∀ l r a b, g.Related a l r → g.Related b l r → a = b

/-- What a table should hold: the relations, and the end mark around every
symbol of a right-hand side. -/
def Prescribes (g : Grammar) (a : Relation) (l r : Symbol) : Prop :=
  g.Related a l r ∨ (l ∈ g.occurrences ∧ r = .endMark ∧ a = .more) ∨
    (l = .endMark ∧ r ∈ g.occurrences ∧ a = .less)

/-! ## They do not depend on the order of productions -/

section Order

variable (h : ∀ p, p ∈ g'.productions ↔ p ∈ g.productions)
include h

theorem adjacent_congr : g'.Adjacent l r ↔ g.Adjacent l r := by
  simp only [Adjacent, h]

theorem leadsTo_congr : g'.LeadsTo side x y ↔ g.LeadsTo side x y := by
  have hleads : g'.Leads side = g.Leads side := by
    funext x y
    simp only [Leads, h]
  rw [LeadsTo, LeadsTo, hleads]

theorem occurrences_congr : s ∈ g'.occurrences ↔ s ∈ g.occurrences := by
  simp only [occurrences, List.mem_flatMap, h]

theorem related_of_related (hrel : g'.Related a l r) : g.Related a l r := by
  cases hrel with
  | equal hadj => exact .equal ((adjacent_congr h).mp hadj)
  | more hadj hn ht hx =>
      exact .more ((adjacent_congr h).mp hadj) hn ht ((leadsTo_congr h).mp hx)
  | between hadj hn hm hx hy =>
      exact .between ((adjacent_congr h).mp hadj) hn hm
        ((leadsTo_congr h).mp hx) ((leadsTo_congr h).mp hy)
  | less hadj hm hy =>
      exact .less ((adjacent_congr h).mp hadj) hm ((leadsTo_congr h).mp hy)

theorem related_congr : g'.Related a l r ↔ g.Related a l r :=
  ⟨related_of_related h, related_of_related fun p => (h p).symm⟩

theorem prescribes_congr : g'.Prescribes a l r ↔ g.Prescribes a l r := by
  simp only [Prescribes, related_congr h, occurrences_congr h]

theorem consistent_congr : g'.Consistent ↔ g.Consistent := by
  simp only [Consistent, related_congr h]

/-- The rows of a table are the symbols of the right-hand sides, in order. -/
theorem vocabulary_congr : g'.vocabulary = g.vocabulary :=
  Symbol.sorted_congr fun _ => occurrences_congr h

end Order

/-! ## The requirements are the relations -/

section Required

variable (hlhs : ∀ p ∈ g.productions, p.lhs.isNonterminal = true)

theorem adjacent_iff : g.Adjacent l r ↔ (l, r) ∈ g.neighbours :=
  mem_neighbours_iff.symm

include hlhs in
/-- Where left-hand sides are nonterminals, the search for beginnings and
endings finds all of them. -/
theorem leadsTo_iff : g.LeadsTo side x y ↔ y ∈ g.reach side x := by
  have hon : g.LeadsOn side = g.Leads side := by
    funext x y
    refine propext (and_iff_right_of_imp ?_)
    rintro ⟨p, hp, rfl, -⟩
    exact hlhs p hp
  rw [mem_reach_iff, hon]
  exact Relation.TransGen.head'_iff

theorem isTerminal_of_adjacent (hend : .endMark ∉ g.occurrences)
    (h : g.Adjacent l r) (hr : r.isNonterminal = false) :
    r.isTerminal = true := by
  have hocc := (mem_occurrences_of_neighbours (adjacent_iff.mp h)).2
  cases r with
  | endMark => exact absurd hocc hend
  | nonterminal name => cases hr
  | identifier | constant | label | keyword text => rfl

theorem isNonterminal_eq_false (h : r.isTerminal = true) :
    r.isNonterminal = false := by
  cases r <;> first | rfl | cases h

variable (hend : .endMark ∉ g.occurrences)
include hlhs

theorem required_of_related (h : g.Related a l r) :
    ⟨l, r, a⟩ ∈ g.requirements := by
  cases h with
  | equal hadj => exact equal_required (adjacent_iff.mp hadj)
  | more hadj hn ht hx =>
      exact more_required (adjacent_iff.mp hadj) hn (isNonterminal_eq_false ht)
        ((leadsTo_iff hlhs).mp hx)
  | between hadj hn hm hx hy =>
      exact between_required (adjacent_iff.mp hadj) hn hm
        ((leadsTo_iff hlhs).mp hx) ((leadsTo_iff hlhs).mp hy)
  | less hadj hm hy =>
      exact less_required (adjacent_iff.mp hadj) hm ((leadsTo_iff hlhs).mp hy)

/-- Only symbols of right-hand sides are related. -/
theorem occur_of_related (h : g.Related a l r) :
    l ∈ g.occurrences ∧ r ∈ g.occurrences := by
  have hfound : ∀ {side n x}, g.LeadsTo side n x → x ∈ g.occurrences :=
    fun hx => mem_occurrences_of_mem_reach ((leadsTo_iff hlhs).mp hx)
  have hadjacent :
      ∀ {l r}, g.Adjacent l r → l ∈ g.occurrences ∧ r ∈ g.occurrences :=
    fun hadj => mem_occurrences_of_neighbours (adjacent_iff.mp hadj)
  cases h with
  | equal hadj => exact hadjacent hadj
  | more hadj _ _ hx => exact ⟨hfound hx, (hadjacent hadj).2⟩
  | between _ _ _ hx hy => exact ⟨hfound hx, hfound hy⟩
  | less hadj _ hy => exact ⟨(hadjacent hadj).1, hfound hy⟩

include hend

theorem prescribes_of_required {c : Cell} (h : c ∈ g.requirements) :
    g.Prescribes c.relation c.left c.right := by
  cases ground_of_required h with
  | equal hpair => exact .inl (.equal (adjacent_iff.mpr hpair))
  | more hpair hn ht hx =>
      have hadj := adjacent_iff.mpr hpair
      have hterminal := isTerminal_of_adjacent hend hadj ht
      exact .inl (.more hadj hn hterminal ((leadsTo_iff hlhs).mpr hx))
  | between hpair hn hm hx hy =>
      exact .inl (.between (adjacent_iff.mpr hpair) hn hm
        ((leadsTo_iff hlhs).mpr hx) ((leadsTo_iff hlhs).mpr hy))
  | less hpair hm hy =>
      exact .inl (.less (adjacent_iff.mpr hpair) hm ((leadsTo_iff hlhs).mpr hy))
  | behind hx => exact .inr (.inl ⟨hx, rfl, rfl⟩)
  | front hx => exact .inr (.inr ⟨rfl, hx, rfl⟩)

/-- Required is what a table should hold. -/
theorem required_iff : ⟨l, r, a⟩ ∈ g.requirements ↔ g.Prescribes a l r := by
  refine ⟨prescribes_of_required hlhs hend, ?_⟩
  rintro (hrel | ⟨hl, rfl, rfl⟩ | ⟨rfl, hr, rfl⟩)
  · exact required_of_related hlhs hrel
  · exact more_endMark_required hl
  · exact endMark_less_required hr

/-- The end mark has one relation to every symbol on either side of it. -/
theorem related_of_prescribes (hne : a ≠ b) (ha : g.Prescribes a l r)
    (hb : g.Prescribes b l r) : g.Related a l r := by
  rcases ha with hrel | ⟨hl, rfl, rfl⟩ | ⟨rfl, hr, rfl⟩
  · exact hrel
  · rcases hb with hrel | ⟨-, -, rfl⟩ | ⟨rfl, -, -⟩
    · exact absurd (occur_of_related hlhs hrel).2 hend
    · exact absurd rfl hne
    · exact absurd hl hend
  · rcases hb with hrel | ⟨-, rfl, -⟩ | ⟨-, -, rfl⟩
    · exact absurd (occur_of_related hlhs hrel).1 hend
    · exact absurd hr hend
    · exact absurd rfl hne

/-! ## The table -/

theorem get?_iff_prescribes {table : Precedence}
    (h : Precedence.ofGrammar g = .ok table) :
    table.get? l r = some a ↔ g.Prescribes a l r := by
  rw [Precedence.get?_eq_some_iff h]
  exact required_iff hlhs hend

/-- A conflict is about two pairs of the relations. -/
theorem related_of_conflict {c : Conflict}
    (h : Precedence.ofGrammar g = .error c) :
    c.existing ≠ c.attempted ∧ g.Related c.existing c.left c.right ∧
      g.Related c.attempted c.left c.right := by
  obtain ⟨hne, hexisting, hattempted⟩ := Precedence.required_of_conflict h
  have hexisting := (required_iff hlhs hend).mp hexisting
  have hattempted := (required_iff hlhs hend).mp hattempted
  exact ⟨hne, related_of_prescribes hlhs hend hne hexisting hattempted,
    related_of_prescribes hlhs hend hne.symm hattempted hexisting⟩

/-- A grammar has a table if and only if its relations are disjoint. -/
theorem table_iff_consistent :
    (∃ table, Precedence.ofGrammar g = .ok table) ↔ g.Consistent := by
  constructor
  · rintro ⟨table, htable⟩ l r a b ha hb
    have hgeta := (get?_iff_prescribes hlhs hend htable).mpr (.inl ha)
    have hgetb := (get?_iff_prescribes hlhs hend htable).mpr (.inl hb)
    exact Option.some.inj (hgeta.symm.trans hgetb)
  · intro hconsistent
    cases hbuilt : Precedence.ofGrammar g with
    | ok table => exact ⟨table, rfl⟩
    | error c =>
        obtain ⟨hne, hexisting, hattempted⟩ :=
          related_of_conflict hlhs hend hbuilt
        exact absurd (hconsistent _ _ _ _ hexisting hattempted) hne

/-- There is a table if and only if no pair of symbols is in two relations.
It holds the relations and the entries of the end mark, and nothing else. A
conflict names a pair that is in two relations, and both of them. The order
in which the productions are listed, and how often each is, makes no
difference to any of this. -/
theorem table_of_relations :
    ((∃ table, Precedence.ofGrammar g = .ok table) ↔ g.Consistent) ∧
    (∀ table, Precedence.ofGrammar g = .ok table →
      ∀ l r a, table.get? l r = some a ↔ g.Prescribes a l r) ∧
    (∀ c, Precedence.ofGrammar g = .error c → c.existing ≠ c.attempted ∧
      g.Related c.existing c.left c.right ∧
      g.Related c.attempted c.left c.right) ∧
    ∀ g', (∀ p, p ∈ g'.productions ↔ p ∈ g.productions) →
      ((∃ table, Precedence.ofGrammar g' = .ok table) ↔
        ∃ table, Precedence.ofGrammar g = .ok table) ∧
      ∀ table table', Precedence.ofGrammar g = .ok table →
        Precedence.ofGrammar g' = .ok table' →
          table'.rows = table.rows ∧
          ∀ l r, table'.get? l r = table.get? l r := by
  refine ⟨table_iff_consistent hlhs hend,
    fun table htable l r a => get?_iff_prescribes hlhs hend htable,
    fun c hc => related_of_conflict hlhs hend hc, fun g' hsame => ?_⟩
  have hlhs' : ∀ p ∈ g'.productions, p.lhs.isNonterminal = true := fun p hp =>
    hlhs p ((hsame p).mp hp)
  have hend' : .endMark ∉ g'.occurrences := mt (occurrences_congr hsame).mp hend
  refine ⟨?_, fun table table' htable htable' => ⟨?_, fun l r => ?_⟩⟩
  · rw [table_iff_consistent hlhs' hend', table_iff_consistent hlhs hend]
    exact consistent_congr hsame
  · rw [Precedence.rows_of_built htable, Precedence.rows_of_built htable',
      vocabulary_congr hsame]
  · refine Option.ext fun a => ?_
    rw [get?_iff_prescribes hlhs' hend' htable',
      get?_iff_prescribes hlhs hend htable]
    exact prescribes_congr hsame

end Required

/-- Names in a row, an even number of them: of two names side by side nothing
tells whether a shorter row ends between them. -/
def pairing : Grammar where
  start := .nonterminal "Pairing"
  productions :=
    [⟨.nonterminal "Pairing", [.identifier, .identifier], none⟩,
      ⟨.nonterminal "Pairing",
        [.identifier, .nonterminal "Pairing", .identifier], none⟩]

/-- The relations of the language are disjoint, and those of paired names are
not, with the productions in either order. -/
theorem pairing_conflicts :
    Language.grammar.Consistent ∧
    (∃ c, Precedence.ofGrammar pairing = .error c ∧
      pairing.Related c.existing c.left c.right ∧
        pairing.Related c.attempted c.left c.right) ∧
    ¬∃ table, Precedence.ofGrammar
      ⟨pairing.start, pairing.productions.reverse⟩ = .ok table := by
  have hlanguage := table_of_relations (g := Language.grammar)
    (by decide +kernel) (by decide +kernel)
  have hpairing := table_of_relations (g := pairing) (by decide +kernel)
    (by decide +kernel)
  have hnone : ¬∃ table, Precedence.ofGrammar pairing = .ok table := by
    rintro ⟨table, htable⟩
    have hfails : (Precedence.ofGrammar pairing).isOk = false := by
      decide +kernel
    rw [htable] at hfails
    cases hfails
  refine ⟨hlanguage.1.mp Language.exists_precedence, ?_, fun htable => ?_⟩
  · cases hbuilt : Precedence.ofGrammar pairing with
    | ok table => exact absurd ⟨table, hbuilt⟩ hnone
    | error c => exact ⟨c, rfl, (hpairing.2.2.1 c hbuilt).2⟩
  · exact hnone ((hpairing.2.2.2 _ fun _ => List.mem_reverse).1.mp htable)

end Grammar

end Reckon
