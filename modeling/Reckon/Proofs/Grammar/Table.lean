import Reckon.Grammar.Precedence
import Reckon.Proofs.Grammar.Reach

/-!
# What a table of precedence holds

A table that could be built holds what is required and nothing else: a pair is
in a relation if and only if one of the requirements says so. Afterwards nobody
has to look into the table again, only into the requirements, and these are
read off here as four rules about neighbours and one about the end mark.

Whether a table can be built is a question about every pair of requirements. A
pair of numbers for each symbol answers it at once: if comparing the left
number of one symbol with the right number of the other always gives the
required relation, no two requirements can differ.
-/

namespace Reckon

namespace Precedence

variable {cells cells' init : List Cell} {c : Cell} {l r : Symbol}
  {x : Relation}

theorem lookup_cons :
    lookup (c :: cells) l r =
      if c.left = l ∧ c.right = r then some c.relation
      else lookup cells l r := by
  unfold lookup
  rw [List.find?_cons]
  by_cases h : c.left = l ∧ c.right = r
  · rw [if_pos h]
    simp only [h, and_self, decide_true, Option.map_some]
  · rw [if_neg h]
    simp only [h, decide_false]

/-- A requirement that was recorded is looked up like one put in front,
whether or not it was there before. -/
theorem lookup_of_record (h : record cells c = .ok cells') :
    lookup cells' l r =
      if c.left = l ∧ c.right = r then some c.relation
      else lookup cells l r := by
  unfold record at h
  split at h
  · next hnone =>
      injection h with h
      rw [← h]
      exact lookup_cons
  · next existing hsome =>
      split at h
      · next hsame =>
          injection h with h
          subst h
          split
          · next hpair =>
              obtain ⟨rfl, rfl⟩ := hpair
              rw [hsome, hsame]
          · rfl
      · next hdiffers => cases h

theorem lookup_eq_of_record (h : record cells c = .ok cells')
    (hx : lookup cells c.left c.right = some x) : x = c.relation := by
  unfold record at h
  rw [hx] at h
  simp only [] at h
  split at h
  · next hsame => exact hsame
  · next hdiffers => cases h

theorem lookup_of_records {reqs : List Cell} :
    ∀ {init : List Cell}, reqs.foldlM record init = .ok cells →
      (lookup cells l r = some x ↔
        lookup init l r = some x ∨ ⟨l, r, x⟩ ∈ reqs) := by
  induction reqs with
  | nil =>
      intro init h
      rw [List.foldlM_nil] at h
      injection h with h
      rw [h]
      exact ⟨.inl, fun h => h.resolve_right List.not_mem_nil⟩
  | cons c reqs ih =>
      intro init h
      rw [List.foldlM_cons] at h
      cases hmid : record init c with
      | error e => rw [hmid] at h; cases h
      | ok mid =>
          rw [hmid] at h
          have hcons : lookup mid l r = some x ↔
              lookup init l r = some x ∨ c = ⟨l, r, x⟩ := by
            rw [lookup_of_record hmid]
            constructor
            · intro hx
              split at hx
              · next hpair =>
                  obtain ⟨rfl, rfl⟩ := hpair
                  injection hx with hx
                  subst hx
                  exact .inr rfl
              · exact .inl hx
            · rintro (hx | rfl)
              · split
                · next hpair =>
                    obtain ⟨rfl, rfl⟩ := hpair
                    rw [lookup_eq_of_record hmid hx]
                · exact hx
              · rw [if_pos ⟨rfl, rfl⟩]
          rw [ih h, hcons, List.mem_cons, or_assoc]
          exact or_congr_right (or_congr_left ⟨Eq.symm, Eq.symm⟩)

/-- A table holds what is required, and nothing else. -/
theorem get?_eq_some_iff {g : Grammar} {table : Precedence}
    (h : ofGrammar g = .ok table) :
    table.get? l r = some x ↔ ⟨l, r, x⟩ ∈ g.requirements := by
  unfold ofGrammar at h
  cases hcells : g.requirements.foldlM record [] with
  | error e => rw [hcells] at h; cases h
  | ok cells =>
      rw [hcells] at h
      injection h with h
      subst h
      refine (lookup_of_records hcells).trans ?_
      exact ⟨fun h => h.resolve_left (by simp [lookup]), .inr⟩

theorem records_of_agrees {reqs : List Cell} (f : Symbol → Symbol → Relation)
    (hreqs : ∀ c ∈ reqs, c.relation = f c.left c.right) :
    ∀ {init : List Cell}, (∀ c ∈ init, c.relation = f c.left c.right) →
      ∃ cells, reqs.foldlM record init = .ok cells := by
  induction reqs with
  | nil => intro init _; exact ⟨init, rfl⟩
  | cons c reqs ih =>
      intro init hinit
      have hc := hreqs c List.mem_cons_self
      have hrest := fun c' h => hreqs c' (List.mem_cons_of_mem c h)
      rw [List.foldlM_cons]
      cases hlook : lookup init c.left c.right with
      | none =>
          have hrecord : record init c = .ok (c :: init) := by
            unfold record
            rw [hlook]
          rw [hrecord]
          refine ih hrest fun c' hc' => ?_
          rcases List.mem_cons.mp hc' with rfl | hc'
          · exact hc
          · exact hinit c' hc'
      | some existing =>
          have hsame : existing = c.relation := by
            obtain ⟨c', hfind, rfl⟩ := Option.map_eq_some_iff.mp hlook
            have hpair : c'.left = c.left ∧ c'.right = c.right := by
              simpa using List.find?_some hfind
            rw [hinit c' (List.mem_of_find?_eq_some hfind), hpair.1, hpair.2,
              hc]
          have hrecord : record init c = .ok init := by
            unfold record
            rw [hlook]
            exact if_pos hsame
          rw [hrecord]
          exact ih hrest hinit

/-- A function of two symbols that gives every required relation rules out
conflicts. -/
theorem exists_of_agrees {g : Grammar} (f : Symbol → Symbol → Relation)
    (h : ∀ c ∈ g.requirements, c.relation = f c.left c.right) :
    ∃ table, ofGrammar g = .ok table := by
  obtain ⟨cells, hcells⟩ :=
    @records_of_agrees _ f h [] fun c hc => absurd hc List.not_mem_nil
  refine ⟨⟨cells, if g.vocabulary.isEmpty then []
    else g.vocabulary ++ [.endMark]⟩, ?_⟩
  unfold ofGrammar
  rw [hcells]
  rfl

end Precedence

namespace Grammar

variable {g : Grammar} {l r x y : Symbol}

/-! ## The requirements, by kind -/

/-- Neighbours stand side by side in a right-hand side. -/
theorem mem_neighbours_iff :
    (l, r) ∈ g.neighbours ↔
      ∃ p ∈ g.productions, ∃ before after,
        p.rhs = before ++ l :: r :: after := by
  have hzip : ∀ symbols : List Symbol, (l, r) ∈ symbols.zip symbols.tail ↔
      ∃ before after, symbols = before ++ l :: r :: after := by
    intro symbols
    induction symbols with
    | nil => simp
    | cons s rest ih =>
        cases rest with
        | nil =>
            refine ⟨fun h => absurd h List.not_mem_nil, ?_⟩
            rintro ⟨before, after, h⟩
            have hlength := congrArg List.length h
            simp only [List.length_append, List.length_cons,
              List.length_nil] at hlength
            omega
        | cons t rest =>
            rw [List.tail_cons, List.zip_cons_cons, List.mem_cons]
            rw [List.tail_cons] at ih
            rw [ih]
            constructor
            · rintro (h | ⟨before, after, h⟩)
              · obtain ⟨rfl, rfl⟩ := Prod.mk.inj h
                exact ⟨[], rest, rfl⟩
              · exact ⟨s :: before, after, by rw [h, List.cons_append]⟩
            · rintro ⟨before, after, h⟩
              cases before with
              | nil =>
                  rw [List.nil_append] at h
                  injection h with h₁ h₂
                  injection h₂ with h₂ h₃
                  exact .inl (by rw [h₁, h₂])
              | cons b before =>
                  injection h with _ h
                  exact .inr ⟨before, after, h⟩
  unfold neighbours
  simp only [List.mem_flatMap, hzip]

/-- Every requirement is of one of five kinds. -/
theorem mem_requirements_iff {c : Cell} :
    c ∈ g.requirements ↔
      c ∈ g.equalCells ∨ c ∈ g.moreCells ∨ c ∈ g.lessCells ∨
        c ∈ g.betweenCells ∨ c ∈ g.endCells := by
  unfold requirements
  simp only [List.mem_append, or_assoc]

/-- Neighbours are equal. -/
theorem equal_required (h : (l, r) ∈ g.neighbours) :
    ⟨l, r, .equal⟩ ∈ g.requirements :=
  mem_requirements_iff.mpr (.inl (List.mem_map.mpr ⟨(l, r), h, rfl⟩))

/-- Whatever ends a nonterminal comes more than the symbol behind it, if that
is no nonterminal. -/
theorem more_required (h : (l, r) ∈ g.neighbours) (hl : l.isNonterminal = true)
    (hr : r.isNonterminal = false) (hx : x ∈ g.lastSymbols l) :
    ⟨x, r, .more⟩ ∈ g.requirements := by
  refine mem_requirements_iff.mpr (.inr (.inl ?_))
  refine List.mem_flatMap.mpr ⟨(l, r), h, ?_⟩
  simp only [hl, hr, Bool.not_false, Bool.and_self, if_true]
  exact List.mem_map.mpr ⟨x, hx, rfl⟩

/-- A symbol comes less than whatever begins the nonterminal behind it. -/
theorem less_required (h : (l, r) ∈ g.neighbours) (hr : r.isNonterminal = true)
    (hy : y ∈ g.firstSymbols r) : ⟨l, y, .less⟩ ∈ g.requirements := by
  rw [mem_requirements_iff]
  cases hl : l.isNonterminal with
  | false =>
      refine .inr (.inr (.inl (List.mem_flatMap.mpr ⟨(l, r), h, ?_⟩)))
      simp only [hl, hr, Bool.not_false, Bool.and_self, if_true]
      exact List.mem_map.mpr ⟨y, hy, rfl⟩
  | true =>
      refine .inr (.inr (.inr (.inl (List.mem_flatMap.mpr ⟨(l, r), h, ?_⟩))))
      simp only [hl, hr, Bool.and_self, if_true]
      exact List.mem_append_right _ (List.mem_map.mpr ⟨y, hy, rfl⟩)

/-- Of two nonterminals side by side, what ends the first comes more than what
begins the second. -/
theorem between_required (h : (l, r) ∈ g.neighbours)
    (hl : l.isNonterminal = true) (hr : r.isNonterminal = true)
    (hx : x ∈ g.lastSymbols l) (hy : y ∈ g.firstSymbols r) :
    ⟨x, y, .more⟩ ∈ g.requirements := by
  refine mem_requirements_iff.mpr (.inr (.inr (.inr (.inl ?_))))
  refine List.mem_flatMap.mpr ⟨(l, r), h, ?_⟩
  simp only [hl, hr, Bool.and_self, if_true]
  exact List.mem_append_left _
    (List.mem_flatMap.mpr ⟨x, hx, List.mem_map.mpr ⟨y, hy, rfl⟩⟩)

theorem mem_vocabulary_iff : x ∈ g.vocabulary ↔ x ∈ g.occurrences := by
  unfold vocabulary Symbol.sorted
  rw [mem_sortBy, List.mem_eraseDups]

/-- The end mark comes more than everything on its left. -/
theorem more_endMark_required (h : x ∈ g.occurrences) :
    ⟨x, .endMark, .more⟩ ∈ g.requirements :=
  mem_requirements_iff.mpr (.inr (.inr (.inr (.inr
    (List.mem_append_left _
      (List.mem_map.mpr ⟨x, mem_vocabulary_iff.mpr h, rfl⟩))))))

/-- The end mark comes less than everything on its right. -/
theorem endMark_less_required (h : x ∈ g.occurrences) :
    ⟨.endMark, x, .less⟩ ∈ g.requirements :=
  mem_requirements_iff.mpr (.inr (.inr (.inr (.inr
    (List.mem_append_right _
      (List.mem_map.mpr ⟨x, mem_vocabulary_iff.mpr h, rfl⟩))))))

/-! ## The grounds of requirements -/

/-- Why a pair is required to be in a relation. -/
inductive Ground (g : Grammar) : Cell → Prop where
  | equal {l r : Symbol} : (l, r) ∈ g.neighbours → Ground g ⟨l, r, .equal⟩
  | more {n t x : Symbol} : (n, t) ∈ g.neighbours → n.isNonterminal = true →
      t.isNonterminal = false → x ∈ g.lastSymbols n → Ground g ⟨x, t, .more⟩
  | between {n m x y : Symbol} : (n, m) ∈ g.neighbours →
      n.isNonterminal = true →
      m.isNonterminal = true → x ∈ g.lastSymbols n → y ∈ g.firstSymbols m →
      Ground g ⟨x, y, .more⟩
  | less {l m y : Symbol} : (l, m) ∈ g.neighbours → m.isNonterminal = true →
      y ∈ g.firstSymbols m → Ground g ⟨l, y, .less⟩
  | behind {x : Symbol} : x ∈ g.occurrences → Ground g ⟨x, .endMark, .more⟩
  | front {x : Symbol} : x ∈ g.occurrences → Ground g ⟨.endMark, x, .less⟩

/-- There are no other grounds. -/
theorem ground_of_required {c : Cell} (h : c ∈ g.requirements) :
    g.Ground c := by
  rcases mem_requirements_iff.mp h with h | h | h | h | h
  · obtain ⟨⟨l, r⟩, hpair, rfl⟩ := List.mem_map.mp h
    exact .equal hpair
  · obtain ⟨⟨n, t⟩, hpair, h⟩ := List.mem_flatMap.mp h
    simp only [] at h
    split at h
    · next hkinds =>
        obtain ⟨hn, ht⟩ := Bool.and_eq_true_iff.mp hkinds
        obtain ⟨x, hx, rfl⟩ := List.mem_map.mp h
        exact .more hpair hn (Bool.not_eq_true' _ ▸ ht) hx
    · cases h
  · obtain ⟨⟨l, m⟩, hpair, h⟩ := List.mem_flatMap.mp h
    simp only [] at h
    split at h
    · next hkinds =>
        obtain ⟨y, hy, rfl⟩ := List.mem_map.mp h
        exact .less hpair (Bool.and_eq_true_iff.mp hkinds).2 hy
    · cases h
  · obtain ⟨⟨n, m⟩, hpair, h⟩ := List.mem_flatMap.mp h
    simp only [] at h
    split at h
    · next hkinds =>
        obtain ⟨hn, hm⟩ := Bool.and_eq_true_iff.mp hkinds
        rcases List.mem_append.mp h with h | h
        · obtain ⟨x, hx, h⟩ := List.mem_flatMap.mp h
          obtain ⟨y, hy, rfl⟩ := List.mem_map.mp h
          exact .between hpair hn hm hx hy
        · obtain ⟨y, hy, rfl⟩ := List.mem_map.mp h
          exact .less hpair hm hy
    · cases h
  · rcases List.mem_append.mp h with h | h
    · obtain ⟨x, hx, rfl⟩ := List.mem_map.mp h
      exact .behind (mem_vocabulary_iff.mp hx)
    · obtain ⟨x, hx, rfl⟩ := List.mem_map.mp h
      exact .front (mem_vocabulary_iff.mp hx)

/-! ## Which symbols are related at all -/

theorem mem_occurrences_of_neighbours (h : (l, r) ∈ g.neighbours) :
    l ∈ g.occurrences ∧ r ∈ g.occurrences := by
  obtain ⟨p, hp, before, after, hrhs⟩ := mem_neighbours_iff.mp h
  exact ⟨List.mem_flatMap.mpr ⟨p, hp, by rw [hrhs]; simp⟩,
    List.mem_flatMap.mpr ⟨p, hp, by rw [hrhs]; simp⟩⟩

/-- Only symbols of right-hand sides and the end mark are related. The end mark
comes less than what is behind it, and what stands before it comes more. -/
theorem occur_of_required {c : Cell} (h : c ∈ g.requirements) :
    (c.left ∈ g.occurrences ∨ c.left = .endMark ∧ c.relation = .less) ∧
      (c.right ∈ g.occurrences ∨ c.right = .endMark ∧ c.relation = .more) := by
  cases ground_of_required h with
  | equal hpair =>
      have hocc := mem_occurrences_of_neighbours hpair
      exact ⟨.inl hocc.1, .inl hocc.2⟩
  | more hpair _ _ hx =>
      have hocc := mem_occurrences_of_neighbours hpair
      exact ⟨.inl (mem_occurrences_of_mem_reach hx), .inl hocc.2⟩
  | between _ _ _ hx hy =>
      exact ⟨.inl (mem_occurrences_of_mem_reach hx),
        .inl (mem_occurrences_of_mem_reach hy)⟩
  | less hpair _ hy =>
      have hocc := mem_occurrences_of_neighbours hpair
      exact ⟨.inl hocc.1, .inl (mem_occurrences_of_mem_reach hy)⟩
  | behind hx => exact ⟨.inl hx, .inr ⟨rfl, rfl⟩⟩
  | front hx => exact ⟨.inr ⟨rfl, rfl⟩, .inl hx⟩

/-- The end mark is in no right-hand side of a grammar that has a table, for it
would have to come both more and less than itself. -/
theorem endMark_not_mem_occurrences {table : Precedence}
    (hbuilt : Precedence.ofGrammar g = .ok table) :
    Symbol.endMark ∉ g.occurrences := by
  intro h
  have hmore :=
    (Precedence.get?_eq_some_iff hbuilt).mpr (more_endMark_required h)
  have hless :=
    (Precedence.get?_eq_some_iff hbuilt).mpr (endMark_less_required h)
  rw [hmore] at hless
  cases hless

/-- Whatever is related to an end mark on its right comes more than it. -/
theorem more_of_endMark {table : Precedence} {relation : Relation}
    (hbuilt : Precedence.ofGrammar g = .ok table)
    (h : table.get? x .endMark = some relation) : relation = .more := by
  have hreq := (Precedence.get?_eq_some_iff hbuilt).mp h
  rcases (occur_of_required hreq).2 with hocc | hmore
  · exact absurd hocc (endMark_not_mem_occurrences hbuilt)
  · exact hmore.2

/-- The end mark comes less than whatever it is related to on its right. -/
theorem less_of_endMark {table : Precedence} {relation : Relation}
    (hbuilt : Precedence.ofGrammar g = .ok table)
    (h : table.get? .endMark x = some relation) : relation = .less := by
  have hreq := (Precedence.get?_eq_some_iff hbuilt).mp h
  rcases (occur_of_required hreq).1 with hocc | hless
  · exact absurd hocc (endMark_not_mem_occurrences hbuilt)
  · exact hless.2

end Grammar

end Reckon
