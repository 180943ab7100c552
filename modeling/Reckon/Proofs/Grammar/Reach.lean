import Mathlib.Logic.Relation
import Reckon.Grammar.Reach

/-!
# What the search for beginnings and endings finds

`Leads` is one step of the search: from a left-hand side to the symbol at one
end of its right-hand side. The search lists exactly what is reached in one or
more steps, where the steps behind the first start at nonterminals. That no
symbol is lost although each is visited once is the invariant of
`search_closed`: what a listed symbol leads to is listed or waiting.
-/

namespace Reckon.Grammar

variable {g : Grammar} {side : Side} {x y z : Symbol}

/-- A production leads from its left-hand side to one end of its right-hand
side. -/
def Leads (g : Grammar) (side : Side) (x y : Symbol) : Prop :=
  ∃ p ∈ g.productions, p.lhs = x ∧ side.pick p.rhs = some y

/-- A step of the search behind the first one. -/
def LeadsOn (g : Grammar) (side : Side) (x y : Symbol) : Prop :=
  x.isNonterminal = true ∧ g.Leads side x y

theorem mem_nextSymbols_iff :
    y ∈ g.nextSymbols side x ↔ g.Leads side x y := by
  simp only [nextSymbols, productionsOf, Leads, List.mem_filterMap,
    List.mem_filter, decide_eq_true_eq, and_assoc]

/-- What the search puts on the waiting list when it meets a symbol. -/
theorem mem_next_iff :
    y ∈ (if x.isNonterminal then g.nextSymbols side x else []) ↔
      g.LeadsOn side x y := by
  unfold LeadsOn
  split
  · next h => simp only [h, true_and, mem_nextSymbols_iff]
  · next h => simp only [h, Bool.false_eq_true, false_and, List.not_mem_nil]

/-- Nothing is listed that is not reached from what was waiting. -/
theorem reached_of_mem_search {seen waiting : List Symbol}
    (h : y ∈ g.search side seen waiting) :
    y ∈ seen ∨ ∃ z ∈ waiting, Relation.ReflTransGen (g.LeadsOn side) z y := by
  fun_induction search g side seen waiting with
  | case1 seen => exact .inl h
  | case2 seen symbol rest _ ih =>
      rcases ih h with hseen | ⟨z, hz, hzy⟩
      · exact .inl hseen
      · exact .inr ⟨z, List.mem_cons_of_mem symbol hz, hzy⟩
  | case3 seen symbol rest _ next ih =>
      rcases ih h with hseen | ⟨z, hz, hzy⟩
      · rcases List.mem_append.mp hseen with hseen | hsymbol
        · exact .inl hseen
        · rw [List.mem_singleton.mp hsymbol]
          exact .inr ⟨symbol, List.mem_cons_self, Relation.ReflTransGen.refl⟩
      · rcases List.mem_append.mp hz with hnext | hrest
        · exact .inr ⟨symbol, List.mem_cons_self,
            Relation.ReflTransGen.head (mem_next_iff.mp hnext) hzy⟩
        · exact .inr ⟨z, List.mem_cons_of_mem symbol hrest, hzy⟩

/-- Whatever is listed or waiting is listed in the end. -/
theorem mem_search_of_mem {seen waiting : List Symbol}
    (h : y ∈ seen ∨ y ∈ waiting) : y ∈ g.search side seen waiting := by
  fun_induction search g side seen waiting with
  | case1 seen => exact h.resolve_right List.not_mem_nil
  | case2 seen symbol rest hseen ih =>
      refine ih (h.elim .inl fun hy => ?_)
      rcases List.mem_cons.mp hy with rfl | hrest
      · exact .inl hseen
      · exact .inr hrest
  | case3 seen symbol rest _ next ih =>
      refine ih
        (h.elim (fun hy => .inl (List.mem_append_left _ hy)) fun hy => ?_)
      rcases List.mem_cons.mp hy with rfl | hrest
      · exact .inl (List.mem_append_right _ (List.mem_singleton.mpr rfl))
      · exact .inr (List.mem_append_right _ hrest)

/-- If what listed symbols lead to is listed or waiting, the list is closed in
the end. -/
theorem search_closed {seen waiting : List Symbol}
    (hclosed : ∀ x ∈ seen, ∀ y, g.LeadsOn side x y → y ∈ seen ∨ y ∈ waiting)
    (hx : x ∈ g.search side seen waiting) (hxy : g.LeadsOn side x y) :
    y ∈ g.search side seen waiting := by
  fun_induction search g side seen waiting with
  | case1 seen =>
      exact (hclosed x hx y hxy).resolve_right List.not_mem_nil
  | case2 seen symbol rest hseen ih =>
      refine ih (fun s hs t hst => ?_) hx
      rcases hclosed s hs t hst with ht | ht
      · exact .inl ht
      · rcases List.mem_cons.mp ht with rfl | hrest
        · exact .inl hseen
        · exact .inr hrest
  | case3 seen symbol rest _ next ih =>
      refine ih (fun s hs t hst => ?_) hx
      rcases List.mem_append.mp hs with hs | hs
      · rcases hclosed s hs t hst with ht | ht
        · exact .inl (List.mem_append_left _ ht)
        · rcases List.mem_cons.mp ht with rfl | hrest
          · exact .inl (List.mem_append_right _ (List.mem_singleton.mpr rfl))
          · exact .inr (List.mem_append_right _ hrest)
      · rw [List.mem_singleton.mp hs] at hst
        exact .inr (List.mem_append_left _ (mem_next_iff.mpr hst))

/-- The search lists what is reached in one or more steps. -/
theorem mem_reach_iff :
    y ∈ g.reach side x ↔
      ∃ z, g.Leads side x z ∧ Relation.ReflTransGen (g.LeadsOn side) z y := by
  unfold reach
  constructor
  · intro h
    obtain ⟨z, hz, hzy⟩ :=
      (reached_of_mem_search h).resolve_left List.not_mem_nil
    exact ⟨z, mem_nextSymbols_iff.mp hz, hzy⟩
  · rintro ⟨z, hxz, hzy⟩
    induction hzy with
    | refl => exact mem_search_of_mem (.inr (mem_nextSymbols_iff.mpr hxz))
    | tail _ hstep ih =>
        exact search_closed (fun s hs => absurd hs List.not_mem_nil) ih hstep

/-- The first step of a search. -/
theorem mem_reach_of_leads (h : g.Leads side x y) : y ∈ g.reach side x :=
  mem_reach_iff.mpr ⟨y, h, Relation.ReflTransGen.refl⟩

/-- What can begin (or end) the first (or last) symbol of a right-hand side can
begin (or end) the left-hand side. -/
theorem mem_reach_of_leads_of_mem (hnonterminal : y.isNonterminal = true)
    (hxy : g.Leads side x y) (hz : z ∈ g.reach side y) :
    z ∈ g.reach side x := by
  obtain ⟨s, hys, hsz⟩ := mem_reach_iff.mp hz
  exact mem_reach_iff.mpr
    ⟨y, hxy, Relation.ReflTransGen.head ⟨hnonterminal, hys⟩ hsz⟩

/-- The last step of a search starts at the symbol itself or at one that was
met before. -/
theorem exists_leads_of_mem_reach (h : y ∈ g.reach side x) :
    ∃ z, (z = x ∨ z ∈ g.reach side x) ∧ g.Leads side z y := by
  obtain ⟨s, hxs, hsy⟩ := mem_reach_iff.mp h
  rcases Relation.ReflTransGen.cases_tail hsy with rfl | ⟨z, hsz, hzy⟩
  · exact ⟨x, .inl rfl, hxs⟩
  · exact ⟨z, .inr (mem_reach_iff.mpr ⟨s, hxs, hsz⟩), hzy.2⟩

theorem mem_of_pick {symbols : List Symbol} (h : side.pick symbols = some y) :
    y ∈ symbols := by
  cases side with
  | first => exact List.mem_of_mem_head? h
  | last => exact List.mem_of_getLast? h

/-- Only symbols of right-hand sides are found. -/
theorem mem_occurrences_of_mem_reach (h : y ∈ g.reach side x) :
    y ∈ g.occurrences := by
  obtain ⟨z, -, p, hp, -, hpick⟩ := exists_leads_of_mem_reach h
  exact List.mem_flatMap.mpr ⟨p, hp, mem_of_pick hpick⟩

end Reckon.Grammar
