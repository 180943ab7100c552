import Reckon.Proofs.Grammar.Reach

/-!
# The search as a recursive visit

The search keeps what it has still to look at in a list. The visit here keeps
it in calls instead: a symbol that is new is listed, everything it leads to is
visited, and only then the visit goes on with what stands beside it.
`VisitsAll` is that visit as a relation, with the number of symbols it is
called on, so a finished visit is one with a derivation.

Both agree because the front of a waiting list is worked off before its rest
is looked at. From that the visit ends on every grammar, and the list that it
leaves is the one of the search. The number of calls is paid for by the
productions: those of a symbol count only until the symbol is listed.
-/

namespace Reckon.Grammar

/-- What a visit of a new symbol goes on to. -/
def onward (g : Grammar) (side : Side) (x : Symbol) : List Symbol :=
  if x.isNonterminal then g.nextSymbols side x else []

/-- Visiting symbols one after the other: from one list of what was met, in a
number of calls, to another. -/
inductive VisitsAll (g : Grammar) (side : Side) :
    List Symbol → List Symbol → Nat → List Symbol → Prop
  | done (out : List Symbol) : VisitsAll g side [] out 0 out
  /-- A symbol that was met before is left alone. -/
  | met {x : Symbol} {xs out out' : List Symbol} {n : Nat} (old : x ∈ out)
      (rest : VisitsAll g side xs out n out') :
      VisitsAll g side (x :: xs) out (n + 1) out'
  /-- A new symbol is listed before anything it leads to is visited. -/
  | new {x : Symbol} {xs out mid out' : List Symbol} {m n : Nat}
      (fresh : x ∉ out)
      (inner : VisitsAll g side (g.onward side x) (out ++ [x]) m mid)
      (rest : VisitsAll g side xs mid n out') :
      VisitsAll g side (x :: xs) out (m + n + 1) out'

variable {g : Grammar} {side : Side} {x : Symbol}
  {xs ys out out' seen waiting : List Symbol} {n : Nat}

theorem length_onward_le :
    (g.onward side x).length ≤ g.productions.countP (·.lhs = x) := by
  unfold onward
  split
  · exact g.length_nextSymbols_le side x
  · exact Nat.zero_le _

/-- A step of the search at a symbol that is new. -/
theorem search_fresh (fresh : x ∉ seen) :
    g.search side seen (x :: xs) =
      g.search side (seen ++ [x]) (g.onward side x ++ xs) := by
  rw [search, if_neg fresh]
  rfl

/-- A visit of two lists visits one, and then the other. -/
theorem VisitsAll.of_append (h : VisitsAll g side (xs ++ ys) out n out') :
    ∃ k mid l, VisitsAll g side xs out k mid ∧
      VisitsAll g side ys mid l out' := by
  induction xs generalizing out n with
  | nil => exact ⟨0, out, n, .done out, h⟩
  | cons x xs ih =>
      cases h with
      | met old rest =>
          obtain ⟨k, mid, l, front, back⟩ := ih rest
          exact ⟨k + 1, mid, l, .met old front, back⟩
      | new fresh inner rest =>
          obtain ⟨k, mid, l, front, back⟩ := ih rest
          exact ⟨_, mid, l, .new fresh inner front, back⟩

/-- The front of the waiting list is worked off before the rest. -/
theorem search_append :
    g.search side seen (xs ++ ys) =
      g.search side (g.search side seen xs) ys := by
  fun_induction search g side seen xs with
  | case1 seen => rfl
  | case2 seen x xs old ih => rw [List.cons_append, search, if_pos old, ih]
  | case3 seen x xs fresh next ih =>
      rw [List.cons_append, search_fresh fresh, ← List.append_assoc]
      exact ih

/-- Every visit ends, with the list of the search. -/
theorem exists_visitsAll (g : Grammar) (side : Side)
    (seen waiting : List Symbol) :
    ∃ n, VisitsAll g side waiting seen n (g.search side seen waiting) := by
  fun_induction search g side seen waiting with
  | case1 seen => exact ⟨0, .done seen⟩
  | case2 seen x xs old ih =>
      obtain ⟨n, rest⟩ := ih
      exact ⟨n + 1, .met old rest⟩
  | case3 seen x xs fresh next ih =>
      obtain ⟨n, both⟩ := ih
      obtain ⟨k, mid, l, inner, rest⟩ := both.of_append
      exact ⟨_, .new fresh inner rest⟩

/-- A visit ends with no other list. -/
theorem VisitsAll.eq_search (h : VisitsAll g side xs out n out') :
    out' = g.search side out xs := by
  induction h with
  | done out => rw [search]
  | met old _ ih => rw [search, if_pos old, ih]
  | new fresh _ _ ihInner ihRest =>
      rw [search_fresh fresh, search_append, ← ihInner, ihRest]

/-- Each symbol that is listed pays for the calls it makes with its productions,
which count no longer. -/
theorem VisitsAll.calls_le (h : VisitsAll g side xs out n out') :
    n + g.unlisted out' ≤ xs.length + g.unlisted out := by
  induction h with
  | done out => simp
  | met _ _ ih =>
      rw [List.length_cons]
      omega
  | @new x xs out mid out' m n fresh _ _ ihInner ihRest =>
      have counted := g.unlisted_append fresh
      have bounded :
          (g.onward side x).length ≤ g.productions.countP (·.lhs = x) :=
        length_onward_le
      rw [List.length_cons]
      omega

/-- A symbol is listed only while it is new. -/
theorem nodup_search (h : seen.Nodup) : (g.search side seen waiting).Nodup := by
  fun_induction search g side seen waiting with
  | case1 seen => exact h
  | case2 seen x xs old ih => exact ih h
  | case3 seen x xs fresh next ih =>
      exact ih (List.nodup_append.mpr ⟨h, List.pairwise_singleton _ x,
        fun a ha b hb same => fresh (List.mem_singleton.mp hb ▸ same ▸ ha)⟩)

theorem unlisted_nil (g : Grammar) : g.unlisted [] = g.productions.length := by
  simp [unlisted]

/-- The recursive visit of what a symbol leads to ends on every grammar, however
its productions recur, within two calls for each production. It ends with one
list only. That list has no symbol twice, and on it are the symbols reached in
one or more steps to an end of a right-hand side, where the steps behind the
first start at nonterminals. -/
theorem reach_visited (g : Grammar) (side : Side) (x : Symbol) :
    (∃ n ≤ 2 * g.productions.length,
      VisitsAll g side (g.nextSymbols side x) [] n (g.reach side x)) ∧
    (∀ n out, VisitsAll g side (g.nextSymbols side x) [] n out →
      out = g.reach side x) ∧ (g.reach side x).Nodup ∧
    ∀ y, y ∈ g.reach side x ↔
      ∃ z, g.Leads side x z ∧ Relation.ReflTransGen (g.LeadsOn side) z y := by
  refine ⟨?_, fun n out visits => visits.eq_search, nodup_search List.nodup_nil,
    fun y => mem_reach_iff⟩
  obtain ⟨n, visits⟩ := exists_visitsAll g side [] (g.nextSymbols side x)
  have paid := visits.calls_le
  have started : (g.nextSymbols side x).length ≤ g.productions.length :=
    Nat.le_trans (g.length_nextSymbols_le side x) List.countP_le_length
  have counted := g.unlisted_nil
  exact ⟨n, by omega, visits⟩

end Reckon.Grammar
