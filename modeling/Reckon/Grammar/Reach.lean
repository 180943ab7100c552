import Reckon.Grammar.Basic

/-!
# Beginnings and endings

Which symbols can begin, and which can end, what a symbol derives in one or
more steps. Both are the same search: from a symbol go to the first (or last)
symbol of each of its right-hand sides, and on from there wherever it is a
nonterminal. A symbol is listed when it is first met and never visited again,
so the search ends on every grammar, however its productions recur.

The bound is exact. What is waiting was put there by a production, and a
production puts something there only while its left-hand side is not listed;
so with each symbol taken from the waiting list either the list gets shorter,
or the productions of that symbol stop counting.
-/

namespace Reckon

/-- The end of a right-hand side that a search looks at. -/
inductive Side where
  | first
  | last
deriving DecidableEq, Repr

/-- The symbol at an end of a row; none if the row is empty. -/
def Side.pick : Side → List Symbol → Option Symbol
  | first, symbols => symbols.head?
  | last, symbols => symbols.getLast?

namespace Grammar

/-- The symbols that one step leads to, production by production. -/
def nextSymbols (g : Grammar) (side : Side) (symbol : Symbol) : List Symbol :=
  (g.productionsOf symbol).filterMap fun p => side.pick p.rhs

/-- The productions whose left-hand side is not listed yet. -/
def unlisted (g : Grammar) (seen : List Symbol) : Nat :=
  g.productions.countP fun p => decide (p.lhs ∉ seen)

theorem length_nextSymbols_le (g : Grammar) (side : Side) (symbol : Symbol) :
    (g.nextSymbols side symbol).length ≤ g.productions.countP
      (·.lhs = symbol) := by
  rw [List.countP_eq_length_filter]
  exact List.length_filterMap_le _ _

theorem unlisted_append (g : Grammar) {seen : List Symbol} {symbol : Symbol}
    (new : symbol ∉ seen) :
    g.unlisted (seen ++ [symbol]) + g.productions.countP (·.lhs = symbol) =
      g.unlisted seen := by
  unfold unlisted
  induction g.productions with
  | nil => rfl
  | cons p rest ih =>
    rw [List.countP_cons, List.countP_cons, List.countP_cons, ← ih]
    by_cases isSymbol : p.lhs = symbol
    · simp [isSymbol, new]
      omega
    · by_cases listed : p.lhs ∈ seen
      · simp [isSymbol, listed]
      · simp [isSymbol, listed]
        omega

/-- Visits what is waiting, front first, and lists what is met. -/
def search (g : Grammar) (side : Side) (seen waiting : List Symbol) :
    List Symbol :=
  match waiting with
  | [] => seen
  | symbol :: rest =>
    if symbol ∈ seen then search g side seen rest
    else
      let next := if symbol.isNonterminal then g.nextSymbols side symbol else []
      search g side (seen ++ [symbol]) (next ++ rest)
termination_by g.unlisted seen + waiting.length
decreasing_by
  · simp
  · next new =>
    have counted := g.unlisted_append new
    have bounded := g.length_nextSymbols_le side symbol
    split <;> simp <;> omega

/-- Every symbol met from one on, in the order of the search. The symbol itself
is listed only if it comes up again. -/
def reach (g : Grammar) (side : Side) (symbol : Symbol) : List Symbol :=
  g.search side [] (g.nextSymbols side symbol)

/-- The symbols that can begin what a symbol derives. -/
def firstSymbols (g : Grammar) (symbol : Symbol) : List Symbol :=
  g.reach .first symbol

/-- The symbols that can end what a symbol derives. -/
def lastSymbols (g : Grammar) (symbol : Symbol) : List Symbol :=
  g.reach .last symbol

end Grammar

end Reckon
