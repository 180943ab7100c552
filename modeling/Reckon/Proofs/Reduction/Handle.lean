import Reckon.Proofs.Grammar.Derivation
import Reckon.Proofs.Reduction.Moves

/-!
# Every phrase is found

Reduction by precedence misses no sentence of a grammar that has a table, as
long as no two of its right-hand sides are alike and none is empty. The
statement that goes through by induction is about a part of a right-hand side:
if some symbols of it are on the stack and the others are still to be read as
the sentence they generate, then the automaton gets to where the left-hand side
stands in place of all of them. Two promises about the surroundings make it
work, and both are handed down from a phrase to the phrases inside it: what is
below comes less than everything the phrase can begin with, and everything it
can end with comes more than what is behind.

Acceptance needs no more than the start symbol on top of the stack, and this can
come about before the sentence is reduced: where the start symbol is the end of
a right-hand side, the automaton accepts as soon as it is there. For such a
grammar nothing can be said of the code that is put out. The promise `early`
says so; it is empty where the start symbol is in no right-hand side.

What the automaton puts out on the way is determined by the phrases alone.
`Builds` says what: it is `Generates` for entries, with the code before and
after. The induction follows the end of a run backwards, to all the places from
which the automaton gets there.
-/

namespace Reckon

open Grammar (Generates Leads)

/-- A grammar with a table, each of whose right-hand sides is something and
belongs to one nonterminal. -/
structure Grammar.Definite (g : Grammar) (table : Precedence) : Prop where
  built : Precedence.ofGrammar g = .ok table
  full : ∀ p ∈ g.productions, p.rhs ≠ []
  nonterminal : ∀ p ∈ g.productions, p.lhs.isNonterminal = true
  distinct : (g.productions.map Production.rhs).Nodup

/-- A grammar whose start symbol is in none of its right-hand sides besides. -/
structure Grammar.Fit (g : Grammar) (table : Precedence) : Prop
    extends g.Definite table where
  unstarted : g.start ∉ g.occurrences

namespace Grammar

variable {g : Grammar} {table : Precedence} {p : Production}

/-- With distinct right-hand sides the first production that matches is the
one that is meant. -/
theorem Definite.find?_rhs (fit : g.Definite table) (hp : p ∈ g.productions) :
    g.find? p.rhs = some p := by
  have hdistinct := fit.distinct
  unfold find?
  generalize g.productions = productions at hp hdistinct
  induction productions with
  | nil => cases hp
  | cons q rest ih =>
      rw [List.map_cons, List.nodup_cons] at hdistinct
      rw [List.find?_cons]
      rcases List.mem_cons.mp hp with rfl | hp
      · simp only [decide_true]
      · have hdiffers : q.rhs ≠ p.rhs := fun h =>
          hdistinct.1 (h ▸ List.mem_map_of_mem hp)
        simp only [hdiffers, decide_false]
        exact ih hp hdistinct.2

theorem Definite.get?_of_required (fit : g.Definite table) {l r : Symbol}
    {x : Relation} (h : ⟨l, r, x⟩ ∈ g.requirements) : table.get? l r = some x :=
  (Precedence.get?_eq_some_iff fit.built).mpr h

theorem Definite.isNonterminal_of_mem_reach (fit : g.Definite table)
    {side : Side} {s t : Symbol} (h : t ∈ g.reach side s) :
    s.isNonterminal = true := by
  obtain ⟨_, ⟨p, hp, rfl, -⟩, -⟩ := mem_reach_iff.mp h
  exact fit.nonterminal p hp

/-- A sentence begins with what its first symbol can begin with. -/
theorem Definite.head_of_generates (fit : g.Definite table) {s : Symbol}
    {rest w : List Symbol} (h : Generates g (s :: rest) w) :
    ∃ t v, w = t :: v ∧
      (s.isTerminal = true ∧ t = s ∨ t ∈ g.firstSymbols s) := by
  generalize hform : s :: rest = form at h
  induction h generalizing s rest with
  | nil => cases hform
  | @terminal t rest' v ht _ _ =>
      obtain ⟨rfl, -⟩ := List.cons_eq_cons.mp hform
      exact ⟨s, v, rfl, .inl ⟨ht, rfl⟩⟩
  | @production p rest' u v hp _ _ ihu _ =>
      obtain ⟨rfl, -⟩ := List.cons_eq_cons.mp hform
      obtain ⟨r, rs, hrhs⟩ := List.exists_cons_of_ne_nil (fit.full p hp)
      have hleads : g.Leads .first p.lhs r :=
        ⟨p, hp, rfl, by rw [hrhs]; rfl⟩
      obtain ⟨t, u', rfl, ht⟩ := ihu hrhs.symm
      refine ⟨t, u' ++ v, rfl, .inr ?_⟩
      rcases ht with ⟨-, rfl⟩ | ht
      · exact mem_reach_of_leads hleads
      · exact mem_reach_of_leads_of_mem (fit.isNonterminal_of_mem_reach ht)
          hleads ht

end Grammar

/-! ## What phrases put out -/

/-- The entries of a sentence are reduced to others, and the code put out for
them leads from one program to another. -/
inductive Grammar.Builds (g : Grammar) :
    List Entry → List Entry → Program → Program → Prop where
  | nil {code : Program} : Builds g [] [] code code
  | terminal {e : Entry} {base es : List Entry} {code after : Program} :
      e.symbol.isTerminal = true → Builds g base es code after →
      Builds g (e :: base) (e :: es) code after
  | production {p : Production} {inner behind eu ev : List Entry}
      {code middle after : Program} :
      p ∈ g.productions → inner.map Entry.symbol = p.rhs →
      Builds g inner eu code middle →
      Builds g behind ev (p.emit inner middle) after →
      Builds g (p.entry inner :: behind) (eu ++ ev) code after

theorem Grammar.Builds.generates {g : Grammar} {base es : List Entry}
    {code after : Program} (h : g.Builds base es code after) :
    Generates g (base.map Entry.symbol) (es.map Entry.symbol) := by
  induction h with
  | nil => exact .nil
  | terminal ht _ ih => exact .terminal ht ih
  | production hp hrhs _ _ ihu ihv =>
      rw [List.map_append]
      rw [hrhs] at ihu
      exact .production hp ihu ihv

theorem Grammar.Builds.append {g : Grammar} {a b eu ev : List Entry}
    {code middle after : Program} (ha : g.Builds a eu code middle)
    (hb : g.Builds b ev middle after) :
    g.Builds (a ++ b) (eu ++ ev) code after := by
  induction ha with
  | nil => exact hb
  | terminal ht _ ih => exact .terminal ht (ih hb)
  | production hp hrhs hu _ _ ih =>
      rw [List.append_assoc]
      exact .production hp hrhs hu (ih hb)

theorem Grammar.Builds.split {g : Grammar} {a b es : List Entry}
    {code after : Program} (h : g.Builds (a ++ b) es code after) :
    ∃ eu ev middle, es = eu ++ ev ∧ g.Builds a eu code middle ∧
      g.Builds b ev middle after := by
  generalize hbase : a ++ b = base at h
  induction h generalizing a with
  | @nil code =>
      obtain ⟨rfl, rfl⟩ := List.append_eq_nil_iff.mp hbase
      exact ⟨[], [], code, rfl, .nil, .nil⟩
  | @terminal e rest es code after ht hrest ih =>
      cases a with
      | nil =>
          subst hbase
          exact ⟨[], e :: es, code, rfl, .nil, .terminal ht hrest⟩
      | cons x a =>
          obtain ⟨rfl, htail⟩ := List.cons_eq_cons.mp hbase
          obtain ⟨eu, ev, middle, rfl, hu, hv⟩ := ih htail
          exact ⟨x :: eu, ev, middle, rfl, .terminal ht hu, hv⟩
  | @production p inner behind eu ev code middle after hp hrhs hu hv _ ih =>
      cases a with
      | nil =>
          subst hbase
          exact ⟨[], eu ++ ev, code, rfl, .nil, .production hp hrhs hu hv⟩
      | cons x a =>
          obtain ⟨rfl, htail⟩ := List.cons_eq_cons.mp hbase
          obtain ⟨ev₁, ev₂, middle', rfl, h₁, h₂⟩ := ih htail
          exact ⟨eu ++ ev₁, ev₂, middle', (List.append_assoc eu ev₁ ev₂).symm,
            .production hp hrhs hu h₁, h₂⟩

/-- What entries are reduced to is on the line of the first of them. -/
theorem Grammar.Builds.line {g : Grammar}
    (hfull : ∀ p ∈ g.productions, p.rhs ≠ []) {x : Entry} {base es : List Entry}
    {code after : Program} (h : g.Builds (x :: base) es code after) :
    ∃ e rest, es = e :: rest ∧ x.token.line = e.token.line := by
  generalize hform : x :: base = form at h
  induction h generalizing x base with
  | nil => cases hform
  | terminal _ _ _ =>
      obtain ⟨rfl, -⟩ := List.cons_eq_cons.mp hform
      exact ⟨x, _, rfl, rfl⟩
  | @production p inner behind eu ev _ _ _ hp hrhs _ _ ih _ =>
      obtain ⟨rfl, -⟩ := List.cons_eq_cons.mp hform
      cases inner with
      | nil => exact absurd hrhs.symm (hfull p hp)
      | cons y inner =>
          obtain ⟨e, rest, rfl, hline⟩ := ih rfl
          exact ⟨e, rest ++ ev, rfl, hline⟩

/-- Any entries of a sentence are reduced as it is generated. -/
theorem Grammar.exists_builds {g : Grammar} {form w : List Symbol}
    (h : Generates g form w) : ∀ {es : List Entry} (code : Program),
      es.map Entry.symbol = w → ∃ base after, base.map Entry.symbol = form ∧
        g.Builds base es code after := by
  induction h with
  | nil =>
      intro es code hes
      obtain rfl := List.map_eq_nil_iff.mp hes
      exact ⟨[], code, rfl, .nil⟩
  | terminal ht _ ih =>
      intro es code hes
      obtain ⟨e, es, rfl, rfl, hrest⟩ := List.map_eq_cons_iff.mp hes
      obtain ⟨base, after, rfl, hbuilds⟩ := ih code hrest
      exact ⟨e :: base, after, rfl, .terminal ht hbuilds⟩
  | @production p rest u v hp _ _ ihu ihv =>
      intro es code hes
      obtain ⟨eu, ev, rfl, heu, hev⟩ := List.map_eq_append_iff.mp hes
      obtain ⟨inner, middle, hinner, hu⟩ := ihu code heu
      obtain ⟨behind, after, rfl, hv⟩ := ihv (p.emit inner middle) hev
      exact ⟨p.entry inner :: behind, after, rfl, .production hp hinner hu hv⟩

namespace Automaton

variable {g : Grammar} {table : Precedence} {line : Nat} {goal : Program → Prop}

/-- The automaton accepts with such code if it is given time. -/
def Accepts (g : Grammar) (table : Precedence) (line : Nat)
    (goal : Program → Prop) (a : Automaton) : Prop :=
  ∃ budget parsed, run g table line budget a = .ok parsed ∧ goal parsed.code

theorem accepts_of_step {a b : Automaton} (action : Action)
    (haction : action ≠ .accept) (h : step g table a = .ok (action, b))
    (hb : Accepts g table line goal b) : Accepts g table line goal a := by
  obtain ⟨budget, parsed, hrun, hcode⟩ := hb
  let steps := recorded a action b :: parsed.steps
  refine ⟨budget + 1, { parsed with steps }, ?_, hcode⟩
  rw [run_of_act haction h, hrun]
  rfl

variable {top next : Entry} {below rest : List Entry} {code : Program}
  {n : Nat}

theorem accepts_of_start (htop : top.symbol = g.start)
    (hnext : next.symbol = .endMark) (hcode : goal code) :
    Accepts g table line goal ⟨top :: below, next :: rest, code, n⟩ :=
  ⟨1, _, run_of_accept (step_accept htop hnext), hcode⟩

theorem accepts_of_shift {relation : Relation}
    (hnext : next.symbol.isTerminal = true)
    (hget : table.get? top.symbol next.symbol = some relation)
    (hshift : relation ≠ .more)
    (h : Accepts g table line goal ⟨next :: top :: below, rest, code, n⟩) :
    Accepts g table line goal ⟨top :: below, next :: rest, code, n⟩ := by
  have hmark : next.symbol ≠ .endMark := fun hmark => by
    rw [hmark] at hnext
    cases hnext
  exact accepts_of_step (.shift relation) nofun (step_shift hmark hget hshift) h

/-! ## Back to where the phrase began -/

theorem splitBase_eq {first x : Entry} {above : List Entry} {p : Production}
    (hp : p ∈ g.productions)
    (hequal : ∀ l r, (l, r) ∈ g.neighbours → table.get? l r = some .equal)
    (hless : ∀ y, p.rhs.head? = some y → table.get? x.symbol y = some .less) :
    ∀ {ds : List Entry},
      (ds.reverse ++ first :: above).map Entry.symbol = p.rhs →
      splitBase table first above (ds ++ x :: below) =
        .ok (ds.reverse ++ first :: above, x :: below) := by
  intro ds
  induction ds generalizing first above with
  | nil =>
      intro hrhs
      have hhead : p.rhs.head? = some first.symbol := by rw [← hrhs]; rfl
      rw [List.nil_append, splitBase]
      simp only [hless _ hhead]
      rfl
  | cons d ds ih =>
      intro hrhs
      have hpair : (d.symbol, first.symbol) ∈ g.neighbours :=
        Grammar.mem_neighbours_iff.mpr ⟨p, hp, ds.reverse.map Entry.symbol,
          above.map Entry.symbol, by rw [← hrhs]; simp⟩
      rw [List.cons_append, splitBase]
      simp only [hequal _ _ hpair]
      rw [ih (by rw [← hrhs]; simp)]
      simp

/-- A complete right-hand side on the stack is reduced when everything its
left-hand side ends with comes more than what is next, or else it ends with the
start symbol, which is accepted there. -/
theorem accepts_of_reduce (fit : g.Definite table)
    (early : g.start ∈ g.occurrences → ∀ code, goal code) {x b : Entry}
    {bs ds : List Entry} {p : Production} (hp : p ∈ g.productions)
    (hrhs : ds.reverse.map Entry.symbol = p.rhs)
    (hless : ∀ y ∈ g.firstSymbols p.lhs, table.get? x.symbol y = some .less)
    (hmore : ∀ z ∈ g.lastSymbols p.lhs, table.get? z b.symbol = some .more)
    (h : ∀ n, Accepts g table line goal
      ⟨p.entry ds.reverse :: x :: below, b :: bs, p.emit ds.reverse code, n⟩) :
    Accepts g table line goal ⟨ds ++ x :: below, b :: bs, code, n⟩ := by
  cases ds with
  | nil => exact absurd hrhs.symm (fit.full p hp)
  | cons top ds =>
      have htop : top.symbol ∈ p.rhs := by rw [← hrhs]; simp
      by_cases haccept : top.symbol = g.start ∧ b.symbol = .endMark
      · have hoccurs : g.start ∈ g.occurrences :=
          haccept.1 ▸ List.mem_flatMap.mpr ⟨p, hp, htop⟩
        exact accepts_of_start haccept.1 haccept.2 (early hoccurs code)
      · have hlast : top.symbol ∈ g.lastSymbols p.lhs :=
          Grammar.mem_reach_of_leads
            ⟨p, hp, rfl, by rw [← hrhs]; simp [Side.pick]⟩
        have hsplit : splitBase table top [] (ds ++ x :: below) =
            .ok (ds.reverse ++ [top], x :: below) := by
          refine splitBase_eq hp (fun l r hlr => ?_) (fun y hy => ?_) ?_
          · exact fit.get?_of_required (Grammar.equal_required hlr)
          · exact hless y (Grammar.mem_reach_of_leads ⟨p, hp, rfl, hy⟩)
          · rw [← hrhs, List.reverse_cons]
        rw [List.reverse_cons] at hrhs h
        exact accepts_of_step (.reduce p.lhs p.rhs) nofun
          (step_reduce haccept (hmore _ hlast) hsplit hrhs (fit.find?_rhs hp))
          (h (n + 1))

/-! ## The induction over a sentence -/

theorem accepts_of_builds (fit : g.Definite table)
    (early : g.start ∈ g.occurrences → ∀ code, goal code)
    {base es : List Entry} {code after : Program}
    (hbuilds : g.Builds base es code after) :
    ∀ {p : Production} {x b : Entry} {below bs ds : List Entry} {n : Nat},
      p ∈ g.productions → (ds.reverse ++ base).map Entry.symbol = p.rhs →
      (∀ y ∈ g.firstSymbols p.lhs, table.get? x.symbol y = some .less) →
      (∀ z ∈ g.lastSymbols p.lhs, table.get? z b.symbol = some .more) →
      (∀ n, Accepts g table line goal
        ⟨p.entry (ds.reverse ++ base) :: x :: below,
          b :: bs, p.emit (ds.reverse ++ base) after, n⟩) →
      Accepts g table line goal ⟨ds ++ x :: below, es ++ b :: bs, code, n⟩ := by
  induction hbuilds with
  | nil =>
      intro p x b below bs ds n hp hrhs hless hmore h
      rw [List.append_nil] at hrhs h
      exact accepts_of_reduce fit early hp hrhs hless hmore h
  | @terminal e base es code after ht _ ih =>
      intro p x b below bs ds n hp hrhs hless hmore h
      have hds : (e :: ds).reverse ++ base = ds.reverse ++ e :: base := by simp
      have hdone := @ih p x b below bs (e :: ds) n hp (hds ▸ hrhs) hless hmore
        (hds ▸ h)
      rw [List.map_append, List.map_cons] at hrhs
      cases ds with
      | nil =>
          have hfirst : e.symbol ∈ g.firstSymbols p.lhs :=
            Grammar.mem_reach_of_leads ⟨p, hp, rfl, by rw [← hrhs]; rfl⟩
          exact accepts_of_shift ht (hless _ hfirst) (by decide) hdone
      | cons d ds =>
          have hpair : (d.symbol, e.symbol) ∈ g.neighbours :=
            Grammar.mem_neighbours_iff.mpr ⟨p, hp, ds.reverse.map Entry.symbol,
              base.map Entry.symbol, by rw [← hrhs]; simp⟩
          exact accepts_of_shift ht
            (fit.get?_of_required (Grammar.equal_required hpair)) (by decide)
            hdone
  | @production q inner behind eu ev code middle after hq hinner hu hv
      ihu ihv =>
      intro p x b below bs ds n hp hrhs hless hmore h
      have hq' := fit.nonterminal q hq
      have hds :
          ∀ e : Entry, (e :: ds).reverse ++ behind = ds.reverse ++
            e :: behind :=
        fun e => by simp
      have hform : p.rhs = ds.reverse.map Entry.symbol ++
          q.lhs :: behind.map Entry.symbol := by
        rw [← hrhs, List.map_append, List.map_cons]
        rfl
      -- what is below the phrase comes less than its beginnings
      have hbelow : ∃ x' below', ds ++ x :: below = x' :: below' ∧
          ∀ y ∈ g.firstSymbols q.lhs, table.get? x'.symbol y = some .less := by
        cases ds with
        | nil =>
            refine ⟨x, below, rfl, fun y hy => hless y ?_⟩
            exact Grammar.mem_reach_of_leads_of_mem hq'
              ⟨p, hp, rfl, by rw [hform]; rfl⟩ hy
        | cons d ds =>
            have hpair : (d.symbol, q.lhs) ∈ g.neighbours :=
              Grammar.mem_neighbours_iff.mpr
                ⟨p, hp, ds.reverse.map Entry.symbol,
                  behind.map Entry.symbol, by rw [hform]; simp⟩
            exact ⟨d, ds ++ x :: below, rfl, fun y hy =>
              fit.get?_of_required (Grammar.less_required hpair hq' hy)⟩
      -- what is behind it comes after more than its ends
      have hafter : ∃ b' bs', ev ++ b :: bs = b' :: bs' ∧
          ∀ z ∈ g.lastSymbols q.lhs, table.get? z b'.symbol = some .more := by
        cases behind with
        | nil =>
            cases hv
            refine ⟨b, bs, rfl, fun z hz => hmore z ?_⟩
            exact Grammar.mem_reach_of_leads_of_mem hq'
              ⟨p, hp, rfl, by rw [hform]; simp [Side.pick]⟩ hz
        | cons s behind =>
            have hpair : (q.lhs, s.symbol) ∈ g.neighbours :=
              Grammar.mem_neighbours_iff.mpr
                ⟨p, hp, ds.reverse.map Entry.symbol,
                  behind.map Entry.symbol, by rw [hform]; rfl⟩
            obtain ⟨t, v, hev, ht⟩ := fit.head_of_generates hv.generates
            obtain ⟨b', ev', rfl, rfl, -⟩ := List.map_eq_cons_iff.mp hev
            refine ⟨b', ev' ++ b :: bs, rfl, fun z hz => ?_⟩
            rcases ht with ⟨hs, hbs⟩ | ht
            · rw [hbs]
              refine fit.get?_of_required
                (Grammar.more_required hpair hq' ?_ hz)
              generalize s.symbol = symbol at hs
              cases symbol <;> first | rfl | cases hs
            · exact fit.get?_of_required (Grammar.between_required hpair hq'
                (fit.isNonterminal_of_mem_reach ht) hz ht)
      obtain ⟨x', below', hstack, hless'⟩ := hbelow
      obtain ⟨b', bs', hinput, hmore'⟩ := hafter
      rw [List.append_assoc, hinput, hstack]
      refine @ihu q x' b' below' bs' [] n hq hinner hless' hmore' fun n => ?_
      rw [← hinput, ← hstack]
      exact @ihv p x b below bs (q.entry inner :: ds) n hp
        (hds _ ▸ hrhs) hless hmore (hds _ ▸ h)

/-- Every sentence of the grammar is accepted. -/
theorem accepts_of_start_builds (fit : g.Definite table)
    (early : g.start ∈ g.occurrences → ∀ code, goal code)
    {base es : List Entry} {p : Production} {after : Program}
    (hp : p ∈ g.productions) (hstart : p.lhs = g.start)
    (hrhs : base.map Entry.symbol = p.rhs) (hbuilds : g.Builds base es {} after)
    (hcode : goal (p.emit base after)) (first last : Nat) :
    Accepts g table line goal
      { stack := [endEntry first], input := es ++ [endEntry last] } := by
  refine @accepts_of_builds g table line _ fit early _ _ _ _ hbuilds p
    (endEntry first) (endEntry last) [] [] [] _ hp hrhs ?_ ?_ ?_
  · intro y hy
    exact fit.get?_of_required (Grammar.endMark_less_required
      (Grammar.mem_occurrences_of_mem_reach hy))
  · intro z hz
    exact fit.get?_of_required (Grammar.more_endMark_required
      (Grammar.mem_occurrences_of_mem_reach hz))
  · exact fun n => accepts_of_start hstart rfl hcode

/-- Where the start symbol is in no right-hand side, it is the code of the
phrases that is put out. -/
theorem outputs_of_start_builds (fit : g.Fit table) {base es : List Entry}
    {p : Production} {after : Program} (hp : p ∈ g.productions)
    (hstart : p.lhs = g.start) (hrhs : base.map Entry.symbol = p.rhs)
    (hbuilds : g.Builds base es {} after) (first last : Nat) :
    Accepts g table line (· = p.emit base after)
      { stack := [endEntry first], input := es ++ [endEntry last] } := by
  refine accepts_of_start_builds fit.toDefinite (fun hoccurs => ?_) hp hstart
    hrhs hbuilds ?_ first last
  · exact absurd hoccurs fit.unstarted
  · rfl

end Automaton

end Reckon
