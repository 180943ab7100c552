import Reckon.Proofs.Grammar.Derivation
import Reckon.Proofs.Reduction.Moves

/-!
# Reductions are a rightmost derivation read backwards

What is on the stack and what is still to be read make up one row of symbols
between two end marks. A shift does not change the row, and a reduction undoes
one replacement in it, with nothing but terminals behind: the last replacement
of a rightmost derivation. So an automaton that accepts has undone a whole
derivation, from the row that is left then. This is so for every grammar that
has a table, whatever its productions look like. A table rules out by itself the
only thing that could be in the way: the end mark is in no right-hand side,
since it would have to come both less and more than itself.

What is left is a row with the start symbol at its end. That it is the start
symbol alone has to be shown, for acceptance looks at the top of the stack only.
`Alone` is the invariant: where the start symbol is in no right-hand side and
comes into being on the end mark only, nothing is ever below it or above it.
-/

namespace Reckon

open Grammar (RightmostBy Sentence)

/-- The productions that were reduced by, first to last. -/
def Parsed.reduced (parsed : Parsed) : List (Symbol × List Symbol) :=
  parsed.steps.filterMap fun s =>
    match s.action with
    | .reduce lhs base => some (lhs, base)
    | _ => none

namespace Automaton

variable {g : Grammar} {table : Precedence} {line : Nat}

/-! ## The row between the end marks -/

/-- Between the end marks, `stack` is what has been read and reduced, its end
first, and `input` what is still to be read. -/
structure Spans (a : Automaton) (stack input : List Entry) : Prop where
  stacked : ∃ bottom, a.stack = stack ++ [bottom] ∧ bottom.symbol = .endMark
  unread : ∃ last, a.input = input ++ [last] ∧ last.symbol = .endMark
  terminals : Sentence (input.map Entry.symbol)

/-- The row itself, its beginning first. -/
def row (stack input : List Entry) : List Symbol :=
  stack.reverse.map Entry.symbol ++ input.map Entry.symbol

section Steps

variable {a b : Automaton} {stack input : List Entry}

/-- What is accepted is a row with the start symbol at its end. -/
theorem Spans.row_of_accept (hstart : g.start ≠ .endMark)
    (h : Spans a stack input) (hmoves : Moves g table a .accept b) :
    ∃ top below, stack = top :: below ∧ top.symbol = g.start ∧ input = [] := by
  cases hmoves with
  | @accept top next below rest code n htop hnext =>
      obtain ⟨bottom, hstack, hbottom⟩ := h.stacked
      obtain ⟨last, hinput, hlast⟩ := h.unread
      simp only [] at hstack hinput
      cases stack with
      | nil =>
          injection hstack with hstack _
          rw [hstack, hbottom] at htop
          exact absurd htop.symm hstart
      | cons t stack =>
          injection hstack with hstack _
          subst hstack
          cases input with
          | nil => exact ⟨top, stack, rfl, htop, rfl⟩
          | cons i input =>
              injection hinput with hinput _
              have := h.terminals next.symbol (by rw [hinput]; simp)
              rw [hnext] at this
              cases this

/-- A shift moves one entry over and leaves the row as it is. -/
theorem Spans.shift (hbuilt : Precedence.ofGrammar g = .ok table)
    {relation : Relation} (h : Spans a stack input)
    (hmoves : Moves g table a (.shift relation) b) :
    ∃ next rest, input = next :: rest ∧ Spans b (next :: stack) rest := by
  cases hmoves with
  | @shift top next below rest code n _ hget hrelation =>
      obtain ⟨bottom, hstack, hbottom⟩ := h.stacked
      obtain ⟨last, hinput, hlast⟩ := h.unread
      simp only [] at hstack hinput
      cases input with
      | nil =>
          -- the end mark is never shifted
          injection hinput with hinput _
          rw [hinput, hlast] at hget
          exact absurd (Grammar.more_of_endMark hbuilt hget) hrelation
      | cons i input =>
          injection hinput with hinput hrest
          subst hinput
          exact ⟨next, input, rfl, ⟨bottom, by rw [hstack]; rfl, hbottom⟩,
            ⟨last, hrest, hlast⟩,
            fun s hs => h.terminals s (List.mem_cons_of_mem _ hs)⟩

/-- The bottom of the stack is below everything else. -/
theorem exists_low {bottom : Entry} {above below : List Entry}
    (hne : below ≠ []) (h : above ++ below = stack ++ [bottom]) :
    ∃ low, below = low ++ [bottom] ∧ stack = above ++ low := by
  rcases List.eq_nil_or_concat below with hnil | ⟨low, last, hlow⟩
  · exact absurd hnil hne
  · rw [List.concat_eq_append] at hlow
    rw [hlow, ← List.append_assoc] at h
    obtain ⟨hstack, hlast⟩ := List.append_inj' h rfl
    exact ⟨low, hlow.trans (by rw [hlast]), hstack.symm⟩

/-- A reduction undoes one replacement, with terminals behind. -/
theorem Spans.reduce (hbuilt : Precedence.ofGrammar g = .ok table)
    {lhs : Symbol} {rhs : List Symbol} (h : Spans a stack input)
    (hmoves : Moves g table a (.reduce lhs rhs) b) :
    ∃ p ∈ g.productions, ∃ base below, lhs = p.lhs ∧ rhs = p.rhs ∧
      base.map Entry.symbol = p.rhs ∧ base ≠ [] ∧
      stack = base.reverse ++ below ∧ Spans b (p.entry base :: below) input ∧
      b.code = p.emit base a.code ∧
      ∀ x ∈ below.head?, ∀ y ∈ p.rhs.head?,
        table.get? x.symbol y = some .less := by
  cases hmoves with
  | @reduce base low input' code n p hfind hbase hfull hless =>
      obtain ⟨hp, -⟩ := Grammar.find?_ok hfind
      obtain ⟨bottom, hstack, hbottom⟩ := h.stacked
      simp only [] at hstack
      have hunmarked : Symbol.endMark ∉ p.rhs := fun hmem =>
        Grammar.endMark_not_mem_occurrences hbuilt
          (List.mem_flatMap.mpr ⟨p, hp, hmem⟩)
      have hne : low ≠ [] := by
        rintro rfl
        rw [List.append_nil] at hstack
        have hmem : bottom ∈ base := List.mem_reverse.mp (by rw [hstack]; simp)
        exact hunmarked (hbase ▸ hbottom ▸ List.mem_map_of_mem hmem)
      obtain ⟨below, rfl, rfl⟩ := exists_low hne hstack
      refine ⟨p, hp, base, below, rfl, rfl, hbase, hfull, rfl,
        ⟨⟨bottom, rfl, hbottom⟩, h.unread, h.terminals⟩, rfl, fun x hx => ?_⟩
      refine hless x ?_
      cases below with
      | nil => cases hx
      | cons y below => exact hx

theorem row_of_reduce {p : Production} {base below : List Entry}
    (hbase : base.map Entry.symbol = p.rhs) :
    row (base.reverse ++ below) input =
      below.reverse.map Entry.symbol ++ p.rhs ++ input.map Entry.symbol := by
  rw [← hbase]
  simp [row]

/-! ## The start symbol alone -/

/-- A grammar whose start symbol is in no right-hand side and comes into being
on the end mark only. -/
structure Outermost (g : Grammar) (table : Precedence) : Prop where
  built : Precedence.ofGrammar g = .ok table
  nonterminal : ∀ p ∈ g.productions, p.lhs.isNonterminal = true
  start : g.start.isNonterminal = true
  absent : g.start ∉ g.occurrences
  first : ∀ p ∈ g.productions, p.lhs = g.start → ∀ x, ∀ y ∈ p.rhs.head?,
    table.get? x y = some .less → x = .endMark

/-- The start symbol has nothing above it and nothing below it, and no end mark
is above the one at the bottom. -/
structure Alone (g : Grammar) (stack : List Entry) : Prop where
  unmarked : Symbol.endMark ∉ stack.map Entry.symbol
  single : g.start ∈ stack.map Entry.symbol → stack.map Entry.symbol = [g.start]

theorem Alone.nil : Alone g [] :=
  ⟨List.not_mem_nil, fun h => absurd h List.not_mem_nil⟩

theorem Outermost.get?_start (out : Outermost g table) {y : Symbol} :
    table.get? g.start y = none := by
  cases hget : table.get? g.start y with
  | none => rfl
  | some x =>
      have hreq := (Precedence.get?_eq_some_iff out.built).mp hget
      rcases (Grammar.occur_of_required hreq).1 with h | h
      · exact absurd h out.absent
      · have := out.start
        rw [show g.start = .endMark from h.1] at this
        cases this

/-- Nothing is shifted onto the start symbol. -/
theorem Alone.shift (out : Outermost g table) {relation : Relation}
    {next : Entry} {rest : List Entry} (h : Spans a stack (next :: rest))
    (halone : Alone g stack) (hmoves : Moves g table a (.shift relation) b) :
    Alone g (next :: stack) := by
  have hnext := h.terminals next.symbol (by simp)
  refine ⟨fun hmem => ?_, fun hmem => ?_⟩
  · rcases List.mem_cons.mp hmem with hmem | hmem
    · rw [← hmem] at hnext
      cases hnext
    · exact halone.unmarked hmem
  · exfalso
    rcases List.mem_cons.mp hmem with hmem | hmem
    · have := Symbol.isTerminal_eq_false out.start
      rw [hmem, hnext] at this
      cases this
    · have hsingle := halone.single hmem
      cases hmoves with
      | shift hget _ =>
          obtain ⟨bottom, hstack, -⟩ := h.stacked
          cases stack with
          | nil => cases hmem
          | cons t stack =>
              injection hstack with hstack _
              injection hsingle with htop _
              rw [hstack, htop, out.get?_start] at hget
              cases hget

/-- The start symbol comes into being on the end mark only, and is in no
base. -/
theorem Alone.reduce (out : Outermost g table) {p : Production}
    {base below : List Entry} (hp : p ∈ g.productions)
    (hbase : base.map Entry.symbol = p.rhs) (hfull : base ≠ [])
    (hless : ∀ x ∈ below.head?, ∀ y ∈ p.rhs.head?,
      table.get? x.symbol y = some .less)
    (halone : Alone g (base.reverse ++ below)) :
    Alone g (p.entry base :: below) := by
  have hbelow : ∀ {s}, s ∈ below.map Entry.symbol →
      s ∈ (base.reverse ++ below).map Entry.symbol := fun hs => by
    rw [List.map_append]
    exact List.mem_append_right _ hs
  refine ⟨fun hmem => ?_, fun hmem => ?_⟩
  · rcases List.mem_cons.mp hmem with hmem | hmem
    · have := out.nonterminal p hp
      rw [show p.lhs = .endMark from hmem.symm] at this
      cases this
    · exact halone.unmarked (hbelow hmem)
  · cases below with
    | nil =>
        rcases List.mem_cons.mp hmem with hmem | hmem
        · rw [List.map_cons, ← hmem]
          rfl
        · cases hmem
    | cons x below =>
        exfalso
        rcases List.mem_cons.mp hmem with hmem | hmem
        · obtain ⟨y, ys, hy⟩ := List.exists_cons_of_ne_nil hfull
          have hhead : y.symbol ∈ p.rhs.head? := by rw [← hbase, hy]; rfl
          have hmark := out.first p hp hmem.symm x.symbol y.symbol hhead
            (hless x rfl _ hhead)
          exact halone.unmarked (hbelow (by simp [hmark]))
        · have hsingle := halone.single (hbelow hmem)
          have hlength := congrArg List.length hsingle
          have hpos := List.length_pos_iff.mpr hfull
          simp at hlength
          omega

end Steps

/-! ## Accepting runs -/

/-- The reductions of an accepting run, read backwards, derive the row that the
run began with from one that has the start symbol at its end, and from the start
symbol itself where this is always alone. -/
theorem run_rightmost (hbuilt : Precedence.ofGrammar g = .ok table)
    (hstart : g.start ≠ .endMark) {budget : Nat} :
    ∀ {a : Automaton} {stack input : List Entry} {parsed : Parsed},
      Spans a stack input → run g table line budget a = .ok parsed →
      ∃ before,
        RightmostBy g parsed.reduced.reverse (before ++ [g.start])
          (row stack input) ∧
        parsed.reductions = a.reductions + parsed.reduced.length ∧
        (Outermost g table → Alone g stack → before = []) := by
  induction budget with
  | zero => intro a stack input parsed _ h; cases h
  | succ budget ih =>
      intro a stack input parsed h hrun
      rcases run_ok hrun with
        ⟨b, hstep, rfl⟩ | ⟨action, b, later, hstep, hother, hlater, rfl⟩
      · have hmoves := moves_of_step hstep
        obtain ⟨top, below, rfl, htop, rfl⟩ := h.row_of_accept hstart hmoves
        have hrow : row (top :: below) [] =
            below.reverse.map Entry.symbol ++ [g.start] := by
          simp [row, htop]
        rw [hrow]
        cases hmoves
        refine ⟨_, RightmostBy.nil _, rfl, fun _ halone => ?_⟩
        have hsingle := halone.single (by rw [← htop]; exact List.mem_cons_self)
        injection hsingle with _ hbelow
        rw [List.map_reverse, hbelow, List.reverse_nil]
      · have hmoves := moves_of_step hstep
        cases action with
        | accept => exact absurd rfl hother
        | shift relation =>
            obtain ⟨next, rest, rfl, hb⟩ := h.shift hbuilt hmoves
            obtain ⟨before, hright, hcount, hempty⟩ := ih hb hlater
            have hrow :
                row (next :: stack) rest = row stack (next :: rest) := by
              simp [row]
            rw [hrow] at hright
            refine ⟨before, hright, ?_, fun out halone =>
              hempty out (halone.shift out h hmoves)⟩
            cases hmoves
            exact hcount
        | reduce lhs rhs =>
            obtain ⟨p, hp, base, below, rfl, rfl, hbase, hfull, rfl, hb,
                -, hless⟩ :=
              h.reduce hbuilt hmoves
            obtain ⟨before, hright, hcount, hempty⟩ := ih hb hlater
            have hrow : row (p.entry base :: below) input =
                below.reverse.map Entry.symbol ++
                  p.lhs :: input.map Entry.symbol := by
              simp [row, Production.entry]
            rw [hrow] at hright
            have hreduced : Parsed.reduced { later with
                steps := recorded a (.reduce p.lhs p.rhs) b :: later.steps } =
                (p.lhs, p.rhs) :: later.reduced := rfl
            rw [hreduced, List.reverse_cons, row_of_reduce hbase]
            refine ⟨before, hright.snoc hp hb.terminals, ?_, fun out halone =>
              hempty out (halone.reduce out hp hbase hfull hless)⟩
            show later.reductions = _
            rw [hcount, hmoves.reductions_eq, List.length_cons]
            omega

end Automaton

end Reckon
