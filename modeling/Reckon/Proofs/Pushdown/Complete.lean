import Reckon.Proofs.Pushdown.Moves
import Reckon.Proofs.Syntax.Edges

/-!
# What the automaton accepts

Entered in the first state of a part, the automaton reads the words of any tree
of that part and comes to the part's last state; so it accepts the tree with
what is behind it if it accepts what is behind it from there. Proofs go
backwards through a program, from what is accepted at the end to what is
accepted at the start, and along a tree by induction on it.

The automaton does not tell products from sums, nor conjunctions from the
conditions they are part of. The tiers of a tree share their states therefore.
-/

namespace Reckon.Pushdown

variable {s r : List Token} {k : List State}

theorem accepts_word {p q : Pushdown} {t : Token} {x : Lexeme} {o : Offer}
    {move : Move} (ht : t.lexeme? = some x)
    (hedge : ∀ line index, p.edge? (some (.word x line index)) = some (o, move))
    (htake : p.take move = .ok q) (hq : Accepts q r) : Accepts p (t :: r) := by
  obtain ⟨line, index, rfl⟩ := Token.eq_word_of_lexeme? ht
  exact accepts_of_edge (hedge line index) htake hq

theorem edge?_eq_none {p : Pushdown}
    (h : ∀ e ∈ p.state.row.edges, ¬e.1.fits r.head? = true) :
    p.edge? r.head? = none :=
  List.find?_eq_none.mpr h

/-! ## Arithmetic and conditions -/

theorem edge?_operator (h : Ends (.chain .sum) r) :
    edge? ⟨.operator, k⟩ r.head? = none := by
  refine edge?_eq_none fun e he hfits => ?_
  simp only [State.row, List.map_cons, List.map_nil, List.mem_cons,
    List.not_mem_nil, or_false] at he
  rcases he with rfl | rfl | rfl | rfl
  · exact h .add (by decide) (Offer.fits_keyword.mp hfits)
  · exact h .sub (by decide) (Offer.fits_keyword.mp hfits)
  · exact h .mul (by decide) (Offer.fits_keyword.mp hfits)
  · exact h .div (by decide) (Offer.fits_keyword.mp hfits)

/-- Behind arithmetic the automaton returns unless an operator follows. -/
theorem accepts_operator {back : State} (h : Ends (.chain .sum) r)
    (hq : Accepts ⟨back, k⟩ r) : Accepts ⟨.operator, back :: k⟩ r :=
  accepts_of_fall (edge?_operator h) rfl hq

theorem accepts_condNext {back : State} (h : Ends (.chain .condition) r)
    (hq : Accepts ⟨back, k⟩ r) : Accepts ⟨.condNext, back :: k⟩ r := by
  refine accepts_of_fall (edge?_eq_none fun e he hfits => ?_) rfl hq
  simp only [State.row, List.mem_cons, List.not_mem_nil, or_false] at he
  rcases he with rfl | rfl
  · exact h .and (by decide) (Offer.fits_keyword.mp hfits)
  · exact h .or (by decide) (Offer.fits_keyword.mp hfits)

/-- The state in which a tier is entered. -/
def entry : Tier → State
  | .factor | .chain .product => .operand
  | .chain .sum => .exprStart
  | .test | .chain .conjunction | .chain .condition => .condStart

/-- The state in which a tier has been read. -/
def exit : Tier → State
  | .factor | .chain .product | .chain .sum => .operator
  | .test | .chain .conjunction | .chain .condition => .condNext

theorem accepts_exprStart (h : firstLexeme s ≠ some (.keyword "-"))
    (hq : Accepts ⟨.operand, k⟩ s) : Accepts ⟨.exprStart, k⟩ s := by
  refine accepts_of_fall (edge?_eq_none fun e he hfits => ?_) rfl hq
  obtain rfl := List.mem_singleton.mp he
  exact h (Offer.fits_keyword.mp hfits)

theorem accepts_condStart (hturn : firstLexeme s ≠ some (.keyword "!"))
    (hopen : firstLexeme s ≠ some (.keyword "["))
    (hq : Accepts ⟨.exprStart, .relop :: k⟩ s) : Accepts ⟨.condStart, k⟩ s := by
  refine accepts_of_fall (edge?_eq_none fun e he hfits => ?_) rfl hq
  simp only [State.row, List.mem_cons, List.not_mem_nil, or_false] at he
  rcases he with rfl | rfl
  · exact hturn (Offer.fits_keyword.mp hfits)
  · exact hopen (Offer.fits_keyword.mp hfits)

/-- An operator of a level leads from behind a list to the next item. -/
theorem accepts_join {l : Level} (o : l.Operator) {t : Token}
    (ht : t.lexeme? = some (.keyword o.val.text))
    (hq : Accepts ⟨entry l.below, k⟩ r) :
    Accepts ⟨exit (.chain l), k⟩ (t :: r) := by
  obtain ⟨o, ho⟩ := o
  cases l with
  | product =>
      simp only [Level.operators, List.mem_cons, List.not_mem_nil,
        or_false] at ho
      rcases ho with rfl | rfl
      · exact accepts_word ht (fun _ _ => rfl) rfl hq
      · exact accepts_word ht (fun _ _ => rfl) rfl hq
  | sum =>
      simp only [Level.operators, List.mem_cons, List.not_mem_nil,
        or_false] at ho
      rcases ho with rfl | rfl
      · exact accepts_word ht (fun _ _ => rfl) rfl hq
      · exact accepts_word ht (fun _ _ => rfl) rfl hq
  | conjunction =>
      obtain rfl := List.mem_singleton.mp ho
      exact accepts_word ht (fun _ _ => rfl) rfl hq
  | condition =>
      obtain rfl := List.mem_singleton.mp ho
      exact accepts_word ht (fun _ _ => rfl) rfl hq

theorem accepts_relop (o : Comparison) {t : Token}
    (ht : t.lexeme? = some (.keyword o.val.text))
    (hq : Accepts ⟨.exprStart, .condNext :: k⟩ r) :
    Accepts ⟨.relop, k⟩ (t :: r) := by
  obtain ⟨o, ho⟩ := o
  simp only [Binary.comparisons, List.mem_cons, List.not_mem_nil,
    or_false] at ho
  rcases ho with rfl | rfl | rfl | rfl | rfl | rfl <;>
    exact accepts_word ht (fun _ _ => rfl) rfl hq

/-- What has to be known of the words behind a tree: behind a condition no
arithmetic goes on. -/
def Clear (t : Tier) (r : List Token) : Prop :=
  exit t = .condNext → Ends (.chain .sum) r

theorem accepts_formula {t : Tier} (e : Formula t) :
    ∀ (s r : List Token) (k : List State), Reads s e.lexemes r → Clear t r →
      Accepts ⟨exit t, k⟩ r → Accepts ⟨entry t, k⟩ s := by
  induction e with
  | name x =>
      intro s r k hreads _ hq
      obtain ⟨t, _, rfl, ht, hnil⟩ := reads_cons_iff.mp hreads
      obtain rfl := reads_nil_iff.mp hnil
      exact accepts_word ht (fun _ _ => rfl) rfl hq
  | constant v =>
      intro s r k hreads _ hq
      obtain ⟨t, _, rfl, ht, hnil⟩ := reads_cons_iff.mp hreads
      obtain rfl := reads_nil_iff.mp hnil
      exact accepts_word ht (fun _ _ => rfl) rfl hq
  | group e ih =>
      intro s r k hreads _ hq
      obtain ⟨t, m, rfl, ht, hm⟩ := reads_cons_iff.mp hreads
      obtain ⟨v, he, hv⟩ := reads_append_iff.mp hm
      have hends : Ends (.chain .sum) v := ends_of_first hv.first (by decide)
      obtain ⟨u, _, rfl, hu, hnil⟩ := reads_cons_iff.mp hv
      obtain rfl := reads_nil_iff.mp hnil
      have hclose : Accepts ⟨.closeParen, k⟩ (u :: _) :=
        accepts_word hu (fun _ _ => rfl) rfl hq
      exact accepts_word ht (fun _ _ => rfl) rfl
        (ih m _ _ he (fun _ => hends) (accepts_operator hends hclose))
  | compare a o b iha ihb =>
      intro s r k hreads hclear hq
      obtain ⟨m, ha, hm⟩ := reads_append_iff.mp hreads
      have hends := ends_of_comparison o hm.first
      obtain ⟨t, v, rfl, ht, hb⟩ := reads_cons_iff.mp hm
      have hright := ihb v r (.condNext :: k) hb (fun h => nomatch h)
        (accepts_operator (hclear rfl) hq)
      exact accepts_condStart (ha.first_ne (by decide))
        (ha.first_ne (by decide)) (iha s _ _ ha (fun h => nomatch h)
          (accepts_operator hends (accepts_relop o ht hright)))
  | bracket c ih =>
      intro s r k hreads _ hq
      obtain ⟨t, m, rfl, ht, hm⟩ := reads_cons_iff.mp hreads
      obtain ⟨v, hc, hv⟩ := reads_append_iff.mp hm
      have hends : Ends (.chain .condition) v :=
        ends_of_first hv.first (by decide)
      have hsum : Ends (.chain .sum) v := ends_of_first hv.first (by decide)
      obtain ⟨u, _, rfl, hu, hnil⟩ := reads_cons_iff.mp hv
      obtain rfl := reads_nil_iff.mp hnil
      have hclose : Accepts ⟨.condClose, k⟩ (u :: _) :=
        accepts_word hu (fun _ _ => rfl) rfl hq
      exact accepts_word ht (fun _ _ => rfl) rfl
        (ih m _ _ hc (fun _ => hsum) (accepts_condNext hends hclose))
  | not a ih =>
      intro s r k hreads hclear hq
      obtain ⟨t, m, rfl, ht, ha⟩ := reads_cons_iff.mp hreads
      exact accepts_word ht (fun _ _ => rfl) rfl (ih m r k ha hclear hq)
  | @only l a ih =>
      intro s r k hreads hclear hq
      cases l with
      | product => exact ih s r k hreads (fun h => nomatch h) hq
      | sum =>
          exact accepts_exprStart (hreads.first_ne (e := a) (by decide))
            (ih s r k hreads (fun h => nomatch h) hq)
      | conjunction => exact ih s r k hreads hclear hq
      | condition => exact ih s r k hreads hclear hq
  | negated a ih =>
      intro s r k hreads _ hq
      obtain ⟨t, m, rfl, ht, ha⟩ := reads_cons_iff.mp hreads
      exact accepts_word ht (fun _ _ => rfl) rfl
        (ih m r k ha (fun h => nomatch h) hq)
  | @join l a o b iha ihb =>
      intro s r k hreads hclear hq
      obtain ⟨m, ha, hm⟩ := reads_append_iff.mp hreads
      have hfirst := hm.first
      obtain ⟨t, v, rfl, ht, hb⟩ := reads_cons_iff.mp hm
      cases l with
      | product =>
          exact iha s _ k ha (fun h => nomatch h)
            (accepts_join o ht (ihb v r k hb (fun h => nomatch h) hq))
      | sum =>
          exact iha s _ k ha (fun h => nomatch h)
            (accepts_join o ht (ihb v r k hb (fun h => nomatch h) hq))
      | conjunction =>
          have hends : Ends .test (t :: v) := ends_of_operator o hfirst
          exact iha s _ k ha (fun _ => hends)
            (accepts_join o ht (ihb v r k hb hclear hq))
      | condition =>
          have hends := ends_of_operator o hfirst
          exact iha s _ k ha (fun _ => hends.below (l := .conjunction))
            (accepts_join o ht (ihb v r k hb hclear hq))

theorem accepts_expression {e : Expression} {back : State}
    (hreads : Reads s e.lexemes r) (hends : Ends (.chain .sum) r)
    (hq : Accepts ⟨back, k⟩ r) : Accepts ⟨.exprStart, back :: k⟩ s :=
  accepts_formula e s r _ hreads (fun _ => hends) (accepts_operator hends hq)

theorem accepts_condition {c : Condition} {back : State}
    (hreads : Reads s c.lexemes r) (hends : Ends (.chain .condition) r)
    (hq : Accepts ⟨back, k⟩ r) : Accepts ⟨.condStart, back :: k⟩ s :=
  accepts_formula c s r _ hreads
    (fun _ => hends.below.below (l := .conjunction))
    (accepts_condNext hends hq)

/-! ## Statements -/

theorem accepts_names (names : List String) {mover : State}
    (hmover : mover = .ioNext ∨ mover = .defNext) :
    ∀ s, Reads s (names.flatMap fun x => [.keyword ",", .identifier x]) r →
      Accepts ⟨mover, k⟩ r → Accepts ⟨mover, k⟩ s := by
  induction names with
  | nil =>
      intro s hreads hq
      obtain rfl := reads_nil_iff.mp hreads
      exact hq
  | cons x names ih =>
      intro s hreads hq
      rw [List.flatMap_cons] at hreads
      obtain ⟨t, _, rfl, ht, hm⟩ := reads_cons_iff.mp hreads
      obtain ⟨u, v, rfl, hu, hv⟩ := reads_cons_iff.mp hm
      have hlater := ih v hv hq
      rcases hmover with rfl | rfl
      · have hname : Accepts ⟨.ioId, k⟩ (u :: v) :=
          accepts_word hu (fun _ _ => rfl) rfl hlater
        exact accepts_word ht (fun _ _ => rfl) rfl hname
      · have hname : Accepts ⟨.defId, k⟩ (u :: v) :=
          accepts_word hu (fun _ _ => rfl) rfl hlater
        exact accepts_word ht (fun _ _ => rfl) rfl hname

/-- Where blocks of statements stand. -/
inductive Region where
  | body
  | loop

namespace Region

/-- In front of the first line break. -/
def opened : Region → State
  | body => .bodyOpen
  | loop => .loopBody

/-- Behind a statement. -/
def line : Region → State
  | body => .bodyLine
  | loop => .loopLine

/-- Behind a later line break. -/
def next : Region → State
  | body => .bodyNext
  | loop => .loopNext

end Region

/-- A further line is a statement unless a closing word comes first. -/
theorem accepts_nextLine (region : Region)
    (hfirst : ∀ text ∈ closing, firstLexeme s ≠ some (.keyword text))
    (hq : Accepts ⟨.statement, region.line :: k⟩ s) :
    Accepts ⟨region.next, k⟩ s := by
  cases region with
  | body =>
      refine accepts_of_fall (edge?_eq_none fun e he hfits => ?_) rfl hq
      obtain rfl := List.mem_singleton.mp he
      exact hfirst "end" (by decide) (Offer.fits_keyword.mp hfits)
  | loop =>
      refine accepts_of_fall (edge?_eq_none fun e he hfits => ?_) rfl hq
      obtain rfl := List.mem_singleton.mp he
      exact hfirst "next" (by decide) (Offer.fits_keyword.mp hfits)

/-- What is accepted in front of statements of an extent, if `r` is accepted
behind them. -/
def AcceptsStmt (x : Extent) (s r : List Token) (k : List State) : Prop :=
  match x with
  | .bare => ∀ back state, state = .statement ∨ state = .unlabelled →
      Accepts ⟨back, k⟩ r → Accepts ⟨state, back :: k⟩ s
  | .line => ∀ back, Accepts ⟨back, k⟩ r → Accepts ⟨.statement, back :: k⟩ s
  | .block => ∀ region : Region,
      Accepts ⟨region.line, k⟩ r → Accepts ⟨region.opened, k⟩ s

theorem accepts_transfer {kind : Transfer} {n : Names}
    (hreads : Reads s (Stmt.transfer kind n).lexemes r) :
    AcceptsStmt .bare s r k := by
  intro back state hstate hq
  obtain ⟨t, _, rfl, ht, hm⟩ := reads_cons_iff.mp hreads
  obtain ⟨u, v, rfl, hu, hv⟩ := reads_cons_iff.mp hm
  obtain ⟨w, hnames, hw⟩ := reads_append_iff.mp hv
  obtain ⟨t₁, _, rfl, h₁, hnil⟩ := reads_cons_iff.mp hw
  obtain rfl := reads_nil_iff.mp hnil
  have hclose : Accepts ⟨.ioNext, back :: k⟩ (t₁ :: _) :=
    accepts_word h₁ (fun _ _ => rfl) rfl hq
  unfold Names.lexemes Names.toList at hnames
  rw [List.flatMap_cons] at hnames
  obtain ⟨t₂, _, rfl, h₂, hm⟩ := reads_cons_iff.mp hnames
  obtain ⟨t₃, v, rfl, h₃, hv⟩ := reads_cons_iff.mp hm
  have hothers := accepts_names n.others (.inl rfl) v hv hclose
  have hname : Accepts ⟨.ioId, back :: k⟩ (t₃ :: v) :=
    accepts_word h₃ (fun _ _ => rfl) rfl hothers
  have hcomma : Accepts ⟨.ioComma, back :: k⟩ (t₂ :: t₃ :: v) :=
    accepts_word h₂ (fun _ _ => rfl) rfl hname
  have hopen : Accepts ⟨.ioOpen, back :: k⟩ (u :: t₂ :: t₃ :: v) :=
    accepts_word hu (fun _ _ => rfl) rfl hcomma
  rcases hstate with rfl | rfl <;> cases kind <;>
    exact accepts_word ht (fun _ _ => rfl) rfl hopen

theorem accepts_stmt {x : Extent} (a : Stmt x) :
    ∀ (s r : List Token) (k : List State), Reads s a.lexemes r →
      firstLexeme r = some (.keyword lineBreak) → AcceptsStmt x s r k := by
  induction a with
  | assign x e =>
      intro s r k hreads hbreak back state hstate hq
      obtain ⟨t, _, rfl, ht, hm⟩ := reads_cons_iff.mp hreads
      obtain ⟨u, v, rfl, hu, he⟩ := reads_cons_iff.mp hm
      have hvalue : Accepts ⟨.assignEq, back :: k⟩ (u :: v) :=
        accepts_word hu (fun _ _ => rfl) rfl
          (accepts_expression he (ends_of_first hbreak (by decide)) hq)
      rcases hstate with rfl | rfl <;>
        exact accepts_word ht (fun _ _ => rfl) rfl hvalue
  | transfer kind names =>
      intro s r k hreads _
      exact accepts_transfer hreads
  | branch c target =>
      intro s r k hreads _ back state hstate hq
      obtain ⟨t, v, rfl, ht, hv⟩ := reads_cons_iff.mp hreads
      obtain ⟨w, hc, hw⟩ := reads_append_iff.mp hv
      have hends : Ends (.chain .condition) w :=
        ends_of_first hw.first (by decide)
      obtain ⟨t₁, _, rfl, h₁, hw⟩ := reads_cons_iff.mp hw
      obtain ⟨t₂, _, rfl, h₂, hw⟩ := reads_cons_iff.mp hw
      obtain ⟨t₃, _, rfl, h₃, hnil⟩ := reads_cons_iff.mp hw
      obtain rfl := reads_nil_iff.mp hnil
      have hlabel : Accepts ⟨.ifLabel, back :: k⟩ (t₃ :: _) :=
        accepts_word h₃ (fun _ _ => rfl) rfl hq
      have hgoto : Accepts ⟨.ifGoto, back :: k⟩ (t₂ :: t₃ :: _) :=
        accepts_word h₂ (fun _ _ => rfl) rfl hlabel
      have hthen : Accepts ⟨.ifThen, back :: k⟩ (t₁ :: t₂ :: t₃ :: _) :=
        accepts_word h₁ (fun _ _ => rfl) rfl hgoto
      have htest := accepts_condition hc hends hthen
      rcases hstate with rfl | rfl <;>
        exact accepts_word ht (fun _ _ => rfl) rfl htest
  | loop x first last body ih =>
      intro s r k hreads _ back state hstate hq
      obtain ⟨t₁, _, rfl, h₁, hm⟩ := reads_cons_iff.mp hreads
      obtain ⟨t₂, _, rfl, h₂, hm⟩ := reads_cons_iff.mp hm
      obtain ⟨t₃, v, rfl, h₃, hm⟩ := reads_cons_iff.mp hm
      obtain ⟨w, hfirst, hm⟩ := reads_append_iff.mp hm
      have hto : Ends (.chain .sum) w := ends_of_first hm.first (by decide)
      obtain ⟨t₄, q, rfl, h₄, hm⟩ := reads_cons_iff.mp hm
      obtain ⟨b, hlast, hm⟩ := reads_append_iff.mp hm
      obtain ⟨m, hbody, hm⟩ := reads_append_iff.mp hm
      have hbreak : firstLexeme b = some (.keyword lineBreak) := by
        obtain ⟨rest, hrest⟩ := body.exists_lexemes_block
        rw [hrest] at hbody
        exact hbody.first
      have hend := hm.first
      obtain ⟨t₅, _, rfl, h₅, hm⟩ := reads_cons_iff.mp hm
      obtain ⟨t₆, _, rfl, h₆, hnil⟩ := reads_cons_iff.mp hm
      obtain rfl := reads_nil_iff.mp hnil
      have hnext : Accepts ⟨.loopNext, back :: k⟩ (t₆ :: _) :=
        accepts_word h₆ (fun _ _ => rfl) rfl hq
      have hline : Accepts ⟨.loopLine, back :: k⟩ (t₅ :: t₆ :: _) :=
        accepts_word h₅ (fun _ _ => rfl) rfl hnext
      have hblock := ih b _ (back :: k) hbody hend .loop hline
      have hlimit : Accepts ⟨.loopTo, back :: k⟩ (t₄ :: q) :=
        accepts_word h₄ (fun _ _ => rfl) rfl (accepts_expression hlast
          (ends_of_first hbreak (by decide)) hblock)
      have hstart : Accepts ⟨.loopEq, back :: k⟩ (t₃ :: v) :=
        accepts_word h₃ (fun _ _ => rfl) rfl
          (accepts_expression hfirst hto hlimit)
      have hname : Accepts ⟨.loopVar, back :: k⟩ (t₂ :: t₃ :: v) :=
        accepts_word h₂ (fun _ _ => rfl) rfl hstart
      rcases hstate with rfl | rfl <;>
        exact accepts_word h₁ (fun _ _ => rfl) rfl hname
  | plain a ih =>
      intro s r k hreads hbreak back hq
      exact ih s r k hreads hbreak back .statement (.inl rfl) hq
  | labelled x a ih =>
      intro s r k hreads hbreak back hq
      obtain ⟨t, _, rfl, ht, hm⟩ := reads_cons_iff.mp hreads
      obtain ⟨u, v, rfl, hu, ha⟩ := reads_cons_iff.mp hm
      have hcolon : Accepts ⟨.labelColon, back :: k⟩ (u :: v) :=
        accepts_word hu (fun _ _ => rfl) rfl
          (ih v r k ha hbreak back .unlabelled (.inr rfl) hq)
      exact accepts_word ht (fun _ _ => rfl) rfl hcolon
  | one a ih =>
      intro s r k hreads hbreak region hq
      obtain ⟨t, v, rfl, ht, ha⟩ := reads_cons_iff.mp hreads
      have hline := ih v r k ha hbreak region.line hq
      cases region <;> exact accepts_word ht (fun _ _ => rfl) rfl hline
  | more b a ihb iha =>
      intro s r k hreads hbreak region hq
      obtain ⟨m, hb, hm⟩ := reads_append_iff.mp hreads
      have hfirst := hm.first
      obtain ⟨t, v, rfl, ht, ha⟩ := reads_cons_iff.mp hm
      have hline := iha v r k ha hbreak region.line hq
      have hnext := accepts_nextLine region (Stmt.first_not_closing ha) hline
      refine ihb s (t :: v) k hb hfirst region ?_
      cases region <;> exact accepts_word ht (fun _ _ => rfl) rfl hnext

/-! ## Programs -/

theorem accepts_definition {n : Names}
    (hreads : Reads s (n.lexemes ++ [.keyword ":", .keyword "float"]) r)
    (hq : Accepts ⟨.defEnd, k⟩ r) : Accepts ⟨.defStart, k⟩ s := by
  obtain ⟨w, hnames, hw⟩ := reads_append_iff.mp hreads
  obtain ⟨t₃, _, rfl, h₃, hw⟩ := reads_cons_iff.mp hw
  obtain ⟨t₄, _, rfl, h₄, hnil⟩ := reads_cons_iff.mp hw
  obtain rfl := reads_nil_iff.mp hnil
  unfold Names.lexemes Names.toList at hnames
  rw [List.flatMap_cons] at hnames
  obtain ⟨t₁, _, rfl, h₁, hm⟩ := reads_cons_iff.mp hnames
  obtain ⟨t₂, v, rfl, h₂, hothers⟩ := reads_cons_iff.mp hm
  have htype : Accepts ⟨.defType, k⟩ (t₄ :: _) :=
    accepts_word h₄ (fun _ _ => rfl) rfl hq
  have hcolon : Accepts ⟨.defNext, k⟩ (t₃ :: t₄ :: _) :=
    accepts_word h₃ (fun _ _ => rfl) rfl htype
  have hname : Accepts ⟨.defId, k⟩ (t₂ :: v) :=
    accepts_word h₂ (fun _ _ => rfl) rfl
      (accepts_names n.others (.inr rfl) v hothers hcolon)
  exact accepts_word h₁ (fun _ _ => rfl) rfl hname

theorem accepts_definitions (d : Definitions) : ∀ s r : List Token,
    Reads s d.lexemes r → Accepts ⟨.defEnd, k⟩ r →
    Accepts ⟨.defStart, k⟩ s := by
  induction d with
  | one n =>
      intro s r hreads hq
      exact accepts_definition hreads hq
  | more d n ih =>
      intro s r hreads hq
      obtain ⟨m, hd, hm⟩ := reads_append_iff.mp hreads
      obtain ⟨t, v, rfl, ht, hn⟩ := reads_cons_iff.mp hm
      refine ih s _ hd (accepts_word ht (fun _ _ => rfl) rfl ?_)
      exact accepts_definition hn hq

theorem accepts_source {source : Source} (hspells : Spells s source.lexemes) :
    Accepts ⟨.start, []⟩ s := by
  have hm := spells_iff_reads.mp hspells
  obtain ⟨t₁, _, rfl, h₁, hm⟩ := reads_cons_iff.mp hm
  obtain ⟨t₂, _, rfl, h₂, hm⟩ := reads_cons_iff.mp hm
  obtain ⟨t₃, _, rfl, h₃, hm⟩ := reads_cons_iff.mp hm
  obtain ⟨t₄, v, rfl, h₄, hm⟩ := reads_cons_iff.mp hm
  obtain ⟨w, hd, hm⟩ := reads_append_iff.mp hm
  obtain ⟨t₅, _, rfl, h₅, hm⟩ := reads_cons_iff.mp hm
  obtain ⟨t₆, b, rfl, h₆, hm⟩ := reads_cons_iff.mp hm
  obtain ⟨m, hbody, hm⟩ := reads_append_iff.mp hm
  have hbreak := hm.first
  obtain ⟨t₇, _, rfl, h₇, hm⟩ := reads_cons_iff.mp hm
  obtain ⟨t₈, _, rfl, h₈, hnil⟩ := reads_cons_iff.mp hm
  obtain rfl := reads_nil_iff.mp hnil
  have hdone : Accepts ⟨.done, []⟩ [] := accepts_of_edge rfl rfl trivial
  have hend : Accepts ⟨.bodyNext, []⟩ [t₈] :=
    accepts_word h₈ (fun _ _ => rfl) rfl hdone
  have hline : Accepts ⟨.bodyLine, []⟩ [t₇, t₈] :=
    accepts_word h₇ (fun _ _ => rfl) rfl hend
  have hlines := accepts_stmt source.body b _ [] hbody hbreak .body hline
  have hbegin : Accepts ⟨.begin, []⟩ (t₆ :: b) :=
    accepts_word h₆ (fun _ _ => rfl) rfl hlines
  have hdefined : Accepts ⟨.defEnd, []⟩ (t₅ :: t₆ :: b) :=
    accepts_word h₅ (fun _ _ => rfl) rfl hbegin
  have hvar : Accepts ⟨.var, []⟩ (t₄ :: v) :=
    accepts_word h₄ (fun _ _ => rfl) rfl
      (accepts_definitions source.definitions v _ hd hdefined)
  have hheader : Accepts ⟨.headerEnd, []⟩ (t₃ :: t₄ :: v) :=
    accepts_word h₃ (fun _ _ => rfl) rfl hvar
  have hname : Accepts ⟨.programName, []⟩ (t₂ :: t₃ :: t₄ :: v) :=
    accepts_word h₂ (fun _ _ => rfl) rfl hheader
  exact accepts_word h₁ (fun _ _ => rfl) rfl hname

end Reckon.Pushdown
