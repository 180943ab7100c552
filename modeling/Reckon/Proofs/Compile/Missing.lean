import Reckon.Proofs.Compile.Lone

/-!
# Variables without a value

A name is pushed without being looked up, and the operation that takes it from
the stack looks for its value. So a formula with variables that have no value is
stopped by one of them, unless there is no operation at all: then the text is a
single name, perhaps in round brackets, the run ends with the name on the stack,
and there is no result.

Which of the missing variables is reported depends on the order of the
operations. All that is kept track of in the induction is that it is one of the
formula. Code that is not stopped leaves an operand that *remains* of its words:
a number, all variables then having had a value, or the name itself.
-/

namespace Reckon

variable {p : Program} {m m' : Machine} {store : Store} {k k' k'' : Nat}
  {s : List Operand} {o o' : Operand} {v w : Single} {x y text : String}
  {rest : List Item} {words others : List Lexeme} {bare bare' bare'' : Bool}
  {t : Tier}

/-! ## Operations without a value -/

theorem Machine.popNumber_missing (m : Machine) {op : Op}
    {next : Single → Machine → Outcome} (h : m.store.get? x = none) :
    (m.standing k (.name x :: s)).popNumber op next =
      .fault (.undefinedVariable x) (m.standing k s) := by
  simp only [popNumber, pop, standing, h]

/-- An operation that takes a number before anything else faults at a name
without a value. -/
theorem faults_of_popNumber {op : Op}
    {next : Single → Machine → Machine.Outcome} (hop : p.ops[k]? = some op)
    (hperform : ∀ (m : Machine) behind,
      m.perform p op behind = m.popNumber op next)
    (hx : m.store.get? x = none) :
    Faults p (m.standing k (.name x :: s)) (.undefinedVariable x)
      (m.standing k s) := by
  refine faults_of_perform hop fun n => ?_
  rw [hperform, Machine.popNumber_missing { m with steps := n } hx]
  rfl

theorem faults_neg (h : Seg p k (.op .neg :: rest))
    (hx : m.store.get? x = none) :
    Faults p (m.standing k (.name x :: s)) (.undefinedVariable x)
      (m.standing k s) :=
  faults_of_popNumber h.op (fun _ _ => rfl) hx

theorem faults_not (h : Seg p k (.op .not :: rest))
    (hx : m.store.get? x = none) :
    Faults p (m.standing k (.name x :: s)) (.undefinedVariable x)
      (m.standing k s) :=
  faults_of_popNumber h.op (fun _ _ => rfl) hx

/-- The second operand is looked up first. -/
theorem faults_binary_second {operator : Binary}
    (h : Seg p k (.op (.binary operator) :: rest))
    (hx : m.store.get? x = none) :
    Faults p (m.standing k (.name x :: s)) (.undefinedVariable x)
      (m.standing k s) :=
  faults_of_popNumber h.op (fun _ _ => rfl) hx

theorem faults_binary_first {operator : Binary}
    (h : Seg p k (.op (.binary operator) :: rest)) (ho : Denotes m.store o v)
    (hx : m.store.get? x = none) :
    Faults p (m.standing k (o :: .name x :: s)) (.undefinedVariable x)
      (m.standing k s) := by
  refine faults_of_perform h.op fun n => ?_
  rw [Machine.perform, Machine.popNumber_standing { m with steps := n } ho,
    Machine.popNumber_missing { m with steps := n } hx]
  rfl

/-! ## Words and their variables -/

/-- All variables among some words have values. -/
def Knows (store : Store) (words : List Lexeme) : Prop :=
  ∀ x, .identifier x ∈ words → (store.get? x).isSome

/-- The variables of some words are among those of others. -/
def NamesWithin (words others : List Lexeme) : Prop :=
  ∀ x, .identifier x ∈ words → .identifier x ∈ others

/-- One identifier between so many pairs of round brackets. -/
def wrapped (n : Nat) (x : String) : List Lexeme :=
  List.replicate n (.keyword "(") ++ .identifier x :: List.replicate n
    (.keyword ")")

theorem mem_wrapped {n : Nat} : .identifier y ∈ wrapped n x ↔ y = x := by
  simp [wrapped, List.mem_replicate]

theorem wrapped_succ (n : Nat) (x : String) :
    wrapped (n + 1) x = .keyword "(" :: (wrapped n x ++ [.keyword ")"]) := by
  rw [wrapped, List.replicate_succ, List.replicate_succ']
  simp [wrapped]

/-- The tree of such words. -/
def Formula.bareName (x : String) : Nat → Expression
  | 0 => .only (.only (.name x))
  | n + 1 => .only (.only (.group (bareName x n)))

theorem Formula.lexemes_bareName (n : Nat) :
    (bareName x n).lexemes = wrapped n x := by
  induction n with
  | zero => rfl
  | succ n ih =>
      rw [wrapped_succ, ← ih]
      rfl

theorem Formula.code_bareName (n : Nat) :
    (bareName x n).code false = [.op (.name x)] := by
  induction n with
  | zero => rfl
  | succ n ih => exact (List.append_nil _).trans ih

/-- What can be left on the stack of some words that have been evaluated. A name
is left only if it may be, and if it is all there was. -/
inductive Remains (store : Store) (bare : Bool) (words : List Lexeme) :
    Operand → Prop where
  | number (v : Single) :
      Knows store words → Remains store bare words (.number v)
  | name {n : Nat} {x : String} :
      bare = true → words = wrapped n x → Remains store bare words (.name x)

/-- What remains can be taken for a number, or it is a missing variable. -/
theorem Remains.fetch (h : Remains store bare words o) :
    (Knows store words ∧ ∃ v, Denotes store o v) ∨
      ∃ x, o = .name x ∧ .identifier x ∈ words ∧ store.get? x = none := by
  cases h with
  | number v hknows => exact .inl ⟨hknows, v, .number v⟩
  | @name n x _ hwords =>
      subst hwords
      cases hx : store.get? x with
      | none => exact .inr ⟨x, rfl, mem_wrapped.mpr rfl, hx⟩
      | some v =>
          refine .inl ⟨fun y hy => ?_, v, .name hx⟩
          rw [mem_wrapped.mp hy, hx]
          rfl

/-! ## Attempts -/

/-- From a machine on, a run is stopped by a variable among some words that has
no value, and none of the variables has changed. -/
def Misses (p : Program) (m : Machine) (words : List Lexeme) : Prop :=
  ∃ x m' m'', .identifier x ∈ words ∧ m.store.get? x = none ∧ Reaches p m m' ∧
    Faults p m' (.undefinedVariable x) m'' ∧ m''.store = m.store

theorem Misses.within (h : Misses p m words)
    (hwithin : NamesWithin words others) : Misses p m others := by
  obtain ⟨x, m', m'', hx, hmissing⟩ := h
  exact ⟨x, m', m'', hwithin x hx, hmissing⟩

theorem Misses.before (hreach : Reaches p m m') (hstore : m'.store = m.store)
    (h : Misses p m' words) : Misses p m words := by
  obtain ⟨x, u, u', hx, hmissing, hlater, hfaults, hkeeps⟩ := h
  exact ⟨x, u, u', hx, hstore ▸ hmissing, hreach.trans hlater, hfaults,
    hkeeps.trans hstore⟩

/-- Code of some words is run: it is stopped by a missing variable, or something
remains. -/
inductive Attempts (p : Program) (m : Machine) (bare : Bool)
    (words : List Lexeme) (k : Nat) (s : List Operand) (k' : Nat) : Prop where
  | misses : Misses p (m.standing k s) words → Attempts p m bare words k s k'
  | remains {o : Operand} : Remains m.store bare words o →
      Reaches p (m.standing k s) (m.standing k' (o :: s)) →
      Attempts p m bare words k s k'

namespace Attempts

/-- Words around others that put out nothing. No name was left. -/
theorem enclosed (h : Attempts p m false words k s k')
    (hwithin : NamesWithin words others) (hback : NamesWithin others words) :
    Attempts p m bare others k s k' := by
  cases h with
  | misses hmisses => exact .misses (hmisses.within hwithin)
  | remains hremains hreach =>
      cases hremains with
      | number v hknows =>
          exact .remains (.number v fun x hx => hknows x (hback x hx)) hreach
      | name hbare => cases hbare

/-- Round brackets put out nothing. -/
theorem grouped (h : Attempts p m bare words k s k') :
    Attempts p m bare (.keyword "(" :: (words ++ [.keyword ")"])) k s k' := by
  cases h with
  | misses hmisses => exact .misses (hmisses.within fun x hx => by simp [hx])
  | remains hremains hreach =>
      refine .remains ?_ hreach
      cases hremains with
      | number v hknows =>
          exact .number v fun x hx => hknows x (by simpa using hx)
      | @name n x hbare hwords =>
          refine .name (n := n + 1) hbare ?_
          rw [hwords, wrapped_succ]

/-- An operation takes what remains and leaves a number. -/
theorem consumed (h : Attempts p m bare words k s k')
    (hnext : ∀ {o v}, Denotes m.store o v → ∃ w,
      Next p (m.standing k' (o :: s)) (m.standing (k' + 1) (.number w :: s)))
    (hfaults : ∀ {x}, m.store.get? x = none →
      Faults p (m.standing k' (.name x :: s)) (.undefinedVariable x)
        (m.standing k' s)) :
    Attempts p m bare' words k s (k' + 1) := by
  cases h with
  | misses hmisses => exact .misses hmisses
  | remains hremains hreach =>
      rcases hremains.fetch with ⟨hknows, v, ho⟩ | ⟨x, rfl, hx, hmissing⟩
      · obtain ⟨w, hstep⟩ := hnext ho
        exact .remains (.number w hknows) (hreach.tail hstep)
      · exact .misses ⟨x, _, _, hx, hmissing, hreach, hfaults hmissing, rfl⟩

/-- A minus sign is an operation. -/
theorem signed {negative : Bool} (h : Attempts p m bare words k s k')
    (hseg : Seg p k' ((Op.signs negative).map .op)) :
    Attempts p m (bare && !negative) words k s
      (k' + Item.sizes ((Op.signs negative).map .op)) := by
  cases negative with
  | false =>
      rw [Bool.not_false, Bool.and_true]
      exact h
  | true => exact h.consumed (fun ho => ⟨_, next_neg hseg ho⟩) (faults_neg hseg)

/-- An operation takes what remains of the words on either side. -/
theorem joined {a b : List Lexeme} {operator : Binary} {text : String}
    (ha : Attempts p m bare a k s k')
    (hb : ∀ s, Attempts p m bare' b k' s k'')
    (hseg : Seg p k'' [.op (.binary operator)]) :
    Attempts p m bare'' (a ++ .keyword text :: b) k s (k'' + 1) := by
  have hleft : NamesWithin a (a ++ .keyword text :: b) :=
    fun x hx => by simp [hx]
  have hright : NamesWithin b (a ++ .keyword text :: b) :=
    fun x hx => by simp [hx]
  cases ha with
  | misses hmisses => exact .misses (hmisses.within hleft)
  | @remains o hremains hreach =>
      cases hb (o :: s) with
      | misses hmisses =>
          exact .misses ((hmisses.within hright).before hreach rfl)
      | @remains o' hremains' hreach' =>
          have hboth := hreach.trans hreach'
          rcases hremains'.fetch with ⟨hknows', w, ho'⟩ | ⟨x, rfl, hx, hmissing⟩
          · rcases hremains.fetch with ⟨hknows, v, ho⟩ | ⟨x, rfl, hx, hmissing⟩
            · refine .remains (.number _ ?_)
                (hboth.tail (next_binary hseg ho ho'))
              intro x hx
              have hside : .identifier x ∈ a ∨ .identifier x ∈ b := by
                simpa using hx
              exact hside.elim (hknows x) (hknows' x)
            · exact .misses ⟨x, _, _, hleft x hx, hmissing, hboth,
                faults_binary_first hseg ho' hmissing, rfl⟩
          · exact .misses ⟨x, _, _, hright x hx, hmissing, hboth,
              faults_binary_second hseg hmissing, rfl⟩

end Attempts

theorem Level.isTruth_below (l : Level) :
    l.below.isTruth = (Tier.chain l).isTruth := by
  cases l <;> rfl

/-- Only a number without a sign can leave its name. -/
abbrev Tier.mayBeBare (t : Tier) (negative : Bool) : Bool :=
  !t.isTruth && !negative

theorem Formula.attempts (e : Formula t) : ∀ {negative : Bool} {k : Nat}
    {s : List Operand}, Seg p k (e.code negative) →
      Attempts p m (t.mayBeBare negative) e.lexemes k s
        (k + Item.sizes (e.code negative)) := by
  induction e with
  | name x =>
      intro negative k s h
      have hname : Attempts p m true [.identifier x] k s (k + 1) :=
        .remains (.name (n := 0) rfl rfl) (.single (next_name h))
      rw [code, Item.sizes_cons, ← Nat.add_assoc]
      exact hname.signed h.tail
  | constant v =>
      intro negative k s h
      have hknows : Knows m.store [.constant v] := by
        simp [Knows]
      have hnumber : Attempts p m true [.constant v] k s (k + 1) :=
        .remains (.number _ hknows) (.single (next_number h))
      rw [code, Item.sizes_cons, ← Nat.add_assoc]
      exact hnumber.signed h.tail
  | group e ih =>
      intro negative k s h
      rw [code, Item.sizes_append, ← Nat.add_assoc]
      exact (ih h.left).grouped.signed h.right
  | compare a o b iha ihb | join a o b iha ihb =>
      intro negative k s h
      have hop := h.right
      rw [Item.sizes_append, ← Nat.add_assoc] at hop
      rw [code, Item.sizes_append, Item.sizes_append, ← Nat.add_assoc,
        ← Nat.add_assoc]
      exact (iha h.left.left).joined (fun s => ihb h.left.right) hop
  | bracket c ih =>
      intro negative k s h
      exact (ih h).enclosed (fun x hx => by simp [lexemes, hx])
        fun x hx => by simpa [lexemes] using hx
  | not a ih =>
      intro negative k s h
      have hnot :
          Attempts p m false a.lexemes k s
            (k + Item.sizes (a.code false) + 1) :=
        (ih h.left).consumed (fun ho => ⟨_, next_not h.right ho⟩)
          (faults_not h.right)
      rw [code, Item.sizes_append, ← Nat.add_assoc]
      exact hnot.enclosed (fun x hx => by simp [lexemes, hx])
        fun x hx => by simpa [lexemes] using hx
  | @only l a ih =>
      intro negative k s h
      have hattempts := ih (s := s) h
      rwa [Tier.mayBeBare, l.isTruth_below] at hattempts
  | negated a ih =>
      intro negative k s h
      exact (ih h).enclosed (fun x hx => by simp [lexemes, hx])
        fun x hx => by simpa [lexemes] using hx

/-! ## Lone formulas -/

namespace Store

theorem Evaluates.unique {store after after' : Store}
    {result result' : Except Error (Option Single)}
    (h : store.Evaluates text result after)
    (h' : store.Evaluates text result' after') :
    result = result' ∧ after = after' := by
  obtain ⟨n, hn⟩ := h
  obtain ⟨n', hn'⟩ := h'
  have hsame :=
    (hn _ (Nat.le_max_left n n')).symm.trans (hn' _ (Nat.le_max_right n n'))
  exact Prod.mk.inj (Option.some.inj hsame)

/-- A lone name without a value has no result, and that is no fault. -/
theorem evaluates_wrapped {reading : Reading} {n : Nat}
    (hread : Reading.ofText text = .ok reading)
    (hspells : Spells reading.tokens (wrapped n x))
    (hmissing : store.get? x = none) :
    store.Evaluates text (.ok none) store := by
  rw [← Formula.lexemes_bareName] at hspells
  obtain ⟨c, hc, hemits⟩ := Composer.composeBare_of_spells hspells [] .empty
  rw [Formula.code_bareName] at hemits
  have hreach :
      Reaches c.program ((Machine.start store [] none).standing 0 []) _ :=
    .single (next_name hemits.seg_start)
  obtain ⟨enough, j, hrun⟩ := Machine.run_to_end hreach hemits.getElem?_end
  have heval : store.Evaluates text (.ok (store.get? x)) store :=
    evaluates_of_run hread hc hrun
  rwa [hmissing] at heval

/-- The name of a variable without a value, on its own, is not reported. -/
theorem lone_name_unreported : ∃ reading, Reading.ofText "x" = .ok reading ∧
    Language.IsFormula reading.tokens ∧
      (∃ y, reading.Names y ∧ empty.get? y = none) ∧
        ¬ ∃ y after,
          empty.Evaluates "x" (.error (.fault (.undefinedVariable y)))
            after := by
  obtain ⟨reading, hread, hspells⟩ :=
    Reading.exists_spelling "x" (wrapped 0 "x") (by decide +kernel)
  have hformula : Language.IsFormula reading.tokens :=
    Language.isFormula_iff.mpr
      (.inl ⟨.bareName "x" 0, Formula.lexemes_bareName 0 ▸ hspells⟩)
  have hname : reading.Names "x" :=
    (Reading.names_iff hspells).mpr (mem_wrapped.mpr rfl)
  refine ⟨reading, hread, hformula, ⟨"x", hname, rfl⟩, ?_⟩
  rintro ⟨y, after, heval⟩
  obtain ⟨hresult, -⟩ := heval.unique (evaluates_wrapped hread hspells rfl)
  cases hresult

/-- With a variable that has no value, a name on its own has no result, and any
other formula is stopped by such a variable. The others keep their values. -/
theorem evaluates_missing {reading : Reading}
    (hread : Reading.ofText text = .ok reading)
    (hformula : Language.IsFormula reading.tokens)
    (hname : reading.Names x) (hmissing : store.get? x = none) :
    (∀ n y, Spells reading.tokens (wrapped n y) →
      store.Evaluates text (.ok none) store) ∧
    ((∀ n y, ¬ Spells reading.tokens (wrapped n y)) →
      ∃ y, reading.Names y ∧ store.get? y = none ∧
        store.Evaluates text (.error (.fault (.undefinedVariable y)))
          store) := by
  constructor
  · intro n y hspells
    obtain rfl := mem_wrapped.mp ((Reading.names_iff hspells).mp hname)
    exact evaluates_wrapped hread hspells hmissing
  · intro hbare
    obtain ⟨t, e, hspells⟩ := Language.exists_formula hformula
    obtain ⟨c, hc, hemits⟩ := Composer.composeBare_of_spells hspells [] .empty
    have hattempts :
        Attempts c.program (.start store [] none) _ e.lexemes 0 [] _ :=
      e.attempts hemits.seg_start
    cases hattempts with
    | misses hmisses =>
        obtain ⟨y, m, m', hy, hnone, hreach, hfaults, hstore⟩ := hmisses
        obtain ⟨enough, j, hrun⟩ := Machine.run_to_fault hreach hfaults
        have heval :
            store.Evaluates text (.error (.fault (.undefinedVariable y)))
              m'.store :=
          evaluates_of_run hread hc hrun
        rw [hstore] at heval
        exact ⟨y, (Reading.names_iff hspells).mpr hy, hnone, heval⟩
    | remains hremains =>
        cases hremains with
        | number v hknows =>
            have hsome : (store.get? x).isSome :=
              hknows x ((Reading.names_iff hspells).mp hname)
            rw [hmissing] at hsome
            cases hsome
        | @name n y _ hwords => exact absurd (hwords ▸ hspells) (hbare n y)

/-- Four and zero, and nothing for `b`. -/
def unjudged : Store := (empty.set "a" ⟨0x40800000⟩).set "c" .zero

/-- A name in brackets has no result. With values for two of three variables, no
other than the third can be reported. -/
theorem evaluates_missing_judging :
    empty.Evaluates "((x))" (.ok none) empty ∧
      unjudged.Evaluates judgingText
        (.error (.fault (.undefinedVariable "b"))) unjudged := by
  constructor
  · obtain ⟨reading, hread, hspells⟩ :=
      Reading.exists_spelling "((x))" (wrapped 2 "x") (by decide +kernel)
    have hformula : Language.IsFormula reading.tokens :=
      Language.isFormula_iff.mpr
        (.inl ⟨.bareName "x" 2, Formula.lexemes_bareName 2 ▸ hspells⟩)
    have hname : reading.Names "x" :=
      (Reading.names_iff hspells).mpr (mem_wrapped.mpr rfl)
    exact (evaluates_missing hread hformula hname rfl).1 2 "x" hspells
  · obtain ⟨reading, hread, hspells⟩ :=
      Reading.exists_spelling judgingText judging.lexemes (by decide +kernel)
    have hformula : Language.IsFormula reading.tokens :=
      Language.isFormula_iff.mpr (.inr ⟨judging, hspells⟩)
    have hname : reading.Names "b" :=
      (Reading.names_iff hspells).mpr (by decide +kernel)
    have hbare : ∀ n y, ¬ Spells reading.tokens (wrapped n y) := by
      intro n y hwrapped
      have hwords : judging.lexemes = wrapped n y := hspells.unique hwrapped
      have hsign : .keyword "!" ∈ judging.lexemes := by decide +kernel
      rw [hwords] at hsign
      simp [wrapped, List.mem_replicate] at hsign
    have honly : ∀ y ∈ ["a", "b", "c"], unjudged.get? y = none → y = "b" := by
      decide +kernel
    have hnone : unjudged.get? "b" = none := by decide +kernel
    obtain ⟨y, hy, hmissing, heval⟩ :=
      (evaluates_missing hread hformula hname hnone).2 hbare
    obtain rfl :=
      honly y (judging_names ((Reading.names_iff hspells).mp hy)) hmissing
    exact heval

end Store

end Reckon
