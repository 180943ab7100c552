import Reckon.Proofs.Compile.Pooling
import Reckon.Proofs.Compile.Runs
import Reckon.Proofs.Compile.Total
import Reckon.Proofs.Reduction.Output

/-!
# Two codes of one program

Checking a program puts out code for its formulas and for nothing else, one
behind the other. Composing it puts out the same formulas in the same order,
with the code of the statements between them. A formula has two pieces of code
then, and each can be run alone. Both runs end and leave the same number,
whatever the variables are, as long as no two literals of the program are
mistaken for each other.
-/

namespace Reckon

/-! ## Pieces of code -/

/-- The pieces stand in a row in this order, with anything between them. -/
inductive Threads {α : Type} : List (List α) → List α → Prop where
  | nil (rest : List α) : Threads [] rest
  | cons {pieces : List (List α)} {rest : List α} (gap piece : List α) :
      Threads pieces rest → Threads (piece :: pieces) (gap ++ (piece ++ rest))

namespace Threads

variable {α : Type} {pieces others : List (List α)} {a b : List α}

theorem before (gap : List α) (h : Threads pieces a) :
    Threads pieces (gap ++ a) := by
  cases h with
  | nil rest => exact .nil _
  | cons gap' piece h =>
      rw [← List.append_assoc]
      exact .cons (gap ++ gap') piece h

theorem append (h : Threads pieces a) (h' : Threads others b) :
    Threads (pieces ++ others) (a ++ b) := by
  induction h with
  | nil rest => exact h'.before rest
  | cons gap piece _ ih =>
      rw [List.append_assoc, List.append_assoc]
      exact .cons gap piece ih

theorem behind (h : Threads pieces a) (rest : List α) :
    Threads pieces (a ++ rest) := by
  have hall := h.append (.nil rest)
  rwa [List.append_nil] at hall

theorem one (piece : List α) : Threads [piece] piece := by
  have h := Threads.cons [] piece (.nil [])
  rwa [List.nil_append, List.append_nil] at h

end Threads

/-- The formulas of a statement stand in its code in the order of the source. -/
theorem Stmt.threads {x : Extent} (s : Stmt x) : ∀ k,
    Threads (s.formulas.map fun f => f.2.code false) (s.items k) := by
  induction s with
  | assign x e =>
      exact fun k => ((Threads.one (e.code false)).behind _).before [_]
  | transfer kind names => exact fun k => .nil _
  | branch c target => exact fun k => (Threads.one (c.code false)).behind _
  | loop parameter first last body ih =>
      intro k
      have hlimit : ∀ limit exit, Threads [last.code false]
          (limitCode parameter limit last exit) := fun limit exit =>
        ((Threads.one (last.code false)).behind _).before [_]
      have hhead : ∀ limit entry exit,
          Threads [first.code false, last.code false]
          (loopCode parameter limit first last entry exit) :=
            fun limit entry exit =>
        ((Threads.one (first.code false)).append
          ((hlimit limit exit).before [_, _])).before [_]
      exact (hhead ..).append ((ih _).behind _)
  | plain s ih | one s ih => exact ih
  | labelled label s ih => exact fun k => (ih k).before [_]
  | more before s ihbefore ih =>
      intro k
      unfold formulas
      rw [List.map_append]
      exact (ihbefore k).append (ih _)

variable {p q : Program}

/-- Rows of items are carried one by one where they are carried behind each
other. -/
theorem CarriesAll.split_all {ops : List Op} : ∀ {rows : List (List Item)},
    CarriesAll p rows.flatten ops →
      ∃ pieces, List.Forall₂ (CarriesAll p) rows pieces ∧
        ops = pieces.flatten := by
  intro rows
  induction rows generalizing ops with
  | nil =>
      intro h
      cases h
      exact ⟨[], .nil, rfl⟩
  | cons row rows ih =>
      intro h
      obtain ⟨u, v, rfl, hrow, hrows⟩ := h.split
      obtain ⟨pieces, hall, rfl⟩ := ih hrows
      exact ⟨u :: pieces, .cons hrow hall, rfl⟩

theorem CarriesAll.split_threads {rows : List (List Item)} {items : List Item}
    (h : Threads rows items) : ∀ {ops : List Op}, CarriesAll p items ops →
      ∃ pieces, List.Forall₂ (CarriesAll p) rows pieces ∧
        Threads pieces ops := by
  induction h with
  | nil rest => exact fun _ => ⟨[], .nil, .nil _⟩
  | cons gap piece _ ih =>
      intro ops hcarries
      obtain ⟨u, w, rfl, -, hcarries⟩ := hcarries.split
      obtain ⟨v, w, rfl, hpiece, hrest⟩ := hcarries.split
      obtain ⟨pieces, hall, hthreads⟩ := ih hrest
      exact ⟨v :: pieces, .cons hpiece hall, .cons u v hthreads⟩

/-! ## Runs of pieces -/

/-- Run alone, with the tables of a program and the given variables, a piece of
code ends and leaves a number. -/
def Program.Gives (p : Program) (piece : List Op) (store : Store) (v : Single) :
    Prop :=
  ∃ budget halt, Machine.run none { p with ops := piece } budget
      (.start store [] none) = some halt ∧ halt.value = .ok (some v)

theorem Program.gives_of_evaluate {items : List Item} {piece : List Op}
    {store : Store} {values : String → Single} {v : Single}
    (hcarries : CarriesAll p items piece)
    (hvalues : ∀ x, .op (.name x) ∈ items → store.get? x = some (values x))
    (heval : Item.evaluate p.literal values items [] = some [v]) :
    p.Gives piece store v := by
  let alone : Program := { p with ops := piece }
  let start : Machine := .start store [] none
  have hgrows : p.Grows alone := ⟨List.prefix_rfl, List.prefix_rfl⟩
  have hseg : Seg alone 0 items :=
    ⟨[], [], by simpa using hcarries.mono hgrows, rfl⟩
  obtain ⟨o, ho, hreach⟩ := Item.runs_value (m := start) hvalues hseg heval []
  have hend : alone.ops[0 + Item.sizes items]? = none := by
    rw [Nat.zero_add, ← hcarries.length_eq]
    exact List.getElem?_eq_none (Nat.le_refl _)
  obtain ⟨budget, j, hrun⟩ := Machine.run_to_end hreach hend
  exact ⟨budget, _, hrun budget (Nat.le_refl _),
    congrArg Except.ok (Machine.result_of_denotes rfl ho)⟩

/-! ## Two pieces of a formula -/

theorem Formula.mem_lexemes_of_translation {t : Tier} (e : Formula t)
    {x : String} (h : .op (.name x) ∈ e.translation) :
    .identifier x ∈ e.lexemes := by
  induction e with
  | name y => simpa [translation, lexemes] using h
  | constant v => simp [translation] at h
  | group e ih | bracket e ih | only e ih => simp [lexemes, ih h]
  | negated a ih | not a ih =>
      have ha : .op (.name x) ∈ a.translation := by simpa [translation] using h
      simp [lexemes, ih ha]
  | compare a o b iha ihb | join a o b iha ihb =>
      have hside :
          .op (.name x) ∈ a.translation ∨ .op (.name x) ∈ b.translation := by
        simpa [translation] using h
      rcases hside with ha | hb
      · simp [lexemes, iha ha]
      · simp [lexemes, ihb hb]

/-- A value depends on what the literals of a formula denote. -/
theorem Formula.plain_congr {pooled pooled' : Single → Single}
    {values : String → Single} {t : Tier} (e : Formula t)
    (h : ∀ v, .constant v ∈ e.lexemes → pooled v = pooled' v) :
    e.plain pooled values = e.plain pooled' values := by
  induction e with
  | name x => rfl
  | constant v => exact h v (List.mem_singleton.mpr rfl)
  | group e ih | bracket e ih =>
      exact ih fun v hv => h v (by simp [lexemes, hv])
  | only e ih => exact ih h
  | negated a ih =>
      exact congrArg Neg.neg (ih fun v hv => h v (by simp [lexemes, hv]))
  | not a ih =>
      have ha := ih fun v hv => h v (by simp [lexemes, hv])
      exact congrArg (fun v => Single.ofBool (v.le .zero)) ha
  | compare a o b iha ihb | join a o b iha ihb =>
      have ha := iha fun v hv => h v (by simp [lexemes, hv])
      have hb := ihb fun v hv => h v (by simp [lexemes, hv])
      exact congrArg₂ o.val.apply ha hb

/-- Two pieces are the codes of a formula, the first with the tables
of one program and the second with those of another. Run alone they
leave the same number. -/
structure Alike (p q : Program) {t : Tier} (e : Formula t)
    (piece piece' : List Op) : Prop where
  translated : CarriesAll p e.translation piece
  composed : CarriesAll q (e.code false) piece'
  agree :
    ∀ store : Store, (∀ x, .identifier x ∈ e.lexemes → (store.get? x).isSome) →
    ∃ v w, p.Gives piece store v ∧ q.Gives piece' store w ∧ v.Same w

theorem Formula.alike {t : Tier} (e : Formula t) {piece piece' : List Op}
    (hp : CarriesAll p e.translation piece)
    (hq : CarriesAll q (e.code false) piece')
    (hliterals : ∀ v, .constant v ∈ e.lexemes → p.literal v = q.literal v) :
    Alike p q e piece piece' := by
  refine ⟨hp, hq, fun store hstore => ?_⟩
  let values (x : String) : Single := (store.get? x).getD .zero
  have hvalues : ∀ x, .identifier x ∈ e.lexemes →
      store.get? x = some (values x) := by
    intro x hx
    obtain ⟨v, hv⟩ := Option.isSome_iff_exists.mp (hstore x hx)
    show _ = some ((store.get? x).getD .zero)
    rw [hv]
    rfl
  have hleft : p.Gives piece store (e.plain p.literal values) :=
    Program.gives_of_evaluate hp
      (fun x hx => hvalues x (e.mem_lexemes_of_translation hx))
      (e.evaluate_translation p.literal values [])
  have hright : q.Gives piece' store (e.value q.literal values false) :=
    Program.gives_of_evaluate hq
      (fun x hx => hvalues x (e.mem_lexemes_of_code hx))
      (e.evaluate_code q.literal values false [])
  have hsame :
      (e.value q.literal values false).Same (e.plain q.literal values) :=
    e.value_same q.literal values nofun
  rw [← e.plain_congr hliterals] at hsame
  exact ⟨_, _, hleft, hright, hsame.symm⟩

/-- The words of a formula are among those of its statement. -/
theorem Stmt.mem_lexemes_of_formula {x : Extent} (s : Stmt x)
    {f : Σ t, Formula t} (hf : f ∈ s.formulas) :
    ∀ lexeme ∈ f.2.lexemes, lexeme ∈ s.lexemes := by
  intro lexeme hlexeme
  induction s with
  | assign x e =>
      obtain rfl := List.mem_singleton.mp hf
      simp [lexemes, hlexeme]
  | transfer kind names => cases hf
  | branch c target =>
      obtain rfl := List.mem_singleton.mp hf
      simp [lexemes, hlexeme]
  | loop parameter first last body ih =>
      rcases List.mem_cons.mp hf with rfl | hf
      · simp [lexemes, hlexeme]
      rcases List.mem_cons.mp hf with rfl | hf
      · simp [lexemes, hlexeme]
      · simp [lexemes, ih hf]
  | plain s ih => exact ih hf
  | labelled label s ih | one s ih => simp [lexemes, ih hf]
  | more before s ihbefore ih =>
      rcases List.mem_append.mp hf with hf | hf
      · simp [lexemes, ihbefore hf]
      · simp [lexemes, ih hf]

/-! ## Two codes of a program -/

/-- The literals of some tokens. -/
def Token.literals (tokens : List Token) : List Single :=
  Reckon.literals (tokens.filterMap lexeme?)

theorem Spells.filterMap_eq {tokens : List Token} {ls : List Lexeme}
    (h : Spells tokens ls) : tokens.filterMap Token.lexeme? = ls := by
  have hid := congrArg (List.filterMap id) h
  rwa [List.filterMap_map, List.filterMap_map, Function.id_comp,
    Function.id_comp, List.filterMap_some] at hid

/-- Two programs have code for the same formulas in the same order: one has
nothing else, the other has anything between them. -/
def CodesAlike (p q : Program) (formulas : List (Σ t, Formula t)) : Prop :=
  ∃ pieces pieces' : List (List Op),
    pieces.length = formulas.length ∧ pieces'.length = formulas.length ∧
      p.ops = pieces.flatten ∧ Threads pieces' q.ops ∧
        ∀ (k : Nat) (f : Σ t, Formula t) (piece piece' : List Op),
          formulas[k]? = some f → pieces[k]? = some piece →
            pieces'[k]? = some piece' → Alike p q f.2 piece piece'

theorem forall₂_getElem? {α β : Type} {R : α → β → Prop} {as : List α}
    {bs : List β} (h : List.Forall₂ R as bs) : ∀ {k : Nat} {a : α} {b : β},
      as[k]? = some a → bs[k]? = some b → R a b := by
  induction h with
  | nil => exact nofun
  | cons hab _ ih =>
      intro k a b ha hb
      cases k with
      | zero =>
          obtain rfl := Option.some.inj ha
          obtain rfl := Option.some.inj hb
          exact hab
      | succ k => exact ih (by simpa using ha) (by simpa using hb)

theorem Stmt.codesAlike {x : Extent} (s : Stmt x) {k : Stock}
    (hall : Separated (literals s.lexemes)) (hp : Emits p s.translation)
    (hq : Emits q (s.items k)) : CodesAlike p q s.formulas := by
  have htranslated := hp.carries
  unfold translation at htranslated
  rw [List.flatMap_def] at htranslated
  obtain ⟨pieces, hpieces, hops⟩ := htranslated.split_all
  obtain ⟨pieces', hpieces', hthreads⟩ :=
    CarriesAll.split_threads (s.threads k) hq.carries
  rw [List.forall₂_map_left_iff] at hpieces hpieces'
  refine ⟨pieces, pieces', hpieces.length_eq.symm,
    hpieces'.length_eq.symm, hops,
    hthreads, fun i f piece piece' hf hpiece hpiece' => ?_⟩
  refine f.2.alike (forall₂_getElem? hpieces hf hpiece)
    (forall₂_getElem? hpieces' hf hpiece') fun v hv => ?_
  have hmem := s.mem_lexemes_of_formula (List.mem_of_getElem? hf) _ hv
  exact s.literal_agrees hall hp hq (List.mem_filterMap.mpr ⟨_, hmem, rfl⟩)

namespace Composer

/-- What is put out while a program is checked and what is composed of it have
the same formulas in the same order, and these leave the same numbers, if the
literals of the program are equal or far from each other. -/
theorem codes_agree {tokens : List Token} {parsed : Parsed}
    {labels : List String} {store : Store} {c : Composer}
    (hparse : Language.parse tokens = .ok parsed)
    (hcompose : compose tokens labels store = .ok c)
    (hall : Separated (Token.literals tokens)) :
    (∃ source : Source, Spells tokens source.lexemes) ∧
      ∀ source : Source, Spells tokens source.lexemes →
        CodesAlike parsed.code c.program source.body.formulas := by
  refine ⟨Language.exists_source hparse, fun source hspells => ?_⟩
  obtain ⟨parsed', hparse', hparsed⟩ := Language.parse_emits hspells
  obtain rfl := Except.ok.inj (hparse.symm.trans hparse')
  obtain ⟨c', hcompose', hcomposed⟩ := compose_eq_ok hspells labels store
  obtain rfl := Except.ok.inj (hcompose.symm.trans hcompose')
  unfold Token.literals at hall
  rw [hspells.filterMap_eq, source.literals_eq] at hall
  exact source.body.codesAlike hall hparsed hcomposed

theorem counting_codes_agree : ∃ parsed c,
    Language.parse counting.tokens = .ok parsed ∧
      compose counting.tokens [] .empty = .ok c ∧
        Separated (Token.literals counting.tokens) ∧
          CodesAlike parsed.code c.program counting.body.formulas := by
  obtain ⟨parsed, hparsed⟩ := counting.exists_parsed
  obtain ⟨c, hc, -⟩ := compose_eq_ok counting.spells_tokens [] .empty
  have hall : Separated (Token.literals counting.tokens) := by decide +kernel
  exact ⟨parsed, c, hparsed, hc, hall,
    (codes_agree hparsed hc hall).2 counting counting.spells_tokens⟩

end Composer

end Reckon
