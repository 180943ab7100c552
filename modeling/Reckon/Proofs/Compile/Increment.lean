import Reckon.Proofs.Compile.Jumps
import Reckon.Proofs.Compile.Pooling
import Reckon.Proofs.Compile.Safety

/-!
# What the end of a loop adds

The one that is added to the parameter of a loop is put into the pool like the
literals of the source, and a literal that is near one and in front of it takes
its place. What is added is therefore what the pool has for a one by then:
exactly one, unless a literal near one is in the pool already. It is the same at
the ends of all loops of a program.

The rest of a pool does not matter. It is filled from the left and
never changed, so what stands for a number is known where the number is
put in for the first time.
-/

namespace Reckon

variable {p : Program} {a b numbers pool : List Single} {v w : Single}

/-! ## Numbers in a pool -/

namespace Pool

/-- There is nothing in a pool but what has been put into it. -/
theorem mem_of_mem_ofNumbers (h : w ∈ ofNumbers numbers) : w ∈ numbers := by
  induction numbers using List.reverseRecOn with
  | nil => exact h
  | append_singleton numbers v ih =>
      rw [ofNumbers_snoc] at h
      rcases mem_of_intern h with h | rfl
      · exact List.mem_append_left _ (ih h)
      · exact List.mem_append_right _ List.mem_cons_self

/-- What is put in later goes behind what is there. -/
theorem ofNumbers_isPrefix (a b : List Single) :
    ofNumbers a <+: ofNumbers (a ++ b) := by
  induction b using List.reverseRecOn with
  | nil => rw [List.append_nil]
  | append_singleton b v ih =>
      rw [← List.append_assoc, ofNumbers_snoc]
      exact ih.trans (intern_keeps Single.near _ v)

/-- A number that is put in stands for itself if nothing near it was there. -/
theorem getD_find?_intern (pool : List Single) (v : Single) :
    ((intern Single.near pool v).2.find? (·.near v)).getD v =
      (pool.find? (·.near v)).getD v := by
  unfold intern
  split
  · rfl
  · next h =>
      have hnone : pool.find? (·.near v) = none := by
        simpa using h
      rw [List.find?_append, hnone, List.find?_singleton]
      split <;> rfl

/-- What stands for a number is settled where it is put in. -/
theorem getD_find?_ofNumbers (a b : List Single) (v : Single) :
    ((ofNumbers (a ++ v :: b)).find? (·.near v)).getD v =
      ((ofNumbers a).find? (·.near v)).getD v := by
  have hlater : ofNumbers (a ++ [v]) <+: ofNumbers (a ++ v :: b) := by
    rw [List.append_cons a v b]
    exact ofNumbers_isPrefix (a ++ [v]) b
  have hpooled := pooled_intern (ofNumbers a) v
  rw [← ofNumbers_snoc] at hpooled
  have hsame := (hpooled _ hlater).symm.trans
    (getElem?_of_isPrefix hlater (hpooled _ List.prefix_rfl))
  rw [Option.some.inj hsame, ofNumbers_snoc, getD_find?_intern]

end Pool

namespace Program

/-- What a literal denotes is a number that was put into the pool, and near it,
or it is the literal itself. -/
theorem literal_eq_or (hp : p.constants = Pool.ofNumbers numbers) (v : Single) :
    p.literal v = v ∨ p.literal v ∈ numbers ∧ (p.literal v).near v = true := by
  unfold literal
  cases hfind : p.constants.find? (·.near v) with
  | none => exact .inl rfl
  | some w =>
      have hmem := List.mem_of_find?_eq_some hfind
      have hnear : w.near v = true := by simpa using List.find?_some hfind
      exact .inr ⟨Pool.mem_of_mem_ofNumbers (hp ▸ hmem), hnear⟩

/-- What a literal denotes depends on the literals in front of it only. -/
theorem literal_eq_getD (hp : p.constants = Pool.ofNumbers (a ++ v :: b)) :
    p.literal v = ((Pool.ofNumbers a).find? (·.near v)).getD v := by
  unfold literal
  rw [hp, Pool.getD_find?_ofNumbers]

/-- A literal denotes itself if no other one near it is in front. -/
theorem literal_eq_self (hp : p.constants = Pool.ofNumbers (a ++ v :: b))
    (ha : ∀ w ∈ a, w.near v = true → w = v) : p.literal v = v := by
  rw [literal_eq_getD hp]
  cases hfind : (Pool.ofNumbers a).find? (·.near v) with
  | none => rfl
  | some w =>
      have hmem := Pool.mem_of_mem_ofNumbers (List.mem_of_find?_eq_some hfind)
      exact ha w hmem (by simpa using List.find?_some hfind)

end Program

/-! ## The literals of a source -/

theorem mem_literals {ls : List Lexeme} (h : v ∈ literals ls) :
    .constant v ∈ ls ∨ v = .one := by
  obtain ⟨lexeme, hmem, hv⟩ := List.mem_filterMap.mp h
  cases lexeme with
  | constant w =>
      obtain rfl : w = v := Option.some.inj hv
      exact .inl hmem
  | keyword text =>
      rw [Lexeme.literal?] at hv
      split at hv
      · exact .inr (Option.some.inj hv).symm
      · cases hv
  | identifier | label | nonterminal => cases hv

/-- The pool of a composed source holds its literals. -/
theorem Source.constants_eq {source : Source} {k : Stock}
    (hemits : Emits p (source.body.items k)) :
    p.constants = Pool.ofNumbers (literals source.lexemes) := by
  rw [hemits.constants, source.body.numbers_items, source.literals_eq]

/-! ## Ends of loops -/

/-- The operations from a position on add a number to a variable that has a
value, and leave all else as it is. -/
def Program.Increases (p : Program) (k : Nat) (x : String)
    (amount : Single) : Prop :=
  ∀ m v, m.position = k → m.store.get? x = some v →
    Reaches p m { m with
      position := k + 5, store := m.store.set x (v + amount) }

theorem increases_of_seg {x entry exit : String} {k : Nat}
    (h : Seg p k (nextCode x entry exit)) :
    p.Increases k x (p.literal .one) := by
  rintro m v rfl hget
  exact reaches_increased (s := m.stack) h hget

/-- A loop that ends has its code there. -/
theorem Fits.exists_nextCode {cs : List Chunk} {i body : Nat}
    {parameter : String} {last : Expression} {code : List Item}
    (h : Fits cs i (.next parameter last body) code) :
    ∃ entry exit, code = nextCode parameter entry exit := by
  cases h with
  | next => exact ⟨_, _, rfl⟩

/-- Where a run of a program can get all its names are known. -/
theorem Machine.Knows.visits {limit : Option Nat} {m m' : Machine}
    (h : Knows p m) (hvisits : Visits limit p m m') : Knows p m' := by
  induction hvisits with
  | refl => exact h
  | tail _ hstep ih =>
      exact stepWithin?_keeps Knows.step (fun h => ⟨h.names, h.known⟩) ih hstep

namespace Source

variable {source : Source} {i body : Nat} {parameter : String}
  {last : Expression}

/-- The code of a line that ends a loop. -/
theorem seg_nextCode (hgiven : ∀ lexeme ∈ source.body.lexemes, lexeme.IsGiven)
    (hemits : Emits p (codeOf source.chunks))
    (hline : (source.body.lines none)[i]? =
      some (none, .next parameter last body)) :
    ∃ entry exit,
      Seg p (startOf source.chunks i) (nextCode parameter entry exit) := by
  rw [← source.body.chunks_lines none 0 0, List.getElem?_map] at hline
  obtain ⟨c, hc, hlabelled⟩ := Option.map_eq_some_iff.mp hline
  obtain ⟨hlabel, hnext⟩ := Prod.mk.inj hlabelled
  have hfits : Fits source.chunks i c.line c.code := by
    simpa using (source.renders hgiven hemits).fits.get hc
  rw [hnext] at hfits
  obtain ⟨entry, exit, hcode⟩ := hfits.exists_nextCode
  have hseg := hemits.seg_line hc
  rw [Chunk.items, hlabel, hcode] at hseg
  exact ⟨entry, exit, hseg⟩

end Source

/-- What the end of a loop adds to the parameter is the same for all loops of a
program. It is what the pool has for a one where the end of any of them is
composed: a literal of the source that is near one, or exactly one, and this if
no literal in front is near one but not equal to it. The parameter has a value
whenever a run gets there. -/
theorem Compilation.next_adds {checker : Checker} {text : String}
    {compiled : Compilation} (h : ofText checker text = .ok compiled) :
    (∃ source : Source, Spells compiled.reading.tokens source.lexemes) ∧
    ∀ source : Source, Spells compiled.reading.tokens source.lexemes →
      ∃ amount : Single,
        (amount = .one ∨ .constant amount ∈ source.lexemes ∧
          amount.near .one = true) ∧
        (∀ a b, source.lexemes = a ++ .keyword "next" :: b →
          amount =
              ((Pool.ofNumbers (literals a)).find? (·.near .one)).getD .one ∧
            ((∀ v, .constant v ∈ a → v.near .one = true → v = .one) →
              amount = .one)) ∧
        ∀ i parameter last body,
          (source.body.lines none)[i]? =
              some (none, .next parameter last body) →
            (∃ entry exit, Seg compiled.program (startOf source.chunks i)
              (nextCode parameter entry exit)) ∧
            compiled.program.Increases (startOf source.chunks i)
              parameter amount ∧
            ∀ (limit : Option Nat) (store : Store) (input : List UInt8)
                (room : Option Nat) (m : Machine),
              Visits limit compiled.program
                  (.start (store.prepare compiled.program) input room) m →
                m.position = startOf source.chunks i →
                  m.store.contains parameter = true := by
  obtain ⟨hread, hparse, c, hcompose, hprogram⟩ := stages h
  refine ⟨Language.exists_source hparse, fun source hspells => ?_⟩
  have hgiven : ∀ lexeme ∈ source.body.lexemes, lexeme.IsGiven :=
    fun lexeme hmem =>
    Reading.isGiven hread hspells lexeme (by simp [Source.lexemes, hmem])
  obtain ⟨c', hcompose', hemits⟩ := Composer.compose_of_spells hspells
  obtain rfl := Except.ok.inj (hcompose.symm.trans hcompose')
  rw [hprogram] at hemits
  have hpool :
      compiled.program.constants = Pool.ofNumbers (literals source.lexemes) :=
    Source.constants_eq (source.body.codeOf_chunks .empty ▸ hemits)
  refine ⟨compiled.program.literal .one, ?_, fun a b hsplit => ?_,
    fun i parameter last body hline => ?_⟩
  · rcases Program.literal_eq_or hpool .one with hone | ⟨hmem, hnear⟩
    · exact .inl hone
    · rcases mem_literals hmem with hconstant | hone
      · exact .inr ⟨hconstant, hnear⟩
      · exact .inl hone
  · rw [hsplit, literals_append, literals_next] at hpool
    refine ⟨Program.literal_eq_getD hpool, fun hclean =>
      Program.literal_eq_self hpool fun v hv hnear => ?_⟩
    rcases mem_literals hv with hconstant | hone
    · exact hclean v hconstant hnear
    · exact hone
  · obtain ⟨entry, exit, hseg⟩ := Source.seg_nextCode hgiven hemits hline
    refine ⟨⟨entry, exit, hseg⟩, increases_of_seg hseg, ?_⟩
    intro limit store input room m hvisits _
    have hknows :=
      (Machine.Knows.start compiled.program store input room).visits hvisits
    exact hknows.known parameter (List.mem_of_getElem? hseg.op)

/-- A program with a literal near one in front of its loop. -/
def creepingText : String :=
  "program p\nvar ,a,i:float\nbegin\na=1.000009\ndo i=5 to 5\nwritel(,i)\nnext\nend"

/-- What `creepingText` says. -/
def creeping : Source where
  name := "p"
  definitions := .one ⟨"a", ["i"]⟩
  body :=
    let number (numeral : List Char) : Expression :=
      .only (.only (.constant (Reading.numeralValue numeral)))
    .more (.one
      (.plain (.assign "a" (number ['1', '.', '0', '0', '0', '0', '0', '9']))))
      (.plain (.loop "i" (number ['5']) (number ['5'])
        (.one (.plain (.transfer .write ⟨"i", []⟩)))))

theorem creeping_adds : ∃ compiled,
    Compilation.ofText .precedence creepingText = .ok compiled ∧
      compiled.program.Increases (startOf creeping.chunks 3) "i"
        ⟨0x3f80004b⟩ := by
  obtain ⟨reading, hread, hspells⟩ :=
    Reading.exists_spelling creepingText creeping.lexemes (by decide +kernel)
  obtain ⟨compiled, hcompiled, rfl⟩ := Compilation.exists_ok hread hspells
  obtain ⟨amount, -, hamount, hends⟩ :=
    (Compilation.next_adds hcompiled).2 creeping hspells
  obtain ⟨hexact, -⟩ :=
    hamount (creeping.lexemes.take 30) (creeping.lexemes.drop 31)
      (by decide +kernel)
  have hfound : ((Pool.ofNumbers (literals (creeping.lexemes.take 30))).find?
      (·.near .one)).getD .one = ⟨0x3f80004b⟩ := by
    decide +kernel
  rw [hfound] at hexact
  exact ⟨compiled, hcompiled, hexact ▸ (hends 3 "i" _ _ rfl).2.1⟩

/-- The one turn of its loop takes the parameter from five to more than six. -/
theorem creeping_passes_six : ∃ compiled,
    Compilation.ofText .precedence creepingText = .ok compiled ∧
      ∃ halt, compiled.program.execute none 40 [] = some halt ∧
        halt.fault = none ∧ ∃ v, halt.machine.store.get? "i" = some v ∧
          (Reading.numeralValue ['5'] + .one).lt v = true := by
  obtain ⟨reading, hread, hspells⟩ :=
    Reading.exists_spelling creepingText creeping.lexemes (by decide +kernel)
  obtain ⟨compiled, hcompiled, rfl⟩ := Compilation.exists_ok hread hspells
  obtain ⟨-, -, c, hcompose, hprogram⟩ := Compilation.stages hcompiled
  have hpasses : ((Reading.ofText creepingText).toOption.bind fun r =>
      (Composer.compose r.tokens [] .empty).toOption).any (fun c =>
        (c.program.execute none 40 []).any fun halt =>
          decide (halt.fault = none) &&
          (halt.machine.store.get? "i").any
            (Reading.numeralValue ['5'] + .one).lt) =
      true := by
    decide +kernel
  simp only [hread, Except.toOption, Option.bind_some, hcompose,
    Option.any_some, hprogram] at hpasses
  obtain ⟨halt, hrun, hhalt⟩ := (Option.any_eq_true ..).mp hpasses
  obtain ⟨hfault, hvalue⟩ := (Bool.and_eq_true ..).mp hhalt
  obtain ⟨v, hv, hlt⟩ := (Option.any_eq_true ..).mp hvalue
  exact ⟨compiled, hcompiled, halt, hrun, of_decide_eq_true hfault, v, hv, hlt⟩

end Reckon
