import Reckon.Proofs.Compile.Labels
import Reckon.Proofs.Compile.Safety

/-!
# Jumps to nowhere

The only labels on the stack of a machine are those that its program pushes, so
a jump that finds no place for its label has a label that is pushed somewhere
and has no place anywhere. This holds for every program, wherever it comes from,
and for any input and limit.

In the code of a tree the labels that are pushed are the targets of the tree and
those made for it, and the labels that have a place are those in front of lines
and again those made. What is left over are the targets that are in front of no
line, and these are the labels that the advice about names calls undefined. So
it warns of every jump to nowhere that can happen.
-/

namespace Reckon

open Composer (labelName)

variable {p : Program} {m : Machine} {o : Operand} {s : List Operand} {op : Op}
  {cause : Fault} {outcome : Machine.Outcome} {limit : Option Nat}
  {slot k : Nat} {l : String} {items : List Item} {ops : List Op} {x : Extent}

/-! ## Labels on the stack -/

/-- A program pushes a label as an operand; in front of a mark it
would be a place. -/
def Program.Pushes (p : Program) (slot : Nat) : Prop :=
  ∃ i, p.ops[i]? = some (.label slot) ∧ p.ops[i + 1]? ≠ some .mark

/-- The labels on a stack are pushed by a program. -/
def Owns (p : Program) (stack : List Operand) : Prop :=
  ∀ slot, .label slot ∈ stack → p.Pushes slot

/-- A fault that names an undefined label is explained by a label that a program
pushes and gives no place. -/
def Explains (p : Program) (cause : Fault) : Prop :=
  ∀ name, cause = .undefinedLabel name → ∃ slot, p.Pushes slot ∧
    p.target? slot = none ∧ name = p.labels[slot]?.getD ("#" ++ toString slot)

/-- What comes of an operation has labels of the program only, or is a fault
that the program explains. -/
inductive Traced (p : Program) : Machine.Outcome → Prop where
  | ok {m : Machine} : Owns p m.stack → Traced p (.ok m)
  | fault {cause : Fault} {m : Machine} :
      Explains p cause → Traced p (.fault cause m)

namespace Owns

theorem push (h : Owns p s) (ho : ∀ slot, o = .label slot → p.Pushes slot) :
    Owns p (o :: s) := by
  intro slot hmem
  rcases List.mem_cons.mp hmem with rfl | hmem
  · exact ho slot rfl
  · exact h slot hmem

theorem tail (h : Owns p (o :: s)) : Owns p s :=
  fun slot hmem => h slot (List.mem_cons_of_mem _ hmem)

/-- Numbers are no labels. -/
theorem number (h : Owns p s) (v : Single) : Owns p (.number v :: s) :=
  h.push nofun

end Owns

namespace Traced

theorem pop {next : Operand → Machine → Machine.Outcome} (h : Owns p m.stack)
    (hnext : ∀ o m', Owns p m'.stack →
      (∀ slot, o = .label slot → p.Pushes slot) →
      Traced p (next o m')) : Traced p (m.pop op next) := by
  unfold Machine.pop
  split
  · exact .fault nofun
  · next o rest hstack =>
      rw [hstack] at h
      refine hnext o _ h.tail fun slot ho => h slot ?_
      rw [ho]
      exact List.mem_cons_self

theorem popNumber {next : Single → Machine → Machine.Outcome}
    (h : Owns p m.stack)
    (hnext : ∀ v m', Owns p m'.stack → Traced p (next v m')) :
    Traced p (m.popNumber op next) := by
  refine .pop h fun o m' hm _ => ?_
  cases o with
  | number v => exact hnext v m' hm
  | name y =>
      dsimp only
      split
      · exact hnext _ m' hm
      · exact .fault nofun
  | label slot => exact .fault nofun

theorem popName {next : String → Machine → Machine.Outcome} (h : Owns p m.stack)
    (hnext : ∀ y m', Owns p m'.stack → Traced p (next y m')) :
    Traced p (m.popName op next) := by
  refine .pop h fun o m' hm _ => ?_
  cases o with
  | name y => exact hnext y m' hm
  | number v | label slot => exact .fault nofun

theorem popLabel {next : Nat → Machine → Machine.Outcome} (h : Owns p m.stack)
    (hnext : ∀ slot m', Owns p m'.stack → p.Pushes slot →
      Traced p (next slot m')) : Traced p (m.popLabel op next) := by
  refine .pop h fun o m' hm ho => ?_
  cases o with
  | label slot => exact hnext slot m' hm (ho slot rfl)
  | number v | name y => exact .fault nofun

theorem jumpTo (h : Owns p m.stack) (hpushes : p.Pushes slot) :
    Traced p (m.jumpTo p slot) := by
  unfold Machine.jumpTo
  split
  · exact .ok h
  · next htarget =>
      refine .fault ?_
      rintro _ ⟨rfl⟩
      exact ⟨slot, hpushes, htarget, rfl⟩

theorem readNumber {y : String} {next : Single → Machine → Machine.Outcome}
    (h : Owns p m.stack)
    (hnext : ∀ v m', Owns p m'.stack → Traced p (next v m')) :
    Traced p (m.readNumber y next) := by
  unfold Machine.readNumber
  dsimp only
  split
  · exact .fault nofun
  · split
    · exact .fault nofun
    · split
      · exact hnext _ _ h
      · exact .fault nofun

theorem write {text : String} {next : Machine → Machine.Outcome}
    (h : Owns p m.stack) (hnext : ∀ m', Owns p m'.stack → Traced p (next m')) :
    Traced p ((m.write text).andThen next) := by
  unfold Machine.write
  dsimp only
  split
  · exact hnext _ h
  · split
    · exact hnext _ h
    · exact .fault nofun

end Traced

/-- An operation keeps the labels on the stack those of the program. -/
theorem traced_perform (h : Owns p m.stack) (hop : p.ops[k]? = some op) :
    Traced p (m.perform p op p.ops[k + 1]?) := by
  cases op with
  | mark => exact .ok h
  | name y => exact .ok (h.push nofun)
  | label slot =>
      unfold Machine.perform
      dsimp only
      split
      · exact .ok h
      · next hmark =>
          refine .ok (h.push ?_)
          rintro _ ⟨rfl⟩
          exact ⟨k, hop, hmark⟩
  | constant slot =>
      unfold Machine.perform
      dsimp only
      split
      · exact .ok (h.number _)
      · exact .fault nofun
  | neg | not => exact .popNumber h fun _ _ hm => .ok (hm.number _)
  | binary operator =>
      exact .popNumber h fun _ _ hm => .popNumber hm fun _ _ hm =>
        .ok (hm.number _)
  | assign => exact .popNumber h fun _ _ hm => .popName hm fun _ _ hm => .ok hm
  | jump => exact .popLabel h fun _ _ hm hslot => .jumpTo hm hslot
  | jumpIfFalse =>
      refine .popLabel h fun slot _ hm hslot => .popNumber hm fun v _ hm => ?_
      split
      · exact .jumpTo hm hslot
      · exact .ok hm
  | read => exact .popName h fun _ _ hm => .readNumber hm fun _ _ hm => .ok hm
  | write =>
      refine .popName h fun y _ hm => ?_
      split
      · exact .fault nofun
      · exact .write hm fun _ hm => .ok hm

/-- A jump to nowhere is explained by the program, if the stack was at the
start. -/
theorem explains_of_run {halt : Halt} : ∀ {budget : Nat} {m : Machine},
    Owns p m.stack → Machine.run limit p budget m = some halt →
      ∀ cause, halt.fault = some cause → Explains p cause := by
  intro budget
  induction budget with
  | zero => exact nofun
  | succ budget ih =>
      intro m h hrun
      have hstep :
          ∀ outcome, m.stepWithin? limit p = some outcome →
            Traced p outcome := by
        intro outcome hsome
        rcases Machine.stepWithin?_eq_some hsome with hsome | ⟨n, rfl⟩
        · obtain ⟨op, hop, rfl⟩ := Option.map_eq_some_iff.mp hsome
          exact traced_perform (m := { m with steps := m.steps + 1 }) h hop
        · exact .fault nofun
      unfold Machine.run at hrun
      split at hrun
      · cases hrun
        exact nofun
      · next cause after hfault =>
          cases hrun
          cases hstep _ hfault with
          | fault hexplains =>
              rintro _ ⟨rfl⟩
              exact hexplains
      · next after hok =>
          cases hstep _ hok with
          | ok howns => exact ih howns hrun

/-! ## Labels in code -/

/-- A label that is pushed is one of the items. -/
theorem CarriesAll.exists_label (h : CarriesAll p items ops) : ∀ {i : Nat},
    ops[i]? = some (.label slot) → ops[i + 1]? ≠ some .mark →
      ∃ l, .label l ∈ items ∧ p.labels[slot]? = some l := by
  induction h with
  | nil => exact nofun
  | @cons item items u v hitem _ ih =>
      intro i hop hmark
      have hlater : ∀ {j}, v[j]? = some (.label slot) → v[j + 1]? ≠ some .mark →
          ∃ l, .label l ∈ item :: items ∧ p.labels[slot]? = some l := by
        intro j hop hmark
        obtain ⟨l, hl, hslot⟩ := ih hop hmark
        exact ⟨l, List.mem_cons_of_mem _ hl, hslot⟩
      cases hitem with
      | op hplain =>
          cases i with
          | zero =>
              obtain rfl := Option.some.inj hop
              cases hplain
          | succ i => exact hlater hop hmark
      | number hpooled =>
          cases i with
          | zero => cases hop
          | succ i => exact hlater hop hmark
      | label hslot =>
          cases i with
          | zero =>
              cases hop
              exact ⟨_, List.mem_cons_self, hslot⟩
          | succ i => exact hlater hop hmark
      | place hslot =>
          match i, hop, hmark with
          | 0, _, hmark => exact absurd rfl hmark
          | 1, hop, _ => cases hop
          | i + 2, hop, hmark => exact hlater hop hmark

/-- A label is found nowhere if it has no place. -/
theorem Item.find?_eq_none_iff : ∀ {k : Nat},
    Item.find? l k items = none ↔ .place l ∉ items := by
  induction items with
  | nil =>
      intro k
      simp [Item.find?]
  | cons item items ih =>
      intro k
      rw [Item.find?, List.mem_cons, not_or]
      by_cases hitem : item = .place l
      · simp [hitem]
      · rw [if_neg hitem, ih]
        exact (and_iff_right (Ne.symm hitem)).symm

theorem Emits.target?_eq_none_iff (h : Emits p items)
    (hslot : p.labels[slot]? = some l) :
    p.target? slot = none ↔ .place l ∉ items := by
  rw [h.target? hslot, Item.find?_eq_none_iff]

section

variable {parameter limit entry exit : String} {first last : Expression}

/-! The two parts of a loop place one of its labels each and jump to the
other. -/

theorem place_mem_loopCode :
    .place l ∈ loopCode parameter limit first last entry exit ↔ l = entry := by
  simp [loopCode, limitCode, first.place_not_mem, last.place_not_mem]

theorem place_mem_nextCode :
    .place l ∈ nextCode parameter entry exit ↔ l = exit := by
  simp [nextCode]

theorem label_mem_loopCode :
    .label l ∈ loopCode parameter limit first last entry exit ↔ l = exit := by
  simp [loopCode, limitCode, first.label_not_mem_code, last.label_not_mem_code]

theorem label_mem_nextCode :
    .label l ∈ nextCode parameter entry exit ↔ l = entry := by
  simp [nextCode]

end

namespace Stmt

/-- The labels that are made for a statement, given the names there are. -/
def madeLabels {x : Extent} : Stmt x → Stock → List String
  | assign _ _, _ | transfer _ _, _ => []
  | branch _ _, k => [k.label]
  | loop _ _ _ body, k =>
      k.addLimit.label :: k.addLimit.addLabel.label ::
        body.madeLabels k.addLimit.addLabel.addLabel
  | plain s, k | labelled _ s, k | one s, k => s.madeLabels k
  | more before s, k => before.madeLabels k ++ s.madeLabels (before.stock k)

theorem exists_labelName (s : Stmt x) : ∀ {k : Stock},
    l ∈ s.madeLabels k → ∃ n, l = labelName n := by
  induction s with
  | assign | transfer => exact nofun
  | branch c target =>
      intro k h
      exact ⟨_, List.mem_singleton.mp h⟩
  | loop parameter first last body ih =>
      intro k h
      rcases List.mem_cons.mp h with rfl | h
      · exact ⟨_, rfl⟩
      rcases List.mem_cons.mp h with rfl | h
      · exact ⟨_, rfl⟩
      · exact ih h
  | plain s ih | labelled label s ih | one s ih => exact ih
  | more before s ihbefore ih =>
      intro k h
      exact (List.mem_append.mp h).elim ihbefore ih

/-- The places in the code of a statement. -/
theorem place_mem_items (s : Stmt x) : ∀ {k : Stock},
    .place l ∈ s.items k ↔ l ∈ s.labels ∨ l ∈ s.madeLabels k := by
  induction s with
  | assign y e => simp [items, labels, madeLabels, e.place_not_mem]
  | transfer kind names => simp [items, labels, madeLabels, transferCode]
  | branch c target =>
      simp [items, labels, madeLabels, branchCode, c.place_not_mem]
  | loop parameter first last body ih =>
      intro k
      simp only [items, labels, madeLabels, List.mem_append, List.mem_cons,
        place_mem_loopCode, place_mem_nextCode, ih]
      grind
  | plain s ih | one s ih => exact ih
  | labelled label s ih =>
      intro k
      simp [items, labels, madeLabels, ih, or_assoc]
  | more before s ihbefore ih =>
      intro k
      rw [items, List.mem_append, ihbefore, ih, labels, madeLabels,
        List.mem_append, List.mem_append]
      exact or_or_or_comm

/-- The labels that the code of a statement pushes. -/
theorem label_mem_items (s : Stmt x) : ∀ {k : Stock},
    .label l ∈ s.items k ↔ l ∈ s.targets ∨ l ∈ s.madeLabels k := by
  induction s with
  | assign y e => simp [items, targets, madeLabels, e.label_not_mem_code]
  | transfer kind names => simp [items, targets, madeLabels, transferCode]
  | branch c target =>
      intro k
      simp [items, targets, madeLabels, branchCode, c.label_not_mem_code,
        or_comm]
  | loop parameter first last body ih =>
      intro k
      simp only [items, targets, madeLabels, List.mem_append, List.mem_cons,
        label_mem_loopCode, label_mem_nextCode, ih]
      grind
  | plain s ih | one s ih => exact ih
  | labelled label s ih =>
      intro k
      simp [items, targets, madeLabels, ih]
  | more before s ihbefore ih =>
      intro k
      rw [items, List.mem_append, ihbefore, ih, targets, madeLabels,
        List.mem_append, List.mem_append]
      exact or_or_or_comm

end Stmt

/-! ## Compiled programs -/

/-- Linking finds the target of every label in the table. -/
theorem Program.links_getElem? (h : p.labels[slot]? = some l) :
    p.links[slot]? = some (p.target? slot) := by
  have hlt := (List.getElem?_eq_some_iff.mp h).1
  rw [links, List.getElem?_map, List.getElem?_range hlt]
  rfl

/-- What is pushed without a place is a target of the source that is in
front of no line. -/
theorem Stmt.exists_target (st : Stmt x) {k : Stock}
    (hemits : Emits p (st.items k)) (hpushes : p.Pushes slot)
    (hnowhere : p.target? slot = none) :
    ∃ l, p.labels[slot]? = some l ∧ l ∈ st.targets ∧ l ∉ st.labels := by
  obtain ⟨i, hop, hmark⟩ := hpushes
  obtain ⟨l, hl, hslot⟩ := hemits.carries.exists_label hop hmark
  have hplace := (hemits.target?_eq_none_iff hslot).mp hnowhere
  rw [st.place_mem_items, not_or] at hplace
  exact ⟨l, hslot, (st.label_mem_items.mp hl).resolve_right hplace.2, hplace.1⟩

/-- A target of the source that is in front of no line is pushed without a
place. -/
theorem Stmt.exists_slot (st : Stmt x) {k : Stock}
    (hemits : Emits p (st.items k)) (hgiven : ∀ lexeme ∈ st.lexemes,
      lexeme.IsGiven) (htarget : l ∈ st.targets) (hlabel : l ∉ st.labels) :
    ∃ slot, p.Pushes slot ∧ p.labels[slot]? = some l ∧
      p.target? slot = none := by
  have hmem : .label l ∈ st.items k := st.label_mem_items.mpr (.inl htarget)
  have hplace : .place l ∉ st.items k := by
    rw [st.place_mem_items, not_or]
    refine ⟨hlabel, fun hmade => ?_⟩
    obtain ⟨n, hn⟩ := st.exists_labelName hmade
    exact hgiven _ (st.target_mem_lexemes htarget) n hn
  obtain ⟨a, b, hitems⟩ := List.append_of_mem hmem
  have hseg : Seg p 0 (a ++ .label l :: b) := hitems ▸ hemits.seg_start
  obtain ⟨slot, hop, hmark, hslot⟩ := hseg.right.label
  exact ⟨slot, ⟨_, hop, hmark⟩, hslot,
    (hemits.target?_eq_none_iff hslot).mpr hplace⟩

/-- What is said of a source about its labels is true of all runs of its
program, on any variables and with any input, room for output and limit: a jump
to nowhere has been reported, and what is reported is pushed and linked nowhere.
So a program without such a report never jumps to nowhere. -/
theorem Compilation.advises_jumps {checker : Checker} {text : String}
    {compiled : Compilation} (h : ofText checker text = .ok compiled) :
    (∀ limit budget store input room halt name,
      Machine.run limit compiled.program budget (.start store input room) =
        some halt → halt.fault = some (.undefinedLabel name) →
          ∃ line, ⟨.undefinedLabel name, line⟩ ∈ compiled.diagnostics) ∧
    (∀ name line, ⟨.undefinedLabel name, line⟩ ∈ compiled.diagnostics →
      ∃ slot, compiled.program.Pushes slot ∧
        compiled.program.labels[slot]? = some name ∧
          compiled.program.links[slot]? = some none) ∧
    ((∀ name line, ⟨.undefinedLabel name, line⟩ ∉ compiled.diagnostics) →
      ∀ limit budget store input room halt name,
        Machine.run limit compiled.program budget (.start store input room) =
          some halt → halt.fault ≠ some (.undefinedLabel name)) := by
  obtain ⟨hread, hparse, c, hcompose, hprogram⟩ := stages h
  obtain ⟨source, hspells⟩ := Language.exists_source hparse
  have hgiven : ∀ lexeme ∈ source.body.lexemes, lexeme.IsGiven :=
    fun lexeme hmem =>
    Reading.isGiven hread hspells lexeme (by simp [Source.lexemes, hmem])
  obtain ⟨c', hc', hemits⟩ := Composer.compose_eq_ok hspells [] .empty
  obtain rfl := Except.ok.inj (hcompose.symm.trans hc')
  rw [hprogram] at hemits
  have hadvice : ∀ {name},
      (∃ line, ⟨.undefinedLabel name, line⟩ ∈ compiled.diagnostics) ↔
        name ∈ source.body.targets ∧ name ∉ source.body.labels := by
    intro name
    rw [diagnostics_eq h]
    exact Diagnostic.undefinedLabel_iff_of_spells hspells
  have hreported : ∀ limit budget store input room halt name,
      Machine.run limit compiled.program budget (.start store input room) =
        some halt → halt.fault = some (.undefinedLabel name) →
          ∃ line, ⟨.undefinedLabel name, line⟩ ∈ compiled.diagnostics := by
    intro limit budget store input room halt name hrun hfault
    have howns : Owns compiled.program (Machine.start store input room).stack :=
      fun _ hmem => absurd hmem List.not_mem_nil
    obtain ⟨slot, hpushes, hnowhere, hname⟩ :=
      explains_of_run howns hrun _ hfault name rfl
    obtain ⟨l, hslot, htarget, hlabel⟩ :=
      source.body.exists_target hemits hpushes hnowhere
    rw [hslot] at hname
    obtain rfl : name = l := hname
    exact hadvice.mpr ⟨htarget, hlabel⟩
  refine ⟨hreported, fun name line hmem => ?_,
    fun hquiet limit budget store input room halt name hrun hfault => ?_⟩
  · obtain ⟨htarget, hlabel⟩ := hadvice.mp ⟨line, hmem⟩
    obtain ⟨slot, hpushes, hslot, hnowhere⟩ :=
      source.body.exists_slot hemits hgiven htarget hlabel
    exact ⟨slot, hpushes, hslot, hnowhere ▸ Program.links_getElem? hslot⟩
  · obtain ⟨line, hmem⟩ :=
      hreported limit budget store input room halt name hrun hfault
    exact hquiet name line hmem

/-- A program that jumps to a label that is in front of no line. -/
def strayingText : String :=
  "program p\nvar ,a:float\nbegin\nif a<=0 then goto nowhere\nend"

/-- What `strayingText` says. -/
def straying : Source where
  name := "p"
  definitions := .one ⟨"a", []⟩
  body := .one (.plain (.branch
    (.only (.only (.compare (.only (.only (.name "a"))) ⟨.le, by decide⟩
      (.only (.only (.constant (Reading.numeralValue ['0']))))))) "nowhere"))

theorem straying_advised : ∃ compiled,
    Compilation.ofText .precedence strayingText = .ok compiled ∧
      (∃ halt, compiled.program.execute (some 9) 10 [] = some halt ∧
        halt.fault = some (.undefinedLabel "nowhere")) ∧
      ∃ line, ⟨.undefinedLabel "nowhere", line⟩ ∈ compiled.diagnostics := by
  obtain ⟨reading, hread, hspells⟩ :=
    Reading.exists_spelling strayingText straying.lexemes (by decide +kernel)
  obtain ⟨compiled, hcompiled, rfl⟩ := Compilation.exists_ok hread hspells
  obtain ⟨-, -, c, hcompose, hprogram⟩ := Compilation.stages hcompiled
  have hstrays : ((Reading.ofText strayingText).toOption.bind fun r =>
      (Composer.compose r.tokens [] .empty).toOption).any (fun c =>
        (c.program.execute (some 9) 10 []).any fun halt =>
          decide (halt.fault = some (.undefinedLabel "nowhere"))) = true := by
    decide +kernel
  simp only [hread, Except.toOption, Option.bind_some, hcompose,
    Option.any_some, hprogram] at hstrays
  obtain ⟨halt, hrun, hfault⟩ := (Option.any_eq_true ..).mp hstrays
  have hnowhere := of_decide_eq_true hfault
  exact ⟨compiled, hcompiled, ⟨halt, hrun, hnowhere⟩,
    (Compilation.advises_jumps hcompiled).1 _ _ _ _ _ _ _ hrun hnowhere⟩

end Reckon
