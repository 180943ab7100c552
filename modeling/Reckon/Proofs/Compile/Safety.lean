import Mathlib.Data.List.Forall2
import Reckon.Proofs.Compile.Execution
import Reckon.Proofs.Compile.Shape
import Reckon.Proofs.Compile.Total
import Reckon.Proofs.Machine.Effect

/-!
# Compiled programs leave nothing behind

Where code turns the empty shape into itself, a machine that starts with an
empty stack finds on it what the shapes say, wherever it goes: a step follows
the item at the position, and a jump leads behind a place, where the shape is
empty as it was behind the jump. So operations never lack operands and never
find the wrong ones, and what can still go wrong is outside the compiler's
reach: a label the source never placed, the input, the output, and the limit.
-/

namespace Reckon

/-- A fault that only a program can show that was not put together properly. -/
def Fault.isInternal : Fault → Bool
  | stackUnderflow _ _ | typeMismatch _ _ _ | missingConstant _
  | undefinedVariable _ => true
  | _ => false

/-- What is known of an operand is true of it. A name has a value, and a label
is in the table. -/
inductive Operand.Is (p : Program) (store : Store) : Operand → Kind → Prop where
  | number (v : Single) : Is p store (.number v) (.value false)
  | name {x : String} {v : Single} :
      store.get? x = some v → Is p store (.name x) (.value true)
  | label {slot : Nat} {l : String} :
      p.labels[slot]? = some l → Is p store (.label slot) .label

/-- The operands on a stack are of the kinds of a shape. -/
abbrev Fills (p : Program) (store : Store) : List Operand → List Kind → Prop :=
  List.Forall₂ (Operand.Is p store)

/-- A machine stands between two items, with a stack of the shape that belongs
there, and knows all names of its program. -/
structure Shaped (p : Program) (items : List Item) (m : Machine) : Prop where
  position : ∃ a b s, items = a ++ b ∧ m.position = Item.sizes a ∧
    TurnsAll a [] s ∧ Fills p m.store m.stack s
  known : ∀ x, .name x ∈ p.ops → ∃ v, m.store.get? x = some v

/-- What comes of an operation is a machine as wanted or a fault that is not
internal. -/
inductive Safe (wanted : Machine → Prop) : Machine.Outcome → Prop where
  | ok {m : Machine} : wanted m → Safe wanted (.ok m)
  | fault {cause : Fault} {m : Machine} :
      cause.isInternal = false → Safe wanted (.fault cause m)

variable {p : Program} {items a b rest : List Item} {item : Item}
  {m m' : Machine} {s t : List Kind} {o : Operand} {store : Store}
  {stack : List Operand} {cause : Fault} {limit : Option Nat}
  {outcome : Machine.Outcome} {wanted : Machine → Prop} {x l : String}
  {v : Single} {n k slot : Nat}

namespace Operand

theorem Is.denotes {named : Bool} (h : Is p store o (.value named)) :
    ∃ v, Denotes store o v := by
  cases h with
  | number v => exact ⟨v, .number v⟩
  | name hget => exact ⟨_, .name hget⟩

theorem Is.exists_name (h : Is p store o (.value true)) :
    ∃ x v, o = .name x ∧ store.get? x = some v := by
  cases h with
  | name hget => exact ⟨_, _, rfl, hget⟩

theorem Is.exists_label (h : Is p store o .label) :
    ∃ slot l, o = .label slot ∧ p.labels[slot]? = some l := by
  cases h with
  | label hslot => exact ⟨_, _, rfl, hslot⟩

end Operand

/-- Setting a variable takes no other variable away. -/
theorem Store.exists_get?_set (h : ∃ w, store.get? x = some w) (y : String) :
    ∃ w, (store.set y v).get? x = some w := by
  rw [get?_set]
  split
  · exact ⟨v, rfl⟩
  · exact h

theorem Fills.set (h : Fills p store stack s) (y : String) :
    Fills p (store.set y v) stack s := by
  refine h.imp fun o kind hkind => ?_
  cases hkind with
  | number w => exact .number w
  | name hget =>
      obtain ⟨w, hw⟩ := Store.exists_get?_set (v := v) ⟨_, hget⟩ y
      exact .name hw
  | label hslot => exact .label hslot

/-! ## Steps -/

theorem Item.size_pos (item : Item) : 0 < item.size := by
  cases item <;> exact Nat.succ_pos _

/-- Items of the same size from the same start are the same. -/
theorem Item.prefix_unique {c d : List Item} (hitems : a ++ b = c ++ d)
    (hsizes : Item.sizes a = Item.sizes c) : a = c := by
  have hnil : ∀ {e : List Item}, Item.sizes e = 0 → e = [] := by
    intro e he
    cases e with
    | nil => rfl
    | cons item e =>
        have := item.size_pos
        rw [Item.sizes_cons] at he
        omega
  rcases List.append_eq_append_iff.mp hitems with ⟨e, rfl, -⟩ | ⟨e, rfl, -⟩
  · rw [Item.sizes_append] at hsizes
    rw [hnil (by omega : Item.sizes e = 0), List.append_nil]
  · rw [Item.sizes_append] at hsizes
    rw [hnil (by omega : Item.sizes e = 0), List.append_nil]

/-- Where a label is found there is a place of it. -/
theorem Item.find?_eq_some : ∀ {items : List Item} {k : Nat},
    Item.find? l k items = some n →
      ∃ a b, items = a ++ .place l :: b ∧ n = k + Item.sizes a + 2
  | item :: rest, k, h => by
      rw [Item.find?] at h
      split at h
      · next hitem =>
          obtain rfl := Option.some.inj h
          exact ⟨[], rest, congrArg (· :: rest) hitem, rfl⟩
      · obtain ⟨a, b, rfl, hn⟩ := find?_eq_some h
        exact ⟨item :: a, b, rfl, by rw [hn, Item.sizes_cons]; omega⟩

/-- A jump leads to where the stack is empty. -/
theorem rests_of_target (hemits : Emits p items) (hturns : TurnsAll items [] [])
    (htarget : p.target? slot = some n) : Rests items 0 n := by
  have hlt : slot < p.labels.length := by
    unfold Program.target? at htarget
    split at htarget
    · assumption
    · cases htarget
  rw [hemits.target? (List.getElem?_eq_getElem hlt)] at htarget
  obtain ⟨a, b, rfl, hn⟩ := Item.find?_eq_some htarget
  obtain ⟨s, ha, hplace⟩ := hturns.split
  cases hplace with
  | cons hplace _ =>
      cases hplace with
      | place =>
          refine ⟨a ++ [.place p.labels[slot]], b, by simp, ?_,
            ha.append (.one (.place _))⟩
          rw [hn, Item.sizes_append, Nat.add_assoc]
          rfl

theorem safe_of_next (hnext : Next p m m')
    (hwanted : ∀ n, wanted { m' with steps := n })
    (hstep : m.step? p = some outcome) : Safe wanted outcome := by
  obtain ⟨j, hj⟩ := hnext m.steps
  obtain rfl := Option.some.inj (hstep.symm.trans hj)
  exact .ok (hwanted j)

theorem safe_of_faults (hfaults : Faults p m cause m')
    (hcause : cause.isInternal = false) (hstep : m.step? p = some outcome) :
    Safe wanted outcome := by
  obtain ⟨j, hj⟩ := hfaults m.steps
  obtain rfl := Option.some.inj (hstep.symm.trans hj)
  exact .fault hcause

theorem Situation.takeNumber_isInternal {input later : List UInt8}
    (h : takeNumber x input = (.error cause, later)) :
    cause.isInternal = false := by
  have hcause := congrArg Prod.fst h
  unfold takeNumber at hcause
  dsimp only at hcause
  split at hcause
  · cases hcause
    rfl
  · split at hcause
    · cases hcause
      rfl
    · split at hcause
      · cases hcause
      · cases hcause
        rfl

theorem shaped_behind (ha : TurnsAll a [] s) (hitem : Turns item s t)
    (hknown : ∀ x, .name x ∈ p.ops → ∃ v, m.store.get? x = some v)
    (hfills : Fills p m.store stack t) (n : Nat) :
    Shaped p (a ++ item :: rest)
      { m.standing (Item.sizes a + item.size) stack with steps := n } :=
  ⟨⟨a ++ [item], rest, t, by simp, by simp [Machine.standing],
    ha.append (.one hitem), hfills⟩, hknown⟩

theorem shaped_of_rests (hrests : Rests items 0 k)
    (hknown : ∀ x, .name x ∈ p.ops → ∃ v, m.store.get? x = some v) (n : Nat) :
    Shaped p items { m.standing k [] with steps := n } := by
  obtain ⟨a, b, hitems, hk, ha⟩ := hrests
  exact ⟨⟨a, b, [], hitems, hk.trans (Nat.zero_add _), ha, .nil⟩, hknown⟩

/-- What an item does to a shape its operation does to a stack: it leads behind
the item, with a stack of the shape there, or it jumps with an empty one. -/
theorem safe_of_turns (hseg : Seg p k (item :: rest)) (hitem : Turns item s t)
    (hknown : ∀ x, .name x ∈ p.ops → ∃ v, m.store.get? x = some v)
    (hfills : Fills p m.store stack s)
    (hbehind : ∀ {m' : Machine} {stack' : List Operand},
      (∀ x, .name x ∈ p.ops → ∃ v, m'.store.get? x = some v) →
        Fills p m'.store stack' t →
          ∀ j, wanted { m'.standing (k + item.size) stack' with steps := j })
    (hjump : ∀ {slot n}, p.target? slot = some n →
      ∀ j, wanted { m.standing n [] with steps := j })
    (hstep : (m.standing k stack).step? p = some outcome) :
    Safe wanted outcome := by
  cases hitem with
  | name x =>
      obtain ⟨v, hget⟩ := hknown x (List.mem_of_getElem? hseg.op)
      exact safe_of_next (next_name hseg)
        (hbehind hknown (.cons (.name hget) hfills)) hstep
  | number v =>
      exact safe_of_next (next_number hseg)
        (hbehind hknown (.cons (.number _) hfills)) hstep
  | label l =>
      obtain ⟨slot, hslot, hnext⟩ := next_label hseg
      exact safe_of_next hnext
        (hbehind hknown (.cons (.label hslot) hfills)) hstep
  | place l =>
      exact safe_of_next (next_place hseg) (hbehind hknown hfills) hstep
  | neg =>
      obtain _ | ⟨ho, hfills⟩ := hfills
      obtain ⟨v, hv⟩ := ho.denotes
      exact safe_of_next (next_neg hseg hv)
        (hbehind hknown (.cons (.number _) hfills)) hstep
  | not =>
      obtain _ | ⟨ho, hfills⟩ := hfills
      obtain ⟨v, hv⟩ := ho.denotes
      exact safe_of_next (next_not hseg hv)
        (hbehind hknown (.cons (.number _) hfills)) hstep
  | binary operator left right =>
      obtain _ | ⟨ho, hfills⟩ := hfills
      obtain _ | ⟨ho', hfills⟩ := hfills
      obtain ⟨v, hv⟩ := ho.denotes
      obtain ⟨w, hw⟩ := ho'.denotes
      exact safe_of_next (next_binary hseg hw hv)
        (hbehind hknown (.cons (.number _) hfills)) hstep
  | assign named =>
      obtain _ | ⟨ho, hfills⟩ := hfills
      obtain _ | ⟨ho', hfills⟩ := hfills
      obtain ⟨v, hv⟩ := ho.denotes
      obtain ⟨x, w, rfl, -⟩ := ho'.exists_name
      exact safe_of_next (next_assign hseg hv)
        (hbehind (fun y hy => Store.exists_get?_set (hknown y hy) x)
          (Fills.set hfills x)) hstep
  | read =>
      obtain _ | ⟨ho, hfills⟩ := hfills
      obtain ⟨x, w, rfl, -⟩ := ho.exists_name
      cases hinput : Situation.takeNumber x m.input with
      | mk value later =>
          cases value with
          | error cause =>
              exact safe_of_faults (faults_read hseg hinput)
                (Situation.takeNumber_isInternal hinput) hstep
          | ok v =>
              exact safe_of_next (next_read hseg hinput)
                (hbehind (fun y hy => Store.exists_get?_set (hknown y hy) x)
                  (Fills.set hfills x)) hstep
  | write =>
      obtain _ | ⟨ho, hfills⟩ := hfills
      obtain ⟨x, v, rfl, hget⟩ := ho.exists_name
      obtain ⟨output, room, hnext | hfaults⟩ := write_or_full hseg hget
      · exact safe_of_next hnext (hbehind hknown hfills) hstep
      · exact safe_of_faults hfaults rfl hstep
  | jump =>
      obtain _ | ⟨ho, hfills⟩ := hfills
      obtain ⟨slot, l, rfl, hslot⟩ := ho.exists_label
      cases hfills
      cases htarget : p.target? slot with
      | none => exact safe_of_faults (faults_jump hseg htarget hslot) rfl hstep
      | some n =>
          exact safe_of_next (next_jump hseg htarget) (hjump htarget) hstep
  | jumpIfFalse named =>
      obtain _ | ⟨ho, hfills⟩ := hfills
      obtain _ | ⟨ho', hfills⟩ := hfills
      obtain ⟨slot, l, rfl, hslot⟩ := ho.exists_label
      obtain ⟨v, hv⟩ := ho'.denotes
      cases hfills
      cases hfalse : v.le .zero with
      | false =>
          exact safe_of_next (next_jumpIfFalse_of_true hseg hv hfalse)
            (hbehind hknown .nil) hstep
      | true =>
          cases htarget : p.target? slot with
          | none =>
              exact safe_of_faults
                (faults_jumpIfFalse hseg hv hfalse htarget hslot) rfl hstep
          | some n =>
              have hnext := next_jumpIfFalse (s := []) hseg hv htarget
              rw [if_pos hfalse] at hnext
              exact safe_of_next hnext (hjump htarget) hstep

/-- A step of a machine whose stack has the shape that belongs there leads to
such a machine again, or to a fault that is not internal. -/
theorem Shaped.step (hemits : Emits p items) (hturns : TurnsAll items [] [])
    (h : Shaped p items m) (hstep : m.step? p = some outcome) :
    Safe (Shaped p items) outcome := by
  obtain ⟨a, b, s, rfl, hposition, ha, hfills⟩ := h.position
  have hknown := h.known
  obtain ⟨_, ha', hb⟩ := hturns.split
  obtain rfl := ha.unique ha'
  have hm : m = m.standing (Item.sizes a) m.stack := by
    rw [← hposition]
    rfl
  rw [hm] at hstep
  generalize m.stack = stack at hstep hfills
  cases hb with
  | nil =>
      have hend : p.ops[Item.sizes a]? = none := by
        have hlength := hemits.carries.length_eq
        rw [List.append_nil] at hlength
        exact List.getElem?_eq_none (Nat.le_of_eq hlength)
      have hnone : (m.standing (Item.sizes a) stack).step? p = none :=
        congrArg (Option.map _) hend
      rw [hnone] at hstep
      cases hstep
  | @cons item rest _ t _ hitem hrest =>
      have hseg : Seg p (Item.sizes a) (item :: rest) :=
        ⟨a, [], by simpa using hemits.carries, rfl⟩
      exact safe_of_turns hseg hitem hknown hfills (shaped_behind ha hitem)
        (fun htarget =>
          shaped_of_rests (rests_of_target hemits hturns htarget) hknown)
        hstep

/-! ## Runs -/

/-- Where control can be, the operations allowed by a limit: from a machine on,
as long as nothing faults. -/
abbrev Visits (limit : Option Nat) (p : Program) : Machine → Machine → Prop :=
  Relation.ReflTransGen fun m m' => m.stepWithin? limit p = some (.ok m')

theorem Machine.step?_eq_none_of_stepWithin?
    (h : m.stepWithin? limit p = none) : m.step? p = none := by
  cases limit with
  | none => exact h
  | some n => exact Option.map_eq_none_iff.mp h

namespace Shaped

theorem stepWithin (hemits : Emits p items) (hturns : TurnsAll items [] [])
    (h : Shaped p items m) (hstep : m.stepWithin? limit p = some outcome) :
    Safe (Shaped p items) outcome := by
  rcases Machine.stepWithin?_eq_some hstep with hstep | ⟨n, rfl⟩
  · exact h.step hemits hturns hstep
  · exact .fault rfl

theorem visits (hemits : Emits p items) (hturns : TurnsAll items [] [])
    (h : Shaped p items m) (hvisits : Visits limit p m m') :
    Shaped p items m' := by
  induction hvisits with
  | refl => exact h
  | tail _ hstep ih =>
      cases ih.stepWithin hemits hturns hstep with
      | ok hshaped => exact hshaped

/-- Where the items in front leave the shape empty nothing is on the stack. -/
theorem stack_eq_nil (h : Shaped p items m)
    (hrests : Rests items 0 m.position) : m.stack = [] := by
  obtain ⟨a, b, s, hitems, hposition, ha, hfills⟩ := h.position
  obtain ⟨c, d, hitems', hposition', hc⟩ := hrests
  obtain rfl := Item.prefix_unique (hitems.symm.trans hitems')
    (hposition.symm.trans (hposition'.trans (Nat.zero_add _)))
  obtain rfl := ha.unique hc
  exact List.forall₂_nil_right_iff.mp hfills

theorem rests_of_step?_eq_none (hemits : Emits p items)
    (hturns : TurnsAll items [] []) (h : Shaped p items m)
    (hend : m.step? p = none) : Rests items 0 m.position := by
  obtain ⟨a, b, s, rfl, hposition, -⟩ := h.position
  have hnone : p.ops[m.position]? = none := Option.map_eq_none_iff.mp hend
  have hle := List.getElem?_eq_none_iff.mp hnone
  rw [hemits.carries.length_eq, hposition, Item.sizes_append] at hle
  have hb : b = [] := by
    cases b with
    | nil => rfl
    | cons item b =>
        have := item.size_pos
        rw [Item.sizes_cons] at hle
        omega
  subst hb
  rw [List.append_nil] at hturns
  exact ⟨a, [], rfl, hposition.trans (Nat.zero_add _).symm, hturns⟩

/-- A run ends with a fault that is not internal, or at the end of the program
with nothing on the stack. -/
theorem run (hemits : Emits p items) (hturns : TurnsAll items [] [])
    {halt : Halt} : ∀ {budget : Nat} {m : Machine}, Shaped p items m →
      Machine.run limit p budget m = some halt →
        (∀ cause, halt.fault = some cause → cause.isInternal = false) ∧
          (halt.fault = none → halt.machine.stack = []) := by
  intro budget
  induction budget with
  | zero => exact nofun
  | succ budget ih =>
      intro m h hrun
      unfold Machine.run at hrun
      split at hrun
      · next hend =>
          cases hrun
          have hnone := Machine.step?_eq_none_of_stepWithin? hend
          exact ⟨nofun, fun _ =>
            h.stack_eq_nil (h.rests_of_step?_eq_none hemits hturns hnone)⟩
      · next cause after hstep =>
          cases hrun
          cases h.stepWithin hemits hturns hstep with
          | fault hcause => exact ⟨by rintro _ ⟨rfl⟩; exact hcause, nofun⟩
      · next after hstep =>
          cases h.stepWithin hemits hturns hstep with
          | ok hshaped => exact ih hshaped hrun

/-- At its start a machine knows all names. -/
theorem start (input : List UInt8) (room : Option Nat) :
    Shaped p items (.start (Store.empty.prepare p) input room) where
  position := ⟨[], items, [], rfl, rfl, .nil [], .nil⟩
  known _ hx :=
    ⟨.zero, Store.get?_prepare.trans (if_pos (Program.mem_identifiers.mpr hx))⟩

end Shaped

/-! ## Programs -/

/-- A composed program never stops for want of an operand, for one of the wrong
kind, for a constant that is missing or for a variable that is not known. Its
stack is empty wherever a jump can lead and wherever the code of a statement
ends, and what ends without a fault leaves nothing. -/
theorem Composer.runs_balanced {tokens : List Token} {parsed : Parsed}
    {c : Composer} {labels : List String} {store : Store}
    (hparse : Language.parse tokens = .ok parsed)
    (hcompose : compose tokens labels store = .ok c) :
    (∀ limit budget input room halt, Machine.run limit c.program budget
        (.start (Store.empty.prepare c.program) input room) = some halt →
      (∀ cause, halt.fault = some cause → cause.isInternal = false) ∧
        (halt.fault = none → halt.value = .ok none ∧ halt.machine.stack = [])) ∧
    (∃ source : Source, Spells tokens source.lexemes) ∧
    ∀ source : Source, Spells tokens source.lexemes →
      CarriesAll c.program (source.body.items ⟨labels, store⟩) c.program.ops ∧
        ∀ limit input room m, Visits limit c.program
            (.start (Store.empty.prepare c.program) input room) m →
          (∃ slot, c.program.target? slot = some m.position) ∨
            m.position ∈ source.body.ends ⟨labels, store⟩ 0 → m.stack = [] := by
  have hcarries : ∀ source : Source, Spells tokens source.lexemes →
      Emits c.program (source.body.items ⟨labels, store⟩) := by
    intro source hspells
    obtain ⟨c', hc', hemits⟩ := compose_eq_ok hspells labels store
    obtain rfl := Except.ok.inj (hcompose.symm.trans hc')
    exact hemits
  have hsource := Language.exists_source hparse
  refine ⟨fun limit budget input room halt hrun => ?_, hsource,
    fun source hspells => ⟨(hcarries source hspells).carries, ?_⟩⟩
  · obtain ⟨source, hspells⟩ := hsource
    obtain ⟨hfault, hstack⟩ := (Shaped.start input room).run
      (hcarries source hspells) (source.body.turnsAll _) hrun
    refine ⟨hfault, fun hnone => ⟨?_, hstack hnone⟩⟩
    rw [Halt.value, hnone, Machine.result, hstack hnone]
  · intro limit input room m hvisits hplace
    have hemits := hcarries source hspells
    have hturns := source.body.turnsAll ⟨labels, store⟩
    refine ((Shaped.start input room).visits hemits hturns
      hvisits).stack_eq_nil ?_
    rcases hplace with ⟨slot, htarget⟩ | hend
    · exact rests_of_target hemits hturns htarget
    · exact source.body.rests_of_mem_ends hend

theorem counting_runs_balanced :
    ∃ c, Composer.compose counting.tokens [] .empty = .ok c ∧
      ∀ limit budget input room halt, Machine.run limit c.program budget
          (.start (Store.empty.prepare c.program) input room) = some halt →
        halt.fault = none → halt.value = .ok none ∧
        halt.machine.stack = [] := by
  obtain ⟨parsed, hparsed⟩ := counting.exists_parsed
  obtain ⟨c, hc, -⟩ := Composer.compose_eq_ok counting.spells_tokens [] .empty
  have hruns := (Composer.runs_balanced hparsed hc).1
  exact ⟨c, hc, fun limit budget input room halt hrun =>
    (hruns limit budget input room halt hrun).2⟩

end Reckon
