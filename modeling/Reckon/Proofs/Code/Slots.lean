import Mathlib.Data.List.Induction
import Reckon.Proofs.Compile.Item
import Reckon.Proofs.Single.Halfway

/-!
# The slots of a program that is being built

Operations are pushed, and slots are asked for, in any order. Whoever got a slot
keeps it, so it matters that what is behind it stays. What a program is after
some requests can be told from the requests and the slots they got (`Recounts`):
its operations are what they put out, and each of its two tables is a pool that
has served those of one class. One more request keeps this, whichever it is
(`Recounts.answer`), and so do all that follow.

Names have one slot each. Constants share one with the first entry near
them, and entries are never near each other, but a constant between two of
them can be near both.
-/

namespace Reckon

/-- What can be asked of a program that is being built. -/
inductive Request where
  | push (op : Op)
  | pushName (x : String)
  | pushConstant (v : Single)
  | pushLabel (l : String)
  | internConstant (v : Single)
  | internLabel (l : String)
deriving DecidableEq, Repr

namespace Request

/-- The constant that a slot is asked for. -/
def constant? : Request → Option Single
  | pushConstant v | internConstant v => some v
  | _ => none

/-- The label that a slot is asked for. -/
def label? : Request → Option String
  | pushLabel l | internLabel l => some l
  | _ => none

/-- What is put out for a request and the slot that it got. -/
def put : Request → Option Nat → List Op
  | push op, _ => [op]
  | pushName x, _ => [.name x]
  | pushConstant _, some slot => [.constant slot]
  | pushLabel _, some slot => [.label slot]
  | _, _ => []

end Request

namespace Program

/-- The slot that a request gets, if it asks for one, and the
program behind it. -/
def answer (p : Program) : Request → Option Nat × Program
  | .push op => (none, p.push op)
  | .pushName x => (none, p.pushName x)
  | .pushConstant v => (some (p.internConstant v).1, p.pushConstant v)
  | .pushLabel l => (some (p.internLabel l).1, p.pushLabel l)
  | .internConstant v => (some (p.internConstant v).1, (p.internConstant v).2)
  | .internLabel l => (some (p.internLabel l).1, (p.internLabel l).2)

/-- The program behind some requests. -/
def serve (p : Program) (requests : List Request) : Program :=
  requests.foldl (fun p r => (p.answer r).2) p

/-- Some requests, each with the slot that it gets. -/
def answers (p : Program) : List Request → List (Request × Option Nat)
  | [] => []
  | r :: rest => (r, (p.answer r).1) :: (p.answer r).2.answers rest

variable {p : Program} {past : List (Request × Option Nat)}
  {requests : List Request}

/-! ## Nothing is taken back -/

/-- Whatever is asked for, what is in the tables stays in its place. -/
theorem grows_answer (p : Program) (r : Request) : p.Grows (p.answer r).2 := by
  cases r with
  | push op | pushName x => exact .refl p
  | pushConstant v | internConstant v => exact p.grows_pushConstant v
  | pushLabel l | internLabel l => exact p.grows_pushLabel l

theorem grows_serve (p : Program) (requests : List Request) :
    p.Grows (p.serve requests) := by
  induction requests generalizing p with
  | nil => exact .refl p
  | cons r rest ih => exact (grows_answer p r).trans (ih _)

/-! ## What requests make of a program -/

/-- The slot of a constant with its value. -/
def constantSlot? : Request × Option Nat → Option (Nat × Single)
  | (r, some slot) => r.constant?.map (slot, ·)
  | (_, none) => none

/-- The slot of a label with its name. -/
def labelSlot? : Request × Option Nat → Option (Nat × String)
  | (r, some slot) => r.label?.map (slot, ·)
  | (_, none) => none

/-- A program is what some requests made of an empty one. Those that ask for a
slot got one. -/
structure Recounts (p : Program) (past : List (Request × Option Nat)) :
    Prop where
  ops : p.ops = past.flatMap fun (r, slot) => r.put slot
  constants : Pool.Serves Single.near p.constants (past.filterMap constantSlot?)
  labels : Pool.Serves (· == ·) p.labels (past.filterMap labelSlot?)
  answered : ∀ r slot, (r, slot) ∈ past →
    (slot = none ↔ r.constant? = none ∧ r.label? = none)

namespace Recounts

theorem empty : Recounts {} [] :=
  ⟨rfl, Pool.serves_nil _, Pool.serves_nil _, nofun⟩

/-- One more request adds to the tables it is concerned with and
leaves the others. -/
theorem answer (h : Recounts p past) (r : Request) :
    Recounts (p.answer r).2 (past ++ [(r, (p.answer r).1)]) := by
  have hconstants := h.constants
  have hlabels := h.labels
  refine ⟨?_, ?_, ?_, ?_⟩
  · rw [List.flatMap_append, ← h.ops]
    cases r with
    | internConstant | internLabel => exact (List.append_nil p.ops).symm
    | _ => rfl
  · rw [List.filterMap_append]
    cases r with
    | pushConstant v | internConstant v => exact hconstants.intern v
    | _ =>
        exact (List.append_nil (past.filterMap constantSlot?)).symm ▸
          hconstants
  · rw [List.filterMap_append]
    cases r with
    | pushLabel l | internLabel l => exact hlabels.intern l
    | _ => exact (List.append_nil (past.filterMap labelSlot?)).symm ▸ hlabels
  · intro r' slot hmem
    rcases List.mem_append.mp hmem with hmem | hmem
    · exact h.answered r' slot hmem
    · obtain ⟨rfl, rfl⟩ := Prod.mk.inj (List.mem_singleton.mp hmem)
      cases r' <;> simp [Program.answer, Request.constant?, Request.label?]

theorem serve (h : Recounts p past) (requests : List Request) :
    Recounts (p.serve requests) (past ++ p.answers requests) := by
  induction requests generalizing p past with
  | nil => exact (List.append_nil past).symm ▸ h
  | cons r rest ih =>
      have hrest := ih (h.answer r)
      rwa [List.append_assoc] at hrest

end Recounts

theorem recounts_serve (requests : List Request) :
    Recounts (serve {} requests) (answers {} requests) :=
  Recounts.empty.serve requests

/-! ## What slots hold -/

namespace Recounts

variable {r r' : Request} {slot slot' : Nat} {v : Single} {l l' : String}

/-- Behind the slot of a constant is this constant or one near it. -/
theorem exists_constant (h : Recounts p past) (hr : (r, some slot) ∈ past)
    (hv : r.constant? = some v) :
    ∃ w, p.constants[slot]? = some w ∧ (w = v ∨ w.near v = true) := by
  refine h.constants.answers slot v (List.mem_filterMap.mpr ⟨_, hr, ?_⟩)
  rw [constantSlot?, hv, Option.map_some]

/-- Behind the slot of a label is this label. -/
theorem label_eq (h : Recounts p past) (hr : (r, some slot) ∈ past)
    (hl : r.label? = some l) : p.labels[slot]? = some l := by
  have hserved : (slot, l) ∈ past.filterMap labelSlot? :=
    List.mem_filterMap.mpr ⟨_, hr, by rw [labelSlot?, hl, Option.map_some]⟩
  obtain ⟨w, hw, hsame⟩ := h.labels.answers slot l hserved
  exact hsame.elim id beq_iff_eq.mp ▸ hw

/-- Labels have one slot each. -/
theorem label_eq_iff (h : Recounts p past) (hr : (r, some slot) ∈ past)
    (hr' : (r', some slot') ∈ past) (hl : r.label? = some l)
    (hl' : r'.label? = some l') : slot = slot' ↔ l = l' := by
  have hslot := h.label_eq hr hl
  have hslot' := h.label_eq hr' hl'
  constructor
  · rintro rfl
    exact Option.some.inj (hslot.symm.trans hslot')
  · rintro rfl
    have hnodup : p.labels.Nodup := h.labels.apart.imp beq_eq_false_iff_ne.mp
    exact (List.getElem?_inj (List.getElem?_eq_some_iff.mp hslot).1 hnodup).mp
      (hslot.trans hslot'.symm)

end Recounts

/-- After any requests to an empty program, in any order:

* its operations are those that were pushed and those of the slots that were
  handed out, and only requests for a constant or a label got a slot;
* behind the slot of a constant is the constant or one near it, which is less
  than 10⁻⁵ away, and whatever is asked for later, it stays there;
* behind the slot of a label is the label, and stays there, and two labels have
  the same slot exactly if they are equal;
* no two entries of the pool of constants are near each other: if both are
  finite, they are as far apart as the tolerance, but for half a unit of its
  last place. -/
theorem slots_of_requests (requests : List Request) :
    let p := serve {} requests
    let past := answers {} requests
    (p.ops = past.flatMap fun (r, slot) => r.put slot) ∧
    (∀ r slot, (r, slot) ∈ past →
      (slot = none ↔ r.constant? = none ∧ r.label? = none)) ∧
    (∀ r slot v, (r, some slot) ∈ past → r.constant? = some v → ∃ w : Single,
      (w = v ∨ w.near v = true ∧ 100000 * w.distance v < Single.unitsOfOne) ∧
        ∀ later, (p.serve later).constants[slot]? = some w) ∧
    (∀ r slot l, (r, some slot) ∈ past → r.label? = some l →
      ∀ later, (p.serve later).labels[slot]? = some l) ∧
    (∀ r r' slot slot' l l', (r, some slot) ∈ past → (r', some slot') ∈ past →
      r.label? = some l → r'.label? = some l' → (slot = slot' ↔ l = l')) ∧
    ∀ (i j : Nat) (a b : Single), i ≠ j → p.constants[i]? = some a →
      p.constants[j]? = some b →
      a.near b = false ∧ (a.isFinite = true → b.isFinite = true →
        2 * Single.tolerance.units ≤
          2 * a.distance b + Single.spacing Single.tolerance.magnitude) := by
  have hrecounts := recounts_serve requests
  refine ⟨hrecounts.ops, hrecounts.answered, ?_, ?_, ?_, ?_⟩
  · intro r slot v hr hv
    obtain ⟨w, hw, hsame⟩ := hrecounts.exists_constant hr hv
    refine ⟨w, hsame.imp_right fun hnear =>
      ⟨hnear, Single.distance_lt_of_near hnear⟩, ?_⟩
    exact fun later => getElem?_of_isPrefix (grows_serve _ later).1 hw
  · intro r slot l hr hl later
    exact getElem?_of_isPrefix (grows_serve _ later).2
      (hrecounts.label_eq hr hl)
  · exact fun r r' slot slot' l l' => hrecounts.label_eq_iff
  · intro i j a b hne ha hb
    have hfar :=
      hrecounts.constants.eq_false_of_ne (fun _ _ => Single.near_symm) hne ha hb
    refine ⟨hfar, fun hfinite hfinite' => Nat.not_lt.mp fun hless => ?_⟩
    cases (Single.near_iff_distance.mpr ⟨hfinite, hfinite',
      hless⟩).symm.trans hfar

/-- The constant 0.000006 is near both 0 and 0.000012, which are not near each
other. It gets the slot of the first. -/
example :
    (answers {} [.pushConstant .zero,
      .internConstant (.ofDecimal false 12 (-6)),
      .pushConstant (.ofDecimal false 6 (-6))]).map Prod.snd =
    [some 0, some 1, some 0] := by
  decide +kernel

end Program

end Reckon
