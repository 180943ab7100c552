import Reckon.Proofs.Compile.Code
import Reckon.Proofs.Single.Same
import Reckon.Proofs.Syntax.Translation

/-!
# What code evaluates to

There are two ways to put the items of a formula in a row. The composer puts a
minus sign behind the first factor that it stands in front of, as `code` has it,
and where productions put it out it comes behind the whole product, as
`translation` has it. Both rows are evaluated by the same stack of numbers, so
each of them has a value by recursion on the tree: `value` is that of the first
and `plain` that of the second.

They are the same because a sign can be moved out of a product or a quotient. It
never has to be moved out of anything else.
-/

namespace Reckon

/-! ## Rows of items -/

namespace Item

/-- What an item of a formula makes of a stack of numbers. -/
def act (pooled : Single → Single) (values : String → Single) :
    Item → List Single → Option (List Single)
  | op (.name x), vs => some (values x :: vs)
  | number v, vs => some (pooled v :: vs)
  | op .neg, v :: vs => some (-v :: vs)
  | op .not, v :: vs => some (.ofBool (v.le .zero) :: vs)
  | op (.binary o), w :: v :: vs => some (o.apply v w :: vs)
  | _, _ => none

/-- What items make of a stack of numbers, one after the other. -/
def evaluate (pooled : Single → Single) (values : String → Single) :
    List Item → List Single → Option (List Single)
  | [], vs => some vs
  | item :: items, vs =>
      (item.act pooled values vs).bind (evaluate pooled values items)

variable {pooled : Single → Single} {values : String → Single} {a b : List Item}
  {vs ws us : List Single}

theorem evaluate_append (ha : evaluate pooled values a vs = some ws)
    (hb : evaluate pooled values b ws = some us) :
    evaluate pooled values (a ++ b) vs = some us := by
  induction a generalizing vs with
  | nil =>
      obtain rfl := Option.some.inj ha
      exact hb
  | cons item a ih =>
      obtain ⟨next, hnext, ha⟩ := Option.bind_eq_some_iff.mp ha
      exact Option.bind_eq_some_iff.mpr ⟨next, hnext, ih ha⟩

theorem evaluate_signs (negative : Bool) (v : Single) (vs : List Single) :
    evaluate pooled values ((Op.signs negative).map op) (v :: vs) =
      some (v.signed negative :: vs) := by
  cases negative <;> rfl

end Item

namespace Formula

variable (pooled : Single → Single) (values : String → Single)

theorem evaluate_code {t : Tier} (e : Formula t) : ∀ negative vs,
    Item.evaluate pooled values (e.code negative) vs =
      some (e.value pooled values negative :: vs) := by
  induction e with
  | name x =>
      exact fun negative vs => Item.evaluate_signs negative (values x) vs
  | constant v =>
      exact fun negative vs => Item.evaluate_signs negative (pooled v) vs
  | group e ih =>
      exact fun negative vs =>
        Item.evaluate_append (ih false vs) (Item.evaluate_signs ..)
  | bracket c ih => exact fun _ vs => ih false vs
  | only a ih => exact ih
  | negated a ih => exact fun _ vs => ih true vs
  | not a ih => exact fun _ vs => Item.evaluate_append (ih false vs) rfl
  | compare a o b iha ihb =>
      exact fun _ vs => Item.evaluate_append
        (Item.evaluate_append (iha false vs) (ihb false _)) rfl
  | join a o b iha ihb =>
      exact fun negative vs => Item.evaluate_append
        (Item.evaluate_append (iha negative vs) (ihb false _)) rfl

/-- The value of a formula whose minus signs stand for the whole product behind
them. -/
def plain {t : Tier} : Formula t → Single
  | name x => values x
  | constant v => pooled v
  | group e => e.plain
  | compare a o b => o.val.apply a.plain b.plain
  | bracket c => c.plain
  | not a => .ofBool (a.plain.le .zero)
  | only a => a.plain
  | negated a => -a.plain
  | join a o b => o.val.apply a.plain b.plain

theorem evaluate_translation {t : Tier} (e : Formula t) : ∀ vs,
    Item.evaluate pooled values e.translation vs =
      some (e.plain pooled values :: vs) := by
  induction e with
  | name | constant => exact fun _ => rfl
  | group e ih | bracket e ih | only e ih => exact ih
  | negated a ih | not a ih => exact fun vs => Item.evaluate_append (ih vs) rfl
  | compare a o b iha ihb | join a o b iha ihb =>
      exact fun vs =>
        Item.evaluate_append (Item.evaluate_append (iha vs) (ihb _)) rfl

end Formula

/-! ## Where the sign stands -/

/-- Tiers whose formulas can have a minus sign in front of them. -/
def Tier.isSigned : Tier → Bool
  | factor | chain .product => true
  | test | chain .sum | chain .conjunction | chain .condition => false

/-- The sign of a first operand is that of a product or a quotient. -/
theorem Binary.apply_signed {o : Binary} (ho : o ∈ Level.product.operators)
    (negative : Bool) (a b : Single) :
    (o.apply (a.signed negative) b).Same ((o.apply a b).signed negative) := by
  cases negative with
  | false => exact .refl _
  | true =>
      have heither : o = .mul ∨ o = .div := by simpa [Level.operators] using ho
      rcases heither with rfl | rfl
      · exact Single.neg_mul a b
      · exact Single.neg_div a b

theorem Single.Same.signed {a b : Single} (h : a.Same b) (negative : Bool) :
    (a.signed negative).Same (b.signed negative) := by
  cases negative with
  | false => exact h
  | true => exact h.neg

/-- A sign can stand in front of a product or at its first factor. -/
theorem Formula.value_same (pooled : Single → Single) (values : String → Single)
    {t : Tier} (e : Formula t) :
    ∀ {negative : Bool}, (negative = true → t.isSigned = true) →
      (e.value pooled values negative).Same
        ((e.plain pooled values).signed negative) := by
  have hunsigned : ∀ {t : Tier}, false = true → t.isSigned = true := nofun
  have hplus : ∀ {t : Tier} {negative : Bool}, t.isSigned = false →
      (negative = true → t.isSigned = true) → negative = false := by
    intro t negative ht hsigned
    cases negative with
    | false => rfl
    | true => cases ht.symm.trans (hsigned rfl)
  induction e with
  | name | constant => exact fun _ => .refl _
  | group e ih => exact fun _ => (ih hunsigned).signed _
  | compare a o b iha ihb =>
      intro negative hsigned
      obtain rfl := hplus rfl hsigned
      exact .inl (o.val.apply_congr (iha hunsigned) (ihb hunsigned))
  | bracket c ih =>
      intro negative hsigned
      obtain rfl := hplus rfl hsigned
      exact ih hunsigned
  | not a ih =>
      intro negative hsigned
      obtain rfl := hplus rfl hsigned
      exact .inl (congrArg Single.ofBool (ih hunsigned).le_zero)
  | @only l a ih =>
      intro negative hsigned
      cases l with
      | product => exact ih fun _ => rfl
      | sum | conjunction | condition =>
          obtain rfl := hplus rfl hsigned
          exact ih hunsigned
  | negated a ih =>
      intro negative hsigned
      obtain rfl := hplus rfl hsigned
      exact ih fun _ => rfl
  | @join l a o b iha ihb =>
      intro negative hsigned
      have hb := ihb hunsigned
      cases l with
      | product =>
          have hsame := o.val.apply_congr (iha hsigned) hb
          have hsign := Binary.apply_signed o.property negative
            (a.plain pooled values) (b.plain pooled values)
          exact Single.Same.trans (.inl hsame) hsign
      | sum | conjunction | condition =>
          obtain rfl := hplus rfl hsigned
          exact .inl (o.val.apply_congr (iha hunsigned) hb)

end Reckon
