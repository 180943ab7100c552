import Reckon.Proofs.Compile.Feeding
import Reckon.Proofs.Syntax.Edges

/-!
# Formulas are composed

When the words of a formula have been fed, part of its code is out and the rest
waits as operators on the stack, and the two together are its code. Which
operators can still wait is bounded from below by the tier of the formula, so
that the operator which carries the formula on sends them all out; and what
waited before is bounded from above, so that no operator inside the formula
reaches further down. The two bounds are `Tier.hold` and `Tier.room`.

A minus sign waits like any operator, above what was there before the factor it
belongs to. It binds as tightly as multiplication and is sent out by it, which
is why it is the sign of the first factor.
-/

namespace Reckon

/-- What waits above may bind this tightly or more when a formula is done. -/
def Tier.hold : Tier → Nat
  | factor | chain .product => 8
  | chain .sum => 7
  | test => 5
  | chain .conjunction => 4
  | chain .condition => 3

/-- What waits below has to bind less than this when a formula begins. -/
def Tier.room : Tier → Nat
  | factor => 9
  | chain .product => 8
  | chain .sum => 7
  | test => 6
  | chain .conjunction => 4
  | chain .condition => 3

variable {t : Tier} {stack : List Pending} {before : Option Lexeme} {v : View}

theorem Op.isPlain_of_priority {o : Op} (h : 0 < o.priority) :
    o.isPlain = true := by
  cases o with
  | constant | label | mark => exact absurd h (Nat.lt_irrefl 0)
  | _ => rfl

theorem Tier.hold_pos (t : Tier) : 0 < t.hold := by
  cases t with
  | factor | test => decide
  | chain l => cases l <;> decide

theorem Tier.room_pos (t : Tier) : 0 < t.room := by
  cases t with
  | factor | test => decide
  | chain l => cases l <;> decide

theorem plain_of_hold {ops : List Op} (h : ∀ o ∈ ops, t.hold ≤ o.priority) :
    ∀ o ∈ ops, o.isPlain = true :=
  fun o ho => Op.isPlain_of_priority (Nat.lt_of_lt_of_le t.hold_pos (h o ho))

theorem Level.room_below (l : Level) : (Tier.chain l).room ≤ l.below.room := by
  cases l <;> decide

theorem Level.hold_below (l : Level) : (Tier.chain l).hold ≤ l.below.hold := by
  cases l <;> decide

/-- The operators of a level send out all that a list of the level left waiting
and nothing else. -/
theorem Level.priority_operator {l : Level} (o : l.Operator) :
    (Op.binary o.val).priority = (Tier.chain l).hold ∧
      (Op.binary o.val).priority = (Tier.chain l).room ∧
        (Op.binary o.val).priority < l.below.room := by
  have hall : ∀ o ∈ l.operators, (Op.binary o).priority = (Tier.chain l).hold ∧
      (Op.binary o).priority = (Tier.chain l).room ∧
        (Op.binary o).priority < l.below.room := by
    cases l <;> decide
  exact hall o.val o.property

theorem priority_comparison (o : Comparison) :
    (Op.binary o.val).priority = 6 := by
  have hall : ∀ o ∈ Binary.comparisons, (Op.binary o).priority = 6 := by decide
  exact hall o.val o.property

/-- A stack on which a formula of a tier can be composed. -/
structure Clear (t : Tier) (stack : List Pending) : Prop where
  top : ∀ q ∈ stack.head?, q.isLoop = true ∨ q.priority < t.room
  lists : Listless stack

theorem Clear.mono {u : Tier} (h : Clear t stack) (hroom : t.room ≤ u.room) :
    Clear u stack :=
  ⟨fun q hq => (h.top q hq).imp_right fun hlt => Nat.lt_of_lt_of_le hlt hroom,
    h.lists⟩

theorem Clear.operator {o : Op} (h : Listless stack)
    (ho : o.priority < t.room) : Clear t (.operator o :: stack) :=
  ⟨by rintro _ ⟨rfl⟩; exact .inr ho, h.cons nofun⟩

/-- A formula ends with a word that a minus sign can follow. -/
theorem Formula.exists_last (e : Formula t) :
    ∃ x, e.lexemes.getLast? = some x ∧ x.isValue = true := by
  induction e with
  | name x => exact ⟨_, rfl, rfl⟩
  | constant v => exact ⟨_, rfl, rfl⟩
  | group e =>
      exact ⟨.keyword ")", List.getLast?_concat (l := _ :: e.lexemes), rfl⟩
  | bracket c =>
      exact ⟨.keyword "]", List.getLast?_concat (l := _ :: c.lexemes), rfl⟩
  | compare a o b _ ihb | join a o b _ ihb =>
      obtain ⟨x, hx, hvalue⟩ := ihb
      refine ⟨x, ?_, hvalue⟩
      simp [lexemes, List.getLast?_append, List.getLast?_cons, hx]
  | not a ih | negated a ih =>
      obtain ⟨x, hx, hvalue⟩ := ih
      exact ⟨x, by simp [lexemes, List.getLast?_cons, hx], hvalue⟩
  | only a ih => exact ih

theorem Formula.last_isValue (e : Formula t) (before : Option Lexeme) :
    (e.lexemes.getLast?.or before).any Lexeme.isValue = true := by
  obtain ⟨x, hx, hvalue⟩ := e.exists_last
  rw [hx]
  exact hvalue

theorem Binary.text_not_value (o : Binary) :
    (Lexeme.keyword o.text).isValue = false := by
  cases o <;> decide

/-- An operator between two formulas sends out what the first left waiting. -/
theorem feeds_binary (o : Binary) (v : View) (ops : List Op)
    (hbefore : before.any Lexeme.isValue = true)
    (hgo : ∀ op ∈ ops, (Op.binary o).priority ≤ op.priority)
    (hstay : ∀ q ∈ stack.head?,
      q.isLoop = true ∨ q.priority < (Op.binary o).priority) :
    Feeds before (v.pend (ops.map .operator ++ stack)) (.keyword o.text)
      ((v.put (ops.map .op)).pend (.operator (.binary o) :: stack)) := by
  have hpositive : 0 < (Op.binary o).priority := by
    cases o <;> decide
  have htext : o.text ∉ ":" :: "[" :: "," :: "(" :: ruledTexts := by
    cases o <;> decide
  have hequals : o.text ≠ "=" := by
    cases o <;> decide
  have hpending : Pending.ofText? o.text = some (.operator (.binary o)) := by
    cases o <;> rfl
  have hplain : ∀ op ∈ ops, op.isPlain = true := fun op hop =>
    Op.isPlain_of_priority (Nat.lt_of_lt_of_le hpositive (hgo op hop))
  exact feeds_operator hpending (fun _ => hbefore) htext
    (fun h => absurd h hequals) rfl hplain hgo hstay

/-- The words of a formula put out its code but for some operators that wait. -/
def Defers (before : Option Lexeme) (v : View) (t : Tier) (words : List Lexeme)
    (code : List Item) (sign : List Op) (stack : List Pending) : Prop :=
  ∃ (out : List Item) (ops : List Op),
    FeedsAll before (v.pend (sign.map .operator ++ stack)) words
      ((v.put out).pend (ops.map .operator ++ stack)) ∧
    out ++ ops.map .op = code ∧ ∀ o ∈ ops, t.hold ≤ o.priority

/-- Between brackets nothing is left waiting. -/
theorem Defers.bracketed {words : List Lexeme} {code : List Item}
    {left right : String} {partner : Pending}
    (h : Defers (some (.keyword left)) v t words code [] (partner :: stack))
    (hleft : Feeds before (v.pend stack) (.keyword left)
      (v.pend (partner :: stack)))
    (hright : ∀ (before : Option Lexeme) (v : View) (ops : List Op),
      (∀ o ∈ ops, o.isPlain = true) →
        Feeds before (v.pend (ops.map .operator ++ partner :: stack))
          (.keyword right) ((v.put (ops.map .op)).pend stack)) :
    FeedsAll before (v.pend stack)
      (.keyword left :: (words ++ [.keyword right]))
      ((v.put code).pend stack) := by
  obtain ⟨out, ops, hfeeds, rfl, hhold⟩ := h
  have hclose :=
    hright (words.getLast?.or (some (.keyword left))) (v.put out) ops
      (plain_of_hold hhold)
  rw [View.put_put] at hclose
  exact ⟨_, hleft, hfeeds.append (.one hclose)⟩

/-- An operator that waits below a formula waits with what the formula
leaves. -/
theorem Defers.over {words : List Lexeme} {code : List Item} {o : Op}
    {bound : Nat} (h : Defers before v t words code [] (.operator o :: stack))
    (hhold : bound ≤ t.hold) (ho : bound ≤ o.priority) :
    ∃ (out : List Item) (ops : List Op),
      FeedsAll before (v.pend (.operator o :: stack)) words
        ((v.put out).pend (ops.map .operator ++ stack)) ∧
      out ++ ops.map .op = code ++ [.op o] ∧
      ∀ op ∈ ops, bound ≤ op.priority := by
  obtain ⟨out, ops, hfeeds, rfl, hops⟩ := h
  refine ⟨out, ops ++ [o], ?_, by simp, ?_⟩
  · rw [List.map_append, List.append_assoc]
    exact hfeeds
  · intro op hop
    rcases List.mem_append.mp hop with hop | hop
    · exact Nat.le_trans hhold (hops op hop)
    · exact List.mem_singleton.mp hop ▸ ho

/-- Two formulas with an operator between them. -/
theorem Defers.joined {u w : Tier} {o : Binary} {a b : List Lexeme}
    {code code' : List Item} {sign : List Op}
    (ha : Defers before v t a code sign stack)
    (hlast : (a.getLast?.or before).any Lexeme.isValue = true)
    (hgo : (Op.binary o).priority ≤ t.hold)
    (hstay : ∀ q ∈ stack.head?,
      q.isLoop = true ∨ q.priority < (Op.binary o).priority)
    (hb : ∀ {v : View}, Defers (some (.keyword o.text)) v u b code' []
      (.operator (.binary o) :: stack))
    (hhold : w.hold ≤ u.hold) (ho : w.hold ≤ (Op.binary o).priority) :
    Defers before v w (a ++ .keyword o.text :: b)
      (code ++ code' ++ [.op (.binary o)]) sign stack := by
  obtain ⟨out, ops, hfeeds, rfl, hholdOps⟩ := ha
  have hbinary := feeds_binary o (v.put out) ops hlast
    (fun op hop => Nat.le_trans hgo (hholdOps op hop)) hstay
  rw [View.put_put] at hbinary
  obtain ⟨out', ops', hfeeds', hcode, hholdOps'⟩ :=
    (hb (v := v.put (out ++ ops.map .op))).over hhold ho
  rw [View.put_put] at hfeeds'
  refine ⟨out ++ ops.map .op ++ out', ops',
    hfeeds.append ⟨_, hbinary, hfeeds'⟩, ?_, hholdOps'⟩
  rw [List.append_assoc, hcode, List.append_assoc _ code']

theorem Op.hold_le_of_mem_signs {negative : Bool} :
    ∀ o ∈ Op.signs negative, Tier.factor.hold ≤ o.priority := by
  cases negative <;> decide

/-- The composer puts out the code of a formula. -/
theorem Formula.defers (e : Formula t) : ∀ (before : Option Lexeme) (v : View)
    (negative : Bool) {stack : List Pending},
    (negative = true → t = .factor ∨ t = .chain .product) → Clear t stack →
    before.any Lexeme.isValue = false →
      Defers before v t e.lexemes (e.code negative)
        (Op.signs negative) stack := by
  induction e with
  | name x =>
      intro before v negative stack _ _ _
      exact ⟨_, _, .one (feeds_identifier x), rfl, Op.hold_le_of_mem_signs⟩
  | constant value =>
      intro before v negative stack _ _ _
      exact ⟨_, _, .one (feeds_constant value), rfl, Op.hold_le_of_mem_signs⟩
  | group e ih =>
      intro before v negative stack _ hclear _
      have hlists : Listless ((Op.signs negative).map .operator ++ stack) :=
        hclear.lists.operators _
      have hinner : Clear (.chain .sum)
          (.roundBracket :: ((Op.signs negative).map .operator ++ stack)) :=
        ⟨by rintro _ ⟨rfl⟩; exact .inr (by decide), hlists.cons nofun⟩
      exact ⟨_, _, Defers.bracketed (ih _ v false nofun hinner rfl)
        (feeds_openRound hlists) (fun _ _ _ => feeds_closeRound hlists),
        rfl, Op.hold_le_of_mem_signs⟩
  | bracket c ih =>
      intro before v negative stack hnegative hclear _
      obtain rfl : negative = false := by
        simpa using hnegative
      have hinner : Clear (.chain .condition) (.squareBracket :: stack) :=
        ⟨by rintro _ ⟨rfl⟩; exact .inr (by decide), hclear.lists.cons nofun⟩
      exact ⟨_, [], Defers.bracketed (ih _ v false nofun hinner rfl)
        feeds_openSquare (fun _ _ _ => feeds_closeSquare hclear.lists),
        List.append_nil _, nofun⟩
  | not a ih =>
      intro before v negative stack hnegative hclear _
      obtain rfl : negative = false := by
        simpa using hnegative
      have hinner : Clear .test (.operator .not :: stack) :=
        .operator hclear.lists (by decide)
      obtain ⟨out, ops, hfeeds, hcode, hhold⟩ :=
        (ih (some (.keyword "!")) v false nofun hinner rfl).over
          (Nat.le_refl _) (Nat.le_refl 5)
      exact ⟨out, ops, ⟨_, feeds_not, hfeeds⟩, hcode, hhold⟩
  | @only l a ih =>
      intro before v negative stack hnegative hclear hbefore
      have hbelow : negative = true →
          l.below = .factor ∨ l.below = .chain .product := by
        cases l with
        | product => exact fun _ => .inl rfl
        | sum => exact fun _ => .inr rfl
        | conjunction | condition => simp at hnegative; simp [hnegative]
      obtain ⟨out, ops, hfeeds, hcode, hhold⟩ := ih before v negative hbelow
        (hclear.mono l.room_below) hbefore
      exact ⟨out, ops, hfeeds, hcode,
        fun o ho => Nat.le_trans l.hold_below (hhold o ho)⟩
  | negated a ih =>
      intro before v negative stack hnegative hclear hbefore
      obtain rfl : negative = false := by
        simpa using hnegative
      obtain ⟨out, ops, hfeeds, hcode, hhold⟩ := ih (some (.keyword "-")) v true
        (fun _ => .inr rfl) (hclear.mono (Level.room_below .sum)) rfl
      exact ⟨out, ops, ⟨_, feeds_minus hbefore, hfeeds⟩, hcode,
        fun o ho => Nat.le_trans (Level.hold_below .sum) (hhold o ho)⟩
  | compare a o b iha ihb =>
      intro before v negative stack hnegative hclear hbefore
      obtain rfl : negative = false := by
        simpa using hnegative
      have ho := priority_comparison o
      refine Defers.joined
        (iha _ _ false nofun (hclear.mono (by decide)) hbefore)
        (a.last_isValue before) ?_ ?_ (ihb _ _ false nofun ?_ ?_)
        (by decide) ?_
      · rw [ho]
        decide
      · rw [ho]
        exact hclear.top
      · refine Clear.operator hclear.lists ?_
        rw [ho]
        decide
      · exact o.val.text_not_value
      · rw [ho]
        decide
  | @join l a o b iha ihb =>
      intro before v negative stack hnegative hclear hbefore
      obtain ⟨hhold, hroom, hbelow⟩ := Level.priority_operator o
      refine Defers.joined (iha _ _ negative hnegative hclear hbefore)
        (a.last_isValue before) (Nat.le_of_eq hhold) ?_
        (ihb _ _ false nofun (.operator hclear.lists hbelow)
          o.val.text_not_value)
        l.hold_below (Nat.le_of_eq hhold.symm)
      rw [hroom]
      exact hclear.top

end Reckon
