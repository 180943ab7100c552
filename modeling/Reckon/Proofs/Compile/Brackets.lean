import Reckon.Proofs.Compile.Taking

/-!
# Brackets of composed tokens

Tokens that are composed need not be a program, but their brackets close
each other as they should. What stands open is on the stack of the
composer, between operators that open nothing, and a closing bracket takes
its partner off or is an error.

The word of a list of variables is closed like a round bracket, and the bracket
behind it says nothing. So the word is the bracket that is open, and it is all
the same if the other one is there or not.
-/

namespace Reckon

/-! ## Balanced brackets -/

inductive Shape where
  | round
  | square
deriving DecidableEq, Repr

inductive Bracket where
  | opens (s : Shape)
  | closes (s : Shape)
deriving DecidableEq, Repr

/-- Every bracket has its partner, and pairs lie inside or beside each other. -/
inductive Balanced : List Bracket → Prop where
  | nil : Balanced []
  | wrap (s : Shape) {a b : List Bracket} :
      Balanced a → Balanced b → Balanced (.opens s :: (a ++ .closes s :: b))

/-- Brackets of these shapes stand open, the last one first, and all others are
balanced. -/
inductive LeavesOpen : List Bracket → List Shape → Prop where
  | balanced {a : List Bracket} : Balanced a → LeavesOpen a []
  | behind (s : Shape) {a b : List Bracket} {left : List Shape} :
      LeavesOpen a left → Balanced b →
      LeavesOpen (a ++ .opens s :: b) (s :: left)

variable {a b : List Bracket} {left : List Shape} {s : Shape}

theorem Balanced.append (ha : Balanced a) (hb : Balanced b) :
    Balanced (a ++ b) := by
  induction ha with
  | nil => exact hb
  | wrap s hinner _ _ ih =>
      rw [List.cons_append, List.append_assoc, List.cons_append]
      exact .wrap s hinner ih

namespace LeavesOpen

theorem append (ha : LeavesOpen a left) (hb : Balanced b) :
    LeavesOpen (a ++ b) left := by
  cases ha with
  | balanced ha => exact .balanced (ha.append hb)
  | behind s hfront ha =>
      rw [List.append_assoc, List.cons_append]
      exact .behind s hfront (ha.append hb)

theorem opens (h : LeavesOpen a left) (s : Shape) :
    LeavesOpen (a ++ [.opens s]) (s :: left) :=
  .behind s h .nil

theorem closes (h : LeavesOpen a (s :: left)) :
    LeavesOpen (a ++ [.closes s]) left := by
  cases h with
  | behind s hfront hinner =>
      rw [List.append_assoc, List.cons_append]
      exact hfront.append (.wrap s hinner .nil)

theorem balanced_of_nil (h : LeavesOpen a []) : Balanced a := by
  cases h with
  | balanced h => exact h

end LeavesOpen

/-! ## Brackets of tokens -/

/-- The bracket that a text is. -/
def bracket? : String → Option Bracket
  | "(" => some (.opens .round)
  | ")" => some (.closes .round)
  | "[" => some (.opens .square)
  | "]" => some (.closes .square)
  | _ => none

namespace Token

/-- Whether a list of variables is to follow. -/
def startsList (t : Token) : Bool :=
  t.isKeyword Transfer.read.keyword || t.isKeyword Transfer.write.keyword

/-- The bracket that a token is by itself. -/
def plainBracket? (t : Token) : Option Bracket :=
  t.keyword?.bind Reckon.bracket?

/-- What a token behind another one opens or closes: the word of a list opens a
round bracket, and the round bracket right behind it opens no other one. -/
def bracket? (before : Option Token) (t : Token) : Option Bracket :=
  if t.startsList then some (.opens .round)
  else if t.isKeyword "(" && before.any startsList then none
  else t.plainBracket?

end Token

/-- The brackets of tokens as they stand. -/
def plainBrackets (tokens : List Token) : List Bracket :=
  tokens.filterMap Token.plainBracket?

/-- What tokens open and close, with the words of lists for the
brackets behind them. -/
def brackets : (before : Option Token) → List Token → List Bracket
  | _, [] => []
  | before, t :: rest => (t.bracket? before).toList ++ brackets (some t) rest

/-- Whether each word of a list is directly followed by a round bracket. -/
def listsOpened : List Token → Bool
  | [] => true
  | t :: rest =>
      (!t.startsList || rest.head?.any (·.isKeyword "(")) && listsOpened rest

variable {before : Option Token} {t : Token} {read tokens : List Token}
  {text : String} {line : Nat} {index : Option Nat} {kind : Transfer}

theorem brackets_concat (read : List Token) (t : Token) : ∀ before,
    brackets before (read ++ [t]) =
      brackets before read ++
        (t.bracket? (read.getLast?.or before)).toList := by
  induction read with
  | nil => simp [brackets]
  | cons u rest ih =>
      intro before
      have hlast :
          rest.getLast?.or (some u) = (u :: rest).getLast?.or before := by
        cases rest with
        | nil => rfl
        | cons v rest => simp [List.getLast?_cons]
      rw [List.cons_append, brackets, brackets, ih, hlast, List.append_assoc]

theorem startsList_iff : t.startsList = true ↔
    ∃ kind : Transfer, t.isKeyword kind.keyword = true := by
  unfold Token.startsList
  rw [Bool.or_eq_true]
  exact ⟨fun h => h.elim (⟨.read, ·⟩) (⟨.write, ·⟩),
    fun ⟨kind, h⟩ => by cases kind <;> simp [h]⟩

theorem any_startsList_iff {before : Option Token} :
    before.any Token.startsList = true ↔
    ∃ kind : Transfer, before.any (·.isKeyword kind.keyword) = true := by
  cases before with
  | none => exact ⟨nofun, fun ⟨_, h⟩ => h⟩
  | some t => exact startsList_iff

/-- The word of a list is no bracket by itself. -/
theorem plainBracket?_of_startsList (h : t.startsList = true) :
    t.plainBracket? = none := by
  obtain ⟨kind, hkind⟩ := startsList_iff.mp h
  rw [Token.plainBracket?, beq_iff_eq.mp hkind]
  cases kind <;> rfl

theorem startsList_of_isKeyword (h : t.isKeyword "(" = true) :
    t.startsList = false := by
  unfold Token.startsList Token.isKeyword
  rw [beq_iff_eq.mp h]
  rfl

/-- Where all words of lists have their brackets, what is in front tells whether
the bracket of its word is still to come. -/
theorem brackets_behind (h : listsOpened tokens = true) :
    ∀ before : Option Token, (before.any Token.startsList = false →
      brackets before tokens = plainBrackets tokens) ∧
      (before.any Token.startsList = true →
        tokens.head?.any (·.isKeyword "(") = true →
        .opens .round :: brackets before tokens = plainBrackets tokens) := by
  induction tokens with
  | nil => exact fun _ => ⟨fun _ => rfl, nofun⟩
  | cons t rest ih =>
      intro before
      obtain ⟨hfirst, hrest⟩ := (Bool.and_eq_true ..).mp h
      obtain ⟨hplain, hlist⟩ := ih hrest (some t)
      constructor
      · intro hbefore
        cases hstarts : t.startsList with
        | true =>
            have hround : rest.head?.any (·.isKeyword "(") = true := by
              simpa [hstarts] using hfirst
            rw [brackets, Token.bracket?, if_pos hstarts, plainBrackets,
              List.filterMap_cons_none (plainBracket?_of_startsList hstarts)]
            exact hlist hstarts hround
        | false =>
            rw [brackets, Token.bracket?, hplain hstarts, plainBrackets]
            cases hbracket : t.plainBracket? <;>
              simp [hstarts, hbefore, hbracket, plainBrackets]
      · intro hbefore hround
        have hstarts := startsList_of_isKeyword hround
        have hopens : t.plainBracket? = some (.opens .round) := by
          rw [Token.plainBracket?, beq_iff_eq.mp hround]
          rfl
        have hswallowed : t.bracket? before = none := by
          rw [Token.bracket?, hbefore, if_neg (by simp [hstarts])]
          exact if_pos (by simpa using hround)
        rw [brackets, hswallowed, hplain hstarts, plainBrackets, plainBrackets,
          List.filterMap_cons_some hopens]
        rfl

/-- If all words of lists have their brackets, it makes no difference which of
the two is looked at. -/
theorem brackets_eq_plainBrackets (h : listsOpened tokens = true) :
    brackets none tokens = plainBrackets tokens :=
  (brackets_behind h none).1 rfl

/-! ## Brackets of the composer -/

/-- The bracket that is still to come for what is pending. -/
def Pending.shape? : Pending → Option Shape
  | roundBracket | transfer _ => some .round
  | squareBracket => some .square
  | _ => none

namespace Composer

variable {c c₁ c' : Composer} {ops : List Op} {op : Op} {q q' : Pending}
  {rest : List Pending}

/-- The brackets that are still to come, the next one first. -/
def shapes (c : Composer) : List Shape := c.pending.filterMap Pending.shape?

theorem Clears.shapes (h : Clears ops c c') : c.shapes = c'.shapes := by
  have hnone : (ops.map Pending.operator).filterMap Pending.shape? = [] := by
    simp [Pending.shape?]
  rw [Composer.shapes, h.pending, List.filterMap_append, hnone, List.nil_append]
  rfl

theorem shapes_replaceTop (hpending : c.pending = q :: rest)
    (hq : q'.shape? = q.shape?) : (c.replaceTop q').shapes = c.shapes := by
  rw [shapes, shapes, pending_replaceTop hpending, hpending,
    List.filterMap_cons, List.filterMap_cons, hq]

theorem shapes_close (hpending : c.pending = q :: rest) (hq : q.shape? = none) :
    c.close.shapes = c.shapes := by
  rw [shapes, shapes, pending_close, hpending, List.filterMap_cons_none hq,
    List.tail_cons]

/-- What has been read leaves the brackets open that are pending. The word of a
list is followed by the list. -/
structure Encloses (read : List Token) (c : Composer) : Prop where
  leaves : LeavesOpen (brackets none read) c.shapes
  list : ∀ kind : Transfer,
    read.getLast?.any (·.isKeyword kind.keyword) = true →
    Frame.openTransfer? c.stack = some kind

theorem Encloses.start (labels : List String) (store : Store) :
    Encloses [] { labels, store } :=
  ⟨.balanced .nil, nofun⟩

/-- The text of an operator is no bracket. -/
theorem Operates.no_bracket (h : Operates text op) (before : Option Token)
    (line : Nat) (index : Option Nat) :
    (Token.word (.keyword text) line index).startsList = false ∧
      (Token.word (.keyword text) line index).bracket? before = none := by
  rcases h with h | ⟨rfl, -⟩
  · unfold Op.ofOperator? at h
    split at h <;> first | exact ⟨rfl, rfl⟩ | cases h
  · exact ⟨rfl, rfl⟩

/-- What a token that starts no list opens or closes, the composer does. -/
theorem Encloses.behind (hstarts : t.startsList = false)
    (hleaves : LeavesOpen
      (brackets none read ++ (t.bracket? read.getLast?).toList) c.shapes) :
    Encloses (read ++ [t]) c := by
  constructor
  · rw [brackets_concat, Option.or_none]
    exact hleaves
  · intro kind hkind
    rw [List.getLast?_concat] at hkind
    rw [startsList_iff.mpr ⟨kind, hkind⟩] at hstarts
    cases hstarts

namespace Encloses

variable (h : Encloses read c)
include h

/-- Most tokens are no brackets. -/
theorem silent (hstarts : t.startsList = false)
    (hnone : t.bracket? read.getLast? = none) (hshapes : c'.shapes = c.shapes) :
    Encloses (read ++ [t]) c' := by
  refine .behind hstarts ?_
  rw [hnone, hshapes, Option.toList_none, List.append_nil]
  exact h.leaves

/-- A closing bracket takes off what is pending for it. -/
theorem closed (hstarts : t.startsList = false)
    (ht : t.bracket? read.getLast? = some (.closes s))
    (hshapes : c.shapes = c₁.shapes) (hpending : c₁.pending = q :: rest)
    (hq : q.shape? = some s) : Encloses (read ++ [t]) c₁.close := by
  have hopen : c.shapes = s :: rest.filterMap Pending.shape? := by
    rw [hshapes, shapes, hpending, List.filterMap_cons_some hq]
  have hclosed : c₁.close.shapes = rest.filterMap Pending.shape? := by
    rw [shapes, pending_close, hpending, List.tail_cons]
  refine .behind hstarts ?_
  rw [ht, hclosed]
  exact (hopen ▸ h.leaves).closes

/-- An `if` and a loop are no brackets, whatever becomes known of them. -/
theorem replaced (hstarts : t.startsList = false)
    (hnone : t.bracket? read.getLast? = none) (hshapes : c.shapes = c₁.shapes)
    (hpending : c₁.pending = q :: rest) (hq : q'.shape? = q.shape?) :
    Encloses (read ++ [t]) (c₁.replaceTop q') :=
  h.silent hstarts hnone ((shapes_replaceTop hpending hq).trans hshapes.symm)

/-- What ends an `if` or a loop closes no bracket. -/
theorem ended (hstarts : t.startsList = false)
    (hnone : t.bracket? read.getLast? = none) (hshapes : c.shapes = c₁.shapes)
    (hpending : c₁.pending = q :: rest) (hq : q.shape? = none) :
    Encloses (read ++ [t]) c₁.close :=
  h.silent hstarts hnone ((shapes_close hpending hq).trans hshapes.symm)

/-- The word of a list opens a bracket, and no other construct does. -/
theorem construct (hq : Pending.ofText? text = some q)
    (hconstruct : q.isConstruct = true) (hshapes : c.shapes = c₁.shapes) :
    Encloses (read ++ [.word (.keyword text) line index])
      (c₁.await q line) := by
  have hlist : ∀ kind : Transfer, text = kind.keyword → q = .transfer kind →
      Encloses (read ++ [.word (.keyword text) line index])
        (c₁.await q line) := by
    rintro kind rfl rfl
    constructor
    · rw [brackets_concat]
      have hopens :
          LeavesOpen (brackets none read ++ [.opens .round])
            (.round :: c₁.shapes) :=
        (hshapes ▸ h.leaves).opens .round
      cases kind <;> exact hopens
    · intro kind' hkind'
      rw [List.getLast?_concat] at hkind'
      cases kind <;> cases kind' <;> first | rfl | cases hkind'
  unfold Pending.ofText? at hq
  split at hq
  case h_1 | h_2 =>
    cases hq
    exact h.silent rfl rfl hshapes.symm
  case h_3 =>
    cases hq
    exact hlist .read rfl rfl
  case h_4 =>
    cases hq
    exact hlist .write rfl rfl
  case h_5 =>
    obtain ⟨op, -, rfl⟩ := Option.map_eq_some_iff.mp hq
    cases hconstruct

/-- What a text opens or closes, the composer does. -/
theorem takesText (htakes : TakesText read.getLast? line text c c') :
    Encloses (read ++ [.word (.keyword text) line index]) c' := by
  cases htakes with
  | mark | front | comma | goto => exact h.silent rfl rfl rfl
  | operator hop hclears =>
      obtain ⟨hstarts, hnone⟩ := hop.no_bracket read.getLast? line index
      exact h.silent hstarts hnone hclears.shapes.symm
  | @parameter _ context _ x hlast hpending =>
      have hset :
          (c.replaceTop (.loop { context with parameter := some x })).shapes =
            c.shapes := shapes_replaceTop hpending rfl
      exact h.silent rfl rfl hset
  | construct hq hconstruct hclears htop =>
      exact h.construct hq hconstruct hclears.shapes
  | round hfirst =>
      have hbefore : read.getLast?.any Token.startsList = false := by
        rw [Bool.eq_false_iff]
        intro hany
        obtain ⟨kind, hkind⟩ := any_startsList_iff.mp hany
        exact hfirst kind (h.list kind hkind) hkind
      have hopens :
          Token.bracket? read.getLast? (.word (.keyword "(") line index) =
            some (.opens .round) := by
        rw [Token.bracket?, hbefore]
        rfl
      refine .behind rfl ?_
      rw [hopens]
      exact h.leaves.opens .round
  | square => exact .behind rfl (h.leaves.opens .square)
  | list hkind hbefore =>
      have hany := any_startsList_iff.mpr ⟨_, hbefore⟩
      have hnone :
          Token.bracket? read.getLast? (.word (.keyword "(") line index) =
            none := by
        rw [Token.bracket?, hany]
        rfl
      exact h.silent rfl hnone rfl
  | listEnd hclears hpending =>
      exact h.closed rfl rfl hclears.shapes hpending rfl
  | roundEnd hclears hpending =>
      exact h.closed rfl rfl hclears.shapes hpending rfl
  | squareEnd hclears hpending =>
      exact h.closed rfl rfl hclears.shapes hpending rfl
  | condition hclears hpending | limit hclears hpending
  | test _ _ _ _ hclears hpending =>
      exact h.replaced rfl rfl hclears.shapes hpending rfl
  | branchEnd hclears hpending | next _ _ _ hclears hpending =>
      exact h.ended rfl rfl hclears.shapes hpending rfl
  | lineEnd _ hclears => exact h.silent rfl rfl hclears.shapes.symm

end Encloses

/-- Brackets that are composed are balanced, where the word of a list counts as
the bracket that opens it. So the brackets themselves are balanced if each of
these words has its own behind it. -/
theorem composeBare_balanced {labels : List String} {store : Store}
    (h : composeBare tokens labels store = .ok c) :
    Balanced (brackets none tokens) ∧
      (listsOpened tokens = true → Balanced (plainBrackets tokens)) := by
  have hstep : ∀ {read : List Token} {t : Token} {c c' : Composer},
      Encloses read c →
      Takes read.getLast? t c c' → Encloses (read ++ [t]) c' := by
    intro read t c c' h htakes
    cases htakes with
    | name | number | label => exact h.silent rfl rfl rfl
    | text index htext => exact h.takesText htext
  have hbalanced : Balanced (brackets none tokens) := by
    obtain ⟨hstack, hread⟩ :=
      composeBare_induction (P := Encloses) (.start labels store) hstep h
    have hshapes : c.shapes = [] := by
      rw [shapes, pending, hstack]
      rfl
    rcases hread with hread | ⟨line, hread⟩
    · exact (hshapes ▸ hread.leaves).balanced_of_nil
    · have hbreak : brackets none (tokens ++ [.keyword lineBreak line]) =
          brackets none tokens :=
        (brackets_concat tokens _ none).trans (List.append_nil _)
      exact hbreak ▸ (hshapes ▸ hread.leaves).balanced_of_nil
  exact ⟨hbalanced, fun hlists => brackets_eq_plainBrackets hlists ▸ hbalanced⟩

/-- A list of one variable, and brackets inside brackets. -/
def bracketed : List Token :=
  [.keyword "readl" 1, .keyword "(" 1, .word (.identifier "a") 1 none,
    .keyword ")" 1,
    .keyword lineBreak 1, .keyword "[" 2, .keyword "(" 2,
    .word (.identifier "a") 2 none, .keyword ")" 2, .keyword "]" 2]

theorem bracketed_balanced : ∃ c, composeBare bracketed [] .empty = .ok c ∧
    Balanced (plainBrackets bracketed) := by
  obtain ⟨c, hc⟩ : ∃ c, composeBare bracketed [] .empty = .ok c :=
    exists_ok (by decide +kernel)
  exact ⟨c, hc, (composeBare_balanced hc).2 (by decide)⟩

/-- A list without the bracket that opens it. -/
def unopened : List Token :=
  [.keyword "readl" 1, .word (.identifier "a") 1 none, .keyword ")" 1]

/-- It is composed, although its bracket closes no bracket. -/
theorem unopened_unbalanced : (∃ c, composeBare unopened [] .empty = .ok c) ∧
    ¬ Balanced (plainBrackets unopened) := by
  refine ⟨exists_ok (by decide +kernel), ?_⟩
  have hcloses : plainBrackets unopened = [.closes .round] := by decide
  rw [hcloses]
  exact nofun

end Composer

end Reckon
