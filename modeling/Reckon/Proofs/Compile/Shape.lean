import Reckon.Proofs.Compile.Code

/-!
# The shape of the stack

What lies on the stack of the machine is known before the program runs, as far
as it matters which operation can follow: of each operand, whether it is a
value or a label, and whether a value still has its name. Such a *shape* is
turned into another by every item, and items that turn no shape where they
stand could fault there.

A jump leaves the code in front of it and enters some other, so no shape could
be followed across it but one that is the same at all places. That one is the
empty shape: it is where every jump and every place has to be.
-/

namespace Reckon

/-- What is known of an operand: a value, with or without a name to
assign to, or a label. -/
inductive Kind where
  | value (named : Bool)
  | label
deriving DecidableEq

/-- What an item makes of a shape, where it can be run at all. The top comes
first. -/
inductive Turns : Item → List Kind → List Kind → Prop where
  | name (x : String) (s : List Kind) :
      Turns (.op (.name x)) s (.value true :: s)
  | number (v : Single) (s : List Kind) :
      Turns (.number v) s (.value false :: s)
  | label (l : String) (s : List Kind) : Turns (.label l) s (.label :: s)
  | place (l : String) : Turns (.place l) [] []
  | neg (named : Bool) (s : List Kind) :
      Turns (.op .neg) (.value named :: s) (.value false :: s)
  | not (named : Bool) (s : List Kind) :
      Turns (.op .not) (.value named :: s) (.value false :: s)
  | binary (o : Binary) (left right : Bool) (s : List Kind) :
      Turns (.op (.binary o)) (.value right :: .value left :: s)
        (.value false :: s)
  | assign (named : Bool) (s : List Kind) :
      Turns (.op .assign) (.value named :: .value true :: s) s
  | read (s : List Kind) : Turns (.op .read) (.value true :: s) s
  | write (s : List Kind) : Turns (.op .write) (.value true :: s) s
  | jumpIfFalse (named : Bool) :
      Turns (.op .jumpIfFalse) [.label, .value named] []
  | jump : Turns (.op .jump) [.label] []

/-- What items make of a shape, one behind the other. -/
inductive TurnsAll : List Item → List Kind → List Kind → Prop where
  | nil (s : List Kind) : TurnsAll [] s s
  | cons {item : Item} {rest : List Item} {s t u : List Kind} :
      Turns item s t → TurnsAll rest t u → TurnsAll (item :: rest) s u

variable {item : Item} {items a b : List Item} {s t u : List Kind} {x : Extent}
  {tier : Tier}

/-- An item makes one shape only of another. -/
theorem Turns.unique (h : Turns item s t) (h' : Turns item s u) : t = u := by
  cases h <;> cases h' <;> rfl

theorem Turns.transfer (kind : Transfer) (s : List Kind) :
    Turns (.op kind.op) (.value true :: s) s := by
  cases kind with
  | read => exact .read s
  | write => exact .write s

namespace TurnsAll

theorem one (h : Turns item s t) : TurnsAll [item] s t := .cons h (.nil t)

theorem append (ha : TurnsAll a s t) (hb : TurnsAll b t u) :
    TurnsAll (a ++ b) s u := by
  induction ha with
  | nil => exact hb
  | cons hitem _ ih => exact .cons hitem (ih hb)

theorem split : ∀ {a : List Item} {s : List Kind}, TurnsAll (a ++ b) s u →
    ∃ t, TurnsAll a s t ∧ TurnsAll b t u
  | [], s, h => ⟨s, .nil s, h⟩
  | _ :: _, _, .cons hitem hrest => by
      obtain ⟨t, ha, hb⟩ := split hrest
      exact ⟨t, .cons hitem ha, hb⟩

theorem unique (h : TurnsAll items s t) (h' : TurnsAll items s u) : t = u := by
  induction h with
  | nil => cases h'; rfl
  | cons hitem _ ih =>
      cases h' with
      | cons hitem' hrest' =>
          obtain rfl := hitem.unique hitem'
          exact ih hrest'

end TurnsAll

/-! ## Formulas -/

theorem turnsAll_signs (named negative : Bool) (s : List Kind) :
    ∃ named', TurnsAll ((Op.signs negative).map .op) (.value named :: s)
      (.value named' :: s) := by
  cases negative with
  | false => exact ⟨named, .nil _⟩
  | true => exact ⟨false, .one (.neg named s)⟩

/-- The code of a formula adds a value. -/
theorem Formula.turnsAll (e : Formula tier) :
    ∀ (negative : Bool) (s : List Kind),
    ∃ named, TurnsAll (e.code negative) s (.value named :: s) := by
  induction e with
  | name x =>
      intro negative s
      obtain ⟨named, hsign⟩ := turnsAll_signs true negative s
      exact ⟨named, .cons (.name x s) hsign⟩
  | constant v =>
      intro negative s
      obtain ⟨named, hsign⟩ := turnsAll_signs false negative s
      exact ⟨named, .cons (.number v s) hsign⟩
  | group e ih =>
      intro negative s
      obtain ⟨inner, he⟩ := ih false s
      obtain ⟨named, hsign⟩ := turnsAll_signs inner negative s
      exact ⟨named, he.append hsign⟩
  | bracket c ih => exact fun _ => ih false
  | only a ih => exact ih
  | negated a ih => exact fun _ => ih true
  | not a ih =>
      intro _ s
      obtain ⟨named, ha⟩ := ih false s
      exact ⟨false, ha.append (.one (.not named s))⟩
  | compare a o b iha ihb =>
      intro _ s
      obtain ⟨left, ha⟩ := iha false s
      obtain ⟨right, hb⟩ := ihb false (.value left :: s)
      exact ⟨false, (ha.append hb).append (.one (.binary o left right s))⟩
  | join a o b iha ihb =>
      intro negative s
      obtain ⟨left, ha⟩ := iha negative s
      obtain ⟨right, hb⟩ := ihb false (.value left :: s)
      exact ⟨false, (ha.append hb).append (.one (.binary o left right s))⟩

/-! ## Statements -/

theorem turnsAll_assign (y : String) (e : Expression) (s : List Kind) :
    TurnsAll (.op (.name y) :: (e.code false ++ [.op .assign])) s s := by
  obtain ⟨named, he⟩ := e.turnsAll false (.value true :: s)
  exact .cons (.name y s) (he.append (.one (.assign named s)))

theorem turnsAll_limitCode (parameter limit : String) (last : Expression)
    (exit : String) : TurnsAll (limitCode parameter limit last exit) [] [] := by
  have hset := turnsAll_assign limit last []
  have htest : TurnsAll [.op (.name parameter), .op (.name limit),
      .op (.binary .le), .label exit, .op .jumpIfFalse] [] [] :=
    .cons (.name parameter _) (.cons (.name limit _) (.cons (.binary .le ..)
      (.cons (.label exit _) (.one (.jumpIfFalse _)))))
  have hcode : limitCode parameter limit last exit =
      (.op (.name limit) :: (last.code false ++ [.op .assign])) ++
        [.op (.name parameter), .op (.name limit), .op (.binary .le),
          .label exit, .op .jumpIfFalse] := by
    simp [limitCode]
  exact hcode ▸ hset.append htest

theorem turnsAll_loopCode (parameter limit : String) (first last : Expression)
    (entry exit : String) :
    TurnsAll (loopCode parameter limit first last entry exit) [] [] := by
  have hset := turnsAll_assign parameter first []
  have htest := turnsAll_limitCode parameter limit last exit
  have hcode : loopCode parameter limit first last entry exit =
      (.op (.name parameter) :: (first.code false ++ [.op .assign])) ++
        .place entry :: limitCode parameter limit last exit := by
    simp [loopCode]
  exact hcode ▸ hset.append (.cons (.place entry) htest)

theorem turnsAll_nextCode (parameter entry exit : String) :
    TurnsAll (nextCode parameter entry exit) [] [] :=
  .cons (.name parameter _) (.cons (.name parameter _) (.cons (.number .one _)
    (.cons (.binary .add ..) (.cons (.assign ..) (.cons (.label entry _)
      (.cons .jump (.one (.place exit))))))))

theorem turnsAll_branchCode (c : Condition) (target skip : String) :
    TurnsAll (branchCode c target skip) [] [] := by
  obtain ⟨named, hc⟩ := c.turnsAll false []
  exact hc.append (.cons (.label skip _) (.cons (.jumpIfFalse named)
    (.cons (.label target _) (.cons .jump (.one (.place skip))))))

theorem turnsAll_transferCode (kind : Transfer) (names : List String) :
    TurnsAll (transferCode kind names) [] [] := by
  induction names with
  | nil => exact .nil _
  | cons y names ih => exact .cons (.name y _) (.cons (.transfer kind _) ih)

namespace Stmt

/-- The code of statements leaves the stack as it has to be found, empty. -/
theorem turnsAll (s : Stmt x) : ∀ k, TurnsAll (s.items k) [] [] := by
  induction s with
  | assign y e => exact fun _ => turnsAll_assign y e []
  | transfer kind names =>
      exact fun _ => turnsAll_transferCode kind names.toList
  | branch c target => exact fun _ => turnsAll_branchCode c target _
  | loop parameter first last body ih =>
      exact fun _ => (turnsAll_loopCode ..).append
        ((ih _).append (turnsAll_nextCode ..))
  | plain s ih | one s ih => exact ih
  | labelled l s ih => exact fun k => .cons (.place l) (ih k)
  | more b s ihb ihs => exact fun k => (ihb k).append (ihs (b.stock k))

/-- Where the code of statements ends, from a start on: of each of them, those
inside loops too. -/
def ends {x : Extent} : Stmt x → Stock → (start : Nat) → List Nat
  | loop parameter first last body, k, start =>
      let entry := k.addLimit.label
      let exit := k.addLimit.addLabel.label
      let head := Item.sizes (loopCode parameter k.limit first last entry exit)
      body.ends k.addLimit.addLabel.addLabel (start + head) ++
        [start + Item.sizes ((loop parameter first last body).items k)]
  | plain s, k, start | one s, k, start => s.ends k start
  | labelled label s, k, start => s.ends k (start + (Item.place label).size)
  | more before s, k, start =>
      before.ends k start ++
        s.ends (before.stock k) (start + Item.sizes (before.items k))
  | s, k, start => [start + Item.sizes (s.items k)]

end Stmt

/-- The items up to a position leave the stack empty. The first of
them is at the start. -/
def Rests (items : List Item) (start k : Nat) : Prop :=
  ∃ a b, items = a ++ b ∧ k = start + Item.sizes a ∧ TurnsAll a [] []

theorem Rests.append {start k : Nat} (h : Rests items start k) (b : List Item) :
    Rests (items ++ b) start k := by
  obtain ⟨c, d, rfl, hk, hc⟩ := h
  exact ⟨c, d ++ b, List.append_assoc .., hk, hc⟩

theorem Rests.behind {start k : Nat} (ha : TurnsAll a [] [])
    (h : Rests items (start + Item.sizes a) k) :
    Rests (a ++ items) start k := by
  obtain ⟨c, d, rfl, hk, hc⟩ := h
  exact ⟨a ++ c, d, (List.append_assoc ..).symm,
    by rw [hk, Item.sizes_append, Nat.add_assoc], ha.append hc⟩

/-- Behind a statement the stack is empty. -/
theorem Stmt.rests_of_mem_ends (s : Stmt x) : ∀ {k : Stock} {start n : Nat},
    n ∈ s.ends k start → Rests (s.items k) start n := by
  have hwhole : ∀ {x : Extent} (s : Stmt x) {k : Stock} {start n : Nat},
      n ∈ [start + Item.sizes (s.items k)] → Rests (s.items k) start n :=
    fun s k start n hn => ⟨s.items k, [], (List.append_nil _).symm,
      List.mem_singleton.mp hn, s.turnsAll k⟩
  induction s with
  | assign | transfer | branch => exact hwhole _
  | loop parameter first last body ih =>
      intro k start n hn
      rcases List.mem_append.mp hn with hn | hn
      · exact .behind (turnsAll_loopCode ..) ((ih hn).append _)
      · exact hwhole _ hn
  | plain s ih | one s ih => exact ih
  | labelled l s ih =>
      intro k start n hn
      have hplace : TurnsAll [.place l] [] [] := .one (.place l)
      exact .behind hplace (ih hn)
  | more b s ihb ihs =>
      intro k start n hn
      rcases List.mem_append.mp hn with hn | hn
      · exact (ihb hn).append _
      · exact .behind (b.turnsAll k) (ihs hn)

end Reckon
