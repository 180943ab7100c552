import Reckon.Proofs.Compile.Item

/-!
# The code of a program

What the composer makes of a tree, said by recursion on the tree. The code of a
formula is its operands in order with each operator behind what it joins; a
minus sign goes behind the first factor it stands in front of.

What names a statement makes depends on those there are, its `Stock`, and on
nothing else of what comes before it.

Statements are compiled line by line, and a `Chunk` is a line with its label
and its code. Where a program starts without any names they are made by
counting: `made` and `limits` say how many labels and how many variables a
statement makes, so that the stock is two numbers. Labels made for one
statement are never those made for another, which is all that is needed to know
where its jumps go.
-/

namespace Reckon

open Composer (labelName limitName)

/-! ## Made names -/

theorem toString_injective {a b : Nat} (h : toString a = toString b) :
    a = b := by
  have hdigits : Nat.toDigits 10 a = Nat.toDigits 10 b := by
    rw [← Nat.toList_repr, ← Nat.toList_repr]
    exact congrArg String.toList h
  rw [← Nat.ofDigitChars_ten_toDigits (n := a), hdigits,
    Nat.ofDigitChars_ten_toDigits]

theorem labelName_injective {a b : Nat} (h : labelName a = labelName b) :
    a = b :=
  toString_injective ((String.append_right_inj _).mp h)

theorem limitName_injective {a b : Nat} (h : limitName a = limitName b) :
    a = b :=
  toString_injective ((String.append_right_inj _).mp h)

/-- Names that a source gives are none of those that are made. -/
def Lexeme.IsGiven : Lexeme → Prop
  | identifier x => ∀ k, x ≠ limitName k
  | label l => ∀ k, l ≠ labelName k
  | _ => True

/-! ## Formulas -/

/-- The operation of a minus sign, if there is one. -/
def Op.signs (negative : Bool) : List Op := if negative then [.neg] else []

/-- The code of a formula. -/
def Formula.code {t : Tier} : Formula t → (negative : Bool) → List Item
  | name x, negative => .op (.name x) :: (Op.signs negative).map .op
  | constant v, negative => .number v :: (Op.signs negative).map .op
  | group e, negative => e.code false ++ (Op.signs negative).map .op
  | compare a o b, _ => a.code false ++ b.code false ++ [.op (.binary o)]
  | bracket c, _ => c.code false
  | not a, _ => a.code false ++ [.op .not]
  | only a, negative => a.code negative
  | negated a, _ => a.code true
  | join a o b, negative =>
      a.code negative ++ b.code false ++ [.op (.binary o)]

/-- There are no labels in the code of a formula, neither pushed nor placed. -/
theorem Formula.labelless {t : Tier} (e : Formula t) (l : String) : ∀ negative,
    Item.label l ∉ e.code negative ∧ Item.place l ∉ e.code negative := by
  induction e with
  | name | constant =>
      intro negative
      cases negative <;> simp [code, Op.signs]
  | group e ih =>
      intro negative
      cases negative <;> simp [code, Op.signs, ih]
  | compare a o b iha ihb => simp [code, iha, ihb]
  | bracket c ih => exact fun _ => ih false
  | not a ih => simp [code, ih]
  | only a ih => exact ih
  | negated a ih => exact fun _ => ih true
  | join a o b iha ihb => simp [code, iha, ihb]

theorem Formula.label_not_mem_code {t : Tier} (e : Formula t) (l : String)
    (negative : Bool) : Item.label l ∉ e.code negative :=
  (e.labelless l negative).1

theorem Formula.place_not_mem {t : Tier} (e : Formula t) (l : String)
    (negative : Bool) : Item.place l ∉ e.code negative :=
  (e.labelless l negative).2

/-! ## Statements -/

/-- A line, its label and its code. -/
structure Chunk where
  label : Option String
  line : Line
  code : List Item

/-- The code of a line behind the place of its label. -/
def Chunk.items (c : Chunk) : List Item := c.label.toList.map .place ++ c.code

/-- The limit of a loop is set and the parameter tested against it. -/
def limitCode (parameter limit : String) (last : Expression) (exit : String) :
    List Item :=
  .op (.name limit) :: (last.code false ++
    [.op .assign, .op (.name parameter), .op (.name limit), .op (.binary .le),
      .label exit, .op .jumpIfFalse])

/-- The parameter of a loop is set to a first value, and the test follows. -/
def loopCode (parameter limit : String) (first last : Expression)
    (entry exit : String) : List Item :=
  .op (.name parameter) :: (first.code false ++
    .op .assign :: .place entry :: limitCode parameter limit last exit)

/-- The parameter goes up by one, and the test is gone back to. -/
def nextCode (parameter entry exit : String) : List Item :=
  [.op (.name parameter), .op (.name parameter), .number .one,
    .op (.binary .add), .op .assign, .label entry, .op .jump, .place exit]

/-- What is skipped if a condition is false. -/
def branchCode (c : Condition) (target skip : String) : List Item :=
  c.code false ++
    [.label skip, .op .jumpIfFalse, .label target, .op .jump, .place skip]

/-- Each name goes to its operation. -/
def transferCode (kind : Transfer) (names : List String) : List Item :=
  names.flatMap fun x => [.op (.name x), .op kind.op]

/-! ## Names to be made -/

/-- The labels and variables there are. What the next ones are called
follows from them. -/
structure Stock where
  labels : List String := []
  store : Store := .empty

/-- The labels and variables that a composer has. -/
def Composer.stock (c : Composer) : Stock := ⟨c.labels, c.store⟩

namespace Stock

/-- A composer that has these names. -/
def composer (k : Stock) : Composer := { labels := k.labels, store := k.store }

/-- The next label. -/
def label (k : Stock) : String := k.composer.newLabel.1

/-- The next variable for a limit. -/
def limit (k : Stock) : String := k.composer.newLimit.1

/-- The names when a label more is made. -/
def addLabel (k : Stock) : Stock := k.composer.newLabel.2.stock

/-- The names when a variable more is made. -/
def addLimit (k : Stock) : Stock := k.composer.newLimit.2.stock

end Stock

namespace Stmt

/-- The names there are behind a statement. -/
def stock {x : Extent} : Stmt x → Stock → Stock
  | assign _ _, k | transfer _ _, k => k
  | branch _ _, k => k.addLabel
  | loop _ _ _ body, k => body.stock k.addLimit.addLabel.addLabel
  | plain s, k | labelled _ s, k | one s, k => s.stock k
  | more before s, k => s.stock (before.stock k)

/-- The code of a statement, wherever its names come from. -/
def items {x : Extent} : Stmt x → Stock → List Item
  | assign x e, _ => .op (.name x) :: (e.code false ++ [.op .assign])
  | transfer kind names, _ => transferCode kind names.toList
  | branch c target, k => branchCode c target k.label
  | loop parameter first last body, k =>
      let entry := k.addLimit.label
      let exit := k.addLimit.addLabel.label
      loopCode parameter k.limit first last entry exit ++
        (body.items k.addLimit.addLabel.addLabel ++ nextCode parameter
          entry exit)
  | plain s, k | one s, k => s.items k
  | labelled label s, k => .place label :: s.items k
  | more before s, k => before.items k ++ s.items (before.stock k)

/-- How many labels a statement makes. -/
def made {x : Extent} : Stmt x → Nat
  | assign _ _ | transfer _ _ => 0
  | branch _ _ => 1
  | loop _ _ _ body => body.made + 2
  | plain s | labelled _ s | one s => s.made
  | more before s => before.made + s.made

/-- How many variables a statement makes. -/
def limits {x : Extent} : Stmt x → Nat
  | assign _ _ | transfer _ _ | branch _ _ => 0
  | loop _ _ _ body => body.limits + 1
  | plain s | labelled _ s | one s => s.limits
  | more before s => before.limits + s.limits

/-- The lines of statements with their code, after so many labels and so many
variables have been made. -/
def chunks {x : Extent} :
    Stmt x → (label : Option String) → (n r : Nat) → List Chunk
  | assign x e, label, _, _ =>
      [⟨label, .assign x e, .op (.name x) :: (e.code false ++ [.op .assign])⟩]
  | transfer kind names, label, _, _ =>
      [⟨label, .transfer kind names.toList, transferCode kind names.toList⟩]
  | branch c target, label, n, _ =>
      [⟨label, .branch c target, branchCode c target (labelName (n + 1))⟩]
  | loop parameter first last body, label, n, r =>
      let entry := labelName (n + 1)
      let exit := labelName (n + 2)
      let inner := body.chunks none (n + 2) (r + 1)
      ⟨label, .loop parameter first last (inner.length + 2),
        loopCode parameter (limitName (r + 1)) first last entry exit⟩ ::
        (inner ++
          [⟨none, .next parameter last inner.length,
            nextCode parameter entry exit⟩])
  | plain s, _, n, r => s.chunks none n r
  | labelled label s, _, n, r => s.chunks (some label) n r
  | one s, _, n, r => s.chunks none n r
  | more before s, _, n, r =>
      before.chunks none n r ++ s.chunks none (n + before.made)
        (r + before.limits)

variable {x : Extent}

/-- Chunks show the lines of the tree. -/
theorem chunks_lines (s : Stmt x) : ∀ label n r,
    (s.chunks label n r).map (fun c => (c.label, c.line)) = s.lines label := by
  induction s with
  | assign | transfer | branch => exact fun _ _ _ => rfl
  | loop parameter first last body ih =>
      intro label n r
      have hlength : (body.chunks none (n + 2) (r + 1)).length =
          (body.lines none).length := by
        rw [← ih none (n + 2) (r + 1), List.length_map]
      simp only [chunks, lines, List.map_cons, List.map_append, List.map_nil,
        ih, hlength]
  | plain s ih => exact fun _ => ih none
  | labelled label s ih => exact fun _ => ih (some label)
  | one s ih => exact fun _ => ih none
  | more before s ihbefore ihs =>
      intro label n r
      simp only [chunks, lines, List.map_append, ihbefore, ihs]

/-- The labels made for a statement are those counted for it. -/
theorem place_mem (s : Stmt x) :
    ∀ {label : Option String} {n r : Nat} {l : String},
    .place l ∈ (s.chunks label n r).flatMap Chunk.code →
      ∃ k, l = labelName k ∧ n < k ∧ k ≤ n + s.made := by
  induction s with
  | assign x e =>
      intro label n r l h
      simp [chunks, e.place_not_mem] at h
  | transfer kind names =>
      intro label n r l h
      simp [chunks, transferCode] at h
  | branch c target =>
      intro label n r l h
      simp only [chunks, branchCode, List.flatMap_cons, List.flatMap_nil,
        List.append_nil, List.mem_append, c.place_not_mem, false_or] at h
      simp at h
      exact ⟨n + 1, h, Nat.lt_succ_self n, Nat.le_refl _⟩
  | loop parameter first last body ih =>
      intro label n r l h
      simp only [chunks, List.flatMap_cons, List.flatMap_append,
        List.flatMap_nil, List.append_nil, List.mem_append] at h
      unfold made
      rcases h with hhead | hbody | htail
      · simp [loopCode, limitCode, first.place_not_mem, last.place_not_mem]
          at hhead
        exact ⟨n + 1, hhead, by omega, by omega⟩
      · obtain ⟨k, hl, hlower, hupper⟩ := ih hbody
        exact ⟨k, hl, by omega, by omega⟩
      · simp [nextCode] at htail
        exact ⟨n + 2, htail, by omega, by omega⟩
  | plain s ih | one s ih | labelled _ s ih =>
      intro label n r l h
      exact ih h
  | more before s ihbefore ihs =>
      intro label n r l h
      simp only [chunks, List.flatMap_append, List.mem_append] at h
      unfold made
      rcases h with h | h
      · obtain ⟨k, hl, hlower, hupper⟩ := ihbefore h
        exact ⟨k, hl, by omega, by omega⟩
      · obtain ⟨k, hl, hlower, hupper⟩ := ihs h
        exact ⟨k, hl, by omega, by omega⟩

end Stmt

end Reckon
