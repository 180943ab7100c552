import Reckon.Proofs.Compile.Code

/-!
# Where lines stand

The code of a program is that of its lines in order, so each line has a start,
and a jump should lead to the start of a line or to the test of a loop. `Fits`
says so of one line: its code is what the line asks for and its labels are where
they have to be. That every line of a program fits follows by induction on the
tree, for a tree inside any code in front of it that has made fewer labels and
any code behind it.

A label is found at its first place. For a made label this is its only place,
since the numbers only go up; for a label of the source it is the place in front
of the first line that has it.
-/

namespace Reckon

open Composer (labelName limitName)

/-- The code of some lines. -/
def codeOf (cs : List Chunk) : List Item := cs.flatMap Chunk.items

/-- Where the code of a line starts. -/
def startOf (cs : List Chunk) (i : Nat) : Nat := Item.sizes (codeOf (cs.take i))

/-- Where a jump to a label leads. -/
def goal? (cs : List Chunk) (l : String) : Option Nat :=
  Item.find? l 0 (codeOf cs)

/-- What the code of the line `i` has to be. -/
inductive Fits (cs : List Chunk) (i : Nat) : Line → List Item → Prop where
  | assign (x : String) (e : Expression) :
      Fits cs i (.assign x e) (.op (.name x) :: (e.code false ++ [.op .assign]))
  | transfer (kind : Transfer) (names : Names) :
      Fits cs i (.transfer kind names.toList) (transferCode kind names.toList)
  | branch {c : Condition} {target skip : String} :
      goal? cs skip = some (startOf cs (i + 1)) →
      Fits cs i (.branch c target) (branchCode c target skip)
  | loop {parameter entry exit : String} {first last : Expression} {r n : Nat} :
      goal? cs exit = some (startOf cs (i + n)) →
      Fits cs i (.loop parameter first last n)
        (loopCode parameter (limitName r) first last entry exit)
  /-- The test that is gone back to ends where the body starts. -/
  | next {parameter entry exit : String} {last : Expression} {r n : Nat}
      {a b : List Item} :
      codeOf cs = a ++ limitCode parameter (limitName r) last exit ++ b →
      goal? cs entry = some (Item.sizes a) →
      startOf cs (i - n) =
        Item.sizes a + Item.sizes
          (limitCode parameter (limitName r) last exit) →
      goal? cs exit = some (startOf cs (i + 1)) →
      Fits cs i (.next parameter last n) (nextCode parameter entry exit)

/-- Lines fit, one behind the other. -/
def FitsAll (cs : List Chunk) : (i : Nat) → List Chunk → Prop
  | _, [] => True
  | i, c :: rest => Fits cs i c.line c.code ∧ FitsAll cs (i + 1) rest

variable {x : Extent} {cs a b : List Chunk} {i n r : Nat} {l : String}
  {u v : List Item}

@[simp] theorem codeOf_nil : codeOf [] = [] := rfl

@[simp] theorem codeOf_cons (c : Chunk) (cs : List Chunk) :
    codeOf (c :: cs) = c.items ++ codeOf cs := List.flatMap_cons

@[simp] theorem codeOf_append (a b : List Chunk) :
    codeOf (a ++ b) = codeOf a ++ codeOf b := List.flatMap_append

theorem startOf_eq (hcs : cs = a ++ b) (hi : i = a.length) :
    startOf cs i = Item.sizes (codeOf a) := by
  unfold startOf
  rw [hcs, hi, List.take_left]

theorem startOf_succ {c : Chunk} (hc : cs[i]? = some c) :
    startOf cs (i + 1) = startOf cs i + Item.sizes c.items := by
  unfold startOf
  rw [List.take_add_one, hc]
  simp

/-- The code of a line is where the line starts. -/
theorem Emits.seg_line {p : Program} {c : Chunk} (h : Emits p (codeOf cs))
    (hc : cs[i]? = some c) : Seg p (startOf cs i) c.items := by
  obtain ⟨hlt, rfl⟩ := List.getElem?_eq_some_iff.mp hc
  have hsplit : codeOf cs =
      codeOf (cs.take i) ++ cs[i].items ++ codeOf (cs.drop (i + 1)) := by
    rw [List.append_assoc, ← codeOf_cons, ← codeOf_append,
      ← List.drop_eq_getElem_cons hlt, List.take_append_drop]
  exact Emits.seg (hsplit ▸ h)

theorem goal?_eq (hcode : codeOf cs = u ++ .place l :: v) (hu : .place l ∉ u) :
    goal? cs l = some (Item.sizes u + 2) := by
  unfold goal?
  rw [hcode, Item.find?_append hu, Item.find?_place, Nat.zero_add]

theorem FitsAll.append : ∀ {i : Nat} {a : List Chunk}, FitsAll cs i a →
    FitsAll cs (i + a.length) b → FitsAll cs i (a ++ b)
  | _, [], _, hb => hb
  | i, c :: a, ha, hb => by
      have hlength : i + (c :: a).length = i + 1 + a.length := by
        rw [List.length_cons]
        omega
      exact ⟨ha.1, ha.2.append (hlength ▸ hb)⟩

theorem FitsAll.get {c : Chunk} : ∀ {i : Nat} {a : List Chunk}, FitsAll cs i a →
    ∀ {j : Nat}, a[j]? = some c → Fits cs (i + j) c.line c.code
  | i, d :: a, h, 0, hj => by
      obtain rfl : d = c := by simpa using hj
      exact h.1
  | i, d :: a, h, j + 1, hj => by
      have := h.2.get (j := j) (by simpa using hj)
      rwa [Nat.add_right_comm, Nat.add_assoc] at this

/-! ## Labels of the source -/

theorem Stmt.label_mem (s : Stmt x) : ∀ {label : Option String} {n r : Nat}
    {c : Chunk}, c ∈ s.chunks label n r → c.label = some l →
      label = some l ∨ .label l ∈ s.lexemes := by
  induction s with
  | assign | transfer | branch =>
      intro label n r c hc hl
      obtain rfl := List.mem_singleton.mp hc
      exact .inl hl
  | loop parameter first last body ih =>
      intro label n r c hc hl
      simp only [chunks, List.mem_cons, List.mem_append, List.not_mem_nil,
        or_false] at hc
      rcases hc with rfl | hc | rfl
      · exact .inl hl
      · rcases ih hc hl with hnone | hmem
        · cases hnone
        · simp [lexemes, hmem]
      · cases hl
  | plain s ih =>
      intro label n r c hc hl
      rcases ih hc hl with hnone | hmem
      · cases hnone
      · exact .inr hmem
  | labelled label s ih =>
      intro _ n r c hc hl
      rcases ih hc hl with hlabel | hmem
      · obtain rfl := Option.some.inj hlabel
        simp [lexemes]
      · simp [lexemes, hmem]
  | one s ih =>
      intro label n r c hc hl
      rcases ih hc hl with hnone | hmem
      · cases hnone
      · simp [lexemes, hmem]
  | more before s ihbefore ihs =>
      intro label n r c hc hl
      rcases List.mem_append.mp hc with hc | hc
      · rcases ihbefore hc hl with hnone | hmem
        · cases hnone
        · simp [lexemes, hmem]
      · rcases ihs hc hl with hnone | hmem
        · cases hnone
        · simp [lexemes, hmem]

/-- The places of labels are those of lines and those in code. -/
theorem place_mem_codeOf :
    .place l ∈ codeOf cs ↔
      (∃ c ∈ cs, c.label = some l) ∨ .place l ∈ cs.flatMap Chunk.code := by
  unfold codeOf Chunk.items
  simp only [List.mem_flatMap, List.mem_append, List.mem_map, Option.mem_toList,
    Item.place.injEq]
  constructor
  · rintro ⟨c, hc, ⟨m, hm, rfl⟩ | hcode⟩
    · exact .inl ⟨c, hc, hm⟩
    · exact .inr ⟨c, hc, hcode⟩
  · rintro (⟨c, hc, hl⟩ | ⟨c, hc, hcode⟩)
    · exact ⟨c, hc, .inl ⟨l, hl, rfl⟩⟩
    · exact ⟨c, hc, .inr hcode⟩

/-- The made labels that have a place in the code of a statement. -/
theorem Stmt.made_of_place (s : Stmt x) {label : Option String} {k : Nat}
    (hlabel : ∀ l ∈ label, ∀ k, l ≠ labelName k)
    (hgiven : ∀ lexeme ∈ s.lexemes, lexeme.IsGiven)
    (h : .place (labelName k) ∈ codeOf (s.chunks label n r)) :
    n < k ∧ k ≤ n + s.made := by
  rcases place_mem_codeOf.mp h with ⟨c, hc, hl⟩ | hcode
  · rcases s.label_mem hc hl with hmem | hmem
    · exact absurd rfl (hlabel _ hmem k)
    · exact absurd rfl (hgiven _ hmem k)
  · obtain ⟨m, hm, hlower, hupper⟩ := s.place_mem hcode
    obtain rfl := labelName_injective hm
    exact ⟨hlower, hupper⟩

/-- A label that is not made is found in front of the first line that has it. -/
theorem goal?_given (hcode : .place l ∉ cs.flatMap Chunk.code) :
    goal? cs l =
      (cs.findIdx? fun c => c.label = some l).map (startOf cs · + 2) := by
  have hfrom : ∀ k, Item.find? l k (codeOf cs) =
      (cs.findIdx? fun c => c.label = some l).map (k + startOf cs · + 2) := by
    induction cs with
    | nil => exact fun _ => rfl
    | cons c cs ih =>
        intro k
        rw [List.flatMap_cons, List.mem_append, not_or] at hcode
        rw [codeOf_cons, List.findIdx?_cons]
        by_cases hl : c.label = some l
        · rw [Chunk.items, hl]
          simp [startOf]
        · have hitems : .place l ∉ c.items := by
            simp [Chunk.items, hcode.1, hl]
          rw [Item.find?_append hitems, ih hcode.2, decide_eq_false hl]
          simp [startOf, Function.comp_def, Nat.add_assoc]
  unfold goal?
  simpa using hfrom 0

/-! ## Every line fits -/

/-- A label made here has no place in front: neither among what was made before
nor as the label of the line. -/
theorem place_not_mem_front {label : Option String} {k : Nat}
    (ha : ∀ k, .place (labelName k) ∈ codeOf a → k ≤ n)
    (hlabel : ∀ l ∈ label, ∀ k, l ≠ labelName k) (hk : n < k) :
    .place (labelName k) ∉ codeOf a ++ label.toList.map Item.place := by
  intro h
  rcases List.mem_append.mp h with h | h
  · exact Nat.not_le_of_lt hk (ha k h)
  · obtain ⟨l, hl, he⟩ := List.mem_map.mp h
    exact hlabel l (Option.mem_toList.mp hl) k (Item.place.inj he)

theorem fits_branch {c₀ : Chunk} {front : List Item} (c : Condition)
    (target : String) {skip : String} (hfront : .place skip ∉ codeOf a ++ front)
    (hc : c₀.items = front ++ branchCode c target skip)
    (hcs : cs = a ++ [c₀] ++ b) :
    Fits cs a.length (.branch c target) (branchCode c target skip) := by
  let u := codeOf a ++ front ++ (c.code false ++
    [.label skip, .op .jumpIfFalse, .label target, .op .jump])
  have hcode : codeOf cs = u ++ .place skip :: codeOf b := by
    simp [hcs, u, hc, branchCode]
  have hu : .place skip ∉ u := by
    simp only [u, List.mem_append, not_or] at hfront ⊢
    exact ⟨hfront, c.place_not_mem skip false, by simp⟩
  refine .branch ?_
  rw [goal?_eq hcode hu, startOf_eq hcs (by simp)]
  simp [u, hc, branchCode, Item.size]
  omega

/-- The two ends of a loop fit, whatever lines are between them that make none
of its labels. -/
theorem fits_loop {head final : Chunk} {inner : List Chunk} {front : List Item}
    (parameter : String) (first last : Expression) {entry exit : String}
    (hentry : .place entry ∉ codeOf a ++ front)
    (hexit : .place exit ∉ codeOf a ++ front) (hne : exit ≠ entry)
    (hinner : .place exit ∉ codeOf inner)
    (hhead : head.items =
      front ++ loopCode parameter (limitName r) first last entry exit)
    (hfinal : final.items = nextCode parameter entry exit)
    (hcs : cs = a ++ head :: (inner ++ [final]) ++ b) :
    Fits cs a.length (.loop parameter first last (inner.length + 2))
        (loopCode parameter (limitName r) first last entry exit) ∧
      Fits cs (a.length + 1 + inner.length) (.next parameter last inner.length)
        (nextCode parameter entry exit) := by
  let test := limitCode parameter (limitName r) last exit
  let u := codeOf a ++ front ++
    .op (.name parameter) :: (first.code false ++ [.op .assign])
  let v := u ++ .place entry :: (test ++ codeOf inner ++
    [.op (.name parameter), .op (.name parameter), .number .one,
      .op (.binary .add), .op .assign, .label entry, .op .jump])
  have hcode : codeOf cs = u ++ .place entry :: (test ++ (codeOf inner ++
      (nextCode parameter entry exit ++ codeOf b))) := by
    simp [hcs, u, test, hhead, hfinal, loopCode]
  have hend : codeOf cs = v ++ .place exit :: codeOf b := by
    simp [hcode, v, nextCode]
  have hu : ∀ {l}, .place l ∉ codeOf a ++ front → .place l ∉ u := by
    intro l hl
    simp only [u, List.mem_append, not_or] at hl ⊢
    exact ⟨hl, by simp [first.place_not_mem]⟩
  have hv : .place exit ∉ v := by
    simp [v, test, limitCode, hu hexit, hne, hinner, last.place_not_mem]
  have hbody : cs = (a ++ [head]) ++ (inner ++ [final] ++ b) := by
    simp [hcs]
  constructor
  · refine .loop ?_
    rw [goal?_eq hend hv, startOf_eq hcs (by simp)]
    simp [v, u, test, hhead, hfinal, loopCode, nextCode, Item.size]
    omega
  · refine .next (a := u ++ [.place entry]) (b := codeOf inner ++
      (nextCode parameter entry exit ++ codeOf b)) (r := r) ?_ ?_ ?_ ?_
    · simp [hcode, test]
    · rw [goal?_eq hcode (hu hentry)]
      simp [Item.size]
    · rw [startOf_eq hbody (by simp)]
      simp [u, hhead, loopCode, Item.size]
      omega
    · rw [goal?_eq hend hv, startOf_eq hcs (by simp; omega)]
      simp [v, u, test, hhead, hfinal, loopCode, nextCode, Item.size]
      omega

/-- Every line of a statement fits. -/
theorem Stmt.fits (s : Stmt x) :
    ∀ {label : Option String} {n r : Nat} {a b : List Chunk},
    (∀ k, .place (labelName k) ∈ codeOf a → k ≤ n) →
    (∀ l ∈ label, ∀ k, l ≠ labelName k) →
    (∀ lexeme ∈ s.lexemes, lexeme.IsGiven) →
    FitsAll (a ++ s.chunks label n r ++ b) a.length (s.chunks label n r) := by
  have hnone : ∀ l ∈ (none : Option String), ∀ k, l ≠ labelName k :=
    fun _ hl => nomatch hl
  induction s with
  | assign x e =>
      intros
      exact ⟨.assign x e, trivial⟩
  | transfer kind names =>
      intros
      exact ⟨.transfer kind names, trivial⟩
  | branch c target =>
      intro label n r a b ha hlabel hgiven
      have hfront := place_not_mem_front ha hlabel (Nat.lt_succ_self n)
      exact ⟨fits_branch c target hfront rfl rfl, trivial⟩
  | loop parameter first last body ih =>
      intro label n r a b ha hlabel hgiven
      have hbody : ∀ lexeme ∈ body.lexemes, lexeme.IsGiven := fun lexeme hmem =>
        hgiven lexeme (by simp [lexemes, hmem])
      let inner := body.chunks none (n + 2) (r + 1)
      have hinner : .place (labelName (n + 2)) ∉ codeOf inner := fun h =>
        Nat.lt_irrefl _ (body.made_of_place hnone hbody h).1
      have hne : labelName (n + 2) ≠ labelName (n + 1) := fun he => by
        have := labelName_injective he
        omega
      have hentry := place_not_mem_front ha hlabel (show n < n + 1 by omega)
      have hexit := place_not_mem_front ha hlabel (show n < n + 2 by omega)
      let head : Chunk := ⟨label, .loop parameter first last (inner.length + 2),
        loopCode parameter (limitName (r + 1)) first last (labelName (n + 1))
          (labelName (n + 2))⟩
      let final : Chunk := ⟨none, .next parameter last inner.length,
        nextCode parameter (labelName (n + 1)) (labelName (n + 2))⟩
      let cs := a ++ head :: (inner ++ [final]) ++ b
      obtain ⟨hloop, hnext⟩ :=
        fits_loop (r := r + 1) parameter first last hentry
        hexit hne hinner rfl rfl (show cs = _ from rfl)
      have hmade : ∀ k,
          .place (labelName k) ∈ codeOf (a ++ [head]) → k ≤ n + 2 := by
        intro k hk
        rw [codeOf_append, List.mem_append] at hk
        rcases hk with hk | hk
        · exact Nat.le_add_right_of_le (ha k hk)
        · simp [head, Chunk.items, loopCode, limitCode, first.place_not_mem,
            last.place_not_mem] at hk
          rcases hk with hk | hk
          · exact absurd rfl (hlabel _ hk k)
          · rw [labelName_injective hk]
            omega
      have hlines := ih (r := r + 1) (b := [final] ++ b) hmade hnone hbody
      have hcs : a ++ [head] ++ inner ++ ([final] ++ b) =
          a ++ head :: (inner ++ [final]) ++ b := by
        simp
      rw [hcs, List.length_append] at hlines
      exact ⟨hloop, hlines.append ⟨hnext, trivial⟩⟩
  | plain s ih =>
      intro label n r a b ha _ hgiven
      exact ih ha hnone hgiven
  | labelled label s ih =>
      intro _ n r a b ha _ hgiven
      refine ih ha ?_ fun lexeme hmem => hgiven lexeme (by simp [lexemes, hmem])
      rintro _ ⟨rfl⟩
      exact hgiven (.label label) (by simp [lexemes])
  | one s ih =>
      intro label n r a b ha _ hgiven
      exact ih ha hnone fun lexeme hmem =>
        hgiven lexeme (by simp [lexemes, hmem])
  | more before s ihbefore ihs =>
      intro label n r a b ha _ hgiven
      have hbefore : ∀ lexeme ∈ before.lexemes, lexeme.IsGiven :=
        fun lexeme hmem => hgiven lexeme (by simp [lexemes, hmem])
      have hs : ∀ lexeme ∈ s.lexemes, lexeme.IsGiven := fun lexeme hmem =>
        hgiven lexeme (by simp [lexemes, hmem])
      have hmade : ∀ k, .place (labelName k) ∈
          codeOf (a ++ before.chunks none n r) → k ≤ n + before.made := by
        intro k hk
        rw [codeOf_append, List.mem_append] at hk
        rcases hk with hk | hk
        · exact Nat.le_add_right_of_le (ha k hk)
        · exact (before.made_of_place hnone hbefore hk).2
      have hfirst := ihbefore (r := r) (b := s.chunks none (n + before.made)
        (r + before.limits) ++ b) ha hnone hbefore
      have hsecond := ihs (r := r + before.limits) (b := b) hmade hnone hs
      simp only [chunks, List.append_assoc, List.length_append]
        at hfirst hsecond ⊢
      exact hfirst.append hsecond

end Reckon
