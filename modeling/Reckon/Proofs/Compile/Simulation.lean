import Reckon.Proofs.Compile.Execution

/-!
# Line by line

A machine *mirrors* a situation if it stands where the code of the line starts
with nothing on its stack and has the same values, input and output. From there
it runs the code of the line and mirrors the situation that the line leads to,
or is stopped by the fault that stops the line. This holds of every situation,
whether or not a run gets there: a body that is jumped into finds the limit of
its loop unset, but the end of a loop sets the limit before it is looked at.

Only the variables of the source are compared. The machine has others, for the
limits of loops, and these are not among the names that a source can give.
-/

namespace Reckon

open Composer (labelName limitName)

/-- A machine has the values, the input and the output of a situation. -/
structure Shares (known : String → Prop) (now : Situation) (m : Machine) :
    Prop where
  values : ∀ x, known x → m.store.get? x = some (now.values x)
  input : m.input = now.input
  output : m.output = now.output
  room : m.room = none

/-- What a line says is said with names that are known, and it does not jump to
a label that is made. -/
def Line.Within (known : String → Prop) : Line → Prop
  | assign x e => known x ∧ ∀ y, .identifier y ∈ e.lexemes → known y
  | transfer _ names => ∀ y ∈ names, known y
  | branch c target =>
      (∀ y, .identifier y ∈ c.lexemes → known y) ∧ ∀ k, target ≠ labelName k
  | loop parameter first last _ =>
      known parameter ∧ (∀ y, .identifier y ∈ first.lexemes → known y) ∧
        ∀ y, .identifier y ∈ last.lexemes → known y
  | next parameter last _ =>
      known parameter ∧ ∀ y, .identifier y ∈ last.lexemes → known y

/-- A program is the code of the lines of a script. -/
structure Renders (p : Program) (s : Script) (cs : List Chunk)
    (known : String → Prop) : Prop where
  lines : cs.map (fun c => (c.label, c.line)) = s.lines
  pooled : s.pooled = p.literal
  emits : Emits p (codeOf cs)
  fits : FitsAll cs 0 cs
  within : ∀ c ∈ cs, c.line.Within known
  made : ∀ l, .place l ∈ cs.flatMap Chunk.code → ∃ k, l = labelName k
  given : ∀ x, known x → ∀ k, x ≠ limitName k

/-- The code of a line can be entered at its start and behind its label. -/
def Stands (cs : List Chunk) (i k : Nat) : Prop :=
  k = startOf cs i ∨
    ∃ c l, cs[i]? = some c ∧ c.label = some l ∧ k = startOf cs i + 2

/-- A machine is about to run the line of a situation. -/
structure Mirrors (cs : List Chunk) (known : String → Prop) (now : Situation)
    (m : Machine) : Prop extends Shares known now m where
  stack : m.stack = []
  position : Stands cs now.line m.position

/-- A machine gets where a line leads to. -/
def Follows (cs : List Chunk) (p : Program) (known : String → Prop)
    (m : Machine) : Progress → Prop
  | .ok after =>
      ∃ m', Relation.TransGen (Next p) m m' ∧ Mirrors cs known after m'
  | .fault cause after =>
      ∃ m' m'', Reaches p m m' ∧ Faults p m' cause m'' ∧ Shares known after m''

variable {p : Program} {s : Script} {cs : List Chunk} {known : String → Prop}
  {now : Situation} {m m' : Machine} {k i : Nat} {x : String} {v : Single}

theorem Follows.head {progress : Progress} (hnext : Next p m m')
    (h : Follows cs p known m' progress) : Follows cs p known m progress := by
  cases progress with
  | ok after =>
      obtain ⟨m₂, hsteps, hmirrors⟩ := h
      exact ⟨m₂, .head hnext hsteps, hmirrors⟩
  | fault cause after =>
      obtain ⟨m₂, m₃, hreach, hfault, hshares⟩ := h
      exact ⟨m₂, m₃, .head hnext hreach, hfault, hshares⟩

/-! ## Situations -/

namespace Shares

theorem standing (h : Shares known now m) (stack : List Operand) :
    Shares known now (m.standing k stack) :=
  ⟨h.values, h.input, h.output, h.room⟩

theorem goto (h : Shares known now m) (i : Nat) : Shares known (now.goto i) m :=
  ⟨h.values, h.input, h.output, h.room⟩

theorem set (h : Shares known now m) (x : String) (v : Single) :
    Shares known (now.set x v) { m with store := m.store.set x v } where
  values y hy := by
    rw [Store.get?_set]
    show _ = some (if y = x then v else now.values y)
    split
    · rfl
    · exact h.values y hy
  input := h.input
  output := h.output
  room := h.room

/-- Setting a variable that is not of the source changes nothing. -/
theorem setLimit (h : Shares known now m) (hx : ∀ y, known y → y ≠ x)
    (v : Single) :
    Shares known now { m with store := m.store.set x v } where
  values y hy := by
    rw [Store.get?_set, if_neg (hx y hy)]
    exact h.values y hy
  input := h.input
  output := h.output
  room := h.room

end Shares

theorem Stands.start : Stands cs i (startOf cs i) := .inl rfl

theorem mirrors_standing (h : Shares known now m)
    (hposition : Stands cs now.line k) :
    Mirrors cs known now (m.standing k []) :=
  { h.standing [] with stack := rfl, position := hposition }

/-! ## Reading and writing -/

/-- A machine gets to a position with an empty stack, unless it is stopped. -/
def Delivers (p : Program) (known : String → Prop) (k : Nat) (m : Machine) :
    Progress → Prop
  | .ok after => ∃ m', Reaches p m (m'.standing k []) ∧ Shares known after m'
  | .fault cause after =>
      ∃ m' m'', Reaches p m m' ∧ Faults p m' cause m'' ∧ Shares known after m''

theorem Delivers.head {progress : Progress} (hreach : Reaches p m m')
    (h : Delivers p known k m' progress) : Delivers p known k m progress := by
  cases progress with
  | ok after =>
      obtain ⟨m₂, hrest, hshares⟩ := h
      exact ⟨m₂, hreach.trans hrest, hshares⟩
  | fault cause after =>
      obtain ⟨m₂, m₃, hrest, hfault, hshares⟩ := h
      exact ⟨m₂, m₃, hreach.trans hrest, hfault, hshares⟩

theorem transferCode_cons (kind : Transfer) (x : String) (names : List String) :
    transferCode kind (x :: names) =
      .op (.name x) :: .op kind.op :: transferCode kind names :=
  rfl

theorem readAll_run (names : List String) :
    ∀ {now : Situation} {m : Machine} {k : Nat},
    Seg p k (transferCode .read names) → Shares known now m →
    Delivers p known (k + Item.sizes (transferCode .read names))
      (m.standing k [])
      (now.readAll names) := by
  induction names with
  | nil => exact fun _ hshares => ⟨_, .refl, hshares⟩
  | cons x names ih =>
      intro now m k hseg hshares
      have hname : Next p (m.standing k []) _ := next_name hseg
      have hinput := hshares.input
      rw [Situation.readAll]
      cases htake : Situation.takeNumber x now.input with
      | mk result later =>
          rw [← hinput] at htake
          cases result with
          | error cause =>
              exact ⟨_, _, .single hname, faults_read hseg.tail htake,
                ⟨hshares.values, rfl, hshares.output, hshares.room⟩⟩
          | ok v =>
              have hread := next_read hseg.tail htake (s := [])
              have hafter : Shares known ({ now with input := later }.set x v)
                  { m with store := m.store.set x v, input := later } :=
                ⟨(hshares.set x v).values, rfl, hshares.output, hshares.room⟩
              have hrest := ih hseg.tail.tail hafter
              rw [transferCode_cons, Item.sizes_cons, Item.sizes_cons,
                ← Nat.add_assoc, ← Nat.add_assoc]
              exact hrest.head (.tail (.single hname) hread)

theorem writeAll_run (names : List String) :
    ∀ {now : Situation} {m : Machine} {k : Nat},
    Seg p k (transferCode .write names) → Shares known now m →
    (∀ x ∈ names, known x) →
    Delivers p known (k + Item.sizes (transferCode .write names))
      (m.standing k [])
      (.ok (now.writeAll names)) := by
  induction names with
  | nil => exact fun _ hshares _ => ⟨_, .refl, hshares⟩
  | cons x names ih =>
      intro now m k hseg hshares hknown
      obtain ⟨hx, hnames⟩ := List.forall_mem_cons.mp hknown
      have hname : Next p (m.standing k []) _ := next_name hseg
      have hwrite := next_write (s := []) hseg.tail hshares.room
        (hshares.values x hx)
      have hafter : Shares known (now.write x)
          { m with output :=
            m.output ++ (x ++ " = " ++ (now.values x).toText).toUTF8.data } :=
        ⟨hshares.values,
          hshares.input, by rw [hshares.output]; rfl, hshares.room⟩
      have hrest := ih hseg.tail.tail hafter hnames
      rw [transferCode_cons, Item.sizes_cons, Item.sizes_cons, ← Nat.add_assoc,
        ← Nat.add_assoc]
      exact hrest.head (.tail (.single hname) hwrite)

/-- What delivers at the next line follows there. -/
theorem Delivers.follows {progress : Progress} {k' : Nat}
    (h : Delivers p known k' (m.standing k []) progress)
    (hk : k < k') (hend : k' = startOf cs i) :
    Follows cs p known (m.standing k []) (progress.andThen (·.goto i)) := by
  cases progress with
  | ok after =>
      obtain ⟨m', hreach, hshares⟩ := h
      refine ⟨m'.standing k' [], ?_,
        mirrors_standing (hshares.goto i) (.inl hend)⟩
      rcases Relation.reflTransGen_iff_eq_or_transGen.mp hreach with heq
        | hsteps
      · have : k' = k := congrArg Machine.position heq
        omega
      · exact hsteps
  | fault cause after => exact h

theorem follows_transfer {kind : Transfer} {names : List String}
    (hne : names ≠ []) (hshares : Shares known now m)
    (hwithin : (Line.transfer kind names).Within known)
    (hseg : Seg p k (transferCode kind names))
    (hend : k + Item.sizes (transferCode kind names) =
      startOf cs (now.line + 1)) : Follows cs p known (m.standing k [])
      (s.perform now (.transfer kind names)) := by
  have hpos : k < k + Item.sizes (transferCode kind names) := by
    cases names with
    | nil => exact absurd rfl hne
    | cons x names =>
        have hsize : (Item.op (.name x)).size = 1 := rfl
        rw [transferCode_cons, Item.sizes_cons, hsize]
        omega
  cases kind with
  | read => exact (readAll_run names hseg hshares).follows hpos hend
  | write => exact (writeAll_run names hseg hshares hwithin).follows hpos hend

/-- The end of a test: one line or the other. -/
theorem follows_test {parameter : String} {last : Expression}
    {body exit k₁ k₂ : Nat} {m' : Machine}
    (hsteps : Relation.TransGen (Next p) m (m'.standing
      (if (now.values parameter).le (s.evaluate now last) then k₁ else k₂) []))
    (hshares : Shares known now m') (hbody : k₁ = startOf cs body)
    (hexit : k₂ = startOf cs exit) :
    Follows cs p known m (.ok (s.test now parameter last body exit)) := by
  refine ⟨_, hsteps, mirrors_standing (hshares.goto _) (.inl ?_)⟩
  show _ = startOf cs
    (if (now.values parameter).le (s.evaluate now last) then body else exit)
  split
  · exact hbody
  · exact hexit

/-! ## Tests -/

theorem ofBool_le_zero (b : Bool) : (Single.ofBool b).le .zero = !b := by
  cases b <;> decide +kernel

namespace Renders

variable (h : Renders p s cs known)
include h

theorem target? {slot : Nat} {l : String} (hslot : p.labels[slot]? = some l) :
    p.target? slot = goal? cs l :=
  h.emits.target? hslot

/-- A formula of the source has the value that the script gives it. -/
theorem formula_run {t : Tier} {e : Formula t} (stack : List Operand)
    (hshares : Shares known now m)
    (he : ∀ x, .identifier x ∈ e.lexemes → known x)
    (hseg : Seg p k (e.code false)) :
    ∃ o, Denotes m.store o (s.evaluate now e) ∧
      Reaches p (m.standing k stack)
        (m.standing (k + Item.sizes (e.code false)) (o :: stack)) := by
  unfold Script.evaluate
  rw [h.pooled]
  exact e.runs (fun x hx => hshares.values x (he x hx)) hseg

/-- The test of a loop sets the limit and goes on behind itself or to the
exit. -/
theorem test_run {parameter exit : String} {last : Expression} {r target : Nat}
    (hshares : Shares known now m) (hparameter : known parameter)
    (hlast : ∀ x, .identifier x ∈ last.lexemes → known x)
    (hseg : Seg p k (limitCode parameter (limitName r) last exit))
    (hexit : goal? cs exit = some target) :
    ∃ m', Reaches p (m.standing k [])
        (m'.standing (if (now.values parameter).le (s.evaluate now last)
          then k + Item.sizes (limitCode parameter (limitName r) last exit)
          else target) []) ∧
      Shares known now m' := by
  let bound := s.evaluate now last
  let m₁ : Machine := { m with store := m.store.set (limitName r) bound }
  have hshares₁ : Shares known now m₁ :=
    hshares.setLimit (fun y hy => h.given y hy r) bound
  have hlimit : Denotes m₁.store (.name (limitName r)) bound :=
    .name (by rw [Store.get?_set, if_pos rfl])
  have hvalue : Denotes m₁.store (.name parameter) (now.values parameter) :=
    .name (hshares₁.values parameter hparameter)
  obtain ⟨o, ho, hformula⟩ := h.formula_run [.name (limitName r)]
    hshares hlast hseg.tail.left
  have hrest := hseg.tail.right
  obtain ⟨slot, hslot, hlabel⟩ := next_label hrest.tail.tail.tail.tail
  have hcompare := next_binary (s := []) hrest.tail.tail.tail hvalue hlimit
  have hjump :=
    next_jumpIfFalse (m := m₁) (s := []) hrest.tail.tail.tail.tail.tail
      (.number (.ofBool ((now.values parameter).le bound)))
      ((h.target? hslot).trans hexit)
  refine ⟨m₁, ?_, hshares₁⟩
  have hreach : Reaches p (m.standing k []) _ :=
    .head (next_name hseg) (hformula.trans (.head (next_assign hrest ho)
      (.head (next_name hrest.tail) (.head (next_name hrest.tail.tail)
        (.head hcompare (.head hlabel (.single hjump)))))))
  have hend : k + 1 + Item.sizes (last.code false) + 6 =
      k + Item.sizes (limitCode parameter (limitName r) last exit) := by
    simp [limitCode, Item.size]
    omega
  cases hle : (now.values parameter).le bound with
  | true =>
      rw [if_pos rfl, ← hend]
      rwa [ofBool_le_zero, hle, if_neg (by decide)] at hreach
  | false =>
      rw [if_neg (by decide)]
      rwa [ofBool_le_zero, hle, if_pos (by decide)] at hreach

/-! ## Lines -/

variable {code : List Item}

theorem follows_assign {e : Expression} (hshares : Shares known now m)
    (hwithin : (Line.assign x e).Within known)
    (hseg : Seg p k (.op (.name x) :: (e.code false ++ [.op .assign])))
    (hend : k + Item.sizes (.op (.name x) :: (e.code false ++ [.op .assign])) =
      startOf cs (now.line + 1)) :
    Follows cs p known (m.standing k []) (s.perform now (.assign x e)) := by
  obtain ⟨o, ho, hformula⟩ := h.formula_run [.name x] hshares hwithin.2
    hseg.tail.left
  have hassign := next_assign (x := x) (s := []) hseg.tail.right ho
  refine ⟨_, .head' (next_name hseg) (hformula.tail hassign),
    mirrors_standing ((hshares.set x _).goto _) (.inl ?_)⟩
  rw [Item.sizes_cons, Item.sizes_append, ← Nat.add_assoc, ← Nat.add_assoc]
    at hend
  exact hend

theorem find?_eq {l : String} (hl : ∀ k, l ≠ labelName k) :
    goal? cs l = (s.find? l).map (startOf cs · + 2) := by
  have hcode : .place l ∉ cs.flatMap Chunk.code := by
    intro hmem
    obtain ⟨k, hk⟩ := h.made l hmem
    exact hl k hk
  rw [goal?_given hcode, Script.find?, ← h.lines, List.findIdx?_map]
  rfl

theorem stands_of_find? {l : String} (hi : s.find? l = some i) :
    Stands cs i (startOf cs i + 2) := by
  rw [Script.find?, ← h.lines, List.findIdx?_map] at hi
  obtain ⟨hlt, hlabel, -⟩ := List.findIdx?_eq_some_iff_getElem.mp hi
  exact .inr ⟨cs[i], l, List.getElem?_eq_getElem hlt, of_decide_eq_true hlabel,
    rfl⟩

theorem follows_branch {c : Condition} {target skip : String}
    (hshares : Shares known now m)
    (hwithin : (Line.branch c target).Within known)
    (hseg : Seg p k (branchCode c target skip))
    (hskip : goal? cs skip = some (startOf cs (now.line + 1))) :
    Follows cs p known (m.standing k [])
      (s.perform now (.branch c target)) := by
  obtain ⟨o, ho, hformula⟩ := h.formula_run [] hshares hwithin.1 hseg.left
  obtain ⟨b, hb⟩ : ∃ b, s.evaluate now c = .ofBool b :=
    c.exists_ofBool rfl false
  have hrest := hseg.right
  obtain ⟨slot, hslot, hlabel⟩ := next_label hrest
  have hjump := next_jumpIfFalse (s := []) hrest.tail ho
    ((h.target? hslot).trans hskip)
  have hentered := Relation.TransGen.tail' (hformula.tail hlabel) hjump
  rw [hb, ofBool_le_zero] at hentered
  have hholds : Single.zero.lt (.ofBool b) = b := by
    cases b <;> decide +kernel
  rw [Script.perform, hb, hholds]
  cases b with
  | false =>
      rw [if_neg (by decide)]
      exact ⟨_, hentered, mirrors_standing (hshares.goto _) (.inl rfl)⟩
  | true =>
      obtain ⟨slot', hslot', hlabel'⟩ := next_label hrest.tail.tail
      have hgoal := (h.target? hslot').trans (h.find?_eq hwithin.2)
      rw [if_pos rfl]
      cases hfind : s.find? target with
      | none =>
          rw [hfind] at hgoal
          exact ⟨_, _, hentered.to_reflTransGen.tail hlabel',
            faults_jump hrest.tail.tail.tail hgoal hslot', hshares.standing []⟩
      | some i =>
          rw [hfind] at hgoal
          have hgoto := next_jump (m := m) (s := []) hrest.tail.tail.tail hgoal
          exact ⟨_, (hentered.tail hlabel').tail hgoto,
            mirrors_standing (hshares.goto i) (h.stands_of_find? hfind)⟩

theorem follows_loop {parameter entry exit : String} {first last : Expression}
    {r n : Nat} (hshares : Shares known now m)
    (hwithin : (Line.loop parameter first last n).Within known)
    (hseg : Seg p k (loopCode parameter (limitName r) first last entry exit))
    (hend :
      k + Item.sizes (loopCode parameter (limitName r) first last entry exit) =
        startOf cs (now.line + 1))
    (hexit : goal? cs exit = some (startOf cs (now.line + n))) :
    Follows cs p known (m.standing k [])
      (s.perform now (.loop parameter first last n)) := by
  obtain ⟨hparameter, hfirst, hlast⟩ := hwithin
  obtain ⟨o, ho, hformula⟩ := h.formula_run [.name parameter] hshares
    hfirst hseg.tail.left
  have hrest := hseg.tail.right
  have hassign := next_assign (x := parameter) (s := []) hrest ho
  obtain ⟨m', htest, hshares'⟩ := h.test_run
    (hshares.set parameter (s.evaluate now first)) hparameter hlast
    hrest.tail.tail hexit
  refine follows_test (.head' (next_name hseg) (hformula.trans
    (.head hassign (.head (next_place hrest.tail) htest)))) hshares' ?_ rfl
  rw [← hend]
  simp [loopCode, Item.size]
  omega

theorem follows_next {parameter entry exit : String} {last : Expression}
    {r n : Nat} {a b : List Item} (hshares : Shares known now m)
    (hwithin : (Line.next parameter last n).Within known)
    (hseg : Seg p k (nextCode parameter entry exit))
    (hcode : codeOf cs = a ++ limitCode parameter (limitName r) last exit ++ b)
    (hentry : goal? cs entry = some (Item.sizes a))
    (hbody : startOf cs (now.line - n) = Item.sizes a +
      Item.sizes (limitCode parameter (limitName r) last exit))
    (hexit : goal? cs exit = some (startOf cs (now.line + 1))) :
    Follows cs p known (m.standing k [])
      (s.perform now (.next parameter last n)) := by
  have hadds :=
    reaches_increased (s := []) hseg (hshares.values parameter hwithin.1)
  obtain ⟨slot, hslot, hlabel⟩ := next_label hseg.tail.tail.tail.tail.tail
  have hjump := fun m => next_jump (m := m) (s := [])
    hseg.tail.tail.tail.tail.tail.tail ((h.target? hslot).trans hentry)
  have htestseg :
      Seg p (Item.sizes a) (limitCode parameter (limitName r) last exit) :=
    Emits.seg (hcode ▸ h.emits)
  obtain ⟨m', htest, hshares'⟩ := h.test_run
    (hshares.set parameter (now.values parameter + p.literal .one)) hwithin.1
    hwithin.2 htestseg hexit
  rw [Script.perform, h.pooled]
  exact follows_test
    (.trans_right hadds (.head' hlabel (.head (hjump _) htest)))
    hshares' hbody.symm rfl

/-- The code of a line leads where the line leads. -/
theorem follows_line {line : Line} (hfits : Fits cs now.line line code)
    (hshares : Shares known now m) (hwithin : line.Within known)
    (hseg : Seg p k code)
    (hend : k + Item.sizes code = startOf cs (now.line + 1)) :
    Follows cs p known (m.standing k []) (s.perform now line) := by
  cases hfits with
  | assign x e => exact h.follows_assign hshares hwithin hseg hend
  | transfer kind names =>
      exact follows_transfer (List.cons_ne_nil _ _) hshares hwithin hseg hend
  | branch hskip => exact h.follows_branch hshares hwithin hseg hskip
  | loop hexit => exact h.follows_loop hshares hwithin hseg hend hexit
  | next hcode hentry hbody hexit =>
      exact h.follows_next hshares hwithin hseg hcode hentry hbody hexit

/-! ## Steps -/

/-- A machine that mirrors a situation mirrors what the situation leads to. -/
theorem follows {progress : Progress} (hmirrors : Mirrors cs known now m)
    (hstep : s.step? now = some progress) : Follows cs p known m progress := by
  rw [Script.step?, ← h.lines, List.getElem?_map] at hstep
  cases hc : cs[now.line]? with
  | none =>
      rw [hc] at hstep
      cases hstep
  | some c =>
      rw [hc] at hstep
      obtain rfl := Option.some.inj hstep
      have hmem := List.mem_of_getElem? hc
      have hfits : Fits cs now.line c.line c.code := by
        simpa using h.fits.get hc
      have hseg := h.emits.seg_line hc
      have hend := startOf_succ hc
      have hm : m = m.standing m.position [] := by
        rw [← hmirrors.stack]
        rfl
      cases hlabel : c.label with
      | none =>
          rw [Chunk.items, hlabel] at hseg hend
          have hposition : m.position = startOf cs now.line := by
            rcases hmirrors.position with hstart | ⟨c', l, hc', hl, -⟩
            · exact hstart
            · rw [hc] at hc'
              cases hc'
              rw [hlabel] at hl
              cases hl
          rw [hm, hposition]
          exact h.follows_line hfits hmirrors.toShares (h.within c hmem) hseg
            hend.symm
      | some l =>
          rw [Chunk.items, hlabel] at hseg hend
          have hentered := h.follows_line hfits hmirrors.toShares
            (h.within c hmem) (k := startOf cs now.line + 2) hseg.tail
            (by rw [hend]; simp [Item.size]; omega)
          rcases hmirrors.position with hstart | ⟨-, -, -, -, hbehind⟩
          · rw [hm, hstart]
            exact hentered.head (next_place hseg)
          · rw [hm, hbehind]
            exact hentered

/-- A machine that mirrors the end of a script is at the end of its program. -/
theorem step?_eq_none (hmirrors : Mirrors cs known now m)
    (hstep : s.step? now = none) : m.step? p = none := by
  rw [Script.step?, ← h.lines, List.getElem?_map] at hstep
  have hline : cs[now.line]? = none := by
    simpa using hstep
  have hposition : m.position = p.ops.length := by
    rcases hmirrors.position with hstart | ⟨c, l, hc, -⟩
    · have hlength := List.getElem?_eq_none_iff.mp hline
      rw [hstart, startOf, List.take_of_length_le hlength]
      exact h.emits.carries.length_eq.symm
    · rw [hline] at hc
      cases hc
  unfold Machine.step?
  rw [hposition, List.getElem?_eq_none (Nat.le_refl _)]
  rfl

end Renders

end Reckon
