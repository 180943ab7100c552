import Reckon.Code.Composition
import Reckon.Proofs.Results

/-!
# What a token does

The composer as a relation: `Takes` has one case for each thing that can come of
a token, with all that is known where it comes up. The functions of the composer
are opened here once, and what is said of composing any tokens, checked or not,
is said case by case.

Only what is pending matters of the stack, not the lines it is pending from.
Wherever operators are put out of it they lie on top of what is to stay, so this
is one relation too, `Clears`.
-/

namespace Reckon

/-! ## What is pending -/

namespace Pending

/-- The label of an `if`, once that is made. -/
def branch? : Pending → Option (Option String)
  | branch skip => some skip
  | _ => none

/-- What is known of a loop. -/
def loop? : Pending → Option LoopContext
  | loop context => some context
  | _ => none

/-- What has words of its own to end it: an `if`, a loop or a list of
variables. -/
def isConstruct : Pending → Bool
  | branch _ | loop _ | transfer _ => true
  | _ => false

/-- What a text makes pending is a construct or an operator. -/
theorem isConstruct_or {q : Pending} {text : String}
    (h : ofText? text = some q) :
    q.isConstruct = true ∨
      ∃ op, q = .operator op ∧ Op.ofOperator? text = some op := by
  unfold ofText? at h
  split at h
  case h_1 | h_2 | h_3 | h_4 => cases h; exact .inl rfl
  case h_5 =>
    obtain ⟨op, hop, rfl⟩ := Option.map_eq_some_iff.mp h
    exact .inr ⟨op, rfl, hop⟩

end Pending

variable {frames : List Frame} {ops : List Op} {op : Op} {q : Pending}
  {rest : List Pending} {text : String} {stays : Pending → Bool} {line : Nat}

namespace Frame

/-- A frame that is taken off is that of an operator. -/
theorem pending_of_release {f : Frame} (h : f.release line = .ok op) :
    f.pending = .operator op := by
  unfold release at h
  split at h
  · next hpending =>
      cases h
      exact hpending
  · cases h
  · cases h
  · cases h

/-- What is put out are the operators on top of what stays. -/
theorem exists_of_unwind {p : Program} {left : List Frame × Program}
    (h : unwind stays line frames p = .ok left) :
    ∃ ops : List Op,
      frames.map pending = ops.map .operator ++ left.1.map pending ∧
      left.2 = p.pushAll ops ∧
      ∀ q ∈ (left.1.map pending).head?, stays q = true := by
  induction frames generalizing p with
  | nil =>
      cases h
      exact ⟨[], rfl, by simp [Program.pushAll], nofun⟩
  | cons f rest ih =>
      unfold unwind at h
      split at h
      · next hstays =>
          cases h
          exact ⟨[], rfl, by simp [Program.pushAll], by simpa using hstays⟩
      · obtain ⟨op, hop, h⟩ := bind_eq_ok_iff.mp h
        obtain ⟨ops, hrest, hprogram, htop⟩ := ih h
        refine ⟨op :: ops, ?_, ?_, htop⟩
        · rw [List.map_cons, pending_of_release hop, hrest]
          rfl
        · simp [hprogram, Program.push, Program.pushAll]

end Frame

namespace Composer

variable {c c₁ c' : Composer} {before : Option Token} {token : Token}
  {tokens : List Token} {context : LoopContext} {kind : Transfer}

/-- What is pending, innermost first. -/
def pending (c : Composer) : List Pending := c.stack.map Frame.pending

@[simp] theorem pending_emit (c : Composer) (ops : List Op) :
    (c.emit ops).pending = c.pending := rfl

@[simp] theorem pending_emitLabel (c : Composer) (l : String) :
    (c.emitLabel l).pending = c.pending := rfl

@[simp] theorem pending_emitPlace (c : Composer) (l : String) :
    (c.emitPlace l).pending = c.pending := rfl

/-- Puts out a number. -/
def emitNumber (c : Composer) (v : Single) : Composer :=
  { c with program := c.program.pushConstant v }

@[simp] theorem pending_emitNumber (c : Composer) (v : Single) :
    (c.emitNumber v).pending = c.pending := rfl

@[simp] theorem pending_await (c : Composer) (q : Pending) (line : Nat) :
    (c.await q line).pending = q :: c.pending := rfl

@[simp] theorem pending_close (c : Composer) :
    c.close.pending = c.pending.tail :=
  List.map_tail

@[simp] theorem pending_newLabel (c : Composer) :
    c.newLabel.2.pending = c.pending := rfl

@[simp] theorem pending_newLimit (c : Composer) :
    c.newLimit.2.pending = c.pending := rfl

theorem pending_replaceTop {q' : Pending} (h : c.pending = q :: rest) :
    (c.replaceTop q').pending = q' :: rest := by
  unfold pending at h
  unfold replaceTop
  split
  · next hstack =>
      rw [hstack] at h
      cases h
  · next hstack =>
      rw [hstack] at h
      exact congrArg (q' :: ·) (List.cons.inj h).2

theorem innermostBranch?_eq (c : Composer) :
    Frame.innermostBranch? c.stack = c.pending.findSome? Pending.branch? := by
  unfold pending
  induction c.stack with
  | nil => rfl
  | cons f rest ih =>
      rw [Frame.innermostBranch?, List.map_cons, List.findSome?_cons, ih]
      cases f.pending <;> rfl

theorem branch_not_mem (h : Frame.innermostBranch? c.stack = none)
    (skip : Option String) : .branch skip ∉ c.pending := by
  intro hmem
  rw [innermostBranch?_eq] at h
  cases List.findSome?_eq_none_iff.mp h _ hmem

theorem innermostLoop?_eq (c : Composer) :
    Frame.innermostLoop? c.stack = c.pending.findSome? Pending.loop? := by
  unfold pending
  induction c.stack with
  | nil => rfl
  | cons f rest ih =>
      rw [Frame.innermostLoop?, List.map_cons, List.findSome?_cons, ih]
      cases f.pending <;> rfl

/-! ## Operators that are put out -/

/-- Operators that were pending on top have been put out, and
nothing else happened. -/
structure Clears (ops : List Op) (c c' : Composer) : Prop where
  pending : c.pending = ops.map .operator ++ c'.pending
  program : c'.program = c.program.pushAll ops
  labels : c'.labels = c.labels
  store : c'.store = c.store

theorem clears_of_unwind (h : c.unwind stays line = .ok c') :
    ∃ ops, Clears ops c c' ∧ ∀ q ∈ c'.pending.head?, stays q = true := by
  unfold unwind at h
  split at h
  · next hunwind =>
      cases h
      obtain ⟨ops, hpending, hprogram, htop⟩ := Frame.exists_of_unwind hunwind
      exact ⟨ops, ⟨hpending, hprogram, rfl, rfl⟩, htop⟩
  · cases h

theorem clears_of_unwindTo {target : Pending → Bool}
    (h : c.unwindTo target text line = .ok c') :
    ∃ ops q rest, Clears ops c c' ∧ c'.pending = q :: rest ∧
      target q = true := by
  obtain ⟨c₁, hunwind, h⟩ := bind_eq_ok_iff.mp h
  obtain ⟨ops, hclears, htop⟩ := clears_of_unwind hunwind
  split at h
  · cases h
  · next hstack =>
      cases h
      obtain ⟨f, rest, hstack⟩ :=
        List.exists_cons_of_ne_nil (by simpa using hstack)
      have hpending : c'.pending = f.pending :: rest.map Frame.pending := by
        rw [Composer.pending, hstack]
        rfl
      exact ⟨ops, _, _, hclears, hpending, htop _ (by rw [hpending]; rfl)⟩

/-- Nothing was on top. -/
theorem Clears.refl (c : Composer) : Clears [] c c :=
  ⟨rfl, by simp [Program.pushAll], rfl, rfl⟩

/-- What is left was pending before. -/
theorem Clears.mem (h : Clears ops c c') (hq : q ∈ c'.pending) :
    q ∈ c.pending :=
  h.pending ▸ List.mem_append_right _ hq

/-- Operators on top hide no construct. -/
theorem Clears.findSome? {α : Type} {find? : Pending → Option α}
    (h : Clears ops c c') (hfind : ∀ op, find? (.operator op) = none) :
    c.pending.findSome? find? = c'.pending.findSome? find? := by
  have hnone : (ops.map Pending.operator).findSome? find? = none := by
    simp [hfind]
  rw [h.pending, List.findSome?_append, hnone, Option.none_or]

/-! ## Texts -/

/-- The operation of a text: that of an operator, or a minus sign of one
operand. -/
def Operates (text : String) (op : Op) : Prop :=
  Op.ofOperator? text = some op ∨ text = "-" ∧ op = .neg

/-- What comes of a fixed text on a line, if anything. -/
inductive TakesText (before : Option Token) (line : Nat) :
    String → Composer → Composer → Prop where
  | mark (c : Composer) : TakesText before line ":" c (c.emit [.mark])
  /-- An operator waits until what binds as tightly is out. -/
  | operator {text : String} {op : Op} {ops : List Op} {c c₁ : Composer} :
      Operates text op → Clears ops c c₁ →
        TakesText before line text c (c₁.await (.operator op) line)
  /-- The first equals sign of a loop. -/
  | parameter {c : Composer} {context : LoopContext} {rest : List Pending}
      (x : String) :
      c.program.ops.getLast? = some (.name x) →
      c.pending = .loop context :: rest → TakesText before line "=" c
          ((c.replaceTop (.loop { context with parameter := some x })).await
            (.operator .assign) line)
  /-- A construct is opened inside loops only. -/
  | construct {text : String} {q : Pending} {ops : List Op} {c c₁ : Composer} :
      Pending.ofText? text = some q → q.isConstruct = true → Clears ops c c₁ →
        (∀ q ∈ c₁.pending.head?, q.isLoop = true) →
          TakesText before line text c (c₁.await q line)
  | round {c : Composer} :
      (∀ kind, Frame.openTransfer? c.stack = some kind →
        ¬ before.any (·.isKeyword kind.keyword)) →
          TakesText before line "(" c (c.await .roundBracket line)
  | square (c : Composer) :
      TakesText before line "[" c (c.await .squareBracket line)
  /-- The bracket behind the word of a list. -/
  | list {c : Composer} {kind : Transfer} :
      Frame.openTransfer? c.stack = some kind →
      before.any (·.isKeyword kind.keyword) → TakesText before line "(" c c
  /-- The comma in front of a list. -/
  | front (c : Composer) : TakesText before line "," c c
  | comma (c : Composer) (kind : Transfer) :
      TakesText before line "," c (c.emit [kind.op])
  | listEnd {c c₁ : Composer} {kind : Transfer} {ops : List Op}
      {rest : List Pending} :
      Clears ops (c.emit [kind.op]) c₁ → c₁.pending = .transfer kind :: rest →
        TakesText before line ")" c c₁.close
  | roundEnd {c c₁ : Composer} {ops : List Op} {rest : List Pending} :
      Clears ops c c₁ → c₁.pending = .roundBracket :: rest →
        TakesText before line ")" c c₁.close
  | squareEnd {c c₁ : Composer} {ops : List Op} {rest : List Pending} :
      Clears ops c c₁ → c₁.pending = .squareBracket :: rest →
        TakesText before line "]" c c₁.close
  | condition {c c₁ : Composer} {ops : List Op} {rest : List Pending}
      {skip : Option String} :
      Clears ops c.newLabel.2 c₁ → c₁.pending = .branch skip :: rest →
        TakesText before line "then" c
          (((c₁.emitLabel c.newLabel.1).emit [.jumpIfFalse]).replaceTop
            (.branch (some c.newLabel.1)))
  | goto (c : Composer) : TakesText before line "goto" c c
  | branchEnd {c c₁ : Composer} {ops : List Op} {rest : List Pending}
      {skip : String} :
      Clears ops c c₁ → c₁.pending = .branch (some skip) :: rest →
        TakesText before line lineBreak c
          ((c₁.emit [.jump]).emitPlace skip).close
  | limit {c c₁ : Composer} {ops : List Op} {rest : List Pending}
      {context : LoopContext} :
      Clears ops c.newLimit.2.newLabel.2 c₁ →
      c₁.pending = .loop context :: rest → TakesText before line "to" c
          (((c₁.emitPlace c.newLimit.2.newLabel.1).emit
            [.name c.newLimit.1]).replaceTop (.loop { context with
              limit := some c.newLimit.1,
              entry := some c.newLimit.2.newLabel.1 }))
  | test {c c₁ : Composer} {ops : List Op} {rest : List Pending}
      {context : LoopContext} {parameter limit : String} :
      (∀ skip, .branch skip ∉ c.pending) → context.parameter = some parameter →
        context.limit = some limit → context.exit = none →
          Clears ops c.newLabel.2 c₁ → c₁.pending = .loop context :: rest →
            TakesText before line lineBreak c
              ((((c₁.emit [.assign, .name parameter, .name limit,
                .binary .le]).emitLabel
                c.newLabel.1).emit [.jumpIfFalse]).replaceTop
                  (.loop { context with exit := some c.newLabel.1 }))
  | lineEnd {c c₁ : Composer} {ops : List Op} :
      (∀ skip, .branch skip ∉ c.pending) → Clears ops c c₁ →
        TakesText before line lineBreak c c₁
  | next {c c₁ : Composer} {ops : List Op} {rest : List Pending}
      {context : LoopContext} {parameter entry exit : String} :
      context.parameter = some parameter → context.entry = some entry →
        context.exit = some exit → Clears ops c c₁ →
          c₁.pending = .loop context :: rest →
            TakesText before line "next" c
              ((((((c₁.emit
                [.name parameter, .name parameter]).emitNumber .one).emit
                [.binary .add, .assign]).emitLabel entry).emit
                  [.jump]).emitPlace exit).close

/-- What comes of a token, if anything. -/
inductive Takes (before : Option Token) :
    Token → Composer → Composer → Prop where
  | name (x : String) (line : Nat) (index : Option Nat) (c : Composer) :
      Takes before (.word (.identifier x) line index) c
        { c with program := c.program.pushName x }
  | number (v : Single) (line : Nat) (index : Option Nat) (c : Composer) :
      Takes before (.word (.constant v) line index) c (c.emitNumber v)
  | label (l : String) (line : Nat) (index : Option Nat) (c : Composer) :
      Takes before (.word (.label l) line index) c (c.emitLabel l)
  | text {text : String} {line : Nat} (index : Option Nat) {c c' : Composer} :
      TakesText before line text c c' →
        Takes before (.word (.keyword text) line index) c c'

/-! ## Nothing else is done -/

theorem takesText_of_openBranch (h : c.openBranch line = .ok c') :
    TakesText before line "then" c c' := by
  obtain ⟨c₁, hunwind, h⟩ := bind_eq_ok_iff.mp h
  cases h
  obtain ⟨ops, q, rest, hclears, hpending, hq⟩ := clears_of_unwindTo hunwind
  cases q with
  | branch skip => exact .condition hclears hpending
  | _ => cases hq

theorem takesText_of_closeBranch {skip : Option String}
    (hskip : Frame.innermostBranch? c.stack = some skip)
    (h : c.closeBranch skip line = .ok c') :
    TakesText before line lineBreak c c' := by
  unfold closeBranch at h
  split at h
  · cases h
  · next skip =>
      obtain ⟨c₁, hunwind, h⟩ := bind_eq_ok_iff.mp h
      cases h
      obtain ⟨ops, q, rest, hclears, hpending, hq⟩ := clears_of_unwindTo hunwind
      rw [innermostBranch?_eq, hclears.findSome? fun _ => rfl, hpending]
        at hskip
      cases q with
      | branch skip' =>
          cases hskip
          exact .branchEnd hclears hpending
      | _ => cases hq

theorem takesText_of_branchText? {result : Result Composer}
    (h : c.branchText? text line = some result) (hok : result = .ok c') :
    TakesText before line text c c' := by
  unfold branchText? at h
  split at h
  · cases h
  · next skip hskip =>
      split at h
      · next htext =>
          cases h
          subst htext
          exact takesText_of_openBranch hok
      · split at h
        · next htext =>
            cases h
            cases hok
            subst htext
            exact .goto c
        · split at h
          · next htext =>
              cases h
              subst htext
              exact takesText_of_closeBranch hskip hok
          · cases h

/-- The loop that is on top then is the one that was asked. -/
theorem exists_loop_of_unwindTo
    (hloop : Frame.innermostLoop? c.stack = some context)
    (h : c.unwindTo Pending.isLoop text line = .ok c') :
    ∃ ops rest, Clears ops c c' ∧ c'.pending = .loop context :: rest := by
  obtain ⟨ops, q, rest, hclears, hpending, hq⟩ := clears_of_unwindTo h
  rw [innermostLoop?_eq, hclears.findSome? fun _ => rfl, hpending] at hloop
  cases q with
  | loop context' =>
      cases hloop
      exact ⟨ops, rest, hclears, hpending⟩
  | _ => cases hq

theorem takesText_of_openLimit
    (hloop : Frame.innermostLoop? c.stack = some context)
    (h : c.openLimit context line = .ok c') :
    TakesText before line "to" c c' := by
  obtain ⟨c₁, hunwind, h⟩ := bind_eq_ok_iff.mp h
  cases h
  obtain ⟨ops, rest, hclears, hpending⟩ :=
    exists_loop_of_unwindTo (c := c.newLimit.2.newLabel.2) hloop hunwind
  exact .limit hclears hpending

theorem takesText_of_openBody (hbranch : Frame.innermostBranch? c.stack = none)
    (hloop : Frame.innermostLoop? c.stack = some context)
    (hexit : context.exit = none) (h : c.openBody context line = .ok c') :
    TakesText before line lineBreak c c' := by
  unfold openBody at h
  split at h
  · next parameter limit hparameter hlimit =>
      obtain ⟨c₁, hunwind, h⟩ := bind_eq_ok_iff.mp h
      cases h
      obtain ⟨ops, rest, hclears, hpending⟩ :=
        exists_loop_of_unwindTo (c := c.newLabel.2) hloop hunwind
      exact .test (branch_not_mem hbranch) hparameter hlimit hexit
        hclears hpending
  · cases h

theorem takesText_of_closeLoop
    (hloop : Frame.innermostLoop? c.stack = some context)
    (h : c.closeLoop context line = .ok c') :
    TakesText before line "next" c c' := by
  unfold closeLoop at h
  split at h
  · next parameter entry exit hparameter hentry hexit =>
      obtain ⟨c₁, hunwind, h⟩ := bind_eq_ok_iff.mp h
      cases h
      obtain ⟨ops, rest, hclears, hpending⟩ :=
        exists_loop_of_unwindTo hloop hunwind
      exact .next hparameter hentry hexit hclears hpending
  · cases h

theorem takesText_of_loopText? {result : Result Composer}
    (hbranch : Frame.innermostBranch? c.stack = none ∨ text ≠ lineBreak)
    (h : c.loopText? text line = some result) (hok : result = .ok c') :
    TakesText before line text c c' := by
  unfold loopText? at h
  split at h
  · cases h
  · next context hloop =>
      split at h
      · next htext =>
          cases h
          subst htext
          exact takesText_of_openLimit hloop hok
      · split at h
        · next htext =>
            subst htext
            have hnone := hbranch.resolve_right (fun hne => hne rfl)
            split at h
            · next hexit =>
                cases h
                exact takesText_of_openBody hnone hloop
                  (by simpa using hexit) hok
            · cases h
              obtain ⟨ops, rest, hclears, -⟩ :=
                exists_loop_of_unwindTo hloop hok
              exact .lineEnd (branch_not_mem hnone) hclears
        · split at h
          · next htext =>
              cases h
              subst htext
              exact takesText_of_closeLoop hloop hok
          · cases h

theorem takesText_of_transferText? {result : Result Composer}
    (h : c.transferText? before text = some result) (hok : result = .ok c') :
    TakesText before line text c c' := by
  unfold transferText? at h
  split at h
  · cases h
  · next kind hkind =>
      split at h
      · next htext =>
          subst htext
          split at h
          · cases h
            cases hok
            exact .front c
          · cases h
            cases hok
            exact .comma c kind
      · split at h
        · next hlist =>
            cases h
            cases hok
            rw [hlist.1]
            exact .list hkind hlist.2
        · cases h

theorem takesText_of_operatorText (h : c.operatorText text token = .ok c') :
    TakesText before token.line text c c' := by
  unfold operatorText at h
  split at h
  · cases h
  · next q hq =>
      obtain ⟨c₁, hunwind, h⟩ := bind_eq_ok_iff.mp h
      cases h
      obtain ⟨ops, hclears, htop⟩ := clears_of_unwind hunwind
      rcases Pending.isConstruct_or hq with hconstruct | ⟨op, rfl, hop⟩
      · refine .construct hq hconstruct hclears fun top htop' => ?_
        have hpriority : q.priority = 0 := by
          cases q <;> first | rfl | cases hconstruct
        simpa [hpriority] using htop top htop'
      · exact .operator (.inl hop) hclears

theorem takesText_of_plainText
    (hbranch : Frame.innermostBranch? c.stack = none ∨ text ≠ lineBreak)
    (hlist : text = "(" → ∀ kind, Frame.openTransfer? c.stack = some kind →
      ¬ before.any (·.isKeyword kind.keyword))
    (h : c.plainText text token = .ok c') :
    TakesText before token.line text c c' := by
  unfold plainText at h
  split at h
  · next htext =>
      subst htext
      obtain ⟨ops, hclears, -⟩ := clears_of_unwind h
      exact .lineEnd
        (branch_not_mem (hbranch.resolve_right (fun hne => hne rfl))) hclears
  · split at h
    · next htext =>
        cases h
        subst htext
        exact .round (hlist rfl)
    · split at h
      · next htext =>
          cases h
          subst htext
          exact .square c
      · exact takesText_of_operatorText h

theorem takesText_of_closeBracket (round : Bool)
    (h : c.closeBracket round line = .ok c') :
    TakesText before line (if round then ")" else "]") c c' := by
  unfold closeBracket at h
  split at h
  · next kind hkind =>
      split at hkind
      · next hround =>
          subst hround
          obtain ⟨c₁, hunwind, h⟩ := bind_eq_ok_iff.mp h
          cases h
          obtain ⟨ops, q, rest, hclears, hpending, hq⟩ :=
            clears_of_unwindTo hunwind
          cases q with
          | transfer kind' =>
              obtain rfl : kind' = kind := of_decide_eq_true hq
              exact .listEnd hclears hpending
          | _ => cases hq
      · cases hkind
  · dsimp only at h
    split at h
    · next c₁ hunwind =>
        cases h
        obtain ⟨ops, q, rest, hclears, hpending, hq⟩ :=
          clears_of_unwindTo hunwind
        obtain rfl := of_decide_eq_true hq
        cases round with
        | true => exact .roundEnd hclears hpending
        | false => exact .squareEnd hclears hpending
    · cases h

/-! What no construct is concerned with. -/

theorem innermostBranch?_of_branchText? (h : c.branchText? text line = none) :
    Frame.innermostBranch? c.stack = none ∨ text ≠ lineBreak := by
  unfold branchText? at h
  split at h
  · next hnone => exact .inl hnone
  · split at h
    · cases h
    · split at h
      · cases h
      · split at h
        · cases h
        · next hne => exact .inr hne

theorem not_isKeyword_of_transferText? (h : c.transferText? before "(" = none)
    (kind : Transfer) (hkind : Frame.openTransfer? c.stack = some kind) :
    ¬ before.any (·.isKeyword kind.keyword) := by
  unfold transferText? at h
  rw [hkind] at h
  intro hbefore
  simp [hbefore] at h

/-- A loop lets its first equals sign wait on top of it. -/
theorem takesText_of_setParameter (hcontext : c.awaitsParameter = some context)
    (hset : c.setParameter context token.line = .ok c₁)
    (h : c₁.plainText "=" token = .ok c') :
    TakesText before token.line "=" c c' := by
  unfold awaitsParameter at hcontext
  split at hcontext
  · next context' l rest hstack =>
      split at hcontext
      · cases hcontext
        unfold setParameter at hset
        split at hset
        · next x hlast =>
            cases hset
            have hpending :
                c.pending = .loop context :: rest.map Frame.pending :=
              congrArg (List.map Frame.pending) hstack
            have hwaits : (c.replaceTop
                (.loop { context with parameter := some x })).plainText
                  "=" token = .ok ((c.replaceTop
                    (.loop { context with parameter := some x })).await
                      (.operator .assign) token.line) := by
              unfold replaceTop
              rw [hstack]
              rfl
            cases hwaits.symm.trans h
            exact .parameter x hlast hpending
        · cases hset
      · cases hcontext
  · cases hcontext

theorem takesText_of_keyword (h : c.keyword before text token = .ok c') :
    TakesText before token.line text c c' := by
  unfold keyword at h
  dsimp only at h
  split at h
  · next hminus =>
      cases h
      exact .operator (.inr ⟨hminus.1, rfl⟩) (.refl c)
  split at h
  · next hnot =>
      cases h
      subst hnot
      exact .operator (.inl rfl) (.refl c)
  split at h
  · next hround =>
      subst hround
      exact takesText_of_closeBracket true h
  split at h
  · next hsquare =>
      subst hsquare
      exact takesText_of_closeBracket false h
  split at h
  · next hbranch => exact takesText_of_branchText? hbranch h
  next hbranch =>
  have hbreak := innermostBranch?_of_branchText? hbranch
  split at h
  · next hloop => exact takesText_of_loopText? hbreak hloop h
  split at h
  case h_1 =>
    have hcontext := ‹c.awaitsParameter = some _›
    obtain ⟨c₁, hset, h⟩ := bind_eq_ok_iff.mp h
    have hnone : c₁.transferText? before "=" = none := by
      unfold transferText?
      split <;> rfl
    rw [hnone] at h
    exact takesText_of_setParameter hcontext hset h
  case h_2 =>
    obtain ⟨c₁, hc₁, h⟩ := bind_eq_ok_iff.mp h
    cases hc₁
    split at h
    · next htransfer => exact takesText_of_transferText? htransfer h
    · next htransfer =>
        refine takesText_of_plainText hbreak (fun htext => ?_) h
        subst htext
        exact not_isKeyword_of_transferText? htransfer

/-- Whatever comes of a token is one of the cases. -/
theorem takes_of_feed (h : c.feed before token = .ok c') :
    Takes before token c c' := by
  unfold feed at h
  split at h
  · cases h
    exact .name ..
  · cases h
    exact .number ..
  · cases h
    exact .label ..
  · next text line index =>
      split at h
      · next htext =>
          cases h
          subst htext
          exact .text index (.mark c)
      · exact .text index (takesText_of_keyword h)
  · cases h
  · cases h

/-! ## Tokens one after the other -/

/-- Nothing is pending in what is composed. -/
theorem finish_eq_ok (h : c.finish = .ok c') : c' = c ∧ c.stack = [] := by
  unfold finish at h
  split at h
  · next hstack =>
      cases h
      exact ⟨rfl, hstack⟩
  all_goals cases h

section Induction

variable {P : List Token → Composer → Prop} {read : List Token}

theorem feedAll_induction
    (hstep : ∀ {read token c c'}, P read c → Takes read.getLast? token c c' →
      P (read ++ [token]) c') (hread : P read c)
    (h : c.feedAll read.getLast? tokens = .ok c') : P (read ++ tokens) c' := by
  induction tokens generalizing read c with
  | nil =>
      cases h
      rwa [List.append_nil]
  | cons token rest ih =>
      obtain ⟨c₁, hfeed, hrest⟩ := bind_eq_ok_iff.mp h
      rw [← List.getLast?_concat (l := read)] at hrest
      rw [List.append_cons]
      exact ih (hstep hread (takes_of_feed hfeed)) hrest

/-- What is true at the start and kept by every token is true of what is
composed, for the tokens and the line break that is added to them if they do not
end with one. Nothing is pending then. -/
theorem composeBare_induction {labels : List String} {store : Store}
    (hstart : P [] { labels, store })
    (hstep : ∀ {read token c c'}, P read c → Takes read.getLast? token c c' →
      P (read ++ [token]) c')
    (h : composeBare tokens labels store = .ok c) :
    c.stack = [] ∧
    (P tokens c ∨ ∃ line, P (tokens ++ [.keyword lineBreak line]) c) := by
  obtain ⟨c₁, hall, h⟩ := bind_eq_ok_iff.mp h
  obtain ⟨c₂, hend, h⟩ := bind_eq_ok_iff.mp h
  have htokens : P tokens c₁ := feedAll_induction hstep hstart hall
  obtain ⟨rfl, hstack⟩ := finish_eq_ok h
  refine ⟨hstack, ?_⟩
  unfold endLine at hend
  split at hend
  · split at hend
    · cases hend
      exact .inl htokens
    · exact .inr ⟨_, hstep htokens (takes_of_feed hend)⟩
  · cases hend
    exact .inl htokens

end Induction

end Composer

end Reckon
