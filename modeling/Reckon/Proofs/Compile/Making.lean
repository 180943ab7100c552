import Reckon.Proofs.Compile.Places
import Reckon.Proofs.Compile.Taking

/-!
# Made labels have their places

Each label that is made while tokens are composed is put out once as a place,
whatever the tokens are. At any time it has been put out or is kept for an `if`
or a loop that is still pending, and nothing is pending at the end. So labels
are counted: as often as one was made, it is kept or defined (`Accounts`).

A `then` puts the label of its `if` in the place of the one that was kept there,
so the count is kept only if each line has one `then`: an `if` ends with its
line, and there is never more than one of them pending. And a label among the
tokens is defined by the mark behind it. If it is one of those that are made it
has one more place.
-/

namespace Reckon

variable {ops : List Op} {op : Op} {q q' : Pending} {rest : List Pending}
  {line : Nat} {text l : String} {index : Option Nat}

/-! ## The order of what is pending -/

/-- Operators that wait have no slots, and below a construct there are loops
only. -/
structure Ordered (pending : List Pending) : Prop where
  plain : ∀ op, .operator op ∈ pending → op.isPlain = true
  nested : pending.Pairwise fun q r => q.isConstruct = true → r.isLoop = true

namespace Ordered

theorem tail (h : Ordered (q :: rest)) : Ordered rest :=
  ⟨fun op hop => h.plain op (List.mem_cons_of_mem _ hop),
    (List.pairwise_cons.mp h.nested).2⟩

/-- A construct has loops only below it. -/
theorem loops (h : Ordered (q :: rest)) (hq : q.isConstruct = true) :
    ∀ r ∈ rest, r.isLoop = true :=
  fun r hr => (List.pairwise_cons.mp h.nested).1 r hr hq

/-- Operators and brackets can lie on anything. -/
theorem operator (h : Ordered rest) (hop : op.isPlain = true) :
    Ordered (.operator op :: rest) where
  plain op' hop' := by
    rcases List.mem_cons.mp hop' with he | hop'
    · rwa [Pending.operator.inj he]
    · exact h.plain op' hop'
  nested := List.pairwise_cons.mpr ⟨fun _ _ => nofun, h.nested⟩

theorem bracket (h : Ordered rest) (hq : q.isConstruct = false)
    (hop : ∀ op, q ≠ .operator op) : Ordered (q :: rest) where
  plain op hmem :=
    h.plain op ((List.mem_cons.mp hmem).resolve_left (hop op ∘ Eq.symm))
  nested := by
    refine List.pairwise_cons.mpr ⟨fun _ _ hconstruct => ?_, h.nested⟩
    rw [hq] at hconstruct
    cases hconstruct

theorem construct (h : Ordered rest) (hq : q.isConstruct = true)
    (hrest : ∀ r ∈ rest, r.isLoop = true) : Ordered (q :: rest) where
  plain op hmem := by
    rcases List.mem_cons.mp hmem with rfl | hmem
    · cases hq
    · exact h.plain op hmem
  nested := List.pairwise_cons.mpr ⟨fun r hr _ => hrest r hr, h.nested⟩

/-- What is on top of loops is all there is on top of them. -/
theorem loops_of_head (h : Ordered rest)
    (htop : ∀ r ∈ rest.head?, r.isLoop = true) :
    ∀ r ∈ rest, r.isLoop = true := by
  cases rest with
  | nil => nofun
  | cons q rest =>
      have hloop := htop q rfl
      have hconstruct : q.isConstruct = true := by
        cases q <;> first | rfl | cases hloop
      exact List.forall_mem_cons.mpr ⟨hloop, h.loops hconstruct⟩

end Ordered

namespace Composer

variable {c c₁ c' : Composer} {before : Option Token} {token : Token}

theorem Operates.isPlain (h : Operates text op) : op.isPlain = true := by
  rcases h with h | ⟨-, rfl⟩
  · unfold Op.ofOperator? at h
    split at h <;> cases h <;> rfl
  · rfl

theorem Clears.ordered (h : Clears ops c c') (hordered : Ordered c.pending) :
    (∀ op ∈ ops, op.isPlain = true) ∧ Ordered c'.pending := by
  have hpending := h.pending ▸ hordered
  refine ⟨fun op hop => hpending.plain op ?_,
    fun op hop => hpending.plain op ?_, ?_⟩
  · exact List.mem_append_left _ (List.mem_map_of_mem hop)
  · exact List.mem_append_right _ hop
  · exact (List.pairwise_append.mp hpending.nested).2.1

theorem ordered_close (h : Ordered c.pending) : Ordered c.close.pending := by
  rw [pending_close]
  cases hpending : c.pending with
  | nil => exact ⟨nofun, .nil⟩
  | cons q rest => exact (hpending ▸ h).tail

theorem ordered_replaceTop (h : Ordered c.pending)
    (hpending : c.pending = q :: rest) (hq : q.isConstruct = true)
    (hq' : q'.isConstruct = true) : Ordered (c.replaceTop q').pending := by
  rw [pending_replaceTop hpending]
  exact (hpending ▸ h).tail.construct hq' ((hpending ▸ h).loops hq)

theorem TakesText.ordered (h : TakesText before line text c c')
    (hordered : Ordered c.pending) : Ordered c'.pending := by
  cases h with
  | mark | list | front | comma | goto => exact hordered
  | operator hop hclears =>
      exact (hclears.ordered hordered).2.operator hop.isPlain
  | parameter x hlast hpending =>
      exact (ordered_replaceTop hordered hpending rfl rfl).operator rfl
  | construct hq hconstruct hclears htop =>
      have hbelow := (hclears.ordered hordered).2
      exact hbelow.construct hconstruct (hbelow.loops_of_head htop)
  | round | square => exact hordered.bracket rfl nofun
  | lineEnd _ hclears => exact (hclears.ordered hordered).2
  | listEnd hclears _ | roundEnd hclears _ | squareEnd hclears _
  | branchEnd hclears _
  | next _ _ _ hclears _ => exact ordered_close (hclears.ordered hordered).2
  | condition hclears hpending | limit hclears hpending
  | test _ _ _ _ hclears hpending =>
      exact ordered_replaceTop (hclears.ordered hordered).2 hpending rfl rfl

theorem Takes.ordered (h : Takes before token c c')
    (hordered : Ordered c.pending) : Ordered c'.pending := by
  cases h with
  | name | number | label => exact hordered
  | text index htext => exact htext.ordered hordered

/-! ## Labels are counted -/

end Composer

/-- The labels whose places are kept for what is pending. -/
def Pending.due : Pending → List String
  | branch skip => skip.toList
  | loop context => context.exit.toList
  | _ => []

/-- Labels are made as often as they are placed, or less often if they are
given. -/
def Covers (given : String → Prop) (made placed : List String) : Prop :=
  ∀ l, made.count l ≤ placed.count l ∧
    (¬ given l → made.count l = placed.count l)

namespace Covers

variable {given : String → Prop} {made placed placed' ls : List String}

theorem perm (h : Covers given made placed) (hperm : placed.Perm placed') :
    Covers given made placed' :=
  fun l => hperm.count_eq l ▸ h l

/-- One label more is made and is to be placed. -/
theorem new (h : Covers given made placed) (l : String) :
    Covers given (made ++ [l]) (l :: placed) := by
  intro l'
  obtain ⟨hle, heq⟩ := h l'
  rw [List.count_append, List.count_cons, List.count_cons, List.count_nil,
    Nat.zero_add]
  exact ⟨Nat.add_le_add_right hle _, fun hl' => congrArg (· + _) (heq hl')⟩

/-- Given labels can be placed once more. -/
theorem more (h : Covers given made placed) (hls : ∀ l ∈ ls, given l) :
    Covers given made (placed ++ ls) := by
  intro l
  obtain ⟨hle, heq⟩ := h l
  rw [List.count_append]
  refine ⟨Nat.le_add_right_of_le hle, fun hl => ?_⟩
  rw [heq hl, List.count_eq_zero.mpr (hl ∘ hls l), Nat.add_zero]

end Covers

namespace Composer

variable {c c₁ c' : Composer} {given : String → Prop}
  {front made loose : List String}

/-- The labels whose places are kept. -/
def due (c : Composer) : List String := c.pending.flatMap Pending.due

/-- The labels behind those at the start have been made, each one once, and each
of them is in hand, or kept, or defined. -/
structure Accounts (given : String → Prop) (front made loose : List String)
    (c : Composer) : Prop where
  labels : c.labels = front ++ made
  nodup : made.Nodup
  fresh : ∀ l ∈ made, l ∉ front
  tabled : c.program.Tabled given
  covers : Covers given made (loose ++ (c.due ++ c.program.definitions))

theorem Clears.due_eq (h : Clears ops c c') : c.due = c'.due := by
  have hnone : (ops.map Pending.operator).flatMap Pending.due = [] := by
    simp [Pending.due]
  rw [due, h.pending, List.flatMap_append, hnone, List.nil_append]
  rfl

theorem due_of_pending (h : c.pending = q :: rest) :
    c.due = q.due ++ c.close.due := by
  rw [due, due, pending_close, h, List.flatMap_cons, List.tail_cons]

namespace Accounts

theorem mono {given' : String → Prop} (h : Accounts given front made loose c)
    (hgiven : ∀ l, given l → given' l) : Accounts given' front made loose c :=
  { h with
    tabled := h.tabled.mono hgiven
    covers := fun l =>
      ⟨(h.covers l).1, fun hl => (h.covers l).2 (hl ∘ hgiven l)⟩ }

variable (h : Accounts given front made loose c)
include h

/-! Most of what is put out defines nothing. -/

theorem withProgram {p : Program} (htabled : p.Tabled given)
    (hdefinitions : p.definitions = c.program.definitions) :
    Accounts given front made loose { c with program := p } :=
  ⟨h.labels, h.nodup, h.fresh, htabled, hdefinitions ▸ h.covers⟩

theorem emit (hops : ∀ op ∈ ops, op.isPlain = true) :
    Accounts given front made loose (c.emit ops) :=
  h.withProgram (h.tabled.pushAll hops)
    (Program.definitions_pushAll hops c.program)

theorem emitNumber (v : Single) :
    Accounts given front made loose (c.emitNumber v) :=
  h.withProgram (h.tabled.pushConstant v)
    (Program.definitions_pushConstant c.program v)

theorem emitGiven (hl : given l) :
    Accounts given front made loose (c.emitLabel l) :=
  h.withProgram (h.tabled.pushLabel hl) (h.tabled.definitions_pushLabel l)

/-- A label with an operation behind it is no place. -/
theorem jump (l : String) (hop : op.isPlain = true) :
    Accounts given front made loose ((c.emitLabel l).emit [op]) := by
  refine h.withProgram (h.tabled.behindLabel l (Op.slot?_of_isPlain hop)) ?_
  rw [Composer.emitLabel, Program.definitions_pushAll (by simpa using hop)]
  exact h.tabled.definitions_pushLabel l

/-- A mark among the tokens has a label among them in front if it has any. -/
theorem mark : Accounts given front made loose (c.emit [.mark]) := by
  obtain ⟨ls, hdefinitions, hgiven⟩ := h.tabled.definitions_mark
  refine ⟨h.labels, h.nodup, h.fresh, h.tabled.push rfl, ?_⟩
  have hmore := h.covers.more hgiven
  rwa [List.append_assoc, List.append_assoc, ← hdefinitions] at hmore

omit h in
/-- A label in hand gets its place. -/
theorem place (h : Accounts given front made (l :: loose) c) :
    Accounts given front made loose (c.emitPlace l) := by
  refine ⟨h.labels, h.nodup, h.fresh, h.tabled.behindLabel l rfl, ?_⟩
  have hcovers :
      Covers given made (loose ++ (c.due ++ c.program.definitions) ++ [l]) :=
    h.covers.perm (List.perm_append_singleton l _).symm
  rwa [List.append_assoc, List.append_assoc, ← h.tabled.definitions_place]
    at hcovers

theorem clears (hordered : Ordered c.pending) (hclears : Clears ops c c') :
    Accounts given front made loose c' := by
  have hplain := (hclears.ordered hordered).1
  refine ⟨hclears.labels ▸ h.labels, h.nodup, h.fresh, ?_, ?_⟩
  · rw [hclears.program]
    exact h.tabled.pushAll hplain
  · rw [← hclears.due_eq, hclears.program, Program.definitions_pushAll hplain]
    exact h.covers

/-- What comes in place of something else keeps what that kept, and what is in
hand. -/
theorem replaceTop {loose' : List String} (hpending : c.pending = q :: rest)
    (hdue : loose ++ q.due = loose' ++ q'.due) :
    Accounts given front made loose' (c.replaceTop q') := by
  have hsame :
      (c.replaceTop q').labels = c.labels ∧
      (c.replaceTop q').program = c.program := by
    unfold Composer.replaceTop
    split <;> exact ⟨rfl, rfl⟩
  refine ⟨hsame.1.trans h.labels, h.nodup, h.fresh, hsame.2 ▸ h.tabled, ?_⟩
  have hcovers := h.covers
  rw [due, hpending, List.flatMap_cons, List.append_assoc, ← List.append_assoc,
    hdue] at hcovers
  rwa [hsame.2, due, pending_replaceTop hpending, List.flatMap_cons,
    List.append_assoc, ← List.append_assoc]

/-- What something kept that is taken away is in hand then. -/
theorem close (hpending : c.pending = q :: rest) :
    Accounts given front made (loose ++ q.due) c.close := by
  refine ⟨h.labels, h.nodup, h.fresh, h.tabled, ?_⟩
  have hcovers := h.covers
  rwa [due_of_pending hpending, List.append_assoc, ← List.append_assoc]
    at hcovers

theorem await (hq : q.due = []) :
    Accounts given front made loose (c.await q line) := by
  refine ⟨h.labels, h.nodup, h.fresh, h.tabled, ?_⟩
  have hdue : (c.await q line).due = c.due := by
    rw [due, pending_await, List.flatMap_cons, hq, List.nil_append]
    rfl
  rw [hdue]
  exact h.covers

theorem newLabel :
    Accounts given front (made ++ [c.newLabel.1]) (c.newLabel.1 :: loose)
    c.newLabel.2 where
  labels := by
    rw [← List.append_assoc, ← h.labels]
    rfl
  nodup := by
    have hnew : c.newLabel.1 ∉ made := fun hmem =>
      c.newLabel_not_mem (h.labels ▸ List.mem_append_right _ hmem)
    exact List.nodup_append.mpr ⟨h.nodup, List.nodup_singleton _,
      fun a ha b hb he => hnew (List.mem_singleton.mp hb ▸ he ▸ ha)⟩
  fresh l hl := by
    rcases List.mem_append.mp hl with hl | hl
    · exact h.fresh l hl
    · rw [List.mem_singleton.mp hl]
      exact fun hmem =>
        c.newLabel_not_mem (h.labels ▸ List.mem_append_left _ hmem)
  tabled := h.tabled
  covers := h.covers.new _

theorem newLimit : Accounts given front made loose c.newLimit.2 :=
  ⟨h.labels, h.nodup, h.fresh, h.tabled, h.covers⟩

end Accounts

/-- A label that tokens name. -/
def NamesLabel (tokens : List Token) (l : String) : Prop :=
  ∃ token ∈ tokens, token.lexeme? = some (.label l)

theorem Transfer.op_isPlain (kind : Transfer) :
    ∀ op ∈ [kind.op], op.isPlain = true := by
  cases kind <;> simp [Transfer.op, Op.isPlain]

theorem due_of_ofText? (h : Pending.ofText? text = some q) : q.due = [] := by
  unfold Pending.ofText? at h
  split at h
  case h_1 | h_2 | h_3 | h_4 => cases h; rfl
  case h_5 =>
    obtain ⟨op, -, rfl⟩ := Option.map_eq_some_iff.mp h
    rfl

/-- The labels that come up with a text are accounted for, if it is
no second `then`. -/
theorem TakesText.accounts (h : TakesText before line text c c')
    (haccounts : Accounts given front made [] c) (hordered : Ordered c.pending)
    (hthen : text = "then" → ∀ skip, .branch (some skip) ∉ c.pending) :
    ∃ made, Accounts given front made [] c' := by
  cases h with
  | mark => exact ⟨_, haccounts.mark⟩
  | operator hop hclears =>
      exact ⟨_, (haccounts.clears hordered hclears).await rfl⟩
  | parameter x hlast hpending =>
      exact ⟨made, .await (.replaceTop haccounts hpending (by rfl)) rfl⟩
  | construct hq hconstruct hclears htop =>
      exact ⟨_, (haccounts.clears hordered hclears).await (due_of_ofText? hq)⟩
  | round | square => exact ⟨_, haccounts.await rfl⟩
  | list | front | goto => exact ⟨_, haccounts⟩
  | comma => exact ⟨_, haccounts.emit (Transfer.op_isPlain _)⟩
  | @listEnd _ _ kind _ _ hclears hpending =>
      have hemitted := haccounts.emit (Transfer.op_isPlain kind)
      exact ⟨_, (hemitted.clears hordered hclears).close hpending⟩
  | roundEnd hclears hpending | squareEnd hclears hpending =>
      exact ⟨_, (haccounts.clears hordered hclears).close hpending⟩
  | @condition _ _ _ _ skip hclears hpending =>
      have hpended : .branch skip ∈ c.pending :=
        hclears.mem (hpending ▸ List.mem_cons_self)
      have hskip : skip = none := by
        cases skip with
        | none => rfl
        | some skip => exact absurd hpended (hthen rfl skip)
      subst hskip
      have hcleared := haccounts.newLabel.clears hordered hclears
      exact ⟨_, .replaceTop (hcleared.jump _ rfl) hpending (by rfl)⟩
  | branchEnd hclears hpending =>
      have hcleared := (haccounts.clears hordered hclears).close hpending
      exact ⟨_, .place (hcleared.emit (by simp [Op.isPlain]))⟩
  | limit hclears hpending =>
      have hcleared := haccounts.newLimit.newLabel.clears hordered hclears
      exact ⟨_, .replaceTop ((hcleared.place).emit (by simp [Op.isPlain]))
        hpending (by rfl)⟩
  | test _ _ _ hexit hclears hpending =>
      have hcleared := haccounts.newLabel.clears hordered hclears
      exact ⟨_,
        .replaceTop (.jump (.emit hcleared (by simp [Op.isPlain])) _ rfl)
          hpending (by simp [Pending.due, hexit])⟩
  | lineEnd _ hclears => exact ⟨_, haccounts.clears hordered hclears⟩
  | @next _ _ _ _ _ parameter entry exit _ _ hexit hclears hpending =>
      have hcleared := (haccounts.clears hordered hclears).close hpending
      rw [List.nil_append, Pending.due, hexit] at hcleared
      have hset :
          ∀ op ∈ [Op.name parameter, .name parameter], op.isPlain = true := by
        simp [Op.isPlain]
      have hadd : ∀ op ∈ [Op.binary .add, .assign], op.isPlain = true := by
        simp [Op.isPlain]
      have hjump : Op.jump.isPlain = true := rfl
      have hcounted := ((hcleared.emit hset).emitNumber .one).emit hadd
      exact ⟨_, (hcounted.jump entry hjump).place⟩

theorem Takes.accounts (h : Takes before token c c')
    (haccounts : Accounts given front made [] c) (hordered : Ordered c.pending)
    (hthen : token.isKeyword "then" = true →
      ∀ skip, .branch (some skip) ∉ c.pending)
    (hgiven : ∀ l, token.lexeme? = some (.label l) → given l) :
    ∃ made, Accounts given front made [] c' := by
  cases h with
  | name x => exact ⟨_, haccounts.emit (by simp [Op.isPlain])⟩
  | number v => exact ⟨_, haccounts.emitNumber v⟩
  | label l => exact ⟨_, haccounts.emitGiven (hgiven l rfl)⟩
  | text index htext =>
      refine htext.accounts haccounts hordered fun he => hthen ?_
      subst he
      rfl

/-! ## One `then` to a line -/

/-- How often there is a `then` on the line that tokens end with. -/
def thens (tokens : List Token) : Nat :=
  tokens.foldl (fun n token =>
    if token.isLineBreak then 0
    else if token.isKeyword "then" then n + 1
    else n) 0

/-- No line has a second `then`. -/
def ThenOnce (tokens : List Token) : Prop :=
  ∀ read, read <+: tokens → thens read ≤ 1

instance (tokens : List Token) : Decidable (ThenOnce tokens) :=
  decidable_of_iff (∀ read ∈ tokens.inits, thens read ≤ 1) (by
    simp only [ThenOnce, List.mem_inits])

theorem thens_concat (read : List Token) (token : Token) :
    thens (read ++ [token]) =
      if token.isLineBreak then 0
      else if token.isKeyword "then" then thens read + 1
      else thens read := by
  rw [thens, List.foldl_append]
  rfl

/-- The end of a line has no `then`. -/
theorem ThenOnce.lineBreak {tokens : List Token} (h : ThenOnce tokens)
    (line : Nat) : ThenOnce (tokens ++ [.keyword lineBreak line]) := by
  intro read hread
  rcases List.prefix_concat_iff.mp hread with rfl | hread
  · rw [thens_concat]
    exact Nat.zero_le 1
  · exact h read hread

theorem Operates.ne_lineBreak (h : Operates text op) : text ≠ lineBreak := by
  rintro rfl
  rcases h with h | ⟨h, -⟩
  · cases h
  · exact absurd h (by decide)

/-- What keeps nothing is no `if` with its label. -/
theorem branch_mem_of_cons {skip : String} (h : .branch (some skip) ∈ q :: rest)
    (hq : q.due = []) : .branch (some skip) ∈ rest := by
  refine (List.mem_cons.mp h).resolve_left ?_
  rintro rfl
  cases hq

theorem branch_mem_of_close {skip : String}
    (h : .branch (some skip) ∈ c.close.pending) :
    .branch (some skip) ∈ c.pending :=
  List.mem_of_mem_tail (pending_close c ▸ h)

/-- What comes in place of a loop is no `if`. -/
theorem branch_mem_of_replaceTop {skip : String} {context : LoopContext}
    (h : .branch (some skip) ∈ (c.replaceTop (.loop context)).pending)
    (hpending : c.pending = q :: rest) : .branch (some skip) ∈ c.pending := by
  rw [pending_replaceTop hpending] at h
  rw [hpending]
  exact List.mem_cons_of_mem _ ((List.mem_cons.mp h).resolve_left nofun)

/-- An `if` whose label is made was pending before, and its line goes on, or it
has its `then` now. -/
theorem TakesText.branch_mem {skip : String}
    (h : TakesText before line text c c') (hordered : Ordered c.pending)
    (hmem : .branch (some skip) ∈ c'.pending) :
    .branch (some skip) ∈ c.pending ∧ text ≠ lineBreak ∨ text = "then" := by
  cases h with
  | mark | list | front | comma | goto => exact .inl ⟨hmem, by decide⟩
  | operator hop hclears =>
      exact .inl ⟨hclears.mem (branch_mem_of_cons hmem rfl), hop.ne_lineBreak⟩
  | parameter x hlast hpending =>
      exact .inl ⟨branch_mem_of_replaceTop (branch_mem_of_cons hmem rfl)
        hpending, by decide⟩
  | construct hq hconstruct hclears htop =>
      refine .inl
        ⟨hclears.mem (branch_mem_of_cons hmem (due_of_ofText? hq)), ?_⟩
      rintro rfl
      cases hq
  | round | square => exact .inl ⟨branch_mem_of_cons hmem rfl, by decide⟩
  | listEnd hclears _ | roundEnd hclears _ | squareEnd hclears _
  | next _ _ _ hclears _ =>
      exact .inl ⟨hclears.mem (branch_mem_of_close hmem), by decide⟩
  | condition hclears hpending => exact .inr rfl
  | limit hclears hpending =>
      have hbelow := branch_mem_of_replaceTop hmem hpending
      exact .inl ⟨hclears.mem hbelow, by decide⟩
  | branchEnd hclears hpending =>
      -- Only loops were below, so with its line the last `if` ends.
      have hloops := (hpending ▸ (hclears.ordered hordered).2).loops rfl
      rw [pending_close, pending_emitPlace, pending_emit, hpending] at hmem
      exact absurd (hloops _ hmem) nofun
  | lineEnd hbranch hclears => exact absurd (hclears.mem hmem) (hbranch _)
  | test hbranch _ _ _ hclears hpending =>
      have hbelow := branch_mem_of_replaceTop hmem hpending
      exact absurd (hclears.mem hbelow) (hbranch _)

/-- If an `if` has its label there has been a `then` on its line. -/
theorem Takes.thens_pos {read : List Token} (h : Takes read.getLast? token c c')
    (hordered : Ordered c.pending)
    (hread : ∀ skip, .branch (some skip) ∈ c.pending → 0 < thens read) :
    ∀ skip, .branch (some skip) ∈ c'.pending → 0 < thens (read ++ [token]) := by
  intro skip hmem
  rw [thens_concat]
  cases h with
  | name | number | label => exact hread skip hmem
  | text index htext =>
      rcases htext.branch_mem hordered hmem with ⟨hpended, hne⟩ | rfl
      · have hpos := hread skip hpended
        rw [if_neg (by
          simpa [Token.isLineBreak, Token.isKeyword, Token.keyword?] using hne)]
        split
        · exact Nat.succ_pos _
        · exact hpos
      · exact Nat.succ_pos _

/-! ## Composing -/

/-- Between two tokens of lines with one `then` each, all made labels are
accounted for. -/
structure Settles (front : List String) (read : List Token)
    (c : Composer) : Prop where
  ordered : Ordered c.pending
  thens_pos : ∀ skip, .branch (some skip) ∈ c.pending → 0 < thens read
  accounts : ∃ made, Accounts (NamesLabel read) front made [] c

theorem Settles.start (labels : List String) (store : Store) :
    Settles labels [] { labels, store } where
  ordered := ⟨nofun, .nil⟩
  thens_pos := nofun
  accounts := ⟨[], (List.append_nil labels).symm, .nil, nofun, .empty,
    fun _ => ⟨Nat.le_refl _, fun _ => rfl⟩⟩

theorem Settles.step {read : List Token} (h : Settles front read c)
    (htakes : Takes read.getLast? token c c')
    (honce : ThenOnce (read ++ [token])) :
    Settles front (read ++ [token]) c' := by
  obtain ⟨made, haccounts⟩ := h.accounts
  have hnamed : ∀ l, NamesLabel read l → NamesLabel (read ++ [token]) l :=
    fun l ⟨t, ht, hl⟩ => ⟨t, List.mem_append_left _ ht, hl⟩
  have hthen : token.isKeyword "then" = true →
      ∀ skip, .branch (some skip) ∉ c.pending := by
    intro hthen skip hmem
    have hpos := h.thens_pos skip hmem
    have hbreak : token.isLineBreak = false := by
      rw [Token.isLineBreak, Token.isKeyword, beq_iff_eq.mp hthen]
      rfl
    have hle := honce _ List.prefix_rfl
    rw [thens_concat, if_neg (by simp [hbreak]), if_pos hthen] at hle
    omega
  refine ⟨htakes.ordered h.ordered, htakes.thens_pos h.ordered h.thens_pos, ?_⟩
  exact htakes.accounts (haccounts.mono hnamed) h.ordered hthen
    fun l hl => ⟨token, List.mem_append_right _ List.mem_cons_self, hl⟩

/-- The labels behind those at the start are new, and each of them has a
place. -/
def Defines (given : String → Prop) (front : List String)
    (c : Composer) : Prop :=
  c.program.Tabled given ∧ ∃ made, c.labels = front ++ made ∧
    ∀ l ∈ made, l ∉ front ∧ 1 ≤ c.program.definitions.count l ∧
      (¬ given l → c.program.definitions.count l = 1)

theorem Defines.mono {given' : String → Prop} (h : Defines given front c)
    (hgiven : ∀ l, given l → given' l) : Defines given' front c := by
  obtain ⟨htabled, made, hlabels, hmade⟩ := h
  refine ⟨htabled.mono hgiven, made, hlabels, fun l hl => ?_⟩
  obtain ⟨hfresh, hsome, hone⟩ := hmade l hl
  exact ⟨hfresh, hsome, fun hl => hone (hl ∘ hgiven l)⟩

/-- At the end nothing is kept any more. -/
theorem Settles.defines {read : List Token} (h : Settles front read c)
    (hstack : c.stack = []) : Defines (NamesLabel read) front c := by
  obtain ⟨made, haccounts⟩ := h.accounts
  have hdue : c.due = [] := by
    rw [due, pending, hstack]
    rfl
  refine ⟨haccounts.tabled, made, haccounts.labels, fun l hl => ?_⟩
  have hcovers := haccounts.covers l
  rw [hdue, List.count_eq_one_of_mem haccounts.nodup hl] at hcovers
  exact ⟨haccounts.fresh l hl, hcovers.1, fun hnamed => (hcovers.2 hnamed).symm⟩

theorem composeBare_defines {tokens : List Token} {labels : List String}
    {store : Store} (honce : ThenOnce tokens)
    (h : composeBare tokens labels store = .ok c) :
    Defines (NamesLabel tokens) labels c := by
  obtain ⟨hstack, hread⟩ :=
    composeBare_induction (P := fun read c => ThenOnce read →
      Settles labels read c)
      (fun _ => .start labels store)
      (fun hread htakes honce =>
        (hread fun r hr => honce r (hr.trans (List.prefix_append _ _))).step
          htakes honce) h
  rcases hread with hread | ⟨line, hread⟩
  · exact (hread honce).defines hstack
  · refine ((hread (honce.lineBreak line)).defines hstack).mono ?_
    rintro l ⟨token, htoken, hl⟩
    refine ⟨token,
      (List.mem_append.mp htoken).resolve_right fun htoken => ?_, hl⟩
    rw [List.mem_singleton.mp htoken] at hl
    cases hl

/-- Where no line that is composed has two `then`s, each label that was made is
a new one and has a place, and only one unless a token names it too. So no run
of the code ends for want of the place of such a label. -/
theorem made_labels_defined {tokens composed : List Token}
    {labels : List String} {store : Store} (honce : ThenOnce composed)
    (h : composeBare tokens labels store = .ok c ∧ tokens = composed ∨
      compose tokens labels store = .ok c ∧ body? tokens = some composed) :
    ∃ made, c.labels = labels ++ made ∧ ∀ l ∈ made,
      l ∉ labels ∧ 1 ≤ c.program.definitions.count l ∧
      (¬ NamesLabel composed l → c.program.definitions.count l = 1) ∧
      ∀ limit budget s input room halt,
        Machine.run limit c.program budget (.start s input room) = some halt →
          halt.fault ≠ some (.undefinedLabel l) := by
  have hbare : composeBare composed labels store = .ok c := by
    rcases h with ⟨h, rfl⟩ | ⟨h, hbody⟩
    · exact h
    · rwa [compose, hbody] at h
  obtain ⟨htabled, made, hlabels, hmade⟩ := composeBare_defines honce hbare
  refine ⟨made, hlabels, fun l hl => ?_⟩
  obtain ⟨hfresh, hsome, hone⟩ := hmade l hl
  refine ⟨hfresh, hsome, hone, fun limit budget s input room halt hrun => ?_⟩
  exact Machine.run_fault_ne_of_definitions htabled
    (List.count_pos_iff.mp hsome) hrun

/-- A loop around an `if`. -/
def circling : List Token :=
  [.keyword "do" 1, .word (.identifier "i") 1 none, .keyword "=" 1,
    .word (.constant .one) 1 none, .keyword "to" 1,
    .word (.identifier "n") 1 none,
    .keyword lineBreak 1, .keyword "if" 2, .word (.identifier "a") 2 none,
    .keyword "then" 2, .keyword "goto" 2, .word (.label "m") 2 none,
    .keyword lineBreak 2, .keyword "next" 3, .keyword lineBreak 3,
    .word (.label "m") 4 none, .keyword ":" 4]

theorem circling_defined : ∃ c, composeBare circling [] .empty = .ok c ∧
    c.labels = ["_m1", "_m2", "_m3"] ∧
    ∀ l ∈ c.labels, c.program.definitions.count l = 1 := by
  obtain ⟨c, hc⟩ : ∃ c, composeBare circling [] .empty = .ok c :=
    exists_ok (by decide +kernel)
  have hthree : (composeBare circling [] .empty).toOption.map (·.labels) =
      some ["_m1", "_m2", "_m3"] := by decide +kernel
  rw [hc, Except.toOption, Option.map_some, Option.some.injEq] at hthree
  obtain ⟨made, hlabels, hdefined⟩ :=
    made_labels_defined (by decide +kernel) (.inl ⟨hc, rfl⟩)
  rw [List.nil_append] at hlabels
  have hnames : ∀ l ∈ ["_m1", "_m2", "_m3"], ∀ token ∈ circling,
      token.lexeme? ≠ some (.label l) := by decide +kernel
  refine ⟨c, hc, hthree, fun l hl => (hdefined l (hlabels ▸ hl)).2.2.1 ?_⟩
  rintro ⟨token, htoken, hnamed⟩
  exact hnames l (hthree ▸ hl) token htoken hnamed

/-- An `if` with two conditions. -/
def doubled : List Token :=
  [.keyword "if" 1, .word (.identifier "a") 1 none, .keyword "then" 1,
    .word (.identifier "a") 1 none, .keyword "then" 1, .keyword "goto" 1,
    .word (.label "m") 1 none]

/-- A place whose label is one that is made, since it is not among those in
use. -/
def reserved : List Token :=
  [.word (.label "_m1") 1 none, .keyword ":" 1, .keyword "if" 1,
    .word (.identifier "a") 1 none, .keyword "then" 1, .keyword "goto" 1,
    .word (.label "_m1") 1 none]

/-- The first label of `doubled` has no place, and the code jumps to it. The one
of `reserved` has two. -/
theorem doubled_undefined :
    (∃ c, composeBare doubled [] .empty = .ok c ∧ "_m1" ∈ c.labels ∧
      "_m1" ∉ c.program.definitions ∧
      ∃ halt, Machine.run none c.program 9
        (.start (Store.empty.set "a" .zero) [] none) =
          some halt ∧ halt.fault = some (.undefinedLabel "_m1")) ∧
    ∃ c, composeBare reserved [] .empty = .ok c ∧ "_m1" ∈ c.labels ∧
      c.program.definitions.count "_m1" = 2 := by
  constructor
  · obtain ⟨c, hc⟩ : ∃ c, composeBare doubled [] .empty = .ok c :=
      exists_ok (by decide +kernel)
    have hfails : (composeBare doubled [] .empty).toOption.any (fun c =>
        decide ("_m1" ∈ c.labels ∧ "_m1" ∉ c.program.definitions) &&
          (Machine.run none c.program 9
            (.start (Store.empty.set "a" .zero) [] none)).any fun halt =>
              decide (halt.fault = some (.undefinedLabel "_m1"))) = true := by
      decide +kernel
    rw [hc, Except.toOption, Option.any_some, Bool.and_eq_true] at hfails
    obtain ⟨halt, hrun, hfault⟩ := (Option.any_eq_true ..).mp hfails.2
    obtain ⟨hmade, hnowhere⟩ := of_decide_eq_true hfails.1
    exact ⟨c, hc, hmade, hnowhere, halt, hrun, of_decide_eq_true hfault⟩
  · obtain ⟨c, hc⟩ : ∃ c, composeBare reserved [] .empty = .ok c :=
      exists_ok (by decide +kernel)
    have htwice : (composeBare reserved [] .empty).toOption.any (fun c =>
        decide ("_m1" ∈ c.labels ∧
          c.program.definitions.count "_m1" = 2)) = true := by
      decide +kernel
    rw [hc, Except.toOption, Option.any_some] at htwice
    exact ⟨c, hc, of_decide_eq_true htwice⟩

end Composer

end Reckon
