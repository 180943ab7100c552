import Reckon.Proofs.Compile.Fresh
import Reckon.Proofs.Compile.Taking

/-!
# Names made while composing

A composer makes names for three things: a label at the `then` of an `if`, a
variable and a label at the `to` of a loop, and a label where the line of that
`to` ends. It does so whether or not the token can be taken, so what is made for
tokens (`Composer.allots`) is known also where composing fails, and nothing else
is done to the labels and variables (`Composer.stock_feed`).

The code has no other names. What it names is given by the tokens, or comes out
of what is pending, and what is pending keeps names of the tokens and made ones
(`Composer.Speaks`).
-/

namespace Reckon

variable {text l x : String} {line : Nat} {before : Option Token}
  {token : Token} {tokens : List Token}

/-! ## What is made for a token -/

/-- The labels and variables there are when composing ends, with a result or
with a failure. -/
def Composer.stockAfter : Composer.Result Composer → Stock
  | .ok c => c.stock
  | .error failure => ⟨failure.labels, failure.store⟩

/-- The line that such a loop is in ends its limit. -/
def LoopContext.awaitsBody (context : LoopContext) : Bool :=
  context.parameter.isSome && context.limit.isSome && context.exit.isNone

namespace Composer

/-- What a text makes names for. -/
def textAllots (c : Composer) (text : String) : List Purpose :=
  if text = "then" then
    if (Frame.innermostBranch? c.stack).isSome then [.label] else []
  else if text = "to" then
    if (Frame.innermostLoop? c.stack).isSome then [.limit, .label] else []
  else if text = lineBreak then
    if (Frame.innermostBranch? c.stack).isNone ∧
        (Frame.innermostLoop? c.stack).any LoopContext.awaitsBody
    then [.label] else []
  else []

/-- What a token makes names for. -/
def tokenAllots (c : Composer) (token : Token) : List Purpose :=
  (token.keyword?.map c.textAllots).getD []

/-- What tokens make names for, one after the other, and the line break that is
added to them if they do not end with one. -/
def allots (c : Composer) (before : Option Token) : List Token → List Purpose
  | [] => if before.all Token.isLineBreak then [] else c.textAllots lineBreak
  | token :: rest =>
    c.tokenAllots token ++
      match c.feed before token with
      | .ok c => c.allots (some token) rest
      | .error _ => []

variable {c c' : Composer} {context : LoopContext} {result : Result Composer}

/-! Waiting operators are put out, and nothing is done to the names. -/

theorem stockAfter_bind {next : Composer → Result Composer}
    (hnext : ∀ c, stockAfter (next c) = c.stock) :
    stockAfter (result >>= next) = stockAfter result := by
  cases result with
  | error failure => rfl
  | ok c => exact hnext c

theorem stock_replaceTop (c : Composer) (q : Pending) :
    (c.replaceTop q).stock = c.stock := by
  unfold replaceTop
  split <;> rfl

theorem stock_unwind (c : Composer) (stays : Pending → Bool) (line : Nat) :
    stockAfter (c.unwind stays line) = c.stock := by
  unfold unwind
  split <;> rfl

theorem stock_unwindTo (c : Composer) (target : Pending → Bool) (text : String)
    (line : Nat) : stockAfter (c.unwindTo target text line) = c.stock := by
  refine Eq.trans (stockAfter_bind fun c' => ?_) (c.stock_unwind target line)
  split <;> rfl

theorem stock_unwindTo_bind {target : Pending → Bool}
    {next : Composer → Result Composer}
    (hnext : ∀ c, stockAfter (next c) = c.stock) :
    stockAfter (c.unwindTo target text line >>= next) = c.stock :=
  (stockAfter_bind hnext).trans (c.stock_unwindTo target text line)

/-! The constructs make the names. -/

theorem stock_openBranch (c : Composer) (line : Nat) :
    stockAfter (c.openBranch line) = (c.stock.makeAll [.label]).2 :=
  stock_unwindTo_bind (c := c.newLabel.2) fun _ => stock_replaceTop _ _

theorem stock_openLimit (c : Composer) (context : LoopContext) (line : Nat) :
    stockAfter (c.openLimit context line) =
      (c.stock.makeAll [.limit, .label]).2 :=
  stock_unwindTo_bind (c := c.newLimit.2.newLabel.2) fun _ =>
    stock_replaceTop _ _

theorem stock_openBody (hexit : context.exit.isNone = true) :
    stockAfter (c.openBody context line) =
      (c.stock.makeAll (if context.awaitsBody then [.label] else [])).2 := by
  unfold openBody LoopContext.awaitsBody
  split
  · next hparameter hlimit =>
      rw [hparameter, hlimit, hexit]
      exact stock_unwindTo_bind (c := c.newLabel.2) fun _ =>
        stock_replaceTop _ _
  · next hnone =>
      rw [if_neg]
      · rfl
      · cases hparameter : context.parameter with
        | none => nofun
        | some parameter =>
            cases hlimit : context.limit with
            | none => nofun
            | some limit => exact absurd hlimit (hnone _ _ hparameter)

theorem stock_closeBranch (c : Composer) (skip : Option String) (line : Nat) :
    stockAfter (c.closeBranch skip line) = c.stock := by
  unfold closeBranch
  split
  · rfl
  · exact stock_unwindTo_bind fun _ => rfl

theorem stock_setParameter (c : Composer) (context : LoopContext) (line : Nat) :
    stockAfter (c.setParameter context line) = c.stock := by
  unfold setParameter
  split
  · exact stock_replaceTop c _
  · rfl

theorem stock_closeLoop (c : Composer) (context : LoopContext) (line : Nat) :
    stockAfter (c.closeLoop context line) = c.stock := by
  unfold closeLoop
  split
  · exact stock_unwindTo_bind fun _ => rfl
  · rfl

theorem stock_closeBracket (c : Composer) (round : Bool) (line : Nat) :
    stockAfter (c.closeBracket round line) = c.stock := by
  unfold closeBracket
  split
  · exact stock_unwindTo_bind fun _ => rfl
  · dsimp only
    split
    · next hunwind =>
        exact (congrArg stockAfter hunwind).symm.trans (c.stock_unwindTo _ _ _)
    · rfl

theorem stock_branchText? (h : c.branchText? text line = some result) :
    stockAfter result = (c.stock.makeAll (c.textAllots text)).2 := by
  unfold branchText? at h
  split at h
  · cases h
  next skip hskip =>
  split at h
  · next htext =>
      cases h
      rw [textAllots, if_pos htext, hskip]
      exact c.stock_openBranch line
  split at h
  · next htext =>
      cases h
      subst htext
      rfl
  split at h
  · next htext =>
      cases h
      subst htext
      rw [textAllots, hskip]
      exact c.stock_closeBranch skip line
  · cases h

theorem stock_loopText?
    (hbranch : Frame.innermostBranch? c.stack = none ∨ text ≠ lineBreak)
    (h : c.loopText? text line = some result) :
    stockAfter result = (c.stock.makeAll (c.textAllots text)).2 := by
  unfold loopText? at h
  split at h
  · cases h
  next context hloop =>
  split at h
  · next htext =>
      cases h
      subst htext
      rw [textAllots, hloop]
      exact c.stock_openLimit context line
  split at h
  · next htext =>
      subst htext
      rw [textAllots, hloop, hbranch.resolve_right fun hne => hne rfl]
      split at h
      · next hexit =>
          cases h
          exact (stock_openBody hexit).trans (by simp [lineBreak])
      · next hexit =>
          cases h
          have hbody : context.awaitsBody = false := by
            simp [LoopContext.awaitsBody, hexit]
          rw [Option.any_some, hbody]
          exact c.stock_unwindTo _ _ line
  split at h
  · next htext =>
      cases h
      subst htext
      exact c.stock_closeLoop context line
  · cases h

/-- A text that concerns no construct makes no names. -/
theorem textAllots_eq_nil (hbranch : c.branchText? text line = none)
    (hloop : c.loopText? text line = none) : c.textAllots text = [] := by
  unfold textAllots
  unfold branchText? at hbranch
  unfold loopText? at hloop
  split
  · next htext =>
      split at hbranch
      · next hnone => rw [hnone]; rfl
      · rw [if_pos htext] at hbranch
        cases hbranch
  split
  · next htext =>
      split at hloop
      · next hnone => rw [hnone]; rfl
      · rw [if_pos htext] at hloop
        cases hloop
  split
  · next hthen hto htext =>
      split at hloop
      · next hnone => simp [hnone]
      · rw [if_neg hto, if_pos htext] at hloop
        split at hloop <;> cases hloop
  · rfl

theorem stock_transferText? (h : c.transferText? before text = some result) :
    stockAfter result = c.stock := by
  unfold transferText? at h
  split at h
  · cases h
  split at h
  · split at h <;> cases h <;> rfl
  · split at h <;> cases h
    rfl

theorem stock_plainText (c : Composer) (text : String) (token : Token) :
    stockAfter (c.plainText text token) = c.stock := by
  unfold plainText
  split
  · exact c.stock_unwind _ _
  split
  · rfl
  split
  · rfl
  unfold operatorText
  split
  · rfl
  · exact (stockAfter_bind fun _ => rfl).trans (c.stock_unwind _ _)

theorem stock_keyword (c : Composer) (before : Option Token) (text : String)
    (token : Token) : stockAfter (c.keyword before text token) =
      (c.stock.makeAll (c.textAllots text)).2 := by
  unfold keyword
  dsimp only
  split
  · next htext =>
      rw [htext.1]
      rfl
  split
  · next htext =>
      subst htext
      rfl
  split
  · next htext =>
      subst htext
      exact c.stock_closeBracket true _
  split
  · next htext =>
      subst htext
      exact c.stock_closeBracket false _
  split
  · next hbranch => exact stock_branchText? hbranch
  next hbranch =>
  split
  · next hloop =>
      exact stock_loopText? (innermostBranch?_of_branchText? hbranch) hloop
  next hloop =>
  rw [textAllots_eq_nil hbranch hloop]
  split
  · refine (stockAfter_bind fun c' => ?_).trans (c.stock_setParameter _ _)
    split
    · next htransfer => exact stock_transferText? htransfer
    · exact c'.stock_plainText _ _
  · refine stockAfter_bind fun c' => ?_
    split
    · next htransfer => exact stock_transferText? htransfer
    · exact c'.stock_plainText _ _

/-- A token makes the names that are told for it, whether or not it is taken. -/
theorem stock_feed (c : Composer) (before : Option Token) (token : Token) :
    stockAfter (c.feed before token) =
      (c.stock.makeAll (c.tokenAllots token)).2 := by
  unfold feed
  split
  case h_4 =>
    split
    · next htext =>
        subst htext
        rfl
    · exact c.stock_keyword _ _ _
  all_goals rfl

theorem stock_endLine (c : Composer) (last : Option Token) :
    stockAfter (c.endLine last) = (c.stock.makeAll (c.allots last [])).2 := by
  cases last with
  | none => rfl
  | some token =>
      unfold endLine allots
      dsimp only [Option.all_some]
      split
      · rfl
      · exact c.stock_feed _ _

theorem stock_finish (c : Composer) : stockAfter c.finish = c.stock := by
  unfold finish
  split <;> rfl

theorem stock_feedAll (c : Composer) (before : Option Token)
    (tokens : List Token) :
    stockAfter (c.feedAll before tokens >>= fun c' =>
      c'.endLine (tokens.getLast?.or before) >>= finish) =
        (c.stock.makeAll (c.allots before tokens)).2 := by
  induction tokens generalizing c before with
  | nil => exact (stockAfter_bind stock_finish).trans (c.stock_endLine before)
  | cons token rest ih =>
      have hlast : (token :: rest).getLast?.or before =
          rest.getLast?.or (some token) := by
        cases rest <;> simp [List.getLast?_cons]
      have hstock := c.stock_feed before token
      rw [allots, Stock.makeAll_append, ← hstock, hlast, feedAll]
      cases c.feed before token with
      | error failure => rfl
      | ok c' => exact ih c' (some token)

/-- Whatever the tokens are, there are the names of the start in the end and
those that the tokens make. -/
theorem stock_composeBare (tokens : List Token) (labels : List String)
    (store : Store) : stockAfter (composeBare tokens labels store) =
      (Stock.makeAll ⟨labels, store⟩
        (allots { labels, store } none tokens)).2 := by
  have hall := stock_feedAll { labels, store } none tokens
  rwa [Option.or_none] at hall

/-! ## Names in the code -/

end Composer

/-- The names that are kept for what is pending have some properties. -/
def Pending.Speaks (label name : String → Prop) : Pending → Prop
  | operator op => ∀ x, op = .name x → name x
  | branch skip => ∀ l ∈ skip, label l
  | loop context =>
      (∀ x ∈ context.parameter, name x) ∧ (∀ x ∈ context.limit, name x) ∧
        (∀ l ∈ context.entry, label l) ∧ ∀ l ∈ context.exit, label l
  | _ => True

theorem Program.mem_labels_pushLabel {p : Program}
    (h : l ∈ (p.pushLabel x).labels) : l ∈ p.labels ∨ l = x := by
  obtain ⟨slot, hslot⟩ := List.mem_iff_getElem?.mp h
  rcases Pool.getElem?_intern_cases hslot with hold | ⟨-, rfl⟩
  · exact .inl (List.mem_of_getElem? hold)
  · exact .inr rfl

namespace Composer

variable {c c' : Composer} {label name : String → Prop} {q : Pending}
  {ops : List Op} {op : Op}

/-- The labels and variables in the code have some properties, and so have those
that will come out of what is pending. -/
structure Speaks (label name : String → Prop) (c : Composer) : Prop where
  labels : ∀ l ∈ c.program.labels, label l
  names : ∀ x, .name x ∈ c.program.ops → name x
  pending : ∀ q ∈ c.pending, q.Speaks label name

theorem Operates.speaks (h : Operates text op) :
    (Pending.operator op).Speaks label name := by
  rintro x rfl
  rcases h with h | ⟨-, h⟩
  · unfold Op.ofOperator? at h
    split at h <;> cases h
  · cases h

theorem speaks_of_ofText? (h : Pending.ofText? text = some q) :
    q.Speaks label name := by
  unfold Pending.ofText? at h
  split at h
  case h_1 => cases h; exact nofun
  case h_2 => cases h; exact ⟨nofun, nofun, nofun, nofun⟩
  case h_3 | h_4 => cases h; trivial
  case h_5 =>
    obtain ⟨op, hop, rfl⟩ := Option.map_eq_some_iff.mp h
    exact Operates.speaks (.inl hop)

namespace Speaks

variable (h : c.Speaks label name)
include h

theorem mono {label' name' : String → Prop} (hlabel : ∀ l, label l → label' l)
    (hname : ∀ x, name x → name' x) : c.Speaks label' name' where
  labels l hl := hlabel l (h.labels l hl)
  names x hx := hname x (h.names x hx)
  pending q hq := by
    have hspeaks := h.pending q hq
    cases q with
    | operator op => exact fun x hx => hname x (hspeaks x hx)
    | branch skip => exact fun l hl => hlabel l (hspeaks l hl)
    | loop context =>
        obtain ⟨hparameter, hlimit, hentry, hexit⟩ := hspeaks
        exact ⟨fun x hx => hname x (hparameter x hx),
          fun x hx => hname x (hlimit x hx), fun l hl => hlabel l (hentry l hl),
          fun l hl => hlabel l (hexit l hl)⟩
    | _ => trivial

theorem emit (ops : List Op) (hops : ∀ x, .name x ∈ ops → name x) :
    (c.emit ops).Speaks label name :=
  { h with
    names := fun x hx => (List.mem_append.mp hx).elim (h.names x) (hops x) }

theorem emitName (hx : name x) :
    Speaks label name { c with program := c.program.pushName x } := by
  refine h.emit [.name x] fun y hy => ?_
  cases List.mem_singleton.mp hy
  exact hx

theorem emitLabel (hl : label l) : (c.emitLabel l).Speaks label name where
  labels l' hl' :=
    (Program.mem_labels_pushLabel hl').elim (h.labels l') fun he => he ▸ hl
  names x hx := (List.mem_append.mp hx).elim (h.names x) (by simp)
  pending := h.pending

theorem emitPlace (hl : label l) : (c.emitPlace l).Speaks label name :=
  (h.emitLabel hl).emit [.mark] (by simp)

theorem emitNumber (v : Single) : (c.emitNumber v).Speaks label name :=
  { h with
    names := fun x hx => (List.mem_append.mp hx).elim (h.names x) (by simp) }

theorem await (hq : q.Speaks label name) :
    (c.await q line).Speaks label name :=
  { h with pending := List.forall_mem_cons.mpr ⟨hq, h.pending⟩ }

theorem close : c.close.Speaks label name where
  labels := h.labels
  names := h.names
  pending := by
    rw [pending_close]
    exact fun q hq => h.pending q (List.mem_of_mem_tail hq)

theorem replaceTop (hq : q.Speaks label name) :
    (c.replaceTop q).Speaks label name := by
  unfold Composer.replaceTop
  split
  · exact h
  · next f rest hstack =>
      have hrest : ∀ r ∈ rest.map Frame.pending, r.Speaks label name :=
        fun r hr => h.pending r (by
          rw [Composer.pending, hstack]
          exact List.mem_cons_of_mem _ hr)
      exact { h with pending := List.forall_mem_cons.mpr ⟨hq, hrest⟩ }

theorem top {rest : List Pending} (hpending : c.pending = q :: rest) :
    q.Speaks label name :=
  h.pending q (hpending ▸ List.mem_cons_self)

/-- Operators that were pending name nothing else. -/
theorem clears (hclears : Clears ops c c') : c'.Speaks label name := by
  have hops : ∀ x, .name x ∈ ops → name x := by
    intro x hx
    have hpended : Pending.operator (.name x) ∈ c.pending :=
      hclears.pending ▸ List.mem_append_left _ (List.mem_map_of_mem hx)
    exact h.pending _ hpended x rfl
  have hput := h.emit ops hops
  refine ⟨?_, ?_, fun q hq => h.pending q (hclears.mem hq)⟩
  · rw [hclears.program]
    exact hput.labels
  · rw [hclears.program]
    exact hput.names

theorem newLabel : c.newLabel.2.Speaks label name := { h with }

theorem newLimit : c.newLimit.2.Speaks label name := { h with }

end Speaks

theorem labels_replaceTop (c : Composer) (q : Pending) :
    (c.replaceTop q).labels = c.labels :=
  congrArg Stock.labels (c.stock_replaceTop q)

theorem store_replaceTop (c : Composer) (q : Pending) :
    (c.replaceTop q).store = c.store :=
  congrArg Stock.store (c.stock_replaceTop q)

theorem Clears.newLabel_mem {c₁ : Composer} (h : Clears ops c.newLabel.2 c₁) :
    c.newLabel.1 ∈ c₁.labels := by
  rw [h.labels]
  exact List.mem_append_right _ List.mem_cons_self

/-- A name in what comes of a text was in the code, or pending, or is made
now. -/
theorem TakesText.speaks (htakes : TakesText before line text c c')
    (h : c.Speaks label name)
    (hlabel : c.newLabel.1 ∈ c'.labels → label c.newLabel.1)
    (hlimit : text = "to" → c'.store.contains c.newLimit.1 = true →
      name c.newLimit.1) : c'.Speaks label name := by
  cases htakes with
  | mark => exact h.emit _ (by simp)
  | operator hop hclears => exact (h.clears hclears).await hop.speaks
  | @parameter _ context _ x hlast hpending =>
      have hx := h.names x (List.mem_of_getLast? hlast)
      have hloop : (Pending.loop { context with parameter := some x }).Speaks
          label name :=
        ⟨fun y hy => Option.some.inj hy ▸ hx, (h.top hpending).2⟩
      exact (h.replaceTop hloop).await nofun
  | construct hq _ hclears _ =>
      exact (h.clears hclears).await (speaks_of_ofText? hq)
  | round | square => exact h.await trivial
  | list | front | goto => exact h
  | comma _ kind => exact h.emit _ (by cases kind <;> simp [Transfer.op])
  | @listEnd _ _ kind _ _ hclears _ =>
      have hput := h.emit [kind.op] (by cases kind <;> simp [Transfer.op])
      exact (hput.clears hclears).close
  | roundEnd hclears _ | squareEnd hclears _ => exact (h.clears hclears).close
  | condition hclears _ =>
      rw [labels_replaceTop] at hlabel
      have hskip := hlabel hclears.newLabel_mem
      have hput := (h.newLabel.clears hclears).emitLabel hskip
      exact (hput.emit _ (by simp)).replaceTop fun l hl =>
        Option.some.inj hl ▸ hskip
  | @branchEnd _ _ _ _ skip hclears hpending =>
      have hcleared := h.clears hclears
      have hskip : label skip := hcleared.top hpending skip rfl
      exact ((hcleared.emit _ (by simp)).emitPlace hskip).close
  | @limit _ c₁ _ _ _ hclears hpending =>
      rw [labels_replaceTop] at hlabel
      rw [store_replaceTop] at hlimit
      have hentry := hlabel hclears.newLabel_mem
      have hstore : c₁.store = c.store.set c.newLimit.1 .zero := hclears.store
      have hset : c₁.store.contains c.newLimit.1 = true := by
        simp [hstore, Store.contains]
      have hname := hlimit rfl hset
      have hcleared := h.newLimit.newLabel.clears hclears
      obtain ⟨hparameter, -, -, hexit⟩ := hcleared.top hpending
      refine ((hcleared.emitPlace hentry).emitName hname).replaceTop
        ⟨hparameter, fun x hx => ?_, fun l hl => ?_, hexit⟩
      · exact Option.some.inj hx ▸ hname
      · exact Option.some.inj hl ▸ hentry
  | @test _ _ _ _ _ parameter limit _ hparameter hlast _ hclears hpending =>
      rw [labels_replaceTop] at hlabel
      have hexit := hlabel hclears.newLabel_mem
      have hcleared := h.newLabel.clears hclears
      obtain ⟨hp, hl, hentry, -⟩ := hcleared.top hpending
      have htest : ∀ x, .name x ∈ [Op.assign, .name parameter, .name limit,
          .binary .le] → name x := by
        intro x hx
        simp only [List.mem_cons, reduceCtorEq, Op.name.injEq, List.not_mem_nil,
          or_false, false_or] at hx
        rcases hx with rfl | rfl
        · exact hp x hparameter
        · exact hl x hlast
      have hput := ((hcleared.emit _ htest).emitLabel hexit).emit
        [.jumpIfFalse] (by simp)
      exact hput.replaceTop ⟨hp, hl, hentry, fun l hl =>
        Option.some.inj hl ▸ hexit⟩
  | lineEnd _ hclears => exact h.clears hclears
  | @next _ _ _ _ _ parameter entry exit hparameter hentry hexit hclears
      hpending =>
      have hcleared := h.clears hclears
      obtain ⟨hp, -, he, hx⟩ := hcleared.top hpending
      have hset : ∀ x, .name x ∈ [Op.name parameter, .name parameter] →
          name x := by
        intro x hx
        simp only [List.mem_cons, Op.name.injEq, List.not_mem_nil, or_false,
          or_self] at hx
        exact hx ▸ hp parameter hparameter
      have hcount := ((hcleared.emit _ hset).emitNumber .one).emit
        [.binary .add, .assign] (by simp)
      have hjump := (hcount.emitLabel (he entry hentry)).emit [.jump] (by simp)
      exact (hjump.emitPlace (hx exit hexit)).close

theorem Takes.speaks (htakes : Takes before token c c')
    (h : c.Speaks label name)
    (hlabels : ∀ l, token.lexeme? = some (.label l) → label l)
    (hnames : ∀ x, token.lexeme? = some (.identifier x) → name x)
    (hlabel : c.newLabel.1 ∈ c'.labels → label c.newLabel.1)
    (hlimit : token.isKeyword "to" = true →
      c'.store.contains c.newLimit.1 = true → name c.newLimit.1) :
    c'.Speaks label name := by
  cases htakes with
  | name x => exact h.emitName (hnames x rfl)
  | number v => exact h.emitNumber v
  | label l => exact h.emitLabel (hlabels l rfl)
  | text index htext =>
      refine htext.speaks h hlabel fun hto => ?_
      subst hto
      exact hlimit rfl

/-! ## Names that are kept -/

/-- A text makes a label or none, and a variable only for a `to`. -/
theorem TakesText.stock (htakes : TakesText before line text c c') :
    (c'.labels = c.labels ∨ c'.labels = c.newLabel.2.labels) ∧
      (c'.store = c.store ∨ text = "to" ∧ c'.store = c.newLimit.2.store) := by
  cases htakes with
  | mark | round | square | list | front | comma | goto =>
      exact ⟨.inl rfl, .inl rfl⟩
  | parameter =>
      exact ⟨.inl (labels_replaceTop c _), .inl (store_replaceTop c _)⟩
  | operator _ hclears | construct _ _ hclears _ | lineEnd _ hclears
  | listEnd hclears _ | roundEnd hclears _ | squareEnd hclears _
  | branchEnd hclears _ | next _ _ _ hclears _ =>
      exact ⟨.inl hclears.labels, .inl hclears.store⟩
  | condition hclears _ | test _ _ _ _ hclears _ =>
      rw [labels_replaceTop, store_replaceTop]
      exact ⟨.inr hclears.labels, .inl hclears.store⟩
  | limit hclears _ =>
      rw [labels_replaceTop, store_replaceTop]
      exact ⟨.inr hclears.labels, .inr ⟨rfl, hclears.store⟩⟩

theorem Takes.stock (htakes : Takes before token c c') :
    (c'.labels = c.labels ∨ c'.labels = c.newLabel.2.labels) ∧
      (c'.store = c.store ∨
        token.isKeyword "to" = true ∧ c'.store = c.newLimit.2.store) := by
  cases htakes with
  | name | number | label => exact ⟨.inl rfl, .inl rfl⟩
  | text index htext =>
      obtain ⟨hlabels, hstore⟩ := htext.stock
      refine ⟨hlabels, hstore.imp_right fun ⟨hto, hmade⟩ => ⟨?_, hmade⟩⟩
      subst hto
      rfl

/-- Names that there are stay there. -/
theorem Takes.has {p : Purpose} (htakes : Takes before token c c')
    (h : c.stock.has p x = true) : c'.stock.has p x = true := by
  have hmake : (c.stock.make p).2.has p x = true := Stock.has_make.mpr (.inl h)
  obtain ⟨hlabels, hstore⟩ := htakes.stock
  cases p with
  | label =>
      rcases hlabels with hlabels | hlabels
      · exact (congrArg (·.contains x) hlabels).trans h
      · exact (congrArg (·.contains x) hlabels).trans hmake
  | limit =>
      rcases hstore with hstore | ⟨-, hstore⟩
      · exact (congrArg (·.contains x) hstore).trans h
      · exact (congrArg (·.contains x) hstore).trans hmake

end Composer

/-- How a token gives a name for a purpose. -/
def Purpose.lexeme : Purpose → String → Lexeme
  | label => .label
  | limit => .identifier

namespace Composer

variable {k : Stock} {p : Purpose} {read : List Token}

/-- A name that is given by tokens that were read, or made since a stock was
there. -/
def Introduced (k : Stock) (read : List Token) (c : Composer) (p : Purpose)
    (x : String) : Prop :=
  p.lexeme x ∈ read.filterMap Token.lexeme? ∨
    c.stock.has p x = true ∧ k.has p x = false

/-- Since a stock was there nothing was dropped from it, and all names in the
code have been introduced. -/
structure Introduces (k : Stock) (read : List Token) (c : Composer) : Prop where
  kept : ∀ p x, k.has p x = true → c.stock.has p x = true
  speaks : c.Speaks (Introduced k read c .label) (Introduced k read c .limit)

theorem Introduces.start (k : Stock) : Introduces k [] k.composer where
  kept _ _ h := h
  speaks := ⟨nofun, nofun, nofun⟩

theorem Introduces.step (h : Introduces k read c)
    (htakes : Takes before token c c') : Introduces k (read ++ [token]) c' := by
  have hgiven : ∀ p x, token.lexeme? = some (p.lexeme x) →
      Introduced k (read ++ [token]) c' p x := by
    intro p x hx
    refine .inl ?_
    rw [List.filterMap_append]
    refine List.mem_append_right _ ?_
    exact List.mem_filterMap.mpr ⟨token, List.mem_cons_self, hx⟩
  have hold : ∀ p x, Introduced k read c p x →
      Introduced k (read ++ [token]) c' p x := by
    rintro p x (hx | ⟨hx, hnew⟩)
    · refine .inl ?_
      rw [List.filterMap_append]
      exact List.mem_append_left _ hx
    · exact .inr ⟨htakes.has hx, hnew⟩
  have hmade : ∀ p, c'.stock.has p (c.make p).1 = true →
      Introduced k (read ++ [token]) c' p (c.make p).1 := by
    intro p hthere
    refine .inr ⟨hthere, Bool.eq_false_iff.mpr fun htaken => ?_⟩
    have hfree : c.stock.has p (c.make p).1 = false := by
      cases p
      · exact c.stock.has_number .label
      · exact c.stock.has_number .limit
    exact Bool.eq_false_iff.mp hfree (h.kept p _ htaken)
  refine ⟨fun p x hx => htakes.has (h.kept p x hx), ?_⟩
  refine htakes.speaks (h.speaks.mono (hold .label) (hold .limit))
    (hgiven .label) (hgiven .limit) ?_ fun _ => hmade .limit
  exact fun hthere => hmade .label (List.contains_iff_mem.mpr hthere)

/-- The labels and variables in the code of some tokens are given by the tokens
or were made. -/
theorem introduces_of_composeBare {labels : List String} {store : Store}
    (h : composeBare tokens labels store = .ok c) :
    Introduces ⟨labels, store⟩ tokens c := by
  obtain ⟨-, hread⟩ := composeBare_induction
    (P := fun read c => Introduces ⟨labels, store⟩ read c)
    (Introduces.start ⟨labels, store⟩) Introduces.step h
  rcases hread with hread | ⟨line, hread⟩
  · exact hread
  · refine ⟨hread.kept, hread.speaks.mono ?_ ?_⟩
    all_goals
      rintro x (hx | hx)
      · refine .inl ?_
        simpa [Purpose.lexeme, Token.keyword, Token.lexeme?] using hx
      · exact .inr hx

/-- What composing some tokens gives has the names of a stock and those that are
made for the tokens, and no names are in its code but these and those that the
tokens give. -/
structure Allocates (k : Stock) (tokens : List Token)
    (result : Result Composer) : Prop where
  stock : stockAfter result = (k.makeAll (k.composer.allots none tokens)).2
  labels : ∀ c, result = .ok c → ∀ l ∈ c.program.labels,
    .label l ∈ tokens.filterMap Token.lexeme? ∨
      k.Made (k.composer.allots none tokens) .label l
  names : ∀ c, result = .ok c → ∀ x, .name x ∈ c.program.ops →
    .identifier x ∈ tokens.filterMap Token.lexeme? ∨
      k.Made (k.composer.allots none tokens) .limit x

theorem Introduced.made {purposes : List Purpose}
    (h : Introduced k tokens c p x)
    (hstock : c.stock = (k.makeAll purposes).2) :
    p.lexeme x ∈ tokens.filterMap Token.lexeme? ∨ k.Made purposes p x := by
  refine h.imp_right fun ⟨hthere, hnew⟩ => ?_
  rw [hstock, Stock.has_makeAll] at hthere
  exact hthere.resolve_left (Bool.eq_false_iff.mp hnew)

theorem allocates_composeBare (tokens : List Token) (labels : List String)
    (store : Store) :
    Allocates ⟨labels, store⟩ tokens (composeBare tokens labels store) := by
  have hstock := stock_composeBare tokens labels store
  refine ⟨hstock, fun c hc l hl => ?_, fun c hc x hx => ?_⟩
  · rw [hc] at hstock
    exact ((introduces_of_composeBare hc).speaks.labels l hl).made hstock
  · rw [hc] at hstock
    exact ((introduces_of_composeBare hc).speaks.names x hx).made hstock

/-- Where there is no body nothing is made. -/
theorem allocates_compose (tokens : List Token) (labels : List String)
    (store : Store) : Allocates ⟨labels, store⟩ ((body? tokens).getD [])
      (compose tokens labels store) := by
  unfold compose
  cases hbody : body? tokens with
  | none => exact ⟨rfl, nofun, nofun⟩
  | some body => exact allocates_composeBare body labels store

end Composer

/-- From any labels and variables on, whatever names the composer makes
one after the other: none was there before, they all differ, and the
numbers of labels go up, as do those of variables. In the end there are
the old names and these.

Composing any tokens, whether it gives code or fails, makes the names that the
tokens ask for like this, and no others, and the code has no names but these and
those of the tokens. -/
theorem Stock.made_names_new (labels : List String) (store : Store) :
    let k : Stock := ⟨labels, store⟩
    (∀ purposes, ∃ made : List (Purpose × Nat),
      made.map Prod.fst = purposes ∧
      (k.makeAll purposes).1 = made.map (fun (p, n) => p.name n) ∧
      (∀ p n, (p, n) ∈ made → k.has p (p.name n) = false) ∧
      made.Pairwise (fun (p, n) (q, m) =>
        p.name n ≠ q.name m ∧ (p = q → n < m)) ∧
      ∀ p x, (k.makeAll purposes).2.has p x = true ↔
        k.has p x = true ∨ ∃ n, (p, n) ∈ made ∧ x = p.name n) ∧
    ∀ tokens,
      Composer.Allocates k tokens
        (Composer.composeBare tokens labels store) ∧
      Composer.Allocates k ((Composer.body? tokens).getD [])
        (Composer.compose tokens labels store) := by
  intro k
  refine ⟨fun purposes => ?_, fun tokens => ⟨?_, ?_⟩⟩
  · refine ⟨k.numbers purposes, k.numbers_fst purposes, k.makeAll_fst purposes,
      fun p n h => (numbers_fresh h).2, ?_, fun p x => has_makeAll⟩
    exact (k.names_differ purposes).and (k.numbers_increase purposes)
  · exact Composer.allocates_composeBare tokens labels store
  · exact Composer.allocates_compose tokens labels store

/-- With a label there that has the next number already, the numbers go on
behind it. -/
example : (Stock.makeAll ⟨["_m3", "x"], .empty⟩ [.label, .limit, .label]).1 =
    ["_m4", "_r1", "_m5"] := by
  decide +kernel

end Reckon
