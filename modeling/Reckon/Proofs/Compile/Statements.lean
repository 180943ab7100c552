import Reckon.Proofs.Compile.Composing

/-!
# Statements are composed

Between two statements nothing is pending but open loops, each with all of its
names made but for nothing. Such a stack is *settled*. From there the words of a
statement and the line break behind it put out the code of the statement and
leave the stack as it was; the names made on the way are added to the stock.

A block begins with the line break that ends what is in front of it, be it
`begin`, the head of a loop or another statement. So the statement about a block
takes the effect of this line break as given.
-/

namespace Reckon

/-- Only loops are open, and they wait for nothing but their end. -/
def Settled (stack : List Pending) : Prop :=
  ∀ q ∈ stack, ∃ context, q = .loop context ∧ context.parameter.isNone = false ∧
    context.exit.isNone = false

/-- What is shown behind a statement. -/
def View.after {x : Extent} (v : View) (s : Stmt x) : View where
  items := v.items ++ s.items v.stock
  stack := v.stack
  stock := s.stock v.stock

variable {before : Option Lexeme} {v v' : View} {stack : List Pending}
  {ops : List Op} {frames : List Frame} {context : LoopContext}
  {skip : Option String} {kind : Transfer} {text : String}

namespace Settled

theorem nil : Settled [] := nofun

theorem top (h : Settled stack) : ∀ q ∈ stack.head?, q.isLoop = true := by
  intro q hq
  obtain ⟨context, rfl, -⟩ := h q (List.mem_of_mem_head? hq)
  rfl

theorem listless (h : Settled stack) : Listless stack := by
  intro kind hmem
  obtain ⟨context, he, -⟩ := h _ hmem
  cases he

theorem branchless (h : Settled stack) : ∀ skip, .branch skip ∉ stack := by
  intro skip hmem
  obtain ⟨context, he, -⟩ := h _ hmem
  cases he

end Settled

/-! ## What is innermost -/

theorem innermostBranch?_eq_none : ∀ {frames : List Frame},
    (∀ skip, .branch skip ∉ frames.map Frame.pending) →
      Frame.innermostBranch? frames = none
  | [], _ => rfl
  | f :: rest, h => by
      have hrest : Frame.innermostBranch? rest = none :=
        innermostBranch?_eq_none fun skip hmem =>
          h skip (List.mem_cons_of_mem _ hmem)
      rw [Frame.innermostBranch?]
      cases hf : f.pending with
      | branch skip => exact absurd (hf ▸ List.mem_cons_self) (h skip)
      | _ => exact hrest

theorem innermostBranch?_eq_some : ∀ (ops : List Op) {frames : List Frame},
    frames.map Frame.pending = ops.map .operator ++ .branch skip :: stack →
      Frame.innermostBranch? frames = some skip
  | [], frames, h => by
      obtain ⟨f, rest, rfl, hf, -⟩ := List.map_eq_cons_iff.mp h
      rw [Frame.innermostBranch?, hf]
  | o :: ops, frames, h => by
      obtain ⟨f, rest, rfl, hf, hrest⟩ := List.map_eq_cons_iff.mp h
      rw [Frame.innermostBranch?, hf]
      exact innermostBranch?_eq_some ops hrest

theorem innermostLoop?_eq_none : ∀ (ops : List Op) {frames : List Frame},
    frames.map Frame.pending = ops.map .operator →
      Frame.innermostLoop? frames = none
  | [], frames, h => by
      rw [List.map_eq_nil_iff.mp h]
      rfl
  | o :: ops, frames, h => by
      obtain ⟨f, rest, rfl, hf, hrest⟩ := List.map_eq_cons_iff.mp h
      rw [Frame.innermostLoop?, hf]
      exact innermostLoop?_eq_none ops hrest

theorem innermostLoop?_eq_some : ∀ (ops : List Op) {frames : List Frame},
    frames.map Frame.pending = ops.map .operator ++ .loop context :: stack →
      Frame.innermostLoop? frames = some context
  | [], frames, h => by
      obtain ⟨f, rest, rfl, hf, -⟩ := List.map_eq_cons_iff.mp h
      rw [Frame.innermostLoop?, hf]
  | o :: ops, frames, h => by
      obtain ⟨f, rest, rfl, hf, hrest⟩ := List.map_eq_cons_iff.mp h
      rw [Frame.innermostLoop?, hf]
      exact innermostLoop?_eq_some ops hrest

theorem branchText?_eq_none_of_stack {c : Composer} (line : Nat)
    (h : ∀ skip, .branch skip ∉ c.stack.map Frame.pending) :
    c.branchText? text line = none := by
  rw [Composer.branchText?, innermostBranch?_eq_none h]

theorem branchless_operators (h : ∀ skip, .branch skip ∉ stack) :
    ∀ skip, .branch skip ∉ ops.map Pending.operator ++ stack := by
  intro skip hmem
  rcases List.mem_append.mp hmem with hmem | hmem
  · obtain ⟨o, -, he⟩ := List.mem_map.mp hmem
    cases he
  · exact h skip hmem

/-! ## The words of statements -/

/-- A line break sends out what waits behind a statement. -/
theorem feeds_break (hsettled : Settled stack)
    (hplain : ∀ o ∈ ops, o.isPlain = true) :
    Feeds before (v.pend (ops.map .operator ++ stack)) (.keyword lineBreak)
      ((v.put (ops.map .op)).pend stack) := by
  refine feeds_of_keyword (by decide) fun c b t _ _ h => ?_
  have hbranch : c.branchText? lineBreak t.line = none :=
    branchText?_eq_none_of_stack _
      (h.stack ▸ branchless_operators hsettled.branchless)
  have hgoes : ∀ o ∈ ops, Pending.isLoop (.operator o) = false := fun _ _ => rfl
  cases stack with
  | nil =>
      have hstack : c.stack.map Frame.pending = ops.map .operator := by
        simpa [View.pend] using h.stack
      have hloop : c.loopText? lineBreak t.line = none := by
        rw [Composer.loopText?, innermostLoop?_eq_none ops hstack]
      have htransfer : c.transferText? b lineBreak = none := by
        rw [Composer.transferText?, openTransfer?_eq_none]
        rw [hstack, ← List.append_nil (ops.map Pending.operator)]
        exact Listless.operators ops hsettled.listless
      obtain ⟨c', hok, hshows⟩ :=
        h.unwind Pending.isLoop ops rfl hplain hgoes (by rintro _ ⟨⟩) t.line
      refine ⟨c', ?_, hshows⟩
      rw [keyword_eq_transfer (fun h => absurd h (by decide))
        (by decide) hbranch hloop (fun h => absurd h (by decide)), htransfer]
      exact hok
  | cons q stack =>
      obtain ⟨context, rfl, -, hexit⟩ := hsettled q List.mem_cons_self
      have hloop : c.loopText? lineBreak t.line =
          some (c.unwindTo Pending.isLoop "do" t.line) := by
        rw [Composer.loopText?, innermostLoop?_eq_some ops h.stack]
        simp [lineBreak, hexit]
      obtain ⟨c', hok, hshows⟩ :=
        h.unwindTo Pending.isLoop ops rfl hplain hgoes rfl "do" t.line
      refine ⟨c', ?_, hshows⟩
      rw [keyword_eq_loop (by decide) (by decide) hbranch hloop]
      exact hok

/-- Where nothing waits a line break says nothing. -/
theorem feeds_quietBreak (hsettled : Settled stack) :
    Feeds before (v.pend stack) (.keyword lineBreak) (v.pend stack) := by
  have hfeeds : Feeds before (v.pend ([].map .operator ++ stack)) _ _ :=
    feeds_break hsettled nofun
  rwa [List.map_nil, List.map_nil, View.put_nil, List.nil_append] at hfeeds

/-- A text that waits where only loops are open. -/
theorem feeds_waiting (pending : Pending)
    (hpending : Pending.ofText? text = some pending) (hminus : text ≠ "-")
    (htext : text ∉ ":" :: "[" :: "," :: "(" :: ruledTexts)
    (hequals : text = "=" → ∀ c, Shows c (v.pend stack) →
      c.awaitsParameter = none)
    (htop : ∀ q ∈ stack.head?, q.isLoop = true) :
    Feeds before (v.pend stack) (.keyword text)
      (v.pend (pending :: stack)) := by
  have hfeeds : Feeds before (v.pend stack) _
      (((v.pend stack).put ([].map .op)).pend _) :=
    feeds_operator hpending (fun h => absurd h hminus) htext hequals rfl nofun
      nofun fun q hq => .inl (htop q hq)
  rwa [List.map_nil, View.put_nil] at hfeeds

/-- A construct is opened by its word. -/
theorem feeds_opening (pending : Pending) (hsettled : Settled v.stack)
    (htext : text ∈ ["if", "do", "readl", "writel"])
    (hpending : Pending.ofText? text = some pending) :
    Feeds before v (.keyword text) (v.pend (pending :: v.stack)) := by
  have hruled : ∀ text ∈ ["if", "do", "readl", "writel"],
      text ∉ ":" :: "[" :: "," :: "(" :: ruledTexts := by
    decide
  have hminus : text ≠ "-" := ne_of_mem_of_not_mem htext (by decide)
  have hequals : text ≠ "=" := ne_of_mem_of_not_mem htext (by decide)
  exact feeds_waiting (v := v) pending hpending hminus (hruled text htext)
    (fun h => absurd h hequals) hsettled.top

theorem awaitsParameter_eq {c : Composer}
    (h : c.stack.map Frame.pending = .loop context :: stack) :
    c.awaitsParameter =
      if context.parameter.isNone then some context else none := by
  obtain ⟨⟨pending, line⟩, rest, hc, hf, -⟩ := List.map_eq_cons_iff.mp h
  obtain rfl : pending = .loop context := hf
  rw [Composer.awaitsParameter, hc]

theorem feeds_equals (hsettled : Settled stack) :
    Feeds before (v.pend stack) (.keyword "=")
      (v.pend (.operator .assign :: stack)) := by
  refine feeds_waiting _ rfl (by decide) (by decide) (fun _ c h => ?_)
    hsettled.top
  cases stack with
  | nil => rw [Composer.awaitsParameter, List.map_eq_nil_iff.mp h.stack]
  | cons q stack =>
      obtain ⟨context, rfl, hparameter, -⟩ := hsettled q List.mem_cons_self
      rw [awaitsParameter_eq h.stack, hparameter]
      rfl

/-- The equals sign of a loop takes the name before it for the parameter. -/
theorem feeds_parameter {x : String} (hcontext : context.parameter = none) :
    Feeds before ((v.put [.op (.name x)]).pend (.loop context :: stack))
      (.keyword "=") ((v.put [.op (.name x)]).pend
        (.operator .assign ::
          .loop { context with parameter := some x } :: stack)) := by
  refine feeds_of_keyword (by decide) fun c b t hb ht h => ?_
  let c₁ := c.replaceTop (.loop { context with parameter := some x })
  have h₁ : Shows c₁ ((v.put [.op (.name x)]).pend
      (.loop { context with parameter := some x } :: stack)) :=
    h.replaceTop _ rfl
  have hawaits : c.awaitsParameter = some context := by
    rw [awaitsParameter_eq h.stack, hcontext]
    rfl
  have hawaits₁ : ∀ c, Shows c ((v.put [.op (.name x)]).pend
      (.loop { context with parameter := some x } :: stack)) →
      c.awaitsParameter = none := fun c h => by
    rw [awaitsParameter_eq h.stack]
    rfl
  have hset : c.setParameter context t.line = .ok c₁ := by
    rw [Composer.setParameter, h.emits.getLast?]
  have hkeyword : c.keyword b "=" t = c₁.plainText "=" t := by
    rw [keyword_eq_rules (fun h => absurd h (by decide)) (by decide),
      branchText?_eq_none (by decide), loopText?_eq_none (by decide), hawaits]
    have hnone : c₁.transferText? b "=" = none :=
      transferText?_eq_none (by decide)
    simp only [hset, hnone, bind, Except.bind]
  obtain ⟨c₂, hok, h₂⟩ := feeds_waiting (.operator .assign) rfl (by decide)
    (by decide) (fun _ => hawaits₁) (by rintro _ ⟨rfl⟩; rfl) c₁ b t hb ht h₁
  refine ⟨c₂, ?_, h₂⟩
  obtain ⟨line, index, rfl⟩ := exists_word ht
  rw [hkeyword, ← keyword_eq_plainText (b := b) (fun h => absurd h (by decide))
    (by decide) fun _ => hawaits₁ c₁ h₁]
  exact hok

/-! ## Lists -/

theorem any_isKeyword_iff {b : Option Token} :
    b.any (·.isKeyword text) = true ↔
      b.bind Token.lexeme? = some (.keyword text) := by
  cases b with
  | none => simp
  | some t => exact Token.isKeyword_iff

theorem openTransfer?_eq_some
    (h : frames.map Frame.pending = .transfer kind :: stack) :
    Frame.openTransfer? frames = some kind := by
  obtain ⟨f, rest, rfl, hf, -⟩ := List.map_eq_cons_iff.mp h
  rw [Frame.openTransfer?, hf]

theorem keyword_eq_list {c : Composer} {b : Option Token} {t : Token}
    {result : Composer.Result Composer} (htext : text ∈ [",", "("])
    (hlist : c.transferText? b text = some result) :
    c.keyword b text t = result := by
  have hruled : ∀ text ∈ [",", "("], text ∉ ruledTexts := by
    decide
  have hminus : text ≠ "-" := ne_of_mem_of_not_mem htext (by decide)
  have hequals : text ≠ "=" := ne_of_mem_of_not_mem htext (by decide)
  rw [keyword_eq (fun h => absurd h hminus) (hruled text htext)
    (fun h => absurd h hequals), hlist]

theorem feeds_openList :
    Feeds (some (.keyword kind.keyword)) (v.pend (.transfer kind :: stack))
      (.keyword "(") (v.pend (.transfer kind :: stack)) := by
  refine feeds_of_keyword (by decide) fun c b t hb _ h =>
    ⟨c, keyword_eq_list (by decide) ?_, h⟩
  rw [Composer.transferText?, openTransfer?_eq_some h.stack]
  dsimp only
  rw [if_neg (by decide), if_pos ⟨rfl, any_isKeyword_iff.mpr hb⟩]

/-- The comma in front of the first name says nothing. -/
theorem feeds_firstComma :
    Feeds (some (.keyword "(")) (v.pend (.transfer kind :: stack))
      (.keyword ",")
      (v.pend (.transfer kind :: stack)) := by
  refine feeds_of_keyword (by decide) fun c b t hb _ h =>
    ⟨c, keyword_eq_list (by decide) ?_, h⟩
  rw [Composer.transferText?, openTransfer?_eq_some h.stack]
  dsimp only
  rw [if_pos rfl, if_pos (any_isKeyword_iff.mpr hb)]

/-- Any other comma ends a name. -/
theorem feeds_comma (hbefore : before ≠ some (.keyword "(")) :
    Feeds before (v.pend (.transfer kind :: stack)) (.keyword ",")
      ((v.put [.op kind.op]).pend (.transfer kind :: stack)) := by
  refine feeds_of_keyword (by decide) fun c b t hb _ h =>
    ⟨c.emit [kind.op], keyword_eq_list (by decide) ?_,
      h.put_plain [kind.op] (by cases kind <;> decide)⟩
  have hopen : ¬ b.any (·.isKeyword "(") = true := fun h =>
    hbefore (hb ▸ any_isKeyword_iff.mp h)
  rw [Composer.transferText?, openTransfer?_eq_some h.stack]
  dsimp only
  rw [if_pos rfl, if_neg hopen]

theorem feeds_closeList :
    Feeds before (v.pend (.transfer kind :: stack)) (.keyword ")")
      ((v.put [.op kind.op]).pend stack) := by
  refine feeds_of_keyword (by decide) fun c b t hb _ h => ?_
  have hplain : ∀ o ∈ [kind.op], o.isPlain = true := by
    cases kind <;> decide
  obtain ⟨c', hok, hshows⟩ := (h.put_plain [kind.op] hplain).unwindTo
    (Pending.isTransfer kind) [] rfl nofun nofun
      (decide_eq_true rfl) kind.keyword
    t.line
  rw [List.map_nil, View.put_nil] at hshows
  refine ⟨c'.close, ?_, hshows.close rfl⟩
  show c.closeBracket true t.line = _
  rw [Composer.closeBracket, if_pos rfl, openTransfer?_eq_some h.stack]
  dsimp only
  rw [hok]
  rfl

/-! ## Branches -/

/-- Behind the condition comes the jump over the statement. -/
theorem feeds_then (hplain : ∀ o ∈ ops, o.isPlain = true) :
    Feeds before (v.pend (ops.map .operator ++ .branch none :: stack))
      (.keyword "then") (((v.label.put (ops.map .op)).put
        [.label v.stock.label, .op .jumpIfFalse]).pend
          (.branch (some v.stock.label) :: stack)) := by
  refine feeds_of_keyword (by decide) fun c b t _ _ h => ?_
  obtain ⟨c₁, hlabel, h₁⟩ := h.newLabel
  obtain ⟨c₂, hok, h₂⟩ := h₁.unwindTo Pending.isBranch ops rfl hplain
    (fun _ _ => rfl) rfl "if" t.line
  have h₃ := ((h₂.put_label v.stock.label).put_plain
    [.jumpIfFalse] (by decide)).replaceTop
      (.branch (some v.stock.label)) rfl
  rw [View.put_put] at h₃
  refine ⟨_, keyword_eq_branch (by decide) (by decide) ?_, h₃⟩
  rw [Composer.branchText?, innermostBranch?_eq_some ops h.stack]
  dsimp only
  rw [if_pos rfl, Composer.openBranch, hlabel]
  dsimp only
  rw [hok]
  rfl

theorem feeds_goto :
    Feeds before (v.pend (.branch skip :: stack)) (.keyword "goto")
      (v.pend (.branch skip :: stack)) := by
  refine feeds_of_keyword (by decide) fun c b t _ _ h => ⟨c, ?_, h⟩
  refine keyword_eq_branch (by decide) (by decide) ?_
  rw [Composer.branchText?, innermostBranch?_eq_some [] h.stack]
  dsimp only
  rw [if_neg (by decide), if_pos rfl]

/-- The end of the line is where the jump over the statement leads. -/
theorem feeds_skip {l : String} :
    Feeds before (v.pend (.branch (some l) :: stack)) (.keyword lineBreak)
      ((v.put [.op .jump, .place l]).pend stack) := by
  refine feeds_of_keyword (by decide) fun c b t _ _ h => ?_
  obtain ⟨c₁, hok, h₁⟩ := h.unwindTo Pending.isBranch [] rfl nofun nofun
    rfl "if" t.line
  rw [List.map_nil, View.put_nil] at h₁
  have h₂ := ((h₁.put_plain [.jump] (by decide)).put_place l).close rfl
  rw [View.put_put] at h₂
  refine ⟨_, keyword_eq_branch (by decide) (by decide) ?_, h₂⟩
  rw [Composer.branchText?, innermostBranch?_eq_some [] h.stack]
  dsimp only
  rw [if_neg (by decide), if_neg (by decide), if_pos rfl, Composer.closeBranch]
  rw [hok]
  rfl

/-! ## Loops -/

/-- Behind the first value comes the place of the test. -/
theorem feeds_to (hplain : ∀ o ∈ ops, o.isPlain = true) :
    Feeds before (v.pend (ops.map .operator ++ .loop context :: stack))
      (.keyword "to") (((v.limit.label.put (ops.map .op)).put
        [.place v.limit.stock.label, .op (.name v.stock.limit)]).pend
          (.loop { context with
            limit := some v.stock.limit
            entry := some v.limit.stock.label } :: stack)) := by
  refine feeds_of_keyword (by decide) fun c b t _ _ h => ?_
  obtain ⟨c₁, hlimit, h₁⟩ := h.newLimit
  obtain ⟨c₂, hlabel, h₂⟩ := h₁.newLabel
  obtain ⟨c₃, hok, h₃⟩ := h₂.unwindTo Pending.isLoop ops rfl hplain
    (fun _ _ => rfl) rfl "do" t.line
  have h₄ := ((h₃.put_place v.limit.stock.label).put_plain
    [.name v.stock.limit] (by simp [Op.isPlain])).replaceTop
      (.loop { context with
        limit := some v.stock.limit
        entry := some v.limit.stock.label }) rfl
  rw [View.put_put] at h₄
  have hbranch : c.branchText? "to" t.line = none :=
    branchText?_eq_none (by decide) _
  refine ⟨_, keyword_eq_loop (by decide) (by decide) hbranch ?_, h₄⟩
  rw [Composer.loopText?, innermostLoop?_eq_some ops h.stack]
  dsimp only
  rw [if_pos rfl, Composer.openLimit, hlimit]
  dsimp only
  rw [hlabel]
  dsimp only
  rw [hok]
  rfl

/-- The end of the line ends the head of a loop: here is the test. -/
theorem feeds_body {parameter limit : String}
    (hparameter : context.parameter = some parameter)
    (hlimit : context.limit = some limit) (hexit : context.exit = none)
    (hbranchless : ∀ skip, .branch skip ∉ stack)
    (hplain : ∀ o ∈ ops, o.isPlain = true) :
    Feeds before (v.pend (ops.map .operator ++ .loop context :: stack))
      (.keyword lineBreak) (((v.label.put (ops.map .op)).put
        [.op .assign, .op (.name parameter), .op (.name limit),
          .op (.binary .le), .label v.stock.label, .op .jumpIfFalse]).pend
        (.loop { context with exit := some v.stock.label } ::
          stack)) := by
  refine feeds_of_keyword (by decide) fun c b t _ _ h => ?_
  have hbranch : c.branchText? lineBreak t.line = none := by
    refine branchText?_eq_none_of_stack _ (h.stack ▸ branchless_operators ?_)
    intro skip hmem
    rcases List.mem_cons.mp hmem with he | hmem
    · cases he
    · exact hbranchless skip hmem
  obtain ⟨c₁, hlabel, h₁⟩ := h.newLabel
  obtain ⟨c₂, hok, h₂⟩ := h₁.unwindTo Pending.isLoop ops rfl hplain
    (fun _ _ => rfl) rfl "do" t.line
  have h₃ := (((h₂.put_plain
    [.assign, .name parameter, .name limit, .binary .le]
    (by simp [Op.isPlain])).put_label v.stock.label).put_plain
      [.jumpIfFalse] (by decide)).replaceTop
        (.loop { context with exit := some v.stock.label }) rfl
  rw [View.put_put, View.put_put] at h₃
  refine ⟨_, keyword_eq_loop (by decide) (by decide) hbranch ?_, h₃⟩
  rw [Composer.loopText?, innermostLoop?_eq_some ops h.stack]
  dsimp only
  rw [if_neg (by decide), if_pos rfl, if_pos (by rw [hexit]; rfl),
    Composer.openBody, hparameter, hlimit]
  dsimp only
  rw [hlabel]
  dsimp only
  rw [hok]
  rfl

/-- The step of a loop, and the jump back to its test. -/
theorem feeds_next (context : LoopContext) {parameter entry exit : String}
    (hparameter : context.parameter = some parameter)
    (hentry : context.entry = some entry) (hexit : context.exit = some exit) :
    Feeds before (v.pend (.loop context :: stack)) (.keyword "next")
      ((v.put (nextCode parameter entry exit)).pend stack) := by
  refine feeds_of_keyword (by decide) fun c b t _ _ h => ?_
  have hbranch : c.branchText? "next" t.line = none :=
    branchText?_eq_none (by decide) _
  obtain ⟨c₁, hok, h₁⟩ := h.unwindTo Pending.isLoop [] rfl nofun nofun
    rfl "do" t.line
  rw [List.map_nil, View.put_nil] at h₁
  have h₂ := ((((((h₁.put_plain [.name parameter, .name parameter]
    (by simp [Op.isPlain])).put_constant .one).put_plain [.binary .add, .assign]
      (by decide)).put_label entry).put_plain [.jump] (by decide)).put_place
        exit).close rfl
  simp only [View.put_put, View.pend_put] at h₂
  refine ⟨_, keyword_eq_loop (by decide) (by decide) hbranch ?_, h₂⟩
  rw [Composer.loopText?, innermostLoop?_eq_some [] h.stack]
  dsimp only
  rw [if_neg (by decide), if_neg (by decide), if_pos rfl, Composer.closeLoop,
    hparameter, hentry, hexit]
  dsimp only
  rw [hok]
  rfl

/-! ## Statements -/

namespace View

variable (v : View)

theorem after_assign (x : String) (e : Expression) :
    v.after (.assign x e) =
      v.put (.op (.name x) :: (e.code false ++ [.op .assign])) := rfl

theorem after_transfer (kind : Transfer) (names : Names) :
    v.after (.transfer kind names) = v.put (transferCode kind names.toList) :=
  rfl

theorem after_branch (c : Condition) (target : String) :
    v.after (.branch c target) =
      v.label.put (branchCode c target v.stock.label) :=
  rfl

theorem after_labelled (l : String) (s : Stmt .bare) :
    v.after (.labelled l s) = (v.put [.place l]).after s := by
  simp [after, put, Stmt.items, Stmt.stock]

theorem after_more (before : Stmt .block) (s : Stmt .line) :
    v.after (.more before s) = (v.after before).after s := by
  simp [after, Stmt.items, Stmt.stock]

/-- The head of a loop goes out before its body, the step behind it. -/
theorem after_loop (parameter : String) (first last : Expression)
    (body : Stmt .block) :
    let entry := v.limit.stock.label
    let exit := v.limit.label.stock.label
    v.after (.loop parameter first last body) =
      ((v.limit.label.label.put (loopCode parameter v.stock.limit
        first last entry exit)).after body).put
          (nextCode parameter entry exit) := by
  simp [after, put, label, limit, Stmt.items, Stmt.stock]

end View

/-- The words of a statement and a line break put out the code of the
statement. -/
def Composes : {x : Extent} → Stmt x → Prop
  | .bare, s | .line, s =>
      ∀ {before : Option Lexeme} {v : View}, Settled v.stack →
      FeedsAll before v (s.lexemes ++ [.keyword lineBreak]) (v.after s)
  | .block, s => ∀ {before : Option Lexeme} {v₀ v : View}, Settled v.stack →
      Feeds before v₀ (.keyword lineBreak) v →
      FeedsAll before v₀ (s.lexemes ++ [.keyword lineBreak]) (v.after s)

/-- An expression behind an equals sign leaves the assignment waiting with the
rest. -/
theorem defers_assign (e : Expression) (hlists : Listless stack) :
    ∃ (out : List Item) (ops : List Op),
      FeedsAll (some (.keyword "=")) (v.pend (.operator .assign :: stack))
        e.lexemes ((v.put out).pend (ops.map .operator ++ stack)) ∧
      out ++ ops.map .op = e.code false ++ [.op .assign] ∧
      ∀ o ∈ ops, o.isPlain = true := by
  have hclear : Clear (.chain .sum) (.operator .assign :: stack) :=
    .operator hlists (by decide)
  obtain ⟨out, ops, hfeeds, hcode, hbound⟩ :=
    (e.defers (some (.keyword "=")) v false nofun hclear rfl).over
      (show 1 ≤ _ by decide) (by decide)
  exact ⟨out, ops, hfeeds, hcode,
    fun o ho => Op.isPlain_of_priority (hbound o ho)⟩

theorem composes_assign (x : String) (e : Expression) :
    Composes (.assign x e) := by
  intro before v hsettled
  obtain ⟨out, ops, hfeeds, hcode, hplain⟩ :=
    defers_assign (v := v.put [.op (.name x)]) e hsettled.listless
  have hafter : v.after (.assign x e) =
      (((v.put [.op (.name x)]).put out).put (ops.map .op)).pend v.stack := by
    rw [View.after_assign, ← hcode]
    simp [View.put, View.pend]
  rw [hafter]
  exact ⟨_, feeds_identifier x, _, feeds_equals (v := v.put _) hsettled,
    hfeeds.append (.one (feeds_break hsettled hplain))⟩

theorem feeds_names (kind : Transfer) (stack : List Pending)
    (names : List String) :
    ∀ (before : Option Lexeme) (v : View),
    before ≠ some (.keyword "(") →
    FeedsAll before (v.pend (.transfer kind :: stack))
      (names.flatMap fun x => [.keyword ",", .identifier x])
      ((v.put (names.flatMap fun x => [.op kind.op, .op (.name x)])).pend
        (.transfer kind :: stack)) := by
  induction names with
  | nil =>
      intro before v _
      show _ = (v.put []).pend _
      rw [View.put_nil]
  | cons x names ih =>
      intro before v hbefore
      have hrest := ih (some (.identifier x))
        ((v.put [.op kind.op]).put [.op (.name x)]) nofun
      have hcode : ((v.put [.op kind.op]).put [.op (.name x)]).put
          (names.flatMap fun y => [.op kind.op, .op (.name y)]) =
            v.put ((x :: names).flatMap fun y =>
              [.op kind.op, .op (.name y)]) := by
        simp
      rw [hcode] at hrest
      exact ⟨_, feeds_comma hbefore, _, feeds_identifier x, hrest⟩

theorem transferCode_eq (kind : Transfer) (x : String) (names : List String) :
    transferCode kind (x :: names) = .op (.name x) ::
      ((names.flatMap fun y => [.op kind.op, .op (.name y)]) ++
        [.op kind.op]) := by
  induction names generalizing x with
  | nil => rfl
  | cons y names ih =>
      have hrest := ih y
      simp only [transferCode, List.flatMap_cons] at hrest ⊢
      rw [hrest]
      rfl

theorem composes_transfer (kind : Transfer) (names : Names) :
    Composes (.transfer kind names) := by
  intro before v hsettled
  have hopen : Feeds before v (.keyword kind.keyword)
      (v.pend (.transfer kind :: v.stack)) :=
    feeds_opening _ hsettled (by cases kind <;> decide) (by cases kind <;> rfl)
  have hafter : v.after (.transfer kind names) =
      (((v.put [.op (.name names.first)]).put
      (names.others.flatMap fun x => [.op kind.op, .op (.name x)])).put
        [.op kind.op]).pend v.stack := by
    rw [View.after_transfer, Names.toList, transferCode_eq]
    simp [View.put, View.pend]
  have hwords : (Stmt.transfer kind names).lexemes ++ [.keyword lineBreak] =
      .keyword kind.keyword :: .keyword "(" :: .keyword "," ::
        .identifier names.first ::
          ((names.others.flatMap fun x => [.keyword ",", .identifier x]) ++
            [.keyword ")", .keyword lineBreak]) := by
    simp [Stmt.lexemes, Names.lexemes, Names.toList]
  have hothers := feeds_names kind v.stack names.others
    (some (.identifier names.first)) (v.put [.op (.name names.first)])
    (by rintro ⟨⟩)
  rw [hafter, hwords]
  exact ⟨_, hopen, _, feeds_openList, _, feeds_firstComma, _,
    feeds_identifier names.first, hothers.append ⟨_, feeds_closeList, _,
      feeds_quietBreak hsettled, rfl⟩⟩

theorem composes_branch (c : Condition) (target : String) :
    Composes (.branch c target) := by
  intro before v hsettled
  have hif :
      Feeds before v (.keyword "if") (v.pend (.branch none :: v.stack)) :=
    feeds_opening _ hsettled (by decide) rfl
  have hclear : Clear (.chain .condition) (.branch none :: v.stack) :=
    ⟨by rintro _ ⟨rfl⟩; exact .inr (by decide), hsettled.listless.cons nofun⟩
  obtain ⟨out, ops, hfeeds, hcode, hhold⟩ :=
    c.defers (some (.keyword "if")) v false nofun hclear rfl
  let skip := v.stock.label
  let u := ((v.put out).label.put (ops.map .op)).put
    [.label skip, .op .jumpIfFalse]
  have hafter : v.after (.branch c target) =
      ((u.put [.label target]).put [.op .jump, .place skip]).pend v.stack := by
    rw [View.after_branch, branchCode, ← hcode]
    simp [u, skip, View.put, View.pend, View.label]
  have hwords : (Stmt.branch c target).lexemes ++ [.keyword lineBreak] =
      .keyword "if" :: (c.lexemes ++ [.keyword "then", .keyword "goto",
        .label target, .keyword lineBreak]) := by
    simp [Stmt.lexemes]
  rw [hafter, hwords]
  exact ⟨_, hif,
    hfeeds.append ⟨_, feeds_then (plain_of_hold hhold), _, feeds_goto,
      _, feeds_label target, _, feeds_skip (v := u.put _), rfl⟩⟩

theorem composes_loop (parameter : String) (first last : Expression)
    {body : Stmt .block} (hbody : Composes body) :
    Composes (.loop parameter first last body) := by
  intro before v hsettled
  let limit := v.stock.limit
  let entry := v.limit.stock.label
  let exit := v.limit.label.stock.label
  let counting : LoopContext := { parameter := some parameter }
  let testing : LoopContext :=
    { counting with limit := some limit, entry := some entry }
  let inside : LoopContext := { testing with exit := some exit }
  have hdo : Feeds before v (.keyword "do") (v.pend (.loop {} :: v.stack)) :=
    feeds_opening _ hsettled (by decide) rfl
  have hcounting : Listless (.loop counting :: v.stack) :=
    hsettled.listless.cons nofun
  obtain ⟨out, ops, hfirst, hfirstCode, hplain⟩ :=
    defers_assign (v := v.put [.op (.name parameter)]) first hcounting
  let u := (((v.put [.op (.name parameter)]).put out).limit.label.put
    (ops.map .op)).put [.place entry, .op (.name limit)]
  have hclear : Clear (.chain .sum) (.loop testing :: v.stack) :=
    ⟨by rintro _ ⟨rfl⟩; exact .inl rfl, hsettled.listless.cons nofun⟩
  obtain ⟨out', ops', hlast, hlastCode, hhold⟩ :=
    last.defers (some (.keyword "to")) u false nofun hclear rfl
  let w := ((u.put out').label.put (ops'.map .op)).put [.op .assign,
    .op (.name parameter), .op (.name limit), .op (.binary .le), .label exit,
      .op .jumpIfFalse]
  have hinside : Settled (.loop inside :: v.stack) := by
    intro q hq
    rcases List.mem_cons.mp hq with rfl | hq
    · exact ⟨inside, rfl, rfl, rfl⟩
    · exact hsettled q hq
  have hhead : Feeds (last.lexemes.getLast?.or (some (.keyword "to")))
      ((u.put out').pend (ops'.map .operator ++ .loop testing :: v.stack))
      (.keyword lineBreak) (w.pend (.loop inside :: v.stack)) :=
    feeds_body rfl rfl rfl hsettled.branchless (plain_of_hold hhold)
  have hblock := hbody (v := w.pend (.loop inside :: v.stack)) hinside hhead
  have hw : w = v.limit.label.label.put
      (loopCode parameter limit first last entry exit) := by
    have hloop : loopCode parameter limit first last entry exit =
        .op (.name parameter) :: ((first.code false ++ [.op .assign]) ++
          .place entry :: limitCode parameter limit last exit) := by
      simp [loopCode]
    rw [hloop, ← hfirstCode, limitCode, ← hlastCode]
    simp [w, u, View.put, View.label, View.limit]
  have hafter : v.after (.loop parameter first last body) =
      ((w.after body).put (nextCode parameter entry exit)).pend v.stack := by
    rw [View.after_loop, hw]
    rfl
  have hwords :
      (Stmt.loop parameter first last body).lexemes ++ [.keyword lineBreak] =
        .keyword "do" :: .identifier parameter :: .keyword "=" ::
          (first.lexemes ++ .keyword "to" :: (last.lexemes ++ ((body.lexemes ++
            [.keyword lineBreak]) ++ [.keyword "next",
            .keyword lineBreak]))) := by
    simp [Stmt.lexemes]
  rw [hafter, hwords]
  refine ⟨_, hdo, _, feeds_identifier parameter, _,
    feeds_parameter (v := v) rfl,
    hfirst.append ⟨_, feeds_to hplain, hlast.append (hblock.append
      ⟨_, feeds_next (v := w.after body) inside rfl rfl rfl, _,
        feeds_quietBreak hsettled, rfl⟩)⟩⟩

/-- Every statement is composed. -/
theorem composes (x : Extent) (s : Stmt x) : Composes s := by
  induction s with
  | assign x e => exact composes_assign x e
  | transfer kind names => exact composes_transfer kind names
  | branch c target => exact composes_branch c target
  | loop parameter first last body ih =>
      exact composes_loop parameter first last ih
  | plain s ih => exact ih
  | labelled l s ih =>
      intro before v hsettled
      rw [View.after_labelled]
      exact ⟨_, feeds_label l, _, feeds_colon l, ih hsettled⟩
  | one s ih =>
      intro before v₀ v hsettled hbreak
      exact ⟨_, hbreak, ih hsettled⟩
  | more b s ihb ihs =>
      intro before v₀ v hsettled hbreak
      have hwords : (Stmt.more b s).lexemes ++ [.keyword lineBreak] =
          (b.lexemes ++ [.keyword lineBreak]) ++
            (s.lexemes ++ [.keyword lineBreak]) := by
        simp [Stmt.lexemes]
      rw [View.after_more, hwords]
      exact (ihb hsettled hbreak).append (ihs hsettled)

end Reckon
