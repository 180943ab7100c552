import Reckon.Proofs.Compile.Code
import Reckon.Proofs.Syntax.Spelling

/-!
# The composer, token by token

What the composer does with one token depends on little: on what it has put out,
on what is pending without the lines it is pending from, and on the labels and
variables there are. That is a `View`, and every rule of the composer is
stated as a step from one view to another, for any composer that shows the
first. Tokens enter by their lexemes only.
-/

namespace Reckon

/-! ## Views -/

/-- What matters of a composer. -/
structure View where
  items : List Item := []
  stack : List Pending := []
  stock : Stock := {}

/-- A composer shows a view. -/
structure Shows (c : Composer) (v : View) : Prop where
  emits : Emits c.program v.items
  stack : c.stack.map Frame.pending = v.stack
  labels : c.labels = v.stock.labels
  store : c.store = v.stock.store

namespace View

/-- Items go out. -/
def put (v : View) (items : List Item) : View :=
  { v with items := v.items ++ items }

/-- Something else is pending. -/
def pend (v : View) (stack : List Pending) : View := { v with stack }

/-- One label more is made. -/
def label (v : View) : View := { v with stock := v.stock.addLabel }

/-- One variable more is made. -/
def limit (v : View) : View := { v with stock := v.stock.addLimit }

variable (v : View) (a b : List Item) (s : List Pending)

@[simp] theorem put_nil : v.put [] = v := by
  simp [put]

@[simp] theorem put_put : (v.put a).put b = v.put (a ++ b) := by
  simp [put]

@[simp] theorem pend_put : (v.pend s).put a = (v.put a).pend s := rfl

end View

/-- A word leads from one view to another. The word before it is given. -/
def Feeds (before : Option Lexeme) (v : View) (x : Lexeme) (v' : View) : Prop :=
  ∀ (c : Composer) (b : Option Token) (t : Token),
    b.bind Token.lexeme? = before →
    t.lexeme? = some x → Shows c v → ∃ c', c.feed b t = .ok c' ∧ Shows c' v'

/-- Some words lead from one view to another. -/
def FeedsAll : (before : Option Lexeme) → View → List Lexeme → View → Prop
  | _, v, [], v' => v = v'
  | before, v, x :: rest, v' =>
      ∃ w, Feeds before v x w ∧ FeedsAll (some x) w rest v'

variable {c : Composer} {v v' w : View} {before : Option Lexeme} {x : Lexeme}
  {a b : List Lexeme} {items : List Item} {ops : List Op} {stack : List Pending}
  {line : Nat}

theorem FeedsAll.one (h : Feeds before v x v') : FeedsAll before v [x] v' :=
  ⟨v', h, rfl⟩

theorem FeedsAll.append :
    ∀ {before : Option Lexeme} {v : View} {a : List Lexeme},
    FeedsAll before v a w → FeedsAll (a.getLast?.or before) w b v' →
      FeedsAll before v (a ++ b) v'
  | _, _, [], rfl, hb => hb
  | _, _, [x], ⟨_, hx, rfl⟩, hb => ⟨_, hx, hb⟩
  | _, _, x :: y :: a, ⟨u, hx, ha⟩, hb => by
      refine ⟨u, hx, ha.append ?_⟩
      rw [List.getLast?_cons_cons] at hb
      cases hlast : (y :: a).getLast? with
      | none => simp at hlast
      | some z =>
          rw [hlast] at hb
          exact hb

/-- Tokens are fed by their words. -/
theorem FeedsAll.feedAll :
    ∀ {tokens : List Token} {a : List Lexeme} {c : Composer}
    {b : Option Token} {v : View}, Spells tokens a → Shows c v →
    b.bind Token.lexeme? = before → FeedsAll before v a w →
      ∃ c', c.feedAll b tokens = .ok c' ∧ Shows c' w := by
  intro tokens
  induction tokens generalizing before with
  | nil =>
      intro a c b v hspells hshows _ hfeeds
      cases a with
      | nil => exact ⟨c, rfl, hfeeds ▸ hshows⟩
      | cons x a => cases hspells
  | cons t tokens ih =>
      intro a c b v hspells hshows hb hfeeds
      cases a with
      | nil => cases hspells
      | cons x a =>
          obtain ⟨u, hx, ha⟩ := hfeeds
          unfold Spells at hspells
          rw [List.map_cons, List.map_cons, List.cons.injEq] at hspells
          obtain ⟨c₁, hfeed, hshows₁⟩ := hx c b t hb hspells.1 hshows
          obtain ⟨c₂, hrest, hshows₂⟩ :=
            ih (b := some t) hspells.2 hshows₁ hspells.1 ha
          refine ⟨c₂, ?_, hshows₂⟩
          rw [Composer.feedAll, hfeed]
          exact hrest

/-! ## What is shown is kept -/

namespace Shows

theorem put_plain (h : Shows c v) (ops : List Op)
    (hplain : ∀ o ∈ ops, o.isPlain = true) :
    Shows (c.emit ops) (v.put (ops.map .op)) :=
  { h with emits := h.emits.pushAll hplain }

theorem put_label (h : Shows c v) (l : String) :
    Shows (c.emitLabel l) (v.put [.label l]) :=
  { h with emits := h.emits.pushLabel l }

theorem put_mark {l : String} (h : Shows c (v.put [.label l])) :
    Shows (c.emit [.mark]) (v.put [.place l]) :=
  { h with emits := h.emits.mark }

theorem put_place (h : Shows c v) (l : String) :
    Shows (c.emitPlace l) (v.put [.place l]) :=
  (h.put_label l).put_mark

theorem put_constant (h : Shows c v) (value : Single) :
    Shows { c with program := c.program.pushConstant value }
      (v.put [.number value]) :=
  { h with emits := h.emits.pushConstant value }

theorem await (h : Shows c v) (pending : Pending) (line : Nat) :
    Shows (c.await pending line) (v.pend (pending :: v.stack)) :=
  { h with stack := congrArg (pending :: ·) h.stack }

theorem replaceTop {pending : Pending} (h : Shows c v) (pending' : Pending)
    (hstack : v.stack = pending :: stack) :
    Shows (c.replaceTop pending') (v.pend (pending' :: stack)) := by
  have hc := h.stack.trans hstack
  unfold Composer.replaceTop
  cases hframes : c.stack with
  | nil =>
      rw [hframes] at hc
      cases hc
  | cons f rest =>
      rw [hframes] at hc
      exact { h with stack := congrArg (pending' :: ·) (List.cons.inj hc).2 }

theorem close {pending : Pending} (h : Shows c v)
    (hstack : v.stack = pending :: stack) :
    Shows c.close (v.pend stack) := by
  have hc := h.stack.trans hstack
  refine { h with stack := ?_ }
  show c.stack.tail.map Frame.pending = stack
  rw [List.map_tail, hc]
  rfl

/-! ## Waiting operators -/

/-- Waiting operators go out, the innermost first, down to what is to stay. -/
theorem unwind (h : Shows c v) (stays : Pending → Bool) (ops : List Op)
    (hstack : v.stack = ops.map .operator ++ stack)
    (hplain : ∀ o ∈ ops, o.isPlain = true)
    (hgo : ∀ o ∈ ops, stays (.operator o) = false)
    (hstay : ∀ q ∈ stack.head?, stays q = true) (line : Nat) :
    ∃ c', c.unwind stays line = .ok c' ∧
      Shows c' ((v.put (ops.map .op)).pend stack) := by
  have hunwind : ∀ (ops : List Op) (frames : List Frame) (p : Program),
      frames.map Frame.pending = ops.map .operator ++ stack →
      (∀ o ∈ ops, stays (.operator o) = false) →
      ∃ rest, Frame.unwind stays line frames p = .ok (rest, p.pushAll ops) ∧
        rest.map Frame.pending = stack := by
    intro ops
    induction ops with
    | nil =>
        intro frames p hframes _
        refine ⟨frames, ?_, hframes⟩
        have hnone : p.pushAll [] = p := by
          simp [Program.pushAll]
        rw [hnone]
        cases frames with
        | nil => rfl
        | cons f rest =>
            replace hframes : f.pending :: rest.map Frame.pending = stack :=
              hframes
            rw [← hframes] at hstay
            rw [Frame.unwind, if_pos (hstay f.pending rfl)]
    | cons o ops ih =>
        intro frames p hframes hgo
        obtain ⟨f, rest, rfl, hf, hrest⟩ := List.map_eq_cons_iff.mp hframes
        obtain ⟨ho, hops⟩ := List.forall_mem_cons.mp hgo
        obtain ⟨kept, hok, hkept⟩ := ih rest (p.push o) hrest hops
        refine ⟨kept, ?_, hkept⟩
        have hpush : (p.push o).pushAll ops = p.pushAll (o :: ops) := by
          simp [Program.push, Program.pushAll]
        rw [Frame.unwind, hf, if_neg (by simp [ho]), Frame.release, hf, ← hpush]
        exact hok
  obtain ⟨rest, hok, hrest⟩ :=
    hunwind ops c.stack c.program (h.stack.trans hstack) hgo
  refine ⟨{ c with stack := rest, program := c.program.pushAll ops }, ?_, ?_⟩
  · rw [Composer.unwind, hok]
  · exact { h with emits := h.emits.pushAll hplain, stack := hrest }

/-- The same with something that has to be there to stay. -/
theorem unwindTo {q : Pending} (h : Shows c v) (target : Pending → Bool)
    (ops : List Op)
    (hstack : v.stack = ops.map .operator ++ q :: stack)
    (hplain : ∀ o ∈ ops, o.isPlain = true)
    (hgo : ∀ o ∈ ops, target (.operator o) = false) (hq : target q = true)
    (text : String) (line : Nat) :
    ∃ c', c.unwindTo target text line = .ok c' ∧
      Shows c' ((v.put (ops.map .op)).pend (q :: stack)) := by
  obtain ⟨c', hok, hshows⟩ := h.unwind target ops hstack hplain hgo
    (by rintro _ ⟨rfl⟩; exact hq) line
  refine ⟨c', ?_, hshows⟩
  have hne : c'.stack.isEmpty = false := by
    cases hc : c'.stack with
    | nil =>
        have := hshows.stack
        rw [hc] at this
        cases this
    | cons f rest => rfl
  rw [Composer.unwindTo, hok]
  show (if c'.stack.isEmpty then _ else _) = _
  rw [hne]
  rfl

/-! ## Made names -/

theorem newLabel (h : Shows c v) :
    ∃ c', c.newLabel = (v.stock.label, c') ∧ Shows c' v.label := by
  have hlabel : c.newLabel.1 = v.stock.label := by
    unfold Stock.label Stock.composer Composer.newLabel
    rw [h.labels]
  refine ⟨c.newLabel.2, Prod.ext hlabel rfl, { h with labels := ?_ }⟩
  show c.labels ++ [c.newLabel.1] = v.stock.labels ++ [v.stock.label]
  rw [hlabel, h.labels]

theorem newLimit (h : Shows c v) :
    ∃ c', c.newLimit = (v.stock.limit, c') ∧ Shows c' v.limit := by
  have hlimit : c.newLimit.1 = v.stock.limit := by
    unfold Stock.limit Stock.composer Composer.newLimit
    rw [h.store]
  refine ⟨c.newLimit.2, Prod.ext hlimit rfl, { h with store := ?_ }⟩
  show c.store.set c.newLimit.1 .zero = v.stock.store.set v.stock.limit .zero
  rw [hlimit, h.store]

end Shows

/-! ## What a token meets -/

/-- The words that a minus sign can follow as an operator of two operands. -/
def Lexeme.isValue : Lexeme → Bool
  | identifier _ | constant _ => true
  | keyword text => text == ")" || text == "]"
  | _ => false

theorem followsOperand_eq (b : Option Token) :
    Composer.followsOperand b = (b.bind Token.lexeme?).any Lexeme.isValue := by
  cases b with
  | none => rfl
  | some t =>
      cases t with
      | phrase parts line => rfl
      | word lexeme line index =>
          cases lexeme <;>
            simp [Composer.followsOperand, Lexeme.isValue, Token.isOperand,
              Token.isKeyword, Token.keyword?, Token.lexeme?]

theorem exists_word {t : Token} (h : t.lexeme? = some x) :
    ∃ line index, t = .word x line index := by
  cases t with
  | phrase => cases h
  | word lexeme line index =>
      cases h
      exact ⟨line, index, rfl⟩

/-- No list of names is open. -/
def Listless (stack : List Pending) : Prop := ∀ kind, .transfer kind ∉ stack

theorem Listless.cons {q : Pending} (h : Listless stack)
    (hq : ∀ kind, q ≠ .transfer kind) : Listless (q :: stack) := by
  intro kind hmem
  rcases List.mem_cons.mp hmem with he | hmem
  · exact hq kind he.symm
  · exact h kind hmem

theorem Listless.operators (ops : List Op) (h : Listless stack) :
    Listless (ops.map .operator ++ stack) := by
  intro kind hmem
  rcases List.mem_append.mp hmem with hmem | hmem
  · obtain ⟨o, -, he⟩ := List.mem_map.mp hmem
    cases he
  · exact h kind hmem

theorem openTransfer?_eq_none : ∀ {frames : List Frame},
    Listless (frames.map Frame.pending) → Frame.openTransfer? frames = none
  | [], _ => rfl
  | f :: rest, h => by
      have hrest : Frame.openTransfer? rest = none :=
        openTransfer?_eq_none fun kind hmem =>
          h kind (List.mem_cons_of_mem _ hmem)
      rw [Frame.openTransfer?]
      cases hf : f.pending with
      | transfer kind => exact absurd (hf ▸ List.mem_cons_self) (h kind)
      | roundBracket => rfl
      | _ => exact hrest

/-- The marks that are looked at before anything else. -/
def marks : List String := ["!", ")", "]"]

/-- The texts that marks, an `if` or a loop have a rule for. -/
def ruledTexts : List String :=
  marks ++ ["then", "goto", lineBreak, "to", "next"]

section

variable {text : String} {b : Option Token} {t : Token}
  {result : Composer.Result Composer}

/-- A text that is no mark is seen by an `if`, a loop and a list in turn. -/
theorem keyword_eq_rules
    (hminus : text = "-" → Composer.followsOperand b = true)
    (hmarks : text ∉ marks) : c.keyword b text t =
      match c.branchText? text t.line with
      | some result => result
      | none =>
        match c.loopText? text t.line with
        | some result => result
        | none => (do
          let c ← match text, c.awaitsParameter with
            | "=", some context => c.setParameter context t.line
            | _, _ => .ok c
          match c.transferText? b text with
          | some result => result
          | none => c.plainText text t) := by
  simp only [marks, List.mem_cons, List.not_mem_nil, or_false, not_or] at hmarks
  obtain ⟨hnot, hround, hsquare⟩ := hmarks
  have hsign : ¬ (text = "-" ∧ (!Composer.followsOperand b) = true) := by
    rintro ⟨htext, hb⟩
    rw [hminus htext] at hb
    cases hb
  unfold Composer.keyword
  dsimp only
  refine (if_neg hsign).trans ?_
  exact (if_neg hnot).trans ((if_neg hround).trans (if_neg hsquare))

theorem keyword_eq_branch (hminus : text ≠ "-") (hmarks : text ∉ marks)
    (hbranch : c.branchText? text t.line = some result) :
    c.keyword b text t = result := by
  rw [keyword_eq_rules (fun h => absurd h hminus) hmarks, hbranch]

theorem keyword_eq_loop (hminus : text ≠ "-") (hmarks : text ∉ marks)
    (hbranch : c.branchText? text t.line = none)
    (hloop : c.loopText? text t.line = some result) :
    c.keyword b text t = result := by
  rw [keyword_eq_rules (fun h => absurd h hminus) hmarks, hbranch, hloop]

/-- What is no concern of an `if` or a loop is looked at by an open list. -/
theorem keyword_eq_transfer
    (hminus : text = "-" → Composer.followsOperand b = true)
    (hmarks : text ∉ marks) (hbranch : c.branchText? text t.line = none)
    (hloop : c.loopText? text t.line = none)
    (hequals : text = "=" → c.awaitsParameter = none) :
    c.keyword b text t =
      match c.transferText? b text with
      | some result => result
      | none => c.plainText text t := by
  rw [keyword_eq_rules hminus hmarks, hbranch, hloop]
  dsimp only
  split
  · next hawaits =>
      rw [hequals rfl] at hawaits
      cases hawaits
  · rfl

theorem branchText?_eq_none (htext : text ∉ ["then", "goto", lineBreak])
    (line : Nat) : c.branchText? text line = none := by
  simp only [List.mem_cons, not_or] at htext
  obtain ⟨hthen, hgoto, hbreak, -⟩ := htext
  unfold Composer.branchText?
  split
  · rfl
  · rw [if_neg hthen, if_neg hgoto, if_neg hbreak]

theorem loopText?_eq_none (htext : text ∉ ["to", lineBreak, "next"])
    (line : Nat) : c.loopText? text line = none := by
  simp only [List.mem_cons, not_or] at htext
  obtain ⟨hto, hbreak, hnext, -⟩ := htext
  unfold Composer.loopText?
  split
  · rfl
  · rw [if_neg hto, if_neg hbreak, if_neg hnext]

theorem transferText?_eq_none (htext : text ∉ [",", "("]) :
    c.transferText? b text = none := by
  simp only [List.mem_cons, not_or] at htext
  obtain ⟨hcomma, hopen, -⟩ := htext
  unfold Composer.transferText?
  split
  · rfl
  · rw [if_neg hcomma, if_neg fun h => hopen h.1]

theorem keyword_eq (hminus : text = "-" → Composer.followsOperand b = true)
    (htext : text ∉ ruledTexts)
    (hequals : text = "=" → c.awaitsParameter = none) :
    c.keyword b text t =
      match c.transferText? b text with
      | some result => result
      | none => c.plainText text t := by
  have hsubset : ∀ others ⊆ ruledTexts, text ∉ others :=
    fun others hothers hmem => htext (hothers hmem)
  exact keyword_eq_transfer hminus (hsubset _ (by decide))
    (branchText?_eq_none (hsubset _ (by decide)) _)
    (loopText?_eq_none (hsubset _ (by decide)) _) hequals

/-- A text without a rule of its own is an operator or starts a construct. -/
theorem keyword_eq_plainText
    (hminus : text = "-" → Composer.followsOperand b = true)
    (htext : text ∉ "," :: "(" :: ruledTexts)
    (hequals : text = "=" → c.awaitsParameter = none) :
    c.keyword b text t = c.plainText text t := by
  have hlist : text ∉ [",", "("] := fun h =>
    htext (List.mem_append_left ruledTexts h)
  have hruled : text ∉ ruledTexts := fun h =>
    htext (List.mem_append_right [",", "("] h)
  rw [keyword_eq hminus hruled hequals, transferText?_eq_none hlist]

end

/-! ## The words of formulas -/

theorem feeds_identifier (name : String) :
    Feeds before v (.identifier name) (v.put [.op (.name name)]) := by
  intro c b t _ ht h
  obtain ⟨line, index, rfl⟩ := exists_word ht
  exact ⟨_, rfl, { h with emits := h.emits.push rfl }⟩

theorem feeds_constant (value : Single) :
    Feeds before v (.constant value) (v.put [.number value]) := by
  intro c b t _ ht h
  obtain ⟨line, index, rfl⟩ := exists_word ht
  exact ⟨_, rfl, h.put_constant value⟩

theorem feeds_label (l : String) :
    Feeds before v (.label l) (v.put [.label l]) := by
  intro c b t _ ht h
  obtain ⟨line, index, rfl⟩ := exists_word ht
  exact ⟨_, rfl, h.put_label l⟩

theorem feeds_colon (l : String) :
    Feeds before (v.put [.label l]) (.keyword ":") (v.put [.place l]) := by
  intro c b t _ ht h
  obtain ⟨line, index, rfl⟩ := exists_word ht
  exact ⟨_, rfl, h.put_mark⟩

/-- Fixed texts other than the colon go by their rules. -/
theorem feeds_of_keyword {text : String} (hcolon : text ≠ ":")
    (h : ∀ (c : Composer) (b : Option Token) (t : Token),
      b.bind Token.lexeme? = before → t.lexeme? = some (.keyword text) →
      Shows c v → ∃ c', c.keyword b text t = .ok c' ∧ Shows c' v') :
    Feeds before v (.keyword text) v' := by
  intro c b t hb ht hshows
  obtain ⟨c', hok, hshows'⟩ := h c b t hb ht hshows
  refine ⟨c', ?_, hshows'⟩
  obtain ⟨line, index, rfl⟩ := exists_word ht
  rw [Composer.feed, if_neg hcolon]
  exact hok

theorem feeds_minus (hbefore : before.any Lexeme.isValue = false) :
    Feeds before (v.pend stack) (.keyword "-")
      (v.pend (.operator .neg :: stack)) := by
  refine feeds_of_keyword (by decide) fun c b t hb _ h => ?_
  have hsign : ("-" = "-" ∧ (!Composer.followsOperand b) = true) := by
    rw [followsOperand_eq, hb, hbefore]
    exact ⟨rfl, rfl⟩
  refine ⟨_, ?_, h.await (.operator .neg) t.line⟩
  rw [Composer.keyword, if_pos hsign]

theorem feeds_not :
    Feeds before (v.pend stack) (.keyword "!")
      (v.pend (.operator .not :: stack)) := by
  refine feeds_of_keyword (by decide) fun c b t hb _ h => ?_
  refine ⟨_, ?_, h.await (.operator .not) t.line⟩
  rw [Composer.keyword, if_neg (by simp), if_pos rfl]

/-- An operator sends out what binds as tightly and waits itself. -/
theorem feeds_operator {text : String} {pending : Pending}
    (hpending : Pending.ofText? text = some pending)
    (hminus : text = "-" → before.any Lexeme.isValue = true)
    (htext : text ∉ ":" :: "[" :: "," :: "(" :: ruledTexts)
    (hequals : text = "=" → ∀ c, Shows c v → c.awaitsParameter = none)
    (hstack : v.stack = ops.map .operator ++ stack)
    (hplain : ∀ o ∈ ops, o.isPlain = true)
    (hgo : ∀ o ∈ ops, pending.priority ≤ o.priority)
    (hstay : ∀ q ∈ stack.head?, q.isLoop = true ∨
      q.priority < pending.priority) : Feeds before v (.keyword text)
      ((v.put (ops.map .op)).pend (pending :: stack)) := by
  have hne : ∀ {other}, other ∈ ":" :: "[" :: "," :: "(" :: ruledTexts →
      text ≠ other := fun hother => (ne_of_mem_of_not_mem hother htext).symm
  have hcolon : text ≠ ":" := hne (by decide)
  have hsquare : text ≠ "[" := hne (by decide)
  have hround : text ≠ "(" := hne (by decide)
  have hbreak : text ≠ lineBreak := hne (by decide)
  have hruled : text ∉ "," :: "(" :: ruledTexts := fun h =>
    htext (List.mem_cons_of_mem _ (List.mem_cons_of_mem _ h))
  refine feeds_of_keyword hcolon fun c b t hb _ h => ?_
  have hfollows : text = "-" → Composer.followsOperand b = true := by
    intro htext
    rw [followsOperand_eq, hb, hminus htext]
  rw [keyword_eq_plainText hfollows hruled fun htext => hequals htext c h]
  let stays : Pending → Bool := fun top =>
    top.isLoop || top.priority < pending.priority
  have hgoes : ∀ o ∈ ops, stays (.operator o) = false := by
    intro o ho
    show (false || decide (o.priority < pending.priority)) = false
    simpa using hgo o ho
  have hstays : ∀ q ∈ stack.head?, stays q = true := fun q hq => by
    simpa [stays] using hstay q hq
  obtain ⟨c', hok, hshows⟩ :=
    h.unwind stays ops hstack hplain hgoes hstays t.line
  refine ⟨_, ?_, hshows.await pending t.line⟩
  rw [Composer.plainText, if_neg hbreak, if_neg hround, if_neg hsquare,
    Composer.operatorText, hpending]
  dsimp only
  rw [hok]
  rfl

theorem feeds_openSquare :
    Feeds before (v.pend stack) (.keyword "[")
      (v.pend (.squareBracket :: stack)) := by
  refine feeds_of_keyword (by decide) fun c b t hb _ h => ?_
  rw [keyword_eq_plainText (fun h => absurd h (by decide)) (by decide)
    (fun h => absurd h (by decide))]
  exact ⟨_, rfl, h.await .squareBracket t.line⟩

theorem feeds_openRound (hlists : Listless stack) :
    Feeds before (v.pend stack) (.keyword "(")
      (v.pend (.roundBracket :: stack)) := by
  refine feeds_of_keyword (by decide) fun c b t hb _ h => ?_
  have htransfer : c.transferText? b "(" = none := by
    rw [Composer.transferText?, openTransfer?_eq_none (h.stack ▸ hlists)]
  rw [keyword_eq (fun h => absurd h (by decide)) (by decide)
    (fun h => absurd h (by decide)), htransfer]
  exact ⟨_, rfl, h.await .roundBracket t.line⟩

/-- A closing bracket sends out what waits behind its partner. -/
theorem Shows.closeBracket {c : Composer} {partner : Pending} (round : Bool)
    (hpartner : partner = if round then .roundBracket else .squareBracket)
    (h : Shows c (v.pend (ops.map .operator ++ partner :: stack)))
    (hlists : Listless stack) (hplain : ∀ o ∈ ops, o.isPlain = true)
    (line : Nat) :
    ∃ c', c.closeBracket round line = .ok c' ∧
      Shows c' ((v.put (ops.map .op)).pend stack) := by
  have hnone : Frame.openTransfer? c.stack = none := by
    refine openTransfer?_eq_none
      (h.stack ▸ Listless.operators ops (hlists.cons ?_))
    rw [hpartner]
    cases round <;> nofun
  have htransfer :
      (if round then Frame.openTransfer? c.stack else none) = none := by
    rw [hnone, ite_self]
  have hgoes : ∀ o ∈ ops, decide (Pending.operator o = partner) = false := by
    intro o _
    rw [hpartner]
    cases round <;> rfl
  obtain ⟨c', hok, hshows⟩ := h.unwindTo (· = partner) ops rfl hplain
    hgoes (decide_eq_true rfl) partner.text line
  refine ⟨c'.close, ?_, hshows.close rfl⟩
  unfold Composer.closeBracket
  rw [htransfer]
  cases round with
  | false =>
      rw [if_neg (by decide)] at hpartner
      subst hpartner
      dsimp only
      rw [if_neg (by decide)]
      dsimp only
      rw [hok]
  | true =>
      rw [if_pos rfl] at hpartner
      subst hpartner
      dsimp only
      rw [if_pos rfl]
      dsimp only
      rw [hok]

theorem feeds_closeRound (hlists : Listless stack)
    (hplain : ∀ o ∈ ops, o.isPlain = true) :
    Feeds before (v.pend (ops.map .operator ++ .roundBracket :: stack))
      (.keyword ")") ((v.put (ops.map .op)).pend stack) := by
  refine feeds_of_keyword (by decide) fun c b t _ _ h => ?_
  obtain ⟨c', hok, hshows⟩ := Shows.closeBracket true rfl h hlists hplain t.line
  exact ⟨c', hok, hshows⟩

theorem feeds_closeSquare (hlists : Listless stack)
    (hplain : ∀ o ∈ ops, o.isPlain = true) :
    Feeds before (v.pend (ops.map .operator ++ .squareBracket :: stack))
      (.keyword "]") ((v.put (ops.map .op)).pend stack) := by
  refine feeds_of_keyword (by decide) fun c b t _ _ h => ?_
  obtain ⟨c', hok, hshows⟩ :=
    Shows.closeBracket false rfl h hlists hplain t.line
  exact ⟨c', hok, hshows⟩

end Reckon
