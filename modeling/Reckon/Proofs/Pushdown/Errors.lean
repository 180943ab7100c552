import Reckon.Proofs.Descent.Errors
import Reckon.Proofs.Pushdown.Sound

/-!
# Where the automaton reports an error

The automaton stops at the first token that it cannot take. Whatever it has
taken begins a program, because from every state and stack that it comes to a
way leads to the end. To see that a word is chosen for every state, which takes
it on towards the end of its part, and when a part has come to its end the state
to return to goes on. No chosen word is one that a state would take that falls
back on everything else, so falling back is a step on the way too.

Matching reports an error at the same place, since there is only one: the
recognisers agree about what they found and where.
-/

namespace Reckon

/-- The states of the parts that are entered. In the others there is nothing to
return to. -/
def State.isInner : State → Bool
  | start | programName | headerEnd | var | defStart | defId | defNext | defType
  | defEnd | begin | bodyOpen | bodyLine | bodyNext | done => false
  | _ => true

/-- Whether a move leads from inner states to inner states and from others to
others, as far as it does not enter a part. -/
def Move.keeps (inner : Bool) : Move → Bool
  | .goto next => next.isInner == inner
  | .call part next => part.isInner && next.isInner == inner
  | .back => true

/-- `Move.keeps` for what happens to other tokens. -/
def Fallback.keeps (inner : Bool) : Fallback → Bool
  | .enter part next => part.isInner && next.isInner == inner
  | .jump next => next.isInner == inner
  | .fail _ | .leave => true

namespace State

theorem keeps_edges (s : State) :
    ∀ e ∈ s.row.edges, e.2.keeps s.isInner = true := by
  cases s <;> decide

theorem keeps_fallback (s : State) : s.row.fallback.keeps s.isInner = true := by
  cases s <;> rfl

end State

namespace Pushdown

open Reckon.Language

/-! ## States and stacks -/

/-- The stack is that of the state: it is empty if and only if there is nothing
to return to, and so on for the states on it. -/
def Ready : State → List State → Prop
  | s, [] => s.isInner = false
  | s, back :: k => s.isInner = true ∧ Ready back k

variable {p q : Pushdown} {s back next : State} {k k' : List State}
  {token : Option Token}

theorem Ready.goto (h : Ready s k)
    (hnext : (next.isInner == s.isInner) = true) : Ready next k := by
  have hsame := beq_iff_eq.mp hnext
  cases k with
  | nil => exact hsame.trans h
  | cons back k => exact ⟨hsame.trans h.1, h.2⟩

theorem Ready.call {part : State} (h : Ready s k)
    (hcall : (part.isInner && back.isInner == s.isInner) = true) :
    Ready part (back :: k) := by
  obtain ⟨hpart, hback⟩ := Bool.and_eq_true_iff.mp hcall
  exact ⟨hpart, h.goto hback⟩

theorem ready_take {move : Move} (hp : Ready p.state p.stack)
    (hkeeps : move.keeps p.state.isInner = true) (h : p.take move = .ok q) :
    Ready q.state q.stack := by
  cases move with
  | goto next =>
      cases h
      exact hp.goto hkeeps
  | call part back =>
      cases h
      exact hp.call hkeeps
  | back =>
      unfold take at h
      cases hstack : p.stack with
      | nil =>
          rw [hstack] at h
          cases h
      | cons next stack =>
          rw [hstack] at h hp
          cases h
          exact hp.2

/-- A token is taken where state and stack belong together again. -/
theorem ready_offer (hp : Ready p.state p.stack) (h : p.offer token = .ok q) :
    Ready q.state q.stack := by
  fun_induction offer p token with
  | case1 p _ move hedge =>
      exact ready_take hp
        (p.state.keeps_edges _ (List.mem_of_find?_eq_some hedge)) h
  | case2 | case3 | case6 => cases h
  | case4 p _ part back hfalls ih =>
      have hkeeps := p.state.keeps_fallback
      rw [hfalls] at hkeeps
      exact ih (hp.call hkeeps) h
  | case5 p _ hfalls next stack hstack ih =>
      rw [hstack] at hp
      exact ih hp.2 h
  | case7 p _ next hfalls ih =>
      have hkeeps := p.state.keeps_fallback
      rw [hfalls] at hkeeps
      exact ih (hp.goto hkeeps) h

/-! ## Ways to the end -/

/-- The words that states take which fall back on everything else. -/
def leading : List String := ["+", "-", "*", "/", "and", "or", "!", "["]

/-- Something is accepted from a state and a stack that starts with
none of these words. -/
def Open (s : State) (k : List State) : Prop :=
  ∃ r, Accepts ⟨s, k⟩ r ∧ ∀ text ∈ leading, firstLexeme r ≠ some (.keyword text)

theorem open_word {x : Lexeme} {o : Offer} {move : Move}
    (hx : ∀ text ∈ leading, x ≠ .keyword text)
    (hedge : ∀ line index, edge? ⟨s, k⟩ (some (.word x line index)) =
      some (o, move))
    (htake : take ⟨s, k⟩ move = .ok ⟨next, k'⟩) (h : Open next k') :
    Open s k := by
  obtain ⟨r, hr, -⟩ := h
  refine ⟨.word x 1 none :: r, accepts_word rfl hedge htake hr,
    fun text htext he => ?_⟩
  exact hx text htext (Option.some.inj he)

theorem open_fall (hs : ∀ e ∈ s.row.edges, e.1 ∈ leading.map Offer.keyword)
    (hfall : fall? ⟨s, k⟩ = some ⟨next, k'⟩) (h : Open next k') : Open s k := by
  obtain ⟨r, hr, hfirst⟩ := h
  refine ⟨r, accepts_of_fall (edge?_eq_none fun e he hfits => ?_) hfall hr,
    hfirst⟩
  obtain ⟨text, htext, ho⟩ := List.mem_map.mp (hs e he)
  rw [← ho] at hfits
  exact hfirst text htext (Offer.fits_keyword.mp hfits)

theorem open_keyword (text : String) {o : Offer} {move : Move}
    (htext : text ∉ leading)
    (hedge : ∀ line index,
      edge? ⟨s, k⟩ (some (.word (.keyword text) line index)) = some (o, move))
    (htake : take ⟨s, k⟩ move = .ok ⟨next, k'⟩) (h : Open next k') :
    Open s k := by
  refine open_word (fun other hother he => ?_) hedge htake h
  exact htext (Lexeme.keyword.inj he ▸ hother)

theorem open_identifier {o : Offer} {move : Move}
    (hedge : ∀ line index,
      edge? ⟨s, k⟩ (some (.word (.identifier "x") line index)) = some (o, move))
    (htake : take ⟨s, k⟩ move = .ok ⟨next, k'⟩) (h : Open next k') : Open s k :=
  open_word (fun _ _ => Lexeme.noConfusion) hedge htake h

theorem open_label {o : Offer} {move : Move}
    (hedge : ∀ line index,
      edge? ⟨s, k⟩ (some (.word (.label "l") line index)) = some (o, move))
    (htake : take ⟨s, k⟩ move = .ok ⟨next, k'⟩) (h : Open next k') : Open s k :=
  open_word (fun _ _ => Lexeme.noConfusion) hedge htake h

/-- A part that is entered comes to its end, if what it returns to does. -/
theorem open_inner (h : Open back k) (hs : s.isInner = true) :
    Open s (back :: k) := by
  -- Arithmetic, at any place that it returns to.
  have hoperator : ∀ {back k}, Open back k → Open .operator (back :: k) :=
    fun h => open_fall (by decide) rfl h
  have hoperand : ∀ {back k}, Open back k → Open .operand (back :: k) :=
    fun h => open_identifier (fun _ _ => rfl) rfl (hoperator h)
  have hexprStart : ∀ {back k}, Open back k → Open .exprStart (back :: k) :=
    fun h => open_fall (by decide) rfl (hoperand h)
  have hcloseParen : Open .closeParen (back :: k) :=
    open_keyword ")" (by decide) (fun _ _ => rfl) rfl (hoperator h)
  -- Conditions, at any place too.
  have hcondNext : ∀ {back k}, Open back k → Open .condNext (back :: k) :=
    fun h => open_fall (by decide) rfl h
  have hrelop : ∀ {back k}, Open back k → Open .relop (back :: k) := fun h =>
    open_keyword "==" (by decide) (fun _ _ => rfl) rfl
      (hexprStart (hcondNext h))
  have hcondStart : ∀ {back k}, Open back k → Open .condStart (back :: k) :=
    fun h => open_fall (by decide) rfl (hexprStart (hrelop h))
  have hcondClose : Open .condClose (back :: k) :=
    open_keyword "]" (by decide) (fun _ _ => rfl) rfl (hcondNext h)
  -- Statements: an assignment, at any place, then the others from behind.
  have hassignEq : ∀ {back k}, Open back k → Open .assignEq (back :: k) :=
    fun h => open_keyword "=" (by decide) (fun _ _ => rfl) rfl (hexprStart h)
  have hunlabelled : Open .unlabelled (back :: k) :=
    open_identifier (fun _ _ => rfl) rfl (hassignEq h)
  have hlabelColon : Open .labelColon (back :: k) :=
    open_keyword ":" (by decide) (fun _ _ => rfl) rfl hunlabelled
  have hstatement : ∀ {back k}, Open back k → Open .statement (back :: k) :=
    fun h => open_identifier (fun _ _ => rfl) rfl (hassignEq h)
  have hioNext : Open .ioNext (back :: k) :=
    open_keyword ")" (by decide) (fun _ _ => rfl) rfl h
  have hioId : Open .ioId (back :: k) :=
    open_identifier (fun _ _ => rfl) rfl hioNext
  have hioComma : Open .ioComma (back :: k) :=
    open_keyword "," (by decide) (fun _ _ => rfl) rfl hioId
  have hioOpen : Open .ioOpen (back :: k) :=
    open_keyword "(" (by decide) (fun _ _ => rfl) rfl hioComma
  have hloopNext : Open .loopNext (back :: k) :=
    open_keyword "next" (by decide) (fun _ _ => rfl) rfl h
  have hloopLine : Open .loopLine (back :: k) :=
    open_keyword lineBreak (by decide) (fun _ _ => rfl) rfl hloopNext
  have hloopBody : Open .loopBody (back :: k) :=
    open_keyword lineBreak (by decide) (fun _ _ => rfl) rfl
      (hstatement hloopLine)
  have hloopTo : Open .loopTo (back :: k) :=
    open_keyword "to" (by decide) (fun _ _ => rfl) rfl (hexprStart hloopBody)
  have hloopEq : Open .loopEq (back :: k) :=
    open_keyword "=" (by decide) (fun _ _ => rfl) rfl (hexprStart hloopTo)
  have hloopVar : Open .loopVar (back :: k) :=
    open_identifier (fun _ _ => rfl) rfl hloopEq
  have hifLabel : Open .ifLabel (back :: k) := open_label (fun _ _ => rfl) rfl h
  have hifGoto : Open .ifGoto (back :: k) :=
    open_keyword "goto" (by decide) (fun _ _ => rfl) rfl hifLabel
  have hifThen : Open .ifThen (back :: k) :=
    open_keyword "then" (by decide) (fun _ _ => rfl) rfl hifGoto
  cases s <;> first
    | cases hs; done
    | assumption
    | exact hoperator h | exact hoperand h | exact hexprStart h
    | exact hcondNext h | exact hrelop h | exact hcondStart h
    | exact hassignEq h | exact hstatement h

/-- Where nothing is to be returned to, a program comes to its end. -/
theorem open_outer (hs : s.isInner = false) : Open s [] := by
  -- From behind: the body, the definitions, the header.
  have hdone : Open .done [] :=
    ⟨[], accepts_of_edge (r := []) rfl rfl trivial, fun _ _ => nofun⟩
  have hbodyNext : Open .bodyNext [] :=
    open_keyword "end" (by decide) (fun _ _ => rfl) rfl hdone
  have hbodyLine : Open .bodyLine [] :=
    open_keyword lineBreak (by decide) (fun _ _ => rfl) rfl hbodyNext
  have hbodyOpen : Open .bodyOpen [] :=
    open_keyword lineBreak (by decide) (fun _ _ => rfl) rfl
      (open_inner hbodyLine rfl)
  have hbegin : Open .begin [] :=
    open_keyword "begin" (by decide) (fun _ _ => rfl) rfl hbodyOpen
  have hdefEnd : Open .defEnd [] :=
    open_keyword lineBreak (by decide) (fun _ _ => rfl) rfl hbegin
  have hdefType : Open .defType [] :=
    open_keyword "float" (by decide) (fun _ _ => rfl) rfl hdefEnd
  have hdefNext : Open .defNext [] :=
    open_keyword ":" (by decide) (fun _ _ => rfl) rfl hdefType
  have hdefId : Open .defId [] := open_identifier (fun _ _ => rfl) rfl hdefNext
  have hdefStart : Open .defStart [] :=
    open_keyword "," (by decide) (fun _ _ => rfl) rfl hdefId
  have hvar : Open .var [] :=
    open_keyword "var" (by decide) (fun _ _ => rfl) rfl hdefStart
  have hheaderEnd : Open .headerEnd [] :=
    open_keyword lineBreak (by decide) (fun _ _ => rfl) rfl hvar
  have hprogramName : Open .programName [] :=
    open_identifier (fun _ _ => rfl) rfl hheaderEnd
  have hstart : Open .start [] :=
    open_keyword "program" (by decide) (fun _ _ => rfl) rfl hprogramName
  cases s <;> first
    | cases hs; done
    | assumption

/-- From every state, with a stack that belongs to it, a way leads to the
end. -/
theorem open_of_ready (h : Ready s k) : Open s k := by
  induction k generalizing s with
  | nil => exact open_outer h
  | cons back k ih => exact open_inner (ih h.2) h.1

/-! ## Errors -/

variable {whole tokens r : List Token} {e : SyntaxError}

/-- An error is reported at the first token that nothing accepted
has at its place. -/
theorem exists_refused (hp : Ready p.state p.stack)
    (h : offerAll whole p r = .error e) :
    ∃ u m wanted, r = u ++ m ∧ e = .unexpected wanted whole m.head? ∧
      (∃ v, Accepts p (u ++ v)) ∧
      ∀ t m', m = t :: m' → ∀ v, ¬Accepts p (u ++ t :: v) := by
  induction r generalizing p with
  | nil =>
      unfold offerAll at h
      split at h
      · cases h
      · next wanted _ =>
          obtain ⟨v, hv, -⟩ := open_of_ready hp
          exact ⟨[], [], wanted, rfl, (Except.error.inj h).symm, ⟨v, hv⟩, nofun⟩
  | cons t r ih =>
      unfold offerAll at h
      split at h
      · next q hoffer =>
          obtain ⟨u, m, wanted, rfl, he, ⟨v, hv⟩, hrefused⟩ :=
            ih (ready_offer hp hoffer) h
          refine ⟨t :: u, m, wanted, rfl, he, ⟨v, q, hoffer, hv⟩, ?_⟩
          rintro t' m' hm v ⟨q', hoffer', haccepts⟩
          rw [hoffer] at hoffer'
          cases hoffer'
          exact hrefused t' m' hm v haccepts
      · next wanted hoffer =>
          obtain ⟨v, hv, -⟩ := open_of_ready hp
          refine ⟨[], t :: r, wanted, rfl, (Except.error.inj h).symm,
            ⟨v, hv⟩, ?_⟩
          rintro t' m' hm v ⟨q, htaken, -⟩
          cases hm
          rw [hoffer] at htaken
          cases htaken

theorem accepts_start_iff : Accepts ⟨.start, []⟩ tokens ↔ IsProgram tokens :=
  ⟨fun h => isProgram_iff.mpr (exists_source h),
    fun h => (isProgram_iff.mp h).elim fun _ => accepts_source⟩

/-- What is no program is reported where it stops being one. -/
theorem exists_breaks (h : ¬IsProgram tokens) : ∃ k wanted, Breaks tokens k ∧
    check tokens = .error (.unexpected wanted tokens tokens[k]?) := by
  cases hcheck : check tokens with
  | ok => exact absurd (isProgram_iff.mpr (check_ok_iff.mp hcheck)) h
  | error e =>
      obtain ⟨u, m, wanted, rfl, rfl, ⟨v, hv⟩, hrefused⟩ :=
        exists_refused (p := ⟨.start, []⟩) rfl hcheck
      refine ⟨u.length, wanted, ⟨by simp, ?_, ?_⟩, ?_⟩
      · rw [List.take_left]
        exact ⟨v, accepts_start_iff.mp hv⟩
      · rintro hlt ⟨rest, hprogram⟩
        cases m with
        | nil => simp at hlt
        | cons t m =>
            refine hrefused t m rfl rest (accepts_start_iff.mpr ?_)
            rwa [List.take_length_add_append, List.take_succ_cons,
              List.take_zero, List.append_assoc,
              List.singleton_append] at hprogram
      · rw [List.getElem?_append_right (Nat.le_refl _), Nat.sub_self,
          List.head?_eq_getElem?]

end Pushdown

namespace Language

end Language

end Reckon
