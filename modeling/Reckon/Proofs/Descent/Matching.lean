import Mathlib.Logic.Relation
import Reckon.Proofs.Syntax.Spelling
import Reckon.Recogniser.Pattern

/-!
# What patterns match

A match that succeeds says what the input it has taken looks like, and this is
all that matters for soundness: `Leaves p s r` is the reading of a pattern that
forgets in what order alternatives are tried and when a repetition stops.

That a match succeeds needs the order. `Takes p s r` says that the pattern
takes the input `s` down to `r` and does so wherever the cursor stands,
`Refuses p s` that it fails there. Whether a pattern refuses an input is in the
cases that matter a question about its first word, so the lemmas about
refusal look at nothing else.
-/

namespace Reckon

/-- What a cursor has passed and what it has left: the length of the input. -/
def Cursor.total (c : Cursor) : Nat := c.position + c.rest.length

namespace Pattern

/-! ## What a success says -/

mutual

/-- The pattern may take the input `s` down to `r`. -/
def Leaves : Pattern → List Token → List Token → Prop
  | .keyword text, s, r =>
      ∃ t, s = t :: r ∧ t.lexeme? = some (.keyword text)
  | .keywordOf texts _, s, r =>
      ∃ t, ∃ text ∈ texts, s = t :: r ∧ t.lexeme? = some (.keyword text)
  | .identifier, s, r => ∃ t x, s = t :: r ∧ t.lexeme? = some (.identifier x)
  | .constant, s, r => ∃ t v, s = t :: r ∧ t.lexeme? = some (.constant v)
  | .label, s, r => ∃ t x, s = t :: r ∧ t.lexeme? = some (.label x)
  | .endOfInput, s, r => s = [] ∧ r = []
  | .sequence parts, s, r => LeavesAll parts s r
  | .option part, s, r => r = s ∨ Leaves part s r
  | .repetition part, s, r => Relation.ReflTransGen (Leaves part) s r
  | .choice alternatives _, s, r => LeavesSome alternatives s r

/-- The patterns one behind the other may take `s` down to `r`. -/
def LeavesAll : List Pattern → List Token → List Token → Prop
  | [], s, r => r = s
  | part :: parts, s, r => ∃ m, Leaves part s m ∧ LeavesAll parts m r

/-- One of the patterns may take `s` down to `r`. -/
def LeavesSome : List Pattern → List Token → List Token → Prop
  | [], _, _ => False
  | part :: parts, s, r => Leaves part s r ∨ LeavesSome parts s r

end

theorem take_ok {c d : Cursor} {wanted : Wanted} {test : Token → Bool}
    (h : c.take wanted test = .ok d) :
    (∃ t, c.rest = t :: d.rest ∧ test t = true) ∧ d.total = c.total := by
  unfold Cursor.take at h
  split at h
  · next t rest hrest =>
      split at h
      · next htest =>
          cases h
          refine ⟨⟨t, hrest, htest⟩, ?_⟩
          simp only [Cursor.total, hrest, List.length_cons]
          omega
      · cases h
  · cases h

theorem rounds_ok {round : Cursor → Except Failure Cursor}
    {R : List Token → List Token → Prop}
    (hround : ∀ c d, round c = .ok d → R c.rest d.rest ∧ d.total = c.total)
    (bound : Nat) (c : Cursor) :
    Relation.ReflTransGen R c.rest (rounds round bound c).rest ∧
      (rounds round bound c).total = c.total := by
  induction bound generalizing c with
  | zero => exact ⟨Relation.ReflTransGen.refl, rfl⟩
  | succ bound ih =>
      unfold rounds
      split
      · next next hok =>
          obtain ⟨hstep, htotal⟩ := hround c next hok
          split
          · obtain ⟨hrest, hlater⟩ := ih next
            exact ⟨Relation.ReflTransGen.head hstep hrest, hlater.trans htotal⟩
          · exact ⟨Relation.ReflTransGen.refl, rfl⟩
      · exact ⟨Relation.ReflTransGen.refl, rfl⟩

mutual

/-- A match that succeeds has taken what the pattern says, and moved the cursor
by as many tokens. -/
theorem leaves_of_run (p : Pattern) {c d : Cursor} (h : run p c = .ok d) :
    Leaves p c.rest d.rest ∧ d.total = c.total := by
  cases p with
  | keyword text =>
      obtain ⟨⟨t, hrest, ht⟩, htotal⟩ := take_ok h
      exact ⟨⟨t, hrest, Token.isKeyword_iff.mp ht⟩, htotal⟩
  | keywordOf texts name =>
      obtain ⟨⟨t, hrest, ht⟩, htotal⟩ := take_ok h
      obtain ⟨text, hmem, htext⟩ := List.any_eq_true.mp ht
      exact ⟨⟨t, text, hmem, hrest, Token.isKeyword_iff.mp htext⟩, htotal⟩
  | identifier =>
      obtain ⟨⟨t, hrest, ht⟩, htotal⟩ := take_ok h
      split at ht
      · next x _ _ => exact ⟨⟨_, x, hrest, rfl⟩, htotal⟩
      · cases ht
  | constant =>
      obtain ⟨⟨t, hrest, ht⟩, htotal⟩ := take_ok h
      split at ht
      · next v _ _ => exact ⟨⟨_, v, hrest, rfl⟩, htotal⟩
      · cases ht
  | label =>
      obtain ⟨⟨t, hrest, ht⟩, htotal⟩ := take_ok h
      split at ht
      · next x _ _ => exact ⟨⟨_, x, hrest, rfl⟩, htotal⟩
      · cases ht
  | endOfInput =>
      unfold run at h
      split at h
      · next hempty =>
          cases h
          have hnil := List.isEmpty_iff.mp hempty
          exact ⟨⟨hnil, hnil⟩, rfl⟩
      · cases h
  | sequence parts => exact leavesAll_of_runAll parts h
  | option part =>
      unfold run at h
      split at h
      · next hok =>
          cases h
          obtain ⟨hleaves, htotal⟩ := leaves_of_run part hok
          exact ⟨.inr hleaves, htotal⟩
      · cases h
        exact ⟨.inl rfl, rfl⟩
  | repetition part =>
      unfold run at h
      cases h
      exact rounds_ok (fun c d hok => leaves_of_run part hok) _ c
  | choice alternatives name =>
      unfold run at h
      exact leavesSome_of_runFirst alternatives h

theorem leavesAll_of_runAll (parts : List Pattern) {c d : Cursor}
    (h : runAll parts c = .ok d) :
    LeavesAll parts c.rest d.rest ∧ d.total = c.total := by
  cases parts with
  | nil =>
      cases h
      exact ⟨rfl, rfl⟩
  | cons part parts =>
      unfold runAll at h
      split at h
      · next next hok =>
          obtain ⟨hleaves, htotal⟩ := leaves_of_run part hok
          obtain ⟨hlater, hsame⟩ := leavesAll_of_runAll parts h
          exact ⟨⟨next.rest, hleaves, hlater⟩, hsame.trans htotal⟩
      · cases h

theorem leavesSome_of_runFirst (parts : List Pattern) {name : String}
    {deepest : Option Failure} {c d : Cursor}
    (h : runFirst parts name deepest c = .ok d) :
    LeavesSome parts c.rest d.rest ∧ d.total = c.total := by
  cases parts with
  | nil => cases h
  | cons part parts =>
      unfold runFirst at h
      split at h
      · next next hok =>
          obtain ⟨hleaves, htotal⟩ := leaves_of_run part hok
          injection h with h
          subst h
          cases deepest with
          | none => exact ⟨.inl hleaves, htotal⟩
          | some failure => exact ⟨.inl hleaves, htotal⟩
      · obtain ⟨hlater, htotal⟩ := leavesSome_of_runFirst parts h
        exact ⟨.inr hlater, htotal⟩

end

/-! ## What succeeds and what fails -/

/-- Wherever a cursor stands in front of `s`, the pattern matches and leaves
`r`. -/
def Takes (p : Pattern) (s r : List Token) : Prop :=
  ∀ c : Cursor, c.rest = s → ∃ d, run p c = .ok d ∧ d.rest = r

/-- Wherever a cursor stands in front of `s`, the pattern fails. -/
def Refuses (p : Pattern) (s : List Token) : Prop :=
  ∀ c : Cursor, c.rest = s → ∃ failure, run p c = .error failure

/-- `Takes` for patterns one behind the other. -/
def TakesAll (parts : List Pattern) (s r : List Token) : Prop :=
  ∀ c : Cursor, c.rest = s → ∃ d, runAll parts c = .ok d ∧ d.rest = r

/-- `Takes` for the first alternative that matches. -/
def TakesFirst (parts : List Pattern) (s r : List Token) : Prop :=
  ∀ (c : Cursor) (name : String) (deepest : Option Failure), c.rest = s →
    ∃ d, runFirst parts name deepest c = .ok d ∧ d.rest = r

variable {p : Pattern} {parts rest : List Pattern} {s m r : List Token}

/-- Patterns whose next one fails fail. -/
def RefusesAll (parts : List Pattern) (s : List Token) : Prop :=
  ∀ c : Cursor, c.rest = s → ∃ failure, runAll parts c = .error failure

theorem takes_of_test {wanted : Wanted} {test : Token → Bool} {t : Token}
    (ht : test t = true) {c : Cursor} (hc : c.rest = t :: r) :
    ∃ d, c.take wanted test = .ok d ∧ d.rest = r := by
  refine ⟨{ c with position := c.position + 1, rest := r }, ?_, rfl⟩
  unfold Cursor.take
  rw [hc]
  simp only [ht, if_true]

theorem refuses_of_test {wanted : Wanted} {test : Token → Bool} {c : Cursor}
    (h : ∀ t, c.rest.head? = some t → test t = false) :
    ∃ failure, c.take wanted test = .error failure := by
  refine ⟨c.fail wanted, ?_⟩
  unfold Cursor.take
  split
  · next t rest hrest =>
      have ht := h t (by rw [hrest]; rfl)
      simp only [ht, Bool.false_eq_true, if_false]
  · rfl

theorem takes_keyword {t : Token} {text : String}
    (ht : t.lexeme? = some (.keyword text)) :
    Takes (.keyword text) (t :: r) r :=
  fun _ hc => takes_of_test (Token.isKeyword_iff.mpr ht) hc

theorem refuses_keyword {text : String}
    (h : firstLexeme s ≠ some (.keyword text)) : Refuses (.keyword text) s := by
  intro c hc
  refine refuses_of_test fun t ht => ?_
  rw [hc] at ht
  refine Bool.eq_false_iff.mpr fun htext => h ?_
  unfold firstLexeme
  rw [ht]
  exact Token.isKeyword_iff.mp htext

theorem takes_keywordOf {t : Token} {texts : List String} {text name : String}
    (hmem : text ∈ texts) (ht : t.lexeme? = some (.keyword text)) :
    Takes (.keywordOf texts name) (t :: r) r :=
  fun _ hc => takes_of_test
    (List.any_eq_true.mpr ⟨text, hmem, Token.isKeyword_iff.mpr ht⟩) hc

theorem refuses_keywordOf {texts : List String} {name : String}
    (h : ∀ text ∈ texts, firstLexeme s ≠ some (.keyword text)) :
    Refuses (.keywordOf texts name) s := by
  intro c hc
  refine refuses_of_test fun t ht => ?_
  rw [hc] at ht
  refine Bool.eq_false_iff.mpr fun hany => ?_
  obtain ⟨text, hmem, htext⟩ := List.any_eq_true.mp hany
  refine h text hmem ?_
  unfold firstLexeme
  rw [ht]
  exact Token.isKeyword_iff.mp htext

theorem takes_identifier {t : Token} {x : String}
    (ht : t.lexeme? = some (.identifier x)) : Takes .identifier (t :: r) r := by
  intro c hc
  cases t with
  | phrase parts line => cases ht
  | word lexeme line index =>
      cases ht
      exact takes_of_test rfl hc

theorem refuses_identifier (h : ∀ x, firstLexeme s ≠ some (.identifier x)) :
    Refuses .identifier s := by
  intro c hc
  refine refuses_of_test fun t ht => ?_
  rw [hc] at ht
  split
  · next x _ _ => exact absurd (by unfold firstLexeme; rw [ht]; rfl) (h x)
  · rfl

theorem takes_constant {t : Token} {v : Single}
    (ht : t.lexeme? = some (.constant v)) : Takes .constant (t :: r) r := by
  intro c hc
  cases t with
  | phrase parts line => cases ht
  | word lexeme line index =>
      cases ht
      exact takes_of_test rfl hc

theorem refuses_constant (h : ∀ v, firstLexeme s ≠ some (.constant v)) :
    Refuses .constant s := by
  intro c hc
  refine refuses_of_test fun t ht => ?_
  rw [hc] at ht
  split
  · next v _ _ => exact absurd (by unfold firstLexeme; rw [ht]; rfl) (h v)
  · rfl

theorem takes_label {t : Token} {x : String}
    (ht : t.lexeme? = some (.label x)) : Takes .label (t :: r) r := by
  intro c hc
  cases t with
  | phrase parts line => cases ht
  | word lexeme line index =>
      cases ht
      exact takes_of_test rfl hc

theorem refuses_label (h : ∀ x, firstLexeme s ≠ some (.label x)) :
    Refuses .label s := by
  intro c hc
  refine refuses_of_test fun t ht => ?_
  rw [hc] at ht
  split
  · next x _ _ => exact absurd (by unfold firstLexeme; rw [ht]; rfl) (h x)
  · rfl

theorem takes_endOfInput : Takes .endOfInput [] [] := by
  intro c hc
  refine ⟨c, ?_, hc⟩
  unfold run
  rw [hc]
  rfl

/-! ### Sequence -/

theorem takesAll_nil : TakesAll [] s s := fun c hc => ⟨c, rfl, hc⟩

theorem takesAll_cons (h : Takes p s m) (hrest : TakesAll rest m r) :
    TakesAll (p :: rest) s r := by
  intro c hc
  obtain ⟨d, hd, hm⟩ := h c hc
  obtain ⟨e, he, hr⟩ := hrest d hm
  refine ⟨e, ?_, hr⟩
  unfold runAll
  rw [hd]
  exact he

theorem runAll_append (c : Cursor) : runAll (parts ++ rest) c =
    match runAll parts c with
    | .ok d => runAll rest d
    | .error failure => .error failure := by
  induction parts generalizing c with
  | nil => rfl
  | cons part parts ih =>
      rw [List.cons_append, runAll, runAll]
      cases run part c with
      | ok d => exact ih d
      | error failure => rfl

theorem takesAll_append (h : TakesAll parts s m) (hrest : TakesAll rest m r) :
    TakesAll (parts ++ rest) s r := by
  intro c hc
  obtain ⟨d, hd, hm⟩ := h c hc
  rw [runAll_append, hd]
  exact hrest d hm

theorem takes_sequence (h : TakesAll parts s r) : Takes (.sequence parts) s r :=
  fun c hc => h c hc

theorem refusesAll_head (h : Refuses p s) : RefusesAll (p :: rest) s := by
  intro c hc
  obtain ⟨failure, hfailure⟩ := h c hc
  refine ⟨failure, ?_⟩
  unfold runAll
  rw [hfailure]

theorem refusesAll_tail (h : Takes p s m) (hrest : RefusesAll rest m) :
    RefusesAll (p :: rest) s := by
  intro c hc
  obtain ⟨d, hd, hm⟩ := h c hc
  obtain ⟨failure, hfailure⟩ := hrest d hm
  refine ⟨failure, ?_⟩
  unfold runAll
  rw [hd]
  exact hfailure

theorem refuses_sequence (h : RefusesAll parts s) :
    Refuses (.sequence parts) s :=
  fun c hc => h c hc

/-! ### Option and choice -/

theorem takes_option (h : Takes p s r) : Takes (.option p) s r := by
  intro c hc
  obtain ⟨d, hd, hr⟩ := h c hc
  refine ⟨d, ?_, hr⟩
  unfold run
  rw [hd]

theorem takes_option_nothing (h : Refuses p s) : Takes (.option p) s s := by
  intro c hc
  obtain ⟨failure, hfailure⟩ := h c hc
  refine ⟨c.note failure, ?_, hc⟩
  unfold run
  rw [hfailure]

theorem takesFirst_head (h : Takes p s r) : TakesFirst (p :: rest) s r := by
  intro c name deepest hc
  obtain ⟨d, hd, hr⟩ := h c hc
  unfold runFirst
  rw [hd]
  cases deepest with
  | none => exact ⟨d, rfl, hr⟩
  | some failure => exact ⟨d.note failure, rfl, hr⟩

theorem takesFirst_tail (h : Refuses p s) (hrest : TakesFirst rest s r) :
    TakesFirst (p :: rest) s r := by
  intro c name deepest hc
  obtain ⟨failure, hfailure⟩ := h c hc
  unfold runFirst
  rw [hfailure]
  exact hrest c name _ hc

theorem takes_choice {name : String} (h : TakesFirst parts s r) :
    Takes (.choice parts name) s r :=
  fun c hc => h c name none hc

theorem refuses_choice {name : String} (h : ∀ p ∈ parts, Refuses p s) :
    Refuses (.choice parts name) s := by
  intro c hc
  suffices ∀ deepest, ∃ failure, runFirst parts name deepest c = .error failure
    from this none
  induction parts with
  | nil => exact fun deepest => ⟨_, rfl⟩
  | cons part parts ih =>
      intro deepest
      obtain ⟨failure, hfailure⟩ := h part List.mem_cons_self c hc
      unfold runFirst
      rw [hfailure]
      exact ih (fun q hq => h q (List.mem_cons_of_mem _ hq)) _

/-! ### Repetition -/

theorem takes_repetition_stop (h : Refuses p s) :
    Takes (.repetition p) s s := by
  intro c hc
  obtain ⟨failure, hfailure⟩ := h c hc
  refine ⟨c.note failure, ?_, hc⟩
  unfold run rounds
  rw [hfailure]

/-- A bound beyond the length of the input is never reached. -/
theorem rounds_eq (p : Pattern) {bound other : Nat} {c : Cursor}
    (h : c.rest.length < bound) (hother : c.rest.length < other) :
    rounds (run p) bound c = rounds (run p) other c := by
  induction bound generalizing other c with
  | zero => cases h
  | succ bound ih =>
      obtain ⟨other, rfl⟩ : ∃ n, other = n + 1 := ⟨other - 1, by omega⟩
      rw [rounds, rounds]
      split
      · next next hok =>
          have htotal := (leaves_of_run p hok).2
          simp only [Cursor.total] at htotal
          split
          · exact ih (by omega) (by omega)
          · rfl
      · rfl

theorem takes_repetition_step (h : Takes p s m) (hlt : m.length < s.length)
    (hrest : Takes (.repetition p) m r) : Takes (.repetition p) s r := by
  intro c hc
  obtain ⟨d, hd, hm⟩ := h c hc
  obtain ⟨e, he, hr⟩ := hrest d hm
  have htotal := (leaves_of_run p hd).2
  simp only [Cursor.total, hc, hm] at htotal
  refine ⟨e, ?_, hr⟩
  rw [run] at he ⊢
  rw [← he, rounds, hd]
  simp only [if_pos (show c.position < d.position by omega)]
  exact congrArg Except.ok (rounds_eq p (by rw [hm, hc]; omega) (by omega))

end Pattern

end Reckon
