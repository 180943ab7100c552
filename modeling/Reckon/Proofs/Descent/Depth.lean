import Reckon.Proofs.Descent.Looking
import Reckon.Recogniser.Descent

/-!
# How deep patterns have to be

A pattern of the language is unfolded to a depth, and that it matches nothing
deeper is no loss: whatever is nested takes a token in front of it, so on an
input that is shorter than a pattern is deep no match comes to where the pattern
ends. Two depths beyond the length of the input are therefore the same, failures
and all.

Since every round of a repetition starts with a token of its own, the patterns
of the language are also steady, and what they look at is known.
-/

namespace Reckon

namespace Pattern

/-- Two patterns that cannot be told apart by inputs that are not too long. -/
def Agrees (n : Nat) (p q : Pattern) : Prop :=
  ∀ c : Cursor, c.rest.length < n → run p c = run q c

/-- `Agrees` for patterns one by one. -/
inductive AgreesAll (n : Nat) : List Pattern → List Pattern → Prop where
  | nil : AgreesAll n [] []
  | same {ps qs : List Pattern} (p : Pattern) :
      AgreesAll n ps qs → AgreesAll n (p :: ps) (p :: qs)
  | cons {p q : Pattern} {ps qs : List Pattern} :
      Agrees n p q → AgreesAll n ps qs → AgreesAll n (p :: ps) (q :: qs)

variable {n : Nat} {p q : Pattern} {ps qs : List Pattern}

theorem Agrees.mono {m : Nat} (h : Agrees n p q) (hle : m ≤ n) : Agrees m p q :=
  fun c hc => h c (Nat.lt_of_lt_of_le hc hle)

/-- What a match leaves is not longer than what it was given. -/
theorem length_rest_le {c d : Cursor} (h : run p c = .ok d) :
    d.rest.length ≤ c.rest.length := by
  have honward := onward_run p c
  have htotal := (leaves_of_run p h).2
  rw [h] at honward
  have := honward.1
  simp only [Cursor.total] at htotal
  omega

theorem length_rest_lt {c d : Cursor} (hp : Moves p) (h : run p c = .ok d) :
    d.rest.length < c.rest.length := by
  have hmove := hp c d h
  have htotal := (leaves_of_run p h).2
  simp only [Cursor.total] at htotal
  omega

theorem runAll_agrees (h : AgreesAll n ps qs) :
    ∀ c : Cursor, c.rest.length < n → runAll ps c = runAll qs c := by
  induction h with
  | nil => exact fun _ _ => rfl
  | same part _ ih =>
      intro c hc
      unfold runAll
      split
      · next d hd => exact ih d (Nat.lt_of_le_of_lt (length_rest_le hd) hc)
      · rfl
  | cons hpart _ ih =>
      intro c hc
      unfold runAll
      rw [← hpart c hc]
      split
      · next d hd => exact ih d (Nat.lt_of_le_of_lt (length_rest_le hd) hc)
      · rfl

theorem Agrees.sequence (h : AgreesAll n ps qs) :
    Agrees n (.sequence ps) (.sequence qs) := runAll_agrees h

/-- Behind a token there is less left to agree on. -/
theorem Agrees.behind {p : Pattern} (hp : Moves p) (h : AgreesAll n ps qs) :
    Agrees (n + 1) (.sequence (p :: ps)) (.sequence (p :: qs)) := by
  intro c hc
  show runAll (p :: ps) c = runAll (p :: qs) c
  unfold runAll
  split
  · next d hd =>
      have hshorter := length_rest_lt hp hd
      exact runAll_agrees h d (by omega)
  · rfl

theorem Agrees.repetition (h : Agrees n p q) :
    Agrees n (.repetition p) (.repetition q) := by
  intro c hc
  suffices ∀ bound (c : Cursor), c.rest.length < n →
      rounds (run p) bound c = rounds (run q) bound c from
    congrArg Except.ok (this _ c hc)
  intro bound
  induction bound with
  | zero => exact fun _ _ => rfl
  | succ bound ih =>
      intro c hc
      unfold rounds
      rw [← h c hc]
      split
      · next d hd =>
          split
          · exact ih d (Nat.lt_of_le_of_lt (length_rest_le hd) hc)
          · rfl
      · rfl

theorem Agrees.choice {name : String} (h : AgreesAll n ps qs) :
    Agrees n (.choice ps name) (.choice qs name) := by
  intro c hc
  suffices ∀ deepest,
      runFirst ps name deepest c = runFirst qs name deepest c from
    this none
  induction h with
  | nil => exact fun _ => rfl
  | same part _ ih =>
      intro deepest
      unfold runFirst
      split
      · rfl
      · exact ih _
  | cons hpart _ ih =>
      intro deepest
      unfold runFirst
      rw [← hpart c hc]
      split
      · rfl
      · exact ih _

end Pattern

namespace Descent

open Pattern

variable {n depth depth' : Nat} {p q e e' c c' : Pattern}

theorem agrees_between {opening closing : String} (h : Agrees n p q) :
    Agrees (n + 1) (between opening closing p) (between opening closing q) :=
  .behind (moves_keyword opening) (.cons h (.same _ .nil))

theorem agrees_separated (h : Agrees n p q) (separator : Pattern) :
    Agrees n (separated p separator) (separated q separator) :=
  .sequence (.cons h (.cons
    (.repetition (.sequence (.same _ (.cons h .nil)))) .nil))

theorem agrees_term (h : Agrees n p q) : Agrees (n + 1) (term p) (term q) :=
  agrees_separated (.choice (.same _ (.same _
    (.cons (agrees_between h) .nil)))) _

theorem agrees_expression (n : Nat) : ∀ {depth depth' : Nat}, n ≤ depth →
    n ≤ depth' → Agrees n (expression depth) (expression depth') := by
  induction n with
  | zero => exact fun _ _ c hc => absurd hc (Nat.not_lt_zero _)
  | succ n ih =>
      intro depth depth' h h'
      obtain ⟨depth, rfl⟩ : ∃ k, depth = k + 1 := ⟨depth - 1, by omega⟩
      obtain ⟨depth', rfl⟩ : ∃ k, depth' = k + 1 := ⟨depth' - 1, by omega⟩
      have hterm :=
        agrees_term (ih (show n ≤ depth by omega) (show n ≤ depth' by omega))
      exact .sequence (.same _ (.cons hterm (.cons
        (.repetition (.sequence (.same _ (.cons hterm .nil)))) .nil)))

theorem agrees_condition (h : Agrees n p q) :
    Agrees n (condition p) (condition q) :=
  agrees_separated (agrees_separated h _) _

theorem agrees_logicalFactor {n : Nat} : ∀ {depth depth' : Nat}, Agrees n e e' →
    n ≤ depth → n ≤ depth' →
      Agrees n (logicalFactor e depth) (logicalFactor e' depth') := by
  induction n with
  | zero => exact fun _ _ _ c hc => absurd hc (Nat.not_lt_zero _)
  | succ n ih =>
      intro depth depth' he h h'
      obtain ⟨depth, rfl⟩ : ∃ k, depth = k + 1 := ⟨depth - 1, by omega⟩
      obtain ⟨depth', rfl⟩ : ∃ k, depth' = k + 1 := ⟨depth' - 1, by omega⟩
      have hinner := ih (he.mono (Nat.le_succ n)) (show n ≤ depth by omega)
        (show n ≤ depth' by omega)
      have hcomparison : Agrees (n + 1) (comparison e) (comparison e') :=
        .sequence (.cons he (.same _ (.cons he .nil)))
      exact .choice (.cons (agrees_between (agrees_condition hinner))
        (.cons (.behind (moves_keyword "!") (.cons hinner .nil))
          (.cons hcomparison .nil)))

theorem agrees_statements (h : Agrees n p q) :
    Agrees n (statements p) (statements q) := by
  have hstatement : Agrees n (statement p) (statement q) :=
    .choice (.cons (.sequence (.same _ (.same _ (.cons h .nil))))
      (.cons h .nil))
  exact .sequence (.same _ (.cons hstatement (.cons
    (.repetition (.sequence (.same _ (.cons hstatement .nil))))
    (.same _ .nil))))

theorem agrees_unlabelled {n : Nat} : ∀ {depth depth' : Nat}, Agrees n e e' →
    Agrees n c c' → n ≤ depth → n ≤ depth' →
      Agrees n (unlabelled e c depth) (unlabelled e' c' depth') := by
  induction n with
  | zero => exact fun _ _ _ _ c hc => absurd hc (Nat.not_lt_zero _)
  | succ n ih =>
      intro depth depth' he hc h h'
      obtain ⟨depth, rfl⟩ : ∃ k, depth = k + 1 := ⟨depth - 1, by omega⟩
      obtain ⟨depth', rfl⟩ : ∃ k, depth' = k + 1 := ⟨depth' - 1, by omega⟩
      have hshorter := he.mono (Nat.le_succ n)
      have hbody := agrees_statements (ih hshorter (hc.mono (Nat.le_succ n))
        (show n ≤ depth by omega) (show n ≤ depth' by omega))
      have hassignment : Agrees (n + 1) (assignment e) (assignment e') :=
        .sequence (.same _ (.same _ (.cons he .nil)))
      have hloop : Agrees (n + 1) (loop e (statements (unlabelled e c depth)))
          (loop e' (statements (unlabelled e' c' depth'))) :=
        .behind (moves_keyword "do") (.same _ (.same _
          (.cons hshorter (.same _ (.cons hshorter
            (.cons hbody (.same _ .nil)))))))
      have hjump : Agrees (n + 1) (jump c) (jump c') :=
        .sequence (.same _ (.cons hc (.same _ (.same _
          (.same _ .nil)))))
      exact .choice (.cons hassignment (.same _ (.same _
        (.cons hloop (.cons hjump .nil)))))

/-- Depths that are not below the length of an input make no
difference to it. -/
theorem agrees_program {depth depth' : Nat} (h : n ≤ depth) (h' : n ≤ depth') :
    Agrees n (program depth) (program depth') := by
  have he := agrees_expression n h h'
  have hbody := agrees_statements (agrees_unlabelled he
    (agrees_condition (agrees_logicalFactor he h h')) h h')
  exact .sequence (.same _ (.same _ (.same _
    (.same _ (.same _ (.same _ (.same _
      (.cons hbody (.same _ (.same _ .nil))))))))))

/-! ## Steadiness -/

theorem steady_separated {separator : Pattern} (hp : Steady p)
    (hs : Steady separator) (hmoves : Moves separator) :
    Steady (separated p separator) :=
  ⟨hp, ⟨⟨hs, hp, trivial⟩, moves_sequence hmoves _⟩, trivial⟩

theorem steady_term (he : Steady e) : Steady (term e) :=
  steady_separated ⟨trivial, trivial, ⟨trivial, he, trivial, trivial⟩,
    trivial⟩ trivial
    (moves_keywordOf _ _)

theorem steady_expression : ∀ depth, Steady (expression depth)
  | 0 => trivial
  | depth + 1 => by
      have hterm := steady_term (steady_expression depth)
      exact ⟨trivial, hterm, ⟨⟨trivial, hterm, trivial⟩,
        moves_sequence (moves_keywordOf _ _) _⟩, trivial⟩

theorem steady_condition (hp : Steady p) : Steady (condition p) :=
  steady_separated (steady_separated hp trivial (moves_keyword _)) trivial
    (moves_keyword _)

theorem steady_logicalFactor (he : Steady e) :
    ∀ depth, Steady (logicalFactor e depth)
  | 0 => trivial
  | depth + 1 => by
      have hinner := steady_logicalFactor he depth
      exact ⟨⟨trivial, steady_condition hinner, trivial, trivial⟩,
        ⟨trivial, hinner, trivial⟩, ⟨he, trivial, he, trivial⟩, trivial⟩

theorem steady_identifiers : Steady identifiers :=
  ⟨trivial, trivial, ⟨⟨trivial, trivial, trivial⟩,
    moves_sequence (moves_keyword ",") _⟩, trivial⟩

theorem steady_statements (hp : Steady p) : Steady (statements p) := by
  have hstatement : Steady (statement p) :=
    ⟨⟨trivial, trivial, hp, trivial⟩, hp, trivial⟩
  exact ⟨trivial, hstatement, ⟨⟨trivial, hstatement, trivial⟩,
    moves_sequence (moves_keyword lineBreak) _⟩, trivial, trivial⟩

theorem steady_unlabelled (he : Steady e) (hc : Steady c) :
    ∀ depth, Steady (unlabelled e c depth)
  | 0 => trivial
  | depth + 1 => by
      have hbody := steady_statements (steady_unlabelled he hc depth)
      have htransfer : ∀ keyword, Steady (transfer keyword) := fun _ =>
        ⟨trivial, ⟨trivial, steady_identifiers, trivial, trivial⟩, trivial⟩
      exact ⟨⟨trivial, trivial, he, trivial⟩, htransfer _, htransfer _,
        ⟨trivial, trivial, trivial, he, trivial, he, hbody, trivial, trivial⟩,
        ⟨trivial, hc, trivial, trivial, trivial, trivial⟩, trivial⟩

theorem steady_program (depth : Nat) : Steady (program depth) := by
  have he := steady_expression depth
  have hbody := steady_statements (steady_unlabelled he
    (steady_condition (steady_logicalFactor he depth)) depth)
  have hdefinition : Steady definition :=
    ⟨steady_identifiers, trivial, trivial, trivial⟩
  exact ⟨trivial, trivial, trivial, trivial,
    steady_separated hdefinition trivial (moves_keyword ";"), trivial,
    trivial, hbody, trivial, trivial, trivial⟩

end Descent

end Reckon
