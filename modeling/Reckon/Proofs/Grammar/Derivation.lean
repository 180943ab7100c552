import Mathlib.Logic.Relation
import Reckon.Grammar.Basic

/-!
# Derivations

A grammar derives one row of symbols from another by replacing left-hand sides
with right-hand sides, one at a time. Two ways of saying the same thing stand
beside that here.

`RightmostBy` fixes the order: always the last nonterminal, with the list of
productions used. It is what an automaton that reduces from the left leaves
behind when its reductions are read backwards.

`Generates` forgets the order and keeps the nesting: the first symbol of a row
generates a beginning of the sentence and the others the rest. Proofs about
recognisers go by induction on it. `derives_iff_generates` says that it is no
other notion: what a row generates are the rows of terminals it derives.
-/

namespace Reckon

theorem Symbol.isTerminal_eq_false {s : Symbol}
    (h : s.isNonterminal = true) : s.isTerminal = false := by
  cases s <;> first | rfl | cases h

namespace Grammar

variable {g : Grammar} {a b u v w : List Symbol}

/-- One left-hand side is replaced by one of its right-hand sides. -/
def Rewrites (g : Grammar) (a b : List Symbol) : Prop :=
  ∃ p ∈ g.productions, ∃ before after,
    a = before ++ p.lhs :: after ∧ b = before ++ p.rhs ++ after

/-- Any number of replacements. -/
def Derives (g : Grammar) : List Symbol → List Symbol → Prop :=
  Relation.ReflTransGen g.Rewrites

/-- A row of terminals. -/
def Sentence (w : List Symbol) : Prop := ∀ s ∈ w, s.isTerminal = true

/-- Replacements by the listed productions, each of the last nonterminal. -/
inductive RightmostBy (g : Grammar) :
    List (Symbol × List Symbol) → List Symbol → List Symbol → Prop where
  | nil (a : List Symbol) : RightmostBy g [] a a
  | cons {p : Production} {before after target : List Symbol}
      {later : List (Symbol × List Symbol)} :
      p ∈ g.productions → Sentence after →
      RightmostBy g later (before ++ p.rhs ++ after) target →
      RightmostBy g ((p.lhs, p.rhs) :: later) (before ++ p.lhs :: after) target

/-- A row of symbols and a sentence that it stands for: each terminal for
itself, each left-hand side for what one of its right-hand sides stands
for. -/
inductive Generates (g : Grammar) : List Symbol → List Symbol → Prop where
  | nil : Generates g [] []
  | terminal {t : Symbol} {rest w : List Symbol} :
      t.isTerminal = true → Generates g rest w →
      Generates g (t :: rest) (t :: w)
  | production {p : Production} {rest u v : List Symbol} :
      p ∈ g.productions → Generates g p.rhs u → Generates g rest v →
      Generates g (p.lhs :: rest) (u ++ v)

/-! ## The order forgotten -/

theorem RightmostBy.derives {steps : List (Symbol × List Symbol)}
    (h : RightmostBy g steps a b) : g.Derives a b := by
  induction h with
  | nil a => exact Relation.ReflTransGen.refl
  | cons hp _ _ ih =>
      exact Relation.ReflTransGen.head ⟨_, hp, _, _, rfl, rfl⟩ ih

/-- One more replacement at the end. -/
theorem RightmostBy.snoc {steps : List (Symbol × List Symbol)}
    {p : Production} {before after : List Symbol}
    (h : RightmostBy g steps a (before ++ p.lhs :: after))
    (hp : p ∈ g.productions) (hafter : Sentence after) :
    RightmostBy g (steps ++ [(p.lhs, p.rhs)]) a
      (before ++ p.rhs ++ after) := by
  generalize htarget : before ++ p.lhs :: after = target at h
  induction h with
  | nil a =>
      subst htarget
      exact RightmostBy.cons hp hafter (RightmostBy.nil _)
  | cons hq hsentence _ ih =>
      exact RightmostBy.cons hq hsentence (ih htarget)

/-! ## The nesting -/

theorem Generates.append (ha : Generates g a u) (hb : Generates g b v) :
    Generates g (a ++ b) (u ++ v) := by
  induction ha with
  | nil => exact hb
  | terminal ht _ ih => exact Generates.terminal ht ih
  | production hp hrhs _ _ ih =>
      rw [List.append_assoc]
      exact Generates.production hp hrhs ih

theorem Generates.split (h : Generates g (a ++ b) w) :
    ∃ u v, w = u ++ v ∧ Generates g a u ∧ Generates g b v := by
  generalize hform : a ++ b = form at h
  induction h generalizing a with
  | nil =>
      obtain ⟨rfl, rfl⟩ := List.append_eq_nil_iff.mp hform
      exact ⟨[], [], rfl, Generates.nil, Generates.nil⟩
  | @terminal t rest w ht hrest ih =>
      cases a with
      | nil =>
          subst hform
          exact ⟨[], t :: w, rfl, Generates.nil, Generates.terminal ht hrest⟩
      | cons s a =>
          obtain ⟨rfl, htail⟩ := List.cons_eq_cons.mp hform
          obtain ⟨u, v, rfl, hu, hv⟩ := ih htail
          exact ⟨s :: u, v, rfl, Generates.terminal ht hu, hv⟩
  | @production p rest u v hp hu hv _ ih =>
      cases a with
      | nil =>
          subst hform
          exact ⟨[], u ++ v, rfl, Generates.nil, Generates.production hp hu hv⟩
      | cons s a =>
          obtain ⟨rfl, htail⟩ := List.cons_eq_cons.mp hform
          obtain ⟨v₁, v₂, rfl, h₁, h₂⟩ := ih htail
          exact ⟨u ++ v₁, v₂, (List.append_assoc u v₁ v₂).symm,
            Generates.production hp hu h₁, h₂⟩

theorem Generates.of_sentence (hw : Sentence w) : Generates g w w := by
  induction w with
  | nil => exact Generates.nil
  | cons s w ih =>
      exact Generates.terminal (hw s List.mem_cons_self)
        (ih fun t ht => hw t (List.mem_cons_of_mem s ht))

/-- One symbol, by one of its productions. -/
theorem Generates.of_production {p : Production} (hp : p ∈ g.productions)
    (h : Generates g p.rhs w) : Generates g [p.lhs] w := by
  have := Generates.production hp h Generates.nil
  rwa [List.append_nil] at this

theorem Generates.of_rewrites (h : g.Rewrites a b) (hb : Generates g b w) :
    Generates g a w := by
  obtain ⟨p, hp, before, after, rfl, rfl⟩ := h
  obtain ⟨u, v, rfl, hu, hv⟩ := hb.split
  obtain ⟨u₁, u₂, rfl, h₁, h₂⟩ := hu.split
  rw [List.append_assoc]
  exact h₁.append (Generates.production hp h₂ hv)

theorem Derives.append_left (h : g.Derives a b) (before : List Symbol) :
    g.Derives (before ++ a) (before ++ b) := by
  refine Relation.ReflTransGen.lift (before ++ ·) ?_ _ _ h
  rintro _ _ ⟨p, hp, x, y, rfl, rfl⟩
  exact ⟨p, hp, before ++ x, y, by simp, by simp⟩

theorem Derives.append_right (h : g.Derives a b) (after : List Symbol) :
    g.Derives (a ++ after) (b ++ after) := by
  refine Relation.ReflTransGen.lift (· ++ after) ?_ _ _ h
  rintro _ _ ⟨p, hp, x, y, rfl, rfl⟩
  exact ⟨p, hp, x, y ++ after, by simp, by simp⟩

theorem Generates.derives (h : Generates g a w) : g.Derives a w := by
  induction h with
  | nil => exact Relation.ReflTransGen.refl
  | @terminal t _ _ _ _ ih => exact ih.append_left [t]
  | @production p rest u v hp _ _ ihu ihv =>
      have hfirst : g.Rewrites (p.lhs :: rest) (p.rhs ++ rest) :=
        ⟨p, hp, [], rest, rfl, rfl⟩
      exact Relation.ReflTransGen.head hfirst
        ((ihu.append_right rest).trans (ihv.append_left u))

/-- The sentences that a row derives are those it generates. -/
theorem derives_iff_generates (hw : Sentence w) :
    g.Derives a w ↔ Generates g a w := by
  refine ⟨fun h => ?_, Generates.derives⟩
  induction h using Relation.ReflTransGen.head_induction_on with
  | refl => exact Generates.of_sentence hw
  | head hstep _ ih => exact ih.of_rewrites hstep

/-- A symbol generates what the right-hand side of one of its productions
does. -/
theorem generates_singleton_iff {s : Symbol} (hs : s.isTerminal = false) :
    Generates g [s] w ↔
      ∃ p ∈ g.productions, p.lhs = s ∧ Generates g p.rhs w := by
  constructor
  · intro h
    generalize hform : [s] = form at h
    cases h with
    | nil => cases hform
    | terminal ht _ =>
        obtain ⟨rfl, -⟩ := List.cons_eq_cons.mp hform
        rw [ht] at hs
        cases hs
    | production hp hu hv =>
        obtain ⟨rfl, rfl⟩ := List.cons_eq_cons.mp hform
        cases hv
        rw [List.append_nil]
        exact ⟨_, hp, rfl, hu⟩
  · rintro ⟨p, hp, rfl, h⟩
    exact Generates.of_production hp h

end Grammar

end Reckon
