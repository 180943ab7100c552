import Reckon.Proofs.Descent.Matching
import Reckon.Proofs.Syntax.Tree
import Reckon.Recogniser.Descent

/-!
# What the patterns of the language match

Everything that a pattern of the language takes is spelled by a tree of the
kind that it is for, whatever depth it is unfolded to. A repetition hands over
the tree of what it has read so far and extends it round by round, so lists come
out grouped to the left.
-/

namespace Reckon.Descent

open Pattern

variable {s m r : List Token}

/-- Whatever the pattern takes is spelled by one of the trees. -/
def Sound {α : Type} (lexemes : α → List Lexeme) (p : Pattern) : Prop :=
  ∀ s r, Leaves p s r → ∃ t : α, Reads s (lexemes t) r

/-! ## Arithmetic and conditions -/

theorem sound_between {α : Type} {lexemes : α → List Lexeme}
    {opening closing : String} {inner : Pattern} (h : Sound lexemes inner)
    (hleaves : Leaves (between opening closing inner) s r) :
    ∃ t : α,
      Reads s (.keyword opening :: (lexemes t ++ [.keyword closing])) r := by
  obtain ⟨_, ⟨t, rfl, ht⟩, _, hinner, _, ⟨u, rfl, hu⟩, rfl⟩ := hleaves
  obtain ⟨x, hx⟩ := h _ _ hinner
  exact ⟨x, (hx.append (Reads.one hu)).cons ht⟩

/-- A repetition extends the list in front of it. -/
theorem exists_chain_of_leaves {l : Level} {separator item : Pattern}
    (hseparator : Sound (fun o : l.Operator => [.keyword o.val.text]) separator)
    (hitem : Sound (fun b : Formula l.below => b.lexemes) item)
    (a : Formula (.chain l)) (ha : Reads s a.lexemes m)
    (h : Leaves (.repetition (.sequence [separator, item])) m r) :
    ∃ e : Formula (.chain l), Reads s e.lexemes r := by
  rw [Leaves] at h
  induction h with
  | refl => exact ⟨a, ha⟩
  | tail _ hround ih =>
      obtain ⟨e, he⟩ := ih
      obtain ⟨_, ho, _, hb, rfl⟩ := hround
      obtain ⟨o, ho⟩ := hseparator _ _ ho
      obtain ⟨b, hb⟩ := hitem _ _ hb
      exact ⟨.join e o b, he.append (ho.append hb)⟩

theorem sound_separated {l : Level} {separator item : Pattern}
    (hseparator : Sound (fun o : l.Operator => [.keyword o.val.text]) separator)
    (hitem : Sound (fun b : Formula l.below => b.lexemes) item) :
    Sound (fun e : Formula (.chain l) => e.lexemes)
      (separated item separator) := by
  rintro s r ⟨_, hfirst, _, hothers, rfl⟩
  obtain ⟨a, ha⟩ := hitem _ _ hfirst
  exact exists_chain_of_leaves hseparator hitem (.only a) ha hothers

theorem sound_operator {l : Level} {texts : List String} {name : String}
    (h : texts = l.operators.map Binary.text) :
    Sound (fun o : l.Operator => [.keyword o.val.text])
      (.keywordOf texts name) := by
  rintro s r ⟨t, text, hmem, rfl, ht⟩
  rw [h] at hmem
  obtain ⟨o, ho, rfl⟩ := List.mem_map.mp hmem
  exact ⟨⟨o, ho⟩, Reads.one ht⟩

theorem sound_joiner {l : Level} (o : l.Operator) :
    Sound (fun o : l.Operator => [.keyword o.val.text])
      (.keyword o.val.text) := by
  rintro s r ⟨t, rfl, ht⟩
  exact ⟨o, Reads.one ht⟩

theorem sound_factor {inner : Pattern}
    (h : Sound (fun e : Expression => e.lexemes) inner) :
    Sound (fun e : Formula .factor => e.lexemes) (factor inner) := by
  rintro s r (⟨t, x, rfl, ht⟩ | ⟨t, v, rfl, ht⟩ | hgroup | hnone)
  · exact ⟨.name x, Reads.one ht⟩
  · exact ⟨.constant v, Reads.one ht⟩
  · obtain ⟨e, he⟩ := sound_between h hgroup
    exact ⟨.group e, he⟩
  · exact hnone.elim

theorem sound_term {inner : Pattern}
    (h : Sound (fun e : Expression => e.lexemes) inner) :
    Sound (fun e : Formula (.chain .product) => e.lexemes) (term inner) :=
  sound_separated (sound_operator rfl) (sound_factor h)

theorem sound_expression (depth : Nat) :
    Sound (fun e : Expression => e.lexemes) (expression depth) := by
  induction depth with
  | zero =>
      rintro s r hnone
      exact hnone.elim
  | succ depth ih =>
      rintro s r ⟨_, hsign, _, hfirst, _, hothers, rfl⟩
      have hterm := sound_term ih
      obtain ⟨p, hp⟩ := hterm _ _ hfirst
      have hadd : Sound (fun o : Level.sum.Operator => [.keyword o.val.text])
          (.keywordOf ["+", "-"] "'+' or '-'") := sound_operator rfl
      rcases hsign with rfl | ⟨t, rfl, ht⟩
      · exact exists_chain_of_leaves hadd hterm (.only p) hp hothers
      · exact exists_chain_of_leaves hadd hterm (.negated p)
          (hp.cons ht) hothers

theorem sound_comparator {name : String} :
    Sound (fun o : Comparison => [.keyword o.val.text])
      (.keywordOf Language.relationalOperators name) := by
  rintro s r ⟨t, text, hmem, rfl, ht⟩
  have htexts : Language.relationalOperators =
    Binary.comparisons.map Binary.text := rfl
  rw [htexts] at hmem
  obtain ⟨o, ho, rfl⟩ := List.mem_map.mp hmem
  exact ⟨⟨o, ho⟩, Reads.one ht⟩

theorem sound_comparison {inner : Pattern}
    (h : Sound (fun e : Expression => e.lexemes) inner)
    (hleaves : Leaves (comparison inner) s r) :
    ∃ t : Formula .test, Reads s t.lexemes r := by
  obtain ⟨_, ha, _, ho, _, hb, rfl⟩ := hleaves
  obtain ⟨a, ha⟩ := h _ _ ha
  obtain ⟨o, ho⟩ := sound_comparator _ _ ho
  obtain ⟨b, hb⟩ := h _ _ hb
  exact ⟨.compare a o b, ha.append (ho.append hb)⟩

theorem sound_condition {inner : Pattern}
    (h : Sound (fun t : Formula .test => t.lexemes) inner) :
    Sound (fun c : Condition => c.lexemes) (condition inner) :=
  sound_separated (sound_joiner ⟨.or, by decide⟩)
    (sound_separated (sound_joiner ⟨.and, by decide⟩) h)

theorem sound_logicalFactor {inner : Pattern}
    (h : Sound (fun e : Expression => e.lexemes) inner) (depth : Nat) :
    Sound (fun t : Formula .test => t.lexemes) (logicalFactor inner depth) := by
  induction depth with
  | zero =>
      rintro s r hnone
      exact hnone.elim
  | succ depth ih =>
      rintro s r (hbracket | ⟨_, ⟨t, rfl, ht⟩, _, hturned, rfl⟩
        | hcompare | hnone)
      · obtain ⟨c, hc⟩ := sound_between (sound_condition ih) hbracket
        exact ⟨.bracket c, hc⟩
      · obtain ⟨a, ha⟩ := ih _ _ hturned
        exact ⟨.not a, ha.cons ht⟩
      · exact sound_comparison h hcompare
      · exact hnone.elim

/-! ## Statements -/

theorem sound_identifiers : Sound Names.lexemes identifiers := by
  rintro s r ⟨_, ⟨t, rfl, ht⟩, _, ⟨u, x, rfl, hu⟩, _, hothers, rfl⟩
  rw [Leaves] at hothers
  suffices ∃ others, Reads (t :: u :: _) (Names.lexemes ⟨x, others⟩) r by
    obtain ⟨others, h⟩ := this
    exact ⟨⟨x, others⟩, h⟩
  induction hothers with
  | refl => exact ⟨[], ((Reads.one hu).cons ht)⟩
  | tail _ hround ih =>
      obtain ⟨others, h⟩ := ih
      obtain ⟨_, ⟨t, rfl, ht⟩, _, ⟨u, y, rfl, hu⟩, rfl⟩ := hround
      refine ⟨others ++ [y], ?_⟩
      have hlexemes : Names.lexemes ⟨x, others ++ [y]⟩ =
          Names.lexemes ⟨x, others⟩ ++ [.keyword ",", .identifier y] := by
        simp [Names.lexemes, Names.toList]
      rw [hlexemes]
      exact h.append ((Reads.one hu).cons ht)

theorem sound_transfer (kind : Transfer)
    (hleaves : Leaves (transfer kind.keyword) s r) :
    ∃ t : Stmt .bare, Reads s t.lexemes r := by
  obtain ⟨_, ⟨t, rfl, ht⟩, _, hnames, rfl⟩ := hleaves
  obtain ⟨n, hn⟩ := sound_between sound_identifiers hnames
  exact ⟨.transfer kind n, hn.cons ht⟩

theorem sound_statement {inner : Pattern}
    (h : Sound (fun t : Stmt .bare => t.lexemes) inner) :
    Sound (fun t : Stmt .line => t.lexemes) (statement inner) := by
  rintro s r (⟨_, ⟨t, x, rfl, ht⟩, _, ⟨u, rfl, hu⟩, _, hbare, rfl⟩
    | hbare | hnone)
  · obtain ⟨a, ha⟩ := h _ _ hbare
    exact ⟨.labelled x a, (ha.cons hu).cons ht⟩
  · obtain ⟨a, ha⟩ := h _ _ hbare
    exact ⟨.plain a, ha⟩
  · exact hnone.elim

theorem sound_statements {inner : Pattern}
    (h : Sound (fun t : Stmt .bare => t.lexemes) inner) :
    Sound (fun t : Stmt .block => t.lexemes ++ [.keyword lineBreak])
      (statements inner) := by
  rintro s r ⟨_, ⟨t, rfl, ht⟩, _, hfirst, _, hothers, _, ⟨u, rfl, hu⟩, rfl⟩
  have hline := sound_statement h
  rw [Leaves] at hothers
  suffices ∃ b : Stmt .block, Reads (t :: _) b.lexemes (u :: r) by
    obtain ⟨b, hb⟩ := this
    exact ⟨b, hb.append (Reads.one hu)⟩
  generalize u :: r = q at hothers
  induction hothers with
  | refl =>
      obtain ⟨a, ha⟩ := hline _ _ hfirst
      exact ⟨.one a, ha.cons ht⟩
  | tail _ hround ih =>
      obtain ⟨b, hb⟩ := ih
      obtain ⟨_, ⟨t, rfl, ht⟩, _, hnext, rfl⟩ := hround
      obtain ⟨a, ha⟩ := hline _ _ hnext
      exact ⟨.more b a, hb.append (ha.cons ht)⟩

theorem sound_unlabelled {e c : Pattern}
    (he : Sound (fun e : Expression => e.lexemes) e)
    (hc : Sound (fun c : Condition => c.lexemes) c) (depth : Nat) :
    Sound (fun t : Stmt .bare => t.lexemes) (unlabelled e c depth) := by
  induction depth with
  | zero =>
      rintro s r hnone
      exact hnone.elim
  | succ depth ih =>
      rintro s r (hassign | hread | hwrite | hloop | hjump | hnone)
      · obtain ⟨_, ⟨t, x, rfl, ht⟩, _, ⟨u, rfl, hu⟩, _, hvalue, rfl⟩ := hassign
        obtain ⟨a, ha⟩ := he _ _ hvalue
        exact ⟨.assign x a, (ha.cons hu).cons ht⟩
      · exact sound_transfer .read hread
      · exact sound_transfer .write hwrite
      · obtain ⟨_, ⟨t₁, rfl, h₁⟩, _, ⟨t₂, x, rfl, h₂⟩, _, ⟨t₃, rfl, h₃⟩,
          _, hfirst, _, ⟨t₄, rfl, h₄⟩, _, hlast, _, hbody, _, ⟨t₅, rfl, h₅⟩,
          rfl⟩ := hloop
        obtain ⟨first, hfirst⟩ := he _ _ hfirst
        obtain ⟨last, hlast⟩ := he _ _ hlast
        obtain ⟨body, hbody⟩ := sound_statements ih _ _ hbody
        obtain ⟨_, hblock, hbreak⟩ := reads_append_iff.mp hbody
        have hend := hblock.append (hbreak.append (Reads.one h₅))
        have hlimit := hfirst.append ((hlast.append hend).cons h₄)
        exact ⟨.loop x first last body, ((hlimit.cons h₃).cons h₂).cons h₁⟩
      · obtain ⟨_, ⟨t₁, rfl, h₁⟩, _, htest, _, ⟨t₂, rfl, h₂⟩, _, ⟨t₃, rfl, h₃⟩,
          _, ⟨t₄, x, rfl, h₄⟩, rfl⟩ := hjump
        obtain ⟨test, htest⟩ := hc _ _ htest
        exact ⟨.branch test x,
          (htest.append (((Reads.one h₄).cons h₃).cons h₂)).cons h₁⟩
      · exact hnone.elim

/-! ## Programs -/

theorem sound_definition (hleaves : Leaves definition s r) :
    ∃ n : Names, Reads s (n.lexemes ++ [.keyword ":", .keyword "float"]) r := by
  obtain ⟨_, hnames, _, ⟨t, rfl, ht⟩, _, ⟨u, rfl, hu⟩, rfl⟩ := hleaves
  obtain ⟨n, hn⟩ := sound_identifiers _ _ hnames
  exact ⟨n, hn.append ((Reads.one hu).cons ht)⟩

theorem sound_definitions :
    Sound Definitions.lexemes (separated definition (.keyword ";")) := by
  rintro s r ⟨_, hfirst, _, hothers, rfl⟩
  rw [Leaves] at hothers
  induction hothers with
  | refl =>
      obtain ⟨n, hn⟩ := sound_definition hfirst
      exact ⟨.one n, hn⟩
  | tail _ hround ih =>
      obtain ⟨d, hd⟩ := ih
      obtain ⟨_, ⟨t, rfl, ht⟩, _, hnext, rfl⟩ := hround
      obtain ⟨n, hn⟩ := sound_definition hnext
      exact ⟨.more d n, hd.append (hn.cons ht)⟩

/-- What the pattern of a whole program takes is the spelling of a program, and
there is nothing behind it. -/
theorem sound_program {depth : Nat} (hleaves : Leaves (program depth) s r) :
    ∃ source : Source, Spells s source.lexemes := by
  obtain ⟨_, ⟨t₁, rfl, h₁⟩, _, ⟨t₂, x, rfl, h₂⟩, _, ⟨t₃, rfl, h₃⟩,
    _, ⟨t₄, rfl, h₄⟩, _, hdefinitions, _, ⟨t₅, rfl, h₅⟩, _, ⟨t₆, rfl, h₆⟩,
    _, hbody, _, ⟨t₇, rfl, h₇⟩, _, ⟨rfl, rfl⟩, rfl⟩ := hleaves
  have he := sound_expression depth
  obtain ⟨d, hd⟩ := sound_definitions _ _ hdefinitions
  obtain ⟨body, hbody⟩ := sound_statements (sound_unlabelled he
    (sound_condition (sound_logicalFactor he depth)) depth) _ _ hbody
  obtain ⟨_, hblock, hbreak⟩ := reads_append_iff.mp hbody
  have hend := hblock.append (hbreak.append (Reads.one h₇))
  have hbegin := hd.append ((hend.cons h₆).cons h₅)
  exact ⟨⟨x, d, body⟩, spells_iff_reads.mpr
    ((((hbegin.cons h₄).cons h₃).cons h₂).cons h₁)⟩

end Reckon.Descent
