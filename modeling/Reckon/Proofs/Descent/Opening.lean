import Reckon.Proofs.Descent.Failing
import Reckon.Proofs.Descent.Sound

/-!
# What has been read when a match fails

Where a pattern of the language fails, it has read the beginning of something
that it is for. `Opens` says so of a pattern and of the rows of lexemes that
it is for; that there is an end for every beginning takes something of every
kind, however small.

A sequence is gone through part by part. What may come behind a part depends
on what the part is, and since any tree of its kind may have been read, it
has to fit behind all of them. So the rows of lexemes that are asked for
shrink from part to part, and what is left of them behind the last part is
asked for only once.
-/

namespace Reckon.Descent

open Pattern

variable {s m r : List Token} {L L' : List Lexeme → Prop} {p : Pattern}
  {parts : List Pattern}

/-- Where the pattern fails, it has read the beginning of one of some rows. -/
def Opens (L : List Lexeme → Prop) (p : Pattern) : Prop :=
  ∀ s m, Stops p s m → ∃ a b, L (a ++ b) ∧ Reads s a m

/-- `Opens` for patterns one behind the other. The rows are not none. -/
structure OpensAll (L : List Lexeme → Prop) (parts : List Pattern) : Prop where
  nonempty : ∃ a, L a
  opens : ∀ s m, StopsAll parts s m → ∃ a b, L (a ++ b) ∧ Reads s a m

/-- The spellings of trees. -/
def Spelled {α : Type} (lexemes : α → List Lexeme) (a : List Lexeme) : Prop :=
  ∃ t, a = lexemes t

/-! ## Something of every kind -/

/-- A formula of a tier. -/
def sample : (t : Tier) → Formula t
  | .factor => .name "x"
  | .chain .product => .only (.name "x")
  | .chain .sum => .only (.only (.name "x"))
  | .test =>
      let e := .only (.only (.name "x"))
      .compare e ⟨.eq, by decide⟩ e
  | .chain .conjunction => .only (sample .test)
  | .chain .condition => .only (.only (sample .test))

instance (t : Tier) : Inhabited (Formula t) := ⟨sample t⟩

instance : (l : Level) → Inhabited l.Operator
  | .product => ⟨⟨.mul, by decide⟩⟩
  | .sum => ⟨⟨.sub, by decide⟩⟩
  | .conjunction => ⟨⟨.and, by decide⟩⟩
  | .condition => ⟨⟨.or, by decide⟩⟩

instance : Inhabited Comparison := ⟨⟨.eq, by decide⟩⟩

instance : Inhabited (Stmt .bare) := ⟨.assign "x" default⟩

instance : Inhabited (Stmt .line) := ⟨.plain default⟩

instance : Inhabited (Stmt .block) := ⟨.one default⟩

instance : Inhabited Names := ⟨⟨"x", []⟩⟩

instance : Inhabited Definitions := ⟨.one default⟩

/-! ## Sequences -/

theorem OpensAll.imp (h : OpensAll L parts) (hL : ∀ a, L a → L' a) :
    OpensAll L' parts := by
  obtain ⟨b, hb⟩ := h.nonempty
  refine ⟨⟨b, hL b hb⟩, fun s m hstops => ?_⟩
  obtain ⟨a, b, hab, ha⟩ := h.opens s m hstops
  exact ⟨a, b, hL _ hab, ha⟩

theorem opens_sequence (h : OpensAll L parts) :
    Opens L (.sequence parts) := h.opens

theorem opensAll_nil (h : L []) : OpensAll L [] :=
  ⟨⟨[], h⟩, fun _ _ h => h.elim⟩

/-- A part is followed by what fits behind everything it may have read. -/
theorem opensAll_cons {α : Type} [Inhabited α] {lexemes : α → List Lexeme}
    (hsound : Sound lexemes p) (hopens : Opens (Spelled lexemes) p)
    (h : OpensAll (fun b => ∀ t, L (lexemes t ++ b)) parts) :
    OpensAll L (p :: parts) := by
  obtain ⟨b, hb⟩ := h.nonempty
  refine ⟨⟨_, hb default⟩, fun s m hstops => ?_⟩
  rcases hstops with hpart | ⟨q, hleaves, hstops⟩
  · obtain ⟨a, c, ⟨t, ht⟩, ha⟩ := hopens s m hpart
    refine ⟨a, c ++ b, ?_, ha⟩
    rw [← List.append_assoc, ht]
    exact hb t
  · obtain ⟨t, ht⟩ := hsound s q hleaves
    obtain ⟨a, c, hac, ha⟩ := h.opens q m hstops
    refine ⟨lexemes t ++ a, c, ?_, ht.append ha⟩
    rw [List.append_assoc]
    exact hac t

/-- A pattern of one token fails where it stands. -/
theorem opens_here {α : Type} [Inhabited α] (lexemes : α → List Lexeme)
    (hhere : ∀ s m, Stops p s m → m = s) : Opens (Spelled lexemes) p := by
  intro s m hstops
  obtain rfl := hhere s m hstops
  exact ⟨[], lexemes default, ⟨default, rfl⟩, reads_nil_iff.mpr rfl⟩

theorem opensAll_keyword {text : String}
    (h : OpensAll (fun b => L (.keyword text :: b)) parts) :
    OpensAll L (.keyword text :: parts) := by
  let lexemes : Unit → List Lexeme := fun _ => [.keyword text]
  have hsound : Sound lexemes (.keyword text) := by
    rintro s r ⟨t, rfl, ht⟩
    exact ⟨(), Reads.one ht⟩
  exact opensAll_cons hsound (opens_here lexemes (by simp [Stops]))
    (h.imp fun _ hb _ => hb)

theorem opensAll_identifier
    (h : OpensAll (fun b => ∀ x, L (.identifier x :: b)) parts) :
    OpensAll L (.identifier :: parts) := by
  let lexemes : String → List Lexeme := fun x => [.identifier x]
  have hsound : Sound lexemes .identifier := by
    rintro s r ⟨t, x, rfl, ht⟩
    exact ⟨x, Reads.one ht⟩
  exact opensAll_cons hsound (opens_here lexemes (by simp [Stops])) h

theorem opensAll_label (h : OpensAll (fun b => ∀ x, L (.label x :: b)) parts) :
    OpensAll L (.label :: parts) := by
  let lexemes : String → List Lexeme := fun x => [.label x]
  have hsound : Sound lexemes .label := by
    rintro s r ⟨t, x, rfl, ht⟩
    exact ⟨x, Reads.one ht⟩
  exact opensAll_cons hsound (opens_here lexemes (by simp [Stops])) h

theorem opensAll_end (h : L []) : OpensAll L [.endOfInput] := by
  refine ⟨⟨[], h⟩, fun s m hstops => ?_⟩
  rcases hstops with rfl | ⟨q, -, hnone⟩
  · exact ⟨[], [], h, reads_nil_iff.mpr rfl⟩
  · exact hnone.elim

/-- Behind an option anything fits that fits with it and without it. -/
theorem opensAll_sign {text : String}
    (h : OpensAll (fun b => L b ∧ L (.keyword text :: b)) parts) :
    OpensAll L (.option (.keyword text) :: parts) := by
  obtain ⟨b, hb, -⟩ := h.nonempty
  refine ⟨⟨b, hb⟩, fun s m hstops => ?_⟩
  rcases hstops with rfl | ⟨q, rfl | ⟨t, rfl, ht⟩, hstops⟩
  · exact ⟨[], b, hb, reads_nil_iff.mpr rfl⟩
  · obtain ⟨a, b, hab, ha⟩ := h.opens q m hstops
    exact ⟨a, b, hab.1, ha⟩
  · obtain ⟨a, b, hab, ha⟩ := h.opens q m hstops
    exact ⟨.keyword text :: a, b, hab.2, ha.cons ht⟩

/-- Behind a repetition anything fits that fits behind each of its rounds. -/
theorem opensAll_repetition {α : Type} {lexemes : α → List Lexeme}
    (hsound : Sound lexemes p) (hopens : Opens (Spelled lexemes) p)
    (hround : ∀ t b, L b → L (lexemes t ++ b)) (h : OpensAll L parts) :
    OpensAll L (.repetition p :: parts) := by
  have hrounds : ∀ {s q}, Relation.ReflTransGen (Leaves p) s q →
      ∃ a, Reads s a q ∧ ∀ b, L b → L (a ++ b) := by
    intro s q hleaves
    induction hleaves with
    | refl => exact ⟨[], reads_nil_iff.mpr rfl, fun _ hb => hb⟩
    | tail _ hlast ih =>
        obtain ⟨a, ha, hfits⟩ := ih
        obtain ⟨t, ht⟩ := hsound _ _ hlast
        refine ⟨a ++ lexemes t, ha.append ht, fun b hb => ?_⟩
        rw [List.append_assoc]
        exact hfits _ (hround t b hb)
  obtain ⟨b, hb⟩ := h.nonempty
  refine ⟨⟨b, hb⟩, fun s m hstops => ?_⟩
  rcases hstops with ⟨q, hleaves, hstops⟩ | ⟨q, hleaves, hstops⟩
  · obtain ⟨a, ha, hfits⟩ := hrounds hleaves
    obtain ⟨c, d, ⟨t, ht⟩, hc⟩ := hopens q m hstops
    refine ⟨a ++ c, d ++ b, ?_, ha.append hc⟩
    have hall := hfits _ (hround t b hb)
    rwa [← ht, List.append_assoc, ← List.append_assoc a] at hall
  · rw [Leaves] at hleaves
    obtain ⟨a, ha, hfits⟩ := hrounds hleaves
    obtain ⟨c, d, hcd, hc⟩ := h.opens q m hstops
    refine ⟨a ++ c, d, ?_, ha.append hc⟩
    rw [List.append_assoc]
    exact hfits _ hcd

theorem opens_choice {name : String} (hsome : ∃ a, L a)
    (h : ∀ p ∈ parts, Opens L p) : Opens L (.choice parts name) := by
  obtain ⟨b, hb⟩ := hsome
  have hparts :
      ∀ s m, StopsSome parts s m → ∃ a b, L (a ++ b) ∧ Reads s a m := by
    intro s m hstops
    induction parts with
    | nil => exact hstops.elim
    | cons p parts ih =>
        rcases hstops with hstops | hstops
        · exact h p List.mem_cons_self s m hstops
        · exact ih (fun q hq => h q (List.mem_cons_of_mem _ hq)) hstops
  rintro s m (rfl | hstops)
  · exact ⟨[], b, hb, reads_nil_iff.mpr rfl⟩
  · exact hparts s m hstops

theorem Opens.imp (h : Opens L p) (hL : ∀ a, L a → L' a) : Opens L' p := by
  intro s m hstops
  obtain ⟨a, b, hab, ha⟩ := h s m hstops
  exact ⟨a, b, hL _ hab, ha⟩

/-! ## Arithmetic and conditions -/

theorem opens_between {α : Type} [Inhabited α] {lexemes : α → List Lexeme}
    {opening closing : String} (hsound : Sound lexemes p)
    (hopens : Opens (Spelled lexemes) p)
    (hL : ∀ t, L (.keyword opening :: (lexemes t ++ [.keyword closing]))) :
    Opens L (between opening closing p) :=
  opens_sequence (opensAll_keyword (opensAll_cons hsound hopens
    (opensAll_keyword (opensAll_nil hL))))

/-- What a round of a list reads. -/
def roundLexemes {l : Level} (round : l.Operator × Formula l.below) :
    List Lexeme :=
  .keyword round.1.val.text :: round.2.lexemes

section Lists

variable {l : Level} {separator item : Pattern}
  (hseparator : Sound (fun o : l.Operator => [.keyword o.val.text]) separator)
  (hhere : ∀ s m, Stops separator s m → m = s)
  (hitem : Sound (fun b : Formula l.below => b.lexemes) item)
  (hopens : Opens (Spelled fun b : Formula l.below => b.lexemes) item)
include hseparator hhere hitem hopens

/-- Rounds can be read behind a list of any length, so what comes behind them
has to fit behind every list. -/
theorem opensAll_rounds (hL : ∀ a : Formula (.chain l), L a.lexemes) : OpensAll
    (fun b => ∀ a : Formula (.chain l), L (a.lexemes ++ b))
    [.repetition (.sequence [separator, item])] := by
  have hsound :
      Sound (roundLexemes (l := l)) (.sequence [separator, item]) := by
    rintro s r ⟨_, ho, _, hb, rfl⟩
    obtain ⟨o, ho⟩ := hseparator _ _ ho
    obtain ⟨b, hb⟩ := hitem _ _ hb
    exact ⟨(o, b), ho.append hb⟩
  have hround :
      Opens (Spelled (roundLexemes (l := l))) (.sequence [separator, item]) :=
    opens_sequence (opensAll_cons hseparator (opens_here _ hhere)
      (opensAll_cons hitem hopens (opensAll_nil fun b o =>
        ⟨(o, b), by simp [roundLexemes]⟩)))
  refine opensAll_repetition hsound hround (fun round b hb a => ?_)
    (opensAll_nil fun a => by simpa using hL a)
  have hjoin := hb (.join a round.1 round.2)
  simpa [Formula.lexemes, roundLexemes] using hjoin

theorem opens_separated :
    Opens (Spelled fun e : Formula (.chain l) => e.lexemes)
      (separated item separator) := by
  refine opens_sequence (opensAll_cons hitem hopens ?_)
  have hrounds :=
    opensAll_rounds (L := Spelled fun e : Formula (.chain l) => e.lexemes)
    hseparator hhere hitem hopens fun a => ⟨a, rfl⟩
  exact hrounds.imp fun b hb t => hb (.only t)

end Lists

theorem opens_factor (hsound : Sound (fun e : Expression => e.lexemes) p)
    (hopens : Opens (Spelled fun e : Expression => e.lexemes) p) :
    Opens (Spelled fun e : Formula .factor => e.lexemes) (factor p) := by
  refine opens_choice ⟨_, default, rfl⟩ fun q hq => ?_
  simp only [List.mem_cons, List.not_mem_nil, or_false] at hq
  rcases hq with rfl | rfl | rfl
  · exact opens_here _ (by simp [Stops])
  · exact opens_here _ (by simp [Stops])
  · exact opens_between hsound hopens fun e => ⟨.group e, rfl⟩

theorem opens_term (hsound : Sound (fun e : Expression => e.lexemes) p)
    (hopens : Opens (Spelled fun e : Expression => e.lexemes) p) :
    Opens (Spelled fun e : Formula (.chain .product) => e.lexemes) (term p) :=
  opens_separated (sound_operator rfl) (by simp [Stops]) (sound_factor hsound)
    (opens_factor hsound hopens)

theorem opens_expression (depth : Nat) :
    Opens (Spelled fun e : Expression => e.lexemes) (expression depth) := by
  induction depth with
  | zero => exact opens_choice ⟨_, default, rfl⟩ nofun
  | succ depth ih =>
      have hsound := sound_term (sound_expression depth)
      have hterm := opens_term (sound_expression depth) ih
      have hadd : Sound (fun o : Level.sum.Operator => [.keyword o.val.text])
          (.keywordOf ["+", "-"] "'+' or '-'") := sound_operator rfl
      have hrounds :=
        opensAll_rounds (L := Spelled fun e : Expression => e.lexemes)
        hadd (by simp [Stops]) hsound hterm fun a => ⟨a, rfl⟩
      refine opens_sequence (opensAll_sign (opensAll_cons hsound hterm
        (hrounds.imp fun b hb t => ?_)))
      exact ⟨hb (.only t), hb (.negated t)⟩

theorem opens_comparison (hsound : Sound (fun e : Expression => e.lexemes) p)
    (hopens : Opens (Spelled fun e : Expression => e.lexemes) p) :
    Opens (Spelled fun t : Formula .test => t.lexemes) (comparison p) :=
  opens_sequence (opensAll_cons hsound hopens
    (opensAll_cons sound_comparator (opens_here _ (by simp [Stops]))
      (opensAll_cons hsound hopens (opensAll_nil fun b o a =>
        ⟨.compare a o b, by simp [Formula.lexemes]⟩))))

theorem opens_condition (hsound : Sound (fun t : Formula .test => t.lexemes) p)
    (hopens : Opens (Spelled fun t : Formula .test => t.lexemes) p) :
    Opens (Spelled fun c : Condition => c.lexemes) (condition p) := by
  have hand := sound_joiner (l := .conjunction) ⟨.and, by decide⟩
  exact opens_separated (sound_joiner ⟨.or, by decide⟩) (by simp [Stops])
    (sound_separated hand hsound)
    (opens_separated hand (by simp [Stops]) hsound hopens)

theorem opens_logicalFactor (hsound : Sound (fun e : Expression => e.lexemes) p)
    (hopens : Opens (Spelled fun e : Expression => e.lexemes) p) (depth : Nat) :
    Opens (Spelled fun t : Formula .test => t.lexemes)
      (logicalFactor p depth) := by
  induction depth with
  | zero => exact opens_choice ⟨_, default, rfl⟩ nofun
  | succ depth ih =>
      have hinner := sound_logicalFactor hsound depth
      refine opens_choice ⟨_, default, rfl⟩ fun q hq => ?_
      simp only [List.mem_cons, List.not_mem_nil, or_false] at hq
      rcases hq with rfl | rfl | rfl
      · exact opens_between (sound_condition hinner) (opens_condition hinner ih)
          fun c => ⟨.bracket c, rfl⟩
      · exact opens_sequence (opensAll_keyword (opensAll_cons hinner ih
          (opensAll_nil fun a => ⟨.not a, by simp [Formula.lexemes]⟩)))
      · exact opens_comparison hsound hopens

/-! ## Statements -/

theorem opens_identifiers : Opens (Spelled Names.lexemes) identifiers := by
  let itemLexemes : String → List Lexeme :=
    fun x => [.keyword ",", .identifier x]
  have hsound : Sound itemLexemes (.sequence [.keyword ",", .identifier]) := by
    rintro s r ⟨_, ⟨t, rfl, ht⟩, _, ⟨u, x, rfl, hu⟩, rfl⟩
    exact ⟨x, (Reads.one hu).cons ht⟩
  have hitem :
      Opens (Spelled itemLexemes) (.sequence [.keyword ",", .identifier]) :=
    opens_sequence (opensAll_keyword (opensAll_identifier
      (opensAll_nil fun x => ⟨x, rfl⟩)))
  -- What comes behind the first name has to fit behind any list of names.
  have hrounds :
      OpensAll (fun b => ∀ n : Names, Spelled Names.lexemes (n.lexemes ++ b))
        [.repetition (.sequence [.keyword ",", .identifier])] := by
    refine opensAll_repetition hsound hitem (fun x b hb n => ?_)
      (opensAll_nil fun n => ⟨n, by simp⟩)
    have hlonger := hb ⟨n.first, n.others ++ [x]⟩
    simpa [Names.lexemes, Names.toList, itemLexemes] using hlonger
  exact opens_sequence (opensAll_keyword (opensAll_identifier
    (hrounds.imp fun b hb x => hb ⟨x, []⟩)))

theorem opens_transfer (kind : Transfer) :
    Opens (Spelled fun a : Stmt .bare => a.lexemes)
      (transfer kind.keyword) := by
  let lexemes : Names → List Lexeme := fun n =>
    .keyword "(" :: (n.lexemes ++ [.keyword ")"])
  have hsound : Sound lexemes (between "(" ")" identifiers) := fun s r h =>
    sound_between sound_identifiers h
  have hnames : Opens (Spelled lexemes) (between "(" ")" identifiers) :=
    opens_between sound_identifiers opens_identifiers fun n => ⟨n, rfl⟩
  exact opens_sequence (opensAll_keyword (opensAll_cons hsound hnames
    (opensAll_nil fun n =>
      ⟨.transfer kind n, by simp [Stmt.lexemes, lexemes]⟩)))

theorem opens_statement (hsound : Sound (fun a : Stmt .bare => a.lexemes) p)
    (hopens : Opens (Spelled fun a : Stmt .bare => a.lexemes) p) :
    Opens (Spelled fun a : Stmt .line => a.lexemes) (statement p) := by
  refine opens_choice ⟨_, default, rfl⟩ fun q hq => ?_
  simp only [List.mem_cons, List.not_mem_nil, or_false] at hq
  rcases hq with rfl | rfl
  · exact opens_sequence (opensAll_label (opensAll_keyword
      (opensAll_cons hsound hopens (opensAll_nil fun a x =>
        ⟨.labelled x a, by simp [Stmt.lexemes]⟩))))
  · exact hopens.imp fun _ ⟨a, ha⟩ => ⟨.plain a, ha⟩

theorem opens_statements (hsound : Sound (fun a : Stmt .bare => a.lexemes) p)
    (hopens : Opens (Spelled fun a : Stmt .bare => a.lexemes) p) :
    Opens (Spelled fun b : Stmt .block => b.lexemes ++ [.keyword lineBreak])
      (statements p) := by
  let L := Spelled fun b : Stmt .block => b.lexemes ++ [.keyword lineBreak]
  let lexemes : Stmt .line → List Lexeme :=
    fun a => .keyword lineBreak :: a.lexemes
  have hline := opens_statement hsound hopens
  have hround : Opens (Spelled lexemes) (.sequence [newLine, statement p]) :=
    opens_sequence
      (opensAll_keyword (opensAll_cons (sound_statement hsound) hline
        (opensAll_nil fun a => ⟨a, by simp [lexemes]⟩)))
  have hread : Sound lexemes (.sequence [newLine, statement p]) := by
    rintro s r ⟨_, ⟨t, rfl, ht⟩, _, ha, rfl⟩
    obtain ⟨a, ha⟩ := sound_statement hsound _ _ ha
    exact ⟨a, ha.cons ht⟩
  have hrounds : OpensAll (fun c => ∀ b : Stmt .block, L (b.lexemes ++ c))
      [.repetition (.sequence [newLine, statement p]), newLine] := by
    refine opensAll_repetition hread hround (fun a c hc b => ?_)
      (opensAll_keyword (opensAll_nil fun b => ⟨b, rfl⟩))
    have hmore := hc (.more b a)
    simpa [Stmt.lexemes, lexemes] using hmore
  exact opens_sequence
    (opensAll_keyword (opensAll_cons (sound_statement hsound) hline
      (hrounds.imp fun c hc a => hc (.one a))))

theorem opens_unlabelled {e c : Pattern}
    (he : Sound (fun e : Expression => e.lexemes) e)
    (hc : Sound (fun c : Condition => c.lexemes) c)
    (hopense : Opens (Spelled fun e : Expression => e.lexemes) e)
    (hopensc : Opens (Spelled fun c : Condition => c.lexemes) c) (depth : Nat) :
    Opens (Spelled fun a : Stmt .bare => a.lexemes) (unlabelled e c depth) := by
  induction depth with
  | zero => exact opens_choice ⟨_, default, rfl⟩ nofun
  | succ depth ih =>
      have hbare := sound_unlabelled he hc depth
      refine opens_choice ⟨_, default, rfl⟩ fun q hq => ?_
      simp only [List.mem_cons, List.not_mem_nil, or_false] at hq
      rcases hq with rfl | rfl | rfl | rfl | rfl
      · exact opens_sequence (opensAll_identifier (opensAll_keyword
          (opensAll_cons he hopense (opensAll_nil fun a x =>
            ⟨.assign x a, by simp [Stmt.lexemes]⟩))))
      · exact opens_transfer .read
      · exact opens_transfer .write
      · refine opens_sequence (opensAll_keyword (opensAll_identifier
          (opensAll_keyword (opensAll_cons he hopense (opensAll_keyword
            (opensAll_cons he hopense (opensAll_cons (sound_statements hbare)
              (opens_statements hbare ih) (opensAll_keyword
                (opensAll_nil fun body last first x => ?_)))))))))
        exact ⟨.loop x first last body, by simp [Stmt.lexemes]⟩
      · refine opens_sequence (opensAll_keyword (opensAll_cons hc hopensc
          (opensAll_keyword (opensAll_keyword (opensAll_label
            (opensAll_nil fun x test => ?_))))))
        exact ⟨.branch test x, by simp [Stmt.lexemes]⟩

/-! ## Programs -/

theorem opens_definition :
    Opens (Spelled fun n : Names =>
      n.lexemes ++ [.keyword ":", .keyword "float"])
      definition :=
  opens_sequence (opensAll_cons sound_identifiers opens_identifiers
    (opensAll_keyword (opensAll_keyword (opensAll_nil fun n => ⟨n, rfl⟩))))

theorem opens_definitions :
    Opens (Spelled Definitions.lexemes)
      (separated definition (.keyword ";")) := by
  let lexemes : Names → List Lexeme := fun n =>
    .keyword ";" :: (n.lexemes ++ [.keyword ":", .keyword "float"])
  have hsound :
      Sound (fun n : Names => n.lexemes ++ [.keyword ":", .keyword "float"])
      definition := fun s r h => sound_definition h
  have hread : Sound lexemes (.sequence [.keyword ";", definition]) := by
    rintro s r ⟨_, ⟨t, rfl, ht⟩, _, hn, rfl⟩
    obtain ⟨n, hn⟩ := sound_definition hn
    exact ⟨n, hn.cons ht⟩
  have hround :
      Opens (Spelled lexemes) (.sequence [.keyword ";", definition]) :=
    opens_sequence (opensAll_keyword (opensAll_cons hsound opens_definition
      (opensAll_nil fun n => ⟨n, by simp [lexemes]⟩)))
  have hrounds : OpensAll
      (fun b => ∀ d : Definitions, Spelled Definitions.lexemes (d.lexemes ++ b))
      [.repetition (.sequence [.keyword ";", definition])] := by
    refine opensAll_repetition hread hround (fun n b hb d => ?_)
      (opensAll_nil fun d => ⟨d, by simp⟩)
    have hmore := hb (.more d n)
    simpa [Definitions.lexemes, lexemes] using hmore
  exact opens_sequence (opensAll_cons hsound opens_definition
    (hrounds.imp fun b hb n => hb (.one n)))

theorem opens_program (depth : Nat) :
    Opens (Spelled Source.lexemes) (program depth) := by
  have he := sound_expression depth
  have hopense := opens_expression depth
  have hc := sound_condition (sound_logicalFactor he depth)
  have hopensc := opens_condition (sound_logicalFactor he depth)
    (opens_logicalFactor he hopense depth)
  have hbare := sound_unlabelled he hc depth
  have hopensbare := opens_unlabelled he hc hopense hopensc depth
  refine opens_sequence (opensAll_keyword (opensAll_identifier (opensAll_keyword
    (opensAll_keyword (opensAll_cons sound_definitions opens_definitions
      (opensAll_keyword (opensAll_keyword
        (opensAll_cons (sound_statements hbare)
          (opens_statements hbare hopensbare)
          (opensAll_keyword (opensAll_end fun body d x => ?_))))))))))
  exact ⟨⟨x, d, body⟩, by simp [Source.lexemes]⟩

end Reckon.Descent
