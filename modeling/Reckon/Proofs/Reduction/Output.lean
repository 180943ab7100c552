import Reckon.Proofs.Reduction.Program
import Reckon.Proofs.Syntax.Derivable

/-!
# What reduction puts out

The code of a program that is accepted is the translation of its tree. The
automaton puts out the code of a production when it reduces by it, and by then
the code of everything inside is out; so the induction is on the translation,
and the two productions that look at the tokens they reduce find what the
translation found among the words: an operand is a single token, and an operator
stands in the middle.
-/

namespace Reckon

open Grammar (Translates)

/-- An entry has the terminal of its token. -/
def Entry.IsRead (e : Entry) : Prop :=
  e.token.lexeme?.map Lexeme.symbol = some e.symbol

variable {tokens : List Token} {ls a : List Lexeme} {items : List Item}
  {form : List Symbol} {es base inner : List Entry} {code : Program}
  {p : Production}

/-- A fixed text that was read is that of the token. -/
theorem Entry.IsRead.keyword? {e : Entry} {text : String} (h : e.IsRead)
    (he : e.symbol = .keyword text) : e.token.keyword? = some text := by
  obtain ⟨x, hx, hsymbol⟩ := Option.map_eq_some_iff.mp h
  rw [he] at hsymbol
  cases x with
  | keyword other =>
      obtain rfl := Symbol.keyword.inj hsymbol
      exact beq_iff_eq.mp (Token.isKeyword_iff.mpr hx)
  | _ => cases hsymbol

namespace Language

/-! ## The productions, looked at -/

theorem operand_rhs : ∀ p ∈ grammar.productions, p.emission = some .operand →
    p.rhs = [.identifier] ∨ p.rhs = [.constant] := by
  decide +kernel

theorem operator_rhs : ∀ p ∈ grammar.productions, p.emission = some .operator →
    ∃ o ∈ Binary.all, p.rhs[1]? = some (.keyword o.text) := by
  decide +kernel

/-- A terminal stands for one word. -/
theorem eq_singleton_of_translates {t : Symbol} (ht : t.isTerminal = true)
    (h : grammar.Translates [t] ls items) : ∃ x, ls = [x] ∧ x.symbol = t := by
  generalize hform : [t] = form at h
  cases h with
  | nil => cases hform
  | @terminal x rest ls items _ hrest =>
      obtain ⟨rfl, rfl⟩ := List.cons_eq_cons.mp hform
      cases hrest
      exact ⟨x, rfl, rfl⟩
  | production hp =>
      obtain ⟨rfl, -⟩ := List.cons_eq_cons.mp hform
      rw [Symbol.isTerminal_eq_false (lhs_isNonterminal _ hp)] at ht
      cases ht

/-! ## Reducing and translating -/

/-- The operator stands behind what is on its left. -/
theorem emits_operator (hp : p ∈ grammar.productions)
    (hemission : p.emission = some .operator)
    (hinner : inner.map Entry.symbol = p.rhs)
    (hread : ∀ e ∈ inner, e.symbol.isTerminal = true → e.IsRead)
    (hemits : Emits code items) :
    Emits (Emission.emit (inner.map Entry.token) code .operator)
      (items ++ Emission.items p.rhs a .operator) := by
  obtain ⟨o, -, ho⟩ := operator_rhs p hp hemission
  obtain ⟨left, rest, hrhs⟩ : ∃ left rest,
      p.rhs = left :: .keyword o.text :: rest := by
    match hrhs : p.rhs, ho with
    | left :: _ :: rest, ho =>
        obtain rfl := Option.some.inj ho
        exact ⟨left, rest, rfl⟩
  rw [hrhs] at hinner ⊢
  obtain ⟨l, behind, rfl, -, hbehind⟩ := List.map_eq_cons_iff.mp hinner
  obtain ⟨e, behind, rfl, he, -⟩ := List.map_eq_cons_iff.mp hbehind
  have hkeyword : e.token.keyword? = some o.text :=
    (hread e (by simp) (by rw [he]; rfl)).keyword? he
  have hoperator : ((((l :: e :: behind).map Entry.token)[1]?).bind
      Token.keyword?).bind Op.ofOperator? = some (.binary o) := by
    show e.token.keyword?.bind Op.ofOperator? = _
    rw [hkeyword, Option.bind_some, Op.ofOperator?_text]
  have hemit :
      Emission.emit ((l :: e :: behind).map Entry.token) code .operator =
        code.push (.binary o) := by
    simp only [Emission.emit, hoperator]
  have hitems : Emission.items (left :: .keyword o.text :: rest) a .operator =
      [.op (.binary o)] := by
    show ((Op.ofOperator? o.text).map Item.op).toList = _
    rw [Op.ofOperator?_text]
    rfl
  rw [hemit, hitems]
  exact hemits.push rfl

/-- An operand is all there is to reduce. -/
theorem emits_operand (hp : p ∈ grammar.productions)
    (hemission : p.emission = some .operand)
    (hinner : inner.map Entry.symbol = p.rhs)
    (hamong : ∀ e ∈ inner, e.symbol.isTerminal = true → e ∈ es)
    (hspells : Spells (es.map Entry.token) a)
    (htranslates : ∃ inside, grammar.Translates p.rhs a inside)
    (hemits : Emits code items) :
    Emits (Emission.emit (inner.map Entry.token) code .operand)
      (items ++ Emission.items p.rhs a .operand) := by
  obtain ⟨inside, htranslates⟩ := htranslates
  obtain ⟨t, hrhs, ht⟩ :
      ∃ t, p.rhs = [t] ∧ (t = .identifier ∨ t = .constant) := by
    rcases operand_rhs p hp hemission with hrhs | hrhs
    · exact ⟨_, hrhs, .inl rfl⟩
    · exact ⟨_, hrhs, .inr rfl⟩
  have hterminal : t.isTerminal = true := by
    rcases ht with rfl | rfl <;> rfl
  rw [hrhs] at htranslates hinner
  obtain ⟨x, rfl, hx⟩ := eq_singleton_of_translates hterminal htranslates
  obtain ⟨e, rfl, he⟩ := List.map_eq_singleton_iff.mp hinner
  have hmem := hamong e List.mem_cons_self (by rw [he]; exact hterminal)
  obtain ⟨token, htokens, htoken⟩ := List.map_eq_singleton_iff.mp hspells
  obtain ⟨e', rfl, rfl⟩ := List.map_eq_singleton_iff.mp htokens
  obtain rfl := List.mem_singleton.mp hmem
  obtain ⟨line, index, hword⟩ := Token.eq_word_of_lexeme? htoken
  rw [List.map_singleton, hword]
  rcases ht with rfl | rfl
  · cases x <;> cases hx
    exact hemits.push rfl
  · cases x <;> cases hx
    exact hemits.pushConstant _

/-- What a production puts out for entries is what it stands for. The terminals
of its right-hand side are among the entries that were read. -/
theorem emits_emit (hp : p ∈ grammar.productions)
    (hinner : inner.map Entry.symbol = p.rhs)
    (hamong : ∀ e ∈ inner, e.symbol.isTerminal = true → e ∈ es)
    (hread : ∀ e ∈ es, e.IsRead) (hspells : Spells (es.map Entry.token) a)
    (htranslates : ∃ inside, grammar.Translates p.rhs a inside)
    (hemits : Emits code items) :
    Emits (p.emit inner code) (items ++ p.items a) := by
  unfold Production.emit Production.items
  cases hemission : p.emission with
  | none =>
      rw [List.append_nil]
      exact hemits
  | some emission =>
      dsimp only
      cases emission with
      | negation | not => exact hemits.push rfl
      | operator =>
          exact emits_operator hp hemission hinner
            (fun e he ht => hread e (hamong e he ht)) hemits
      | operand =>
          exact emits_operand hp hemission hinner hamong hspells
            htranslates hemits

/-- Entries of a sentence are reduced to what it is translated from, and what is
put out is the translation. -/
theorem builds_of_translates (h : grammar.Translates form ls items) :
    ∀ {es : List Entry} {code : Program} {before : List Item},
      (∀ e ∈ es, e.IsRead) → Spells (es.map Entry.token) ls →
      Emits code before → ∃ base after, base.map Entry.symbol = form ∧
        grammar.Builds base es code after ∧ Emits after (before ++ items) ∧
        ∀ e ∈ base, e.symbol.isTerminal = true → e ∈ es := by
  induction h with
  | nil =>
      intro es code before _ hspells hemits
      obtain rfl := List.map_eq_nil_iff.mp (List.map_eq_nil_iff.mp hspells)
      exact ⟨[], code, rfl, .nil, by rwa [List.append_nil], nofun⟩
  | @terminal x rest ls items ht _ ih =>
      intro es code before hread hspells hemits
      obtain ⟨_, _, htokens, hx, hspells⟩ := List.map_eq_cons_iff.mp hspells
      obtain ⟨e, es, rfl, rfl, rfl⟩ := List.map_eq_cons_iff.mp htokens
      obtain ⟨he, hread⟩ := List.forall_mem_cons.mp hread
      have hsymbol : e.symbol = x.symbol := by
        unfold Entry.IsRead at he
        rw [hx] at he
        exact (Option.some.inj he).symm
      obtain ⟨base, after, hbase, hbuilds, hafter, hamong⟩ :=
        ih hread hspells hemits
      refine ⟨e :: base, after, by rw [List.map_cons, hsymbol, hbase],
        .terminal (hsymbol ▸ ht) hbuilds, hafter, fun e' he' ht' => ?_⟩
      rcases List.mem_cons.mp he' with rfl | he'
      · exact List.mem_cons_self
      · exact List.mem_cons_of_mem _ (hamong e' he' ht')
  | @production p rest a b inside behind hp hrhs _ ihrhs ihrest =>
      intro es code before hread hspells hemits
      unfold Spells at hspells
      rw [List.map_append] at hspells
      obtain ⟨_, _, htokens, hu, hv⟩ := List.map_eq_append_iff.mp hspells
      obtain ⟨eu, ev, rfl, rfl, rfl⟩ := List.map_eq_append_iff.mp htokens
      obtain ⟨hreadu, hreadv⟩ := List.forall_mem_append.mp hread
      obtain ⟨inner, middle, hinner, hbuilds, hmiddle, hamong⟩ :=
        ihrhs hreadu hu hemits
      obtain ⟨base, after, hbase, hbuilds', hafter, hamong'⟩ :=
        ihrest hreadv hv
          (emits_emit hp hinner hamong hreadu hu ⟨_, hrhs⟩ hmiddle)
      refine ⟨p.entry inner :: base, after, by rw [List.map_cons, hbase]; rfl,
        .production hp hinner hbuilds hbuilds', by simpa using hafter,
        fun e he ht => ?_⟩
      rcases List.mem_cons.mp he with rfl | he
      · rw [show (p.entry inner).symbol = p.lhs from rfl,
          Symbol.isTerminal_eq_false (lhs_isNonterminal p hp)] at ht
        cases ht
      · exact List.mem_append_right _ (hamong' e he ht)

theorem isRead_of_classes : ∀ {es : List Entry},
    grammar.Classes (es.map Entry.token) (es.map Entry.symbol) →
      ∀ e ∈ es, e.IsRead
  | [], _ => nofun
  | e :: es, h => by
      obtain ⟨he, hes⟩ := List.cons_eq_cons.mp h
      intro e' he'
      rcases List.mem_cons.mp he' with rfl | he'
      · exact (Grammar.classify_eq_some_iff.mp he).1
      · exact isRead_of_classes hes e' he'

/-- What is put out for a program is its translation. -/
theorem parse_emits {source : Source} (h : Spells tokens source.lexemes) :
    ∃ parsed, parse tokens = .ok parsed ∧
      Emits parsed.code source.body.translation := by
  obtain ⟨w, hw, -⟩ := derives_iff_source.mpr ⟨source, h⟩
  obtain ⟨es, hes, rfl, rfl⟩ := Automaton.classifyAll_of_classes hw
  obtain ⟨p, hp, hstart, inside, hrhs, hitems⟩ :=
    Grammar.Translates.exists_production rfl (yields_source source)
  have hread := isRead_of_classes hw
  obtain ⟨base, after, hbase, hbuilds, hafter, hamong⟩ :=
    builds_of_translates hrhs hread h .empty
  obtain ⟨parsed, hparsed, hcode⟩ := parse_of_builds hes hp hstart hbase hbuilds
  refine ⟨parsed, hparsed, ?_⟩
  rw [hcode, hitems]
  exact emits_emit hp hbase hamong hread h ⟨inside, hrhs⟩ hafter

end Language

end Reckon
