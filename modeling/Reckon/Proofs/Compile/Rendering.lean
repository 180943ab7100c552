import Reckon.Compilation
import Reckon.Proofs.Compile.Numbering
import Reckon.Proofs.Compile.Simulation
import Reckon.Proofs.Compile.Statements
import Reckon.Proofs.Machine.Names
import Reckon.Proofs.Reduction.Program
import Reckon.Proofs.Results
import Reckon.Proofs.Syntax.Derivable

/-!
# Programs from texts

A text that is read into the words of a source is compiled, and what comes of it
renders the script of the source. Most of this has been said of statements
already; what is left is to find the statements between `begin` and `end` and to
say something of names. A name of a text starts with a letter and a made name
does not, so no two of them meet. And the store that a run begins with has all
variables of the source, since each of them is pushed somewhere.
-/

namespace Reckon

open Composer (labelName limitName)

variable {x : Extent} {t : Tier} {y text : String}

/-! ## Names of a text -/

theorem Lexeme.isGiven_of_isAlpha {c : Char} (hc : c.isAlpha = true)
    (rest : List Char) :
    (identifier (String.ofList (c :: rest))).IsGiven ∧
      (label (String.ofList (c :: rest))).IsGiven := by
  have hne : ∀ {d : Char} {other : String}, other.toList.head? = some d →
      d.isAlpha = false → String.ofList (c :: rest) ≠ other := by
    rintro d _ hd halpha rfl
    rw [String.toList_ofList] at hd
    obtain rfl : c = d := Option.some.inj hd
    rw [hc] at halpha
    cases halpha
  exact ⟨fun k => hne (d := '_') (by simp [limitName]) (by decide),
    fun k => hne (d := '_') (by simp [labelName]) (by decide)⟩

namespace Reading

theorem isGiven_tokenOf {asLabel : Bool} {lexicon : Lexicon} {piece : Piece}
    {lexeme : Lexeme}
    (h : (tokenOf asLabel lexicon piece).1.lexeme? = some lexeme) :
    lexeme.IsGiven := by
  unfold tokenOf at h
  dsimp only at h
  split at h
  · obtain rfl := Option.some.inj h
    trivial
  · next c rest hpiece =>
      rw [hpiece] at h
      split at h
      · obtain rfl := Option.some.inj h
        trivial
      · split at h
        · obtain rfl := Option.some.inj h
          trivial
        · next hword =>
            have hc : c.isAlpha = true := by
              cases hc : c.isAlpha
              · simp [hc] at hword
              · rfl
            split at h
            · obtain rfl := Option.some.inj h
              exact (Lexeme.isGiven_of_isAlpha hc rest).2
            · obtain rfl := Option.some.inj h
              exact (Lexeme.isGiven_of_isAlpha hc rest).1

theorem isGiven_ofPieces {pieces : List Piece} : ∀ {inBody : Bool}
    {before : Option Piece} {lexicon : Lexicon} {lexemes : List Lexeme},
    Spells (ofPieces inBody before lexicon pieces).tokens lexemes →
      ∀ lexeme ∈ lexemes, lexeme.IsGiven := by
  induction pieces with
  | nil =>
      intro inBody before lexicon lexemes h
      obtain rfl := List.map_eq_nil_iff.mp h.symm
      exact nofun
  | cons piece pieces ih =>
      intro inBody before lexicon lexemes h lexeme hmem
      unfold ofPieces Spells at h
      obtain ⟨first, rest, rfl, hfirst, hrest⟩ := List.map_eq_cons_iff.mp h.symm
      rcases List.mem_cons.mp hmem with rfl | hmem
      · exact isGiven_tokenOf hfirst.symm
      · exact ih hrest.symm lexeme hmem

/-- Names that are read are none of those that are made. -/
theorem isGiven {r : Reading} {lexemes : List Lexeme} (h : ofText text = .ok r)
    (hspells : Spells r.tokens lexemes) :
    ∀ lexeme ∈ lexemes, lexeme.IsGiven := by
  unfold ofText at h
  cases hpieces : Piece.ofText text with
  | error e =>
      rw [hpieces] at h
      cases h
  | ok pieces =>
      rw [hpieces] at h
      cases h
      exact isGiven_ofPieces hspells

/-- Whether a text is read into given words is found out by reading it. -/
theorem exists_spelling (text : String) (lexemes : List Lexeme)
    (h : (ofText text).toOption.any fun r => decide (Spells r.tokens lexemes)) :
    ∃ r, ofText text = .ok r ∧ Spells r.tokens lexemes := by
  cases hread : ofText text with
  | error e =>
      rw [hread] at h
      cases h
  | ok r =>
      rw [hread] at h
      exact ⟨r, rfl, of_decide_eq_true h⟩

end Reading

/-! ## Names of lines -/

/-- What lines say is said in the words of their statements. -/
theorem Stmt.within {known : String → Prop} (s : Stmt x)
    (hknown : ∀ y, .identifier y ∈ s.lexemes → known y)
    (hgiven : ∀ lexeme ∈ s.lexemes, lexeme.IsGiven) :
    ∀ {label : Option String} {n r : Nat}, ∀ c ∈ s.chunks label n r,
      c.line.Within known := by
  induction s with
  | assign z e =>
      intro label n r c hc
      obtain rfl := List.mem_singleton.mp hc
      exact ⟨hknown z (by simp [lexemes]),
        fun y hy => hknown y (by simp [lexemes, hy])⟩
  | transfer kind names =>
      intro label n r c hc
      obtain rfl := List.mem_singleton.mp hc
      exact fun y hy => hknown y (by simp [lexemes, Names.lexemes, hy])
  | branch d target =>
      intro label n r c hc
      obtain rfl := List.mem_singleton.mp hc
      exact ⟨fun y hy => hknown y (by simp [lexemes, hy]),
        hgiven (.label target) (by simp [lexemes])⟩
  | loop parameter first last body ih =>
      intro label n r c hc
      have hparameter := hknown parameter (by simp [lexemes])
      have hlast : ∀ y, .identifier y ∈ last.lexemes → known y :=
        fun y hy => hknown y (by simp [lexemes, hy])
      simp only [chunks, List.mem_cons, List.mem_append, List.not_mem_nil,
        or_false] at hc
      rcases hc with rfl | hc | rfl
      · exact ⟨hparameter, fun y hy => hknown y (by simp [lexemes, hy]), hlast⟩
      · exact ih (fun y hy => hknown y (by simp [lexemes, hy]))
          (fun lexeme h => hgiven lexeme (by simp [lexemes, h])) c hc
      · exact ⟨hparameter, hlast⟩
  | plain s ih =>
      intro label n r c hc
      exact ih hknown hgiven c hc
  | labelled l s ih | one s ih =>
      intro label n r c hc
      exact ih (fun y hy => hknown y (by simp [lexemes, hy]))
        (fun lexeme h => hgiven lexeme (by simp [lexemes, h])) c hc
  | more b s ihb ihs =>
      intro label n r c hc
      rcases List.mem_append.mp hc with hc | hc
      · exact ihb (fun y hy => hknown y (by simp [lexemes, hy]))
          (fun lexeme h => hgiven lexeme (by simp [lexemes, h])) c hc
      · exact ihs (fun y hy => hknown y (by simp [lexemes, hy]))
          (fun lexeme h => hgiven lexeme (by simp [lexemes, h])) c hc

/-! ## Variables at the start -/

theorem Formula.name_mem (e : Formula t) :
    ∀ negative, .identifier y ∈ e.lexemes →
      .op (.name y) ∈ e.code negative := by
  induction e with
  | name z =>
      intro negative h
      simp only [lexemes, List.mem_singleton, Lexeme.identifier.injEq] at h
      simp [code, h]
  | constant v => intro negative h; simp [lexemes] at h
  | group e ih =>
      intro negative h
      simp only [lexemes, List.mem_cons, List.mem_append, List.not_mem_nil,
        reduceCtorEq, false_or, or_false] at h
      simp [code, ih false h]
  | compare a o b iha ihb | join a o b iha ihb =>
      intro negative h
      simp only [lexemes, List.mem_cons, List.mem_append, reduceCtorEq,
        false_or] at h
      rcases h with h | h
      · simp [code, iha _ h]
      · simp [code, ihb _ h]
  | bracket c ih =>
      intro negative h
      simp only [lexemes, List.mem_cons, List.mem_append, List.not_mem_nil,
        reduceCtorEq, false_or, or_false] at h
      exact ih false h
  | not a ih | negated a ih =>
      intro negative h
      simp only [lexemes, List.mem_cons, reduceCtorEq, false_or] at h
      simp [code, ih _ h]
  | only a ih => exact ih

/-- Every variable is pushed somewhere. -/
theorem Stmt.name_mem (s : Stmt x) : ∀ {label : Option String} {n r : Nat},
    .identifier y ∈ s.lexemes →
    .op (.name y) ∈ codeOf (s.chunks label n r) := by
  induction s with
  | assign z e =>
      intro label n r h
      simp only [lexemes, List.mem_cons, Lexeme.identifier.injEq, reduceCtorEq,
        false_or] at h
      rcases h with rfl | h
      · simp [chunks, Chunk.items]
      · simp [chunks, Chunk.items, e.name_mem false h]
  | transfer kind names =>
      intro label n r h
      have hmem : y ∈ names.toList := by
        simpa [lexemes, Names.lexemes] using h
      simp only [chunks, Chunk.items, transferCode, codeOf_cons, codeOf_nil,
        List.append_nil, List.mem_append, List.mem_flatMap]
      exact .inr ⟨y, hmem, List.mem_cons_self⟩
  | branch c target =>
      intro label n r h
      have hmem : .identifier y ∈ c.lexemes := by
        simpa [lexemes] using h
      simp [chunks, Chunk.items, branchCode, c.name_mem false hmem]
  | loop parameter first last body ih =>
      intro label n r h
      simp only [lexemes, List.mem_cons, List.mem_append,
        Lexeme.identifier.injEq, List.not_mem_nil, reduceCtorEq, false_or,
        or_false] at h
      rcases h with rfl | h | h | h
      · simp [chunks, Chunk.items, loopCode]
      · simp [chunks, Chunk.items, loopCode, first.name_mem false h]
      · simp [chunks, Chunk.items, loopCode, limitCode, last.name_mem false h]
      · simp [chunks, ih h]
  | plain s ih => exact ih
  | labelled l s ih | one s ih =>
      intro label n r h
      simp only [lexemes, List.mem_cons, reduceCtorEq, false_or] at h
      exact ih h
  | more b s ihb ihs =>
      intro label n r h
      simp only [lexemes, List.mem_cons, List.mem_append, reduceCtorEq,
        false_or] at h
      rcases h with h | h
      · simp [chunks, ihb h]
      · simp [chunks, ihs h]

theorem CarriesAll.op_mem {p : Program} {items : List Item} {ops : List Op}
    {o : Op} (h : CarriesAll p items ops) (ho : .op o ∈ items) : o ∈ ops := by
  induction h with
  | nil => cases ho
  | cons hitem _ ih =>
      rcases List.mem_cons.mp ho with rfl | ho
      · cases hitem with
        | op => exact List.mem_cons_self
      · exact List.mem_append_right _ (ih ho)

/-! ## The statements of a program -/

/-- The words around the statements of a program. -/
def frameWords : List String := ["begin", "end"]

/-- The marks in formulas besides the operators of two operands. -/
def formulaMarks : List String := ["(", ")", "[", "]", "!", "-"]

theorem Binary.text_not_mem_frameWords (o : Binary) : o.text ∉ frameWords := by
  cases o <;> decide

/-- The fixed texts in a formula are operators and brackets. -/
theorem Formula.text_not_mem (hoperator : ∀ o : Binary, text ≠ o.text)
    (hmarks : text ∉ formulaMarks) (e : Formula t) :
    .keyword text ∉ e.lexemes := by
  have hmark : ∀ other ∈ formulaMarks, text ≠ other :=
    fun _ hother => (ne_of_mem_of_not_mem hother hmarks).symm
  induction e with
  | name | constant => simp [lexemes]
  | compare a o b iha ihb | join a o b iha ihb =>
      simp [lexemes, iha, ihb, hoperator]
  | group e ih =>
      simp [lexemes, ih, hmark "(" (by decide), hmark ")" (by decide)]
  | bracket c ih =>
      simp [lexemes, ih, hmark "[" (by decide), hmark "]" (by decide)]
  | not a ih => simp [lexemes, ih, hmark "!" (by decide)]
  | negated a ih => simp [lexemes, ih, hmark "-" (by decide)]
  | only a ih => exact ih

theorem Formula.keyword_not_mem (htext : text ∈ frameWords) (e : Formula t) :
    .keyword text ∉ e.lexemes := by
  have hmarks : ∀ other ∈ frameWords, other ∉ formulaMarks := by decide
  exact e.text_not_mem
    (fun o => ne_of_mem_of_not_mem htext o.text_not_mem_frameWords)
    (hmarks text htext)

theorem Formula.lineBreak_not_mem (e : Formula t) :
    .keyword lineBreak ∉ e.lexemes :=
  e.text_not_mem (fun o => by cases o <;> decide) (by decide)

theorem Names.keyword_not_mem (htext : text ∈ frameWords) (names : Names) :
    .keyword text ∉ names.lexemes := by
  have hcomma : text ≠ "," := ne_of_mem_of_not_mem htext (by decide)
  simp [lexemes, hcomma]

theorem Stmt.keyword_not_mem (htext : text ∈ frameWords) (s : Stmt x) :
    .keyword text ∉ s.lexemes := by
  have hmark : ∀ other, other ∉ frameWords → text ≠ other :=
    fun _ => ne_of_mem_of_not_mem htext
  have hbreak := hmark lineBreak (by decide)
  induction s with
  | assign z e => simp [lexemes, e.keyword_not_mem htext, hmark "=" (by decide)]
  | transfer kind names =>
      simp [lexemes, names.keyword_not_mem htext, hmark "(" (by decide),
        hmark ")" (by decide), hmark kind.keyword (by cases kind <;> decide)]
  | branch c target =>
      simp [lexemes, c.keyword_not_mem htext, hmark "if" (by decide),
        hmark "then" (by decide), hmark "goto" (by decide)]
  | loop parameter first last body ih =>
      simp [lexemes, first.keyword_not_mem htext, last.keyword_not_mem htext,
        ih, hbreak, hmark "do" (by decide), hmark "=" (by decide),
        hmark "to" (by decide), hmark "next" (by decide)]
  | plain s ih => exact ih
  | labelled l s ih => simp [lexemes, ih, hmark ":" (by decide)]
  | one s ih => simp [lexemes, ih, hbreak]
  | more b s ihb ihs => simp [lexemes, ihb, ihs, hbreak]

theorem Definitions.keyword_not_mem (htext : text ∈ frameWords)
    (d : Definitions) : .keyword text ∉ d.lexemes := by
  have hmark : ∀ other, other ∉ frameWords → text ≠ other :=
    fun _ => ne_of_mem_of_not_mem htext
  induction d with
  | one names =>
      simp [lexemes, names.keyword_not_mem htext, hmark ":" (by decide),
        hmark "float" (by decide)]
  | more b names ih =>
      simp [lexemes, ih, names.keyword_not_mem htext, hmark ":" (by decide),
        hmark ";" (by decide), hmark "float" (by decide)]

/-- The statements of a program are what the composer takes. -/
theorem Composer.body?_of_spells {tokens : List Token} {source : Source}
    (h : Spells tokens source.lexemes) : ∃ body, body? tokens = some body ∧
      Spells body (source.body.lexemes ++ [.keyword lineBreak]) := by
  let front : List Lexeme := .keyword "program" :: .identifier source.name ::
    .keyword lineBreak :: .keyword "var" ::
      (source.definitions.lexemes ++ [.keyword lineBreak])
  let inner := source.body.lexemes ++ [.keyword lineBreak]
  have hwords : source.lexemes =
      front ++ .keyword "begin" :: (inner ++ [.keyword "end"]) := by
    simp [Source.lexemes, front, inner]
  have hdefinitions : .keyword "begin" ∉ source.definitions.lexemes :=
    source.definitions.keyword_not_mem (by decide)
  have hfront : .keyword "begin" ∉ front := by
    simp [front, hdefinitions, lineBreak]
  have hstatements : .keyword "end" ∉ source.body.lexemes :=
    source.body.keyword_not_mem (by decide)
  have hinner : .keyword "end" ∉ inner := by
    simp [inner, hstatements, lineBreak]
  rw [hwords, spells_iff_reads, reads_append_iff] at h
  obtain ⟨later, ⟨before, rfl, hbefore⟩, hlater⟩ := h
  obtain ⟨start, behind, rfl, hstart, hbehind⟩ := reads_cons_iff.mp hlater
  obtain ⟨later, ⟨body, rfl, hbody⟩, hlast⟩ := reads_append_iff.mp hbehind
  obtain ⟨stop, rest, rfl, hstop, hrest⟩ := reads_cons_iff.mp hlast
  obtain rfl := reads_nil_iff.mp hrest
  have hbegins := hbefore.isKeyword_eq_false hfront
  have hends := hbody.isKeyword_eq_false hinner
  refine ⟨body, ?_, hbody⟩
  unfold body?
  rw [List.dropWhile_append_of_pos (fun t ht => by simp [hbegins t ht]),
    List.dropWhile_cons_of_neg (by simp [Token.isKeyword_iff.mpr hstart])]
  dsimp only
  rw [if_pos (by simp [Token.isKeyword_iff.mpr hstop]),
    List.takeWhile_append_of_pos (fun t ht => by simp [hends t ht]),
    List.takeWhile_cons_of_neg (by simp [Token.isKeyword_iff.mpr hstop]),
    List.append_nil]

/-! ## Programs -/

/-- The lines of a program with their code. -/
def Source.chunks (source : Source) : List Chunk := source.body.chunks none 0 0

/-- A variable of a program. -/
def Source.Uses (source : Source) (y : String) : Prop :=
  .identifier y ∈ source.body.lexemes

/-- Tokens are composed if they can be fed and nothing is pending at the end. -/
theorem Composer.composeBare_eq_ok {tokens : List Token} {labels : List String}
    {store : Store} {c c' : Composer}
    (hfeeds : feedAll { labels, store } none tokens = .ok c)
    (hend : c.endLine tokens.getLast? = .ok c')
    (hstack : c'.stack.map Frame.pending = []) :
    composeBare tokens labels store = .ok c' := by
  rw [composeBare, hfeeds]
  show (do let c ← c.endLine tokens.getLast?; c.finish) = _
  rw [hend]
  show c'.finish = _
  rw [finish, List.map_eq_nil_iff.mp hstack]

/-- A program is composed, whatever names there are at the start. -/
theorem Composer.compose_eq_ok {tokens : List Token} {source : Source}
    (h : Spells tokens source.lexemes) (labels : List String) (store : Store) :
    ∃ c, compose tokens labels store = .ok c ∧
      Emits c.program (source.body.items ⟨labels, store⟩) := by
  obtain ⟨body, hbody, hspells⟩ := body?_of_spells h
  let start : View := { stock := ⟨labels, store⟩ }
  have hempty : Shows { labels, store } start :=
    { emits := .empty, stack := rfl, labels := rfl, store := rfl }
  have hbreak : Feeds none start (.keyword lineBreak) start :=
    feeds_quietBreak (v := start) Settled.nil
  have hfeeds := composes .block source.body Settled.nil hbreak
  obtain ⟨c, hc, hshows⟩ := hfeeds.feedAll hspells hempty (b := none) rfl
  have hend : c.endLine body.getLast? = .ok c := by
    obtain ⟨front, last, rfl, -, hlast⟩ := List.map_eq_append_iff.mp
      (hspells.trans List.map_append)
    obtain ⟨t, rfl, ht⟩ := List.map_eq_singleton_iff.mp hlast
    rw [List.getLast?_concat]
    exact if_pos (Token.isKeyword_iff.mpr ht)
  refine ⟨c, ?_, hshows.emits⟩
  unfold compose
  rw [hbody]
  exact composeBare_eq_ok hc hend hshows.stack

/-- A program is composed into the code of its lines. -/
theorem Composer.compose_of_spells {tokens : List Token} {source : Source}
    (h : Spells tokens source.lexemes) : ∃ c, compose tokens [] .empty = .ok c ∧
      Emits c.program (codeOf source.chunks) := by
  obtain ⟨c, hc, hemits⟩ := compose_eq_ok h [] .empty
  rw [← source.body.codeOf_chunks .empty] at hemits
  exact ⟨c, hc, hemits⟩

/-- The code of a program renders its script. -/
theorem Source.renders {source : Source} {p : Program}
    (hgiven : ∀ lexeme ∈ source.body.lexemes, lexeme.IsGiven)
    (hemits : Emits p (codeOf source.chunks)) :
    Renders p (source.script p) source.chunks source.Uses where
  lines := source.body.chunks_lines none 0 0
  pooled := rfl
  emits := hemits
  fits := by
    have hfits : FitsAll ([] ++ source.chunks ++ []) 0 source.chunks :=
      source.body.fits nofun nofun hgiven
    rwa [List.nil_append, List.append_nil] at hfits
  within := source.body.within (fun _ => id) hgiven
  made l hl := by
    obtain ⟨k, hk, -⟩ := source.body.place_mem hl
    exact ⟨k, hk⟩
  given y hy := hgiven _ hy

/-- A run begins where its script does. -/
theorem Source.mirrors_start {source : Source} {p : Program}
    (hemits : Emits p (codeOf source.chunks)) (input : List UInt8) :
    Mirrors source.chunks source.Uses { input }
      (.start (Store.empty.prepare p) input none) where
  values y hy := by
    have hmem := hemits.carries.op_mem (source.body.name_mem hy)
    exact Store.get?_prepare.trans (if_pos (Program.mem_identifiers.mpr hmem))
  input := rfl
  output := rfl
  room := rfl
  stack := rfl
  position := .start

/-! ## Compiling -/

namespace Compilation

variable {checker : Checker} {compiled : Compilation}

/-- Compiles what has been read, without asking a recogniser first. -/
def ofReading (reading : Reading) : Except Error Compilation := do
  let parsed ← (Language.parse reading.tokens).mapError .parse
  let composed ← (Composer.compose reading.tokens [] .empty).mapError
    (.compose ·.error)
  return { reading, diagnostics := Diagnostic.ofTokens reading.tokens, parsed,
           program := composed.program }

/-- Asking a recogniser changes nothing of what is compiled. -/
theorem exists_ofReading (h : ofText checker text = .ok compiled) :
    ∃ reading, Reading.ofText text = .ok reading ∧
      ofReading reading = .ok compiled := by
  obtain ⟨reading, hread, h⟩ := bind_eq_ok_iff.mp h
  refine ⟨reading, mapError_eq_ok_iff.mp hread, ?_⟩
  dsimp only at h
  split at h
  · exact h
  · obtain ⟨-, -, h⟩ := bind_eq_ok_iff.mp h
    exact h

/-- What is compiled has been read, parsed and composed. -/
theorem stages (h : ofText checker text = .ok compiled) :
    Reading.ofText text = .ok compiled.reading ∧
      Language.parse compiled.reading.tokens = .ok compiled.parsed ∧
        ∃ c, Composer.compose compiled.reading.tokens [] .empty = .ok c ∧
          c.program = compiled.program := by
  obtain ⟨reading, hread, hrest⟩ := exists_ofReading h
  obtain ⟨parsed, hparse, hrest⟩ := bind_eq_ok_iff.mp hrest
  obtain ⟨c, hcompose, hrest⟩ := bind_eq_ok_iff.mp hrest
  cases hrest
  exact ⟨hread, mapError_eq_ok_iff.mp hparse, c,
    mapError_eq_ok_iff.mp hcompose, rfl⟩

/-- The advice is about what has been read. -/
theorem diagnostics_eq (h : ofText checker text = .ok compiled) :
    compiled.diagnostics = Diagnostic.ofTokens compiled.reading.tokens := by
  obtain ⟨reading, -, hrest⟩ := exists_ofReading h
  obtain ⟨parsed, -, hrest⟩ := bind_eq_ok_iff.mp hrest
  obtain ⟨c, -, hrest⟩ := bind_eq_ok_iff.mp hrest
  cases hrest
  rfl

/-- Texts of programs are compiled. -/
theorem exists_ok {reading : Reading} {source : Source}
    (hread : Reading.ofText text = .ok reading)
    (hspells : Spells reading.tokens source.lexemes) :
    ∃ compiled, ofText .precedence text = .ok compiled ∧
      compiled.reading = reading := by
  obtain ⟨parsed, hparse⟩ := Language.parse_ok_iff.mpr
    (Language.derives_iff_source.mpr ⟨source, hspells⟩)
  obtain ⟨c, hcompose, -⟩ := Composer.compose_of_spells hspells
  refine ⟨⟨reading, Diagnostic.ofTokens reading.tokens, parsed, c.program⟩,
    bind_eq_ok_iff.mpr ⟨reading, mapError_eq_ok_iff.mpr hread, ?_⟩, rfl⟩
  dsimp only
  rw [if_pos rfl]
  exact bind_eq_ok_iff.mpr ⟨parsed, mapError_eq_ok_iff.mpr hparse,
    bind_eq_ok_iff.mpr ⟨c, mapError_eq_ok_iff.mpr hcompose, rfl⟩⟩

end Compilation

end Reckon
