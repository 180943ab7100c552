import Reckon.Proofs.Descent.Complete
import Reckon.Proofs.Pushdown.Complete

/-!
# Everything the automaton accepts is a program

From the first state of a part the automaton can only accept an input that
starts with the words of a tree of that part, and what is behind these it
accepts from the state that it was to return to. The automaton reads operands
and operators as they come; the tiers are put in afterwards, by extending the
tree of what has been read so far: `exists_arithmetic` and `exists_logic` say
that an operator and an operand always extend it, whatever the operator.

The proofs go by induction on the length of the input, since a bracket leads
back to where it stands and a loop to its own lines.
-/

namespace Reckon.Pushdown

variable {p : Pushdown} {s m r : List Token} {k : List State} {back : State}

/-! ## Taking an accepted input apart -/

/-- The words that an edge is for. -/
def Covers : Offer → Lexeme → Prop
  | .keyword text, x => x = .keyword text
  | .identifier, x => ∃ name, x = .identifier name
  | .constant, x => ∃ v, x = .constant v
  | .label, x => ∃ name, x = .label name
  | .endOfInput, _ => False

theorem exists_of_first {x : Lexeme} (h : firstLexeme s = some x) :
    ∃ t m, s = t :: m ∧ t.lexeme? = some x := by
  cases s with
  | nil => cases h
  | cons t m => exact ⟨t, m, rfl, h⟩

theorem exists_word_of_fits {o : Offer} (ho : o ≠ .endOfInput)
    (h : o.fits s.head? = true) :
    ∃ t m x, s = t :: m ∧ t.lexeme? = some x ∧ Covers o x := by
  suffices ∃ x, firstLexeme s = some x ∧ Covers o x by
    obtain ⟨x, hfirst, hx⟩ := this
    obtain ⟨t, m, hs, ht⟩ := exists_of_first hfirst
    exact ⟨t, m, x, hs, ht, hx⟩
  cases o with
  | keyword text => exact ⟨_, Offer.fits_keyword.mp h, rfl⟩
  | identifier =>
      obtain ⟨x, hx⟩ := Offer.fits_identifier.mp h
      exact ⟨_, hx, x, rfl⟩
  | constant =>
      obtain ⟨v, hv⟩ := Offer.fits_constant.mp h
      exact ⟨_, hv, v, rfl⟩
  | label =>
      obtain ⟨x, hx⟩ := Offer.fits_label.mp h
      exact ⟨_, hx, x, rfl⟩
  | endOfInput => exact absurd rfl ho

/-- A move takes the first word, and the rest is accepted behind it. -/
def AcceptsWord (p : Pushdown) (o : Offer) (move : Move)
    (s : List Token) : Prop :=
  ∃ t m x q, s = t :: m ∧ t.lexeme? = some x ∧ Covers o x ∧
    p.take move = .ok q ∧ Accepts q m

/-- Only at the very end an edge takes the end of the input. -/
theorem ne_endOfInput {state : State} (h : state ≠ .done) :
    ∀ e ∈ state.row.edges, e.1 ≠ .endOfInput := by
  cases state with
  | done => exact absurd rfl h
  | _ => decide

theorem Accepts.word_or_fall (h : Accepts p s) (hdone : p.state ≠ .done) :
    (∃ e ∈ p.state.row.edges, AcceptsWord p e.1 e.2 s) ∨
      ∃ q, p.fall? = some q ∧ Accepts q s := by
  obtain ⟨e, he, hfits, q, htake, htail⟩ | hfall := h.cases
  · obtain ⟨t, m, x, rfl, ht, hx⟩ :=
      exists_word_of_fits (ne_endOfInput hdone e he) hfits
    exact .inl ⟨e, he, t, m, x, q, rfl, ht, hx, htake, htail⟩
  · exact .inr hfall

/-- A state with a single edge and no fallback. -/
theorem Accepts.single {o : Offer} {move : Move} (h : Accepts p s)
    (hrow : p.state.row = ⟨[(o, move)], .fail none⟩) (hdone : p.state ≠ .done) :
    AcceptsWord p o move s := by
  obtain ⟨e, he, hword⟩ | ⟨q, hfall, -⟩ := h.word_or_fall hdone
  · rw [hrow] at he
    obtain rfl := List.mem_singleton.mp he
    exact hword
  · unfold fall? at hfall
    rw [hrow] at hfall
    cases hfall

/-! ## Arithmetic -/

/-- An operator and an operand behind a sum make up a sum again. -/
theorem exists_arithmetic (e : Expression) {o : Binary}
    (ho : o ∈ (Tier.chain .sum).stops) (f : Formula .factor) :
    ∃ e' : Expression,
      e'.lexemes = e.lexemes ++ .keyword o.text :: f.lexemes := by
  by_cases hsum : o ∈ Level.sum.operators
  · exact ⟨.join e ⟨o, hsum⟩ (.only f), rfl⟩
  · have hproduct : o ∈ Level.product.operators := by
      revert o
      decide
    cases e with
    | only a => exact ⟨.only (.join a ⟨o, hproduct⟩ f), rfl⟩
    | negated a => exact ⟨.negated (.join a ⟨o, hproduct⟩ f), rfl⟩
    | join e q a =>
        exact ⟨.join e q (.join a ⟨o, hproduct⟩ f), by simp [Formula.lexemes]⟩

theorem exists_logic (c : Condition) {o : Binary} (ho : o = .and ∨ o = .or)
    (t : Formula .test) :
    ∃ c' : Condition,
      c'.lexemes = c.lexemes ++ .keyword o.text :: t.lexemes := by
  rcases ho with rfl | rfl
  · have hand : Binary.and ∈ Level.conjunction.operators := by decide
    cases c with
    | only a => exact ⟨.only (.join a ⟨.and, hand⟩ t), rfl⟩
    | join c q a =>
        exact ⟨.join c q (.join a ⟨.and, hand⟩ t), by simp [Formula.lexemes]⟩
  · have hor : Binary.or ∈ Level.condition.operators := by decide
    exact ⟨.join c ⟨.or, hor⟩ (.only t), rfl⟩

/-- An expression goes on as long as operators follow. -/
theorem exists_expression_of_operator {n : Nat}
    (hoperand : ∀ s, s.length < n → Accepts ⟨.operand, back :: k⟩ s →
      ∃ (f : Formula .factor) (r : List Token), Reads s f.lexemes r ∧
        Accepts ⟨.operator, back :: k⟩ r)
    (hm : m.length ≤ n) (h : Accepts ⟨.operator, back :: k⟩ m) (e : Expression)
    (he : Reads s e.lexemes m) :
    ∃ (e : Expression) (r : List Token), Reads s e.lexemes r ∧
      Accepts ⟨back, k⟩ r := by
  induction hlength : m.length using Nat.strongRecOn generalizing m e with
  | _ length ih =>
      subst hlength
      obtain ⟨edge, hedge, hword⟩ | ⟨q, hfall, hq⟩ := h.word_or_fall nofun
      · have hoperator : ∃ o ∈ (Tier.chain .sum).stops,
            edge = (.keyword o.text, .goto .operand) := by
          simp only [State.row, List.map_cons, List.map_nil, List.mem_cons,
            List.not_mem_nil, or_false] at hedge
          rcases hedge with rfl | rfl | rfl | rfl
          · exact ⟨.add, by decide, rfl⟩
          · exact ⟨.sub, by decide, rfl⟩
          · exact ⟨.mul, by decide, rfl⟩
          · exact ⟨.div, by decide, rfl⟩
        obtain ⟨o, ho, rfl⟩ := hoperator
        obtain ⟨t, v, _, _, rfl, ht, rfl, ⟨⟩, hv⟩ := hword
        rw [List.length_cons] at hm
        obtain ⟨f, r, hf, hr⟩ := hoperand v (by omega) hv
        obtain ⟨e', he'⟩ := exists_arithmetic e ho f
        have hlonger : Reads s e'.lexemes r := by
          rw [he']
          exact he.append (hf.cons ht)
        have hshorter := hf.length_eq
        exact ih r.length (by rw [List.length_cons]; omega) (by omega) hr e'
          hlonger rfl
      · cases hfall
        exact ⟨e, m, he, hq⟩

theorem exists_factor_of_operand
    (hgroup : ∀ m back k, m.length < s.length →
      Accepts ⟨.exprStart, back :: k⟩ m →
      ∃ (e : Expression) (r : List Token), Reads m e.lexemes r ∧
        Accepts ⟨back, k⟩ r)
    (h : Accepts ⟨.operand, k⟩ s) :
    ∃ (f : Formula .factor) (r : List Token), Reads s f.lexemes r ∧
      Accepts ⟨.operator, k⟩ r := by
  obtain ⟨edge, hedge, hword⟩ | ⟨q, hfall, hq⟩ := h.word_or_fall nofun
  · simp only [State.row, List.mem_cons, List.not_mem_nil, or_false] at hedge
    rcases hedge with rfl | rfl | rfl
    · obtain ⟨t, m, _, _, rfl, ht, ⟨x, rfl⟩, ⟨⟩, hm⟩ := hword
      exact ⟨.name x, m, Reads.one ht, hm⟩
    · obtain ⟨t, m, _, _, rfl, ht, ⟨v, rfl⟩, ⟨⟩, hm⟩ := hword
      exact ⟨.constant v, m, Reads.one ht, hm⟩
    · obtain ⟨t, m, _, _, rfl, ht, rfl, ⟨⟩, hm⟩ := hword
      obtain ⟨e, v, he, hv⟩ := hgroup m _ _ (by simp) hm
      obtain ⟨u, r, _, _, rfl, hu, rfl, ⟨⟩, hr⟩ :=
        hv.single rfl (by rintro ⟨⟩)
      exact ⟨.group e, r, (he.append (Reads.one hu)).cons ht, hr⟩
  · cases hfall

theorem exists_expression_of_length (n : Nat) :
    ∀ (s : List Token) (back : State)
    (k : List State), s.length < n → Accepts ⟨.exprStart, back :: k⟩ s →
      ∃ (e : Expression) (r : List Token), Reads s e.lexemes r ∧
        Accepts ⟨back, k⟩ r := by
  induction n with
  | zero =>
      intro s back k hlength
      cases hlength
  | succ n ih =>
      intro s back k hlength h
      have hoperand : ∀ m, m.length < n + 1 → Accepts ⟨.operand, back :: k⟩ m →
          ∃ (f : Formula .factor) (r : List Token), Reads m f.lexemes r ∧
            Accepts ⟨.operator, back :: k⟩ r := fun m hm hoperand =>
        exists_factor_of_operand (fun v back k hv => ih v back k (by omega))
          hoperand
      obtain ⟨edge, hedge, hword⟩ | ⟨q, hfall, hq⟩ := h.word_or_fall nofun
      · obtain rfl := List.mem_singleton.mp hedge
        obtain ⟨t, m, _, _, rfl, ht, rfl, ⟨⟩, hm⟩ := hword
        rw [List.length_cons] at hlength
        obtain ⟨f, v, hf, hv⟩ := hoperand m (by omega) hm
        have hshorter := hf.length_eq
        exact exists_expression_of_operator hoperand (by omega) hv
          (.negated (.only f)) (hf.cons ht)
      · cases hfall
        obtain ⟨f, v, hf, hv⟩ := hoperand s hlength hq
        have hshorter := hf.length_eq
        exact exists_expression_of_operator hoperand (by omega) hv
          (.only (.only f)) hf

theorem exists_expression (h : Accepts ⟨.exprStart, back :: k⟩ s) :
    ∃ (e : Expression) (r : List Token), Reads s e.lexemes r ∧
      Accepts ⟨back, k⟩ r :=
  exists_expression_of_length (s.length + 1) s back k (Nat.lt_succ_self _) h

/-! ## Conditions -/

/-- A condition goes on as long as `and` or `or` follows. -/
theorem exists_condition_of_condNext {n : Nat}
    (htest : ∀ s, s.length < n → Accepts ⟨.condStart, back :: k⟩ s →
      ∃ (t : Formula .test) (r : List Token), Reads s t.lexemes r ∧
        Accepts ⟨.condNext, back :: k⟩ r)
    (hm : m.length ≤ n) (h : Accepts ⟨.condNext, back :: k⟩ m) (c : Condition)
    (hc : Reads s c.lexemes m) :
    ∃ (c : Condition) (r : List Token), Reads s c.lexemes r ∧
      Accepts ⟨back, k⟩ r := by
  induction hlength : m.length using Nat.strongRecOn generalizing m c with
  | _ length ih =>
      subst hlength
      obtain ⟨edge, hedge, hword⟩ | ⟨q, hfall, hq⟩ := h.word_or_fall nofun
      · have hjoiner : ∃ o : Binary, (o = .and ∨ o = .or) ∧
            edge = (.keyword o.text, .goto .condStart) := by
          simp only [State.row, List.mem_cons, List.not_mem_nil, or_false]
            at hedge
          rcases hedge with rfl | rfl
          · exact ⟨.and, .inl rfl, rfl⟩
          · exact ⟨.or, .inr rfl, rfl⟩
        obtain ⟨o, ho, rfl⟩ := hjoiner
        obtain ⟨t, v, _, _, rfl, ht, rfl, ⟨⟩, hv⟩ := hword
        rw [List.length_cons] at hm
        obtain ⟨a, r, ha, hr⟩ := htest v (by omega) hv
        obtain ⟨c', hc'⟩ := exists_logic c ho a
        have hlonger : Reads s c'.lexemes r := by
          rw [hc']
          exact hc.append (ha.cons ht)
        have hshorter := ha.length_eq
        exact ih r.length (by rw [List.length_cons]; omega) (by omega) hr c'
          hlonger rfl
      · cases hfall
        exact ⟨c, m, hc, hq⟩

theorem exists_test_of_length (n : Nat) : ∀ (s : List Token) (k : List State),
    s.length < n → Accepts ⟨.condStart, k⟩ s →
      ∃ (t : Formula .test) (r : List Token), Reads s t.lexemes r ∧
        Accepts ⟨.condNext, k⟩ r := by
  induction n with
  | zero =>
      intro s k hlength
      cases hlength
  | succ n ih =>
      intro s k hlength h
      obtain ⟨edge, hedge, hword⟩ | ⟨q, hfall, hq⟩ := h.word_or_fall nofun
      · simp only [State.row, List.mem_cons, List.not_mem_nil, or_false]
          at hedge
        rcases hedge with rfl | rfl
        · obtain ⟨t, m, _, _, rfl, ht, rfl, ⟨⟩, hm⟩ := hword
          rw [List.length_cons] at hlength
          obtain ⟨a, r, ha, hr⟩ := ih m k (by omega) hm
          exact ⟨.not a, r, ha.cons ht, hr⟩
        · obtain ⟨t, m, _, _, rfl, ht, rfl, ⟨⟩, hm⟩ := hword
          rw [List.length_cons] at hlength
          have htest : ∀ v, v.length < n →
              Accepts ⟨.condStart, .condClose :: k⟩ v →
              ∃ (t : Formula .test) (r : List Token), Reads v t.lexemes r ∧
                Accepts ⟨.condNext, .condClose :: k⟩ r := fun v => ih v _
          obtain ⟨a, v, ha, hv⟩ := htest m (by omega) hm
          have hshorter := ha.length_eq
          obtain ⟨c, w, hc, hw⟩ := exists_condition_of_condNext htest (by omega)
            hv (.only (.only a)) ha
          obtain ⟨u, r, _, _, rfl, hu, rfl, ⟨⟩, hr⟩ :=
            hw.single rfl (by rintro ⟨⟩)
          exact ⟨.bracket c, r, (hc.append (Reads.one hu)).cons ht, hr⟩
      · cases hfall
        obtain ⟨a, m, ha, hm⟩ := exists_expression hq
        obtain ⟨edge, hedge, hword⟩ | ⟨q, hfall, -⟩ :=
          hm.word_or_fall (by rintro ⟨⟩)
        · have hrelop : ∃ o : Comparison,
              edge = (.keyword o.val.text, .call .exprStart .condNext) := by
            obtain ⟨text, htext, rfl⟩ := List.mem_map.mp hedge
            obtain ⟨o, rfl⟩ := Language.exists_comparison htext
            exact ⟨o, rfl⟩
          obtain ⟨o, rfl⟩ := hrelop
          obtain ⟨t, v, _, _, rfl, ht, rfl, ⟨⟩, hv⟩ := hword
          obtain ⟨b, r, hb, hr⟩ := exists_expression hv
          exact ⟨.compare a o b, r, ha.append (hb.cons ht), hr⟩
        · cases hfall

theorem exists_condition (h : Accepts ⟨.condStart, back :: k⟩ s) :
    ∃ (c : Condition) (r : List Token), Reads s c.lexemes r ∧
      Accepts ⟨back, k⟩ r := by
  have htest :=
    fun m hm => exists_test_of_length (s.length + 1) m (back :: k) hm
  obtain ⟨a, v, ha, hv⟩ := htest s (Nat.lt_succ_self _) h
  have hshorter := ha.length_eq
  exact exists_condition_of_condNext htest (by omega) hv (.only (.only a)) ha

/-! ## Statements -/

/-- Names go on as long as commas follow, and then they are closed. -/
theorem exists_names (name : State) {next : State} {closing : Offer}
    {move : Move} (hname : name.row = ⟨[(.identifier, .goto next)], .fail none⟩)
    (hnext : next.row =
      ⟨[(.keyword ",", .goto name), (closing, move)], .fail none⟩)
    (hdone : name ≠ .done ∧ next ≠ .done)
    (h : Accepts ⟨next, k⟩ m) (n : Names) (hn : Reads s n.lexemes m) :
    ∃ (n : Names) (r : List Token), Reads s n.lexemes r ∧
      AcceptsWord ⟨next, k⟩ closing move r := by
  induction hlength : m.length using Nat.strongRecOn generalizing m n with
  | _ length ih =>
      subst hlength
      obtain ⟨edge, hedge, hword⟩ | ⟨q, hfall, -⟩ := h.word_or_fall hdone.2
      · rw [hnext] at hedge
        simp only [List.mem_cons, List.not_mem_nil, or_false] at hedge
        rcases hedge with rfl | rfl
        · obtain ⟨t, v, _, _, rfl, ht, rfl, ⟨⟩, hv⟩ := hword
          obtain ⟨u, r, _, _, rfl, hu, ⟨x, rfl⟩, ⟨⟩, hr⟩ :=
            hv.single hname hdone.1
          have hlexemes : Names.lexemes ⟨n.first, n.others ++ [x]⟩ =
              n.lexemes ++ [.keyword ",", .identifier x] := by
            simp [Names.lexemes, Names.toList]
          have hlonger :
              Reads s (Names.lexemes ⟨n.first, n.others ++ [x]⟩) r := by
            rw [hlexemes]
            exact hn.append ((Reads.one hu).cons ht)
          exact ih r.length (by simp only [List.length_cons]; omega) hr _
            hlonger rfl
        · exact ⟨n, m, hn, hword⟩
      · unfold fall? at hfall
        rw [hnext] at hfall
        cases hfall

theorem exists_transfer (kind : Transfer) {t : Token}
    (ht : t.lexeme? = some (.keyword kind.keyword))
    (h : Accepts ⟨.ioOpen, back :: k⟩ m) :
    ∃ (a : Stmt .bare) (r : List Token), Reads (t :: m) a.lexemes r ∧
      Accepts ⟨back, k⟩ r := by
  obtain ⟨t₁, m, _, _, rfl, h₁, rfl, ⟨⟩, hm⟩ := h.single rfl nofun
  obtain ⟨t₂, m, _, _, rfl, h₂, rfl, ⟨⟩, hm⟩ := hm.single rfl nofun
  obtain ⟨t₃, m, _, _, rfl, h₃, ⟨x, rfl⟩, ⟨⟩, hm⟩ := hm.single rfl nofun
  have hfirst : Reads (t₂ :: t₃ :: m) (Names.lexemes ⟨x, []⟩) m :=
    (Reads.one h₃).cons h₂
  obtain ⟨n, v, hn, hv⟩ := exists_names .ioId rfl rfl ⟨nofun, nofun⟩ hm _
    hfirst
  obtain ⟨t₄, r, _, _, rfl, h₄, rfl, ⟨⟩, hr⟩ := hv
  exact ⟨.transfer kind n, r, ((hn.append (Reads.one h₄)).cons h₁).cons ht, hr⟩

namespace Region

/-- The word that closes a block. -/
def word : Region → String
  | body => "end"
  | loop => "next"

/-- Where the closing word leads. -/
def leaving : Region → Move
  | body => .goto .done
  | loop => .back

theorem row_opened (region : Region) : region.opened.row =
    ⟨[(.keyword lineBreak, .call .statement region.line)], .fail none⟩ := by
  cases region <;> rfl

theorem row_line (region : Region) : region.line.row =
    ⟨[(.keyword lineBreak, .goto region.next)], .fail none⟩ := by
  cases region <;> rfl

theorem row_next (region : Region) : region.next.row =
    ⟨[(.keyword region.word, region.leaving)],
      .enter .statement region.line⟩ := by
  cases region <;> rfl

theorem ne_done (region : Region) :
    region.opened ≠ .done ∧ region.line ≠ .done ∧ region.next ≠ .done := by
  cases region <;> decide

end Region

/-- What is accepted as the statement of a line and leads back is such a
statement. -/
def LineSound (n : Nat) : Prop :=
  ∀ (s : List Token) (back : State) (k : List State), s.length < n →
    Accepts ⟨.statement, back :: k⟩ s →
      ∃ (a : Stmt .line) (r : List Token), Reads s a.lexemes r ∧
        Accepts ⟨back, k⟩ r

/-- A block goes on until its closing word comes. -/
theorem exists_block_of_line {n : Nat} (hline : LineSound n) (region : Region)
    (hm : m.length ≤ n) (h : Accepts ⟨region.line, k⟩ m) (b : Stmt .block)
    (hb : Reads s b.lexemes m) :
    ∃ (b : Stmt .block) (r : List Token),
      Reads s (b.lexemes ++ [.keyword lineBreak]) r ∧
        AcceptsWord ⟨region.next, k⟩
          (.keyword region.word) region.leaving r := by
  induction hlength : m.length using Nat.strongRecOn generalizing m b with
  | _ length ih =>
      subst hlength
      obtain ⟨t, v, _, _, rfl, ht, rfl, ⟨⟩, hv⟩ :=
        h.single region.row_line region.ne_done.2.1
      rw [List.length_cons] at hm
      obtain ⟨edge, hedge, hword⟩ | ⟨q, hfall, hq⟩ :=
        hv.word_or_fall region.ne_done.2.2
      · rw [region.row_next] at hedge
        obtain rfl := List.mem_singleton.mp hedge
        exact ⟨b, v, hb.append (Reads.one ht), hword⟩
      · unfold fall? at hfall
        simp only [region.row_next] at hfall
        cases hfall
        obtain ⟨a, r, ha, hr⟩ := hline v _ _ (by omega) hq
        have hshorter := ha.length_eq
        exact ih r.length (by rw [List.length_cons]; omega) (by omega) hr
          (.more b a) (hb.append (ha.cons ht)) rfl

theorem exists_block {n : Nat} (hline : LineSound n) (region : Region)
    (hs : s.length ≤ n) (h : Accepts ⟨region.opened, k⟩ s) :
    ∃ (b : Stmt .block) (r : List Token),
      Reads s (b.lexemes ++ [.keyword lineBreak]) r ∧
        AcceptsWord ⟨region.next, k⟩
          (.keyword region.word) region.leaving r := by
  obtain ⟨t, v, _, _, rfl, ht, rfl, ⟨⟩, hv⟩ :=
    h.single region.row_opened region.ne_done.1
  rw [List.length_cons] at hs
  obtain ⟨a, m, ha, hm⟩ := hline v _ _ (by omega) hv
  have hshorter := ha.length_eq
  exact exists_block_of_line hline region (by omega) hm (.one a) (ha.cons ht)

theorem exists_loop {n : Nat} {t : Token} (hline : LineSound n)
    (hm : m.length ≤ n) (ht : t.lexeme? = some (.keyword "do"))
    (h : Accepts ⟨.loopVar, back :: k⟩ m) :
    ∃ (a : Stmt .bare) (r : List Token), Reads (t :: m) a.lexemes r ∧
      Accepts ⟨back, k⟩ r := by
  obtain ⟨t₁, m, _, _, rfl, h₁, ⟨x, rfl⟩, ⟨⟩, h⟩ := h.single rfl nofun
  obtain ⟨t₂, m, _, _, rfl, h₂, rfl, ⟨⟩, h⟩ := h.single rfl nofun
  obtain ⟨first, m, hfirst, h⟩ := exists_expression h
  obtain ⟨t₃, m, _, _, rfl, h₃, rfl, ⟨⟩, h⟩ := h.single rfl nofun
  obtain ⟨last, m, hlast, h⟩ := exists_expression h
  have hlength₁ := hfirst.length_eq
  have hlength₂ := hlast.length_eq
  simp only [List.length_cons] at hm hlength₁
  obtain ⟨body, v, hbody, hword⟩ := exists_block hline .loop (by omega) h
  obtain ⟨t₄, r, _, _, rfl, h₄, rfl, ⟨⟩, hr⟩ := hword
  obtain ⟨_, hblock, hbreak⟩ := reads_append_iff.mp hbody
  have hlimit := hlast.append (hblock.append (hbreak.append (Reads.one h₄)))
  have hrest := hfirst.append (hlimit.cons h₃)
  exact ⟨.loop x first last body, r, ((hrest.cons h₂).cons h₁).cons ht, hr⟩

theorem exists_branch {t : Token} (ht : t.lexeme? = some (.keyword "if"))
    (h : Accepts ⟨.condStart, .ifThen :: back :: k⟩ m) :
    ∃ (a : Stmt .bare) (r : List Token), Reads (t :: m) a.lexemes r ∧
      Accepts ⟨back, k⟩ r := by
  obtain ⟨c, m, hc, h⟩ := exists_condition h
  obtain ⟨t₁, m, _, _, rfl, h₁, rfl, ⟨⟩, h⟩ := h.single rfl nofun
  obtain ⟨t₂, m, _, _, rfl, h₂, rfl, ⟨⟩, h⟩ := h.single rfl nofun
  obtain ⟨t₃, m, _, _, rfl, h₃, ⟨x, rfl⟩, ⟨⟩, hr⟩ := h.single rfl nofun
  exact ⟨.branch c x, m,
    (hc.append (((Reads.one h₃).cons h₂).cons h₁)).cons ht, hr⟩

theorem exists_bare {n : Nat} {state : State} {edge : Offer × Move}
    (hline : LineSound n) (hs : s.length ≤ n + 1)
    (hedge : edge ∈ State.statementEdges)
    (hword : AcceptsWord ⟨state, back :: k⟩ edge.1 edge.2 s) :
    ∃ (a : Stmt .bare) (r : List Token), Reads s a.lexemes r ∧
      Accepts ⟨back, k⟩ r := by
  simp only [State.statementEdges, List.mem_cons, List.not_mem_nil, or_false]
    at hedge
  rcases hedge with rfl | rfl | rfl | rfl | rfl
  · obtain ⟨t, m, _, _, rfl, ht, ⟨x, rfl⟩, ⟨⟩, hm⟩ := hword
    obtain ⟨u, v, _, _, rfl, hu, rfl, ⟨⟩, hv⟩ := hm.single rfl nofun
    obtain ⟨e, r, he, hr⟩ := exists_expression hv
    exact ⟨.assign x e, r, (he.cons hu).cons ht, hr⟩
  · obtain ⟨t, m, _, _, rfl, ht, rfl, ⟨⟩, hm⟩ := hword
    exact exists_transfer .read ht hm
  · obtain ⟨t, m, _, _, rfl, ht, rfl, ⟨⟩, hm⟩ := hword
    exact exists_transfer .write ht hm
  · obtain ⟨t, m, _, _, rfl, ht, rfl, ⟨⟩, hm⟩ := hword
    rw [List.length_cons] at hs
    exact exists_loop hline (by omega) ht hm
  · obtain ⟨t, m, _, _, rfl, ht, rfl, ⟨⟩, hm⟩ := hword
    exact exists_branch ht hm

theorem lineSound (n : Nat) : LineSound n := by
  induction n with
  | zero =>
      intro s back k hlength
      cases hlength
  | succ n ih =>
      intro s back k hlength h
      obtain ⟨edge, hedge, hword⟩ | ⟨q, hfall, -⟩ := h.word_or_fall nofun
      · rcases List.mem_cons.mp hedge with rfl | hedge
        · obtain ⟨t, m, _, _, rfl, ht, ⟨x, rfl⟩, ⟨⟩, hm⟩ := hword
          obtain ⟨u, v, _, _, rfl, hu, rfl, ⟨⟩, hv⟩ := hm.single rfl nofun
          simp only [List.length_cons] at hlength
          obtain ⟨edge, hedge, hword⟩ | ⟨q, hfall, -⟩ := hv.word_or_fall nofun
          · obtain ⟨a, r, ha, hr⟩ := exists_bare ih (by omega) hedge hword
            exact ⟨.labelled x a, r, (ha.cons hu).cons ht, hr⟩
          · cases hfall
        · obtain ⟨a, r, ha, hr⟩ := exists_bare ih (by omega) hedge hword
          exact ⟨.plain a, r, ha, hr⟩
      · cases hfall

/-! ## Programs -/

theorem exists_definition (h : Accepts ⟨.defStart, k⟩ s) :
    ∃ (n : Names) (r : List Token),
      Reads s (n.lexemes ++ [.keyword ":", .keyword "float"]) r ∧
        Accepts ⟨.defEnd, k⟩ r := by
  obtain ⟨t₁, m, _, _, rfl, h₁, rfl, ⟨⟩, hm⟩ := h.single rfl nofun
  obtain ⟨t₂, m, _, _, rfl, h₂, ⟨x, rfl⟩, ⟨⟩, hm⟩ := hm.single rfl nofun
  have hfirst : Reads (t₁ :: t₂ :: m) (Names.lexemes ⟨x, []⟩) m :=
    (Reads.one h₂).cons h₁
  obtain ⟨n, v, hn, hv⟩ := exists_names .defId rfl rfl ⟨nofun, nofun⟩ hm
    _ hfirst
  obtain ⟨t₃, m, _, _, rfl, h₃, rfl, ⟨⟩, hm⟩ := hv
  obtain ⟨t₄, r, _, _, rfl, h₄, rfl, ⟨⟩, hr⟩ := hm.single rfl nofun
  exact ⟨n, r, hn.append ((Reads.one h₄).cons h₃), hr⟩

theorem exists_definitions (h : Accepts ⟨.defEnd, k⟩ m) (d : Definitions)
    (hd : Reads s d.lexemes m) :
    ∃ (d : Definitions) (r : List Token),
      Reads s (d.lexemes ++ [.keyword lineBreak]) r ∧
      Accepts ⟨.begin, k⟩ r := by
  induction hlength : m.length using Nat.strongRecOn generalizing m d with
  | _ length ih =>
      subst hlength
      obtain ⟨edge, hedge, hword⟩ | ⟨q, hfall, -⟩ := h.word_or_fall nofun
      · simp only [State.row, List.mem_cons, List.not_mem_nil, or_false]
          at hedge
        rcases hedge with rfl | rfl
        · obtain ⟨t, v, _, _, rfl, ht, rfl, ⟨⟩, hv⟩ := hword
          obtain ⟨n, r, hn, hr⟩ := exists_definition hv
          have hshorter := hn.length_eq
          exact ih r.length (by rw [List.length_cons]; omega) hr (.more d n)
            (hd.append (hn.cons ht)) rfl
        · obtain ⟨t, r, _, _, rfl, ht, rfl, ⟨⟩, hr⟩ := hword
          exact ⟨d, r, hd.append (Reads.one ht), hr⟩
      · cases hfall

theorem eq_nil_of_done (h : Accepts ⟨.done, k⟩ s) : s = [] := by
  obtain ⟨edge, hedge, hfits, -⟩ | ⟨q, hfall, -⟩ := h.cases
  · obtain rfl := List.mem_singleton.mp hedge
    exact Offer.fits_endOfInput.mp hfits
  · cases hfall

theorem exists_source (h : Accepts ⟨.start, []⟩ s) :
    ∃ source : Source, Spells s source.lexemes := by
  obtain ⟨t₁, m, _, _, rfl, h₁, rfl, ⟨⟩, h⟩ := h.single rfl nofun
  obtain ⟨t₂, m, _, _, rfl, h₂, ⟨x, rfl⟩, ⟨⟩, h⟩ := h.single rfl nofun
  obtain ⟨t₃, m, _, _, rfl, h₃, rfl, ⟨⟩, h⟩ := h.single rfl nofun
  obtain ⟨t₄, m, _, _, rfl, h₄, rfl, ⟨⟩, h⟩ := h.single rfl nofun
  obtain ⟨n, v, hn, h⟩ := exists_definition h
  obtain ⟨d, m, hd, h⟩ := exists_definitions h (.one n) hn
  obtain ⟨_, hdefinitions, hbreak⟩ := reads_append_iff.mp hd
  obtain ⟨t₅, m, _, _, rfl, h₅, rfl, ⟨⟩, h⟩ := h.single rfl nofun
  obtain ⟨body, r, hbody, hword⟩ :=
    exists_block (lineSound m.length) .body (Nat.le_refl _) h
  obtain ⟨t₆, r, _, _, rfl, h₆, rfl, ⟨⟩, hr⟩ := hword
  obtain rfl := eq_nil_of_done hr
  obtain ⟨_, hblock, hend⟩ := reads_append_iff.mp hbody
  have hbegin := (hblock.append (hend.append (Reads.one h₆))).cons h₅
  have hvar := hdefinitions.append (hbreak.append hbegin)
  exact ⟨⟨x, d, body⟩, spells_iff_reads.mpr
    ((((hvar.cons h₄).cons h₃).cons h₂).cons h₁)⟩

/-- The automaton accepts the spellings of programs. -/
theorem check_ok_iff {tokens : List Token} : check tokens = .ok () ↔
    ∃ source : Source, Spells tokens source.lexemes := by
  unfold check
  rw [offerAll_ok_iff]
  exact ⟨exists_source, fun ⟨_, hspells⟩ => accepts_source hspells⟩

/-- The automaton accepts what the patterns of the language match. -/
theorem check_ok_iff_descent (tokens : List Token) :
    check tokens = .ok () ↔ Descent.check tokens = .ok () := by
  rw [check_ok_iff, Descent.check_ok_iff]

end Reckon.Pushdown
