import Reckon.Proofs.Syntax.Spelling
import Reckon.Recogniser.Pushdown

/-!
# Moves of the pushdown automaton

An offer either finds an edge or falls back, and then the same token is offered
to another state. So what the automaton accepts from some state and stack is
what it accepts from where a fallback leads, or what it accepts behind the token
from where an edge leads: `Accepts.cases` takes an accepted input apart like
that, and `accepts_of_edge` and its companions put it together again.
-/

namespace Reckon

namespace Offer

variable {r : List Token}

theorem fits_keyword {text : String} :
    (keyword text).fits r.head? = true ↔
    firstLexeme r = some (.keyword text) := by
  cases r with
  | nil => simp [fits, firstLexeme]
  | cons t r => exact Token.isKeyword_iff

theorem fits_identifier :
    identifier.fits r.head? = true ↔
    ∃ x, firstLexeme r = some (.identifier x) := by
  rcases r with _ | ⟨⟨lexeme, line, index⟩ | ⟨parts, line⟩, r⟩
  · simp [fits, firstLexeme]
  · cases lexeme <;> simp [fits, firstLexeme, Token.lexeme?]
  · simp [fits, firstLexeme, Token.lexeme?]

theorem fits_constant :
    constant.fits r.head? = true ↔ ∃ v, firstLexeme r = some (.constant v) := by
  rcases r with _ | ⟨⟨lexeme, line, index⟩ | ⟨parts, line⟩, r⟩
  · simp [fits, firstLexeme]
  · cases lexeme <;> simp [fits, firstLexeme, Token.lexeme?]
  · simp [fits, firstLexeme, Token.lexeme?]

theorem fits_label :
    label.fits r.head? = true ↔ ∃ x, firstLexeme r = some (.label x) := by
  rcases r with _ | ⟨⟨lexeme, line, index⟩ | ⟨parts, line⟩, r⟩
  · simp [fits, firstLexeme]
  · cases lexeme <;> simp [fits, firstLexeme, Token.lexeme?]
  · simp [fits, firstLexeme, Token.lexeme?]

theorem fits_endOfInput : endOfInput.fits r.head? = true ↔ r = [] := by
  cases r <;> simp [fits]

end Offer

namespace Pushdown

variable {p q : Pushdown} {s r : List Token}

/-- The automaton takes all of an input and then its end. -/
def Accepts (p : Pushdown) : List Token → Prop
  | [] => ∃ q, p.offer none = .ok q
  | t :: r => ∃ q, p.offer (some t) = .ok q ∧ Accepts q r

theorem offerAll_ok_iff {whole : List Token} :
    offerAll whole p r = .ok () ↔ Accepts p r := by
  induction r generalizing p with
  | nil =>
      unfold offerAll Accepts
      cases p.offer none <;> simp
  | cons t r ih =>
      unfold offerAll Accepts
      cases p.offer (some t) with
      | error e => simp
      | ok q => simp [ih]

/-- What is behind the first token is accepted, if there is any token. -/
def AcceptsTail (p : Pushdown) : List Token → Prop
  | [] => True
  | _ :: r => Accepts p r

theorem accepts_iff : Accepts p r ↔
    ∃ q, p.offer r.head? = .ok q ∧ AcceptsTail q r := by
  cases r with
  | nil => simp [Accepts, AcceptsTail]
  | cons t r => rfl

/-! ## One offer -/

/-- The edge that takes an offer. -/
def edge? (p : Pushdown) (token : Option Token) : Option (Offer × Move) :=
  p.state.row.edges.find? (·.1.fits token)

theorem offer_of_edge {token : Option Token} {o : Offer} {move : Move}
    (h : p.edge? token = some (o, move)) : p.offer token = p.take move := by
  unfold edge? at h
  rw [offer, h]

/-- Where the fallback of the state leads, if it leads anywhere. -/
def fall? (p : Pushdown) : Option Pushdown :=
  match p.state.row.fallback, p.stack with
  | .fail _, _ => none
  | .enter part back, stack => some ⟨part, back :: stack⟩
  | .leave, next :: stack => some ⟨next, stack⟩
  | .leave, [] => none
  | .jump next, stack => some ⟨next, stack⟩

theorem offer_of_fall {token : Option Token} (h : p.edge? token = none)
    (hfall : p.fall? = some q) : p.offer token = q.offer token := by
  unfold edge? at h
  unfold fall? at hfall
  rw [offer, h]
  simp only []
  split at hfall
  · cases hfall
  · next part back stack hrow =>
      cases hfall
      split <;> rename_i hother <;> rw [hrow] at hother <;> cases hother
      rfl
  · next next stack hrow hstack =>
      cases hfall
      split <;> rename_i hother <;> rw [hrow] at hother <;> cases hother
      split <;> rename_i hagain <;> rw [hstack] at hagain <;> cases hagain
      rfl
  · cases hfall
  · next next stack hrow =>
      cases hfall
      split <;> rename_i hother <;> rw [hrow] at hother <;> cases hother
      rfl

theorem offer_of_stuck {token : Option Token} (h : p.edge? token = none)
    (hfall : p.fall? = none) : ∃ wanted, p.offer token = .error wanted := by
  unfold edge? at h
  unfold fall? at hfall
  rw [offer, h]
  simp only []
  split at hfall
  · next wanted stack hrow =>
      split <;> rename_i hother <;> rw [hrow] at hother <;> cases hother
      · exact ⟨_, rfl⟩
      · exact ⟨_, rfl⟩
  · cases hfall
  · cases hfall
  · next hrow hstack =>
      split <;> rename_i hother <;> rw [hrow] at hother <;> cases hother
      split <;> rename_i hagain <;> rw [hstack] at hagain <;> cases hagain
      exact ⟨_, rfl⟩
  · cases hfall

theorem accepts_of_edge {o : Offer} {move : Move}
    (h : p.edge? r.head? = some (o, move)) (htake : p.take move = .ok q)
    (hq : AcceptsTail q r) : Accepts p r :=
  accepts_iff.mpr ⟨q, (offer_of_edge h).trans htake, hq⟩

theorem accepts_of_fall (h : p.edge? r.head? = none) (hfall : p.fall? = some q)
    (hq : Accepts q r) : Accepts p r := by
  obtain ⟨after, hoffer, htail⟩ := accepts_iff.mp hq
  exact accepts_iff.mpr ⟨after, (offer_of_fall h hfall).trans hoffer, htail⟩

/-- Whatever is accepted is accepted by way of an edge or of the fallback. -/
theorem Accepts.cases (h : Accepts p r) :
    (∃ e ∈ p.state.row.edges, e.1.fits r.head? = true ∧
      ∃ q, p.take e.2 = .ok q ∧ AcceptsTail q r) ∨
    ∃ q, p.fall? = some q ∧ Accepts q r := by
  obtain ⟨after, hoffer, htail⟩ := accepts_iff.mp h
  cases hedge : p.edge? r.head? with
  | some e =>
      obtain ⟨o, move⟩ := e
      refine .inl ⟨(o, move), List.mem_of_find?_eq_some hedge, ?_, after,
        ?_, htail⟩
      · have hfits := List.find?_some hedge
        exact hfits
      · rw [← offer_of_edge hedge, hoffer]
  | none =>
      cases hfall : p.fall? with
      | none =>
          obtain ⟨wanted, herror⟩ := offer_of_stuck hedge hfall
          rw [herror] at hoffer
          cases hoffer
      | some q =>
          refine .inr ⟨q, rfl, accepts_iff.mpr ⟨after, ?_, htail⟩⟩
          rw [← offer_of_fall hedge hfall, hoffer]

end Pushdown

end Reckon
