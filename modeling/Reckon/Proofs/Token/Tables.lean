import Mathlib.Data.List.Basic
import Reckon.Proofs.Pool
import Reckon.Proofs.Results
import Reckon.Proofs.Single.Near
import Reckon.Token.Reading

/-!
# The tables behind the tokens

A source is read from left to right, and each of its words is entered in the
table of its class when it is met. So the tables after some tokens can be told
from these tokens alone (`Files`): each table is a pool that has served the
names or numbers of one class. One more token keeps this (`Files.enter`), and
from there on it holds of all that are read (`Files.ofText`).

What it says of names is plain, since names share a slot only if they are equal.
Of constants it says less. A constant gets the slot of the first entry near it,
and which entries there are depends on all constants before; what is not finite
is near nothing and gets a slot of its own each time.
-/

namespace Reckon

variable {l : Lexicon} {tokens : List Token} {x : Lexeme}

/-! ## Entering words -/

/-- The index that a word gets, if it is one of a table, and the tables with
it. -/
def Lexicon.enter (l : Lexicon) : Lexeme → Option Nat × Lexicon
  | .identifier name =>
    let (slot, identifiers) := Pool.intern (· == ·) l.identifiers name
    (some slot, { l with identifiers })
  | .constant value =>
    let (slot, constants) := Pool.intern Single.near l.constants value
    (some slot, { l with constants })
  | .label name =>
    let (slot, labels) := Pool.intern (· == ·) l.labels name
    (some slot, { l with labels })
  | .keyword _ | .nonterminal _ => (none, l)

namespace Reading

/-- The tokens of words at their lines, and the tables that these words fill. -/
def ofWords (l : Lexicon) : List (Lexeme × Nat) → Reading
  | [] => ⟨[], l⟩
  | (x, line) :: rest =>
    let later := ofWords (l.enter x).2 rest
    ⟨.word x line (l.enter x).1 :: later.tokens, later.lexicon⟩

/-- A piece becomes the token of some word, whose place decides
about the class only. -/
theorem exists_enter (asLabel : Bool) (l : Lexicon) (p : Piece) :
    ∃ x, (∀ name, x ≠ .nonterminal name) ∧
      tokenOf asLabel l p = (.word x p.line (l.enter x).1, (l.enter x).2) := by
  unfold tokenOf
  dsimp only
  split
  · exact ⟨.keyword _, fun _ => Lexeme.noConfusion, rfl⟩
  · split
    · exact ⟨.constant _, fun _ => Lexeme.noConfusion, rfl⟩
    · split
      · exact ⟨.keyword _, fun _ => Lexeme.noConfusion, rfl⟩
      · split
        · exact ⟨.label _, fun _ => Lexeme.noConfusion, rfl⟩
        · exact ⟨.identifier _, fun _ => Lexeme.noConfusion, rfl⟩

theorem exists_ofWords (pieces : List Piece) :
    ∀ (inBody : Bool) (before : Option Piece)
    (l : Lexicon), ∃ words, (∀ w ∈ words, ∀ name, w.1 ≠ .nonterminal name) ∧
      ofPieces inBody before l pieces = ofWords l words := by
  induction pieces with
  | nil => exact fun _ _ _ => ⟨[], nofun, rfl⟩
  | cons p pieces ih =>
      intro inBody before l
      obtain ⟨x, hx, htoken⟩ :=
        exists_enter (namesLabel inBody before pieces.head?) l p
      obtain ⟨words, hwords, hlater⟩ :=
        ih (inBody || p.text == "begin".toList) (some p) (l.enter x).2
      refine ⟨(x, p.line) :: words, List.forall_mem_cons.mpr ⟨hx, hwords⟩, ?_⟩
      rw [ofPieces, htoken]
      dsimp only
      rw [hlater, ofWords]

/-- What is read of a text is what its words enter into empty tables. -/
theorem exists_words {text : String} {reading : Reading}
    (h : ofText text = .ok reading) :
    ∃ words, (∀ w ∈ words, ∀ name, w.1 ≠ .nonterminal name) ∧
      reading = ofWords {} words := by
  obtain ⟨pieces, -, hread⟩ := bind_eq_ok_iff.mp h
  obtain ⟨words, hwords, hall⟩ :=
    exists_ofWords (Piece.joinBreaks true pieces) false none {}
  exact ⟨words, hwords, (Except.ok.inj hread).symm.trans hall⟩

end Reading

/-! ## Tables and tokens -/

namespace Token

/-- The name of an identifier. -/
def identifier? : Token → Option String
  | word (.identifier name) _ _ => some name
  | _ => none

/-- The name of a label. -/
def labelName? : Token → Option String
  | word (.label name) _ _ => some name
  | _ => none

/-- The slot of an identifier with its name. -/
def identifierSlot? : Token → Option (Nat × String)
  | word (.identifier name) _ (some slot) => some (slot, name)
  | _ => none

/-- The slot of a constant with its value. -/
def constantSlot? : Token → Option (Nat × Single)
  | word (.constant value) _ (some slot) => some (slot, value)
  | _ => none

/-- The slot of a label with its name. -/
def labelSlot? : Token → Option (Nat × String)
  | word (.label name) _ (some slot) => some (slot, name)
  | _ => none

/-- Names and constants have an index, and fixed texts have none. -/
inductive Slotted : Token → Prop where
  | identifier {name : String} {line slot : Nat} :
      Slotted (.word (.identifier name) line (some slot))
  | constant {value : Single} {line slot : Nat} :
      Slotted (.word (.constant value) line (some slot))
  | label {name : String} {line slot : Nat} :
      Slotted (.word (.label name) line (some slot))
  | keyword {text : String} {line : Nat} :
      Slotted (.word (.keyword text) line none)

end Token

open Token (identifierSlot? constantSlot? labelSlot? Slotted)

/-- A table has served the tokens of its class. -/
def Filed {α : Type} (same : α → α → Bool) (table : List α)
    (tokens : List Token) (slot? : Token → Option (Nat × α)) : Prop :=
  Pool.Serves same table (tokens.filterMap slot?)

section Filed

variable {α : Type} {same : α → α → Bool} {table : List α}
  {slot? : Token → Option (Nat × α)} {t : Token}

theorem Filed.skip (h : Filed same table tokens slot?) (ht : slot? t = none) :
    Filed same table (tokens ++ [t]) slot? := by
  unfold Filed
  rw [List.filterMap_append, List.filterMap_cons_none ht, List.filterMap_nil,
    List.append_nil]
  exact h

theorem Filed.enter {v : α} (h : Filed same table tokens slot?)
    (ht : slot? t = some ((Pool.intern same table v).1, v)) :
    Filed same (Pool.intern same table v).2 (tokens ++ [t]) slot? := by
  unfold Filed
  rw [List.filterMap_append, List.filterMap_cons_some ht, List.filterMap_nil]
  exact h.intern v

end Filed

/-- The tables are those of the tokens. -/
structure Files (l : Lexicon) (tokens : List Token) : Prop where
  slotted : ∀ t ∈ tokens, Slotted t
  identifiers : Filed (· == ·) l.identifiers tokens identifierSlot?
  constants : Filed Single.near l.constants tokens constantSlot?
  labels : Filed (· == ·) l.labels tokens labelSlot?

namespace Files

theorem nil : Files {} [] :=
  ⟨nofun, Pool.serves_nil _, Pool.serves_nil _, Pool.serves_nil _⟩

theorem slotted_concat (h : Files l tokens) {t : Token} (ht : Slotted t) :
    ∀ u ∈ tokens ++ [t], Slotted u := by
  intro u hu
  rcases List.mem_append.mp hu with hu | hu
  · exact h.slotted u hu
  · exact List.mem_singleton.mp hu ▸ ht

/-- Entering one more word adds to the table of its class and leaves the other
two. -/
theorem enter (h : Files l tokens) (hx : ∀ name, x ≠ .nonterminal name)
    (line : Nat) :
    Files (l.enter x).2 (tokens ++ [.word x line (l.enter x).1]) := by
  cases x with
  | identifier name =>
      exact ⟨h.slotted_concat .identifier, h.identifiers.enter rfl,
        h.constants.skip rfl, h.labels.skip rfl⟩
  | constant value =>
      exact ⟨h.slotted_concat .constant, h.identifiers.skip rfl,
        h.constants.enter rfl, h.labels.skip rfl⟩
  | label name =>
      exact ⟨h.slotted_concat .label, h.identifiers.skip rfl,
        h.constants.skip rfl, h.labels.enter rfl⟩
  | keyword text =>
      exact ⟨h.slotted_concat .keyword, h.identifiers.skip rfl,
        h.constants.skip rfl, h.labels.skip rfl⟩
  | nonterminal name => exact absurd rfl (hx name)

theorem ofWords (words : List (Lexeme × Nat)) :
    ∀ {l : Lexicon} {tokens : List Token},
    (∀ w ∈ words, ∀ name, w.1 ≠ .nonterminal name) → Files l tokens →
      Files (Reading.ofWords l words).lexicon
        (tokens ++ (Reading.ofWords l words).tokens) := by
  induction words with
  | nil =>
      intro l tokens _ h
      rw [Reading.ofWords, List.append_nil]
      exact h
  | cons w words ih =>
      intro l tokens hwords h
      obtain ⟨x, line⟩ := w
      obtain ⟨hx, hwords⟩ := List.forall_mem_cons.mp hwords
      have hlater := ih hwords (h.enter hx line)
      rw [List.append_assoc, List.singleton_append] at hlater
      exact hlater

theorem ofText {text : String} {reading : Reading}
    (h : Reading.ofText text = .ok reading) :
    Files reading.lexicon reading.tokens := by
  obtain ⟨words, hwords, rfl⟩ := Reading.exists_words h
  have hfiles := ofWords words hwords nil
  rwa [List.nil_append] at hfiles

end Files

/-! ## Indices -/

/-- The index of a name leads to this name, that of a constant to the same
number or to one near it, and fixed texts have no index. -/
inductive Indexed (l : Lexicon) : Token → Prop where
  | identifier {name : String} {line slot : Nat} :
      l.identifiers[slot]? = some name →
      Indexed l (.word (.identifier name) line (some slot))
  | constant {value entry : Single} {line slot : Nat} :
      l.constants[slot]? = some entry →
      entry = value ∨ entry.near value = true →
      Indexed l (.word (.constant value) line (some slot))
  | label {name : String} {line slot : Nat} : l.labels[slot]? = some name →
      Indexed l (.word (.label name) line (some slot))
  | keyword {text : String} {line : Nat} :
      Indexed l (.word (.keyword text) line none)

namespace Files

theorem indexed (h : Files l tokens) : ∀ t ∈ tokens, Indexed l t := by
  intro t ht
  have hasked : ∀ {α : Type} {slot? : Token → Option (Nat × α)} {r : Nat × α},
      slot? t = some r → r ∈ tokens.filterMap slot? :=
    fun hr => List.mem_filterMap.mpr ⟨t, ht, hr⟩
  cases h.slotted t ht with
  | identifier =>
      obtain ⟨w, hw, hsame⟩ := h.identifiers.answers _ _ (hasked rfl)
      exact .identifier (hsame.elim id beq_iff_eq.mp ▸ hw)
  | constant =>
      obtain ⟨w, hw, hsame⟩ := h.constants.answers _ _ (hasked rfl)
      exact .constant hw hsame
  | label =>
      obtain ⟨w, hw, hsame⟩ := h.labels.answers _ _ (hasked rfl)
      exact .label (hsame.elim id beq_iff_eq.mp ▸ hw)
  | keyword => exact .keyword

/-- The slots of a class come with its values. -/
theorem map_slots (h : Files l tokens) {α : Type}
    {slot? : Token → Option (Nat × α)} {value? : Token → Option α}
    (hsame : ∀ t, Slotted t → (slot? t).map Prod.snd = value? t) :
    (tokens.filterMap slot?).map Prod.snd = tokens.filterMap value? := by
  rw [List.map_filterMap]
  exact List.filterMap_congr fun t ht => hsame t (h.slotted t ht)

theorem identifiers_eq (h : Files l tokens) :
    l.identifiers = (tokens.filterMap Token.identifier?).eraseDups := by
  rw [h.identifiers.filled, Pool.ofValues_eq_eraseDups, h.map_slots]
  rintro t (_ | _ | _ | _) <;> rfl

theorem labels_eq (h : Files l tokens) :
    l.labels = (tokens.filterMap Token.labelName?).eraseDups := by
  rw [h.labels.filled, Pool.ofValues_eq_eraseDups, h.map_slots]
  rintro t (_ | _ | _ | _) <;> rfl

/-- Every entry of a table is that of some token. -/
theorem exists_token (h : Files l tokens) {α : Type} {same : α → α → Bool}
    {table : List α} {slot? : Token → Option (Nat × α)}
    (htable : Filed same table tokens slot?) {slot : Nat} {entry : α}
    (hentry : table[slot]? = some entry) :
    ∃ t ∈ tokens, Slotted t ∧ slot? t = some (slot, entry) := by
  obtain ⟨t, ht, hslot⟩ :=
    List.mem_filterMap.mp (htable.asked slot entry hentry)
  exact ⟨t, ht, h.slotted t ht, hslot⟩

/-- No entry of the table of constants is near another one. -/
theorem constants_apart (h : Files l tokens) {i j : Nat} {a b : Single}
    (hne : i ≠ j) (ha : l.constants[i]? = some a)
    (hb : l.constants[j]? = some b) : a.near b = false :=
  Pool.Serves.eq_false_of_ne h.constants (fun _ _ => Single.near_symm) hne ha hb

end Files

/-- The tables of a text that can be read list its names in the order in
which they first appear, each once, and numbers of which no two are near
each other. The index of every token leads to its entry, and to every entry
some token leads. -/
theorem tables_of_ofText {text : String} {reading : Reading}
    (h : Reading.ofText text = .ok reading) :
    reading.lexicon.identifiers.Nodup ∧ reading.lexicon.labels.Nodup ∧
      reading.lexicon.identifiers =
        (reading.tokens.filterMap Token.identifier?).eraseDups ∧
      reading.lexicon.labels =
        (reading.tokens.filterMap Token.labelName?).eraseDups ∧
      (∀ t ∈ reading.tokens, Indexed reading.lexicon t) ∧
      (∀ (i j : Nat) (a b : Single), i ≠ j →
        reading.lexicon.constants[i]? = some a →
        reading.lexicon.constants[j]? = some b → a.near b = false) ∧
      (∀ (slot : Nat) name, reading.lexicon.identifiers[slot]? = some name →
        ∃ line, .word (.identifier name) line (some slot) ∈ reading.tokens) ∧
      (∀ (slot : Nat) name, reading.lexicon.labels[slot]? = some name →
        ∃ line, .word (.label name) line (some slot) ∈ reading.tokens) ∧
      ∀ (slot : Nat) value, reading.lexicon.constants[slot]? = some value →
        ∃ line, .word (.constant value) line (some slot) ∈ reading.tokens := by
  have hfiles := Files.ofText h
  refine ⟨?_, ?_, hfiles.identifiers_eq, hfiles.labels_eq, hfiles.indexed,
    fun i j a b hne ha hb => hfiles.constants_apart hne ha hb, ?_, ?_, ?_⟩
  · exact hfiles.identifiers.apart.imp fun hne => beq_eq_false_iff_ne.mp hne
  · exact hfiles.labels.apart.imp fun hne => beq_eq_false_iff_ne.mp hne
  · intro slot name hname
    obtain ⟨t, ht, hclass, hslot⟩ :=
      hfiles.exists_token hfiles.identifiers hname
    cases hclass <;> cases hslot
    exact ⟨_, ht⟩
  · intro slot name hname
    obtain ⟨t, ht, hclass, hslot⟩ := hfiles.exists_token hfiles.labels hname
    cases hclass <;> cases hslot
    exact ⟨_, ht⟩
  · intro slot value hvalue
    obtain ⟨t, ht, hclass, hslot⟩ := hfiles.exists_token hfiles.constants hvalue
    cases hclass <;> cases hslot
    exact ⟨_, ht⟩

/-- Two names with an identifier of the same text, numbers near each other, and
two that are not finite. -/
def repeating : String :=
  "m begin goto m 1 1.000001 m\n99999999999999999999999999999999999999999 m: " ++
    "99999999999999999999999999999999999999999"

theorem tables_of_repeating :
    ∃ reading, Reading.ofText repeating = .ok reading ∧
      reading.tokens.map Token.index =
        [some 0, none, none, some 0, some 0, some 0, some 0, none, some 1,
          some 0, none, some 2] ∧
      reading.lexicon.constants = [.one, .infinity false, .infinity false] ∧
      (reading.tokens.filterMap Token.identifier?).eraseDups = ["m"] ∧
      (reading.tokens.filterMap Token.labelName?).eraseDups = ["m"] ∧
      ∀ t ∈ reading.tokens, Indexed reading.lexicon t := by
  have hread : (Reading.ofText repeating).toOption.map (fun r =>
      (r.tokens.map Token.index, r.lexicon.identifiers, r.lexicon.constants,
        r.lexicon.labels)) =
      some ([some 0, none, none, some 0, some 0, some 0, some 0, none, some 1,
          some 0, none, some 2],
        ["m"], [.one, .infinity false, .infinity false], ["m"]) := by
    decide +kernel
  cases hreading : Reading.ofText repeating with
  | error e =>
      rw [hreading] at hread
      cases hread
  | ok reading =>
      rw [hreading] at hread
      have hfound := Option.some.inj hread
      simp only [Prod.mk.injEq] at hfound
      obtain ⟨hindices, hidentifiers, hconstants, hlabels⟩ := hfound
      obtain ⟨-, -, hnames, hmarks, hindexed, -⟩ := tables_of_ofText hreading
      exact ⟨reading, rfl, hindices, hconstants, hnames.symm.trans hidentifiers,
        hmarks.symm.trans hlabels, hindexed⟩

end Reckon
