import Reckon.Proofs.Compile.Labels
import Reckon.Proofs.Compile.Pooling
import Reckon.Proofs.Compile.Unclosed
import Reckon.Proofs.Token.Joining

/-!
# Negations of two texts

Of two texts that are formulas one can say that they are not both true, and that
one of them is not true. Each of these is a text again, with both formulas in
square brackets. The grammar has arithmetic in round brackets only, but a text
that is evaluated is not checked, and the composer takes any formula in square
ones. What stands around the formulas is a `Joint`, and what it does to the
composer is all that the two texts differ in.

The two say the same of numbers. A value that is no number is neither above zero
nor at most zero, and `and` asks for the one, a negation for the other
(`Undecided`). Both formulas fill one pool, so a literal of the first can stand
for one of the second that is near it (`pooledBy`). And a line break around a
formula would be inside the brackets here, where it ends the composing.
-/

namespace Reckon

open Lexical (Writes Padded)

variable {t u : Tier} {p q text : String} {a b inner outer : List Lexeme}
  {between behind waiting : List Op} {before : Option Lexeme}
  {stack : List Pending}

/-! ## Formulas in brackets -/

/-- Words in square brackets. -/
def bracketed (words : List Lexeme) : List Lexeme :=
  .keyword "[" :: (words ++ [.keyword "]"])

theorem last_bracketed (words : List Lexeme) (before : Option Lexeme) :
    (bracketed words).getLast?.or before = some (.keyword "]") := by
  rw [bracketed, ← List.cons_append, List.getLast?_concat]
  rfl

theorem not_mem_bracketed {x : Lexeme} (hopen : x ≠ .keyword "[")
    (hclose : x ≠ .keyword "]") (h : x ∉ inner) : x ∉ bracketed inner := by
  simp [bracketed, hopen, hclose, h]

theorem Formula.defers_bracketed (e : Formula t) (view : View)
    (hlists : Listless stack) :
    Defers (some (.keyword "[")) view t e.lexemes (e.code false) []
      (.squareBracket :: stack) := by
  have hclear : Clear t (.squareBracket :: stack) :=
    ⟨by rintro _ ⟨rfl⟩; exact .inr t.room_pos, hlists.cons nofun⟩
  exact e.defers _ view false nofun hclear rfl

theorem Formula.exists_padded {reading : Reading} {e : Formula t}
    (hp : Reading.ofText p = .ok reading)
    (he : Spells reading.tokens e.lexemes) : ∃ a, Padded p e.lexemes a :=
  Lexical.exists_padded hp he (fun _ => e.label_not_mem) e.lineBreak_not_mem

/-- In brackets a formula puts out its code and leaves nothing waiting. -/
theorem Formula.feeds_bracketed (e : Formula t) (view : View)
    (hlists : Listless stack) :
    FeedsAll before (view.pend stack) (bracketed e.lexemes)
      ((view.put (e.code false)).pend stack) :=
  (e.defers_bracketed view hlists).bracketed feeds_openSquare
    fun _ _ _ => feeds_closeSquare hlists

/-- With a line break at an end of it, a formula leaves its bracket open
there. -/
theorem Formula.stops_bracketed (e : Formula t) (hp : Padded p e.lexemes a)
    (hbreak : '\n' ∈ p.toList) (view : View) (hflat : Flat stack) :
    Stops before (view.pend stack) (bracketed a) := by
  obtain ⟨pre, post, rfl, hpre, hpost, hends⟩ := hp.around
  refine .behind feeds_openSquare nofun ?_
  cases pre with
  | cons x pre =>
      obtain rfl := hpre x List.mem_cons_self
      exact .here ⟨hflat.square, List.mem_cons_self⟩ _
  | nil =>
      have hne : post ≠ [] := (hends.mp hbreak).resolve_left fun h => h rfl
      obtain ⟨y, post, rfl⟩ := List.exists_cons_of_ne_nil hne
      obtain rfl := hpost y List.mem_cons_self
      obtain ⟨out, ops, hfeeds, -, -⟩ := e.defers_bracketed view hflat.listless
      rw [List.nil_append, List.append_assoc]
      refine .after hfeeds e.lineBreak_not_mem
        (.here ⟨hflat.square.operators ops, ?_⟩ _)
      exact List.mem_append_right _ List.mem_cons_self

/-! ## Two formulas in brackets -/

/-- The words in front of two formulas in brackets, between them and behind
them. -/
structure Joint where
  opening : List Lexeme
  link : List Lexeme
  closing : List Lexeme

namespace Joint

def words (j : Joint) (a b : List Lexeme) : List Lexeme :=
  j.opening ++ (bracketed a ++ (j.link ++ (bracketed b ++ j.closing)))

/-- What the words of a joint put out between the formulas and behind them, and
what they leave waiting. -/
structure Puts (j : Joint) (between behind waiting : List Op) : Prop where
  quiet : ∀ x ∈ j.opening ++ (j.link ++ j.closing),
    x ≠ .keyword lineBreak ∧ x ≠ .keyword "begin"
  operators : ∀ o ∈ between ++ (behind ++ waiting), 0 < o.priority
  feeds : ∃ first second : List Pending, Flat first ∧ Flat second ∧
    ∀ view : View, FeedsAll none (view.pend []) j.opening (view.pend first) ∧
      FeedsAll (some (.keyword "]")) (view.pend first) j.link
        ((view.put (between.map .op)).pend second) ∧
      FeedsAll (some (.keyword "]")) (view.pend second) j.closing
        ((view.put (behind.map .op)).pend (waiting.map .operator))

variable {j : Joint}

/-- The words of two formulas put out their code, each with its
operators behind it. -/
theorem Puts.feedsAll (h : j.Puts between behind waiting) (e : Formula t)
    (f : Formula u) (view : View) :
    FeedsAll none (view.pend []) (j.words e.lexemes f.lexemes)
      ((view.put
        (e.code false ++
          (between.map .op ++ (f.code false ++ behind.map .op)))).pend
        (waiting.map .operator)) := by
  obtain ⟨first, second, hfirst, hsecond, hfeeds⟩ := h.feeds
  refine (hfeeds view).1.append
    ((e.feeds_bracketed view hfirst.listless).append ?_)
  rw [last_bracketed]
  refine (hfeeds _).2.1.append
    ((f.feeds_bracketed _ hsecond.listless).append ?_)
  rw [last_bracketed]
  simpa only [View.put_put, List.append_assoc] using
    (hfeeds (((view.put (e.code false)).put (between.map .op)).put
      (f.code false))).2.2

/-- A line break at an end of one of the formulas comes while a bracket is
open. -/
theorem Puts.stops (h : j.Puts between behind waiting) {e : Formula t}
    {f : Formula u} (hp : Padded p e.lexemes a) (hq : Padded q f.lexemes b)
    (hbreak : '\n' ∈ p.toList ∨ '\n' ∈ q.toList) (view : View) :
    Stops none (view.pend []) (j.words a b) := by
  obtain ⟨first, second, hfirst, hsecond, hfeeds⟩ := h.feeds
  have hopening : .keyword lineBreak ∉ j.opening := fun hmem =>
    (h.quiet _ (List.mem_append_left _ hmem)).1 rfl
  have hlink : .keyword lineBreak ∉ j.link := fun hmem =>
    (h.quiet _ (List.mem_append_right _ (List.mem_append_left _ hmem))).1 rfl
  refine .after (hfeeds view).1 hopening ?_
  by_cases hleft : '\n' ∈ p.toList
  · exact (e.stops_bracketed hp hleft view hfirst).append _
  · obtain rfl := hp.eq_lexemes hleft
    refine .after (e.feeds_bracketed view hfirst.listless) ?_ ?_
    · exact not_mem_bracketed (by decide) (by decide) e.lineBreak_not_mem
    · rw [last_bracketed]
      refine .after (hfeeds _).2.1 hlink ?_
      exact (f.stops_bracketed hq (hbreak.resolve_left hleft) _
        hsecond).append _

/-! The words are read as they are, and composed or refused. -/

theorem head_words (j : Joint) (a b : List Lexeme) :
    (j.words a b).head? = j.opening.head?.or (some (.keyword "[")) := by
  rw [words, List.head?_append]
  rfl

theorem getLast?_words (j : Joint) (a b : List Lexeme) :
    (j.words a b).getLast? = j.closing.getLast?.or (some (.keyword "]")) := by
  rw [words, List.getLast?_append, List.getLast?_append, List.getLast?_append,
    List.getLast?_append, Option.or_assoc, Option.or_assoc, Option.or_assoc,
    last_bracketed]

theorem Puts.ofText (h : j.Puts between behind waiting)
    (ha : .keyword "begin" ∉ a) (hb : .keyword "begin" ∉ b)
    (hwrites : Writes text.toList (j.words a b)) :
    ∃ reading, Reading.ofText text = .ok reading ∧
      Spells reading.tokens (j.words a b) ∧
      ∀ front t later, reading.tokens = front ++ t :: later →
        (∀ u ∈ front, u.isLineBreak = false) → t.line = 1 := by
  refine Lexical.ofText_of_writes hwrites ?_ ?_ ?_
  · have hleft := not_mem_bracketed (by decide) (by decide) ha
    have hright := not_mem_bracketed (by decide) (by decide) hb
    have hquiet : .keyword "begin" ∉ j.opening ++ (j.link ++ j.closing) :=
      fun hmem => (h.quiet _ hmem).2 rfl
    simp only [List.mem_append, not_or] at hquiet
    simp [words, hleft, hright, hquiet]
  · rw [head_words]
    cases hfirst : j.opening.head? with
    | none => nofun
    | some x =>
        rintro ⟨⟩
        exact (h.quiet _
          (List.mem_append_left _ (List.mem_of_mem_head? hfirst))).1 rfl
  · rw [getLast?_words]
    cases hlast : j.closing.getLast? with
    | none => nofun
    | some x =>
        rintro ⟨⟩
        have hmem := List.mem_of_mem_getLast? hlast
        exact (h.quiet _
          (List.mem_append_right _ (List.mem_append_right _ hmem))).1 rfl

/-- Alone, two formulas without line breaks are composed into their code. -/
theorem Puts.composes (h : j.Puts between behind waiting) {tokens : List Token}
    {e : Formula t} {f : Formula u}
    (hspells : Spells tokens (j.words e.lexemes f.lexemes)) :
    ∃ c, Composer.composeBare tokens [] .empty = .ok c ∧ Emits c.program
      (e.code false ++ (between.map .op ++ (f.code false ++ behind.map .op)) ++
        waiting.map .op) := by
  have hplain : ∀ o ∈ waiting, o.isPlain = true := fun o ho =>
    Op.isPlain_of_priority (h.operators o (by simp [ho]))
  have hfeeds := h.feedsAll e f { stock := ⟨[], .empty⟩ }
  have hlast := j.getLast?_words e.lexemes f.lexemes
  cases hclosing : j.closing.getLast? with
  | none =>
      rw [hclosing] at hlast
      exact Composer.composeBare_of_feeds hspells hlast nofun hfeeds hplain
  | some x =>
      rw [hclosing] at hlast
      have hmem := List.mem_of_mem_getLast? hclosing
      have hquiet :=
        h.quiet x (List.mem_append_right _ (List.mem_append_right _ hmem))
      exact Composer.composeBare_of_feeds hspells hlast hquiet.1 hfeeds hplain

end Joint

/-- What stands for a literal where those of some words are in one pool. -/
def pooledBy (ls : List Lexeme) (v : Single) : Single :=
  ({ constants := Pool.ofNumbers (literals ls) } : Program).literal v

namespace Joint

variable {j : Joint} {s : Store} {e : Formula t} {f : Formula u}
  {v w r : Single}

theorem Puts.evaluates (h : j.Puts between behind waiting)
    (hwrites : Writes text.toList (j.words e.lexemes f.lexemes))
    (hknown : ∀ x, .identifier x ∈ e.lexemes ∨ .identifier x ∈ f.lexemes →
      (s.get? x).isSome)
    (hbetween : Item.evaluate (pooledBy (e.lexemes ++ f.lexemes)) s.value
      (between.map .op)
      [e.value (pooledBy (e.lexemes ++ f.lexemes)) s.value false] = some [v])
    (hbehind : Item.evaluate (pooledBy (e.lexemes ++ f.lexemes)) s.value
      ((behind ++ waiting).map .op)
      [f.value (pooledBy (e.lexemes ++ f.lexemes)) s.value false, v] =
        some [r]) :
    s.Evaluates text (.ok (some r)) s := by
  have hbegin : ∀ {t : Tier} (e : Formula t), .keyword "begin" ∉ e.lexemes :=
    fun e => e.keyword_not_mem (by decide)
  obtain ⟨reading, hread, hspells, -⟩ := h.ofText (hbegin e) (hbegin f) hwrites
  obtain ⟨c, hc, hemits⟩ := h.composes hspells
  have hpool : c.program.literal = pooledBy (e.lexemes ++ f.lexemes) := by
    funext v
    simp [pooledBy, Program.literal, hemits.constants, Formula.numbers_code]
  have hcode :
      e.code false ++ (between.map .op ++ (f.code false ++ behind.map .op)) ++
          waiting.map .op =
        e.code false ++
          (between.map .op ++
            (f.code false ++ (behind ++ waiting).map .op)) := by
    simp
  rw [hcode] at hemits
  refine Store.evaluates_code hread hc hemits (fun x hx => hknown x ?_) ?_
  · have hnameless : ∀ ops ⊆ between ++ (behind ++ waiting),
        .op (.name x) ∉ ops.map Item.op := by
      intro ops hops hmem
      obtain ⟨o, ho, heq⟩ := List.mem_map.mp hmem
      cases heq
      exact absurd (h.operators _ (hops ho)) (Nat.lt_irrefl 0)
    have hleft := hnameless between (List.subset_append_left ..)
    have hright := hnameless (behind ++ waiting) (List.subset_append_right ..)
    simp only [List.mem_append, hleft, hright, false_or, or_false] at hx
    exact hx.imp e.mem_lexemes_of_code f.mem_lexemes_of_code
  · rw [hpool]
    exact Item.evaluate_append (e.evaluate_code _ _ false [])
      (Item.evaluate_append hbetween
        (Item.evaluate_append (f.evaluate_code _ _ false _) hbehind))

/-- With a line break in one of the formulas nothing is evaluated. -/
theorem Puts.refuses (h : j.Puts between behind waiting)
    (hp : Padded p e.lexemes a) (hq : Padded q f.lexemes b)
    (hwrites : Writes text.toList (j.words a b))
    (hbreak : '\n' ∈ p.toList ∨ '\n' ∈ q.toList) :
    s.Evaluates text (.error (.compose (.unbalanced "[" 1))) s := by
  have ha :=
    hp.not_mem (by decide)
      (e.keyword_not_mem (by decide : "begin" ∈ frameWords))
  have hb :=
    hq.not_mem (by decide)
      (f.keyword_not_mem (by decide : "begin" ∈ frameWords))
  obtain ⟨reading, hread, hspells, hline⟩ := h.ofText ha hb hwrites
  have hstops : Stops none { stock := ⟨[], .empty⟩ } (j.words a b) :=
    h.stops hp hq hbreak { stock := ⟨[], .empty⟩ }
  obtain ⟨failure, hfails, herror⟩ :=
    Composer.composeBare_of_stops hstops hspells hline
  exact herror ▸ Store.evaluates_of_failure hread hfails

end Joint

/-! ## The two negations -/

/-- The text that says of two others that they are not both true. -/
def notBothText (p q : String) : String := "![[" ++ p ++ "] and [" ++ q ++ "]]"

/-- The text that says of two others that one of them is not true. -/
def eitherNotText (p q : String) : String := "![" ++ p ++ "] or ![" ++ q ++ "]"

namespace Joint

def notBoth : Joint where
  opening := [.keyword "!", .keyword "["]
  link := [.keyword "and"]
  closing := [.keyword "]"]

def eitherNot : Joint where
  opening := [.keyword "!"]
  link := [.keyword "or", .keyword "!"]
  closing := []

theorem notBoth_puts : notBoth.Puts [] [.binary .and] [.not] where
  quiet := by decide
  operators := by decide
  feeds := by
    have hempty : Flat [] := nofun
    have hnot : Flat [.operator .not] := hempty.operators [.not]
    refine ⟨_, _, hnot.square, hnot.square.operators [.binary .and],
      fun view => ⟨?_, ?_, ?_⟩⟩
    · exact ⟨_, feeds_not, _, feeds_openSquare, rfl⟩
    · exact .one (feeds_binary .and view [] rfl nofun (by decide))
    · have hplain : ∀ o ∈ [Op.binary .and], o.isPlain = true := by decide
      exact .one (feeds_closeSquare hnot.listless hplain)

theorem eitherNot_puts : eitherNot.Puts [.not] [] [.not, .binary .or] where
  quiet := by decide
  operators := by decide
  feeds := by
    have hempty : Flat [] := nofun
    refine ⟨_, _, hempty.operators [.not], hempty.operators [.not, .binary .or],
      fun view => ⟨?_, ?_, ?_⟩⟩
    · exact .one feeds_not
    · exact ⟨_, feeds_binary .or view [.not] rfl (by decide) nofun, _,
        feeds_not, rfl⟩
    · exact congrArg (View.pend · _) view.put_nil.symm

/-! What is written is these words, with what the two texts say
inside the brackets. -/

theorem blank_space : ∀ c ∈ " ".toList, Lexical.Blank c :=
  List.forall_mem_singleton.mpr (.inl rfl)

theorem writes_notBoth (hp : Padded p inner a) (hq : Padded q outer b) :
    Writes (notBothText p q).toList (notBoth.words a b) := by
  have htext : (notBothText p q).toList =
      "!".toList ++ ("[".toList ++ ("[".toList ++ (p.toList ++ ']' ::
        (" ".toList ++ ("and".toList ++ (" ".toList ++ ("[".toList ++
          (q.toList ++ ']' :: ("]".toList ++ []))))))))) := by
    simp [notBothText]
  have hwords : notBoth.words a b =
      .keyword "!" :: .keyword "[" :: .keyword "[" ::
      (a ++ .keyword "]" :: .keyword "and" :: .keyword "[" ::
        (b ++ [.keyword "]", .keyword "]"])) := by
    simp [words, notBoth, bracketed]
  have hclosing :
      Writes ("]".toList ++ ("]".toList ++ [])) [.keyword "]", .keyword "]"] :=
    .behind_fixed (by decide) rfl (.behind_fixed (by decide) rfl .nil)
  have hlink := Writes.behind_gap blank_space
    (.behind_fixed (by decide : "and" ∈ _) rfl
      (.behind_gap blank_space
        (.behind_fixed (by decide : "[" ∈ _) rfl (hq.writes _ _ hclosing))))
  rw [htext, hwords]
  exact .behind_fixed (by decide) rfl (.behind_fixed (by decide) rfl
    (.behind_fixed (by decide) rfl
      (hp.writes _ _ (.behind_fixed (by decide : "]" ∈ _) rfl hlink))))

theorem writes_eitherNot (hp : Padded p inner a) (hq : Padded q outer b) :
    Writes (eitherNotText p q).toList (eitherNot.words a b) := by
  have htext : (eitherNotText p q).toList =
      "!".toList ++ ("[".toList ++ (p.toList ++ ']' ::
        (" ".toList ++ ("or".toList ++ (" ".toList ++ ("!".toList ++
          ("[".toList ++ (q.toList ++ ']' :: [])))))))) := by
    simp [eitherNotText]
  have hwords : eitherNot.words a b = .keyword "!" :: .keyword "[" ::
      (a ++ .keyword "]" :: .keyword "or" :: .keyword "!" :: .keyword "[" ::
        (b ++ [.keyword "]"])) := by
    simp [words, eitherNot, bracketed]
  have hclosing : Writes ("]".toList ++ []) [.keyword "]"] :=
    .behind_fixed (by decide) rfl .nil
  have hlink := Writes.behind_gap blank_space
    (.behind_fixed (by decide : "or" ∈ _) rfl
      (.behind_gap blank_space (.behind_fixed (by decide : "!" ∈ _) rfl
        (.behind_fixed (by decide : "[" ∈ _) rfl (hq.writes _ _ hclosing)))))
  rw [htext, hwords]
  exact .behind_fixed (by decide) rfl (.behind_fixed (by decide) rfl
    (hp.writes _ _ (.behind_fixed (by decide : "]" ∈ _) rfl hlink)))

end Joint

/-! ## What they are evaluated to -/

namespace Single

theorem zero_lt_ofBool (b : Bool) : zero.lt (ofBool b) = b := by
  cases b <;> decide +kernel

theorem zero_lt_of_isNaN {v : Single} (h : v.isNaN = true) :
    zero.lt v = false := by
  simp [lt, comparable, h]

/-- What is not above zero is at most zero, unless it is no number. -/
theorem le_zero_eq (v : Single) : v.le zero = (!v.isNaN && !zero.lt v) := by
  have hzero : zero.isNaN = false := by decide
  cases hv : v.isNaN with
  | true => simp [le, comparable, hv]
  | false => simp [le, lt, comparable, hv, hzero, ← decide_not]

end Single

/-- One of two values is no number, and the other is none either or is above
zero. So the two are not both true, and neither is false. -/
def Undecided (v w : Single) : Prop :=
  v.isNaN = true ∧ (w.isNaN = true ∨ Single.zero.lt w = true) ∨
    w.isNaN = true ∧ Single.zero.lt v = true

instance (v w : Single) : Decidable (Undecided v w) :=
  inferInstanceAs (Decidable (_ ∨ _))

/-- If that is not so, they are not both true if and only if one of them is
false. -/
theorem negations_of_undecided (v w : Single) :
    (Undecided v w → (!(Single.zero.lt v && Single.zero.lt w)) = true ∧
      (v.le .zero || w.le .zero) = false) ∧
    (¬Undecided v w →
      (!(Single.zero.lt v && Single.zero.lt w)) =
        (v.le .zero || w.le .zero)) := by
  have hv := Single.zero_lt_of_isNaN (v := v)
  have hw := Single.zero_lt_of_isNaN (v := w)
  rw [Single.le_zero_eq, Single.le_zero_eq]
  unfold Undecided
  generalize v.isNaN = nan, w.isNaN = nan', Single.zero.lt v = above,
    Single.zero.lt w = above' at *
  revert hv hw
  cases nan <;> cases nan' <;> cases above <;> cases above' <;> decide

namespace Store

variable {s : Store} {reading reading' : Reading} {e : Formula t}
  {f : Formula u}

/-- Without line breaks both texts are evaluated, whatever the values of the
formulas are. -/
theorem evaluates_negated (hp : Reading.ofText p = .ok reading)
    (hq : Reading.ofText q = .ok reading')
    (he : Spells reading.tokens e.lexemes)
    (hf : Spells reading'.tokens f.lexemes)
    (hknown : ∀ x, reading.Names x ∨ reading'.Names x → (s.get? x).isSome)
    (hleft : '\n' ∉ p.toList) (hright : '\n' ∉ q.toList) :
    let pooled := pooledBy (e.lexemes ++ f.lexemes)
    let v := e.value pooled s.value false
    let w := f.value pooled s.value false
    s.Evaluates (notBothText p q)
        (.ok (some (.ofBool (!(Single.zero.lt v && Single.zero.lt w))))) s ∧
      s.Evaluates (eitherNotText p q)
        (.ok (some (.ofBool (v.le .zero || w.le .zero)))) s := by
  obtain ⟨a, ha⟩ := Formula.exists_padded hp he
  obtain ⟨b, hb⟩ := Formula.exists_padded hq hf
  obtain rfl := ha.eq_lexemes hleft
  obtain rfl := hb.eq_lexemes hright
  have hvalues : ∀ x, .identifier x ∈ e.lexemes ∨ .identifier x ∈ f.lexemes →
      (s.get? x).isSome := fun x hx =>
    hknown x (hx.imp (Reading.names_iff he).mpr (Reading.names_iff hf).mpr)
  intro pooled v w
  constructor
  · have h :=
      Joint.notBoth_puts.evaluates (Joint.writes_notBoth ha hb) hvalues rfl rfl
    rwa [Binary.apply, ofBool_le_zero] at h
  · have h :=
      Joint.eitherNot_puts.evaluates (Joint.writes_eitherNot ha hb)
        hvalues rfl rfl
    rwa [Binary.apply, Single.zero_lt_ofBool, Single.zero_lt_ofBool] at h

theorem div_mem_operators : Binary.div ∈ Level.product.operators := by decide

/-- One factor divided by another. -/
def quotient (a b : Formula .factor) : Expression :=
  .only (.join (.only a) ⟨.div, div_mem_operators⟩ b)

/-- Where a quotient is no number and the other value is above zero, the first
statement is true and the second is not. -/
theorem negations_differ :
    ∃ reading reading', Reading.ofText "0/0" = .ok reading ∧
    Reading.ofText "1" = .ok reading' ∧ Language.IsFormula reading.tokens ∧
    Language.IsFormula reading'.tokens ∧
    (∀ x, reading.Names x ∨ reading'.Names x → (empty.get? x).isSome) ∧
    empty.Evaluates (notBothText "0/0" "1") (.ok (some .one)) empty ∧
    empty.Evaluates (eitherNotText "0/0" "1") (.ok (some .zero)) empty := by
  let e : Expression := quotient (.constant .zero) (.constant .zero)
  let f : Expression := .only (.only (.constant .one))
  obtain ⟨reading, hread, he⟩ :=
    Reading.exists_spelling "0/0" e.lexemes (by decide +kernel)
  obtain ⟨reading', hread', hf⟩ :=
    Reading.exists_spelling "1" f.lexemes (by decide +kernel)
  have hknown :
      ∀ x, reading.Names x ∨ reading'.Names x → (empty.get? x).isSome := by
    rintro x (hx | hx)
    · simpa [e, quotient, Formula.lexemes] using (Reading.names_iff he).mp hx
    · simpa [f, Formula.lexemes] using (Reading.names_iff hf).mp hx
  have hone : Single.ofBool (!(
      Single.zero.lt
          (e.value (pooledBy (e.lexemes ++ f.lexemes)) empty.value false) &&
        Single.zero.lt
          (f.value (pooledBy (e.lexemes ++ f.lexemes)) empty.value false))) =
      .one := by
    decide +kernel
  have hzero : Single.ofBool (
      (e.value
          (pooledBy (e.lexemes ++ f.lexemes)) empty.value false).le .zero ||
        (f.value
          (pooledBy (e.lexemes ++ f.lexemes)) empty.value false).le .zero) =
      .zero := by
    decide +kernel
  obtain ⟨hboth, heither⟩ :=
    evaluates_negated hread hread' he hf hknown (by decide) (by decide)
  rw [hone] at hboth
  rw [hzero] at heither
  exact ⟨reading, reading', hread, hread',
    Language.isFormula_iff.mpr (.inl ⟨e, he⟩),
    Language.isFormula_iff.mpr (.inl ⟨f, hf⟩), hknown, hboth, heither⟩

/-- Both negations of two formulas give the same: with a line break in one of
the texts they are refused alike, and without one they have the same value. Only
if one of the two values is no number and the other is none either or is above
zero, the first is true and the second is not. -/
theorem evaluates_negations (hp : Reading.ofText p = .ok reading)
    (hq : Reading.ofText q = .ok reading')
    (hleft : Language.IsFormula reading.tokens)
    (hright : Language.IsFormula reading'.tokens)
    (hknown : ∀ x, reading.Names x ∨ reading'.Names x → (s.get? x).isSome) :
    ('\n' ∈ p.toList ∨ '\n' ∈ q.toList →
      s.Evaluates (notBothText p q) (.error (.compose (.unbalanced "[" 1))) s ∧
        s.Evaluates (eitherNotText p q)
          (.error (.compose (.unbalanced "[" 1))) s) ∧
    ('\n' ∉ p.toList → '\n' ∉ q.toList →
      (∃ (t : Tier) (e : Formula t), Spells reading.tokens e.lexemes) ∧
      (∃ (u : Tier) (f : Formula u), Spells reading'.tokens f.lexemes) ∧
      ∀ {t u : Tier} (e : Formula t) (f : Formula u),
        Spells reading.tokens e.lexemes → Spells reading'.tokens f.lexemes →
          let pooled := pooledBy (e.lexemes ++ f.lexemes)
          let v := e.value pooled s.value false
          let w := f.value pooled s.value false
          (Undecided v w → s.Evaluates (notBothText p q) (.ok (some .one)) s ∧
            s.Evaluates (eitherNotText p q) (.ok (some .zero)) s) ∧
          (¬Undecided v w →
            let value := Single.ofBool (v.le .zero || w.le .zero)
            s.Evaluates (notBothText p q) (.ok (some value)) s ∧
              s.Evaluates (eitherNotText p q) (.ok (some value)) s)) := by
  obtain ⟨t, e, he⟩ := Language.exists_formula hleft
  obtain ⟨u, f, hf⟩ := Language.exists_formula hright
  constructor
  · intro hbreak
    obtain ⟨a, ha⟩ := Formula.exists_padded hp he
    obtain ⟨b, hb⟩ := Formula.exists_padded hq hf
    exact ⟨Joint.notBoth_puts.refuses ha hb (Joint.writes_notBoth ha hb) hbreak,
      Joint.eitherNot_puts.refuses ha hb (Joint.writes_eitherNot ha hb) hbreak⟩
  · intro hp' hq'
    refine ⟨⟨t, e, he⟩, ⟨u, f, hf⟩, fun e f he hf => ?_⟩
    obtain ⟨hboth, heither⟩ := evaluates_negated hp hq he hf hknown hp' hq'
    intro pooled v w
    obtain ⟨hundecided, hdecided⟩ := negations_of_undecided v w
    constructor
    · intro h
      obtain ⟨hone, hzero⟩ := hundecided h
      rw [hone] at hboth
      rw [hzero] at heither
      exact ⟨hboth, heither⟩
    · intro h
      rw [hdecided h] at hboth
      exact ⟨hboth, heither⟩

/-- A quotient that is no number, and a value below zero. -/
theorem evaluates_negations_judged :
    judged.Evaluates (notBothText "c/c" "-a") (.ok (some .one)) judged ∧
      judged.Evaluates (eitherNotText "c/c" "-a") (.ok (some .one)) judged := by
  let e : Expression := quotient (.name "c") (.name "c")
  let f : Expression := .negated (.only (.name "a"))
  obtain ⟨reading, hread, he⟩ :=
    Reading.exists_spelling "c/c" e.lexemes (by decide +kernel)
  obtain ⟨reading', hread', hf⟩ :=
    Reading.exists_spelling "-a" f.lexemes (by decide +kernel)
  have hvalues : ∀ x ∈ ["c", "a"], (judged.get? x).isSome := by decide +kernel
  have hknown :
      ∀ x, reading.Names x ∨ reading'.Names x → (judged.get? x).isSome := by
    refine fun x hx => hvalues x ?_
    rcases hx with hx | hx
    · have hmem := (Reading.names_iff he).mp hx
      simp [e, quotient, Formula.lexemes] at hmem
      simp [hmem]
    · have hmem := (Reading.names_iff hf).mp hx
      simp [f, Formula.lexemes] at hmem
      simp [hmem]
  have hdecided : ¬Undecided
      (e.value (pooledBy (e.lexemes ++ f.lexemes)) judged.value false)
      (f.value (pooledBy (e.lexemes ++ f.lexemes)) judged.value false) := by
    decide +kernel
  have hone : Single.ofBool (
      (e.value
          (pooledBy (e.lexemes ++ f.lexemes)) judged.value false).le .zero ||
        (f.value
          (pooledBy (e.lexemes ++ f.lexemes)) judged.value false).le .zero) =
      .one := by
    decide +kernel
  obtain ⟨-, -, hall⟩ := (evaluates_negations hread hread'
    (Language.isFormula_iff.mpr (.inl ⟨e, he⟩))
    (Language.isFormula_iff.mpr (.inl ⟨f, hf⟩))
    hknown).2 (by decide) (by decide)
  have h := (hall e f he hf).2 hdecided
  rwa [hone] at h

end Store

end Reckon
