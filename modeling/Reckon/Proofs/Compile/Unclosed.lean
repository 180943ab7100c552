import Reckon.Proofs.Compile.Lone
import Reckon.Proofs.Compile.Taking

/-!
# Brackets left open by a line

A line break sends out all that is waiting, and a square bracket among it ends
the composing: it is reported on the line where it was opened. So two things
have to be known of tokens that are refused this way, what is pending where
their first line break comes (`Stops`), and which lines it is pending from. The
second is an invariant of its own, `PendsFrom`: no frame has another line than
the token that opened it.
-/

namespace Reckon

variable {lines : List Nat} {line : Nat} {frames : List Frame}
  {stays : Pending → Bool} {stack : List Pending} {text : String}
  {tokens : List Token} {lexemes : List Lexeme}

/-! ## The lines of what is pending -/

theorem Frame.unwind_suffix {p : Program} {left : List Frame × Program}
    (h : unwind stays line frames p = .ok left) : left.1 <:+ frames := by
  induction frames generalizing p with
  | nil =>
      cases h
      exact List.suffix_refl _
  | cons f rest ih =>
      unfold unwind at h
      split at h
      · cases h
        exact List.suffix_refl _
      · obtain ⟨op, -, h⟩ := bind_eq_ok_iff.mp h
        exact (ih h).trans (List.suffix_cons f rest)

namespace Composer

variable {c c' : Composer} {before : Option Token} {token : Token}
  {context : LoopContext}

/-- Whatever is pending is so from one of some lines. -/
def PendsFrom (lines : List Nat) (c : Composer) : Prop :=
  ∀ f ∈ c.stack, f.line ∈ lines

namespace PendsFrom

/-- Nothing but the stack matters. -/
theorem of_stack (h : c.PendsFrom lines) (hstack : c'.stack = c.stack) :
    c'.PendsFrom lines := by
  unfold PendsFrom
  rw [hstack]
  exact h

theorem await (h : c.PendsFrom lines) (hline : line ∈ lines) (q : Pending) :
    (c.await q line).PendsFrom lines :=
  List.forall_mem_cons.mpr ⟨hline, h⟩

theorem close (h : c.PendsFrom lines) : c.close.PendsFrom lines :=
  fun f hf => h f (List.mem_of_mem_tail hf)

theorem replaceTop (h : c.PendsFrom lines) (q : Pending) :
    (c.replaceTop q).PendsFrom lines := by
  unfold PendsFrom at h
  unfold Composer.replaceTop
  split
  · exact h
  · next f rest hstack =>
      rw [hstack] at h
      obtain ⟨hf, hrest⟩ := List.forall_mem_cons.mp h
      exact List.forall_mem_cons.mpr ⟨hf, hrest⟩

theorem unwind (h : c.PendsFrom lines) (hok : c.unwind stays line = .ok c') :
    c'.PendsFrom lines := by
  unfold Composer.unwind at hok
  split at hok
  · next hunwind =>
      cases hok
      exact fun f hf => h f ((Frame.unwind_suffix hunwind).subset hf)
  · cases hok

theorem unwindTo (h : c.PendsFrom lines)
    (hok : c.unwindTo stays text line = .ok c') : c'.PendsFrom lines := by
  obtain ⟨c₁, hunwind, hok⟩ := bind_eq_ok_iff.mp hok
  split at hok
  · cases hok
  · cases hok
    exact h.unwind hunwind

theorem branchText? {result : Result Composer} (h : c.PendsFrom lines)
    (htext : c.branchText? text line = some result) (hok : result = .ok c') :
    c'.PendsFrom lines := by
  unfold Composer.branchText? at htext
  split at htext
  · cases htext
  · split at htext
    · cases htext
      obtain ⟨c₁, hunwind, hok⟩ := bind_eq_ok_iff.mp hok
      cases hok
      have hlabelled : c.newLabel.2.PendsFrom lines := h
      refine replaceTop ?_ _
      exact of_stack (hlabelled.unwindTo hunwind) rfl
    · split at htext
      · cases htext
        cases hok
        exact h
      · split at htext
        · cases htext
          unfold closeBranch at hok
          split at hok
          · cases hok
          · obtain ⟨c₁, hunwind, hok⟩ := bind_eq_ok_iff.mp hok
            cases hok
            exact close (of_stack (h.unwindTo hunwind) rfl)
        · cases htext

theorem openBody (h : c.PendsFrom lines)
    (hok : c.openBody context line = .ok c') : c'.PendsFrom lines := by
  unfold Composer.openBody at hok
  split at hok
  · obtain ⟨c₁, hunwind, hok⟩ := bind_eq_ok_iff.mp hok
    cases hok
    have hlabelled : c.newLabel.2.PendsFrom lines := h
    refine replaceTop ?_ _
    exact of_stack (hlabelled.unwindTo hunwind) rfl
  · cases hok

theorem closeLoop (h : c.PendsFrom lines)
    (hok : c.closeLoop context line = .ok c') : c'.PendsFrom lines := by
  unfold Composer.closeLoop at hok
  split at hok
  · obtain ⟨c₁, hunwind, hok⟩ := bind_eq_ok_iff.mp hok
    cases hok
    exact close (of_stack (h.unwindTo hunwind) rfl)
  · cases hok

theorem loopText? {result : Result Composer} (h : c.PendsFrom lines)
    (htext : c.loopText? text line = some result) (hok : result = .ok c') :
    c'.PendsFrom lines := by
  unfold Composer.loopText? at htext
  split at htext
  · cases htext
  · split at htext
    · cases htext
      obtain ⟨c₁, hunwind, hok⟩ := bind_eq_ok_iff.mp hok
      cases hok
      have hmade : c.newLimit.2.newLabel.2.PendsFrom lines := h
      refine replaceTop ?_ _
      exact of_stack (hmade.unwindTo hunwind) rfl
    · split at htext
      · split at htext
        · cases htext
          exact h.openBody hok
        · cases htext
          exact h.unwindTo hok
      · split at htext
        · cases htext
          exact h.closeLoop hok
        · cases htext

theorem transferText? {result : Result Composer} (h : c.PendsFrom lines)
    (htext : c.transferText? before text = some result)
    (hok : result = .ok c') : c'.PendsFrom lines := by
  unfold Composer.transferText? at htext
  split at htext
  · cases htext
  · split at htext
    · split at htext
      · cases htext
        cases hok
        exact h
      · cases htext
        cases hok
        exact h
    · split at htext
      · cases htext
        cases hok
        exact h
      · cases htext

theorem setParameter (h : c.PendsFrom lines)
    (hok : c.setParameter context line = .ok c') : c'.PendsFrom lines := by
  unfold Composer.setParameter at hok
  split at hok
  · cases hok
    exact h.replaceTop _
  · cases hok

theorem closeBracket {round : Bool} (h : c.PendsFrom lines)
    (hok : c.closeBracket round line = .ok c') : c'.PendsFrom lines := by
  unfold Composer.closeBracket at hok
  split at hok
  · next kind _ =>
      obtain ⟨c₁, hunwind, hok⟩ := bind_eq_ok_iff.mp hok
      cases hok
      have hput : (c.emit [kind.op]).PendsFrom lines := h
      exact close (hput.unwindTo hunwind)
  · dsimp only at hok
    split at hok
    · next hunwind =>
        cases hok
        exact close (h.unwindTo hunwind)
    · cases hok

theorem plainText (h : c.PendsFrom lines) (hline : token.line ∈ lines)
    (hok : c.plainText text token = .ok c') : c'.PendsFrom lines := by
  unfold Composer.plainText at hok
  split at hok
  · exact h.unwind hok
  split at hok
  · cases hok
    exact h.await hline _
  split at hok
  · cases hok
    exact h.await hline _
  unfold operatorText at hok
  split at hok
  · cases hok
  · obtain ⟨c₁, hunwind, hok⟩ := bind_eq_ok_iff.mp hok
    cases hok
    exact (h.unwind hunwind).await hline _

theorem keyword (h : c.PendsFrom lines) (hline : token.line ∈ lines)
    (hok : c.keyword before text token = .ok c') : c'.PendsFrom lines := by
  unfold Composer.keyword at hok
  dsimp only at hok
  split at hok
  · cases hok
    exact h.await hline _
  split at hok
  · cases hok
    exact h.await hline _
  split at hok
  · exact h.closeBracket hok
  split at hok
  · exact h.closeBracket hok
  split at hok
  · next hbranch => exact h.branchText? hbranch hok
  split at hok
  · next hloop => exact h.loopText? hloop hok
  split at hok
  · obtain ⟨c₁, hset, hok⟩ := bind_eq_ok_iff.mp hok
    have hchanged := h.setParameter hset
    split at hok
    · next htransfer => exact hchanged.transferText? htransfer hok
    · exact hchanged.plainText hline hok
  · obtain ⟨_, ⟨⟩, hok⟩ := bind_eq_ok_iff.mp hok
    split at hok
    · next htransfer => exact h.transferText? htransfer hok
    · exact h.plainText hline hok

/-- What a token makes pending is so from its line. -/
theorem feed (h : c.PendsFrom lines) (hline : token.line ∈ lines)
    (hok : c.feed before token = .ok c') : c'.PendsFrom lines := by
  unfold Composer.feed at hok
  split at hok
  case h_1 | h_2 | h_3 =>
    cases hok
    exact h
  case h_4 =>
    split at hok
    · cases hok
      exact h
    · exact h.keyword hline hok
  all_goals cases hok

theorem feedAll (h : c.PendsFrom lines) (hlines : ∀ t ∈ tokens, t.line ∈ lines)
    (hok : c.feedAll before tokens = .ok c') : c'.PendsFrom lines := by
  induction tokens generalizing c before with
  | nil =>
      cases hok
      exact h
  | cons t tokens ih =>
      obtain ⟨ht, htokens⟩ := List.forall_mem_cons.mp hlines
      obtain ⟨c₁, hfeed, hok⟩ := bind_eq_ok_iff.mp hok
      exact ih (h.feed ht hfeed) htokens hok

end PendsFrom

end Composer

/-! ## What a line break finds -/

/-- Nothing but operators and square brackets is pending. -/
def Flat (stack : List Pending) : Prop :=
  ∀ q ∈ stack, q = .squareBracket ∨ ∃ o, q = .operator o

/-- And there is a bracket among it. -/
structure Unclosed (stack : List Pending) : Prop where
  flat : Flat stack
  square : .squareBracket ∈ stack

theorem Flat.operators (h : Flat stack) (ops : List Op) :
    Flat (ops.map .operator ++ stack) := by
  intro q hq
  rcases List.mem_append.mp hq with hq | hq
  · obtain ⟨o, -, rfl⟩ := List.mem_map.mp hq
    exact .inr ⟨o, rfl⟩
  · exact h q hq

theorem Flat.square (h : Flat stack) : Flat (.squareBracket :: stack) :=
  List.forall_mem_cons.mpr ⟨.inl rfl, h⟩

theorem Flat.listless (h : Flat stack) : Listless stack := by
  intro kind hmem
  rcases h _ hmem with hq | ⟨o, hq⟩ <;> cases hq

/-- The first bracket among the frames is found by a line break. -/
theorem Unclosed.unwind (h : Unclosed (frames.map Frame.pending)) (line : Nat)
    (p : Program) : ∃ f ∈ frames,
      Frame.unwind Pending.isLoop line frames p =
        .error (.unbalanced "[" f.line) := by
  induction frames generalizing p with
  | nil => cases h.square
  | cons f rest ih =>
      obtain ⟨hf, hrest⟩ := List.forall_mem_cons.mp h.flat
      rcases hf with hf | ⟨o, hf⟩
      · have hinner : f.pending.isLoop = false := by rw [hf]; rfl
        refine ⟨f, List.mem_cons_self, ?_⟩
        rw [Frame.unwind, hinner, if_neg Bool.false_ne_true, Frame.release, hf]
        rfl
      · have hsquare : .squareBracket ∈ rest.map Frame.pending := by
          rcases List.mem_cons.mp h.square with hsquare | hsquare
          · cases hsquare.trans hf
          · exact hsquare
        obtain ⟨g, hg, herror⟩ := ih ⟨hrest, hsquare⟩ (p.push o)
        have hinner : f.pending.isLoop = false := by rw [hf]; rfl
        refine ⟨g, List.mem_cons_of_mem f hg, ?_⟩
        rw [Frame.unwind, hinner, if_neg Bool.false_ne_true, Frame.release, hf]
        exact herror

open Composer in
theorem Unclosed.feed {c : Composer} (h : Unclosed c.pending)
    (before : Option Token) {token : Token}
    (htoken : token.lexeme? = some (.keyword lineBreak)) :
    ∃ f ∈ c.stack, c.feed before token = c.fail (.unbalanced "[" f.line) := by
  obtain ⟨line, index, rfl⟩ := exists_word htoken
  obtain ⟨f, hf, hunwind⟩ := h.unwind line c.program
  have hbranch : c.branchText? lineBreak line = none :=
    branchText?_eq_none_of_stack line fun skip hmem => by
      rcases h.flat _ hmem with hq | ⟨o, hq⟩ <;> cases hq
  have hloop : c.loopText? lineBreak line = none := by
    have hnone : c.pending.findSome? Pending.loop? = none := by
      refine List.findSome?_eq_none_iff.mpr fun q hq => ?_
      rcases h.flat q hq with rfl | ⟨o, rfl⟩ <;> rfl
    rw [loopText?, innermostLoop?_eq, hnone]
  refine ⟨f, hf, ?_⟩
  rw [Composer.feed, if_neg (by decide),
    keyword_eq_transfer (fun h => absurd h (by decide))
      (by decide) hbranch hloop
      (fun h => absurd h (by decide)),
    transferText?_eq_none (by decide)]
  dsimp only
  rw [plainText, if_pos rfl, Composer.unwind, Token.line, hunwind]

/-- Some words come to a line break while a bracket is open. -/
def Stops (before : Option Lexeme) (v : View) (words : List Lexeme) : Prop :=
  ∃ front rest w, words = front ++ .keyword lineBreak :: rest ∧
    .keyword lineBreak ∉ front ∧ FeedsAll before v front w ∧ Unclosed w.stack

namespace Stops

variable {before : Option Lexeme} {v w : View} {a b : List Lexeme} {x : Lexeme}

theorem here (h : Unclosed v.stack) (rest : List Lexeme) :
    Stops before v (.keyword lineBreak :: rest) :=
  ⟨[], rest, v, rfl, nofun, rfl, h⟩

theorem append (h : Stops before v a) (b : List Lexeme) :
    Stops before v (a ++ b) := by
  obtain ⟨front, rest, w, rfl, hinline, hfeeds, hopen⟩ := h
  exact ⟨front, rest ++ b, w, List.append_assoc .., hinline, hfeeds, hopen⟩

theorem after (ha : FeedsAll before v a w) (hinline : .keyword lineBreak ∉ a)
    (hb : Stops (a.getLast?.or before) w b) : Stops before v (a ++ b) := by
  obtain ⟨front, rest, u, rfl, hinner, hfeeds, hopen⟩ := hb
  refine ⟨a ++ front, rest, u, (List.append_assoc ..).symm, ?_,
    ha.append hfeeds, hopen⟩
  exact fun hmem => (List.mem_append.mp hmem).elim hinline hinner

theorem behind (hx : Feeds before v x w) (hinline : x ≠ .keyword lineBreak)
    (hb : Stops (some x) w b) : Stops before v (x :: b) :=
  after (.one hx) (fun hmem => hinline (List.mem_singleton.mp hmem).symm) hb

end Stops

/-! ## What comes of it -/

theorem Composer.feedAll_append {c c' : Composer} {a : List Token}
    (b : List Token) : ∀ {before : Option Token}, c.feedAll before a = .ok c' →
      c.feedAll before (a ++ b) = c'.feedAll (a.getLast?.or before) b := by
  induction a generalizing c with
  | nil =>
      rintro before ⟨⟩
      rfl
  | cons t a ih =>
      intro before h
      obtain ⟨c₁, hfeed, h⟩ := bind_eq_ok_iff.mp h
      have hlast : (t :: a).getLast?.or before = a.getLast?.or (some t) := by
        cases a <;> simp [List.getLast?_cons]
      rw [List.cons_append, feedAll, hfeed, hlast]
      exact ih h

/-- The bracket is reported, with the line that all tokens up to the
line break are on. -/
theorem Composer.composeBare_of_stops {labels : List String} {store : Store}
    (h : Stops none { stock := ⟨labels, store⟩ } lexemes)
    (hspells : Spells tokens lexemes)
    (hline : ∀ front t later, tokens = front ++ t :: later →
      (∀ u ∈ front, u.isLineBreak = false) → t.line = line) :
    ∃ failure, composeBare tokens labels store = .error failure ∧
      failure.error = .unbalanced "[" line := by
  obtain ⟨front, rest, w, rfl, hinline, hfeeds, hopen⟩ := h
  rw [spells_iff_reads, reads_append_iff] at hspells
  obtain ⟨later, ⟨read, rfl, hread⟩, hlater⟩ := hspells
  obtain ⟨t, behind, rfl, ht, -⟩ := reads_cons_iff.mp hlater
  have hquiet : ∀ u ∈ read, u.isLineBreak = false :=
    hread.isKeyword_eq_false hinline
  have hlines : ∀ u ∈ read, u.line ∈ [line] := by
    intro u hu
    obtain ⟨a, b, rfl⟩ := List.append_of_mem hu
    refine List.mem_singleton.mpr
      (hline a u (b ++ t :: behind) ?_ fun r hr => ?_)
    · rw [List.append_assoc, List.cons_append]
    · exact hquiet r (List.mem_append_left _ hr)
  have hempty : Shows { labels, store } { stock := ⟨labels, store⟩ } :=
    { emits := .empty, stack := rfl, labels := rfl, store := rfl }
  obtain ⟨c, hc, hshows⟩ := hfeeds.feedAll hread hempty (b := none) rfl
  have hstart : PendsFrom [line] { labels, store } := List.forall_mem_nil _
  have hpends := hstart.feedAll hlines hc
  have hunclosed : Unclosed c.pending := by
    rw [pending, hshows.stack]
    exact hopen
  obtain ⟨f, hf, hfeed⟩ := hunclosed.feed (read.getLast?.or none) ht
  have hall : feedAll { labels, store } none (read ++ t :: behind) =
      c.fail (.unbalanced "[" line) := by
    rw [feedAll_append _ hc, feedAll, hfeed,
      List.mem_singleton.mp (hpends f hf)]
    rfl
  refine ⟨⟨.unbalanced "[" line, c.labels, c.store⟩, ?_, rfl⟩
  rw [composeBare, hall]
  rfl

end Reckon
