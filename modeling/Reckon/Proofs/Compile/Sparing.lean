import Reckon.Proofs.Compile.Lone
import Reckon.Proofs.Compile.Naming
import Reckon.Proofs.Machine.Effect

/-!
# Variables left alone

A text that is evaluated is not checked, so nothing is known of its tokens.
Still, the code composed from them can name no other variables than the
identifiers among them and the limits of their loops, and a run changes no
variable that its program does not name.

A variable is followed through composing from one token to the next
(`Composer.Spares`). It is not in the code, and it will not come out of what is
pending. What has to be counted are the limits: they are made in order, one for
each `to`, so with `n` of these tokens to come the next `n` numbers are the ones
to stay clear of.
-/

namespace Reckon

open Composer (limitName)

/-! ## Composing without a name -/

namespace Composer

/-- A variable is not in the code, nor will it be if `n` more limits are
made. -/
structure Spares (x : String) (n : Nat) (c : Composer) : Prop where
  speaks : c.Speaks (fun _ => True) (· ≠ x)
  made : ∀ i, c.store.contains (limitName i) = true → i ≤ c.store.size
  unmade : ∀ i, c.store.size < i → i ≤ c.store.size + n → x ≠ limitName i

variable {x : String} {n m : Nat} {c c' : Composer}
  {before : Option Token} {token : Token} {tokens : List Token}

theorem Spares.mono (h : Spares x n c) (hle : m ≤ n) : Spares x m c :=
  { h with unmade := fun i hi hin => h.unmade i hi (by omega) }

/-- A limit takes the next number, which is not that of the variable. -/
theorem Spares.newLimit (h : Spares x (n + 1) c) :
    c.newLimit.1 ≠ x ∧ Spares x n c.newLimit.2 := by
  have hspeaks := h.speaks.newLimit
  have hsize := Store.size_set_limit h.made
  rw [newLimit_eq h.made] at hspeaks ⊢
  refine ⟨(h.unmade _ (by omega) (by omega)).symm, hspeaks, fun i hi => ?_,
    fun i hi hin => ?_⟩
  · rw [hsize]
    exact Store.limit_le h.made i hi
  · rw [hsize] at hi hin
    exact h.unmade i (by omega) (by omega)

/-- A token brings the variable into the code only if it is an identifier, or a
`to` whose limit takes the number of the variable. -/
theorem Takes.spares (htakes : Takes before token c c')
    (h : Spares x (n + if token.isKeyword "to" then 1 else 0) c)
    (hname : token.lexeme? ≠ some (.identifier x)) : Spares x n c' := by
  have hlimit : token.isKeyword "to" = true →
      c.newLimit.1 ≠ x ∧ Spares x n c.newLimit.2 := by
    intro hto
    rw [if_pos hto] at h
    exact h.newLimit
  have hspeaks : c'.Speaks (fun _ => True) (· ≠ x) :=
    htakes.speaks h.speaks (fun _ _ => trivial) (fun y hy he => hname (he ▸ hy))
      (fun _ => trivial) fun hto _ => (hlimit hto).1
  rcases htakes.stock.2 with hstore | ⟨hto, hstore⟩
  · have hless := h.mono (Nat.le_add_right n _)
    exact ⟨hspeaks, hstore ▸ hless.made, hstore ▸ hless.unmade⟩
  · have hmade := (hlimit hto).2
    exact ⟨hspeaks, hstore ▸ hmade.made, hstore ▸ hmade.unmade⟩

theorem Spares.start (h : ∀ i, 0 < i → i ≤ n → x ≠ limitName i) :
    Spares x n { labels := [], store := .empty } where
  speaks := ⟨nofun, nofun, nofun⟩
  made := nofun
  unmade i hi hin := h i hi (by simpa [Store.size, Store.empty] using hin)

/-- Tokens that have been read bring the variable into the code only if it is an
identifier among them or one of as many limits as there are `to`s. -/
def SparesAfter (x : String) (read : List Token) (c : Composer) : Prop :=
  (∀ token ∈ read, token.lexeme? ≠ some (.identifier x)) →
    ∀ n, (∀ i, 0 < i → i ≤ read.countP (·.isKeyword "to") + n →
      x ≠ limitName i) → Spares x n c

theorem SparesAfter.step {read : List Token} (h : SparesAfter x read c)
    (htakes : Takes before token c c') :
    SparesAfter x (read ++ [token]) c' := by
  intro hname n hfree
  obtain ⟨hread, htoken⟩ := List.forall_mem_append.mp hname
  refine htakes.spares (h hread _ fun i hi hin => hfree i hi ?_)
    (htoken token List.mem_cons_self)
  rw [List.countP_append, List.countP_singleton]
  omega

/-- A text that is composed names no other variables in its code than its
identifiers and the limits of its loops. -/
theorem composeBare_omits
    (hname : ∀ token ∈ tokens, token.lexeme? ≠ some (.identifier x))
    (hlimit : ∀ i, 0 < i → i ≤ tokens.countP (·.isKeyword "to") →
      x ≠ limitName i)
    (hc : composeBare tokens [] .empty = .ok c) : .name x ∉ c.program.ops := by
  obtain ⟨-, hspares⟩ := composeBare_induction (P := SparesAfter x)
    (fun _ n hfree => .start (by simpa using hfree)) SparesAfter.step hc
  rcases hspares with hspares | ⟨line, hspares⟩
  · exact fun hmem => (hspares hname 0 hlimit).speaks.names x hmem rfl
  · have hbreak :
        [Token.keyword lineBreak line].countP (·.isKeyword "to") = 0 := rfl
    refine fun hmem => Speaks.names
      (hspares (List.forall_mem_append.mpr ⟨hname, ?_⟩) 0 ?_).speaks x hmem rfl
    · exact List.forall_mem_singleton.mpr nofun
    · rwa [List.countP_append, hbreak]

end Composer

/-! ## Evaluating -/

/-- A text can change its identifiers, and a variable for the limit of
each loop: for each `to` one more name is taken, and these are
numbered from one on. -/
def Reading.Uses (reading : Reading) (x : String) : Prop :=
  reading.Names x ∨
    ∃ i, 0 < i ∧ i ≤ reading.tokens.countP (·.isKeyword "to") ∧ x = limitName i

namespace Store

variable {s after : Store} {budget : Nat} {text x : String}
  {result : Except Error (Option Single)}

/-- Whatever comes of evaluating a text, a variable that the text does not use
has the value that it had, and if there was none there is none. -/
theorem get?_after_evaluate (h : s.evaluate budget text = some (result, after))
    (hx : ∀ reading, Reading.ofText text = .ok reading → ¬ reading.Uses x) :
    after.get? x = s.get? x := by
  unfold evaluate at h
  split at h
  · cases h
    rfl
  · next reading hread =>
      split at h
      · cases h
        rfl
      · next c hc =>
          obtain ⟨halt, hrun, hresult⟩ := Option.map_eq_some_iff.mp h
          cases hresult
          have hname : ∀ token ∈ reading.tokens,
              token.lexeme? ≠ some (.identifier x) :=
            fun token htoken he => hx reading hread (.inl ⟨token, htoken, he⟩)
          have homits : .name x ∉ c.program.ops :=
            Composer.composeBare_omits hname
              (fun i hi hle he => hx reading hread (.inr ⟨i, hi, hle, he⟩)) hc
          exact Machine.run_get? homits rfl hrun

/-- A loop that is not entered. -/
def idleText : String := "do i=2 to 1\nnext"

theorem idle_spelling : ∃ reading, Reading.ofText idleText = .ok reading ∧
    Spells reading.tokens [.keyword "do", .identifier "i", .keyword "=",
      .constant ⟨0x40000000⟩, .keyword "to", .constant .one, .keyword lineBreak,
      .keyword "next"] :=
  Reading.exists_spelling _ _ (by decide +kernel)

theorem idle_names {y : String} {reading : Reading}
    (hread : Reading.ofText idleText = .ok reading) (hy : y ≠ "i") :
    ¬ reading.Names y := by
  obtain ⟨reading', hread', hspells⟩ := idle_spelling
  cases hread.symm.trans hread'
  rw [Reading.names_iff hspells]
  simpa using hy

/-- The loop leaves a variable alone that is not its own. -/
theorem get?_after_idling : ∃ result after,
    (empty.set "k" .one).evaluate 40 idleText = some (result, after) ∧
      (∀ reading, Reading.ofText idleText = .ok reading → ¬ reading.Uses "k") ∧
        after.get? "k" = some .one := by
  have huses : ∀ reading, Reading.ofText idleText = .ok reading →
      ¬ reading.Uses "k" := by
    rintro reading hread (hname | ⟨i, -, -, hi⟩)
    · exact idle_names hread (by decide) hname
    · have hfirst := congrArg (·.toList.head?) hi
      simp [limitName] at hfirst
  have hsome : ((empty.set "k" .one).evaluate 40 idleText).isSome := by
    decide +kernel
  obtain ⟨⟨result, after⟩, h⟩ := Option.isSome_iff_exists.mp hsome
  exact ⟨result, after, h, huses,
    (get?_after_evaluate h huses).trans (get?_set ..)⟩

/-- But its limit is a variable of the store from then on, and no
identifier of the text. -/
theorem limit_after_idling : ∃ result after,
    empty.evaluate 40 idleText = some (result, after) ∧
      (∀ reading, Reading.ofText idleText = .ok reading →
        ¬ reading.Names "_r1") ∧
        empty.get? "_r1" = none ∧ after.get? "_r1" = some .one := by
  have hrun :
      (empty.evaluate 40 idleText).map (·.2.get? "_r1") = some (some .one) := by
    decide +kernel
  obtain ⟨⟨result, after⟩, h, hafter⟩ := Option.map_eq_some_iff.mp hrun
  exact ⟨result, after, h, fun reading hread => idle_names hread (by decide),
    rfl, hafter⟩

end Store

end Reckon
