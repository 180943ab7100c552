import Reckon.Proofs.Sorting
import Reckon.Proofs.Token.Mentions

/-!
# What is found about names

Which findings there are about a row of tokens, said of the positions of its
mentions (`Finds`), and that they are reported in full and in order
(`Diagnostic.reports_ofTokens`). The passes over the mentions ask of one of them
only what its name is, whether that name was mentioned before and whether it is
mentioned otherwise, which makes two of them the same scan (`Mentions.remarks`).

Definitions of labels are gone through once. So on one line a label that is
defined again and one that nothing jumps to are reported in the order of the
text, and not the ones before the others (`Diagnostic.not_reports_by_kind`).
-/

namespace Reckon

variable {α β : Type} {P : Nat → α → Prop} {R : Nat × α → Nat × α → Prop}
  {xs : List α} {tokens : List Token}

open Mentions

/-! ## Scans that know the names before -/

namespace Mentions

variable {P : Nat → Mention → Prop} {ms earlier : List Mention}

/-- What is said of mentions in turn, given whether their names came before. -/
def remarks (f : Bool → Mention → Option β) (earlier : List Mention) :
    List Mention → List β
  | [] => []
  | m :: rest =>
      (f (names earlier m.name) m).toList ++ remarks f (m :: earlier) rest

theorem names_cons (m : Mention) (earlier : List Mention) (name : String) :
    names (m :: earlier) name = (m.name == name || names earlier name) := rfl

/-- Keeping first mentions is such a scan. -/
theorem firsts_eq {seen : List String}
    (hseen : ∀ name, seen.contains name = names earlier name) :
    firsts seen ms =
      remarks (fun again m => if again then none else some m) earlier ms := by
  induction ms generalizing seen earlier with
  | nil => rfl
  | cons m rest ih =>
      rw [firsts, remarks, hseen]
      cases hagain : names earlier m.name with
      | true =>
          refine ih fun name => ?_
          rw [hseen, names_cons]
          by_cases hname : m.name = name
          · rw [← hname, hagain, Bool.or_true]
          · rw [beq_eq_false_iff_ne.mpr hname, Bool.false_or]
      | false =>
          refine congrArg (m :: ·) (ih fun name => ?_)
          rw [List.contains_cons, hseen, names_cons, BEq.comm]

/-- The remarks about definitions are another. -/
theorem aboutDefinitions_eq (targeted : List Mention) :
    Diagnostic.aboutDefinitions targeted earlier ms = remarks (fun again m =>
      if again then some ⟨.repeatedLabel m.name, m.line⟩
      else if names targeted m.name then none
      else some ⟨.untargetedLabel m.name, m.line⟩) earlier ms := by
  induction ms generalizing earlier with
  | nil => rfl
  | cons m rest ih =>
      rw [Diagnostic.aboutDefinitions, remarks, ih]
      cases names earlier m.name <;> cases names targeted m.name <;> rfl

theorem names_iff_of_lists (h : Lists P ms) {name : String} :
    names ms name = true ↔ ∃ i m, P i m ∧ m.name = name := by
  simp only [names, List.any_eq_true, beq_iff_eq, h.mem_iff]
  exact ⟨fun ⟨m, ⟨i, hm⟩, hname⟩ => ⟨i, m, hm, hname⟩,
    fun ⟨i, m, hm, hname⟩ => ⟨m, ⟨i, hm⟩, hname⟩⟩

/-- A mention in a list is of an earlier name if that is one from before the
list or is in front of it. -/
theorem names_iff_in_front {k : Nat} {u : Mention}
    {places : List (Nat × Mention)} (hfirst : ∀ place ∈ places, k < place.1)
    {i : Nat} {m : Mention} (hm : (i, m) ∈ places) :
    (names (u :: earlier) m.name = true ∨
        ∃ j v, (j, v) ∈ places ∧ j < i ∧ v.name = m.name) ↔
      names earlier m.name = true ∨
        ∃ j v, (j, v) ∈ (k, u) :: places ∧ j < i ∧ v.name = m.name := by
  rw [names_cons, Bool.or_eq_true, beq_iff_eq]
  constructor
  · rintro ((hname | hearlier) | ⟨j, v, hmem, h⟩)
    · exact .inr ⟨k, u, List.mem_cons_self, hfirst _ hm, hname⟩
    · exact .inl hearlier
    · exact .inr ⟨j, v, List.mem_cons_of_mem _ hmem, h⟩
  · rintro (hearlier | ⟨j, v, hmem, hlt, hname⟩)
    · exact .inl (.inr hearlier)
    · rcases List.mem_cons.mp hmem with heq | hmem
      · obtain ⟨rfl, rfl⟩ := Prod.mk.inj heq
        exact .inl (.inl hname)
      · exact .inr ⟨j, v, hmem, hlt, hname⟩

/-- A mention is remarked on at its position, names from before the list
counting as earlier. -/
theorem lists_remarks_behind (f : Bool → Mention → Option β)
    {places : List (Nat × Mention)}
    (hsorted : places.Pairwise fun a b => a.1 < b.1) (earlier : List Mention) :
    Lists (fun i y => ∃ m again, (i, m) ∈ places ∧ f again m = some y ∧
        (again = true ↔ names earlier m.name = true ∨
          ∃ j u, (j, u) ∈ places ∧ j < i ∧ u.name = m.name))
      (remarks f earlier (places.map Prod.snd)) := by
  induction places generalizing earlier with
  | nil => exact ⟨[], rfl, List.Pairwise.nil, fun i y =>
      iff_of_false List.not_mem_nil fun ⟨_, _, hmem, _⟩ =>
        List.not_mem_nil hmem⟩
  | cons first rest ih =>
      obtain ⟨k, u⟩ := first
      obtain ⟨hfirst, hrest⟩ := List.pairwise_cons.mp hsorted
      -- Nothing of the list is in front of its first mention.
      have hnone :
          ¬∃ j v, (j, v) ∈ (k, u) :: rest ∧ j < k ∧ v.name = u.name := by
        rintro ⟨j, v, hmem, hlt, -⟩
        rcases List.mem_cons.mp hmem with heq | hmem
        · exact absurd hlt (by rw [(Prod.mk.inj heq).1]; exact Nat.lt_irrefl k)
        · exact Nat.lt_asymm hlt (hfirst _ hmem)
      refine ((ih hrest (u :: earlier)).cons (f (names earlier u.name) u)
        fun i y ⟨m, _, hm, _⟩ => hfirst (i, m) hm).congr fun i y => ?_
      constructor
      · rintro (⟨rfl, hy⟩ | ⟨m, again, hm, hy, hagain⟩)
        · exact ⟨u, _, List.mem_cons_self, hy, (or_iff_left hnone).symm⟩
        · exact ⟨m, again, List.mem_cons_of_mem _ hm, hy,
            hagain.trans (names_iff_in_front hfirst hm)⟩
      · rintro ⟨m, again, hm, hy, hagain⟩
        rcases List.mem_cons.mp hm with heq | hm
        · obtain ⟨rfl, rfl⟩ := Prod.mk.inj heq
          obtain rfl := Bool.eq_iff_iff.mpr (hagain.trans (or_iff_left hnone))
          exact .inl ⟨rfl, hy⟩
        · exact .inr ⟨m, again, hm, hy,
            hagain.trans (names_iff_in_front hfirst hm).symm⟩

/-- A mention is remarked on at its position. -/
theorem lists_remarks (h : Lists P ms) (f : Bool → Mention → Option β) :
    Lists (fun i y => ∃ m again, P i m ∧ f again m = some y ∧
        (again = true ↔ ∃ j u, P j u ∧ j < i ∧ u.name = m.name))
      (remarks f [] ms) := by
  obtain ⟨places, rfl, hsorted, hmem⟩ := h
  refine (lists_remarks_behind f hsorted []).congr fun i y => ?_
  simp only [hmem]
  simp [names]

theorem lists_firsts (h : Lists P ms) :
    Lists (fun i m => P i m ∧ ∀ j u, P j u → j < i → u.name ≠ m.name)
      (firsts [] ms) := by
  rw [firsts_eq (show ∀ name, [].contains name = names [] name
    from fun _ => rfl)]
  refine (lists_remarks h _).congr fun i m => ?_
  constructor
  · rintro ⟨m', again, hm, hfirst, hagain⟩
    cases again with
    | true => cases hfirst
    | false =>
        obtain rfl := Option.some.inj hfirst
        exact ⟨hm, fun j u hu hlt hname =>
          nomatch hagain.mpr ⟨j, u, hu, hlt, hname⟩⟩
  · rintro ⟨hm, hfirst⟩
    exact ⟨m, false, hm, rfl, iff_of_false nofun
      fun ⟨j, u, hu, hlt, hname⟩ => hfirst j u hu hlt hname⟩

end Mentions

/-! ## Lists put together -/

namespace ListsBy

variable {P Q : Nat → α → Prop} {S : Nat × α → Nat × α → Prop} {ys : List α}

theorem mono (h : ListsBy R P xs)
    (hRS : ∀ a b, P a.1 a.2 → P b.1 b.2 → R a b → S a b) : ListsBy S P xs := by
  obtain ⟨places, hxs, hsorted, hmem⟩ := h
  exact ⟨places, hxs, hsorted.imp_of_mem fun ha hb =>
    hRS _ _ ((hmem _ _).mp ha) ((hmem _ _).mp hb), hmem⟩

theorem append (hxs : ListsBy R P xs) (hys : ListsBy R Q ys)
    (hR : ∀ a b, P a.1 a.2 → Q b.1 b.2 → R a b) :
    ListsBy R (fun i x => P i x ∨ Q i x) (xs ++ ys) := by
  obtain ⟨as, rfl, has, hP⟩ := hxs
  obtain ⟨bs, rfl, hbs, hQ⟩ := hys
  refine ⟨as ++ bs, List.map_append, List.pairwise_append.mpr ⟨has, hbs, ?_⟩,
    fun i x => ?_⟩
  · exact fun a ha b hb => hR a b ((hP _ _).mp ha) ((hQ _ _).mp hb)
  · rw [List.mem_append, hP, hQ]

/-- Sorting by a key goes before the order that there was. -/
theorem sort (h : ListsBy R P xs) (key : α → Nat) :
    ListsBy (fun a b => key a.2 < key b.2 ∨ key a.2 = key b.2 ∧ R a b) P
      (sortBy (fun a b => key a ≤ key b) xs) := by
  obtain ⟨places, rfl, hsorted, hmem⟩ := h
  refine ⟨sortBy (fun a b => key a.2 ≤ key b.2) places,
    map_sortBy (fun a b => decide (key a ≤ key b)) Prod.snd places, ?_,
    fun i x => ?_⟩
  · refine (sortBy_stable ?_ ?_ hsorted).imp fun {a b} h => ?_
    · exact fun a b => by simpa using Nat.le_total (key a.2) (key b.2)
    · exact fun a b c hab hbc => by
        simp only [decide_eq_true_eq] at hab hbc ⊢
        exact Nat.le_trans hab hbc
    · obtain ⟨hle, hR⟩ := h
      simp only [decide_eq_true_eq] at hle hR
      rcases Nat.lt_or_eq_of_le hle with hlt | heq
      · exact .inl hlt
      · exact .inr ⟨heq, hR (Nat.le_of_eq heq.symm)⟩
  · rw [mem_sortBy, hmem]

end ListsBy

/-! ## Findings -/

/-- What there is to say about the mention at a position. -/
inductive Finds (tokens : List Token) (i : Nat) : Diagnostic → Prop where
  | unused {m : Mention} : Declares tokens i m →
      (∀ j u, Uses tokens j u → u.name ≠ m.name) →
      Finds tokens i ⟨.unusedVariable m.name, m.line⟩
  | undeclared {m : Mention} : Uses tokens i m →
      (∀ j u, Uses tokens j u → j < i → u.name ≠ m.name) →
      (∀ j d, Declares tokens j d → d.name ≠ m.name) →
      Finds tokens i ⟨.undeclaredVariable m.name, m.line⟩
  | repeated {m d : Mention} {j : Nat} : Defines tokens i m →
      Defines tokens j d → j < i → d.name = m.name →
      Finds tokens i ⟨.repeatedLabel m.name, m.line⟩
  | untargeted {m : Mention} : Defines tokens i m →
      (∀ j d, Defines tokens j d → j < i → d.name ≠ m.name) →
      (∀ j t, Targets tokens j t → t.name ≠ m.name) →
      Finds tokens i ⟨.untargetedLabel m.name, m.line⟩
  | undefined {m : Mention} : Targets tokens i m →
      (∀ j t, Targets tokens j t → j < i → t.name ≠ m.name) →
      (∀ j d, Defines tokens j d → d.name ≠ m.name) →
      Finds tokens i ⟨.undefinedLabel m.name, m.line⟩

namespace Finding

/-- The kinds of findings in a row. -/
def kind : Finding → Nat
  | unusedVariable _ => 0
  | undeclaredVariable _ => 1
  | repeatedLabel _ => 2
  | untargetedLabel _ => 3
  | undefinedLabel _ => 4

/-- The passes that make the findings: one for all remarks about definitions. -/
def pass : Finding → Nat
  | unusedVariable _ => 0
  | undeclaredVariable _ => 1
  | repeatedLabel _ | untargetedLabel _ => 2
  | undefinedLabel _ => 3

end Finding

/-- The order of findings on one line: by rank, and in one rank by position. -/
def Outranks (rank : Finding → Nat) (a b : Nat × Diagnostic) : Prop :=
  rank a.2.finding < rank b.2.finding ∨
    rank a.2.finding = rank b.2.finding ∧ a.1 < b.1

/-- A report is all that there is to find, each finding once, in order of the
lines and on one line in order of rank and position. -/
def Reports (rank : Finding → Nat) (tokens : List Token)
    (report : List Diagnostic) : Prop :=
  ListsBy
    (fun a b => a.2.line < b.2.line ∨
      a.2.line = b.2.line ∧ Outranks rank a b)
    (Finds tokens) report

namespace Diagnostic

/-- What one pass finds is in order of rank. -/
theorem outranks_of_lists {P : Nat → Diagnostic → Prop}
    {report : List Diagnostic} {rank : Finding → Nat} {r : Nat}
    (h : Lists P report) (hrank : ∀ i d, P i d → rank d.finding = r) :
    ListsBy (Outranks rank) P report :=
  h.mono fun _ _ ha hb hlt =>
    .inr ⟨(hrank _ _ ha).trans (hrank _ _ hb).symm, hlt⟩

theorem lists_unused (tokens : List Token) :
    Lists (fun i d => Finds tokens i d ∧ d.finding.pass = 0)
      (unused (collect {} none tokens)) := by
  refine (((lists_declared tokens).filter _).map _).congr fun i d => ?_
  simp only [Bool.not_eq_true', ← Bool.not_eq_true,
    names_iff_of_lists (lists_used tokens)]
  constructor
  · rintro ⟨m, ⟨hm, hnever⟩, rfl⟩
    exact ⟨.unused hm fun j u hu hname => hnever ⟨j, u, hu, hname⟩, rfl⟩
  · rintro ⟨hfinds, hpass⟩
    cases hfinds with
    | unused hm hnever =>
        exact ⟨_, ⟨hm, fun ⟨j, u, hu, hname⟩ => hnever j u hu hname⟩, rfl⟩
    | _ => cases hpass

theorem lists_undeclared (tokens : List Token) :
    Lists (fun i d => Finds tokens i d ∧ d.finding.pass = 1)
      (undeclared (collect {} none tokens)) := by
  refine (((lists_firsts (lists_used tokens)).filter _).map _).congr
    fun i d => ?_
  simp only [Bool.not_eq_true', ← Bool.not_eq_true,
    names_iff_of_lists (lists_declared tokens)]
  constructor
  · rintro ⟨m, ⟨⟨hm, hfirst⟩, hnever⟩, rfl⟩
    exact ⟨.undeclared hm hfirst fun j u hu hname =>
      hnever ⟨j, u, hu, hname⟩, rfl⟩
  · rintro ⟨hfinds, hpass⟩
    cases hfinds with
    | undeclared hm hfirst hnever =>
        exact ⟨_,
          ⟨⟨hm, hfirst⟩, fun ⟨j, u, hu, hname⟩ => hnever j u hu hname⟩, rfl⟩
    | _ => cases hpass

theorem lists_aboutDefinitions (tokens : List Token) :
    Lists (fun i d => Finds tokens i d ∧ d.finding.pass = 2)
      (aboutDefinitions (collect {} none tokens).targeted []
        (collect {} none tokens).defined) := by
  rw [aboutDefinitions_eq]
  refine (lists_remarks (lists_defined tokens) _).congr fun i d => ?_
  constructor
  · rintro ⟨m, again, hm, hd, hagain⟩
    cases again with
    | true =>
        obtain rfl := Option.some.inj hd
        obtain ⟨j, u, hu, hlt, hname⟩ := hagain.mp rfl
        exact ⟨.repeated hm hu hlt hname, rfl⟩
    | false =>
        obtain ⟨hnever, hd⟩ := Option.ite_none_left_eq_some.mp hd
        obtain rfl := Option.some.inj hd
        rw [names_iff_of_lists (lists_targeted tokens)] at hnever
        exact ⟨.untargeted hm
          (fun j u hu hlt hname => nomatch hagain.mpr ⟨j, u, hu, hlt, hname⟩)
          fun j t ht hname => hnever ⟨j, t, ht, hname⟩, rfl⟩
  · rintro ⟨hfinds, hpass⟩
    cases hfinds with
    | repeated hm hu hlt hname =>
        exact ⟨_, true, hm, rfl, iff_of_true rfl ⟨_, _, hu, hlt, hname⟩⟩
    | untargeted hm hfirst hnever =>
        refine ⟨_, false, hm, Option.ite_none_left_eq_some.mpr ⟨?_, rfl⟩,
          iff_of_false nofun ?_⟩
        · rw [names_iff_of_lists (lists_targeted tokens)]
          exact fun ⟨j, t, ht, hname⟩ => hnever j t ht hname
        · exact fun ⟨j, u, hu, hlt, hname⟩ => hfirst j u hu hlt hname
    | _ => cases hpass

theorem lists_undefined (tokens : List Token) :
    Lists (fun i d => Finds tokens i d ∧ d.finding.pass = 3)
      (undefined (collect {} none tokens)) := by
  refine (((lists_firsts (lists_targeted tokens)).filter _).map _).congr
    fun i d => ?_
  simp only [Bool.not_eq_true', ← Bool.not_eq_true,
    names_iff_of_lists (lists_defined tokens)]
  constructor
  · rintro ⟨m, ⟨⟨hm, hfirst⟩, hnever⟩, rfl⟩
    exact ⟨.undefined hm hfirst fun j u hu hname =>
      hnever ⟨j, u, hu, hname⟩, rfl⟩
  · rintro ⟨hfinds, hpass⟩
    cases hfinds with
    | undefined hm hfirst hnever =>
        exact ⟨_,
          ⟨⟨hm, hfirst⟩, fun ⟨j, u, hu, hname⟩ => hnever j u hu hname⟩, rfl⟩
    | _ => cases hpass

/-- The findings about any tokens are reported in full: in order of the lines,
on one line by passes, and in one pass in order of the text. -/
theorem reports_ofTokens (tokens : List Token) :
    Reports Finding.pass tokens (ofTokens tokens) ∧
    ∀ d ∈ ofTokens tokens, d.finding.severity = .error ↔
      ∃ name, d.finding = .undeclaredVariable name ∨
        d.finding = .undefinedLabel name := by
  have hranked : ∀ {r report},
      Lists (fun i d => Finds tokens i d ∧ d.finding.pass = r) report →
        ListsBy (Outranks Finding.pass)
          (fun i d => Finds tokens i d ∧ d.finding.pass = r)
          report :=
    fun h => outranks_of_lists h fun _ _ hd => hd.2
  constructor
  · have hdeclared :=
      (hranked (lists_unused tokens)).append (hranked (lists_undeclared tokens))
      fun a b ha hb => .inl (by omega)
    have hdefined := hdeclared.append (hranked (lists_aboutDefinitions tokens))
      fun a b ha hb => .inl (by omega)
    have hall := hdefined.append (hranked (lists_undefined tokens))
      fun a b ha hb => .inl (by omega)
    refine (hall.sort line).congr fun i d => ?_
    constructor
    · rintro (((h | h) | h) | h) <;> exact h.1
    · intro h
      obtain ⟨finding, line⟩ := d
      cases finding with
      | unusedVariable => exact .inl (.inl (.inl ⟨h, rfl⟩))
      | undeclaredVariable => exact .inl (.inl (.inr ⟨h, rfl⟩))
      | repeatedLabel | untargetedLabel => exact .inl (.inr ⟨h, rfl⟩)
      | undefinedLabel => exact .inr ⟨h, rfl⟩
  · intro d _
    obtain ⟨finding, line⟩ := d
    cases finding <;> simp [Finding.severity]

/-- One line that defines a label in vain, and then another one twice. -/
def redefining : List Token :=
  [.keyword "begin" 1, .word (.label "n") 1 none, .keyword ":" 1,
    .word (.label "m") 1 none, .keyword ":" 1, .word (.label "m") 1 none,
    .keyword ":" 1, .keyword "goto" 1, .word (.label "m") 1 none]

/-- A label that is defined again need not be reported before those that
nothing jumps to. -/
theorem not_reports_by_kind :
    ¬Reports Finding.kind redefining (ofTokens redefining) := by
  have hreport :
      ofTokens redefining = [⟨.untargetedLabel "n", 1⟩,
        ⟨.repeatedLabel "m", 1⟩] := by
    decide +kernel
  rw [hreport]
  rintro ⟨places, hreported, hsorted, -⟩
  obtain ⟨⟨i, _⟩, _, rfl, rfl, hrest⟩ := List.map_eq_cons_iff.mp hreported
  obtain ⟨⟨j, _⟩, _, rfl, rfl, -⟩ := List.map_eq_cons_iff.mp hrest
  -- The second finding is of the kind before.
  have horder := (List.pairwise_cons.mp hsorted).1 _ List.mem_cons_self
  simp [Outranks, Finding.kind] at horder

end Diagnostic

end Reckon
