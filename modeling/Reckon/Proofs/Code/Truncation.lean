import Reckon.Proofs.Code.Encoding

/-!
# A program file that is cut short

A file that ends too early is never taken for another program, and what is wrong
with it is never taken for something else. Wherever the cut falls, some part of
the file is the first that is not all there; the parts in front of it are whole
and are read as they were written, and the reader of that part runs out of bytes
before it can find any other fault in them.

`Starves` says so of a reader and some bytes. Like `Restores` it climbs from
numbers to texts, operations and rows of items, and the step is always the same:
of two parts behind each other either the first is cut, or the first is whole
and the second is cut. That the first is then read as it was written is what
`Restores` has to say here.
-/

namespace Reckon

namespace Encoding

/-- Whoever reads the bytes with some of the last ones missing wants more. -/
def Starves {β : Type} (read : List UInt8 → Except DecodeError β)
    (written : List UInt8) : Prop :=
  ∀ front missing, front ++ missing = written → missing ≠ [] →
    read front = .error .unexpectedEnd

variable {α β : Type} {read : List UInt8 → Except DecodeError β}
  {reader : Reader α} {next : α × List UInt8 → Except DecodeError β}
  {a b : List UInt8} {x : α}

/-! ## Parts behind each other -/

/-- From no bytes none can be missing. -/
theorem Starves.nil : Starves read [] := by
  intro front missing hall hmissing
  exact absurd (List.append_eq_nil_iff.mp hall).2 hmissing

/-- What is done with a result makes no difference where there is none. -/
theorem Starves.bind (h : Starves reader a)
    (hread : ∀ bytes, read bytes = reader bytes >>= next) : Starves read a := by
  intro front missing hall hmissing
  rw [hread, h front missing hall hmissing]
  rfl

/-- Of two parts the first is cut, or it is whole and the second is cut. -/
theorem Starves.behind (hfirst : Starves reader a)
    (hwhole : Restores reader a x)
    (hread : ∀ bytes, read bytes = reader bytes >>= next)
    (hsecond : Starves (fun rest => next (x, rest)) b) :
    Starves read (a ++ b) := by
  have hcut : ∀ rest missing, rest ++ missing = b → missing ≠ [] →
      read (a ++ rest) = .error .unexpectedEnd := by
    intro rest missing hall hmissing
    rw [hread, hwhole rest]
    exact hsecond rest missing hall hmissing
  intro front missing hall hmissing
  rcases List.append_eq_append_iff.mp hall with ⟨c, rfl, hc⟩ | ⟨c, rfl, hc⟩
  · by_cases hnone : c = []
    · rw [hnone, List.append_nil] at hcut
      have hfront := hcut [] b rfl (by rwa [hc, hnone] at hmissing)
      rwa [List.append_nil] at hfront
    · rw [hread, hfirst front c rfl hnone]
      rfl
  · exact hcut c missing hc.symm hmissing

/-! ## Numbers -/

theorem starves_ofNat {limit : Nat} (hlimit : limit < 128) :
    ∀ {groups n : Nat}, n < room limit groups →
      Starves (toNat limit (groups + 1)) (ofNat n) := by
  -- A last group has no proper beginning but the empty one.
  have hlast : ∀ {groups n : Nat}, n < 128 →
      Starves (toNat limit (groups + 1)) (ofNat n) := by
    intro groups n hn front missing hall hmissing
    rw [ofNat, if_pos hn] at hall
    cases front with
    | nil => rfl
    | cons byte front =>
        have hempty := List.append_eq_nil_iff.mp (List.cons.inj hall).2
        exact absurd hempty.2 hmissing
  intro groups
  induction groups with
  | zero =>
      intro n hn
      have hle : n < limit + 1 := hn
      exact hlast (by omega)
  | succ groups ih =>
      intro n hn
      by_cases hsmall : n < 128
      · exact hlast hsmall
      intro front missing hall hmissing
      rw [ofNat, if_neg hsmall] at hall
      cases front with
      | nil => rfl
      | cons byte front =>
          obtain ⟨rfl, hrest⟩ := List.cons.inj hall
          have hhigh : n / 128 < room limit groups := by
            have : n < 128 * room limit groups := hn
            omega
          rw [toNat, toNat_byte (by omega), if_neg (by omega),
            ih hhigh front missing hrest hmissing]
          rfl

theorem starves_word {n : Nat} (h : n < words) : Starves toWord (ofNat n) :=
  starves_ofNat (by decide) (room_word ▸ h)

theorem starves_shortWord {n : Nat} (h : n < 0x100000000) :
    Starves toShortWord (ofNat n) :=
  starves_ofNat (by decide) (room_shortWord ▸ h)

/-! ## Texts and constants -/

/-- A text that is cut is not looked at: its length is compared first. -/
theorem starves_text {text : String} (h : (Text.encode text).length < words) :
    Starves toText (ofText text) := by
  refine (starves_word h).behind (restores_word h) (fun _ => rfl) ?_
  intro front missing hall hmissing
  have hlength : front.length < (Text.encode text).length := by
    have hpositive := List.length_pos_iff.mpr hmissing
    rw [← hall, List.length_append]
    omega
  simp only [bind, Except.bind, if_pos hlength]
  rfl

theorem starves_single (value : Single) :
    Starves toSingle (ofSingle value) := by
  intro front missing hall hmissing
  have hlength : front.length < 4 := by
    have hpositive := List.length_pos_iff.mpr hmissing
    have hfour : (ofSingle value).length = 4 := rfl
    rw [← hall, List.length_append] at hfour
    omega
  match front, hlength with
  | [], _ | [_], _ | [_, _], _ | [_, _, _], _ => rfl
  | _ :: _ :: _ :: _ :: _, hlength => exact absurd hlength (by simp)

/-! ## Operations -/

theorem starves_op {op : Op} (h : StorableOp op) : Starves toOp (ofOp op) := by
  have hnumber : opNumber op < 0x100000000 := by
    have := opNumber_lt op
    omega
  refine (starves_shortWord hnumber).behind (restores_shortWord hnumber)
    (fun _ => rfl) ?_
  cases op with
  | name name => exact (starves_text h).bind fun _ => rfl
  | constant slot | label slot => exact (starves_word h).bind fun _ => rfl
  | _ => exact .nil

/-! ## Rows of items -/

variable {item : α → List UInt8}

theorem starves_items {items : List α}
    (hwhole : ∀ x ∈ items, Restores reader (item x) x)
    (hcut : ∀ x ∈ items, Starves reader (item x)) :
    Starves (toItems reader items.length) (items.flatMap item) := by
  induction items with
  | nil => exact .nil
  | cons first others ih =>
      have hothers := ih (fun x hx => hwhole x (List.mem_cons_of_mem first hx))
        fun x hx => hcut x (List.mem_cons_of_mem first hx)
      rw [List.flatMap_cons]
      exact (hcut first List.mem_cons_self).behind
        (hwhole first List.mem_cons_self) (fun _ => rfl)
        (hothers.bind fun _ => rfl)

theorem starves_list {items : List α} (hlength : items.length < words)
    (hwhole : ∀ x ∈ items, Restores reader (item x) x)
    (hcut : ∀ x ∈ items, Starves reader (item x)) :
    Starves (toList reader) (ofList item items) :=
  (starves_word hlength).behind (restores_word hlength) (fun _ => rfl)
    (starves_items hwhole hcut)

end Encoding

namespace Program

open Encoding

variable {p : Program}

/-- Of a program file that is cut short it is said that it is. -/
theorem ofBytes_of_cut (h : p.Storable) {cut : List UInt8}
    (hfront : cut <+: p.toBytes) (hproper : cut ≠ p.toBytes) :
    ofBytes cut = .error .unexpectedEnd := by
  have hwholeOp := fun op hop => restores_op (h.op op hop)
  have hops :=
    starves_list h.ops hwholeOp fun op hop => starves_op (h.op op hop)
  have hconstants :=
    starves_list h.constants (fun value _ => restores_single value)
    fun value _ => starves_single value
  have hlabels := starves_list h.labels
    (fun label hlabel => restores_text (h.label label hlabel))
    fun label hlabel => starves_text (h.label label hlabel)
  have hfile : Starves ofBytes p.toBytes := by
    rw [toBytes, List.append_assoc]
    refine hops.behind (restores_list h.ops hwholeOp) (fun _ => rfl) ?_
    refine hconstants.behind (restores_list h.constants fun value _ =>
      restores_single value) (fun _ => rfl) ?_
    exact hlabels.bind fun _ => rfl
  obtain ⟨missing, hall⟩ := hfront
  refine hfile cut missing hall fun hnone => hproper ?_
  rw [← hall, hnone, List.append_nil]

/-- Cut inside a letter outside ASCII, inside a slot and inside a constant. -/
theorem ofBytes_of_cut_inside :
    let p : Program :=
      { ops := [.name "größe", .constant 0xffffffffffffffff, .mark]
        constants := [⟨0x7fc00001⟩], labels := ["m"] }
    p.Storable ∧ ∀ n ∈ [6, 12, 24],
      p.toBytes.take n <+: p.toBytes ∧ p.toBytes.take n ≠ p.toBytes ∧
        ofBytes (p.toBytes.take n) = .error .unexpectedEnd := by
  intro p
  have h : p.Storable := ⟨by decide, by decide, by decide, by decide, by decide⟩
  refine ⟨h, fun n hn => ?_⟩
  have hfront := List.take_prefix n p.toBytes
  have hproper : p.toBytes.take n ≠ p.toBytes := by
    revert n
    decide +kernel
  exact ⟨hfront, hproper, ofBytes_of_cut h hfront hproper⟩

end Program

end Reckon
