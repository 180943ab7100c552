import Reckon.Code.Encoding

/-!
# A program file gives the program back

Every part of a file is written by one function and read by another, and what
joins the two is always the same: the reader gets back what was written and
stops exactly behind it, whatever stands there. `Restores` says this of a
reader, some bytes and a value. It climbs from numbers to texts, operations and
rows of items because parts that stand behind each other are restored one after
the other; nothing above the numbers looks at a byte.

What can be lost is a number that is too large for its width. A reader of
`groups` groups has room for `room` numbers, and 64 bits are what the nine full
groups and the one bit of a slot or a count have room for. `Storable` asks no
more than that: a program whose slots and counts are 64-bit numbers. The
constants are under no condition. They are patterns of bits here, and the
patterns come back, those that denote no number among them.
-/

namespace Reckon

namespace Encoding

/-- How many numbers of so many groups there are, the last of them limited. -/
def room (limit : Nat) : (groups : Nat) → Nat
  | 0 => limit + 1
  | groups + 1 => 128 * room limit groups

/-- How many numbers of 64 bits there are. -/
def words : Nat := 0x10000000000000000

theorem room_word : room 1 9 = words := rfl

theorem room_shortWord : room 15 4 = 0x100000000 := rfl

/-- The reader gets the value back from its bytes and stops behind them. -/
def Restores {α : Type} (reader : Reader α) (written : List UInt8) (x : α) :
    Prop :=
  ∀ rest, reader (written ++ rest) = .ok (x, rest)

/-! ## Numbers -/

theorem toNat_byte {n : Nat} (h : n < 256) : (UInt8.ofNat n).toNat = n :=
  UInt8.toNat_ofNat_of_lt h

theorem restores_ofNat {limit : Nat} (hlimit : limit < 128) :
    ∀ {groups n : Nat}, n < room limit groups →
      Restores (toNat limit (groups + 1)) (ofNat n) n := by
  intro groups
  induction groups with
  | zero =>
      intro n hn rest
      have hle : n < limit + 1 := hn
      rw [ofNat, if_pos (by omega), List.singleton_append, toNat,
        toNat_byte (by omega), if_pos (by omega), if_neg (by omega)]
  | succ groups ih =>
      intro n hn rest
      rw [ofNat]
      by_cases hlast : n < 128
      · rw [if_pos hlast, List.singleton_append, toNat,
          toNat_byte (by omega), if_pos hlast, if_neg (by omega)]
      · have hhigh : n / 128 < room limit groups := by
          have : n < 128 * room limit groups := hn
          omega
        rw [if_neg hlast, List.cons_append, toNat, toNat_byte (by omega),
          if_neg (by omega), ih hhigh]
        have hsum : n % 128 + 128 - 128 + 128 * (n / 128) = n := by omega
        simp only [bind, Except.bind, hsum]
        rfl

theorem restores_word {n : Nat} (h : n < words) :
    Restores toWord (ofNat n) n :=
  restores_ofNat (by decide) (room_word ▸ h)

theorem restores_shortWord {n : Nat} (h : n < 0x100000000) :
    Restores toShortWord (ofNat n) n :=
  restores_ofNat (by decide) (room_shortWord ▸ h)

/-! ## Texts and constants -/

theorem restores_text {text : String}
    (h : (Text.encode text).length < words) :
    Restores toText (ofText text) text := by
  intro rest
  have hlength : ¬(Text.encode text ++ rest).length <
      (Text.encode text).length := by
    rw [List.length_append]
    omega
  rw [ofText, List.append_assoc, toText, restores_word h]
  simp only [bind, Except.bind, if_neg hlength, List.take_left',
    List.drop_left', Text.decode?_encode]
  rfl

/-- The four bytes of a constant are its pattern, whatever it denotes. -/
theorem restores_single (value : Single) :
    Restores toSingle (ofSingle value) value := by
  intro rest
  obtain ⟨bits⟩ := value
  have hbits := bits.toNat_lt
  have hpattern : bits.toNat % 256 + 0x100 * (bits.toNat / 0x100 % 256) +
      0x10000 * (bits.toNat / 0x10000 % 256) +
      0x1000000 * (bits.toNat / 0x1000000 % 256) = bits.toNat := by
    omega
  simp only [ofSingle, List.cons_append, List.nil_append, toSingle,
    UInt8.toNat_ofNat', Nat.reducePow, hpattern, UInt32.ofNat_toNat]

/-! ## Operations -/

/-- What an operation says besides its number is a slot of 64 bits or a text
whose length is one. -/
def StorableOp : Op → Prop
  | .name name => (Text.encode name).length < words
  | .constant slot | .label slot => slot < words
  | _ => True

instance : DecidablePred StorableOp
  | .name _ | .constant _ | .label _ => Nat.decLt _ _
  | .mark | .assign | .neg | .binary _ | .not | .jumpIfFalse | .jump | .read
  | .write => .isTrue trivial

theorem opNumber_lt (op : Op) : opNumber op < 23 := by
  cases op with
  | binary operator => cases operator <;> decide
  | _ => rw [opNumber]; omega

theorem restores_op {op : Op} (h : StorableOp op) :
    Restores toOp (ofOp op) op := by
  intro rest
  have hnumber := opNumber_lt op
  rw [ofOp, List.append_assoc, toOp, restores_shortWord (by omega)]
  cases op with
  | name name =>
      simp only [bind, Except.bind, opNumber, opArgument, restores_text h rest]
      rfl
  | constant slot | label slot =>
      simp only [bind, Except.bind, opNumber, opArgument, restores_word h rest]
      rfl
  | binary operator => cases operator <;> rfl
  | _ => rfl

/-! ## Rows of items -/

variable {α : Type} {reader : Reader α} {item : α → List UInt8}

theorem restores_items {items : List α}
    (h : ∀ x ∈ items, Restores reader (item x) x) :
    Restores (toItems reader items.length) (items.flatMap item) items := by
  induction items with
  | nil => exact fun rest => rfl
  | cons first others ih =>
      intro rest
      have hfirst := h first List.mem_cons_self
      have hothers := ih fun x hx => h x (List.mem_cons_of_mem first hx)
      rw [List.flatMap_cons, List.append_assoc, List.length_cons, toItems,
        hfirst]
      simp only [bind, Except.bind, hothers rest]
      rfl

theorem restores_list {items : List α} (hlength : items.length < words)
    (h : ∀ x ∈ items, Restores reader (item x) x) :
    Restores (toList reader) (ofList item items) items := by
  intro rest
  rw [ofList, List.append_assoc, toList, restores_word hlength]
  exact restores_items h rest

end Encoding

namespace Program

open Encoding

/-- The counts and slots of the program are numbers of 64 bits, as those of
every program are that a machine holds. -/
structure Storable (p : Program) : Prop where
  ops : p.ops.length < words
  op : ∀ op ∈ p.ops, StorableOp op
  constants : p.constants.length < words
  labels : p.labels.length < words
  label : ∀ label ∈ p.labels, (Text.encode label).length < words

variable {p : Program}

/-- A program comes back from its file as it was, whatever stands behind it. -/
theorem ofBytes_toBytes (h : p.Storable) (rest : List UInt8) :
    ofBytes (p.toBytes ++ rest) = .ok p := by
  have hops := restores_list h.ops fun op hop => restores_op (h.op op hop)
  have hconstants := restores_list h.constants fun value _ =>
    restores_single value
  have hlabels := restores_list h.labels fun label hlabel =>
    restores_text (h.label label hlabel)
  rw [toBytes, List.append_assoc, List.append_assoc, ofBytes, hops]
  simp only [bind, Except.bind, hconstants _, hlabels rest]
  rfl

/-- The greatest slot, a name outside ASCII and a pattern that denotes no
number, with two bytes behind the file. -/
theorem ofBytes_toBytes_extremes :
    let p : Program :=
      { ops := [.name "größe", .constant 0xffffffffffffffff, .label 300, .mark]
        constants := [⟨0x7fc00001⟩, ⟨0x80000000⟩], labels := ["m", ""] }
    p.Storable ∧ ofBytes (p.toBytes ++ [0x80, 0xff]) = .ok p :=
  have h : Storable _ :=
    ⟨by decide, by decide, by decide, by decide, by decide⟩
  ⟨h, ofBytes_toBytes h _⟩

end Program

end Reckon
