import IncludeDeps.Wire
import Mathlib.Algebra.Group.Nat.Defs
import Mathlib.Data.List.Basic
import Mathlib.Data.List.Flatten
import Mathlib.Tactic.Lemma

/-!
# Wire formats can be read back

A format is lawful if what it writes of countable values can be read back from the front of every
byte string (`Wire.IsLawful`).  What is countable depends on the type: a text is if a count can tell
the number of its bytes, and a list if one can tell its length and its elements are countable.  The
building blocks are lawful if their parts are, so the formats of whole types are lawful by the way
in which they are put together.
-/

namespace IncludeDeps

namespace Bytes

variable {width n : Nat} {rest : Bytes}

/-- A number is written up to a multiple of what does not fit into its width. -/
lemma toNat_ofNat (width n : Nat) : toNat (ofNat width n) = n % 256 ^ width := by
  induction width generalizing n with
  | zero => exact (Nat.mod_one n).symm
  | succ width ih =>
    have hlow : (UInt8.ofNat n).toNat = n % 256 := UInt8.toNat_ofNat
    show (UInt8.ofNat n).toNat + 256 * toNat (ofNat width (n / 256)) = _
    rw [ih, hlow, Nat.pow_succ', Nat.mod_mul]

lemma takeNat?_ofNat_mod (width n : Nat) (rest : Bytes) :
    takeNat? width (ofNat width n ++ rest) = some (n % 256 ^ width, rest) := by
  have hlength : ¬ (ofNat width n ++ rest).length < width := by
    rw [List.length_append, Digest.length_bytes_ofNat]
    omega
  rw [takeNat?, if_neg hlength, List.take_left' (Digest.length_bytes_ofNat width n),
    List.drop_left' (Digest.length_bytes_ofNat width n), toNat_ofNat]

/-- A number that fits into its width is read back. -/
lemma takeNat?_ofNat (h : n < 256 ^ width) :
    takeNat? width (ofNat width n ++ rest) = some (n, rest) := by
  rw [takeNat?_ofNat_mod, Nat.mod_eq_of_lt h]

lemma takeNat?_append {bs : Bytes} (h : takeNat? width bs = some (n, rest)) (more : Bytes) :
    takeNat? width (bs ++ more) = some (n, rest ++ more) := by
  unfold takeNat? at h ⊢
  split at h
  · cases h
  · next hlength =>
    have hle := Nat.le_of_not_lt hlength
    cases h
    rw [if_neg (by rw [List.length_append]; omega), List.take_append_of_le_length hle,
      List.drop_append_of_le_length hle]

end Bytes

namespace Wire

variable {α β : Type} {a : Wire α} {b : Wire β} {P : α → Prop} {Q : β → Prop} {n widest : Nat}
  {rest : Bytes}

/-- The number of elements can be told by a count, and the elements satisfy `P`. -/
def Each (P : α → Prop) (xs : List α) : Prop := xs.length < 2 ^ 64 ∧ ∀ x ∈ xs, P x

/-- What is written of the values that satisfy `P` can be read back.  These are all whose form can
be counted as a whole, and nothing is written as nothing. -/
structure IsLawful (a : Wire α) (P : α → Prop) : Prop where
  ne_nil : ∀ x, a.write x ≠ []
  holds : ∀ x, (a.write x).length < 2 ^ 64 → P x
  read_write : ∀ x rest, P x → a.read (a.write x ++ rest) = some (x, rest)

/-! ## Numbers -/

lemma writeNumber_ne_nil (n : Nat) : writeNumber n ≠ [] := by
  unfold writeNumber
  repeat' split
  all_goals simp

lemma readNumber_cons {k width : Nat} (hk : 250 < k) (hbyte : k < 256)
    (hwidth : Nat.pow 2 (k - 250) = width) (hwidest : width ≤ widest) (hn : n < 256 ^ width) :
    readNumber widest (UInt8.ofNat k :: Bytes.ofNat width n ++ rest) = some (n, rest) := by
  have hnat : (UInt8.ofNat k).toNat = k := UInt8.toNat_ofNat_of_lt' hbyte
  rw [List.cons_append, readNumber]
  simp only [hnat, hwidth]
  rw [if_neg (by omega), if_pos hwidest]
  exact Bytes.takeNat?_ofNat hn

lemma readNumber_of_le (h : n ≤ 250) :
    readNumber widest ([UInt8.ofNat n] ++ rest) = some (n, rest) := by
  have hnat : (UInt8.ofNat n).toNat = n := UInt8.toNat_ofNat_of_lt' (by show n < 256; omega)
  rw [List.cons_append, readNumber]
  simp only [hnat, if_pos h]
  rfl

/-- A number is read back by a format that is wide enough. -/
theorem read_number (hwidest : widest = 4 ∨ widest = 8) (h : n < 256 ^ widest) :
    (number widest).read ((number widest).write n ++ rest) = some (n, rest) := by
  have hwide : 4 ≤ widest := by omega
  show readNumber widest (writeNumber n ++ rest) = _
  unfold writeNumber
  -- one byte, or a mark and two, four or eight bytes; the last form needs a field that is wide
  -- enough
  by_cases hone : n ≤ 250
  · rw [if_pos hone]
    exact readNumber_of_le hone
  rw [if_neg hone]
  by_cases htwo : n < 0x10000
  · rw [if_pos htwo]
    exact readNumber_cons (k := 251) (by omega) (by omega) rfl (by omega) htwo
  rw [if_neg htwo]
  by_cases hfour : n < 0x100000000
  · rw [if_pos hfour]
    exact readNumber_cons (k := 252) (by omega) (by omega) rfl hwide hfour
  · rw [if_neg hfour]
    have height : widest = 8 := by
      refine hwidest.resolve_left fun hfour' => hfour ?_
      rw [hfour'] at h
      exact h
    rw [height] at h ⊢
    exact readNumber_cons (k := 253) (by omega) (by omega) rfl (by omega) h

lemma read_count (h : n < 2 ^ 64) : count.read (count.write n ++ rest) = some (n, rest) :=
  read_number (.inr rfl) h

/-! ## Building blocks -/

lemma IsLawful.pair (ha : a.IsLawful P) (hb : b.IsLawful Q) :
    (a.pair b).IsLawful fun x => P x.1 ∧ Q x.2 where
  ne_nil x := by simp [Wire.pair, ha.ne_nil]
  holds x hlength := by
    simp only [Wire.pair, List.length_append] at hlength
    exact ⟨ha.holds x.1 (by omega), hb.holds x.2 (by omega)⟩
  read_write x rest h := by
    simp only [Wire.pair]
    rw [List.append_assoc, ha.read_write x.1 _ h.1]
    simp only [bind, Option.bind]
    rw [hb.read_write x.2 _ h.2]
    rfl

lemma IsLawful.convert {toWritten : β → α} {ofRead : α → Option β} (ha : a.IsLawful P)
    (h : ∀ y, ofRead (toWritten y) = some y) (hholds : ∀ y, Q y ↔ P (toWritten y)) :
    (a.convert toWritten ofRead).IsLawful Q where
  ne_nil y := ha.ne_nil (toWritten y)
  holds y hlength := (hholds y).2 (ha.holds _ hlength)
  read_write y rest hy := by
    simp only [Wire.convert]
    rw [ha.read_write _ _ ((hholds y).1 hy)]
    simp only [bind, Option.bind, h]
    rfl

/-- A format for small numbers is lawful for a type that has no others. -/
lemma isLawful_convert_number {toWritten : β → Nat} {ofRead : Nat → Option β}
    (hsmall : ∀ y, toWritten y < 2 ^ 32) (h : ∀ y, ofRead (toWritten y) = some y) :
    ((number 4).convert toWritten ofRead).IsLawful fun _ => True where
  ne_nil y := writeNumber_ne_nil (toWritten y)
  holds _ _ := trivial
  read_write y rest _ := by
    simp only [Wire.convert]
    rw [read_number (.inl rfl) (hsmall y)]
    simp only [bind, Option.bind, h]
    rfl

lemma isLawful_flag : flag.IsLawful fun _ => True where
  ne_nil x := List.cons_ne_nil _ _
  holds _ _ := trivial
  read_write x rest _ := by
    cases x with
    | false => rfl
    | true => rfl

lemma isLawful_raw (h : 0 < n) : (raw n).IsLawful fun _ => True where
  ne_nil x hnil := by
    have hlength := x.2
    rw [show x.1 = [] from hnil, List.length_nil] at hlength
    omega
  holds _ _ := trivial
  read_write x rest _ := by
    have hlength : n ≤ (x.1 ++ rest).length := by
      rw [List.length_append, x.2]
      omega
    simp only [raw, dif_pos hlength]
    simp [List.take_left' x.2, List.drop_left' x.2]

lemma isLawful_digest : digest.IsLawful fun _ => True :=
  (isLawful_raw (by omega)).convert (fun _ => rfl) fun _ => Iff.rfl

lemma isLawful_text : text.IsLawful fun s => s.utf8ByteSize < 2 ^ 64 where
  ne_nil s := by simp [text, count, number, writeNumber_ne_nil]
  holds s hlength := by
    simp only [text, List.length_append] at hlength
    have hsize : (Bytes.ofText s).length = s.utf8ByteSize := rfl
    omega
  read_write s rest h := by
    have hcount : (Bytes.ofText s).length < 2 ^ 64 := h
    simp only [text]
    rw [List.append_assoc, read_count hcount]
    simp only [bind, Option.bind]
    rw [if_neg (by simp), List.take_left, List.drop_left, Bytes.text?_ofText]
    rfl

lemma IsLawful.option (ha : a.IsLawful P) : a.option.IsLawful fun o => ∀ x ∈ o, P x where
  ne_nil x := by
    cases x with
    | none => exact isLawful_flag.ne_nil false
    | some x => simp [Wire.option, isLawful_flag.ne_nil]
  holds o hlength x hx := by
    rw [Option.mem_def.1 hx] at hlength
    simp only [Wire.option, List.length_append] at hlength
    exact ha.holds x (by omega)
  read_write o rest h := by
    cases o with
    | none => rfl
    | some x =>
      simp only [Wire.option]
      rw [List.append_assoc, isLawful_flag.read_write _ _ trivial]
      simp only [bind, Option.bind]
      rw [ha.read_write _ _ (h x rfl)]
      rfl

lemma IsLawful.length_le (ha : a.IsLawful P) (xs : List α) :
    xs.length ≤ (xs.flatMap a.write).length := by
  induction xs with
  | nil => exact Nat.le_refl 0
  | cons x rest ih =>
    have hx := List.length_pos_of_ne_nil (ha.ne_nil x)
    rw [List.flatMap_cons, List.length_append, List.length_cons]
    omega

lemma IsLawful.readElements (ha : a.IsLawful P) (xs : List α) (h : ∀ x ∈ xs, P x) :
    Wire.readElements a.read xs.length (xs.flatMap a.write ++ rest) = some (xs, rest) := by
  induction xs with
  | nil => rfl
  | cons x xs ih =>
    rw [List.flatMap_cons, List.append_assoc, List.length_cons, Wire.readElements,
      ha.read_write x _ (h x List.mem_cons_self)]
    simp only [bind, Option.bind]
    rw [ih fun y hy => h y (List.mem_cons_of_mem _ hy)]
    rfl

lemma IsLawful.list (ha : a.IsLawful P) : a.list.IsLawful (Each P) where
  ne_nil xs := by simp [Wire.list, count, number, writeNumber_ne_nil]
  holds xs hlength := by
    have hle := ha.length_le xs
    simp only [Wire.list, List.length_append] at hlength
    refine ⟨by omega, fun x hx => ha.holds x ?_⟩
    have hpart := ((List.singleton_sublist.2 hx).flatMap a.write).length_le
    rw [List.flatMap_singleton] at hpart
    omega
  read_write xs rest h := by
    simp only [Wire.list]
    rw [List.append_assoc, read_count h.1]
    exact ha.readElements xs h.2

/-! ## Reading from the front -/

/-- What is read from the front does not depend on what follows it. -/
def IsSteady (a : Wire α) : Prop :=
  ∀ bs x rest more, a.read bs = some (x, rest) → a.read (bs ++ more) = some (x, rest ++ more)

/-- Nothing is read from a part of what is written. -/
lemma IsSteady.read_eq_none {x : α} {front back : Bytes} (ha : a.IsSteady)
    (hread : a.read (front ++ back) = some (x, [])) (hback : back ≠ []) : a.read front = none := by
  cases hfront : a.read front with
  | none => rfl
  | some found =>
    obtain ⟨y, rest⟩ := found
    rw [ha front y rest back hfront] at hread
    obtain ⟨-, hrest⟩ := Prod.mk.inj (Option.some.inj hread)
    exact absurd (List.append_eq_nil_iff.1 hrest).2 hback

lemma isSteady_number (widest : Nat) : (number widest).IsSteady := by
  intro bs n rest more h
  cases bs with
  | nil => cases h
  | cons b bs =>
    simp only [number, readNumber, List.cons_append] at h ⊢
    split at h
    · next hone =>
      cases h
      rw [if_pos hone]
    · next hone =>
      rw [if_neg hone]
      split at h
      · next hwidth =>
        rw [if_pos hwidth]
        exact Bytes.takeNat?_append h more
      · cases h

lemma isSteady_raw (n : Nat) : (raw n).IsSteady := by
  intro bs x rest more h
  simp only [raw] at h ⊢
  split at h
  · next hlength =>
    cases h
    rw [dif_pos (by rw [List.length_append]; omega)]
    simp only [List.take_append_of_le_length hlength, List.drop_append_of_le_length hlength]
  · cases h

lemma IsSteady.pair (ha : a.IsSteady) (hb : b.IsSteady) : (a.pair b).IsSteady := by
  intro bs p rest more h
  obtain ⟨⟨x, tail⟩, hx, h⟩ := Option.bind_eq_some_iff.1 h
  obtain ⟨⟨y, last⟩, hy, h⟩ := Option.bind_eq_some_iff.1 h
  cases h
  have hlater := ha bs x tail more hx
  exact Option.bind_eq_some_iff.2
    ⟨_, hlater, Option.bind_eq_some_iff.2 ⟨_, hb tail y rest more hy, rfl⟩⟩

lemma IsSteady.convert {toWritten : β → α} {ofRead : α → Option β} (ha : a.IsSteady) :
    (a.convert toWritten ofRead).IsSteady := by
  intro bs y rest more h
  obtain ⟨⟨x, tail⟩, hx, h⟩ := Option.bind_eq_some_iff.1 h
  obtain ⟨y', hy, h⟩ := Option.bind_eq_some_iff.1 h
  cases h
  have hlater := ha bs x rest more hx
  exact Option.bind_eq_some_iff.2 ⟨_, hlater, Option.bind_eq_some_iff.2 ⟨_, hy, rfl⟩⟩

lemma isSteady_digest : digest.IsSteady := (isSteady_raw 16).convert

lemma isSteady_text : text.IsSteady := by
  intro bs s rest more h
  obtain ⟨⟨n, tail⟩, hn, h⟩ := Option.bind_eq_some_iff.1 h
  have hlater := isSteady_number 8 bs n tail more hn
  refine Option.bind_eq_some_iff.2 ⟨_, hlater, ?_⟩
  simp only at h ⊢
  split at h
  · cases h
  · next hlength =>
    have hle := Nat.le_of_not_lt hlength
    obtain ⟨s', hs, h⟩ := Option.bind_eq_some_iff.1 h
    cases h
    rw [if_neg (by rw [List.length_append]; omega), List.take_append_of_le_length hle,
      List.drop_append_of_le_length hle]
    exact Option.bind_eq_some_iff.2 ⟨_, hs, rfl⟩

end Wire

end IncludeDeps
