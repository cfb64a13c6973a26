import IncludeDeps.Proofs.Walk.Exploration
import Mathlib.Data.Nat.Digits.Lemmas

/-!
# Walks come to an end

There are fewer files than the budget of a reader (`Reader.length_lt_budget`): their paths are
texts of bounded length, and different ones are different numbers when their bytes are read as
digits.  As a walk enters each file once, the bound on its length is never reached, and
`Walk.explores_run` tells that `Walk.run` is a whole walk.

`Walk.Confined` is the invariant of this: all that is on the stack or was entered is the source or
a file, so what was entered is no more than there are files, and one.
-/

namespace IncludeDeps

namespace Reader

/-! ## How many files there are -/

/-- The bytes of a path as digits, with a one in front so that no zero gets lost. -/
def code (p : Path) : Nat := Nat.ofDigits 256 ((Bytes.ofText p.text).map UInt8.toNat ++ [1])

lemma digits_code (p : Path) :
    Nat.digits 256 (code p) = (Bytes.ofText p.text).map UInt8.toNat ++ [1] := by
  refine Nat.digits_ofDigits 256 (by omega) _ (fun n hn => ?_) (fun _ => by simp)
  rcases List.mem_append.1 hn with hn | hn
  · obtain ⟨b, -, rfl⟩ := List.mem_map.1 hn
    exact b.toNat_lt
  · rw [List.mem_singleton.1 hn]
    omega

lemma code_injective : Function.Injective code := by
  intro p q h
  have hdigits := congrArg (Nat.digits 256) h
  rw [digits_code, digits_code] at hdigits
  have hbytes : Bytes.ofText p.text = Bytes.ofText q.text :=
    List.map_injective_iff.2 (fun a b hab => UInt8.toNat_inj.1 hab)
      (List.append_cancel_right hdigits)
  have htext := congrArg Bytes.text? hbytes
  rw [Bytes.text?_ofText, Bytes.text?_ofText] at htext
  cases p
  cases q
  cases htext
  rfl

lemma code_ne_zero (p : Path) : code p ≠ 0 := by
  intro h
  have hdigits := digits_code p
  rw [h, Nat.digits_zero] at hdigits
  simp at hdigits

lemma length_ofText (s : String) : (Bytes.ofText s).length = s.utf8ByteSize := by
  rw [Bytes.ofText, Array.length_toList]
  rfl

lemma code_lt (p : Path) : code p < 256 ^ (p.byteSize + 1) := by
  have hlength : ((Bytes.ofText p.text).map UInt8.toNat ++ [1]).length = p.byteSize + 1 := by
    rw [List.length_append, List.length_map, length_ofText]
    rfl
  rw [← hlength]
  refine Nat.ofDigits_lt_base_pow_length (by omega) fun n hn => ?_
  rcases List.mem_append.1 hn with hn | hn
  · obtain ⟨b, -, rfl⟩ := List.mem_map.1 hn
    exact b.toNat_lt
  · rw [List.mem_singleton.1 hn]
    omega

/-- There are fewer files than the budget, as their paths, read as numerals, are different numbers
below it. -/
theorem length_lt_budget (r : Reader) {l : List Path} (hl : l.Nodup)
    (hfile : ∀ p ∈ l, r.isFile p) : l.length < r.budget := by
  -- paths are read as numerals to base 256; with zero, which no path has, there are more codes
  -- than files
  have hcodes : (0 :: l.map code).Nodup := by
    refine List.nodup_cons.2 ⟨fun h => ?_, hl.map code_injective⟩
    obtain ⟨p, -, hp⟩ := List.mem_map.1 h
    exact code_ne_zero p hp
  have hbound : 0 :: l.map code ⊆ List.range r.budget := by
    intro n hn
    rw [List.mem_range]
    rcases List.mem_cons.1 hn with rfl | hn
    · exact Nat.pow_pos (by omega)
    · obtain ⟨p, hp, rfl⟩ := List.mem_map.1 hn
      calc
        code p < 256 ^ (p.byteSize + 1) := code_lt p
        _ ≤ 256 ^ r.pathLimit :=
          Nat.pow_le_pow_right (by omega) (r.byteSize_lt_of_isFile p (hfile p hp))
  have hlength := (List.subperm_of_subset hcodes hbound).length_le
  rw [List.length_cons, List.length_map, List.length_range] at hlength
  omega

end Reader

/-! ## The bound on a walk -/

namespace Walk

variable {c : PassContext} {w : Walk} {source : Path} {stack : List Path}

lemma explores_dropWhile {w' : Walk}
    (h : Explores c (stack.dropWhile w.visited.contains) w w') : Explores c stack w w' := by
  induction stack with
  | nil => exact h
  | cons p rest ih =>
    cases hp : w.visited.contains p with
    | true =>
      rw [List.dropWhile_cons, if_pos hp] at h
      exact .skip hp (ih h)
    | false =>
      rw [List.dropWhile_cons, if_neg (by rw [hp]; exact Bool.false_ne_true)] at h
      exact h

/-- The source and files are all that a walk has entered and all that it will enter. -/
structure Confined (c : PassContext) (source : Path) (stack : List Path) (w : Walk) : Prop where
  sound : w.Sound c
  canonical : ∀ p ∈ stack, p.IsCanonical
  visited : ∀ p ∈ w.visited.toList, p = source ∨ c.reader.isFile p
  stack : ∀ p ∈ stack, p = source ∨ c.reader.isFile p

lemma Confined.size_le (h : Confined c source stack w) : w.visited.size ≤ c.reader.budget := by
  have hfiles : (w.visited.toList.erase source).length < c.reader.budget := by
    refine c.reader.length_lt_budget (w.visited.nodup_toList.erase source) fun p hp => ?_
    rw [w.visited.nodup_toList.mem_erase_iff] at hp
    exact (h.visited p hp.2).resolve_left hp.1
  have herase : w.visited.toList.length ≤ (w.visited.toList.erase source).length + 1 := by
    rw [List.length_erase]
    split
    · omega
    · omega
  rw [OrderedSet.size]
  omega

lemma Confined.enter {p : Path} (h : Confined c source (p :: stack) w) :
    Confined c source ((w.enter c p).1 ++ stack) (w.enter c p).2 where
  sound := sound_enter h.sound (h.canonical p List.mem_cons_self)
  canonical := canonical_push h.sound h.canonical
  visited := by
    intro q hq
    rw [visited_enter] at hq
    rcases OrderedSet.mem_insert hq with rfl | hq
    · exact h.stack q List.mem_cons_self
    · exact h.visited q hq
  stack := by
    intro q hq
    rcases List.mem_append.1 hq with hq | hq
    · exact .inr (isFile_of_mem_next h.sound (h.canonical p List.mem_cons_self) hq).2
    · exact h.stack q (List.mem_cons_of_mem _ hq)

lemma Confined.dropWhile {f : Path → Bool} (h : Confined c source stack w) :
    Confined c source (stack.dropWhile f) w where
  sound := h.sound
  canonical p hp := h.canonical p ((List.dropWhile_suffix f).subset hp)
  visited := h.visited
  stack p hp := h.stack p ((List.dropWhile_suffix f).subset hp)

/-- With fuel for all files that are left, `Walk.run` walks to the end.  Whatever is known of walks
to their end (`Walk.Explores`) holds of the function that runs, since the fuel that `Pass.visit`
gives it is enough. -/
theorem explores_run {fuel : Nat} (h : Confined c source stack w)
    (hfuel : c.reader.budget < w.visited.size + fuel) :
    Explores c stack w (run c fuel stack w) := by
  -- each turn that enters a file uses up fuel and leaves one file less; without fuel there would
  -- be more files entered than there are
  induction fuel generalizing stack w with
  | zero =>
    have hsize := h.size_le
    omega
  | succ fuel ih =>
    refine explores_dropWhile ?_
    have hdrop := h.dropWhile (f := w.visited.contains)
    unfold run
    cases hstack : stack.dropWhile w.visited.contains with
    | nil => exact .done w
    | cons p rest =>
      have hp : w.visited.contains p = false := by
        have hhead := List.head?_dropWhile_not w.visited.contains stack
        rw [hstack] at hhead
        simpa using hhead
      rw [hstack] at hdrop
      refine .enter hp (ih hdrop.enter ?_)
      rw [visited_enter, OrderedSet.size_insert hp]
      omega

end Walk

end IncludeDeps
