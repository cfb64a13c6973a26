import IncludeDeps.OrderedSet
import Mathlib.Data.List.Sort
import Mathlib.Tactic.Lemma

/-!
# What ordered maps and sets hold after a change

Keys are compared and never tested for equality, so the laws of `OrderedMap` and `OrderedSet` are
stated up to keys that compare as equal.  `OrderedMap.get?_insert` says what is found after an
insertion, `OrderedMap.mem_insert` which entries, with the spelling of their keys, there are.

The two differ for paths: a path may be found under another spelling of itself, and then the entry
shows the spelling that came first.  `OrderedMap.ext_of_get?` and `OrderedSet.ext_of_contains` need
that keys which compare as equal are equal, as canonical paths are.
-/

namespace IncludeDeps

namespace OrderedMap

variable {α β γ : Type} [Ord α] [Std.TransOrd α]

/-! ## Look-ups in maps -/

lemma get?_congr {m : OrderedMap α β} {k l : α} (h : compare k l = .eq) :
    m.get? k = m.get? l := by
  have hfind : (fun e : α × β => compare k e.1 == .eq) = fun e => compare l e.1 == .eq := by
    funext e
    rw [Std.TransCmp.congr_left h]
  rw [get?, get?, find?, find?, hfind]

lemma find?_insertEntry {k k' : α} {v : β} {l : List (α × β)} :
    ((insertEntry id k v l).find? fun e => compare k' e.1 == .eq).map Prod.snd =
      if compare k' k = .eq then some v
      else (l.find? fun e => compare k' e.1 == .eq).map Prod.snd := by
  induction l with
  | nil =>
    by_cases h : compare k' k = .eq
    · simp [insertEntry, h]
    · simp [insertEntry, h]
  | cons d rest ih =>
    unfold insertEntry
    split
    · by_cases h : compare k' k = .eq
      · simp [h]
      · simp [h]
    · next heq =>
      have hd : compare k' d.1 = compare k' k := (Std.TransCmp.congr_right heq).symm
      by_cases h : compare k' k = .eq
      · simp [h, hd]
      · simp [h, hd]
    · next hgt =>
      by_cases hd : compare k' d.1 = .eq
      · -- `k` is greater than the key in front, which `k'` is equal to
        have hne : compare k' k ≠ .eq := by
          intro h
          have : compare k d.1 = .eq :=
            Std.TransCmp.eq_trans (Std.OrientedCmp.eq_symm h) hd
          rw [hgt] at this
          cases this
        simp [hd, hne]
      · simp only [List.find?_cons, beq_eq_false_iff_ne.2 hd]
        exact ih

/-- After an insertion the new value is found under every spelling of its key, and all else is as
it was. -/
lemma get?_insert (m : OrderedMap α β) (k k' : α) (v : β) :
    (m.insert k v).get? k' = if compare k' k = .eq then some v else m.get? k' :=
  find?_insertEntry

lemma get?_insert_self (m : OrderedMap α β) (k : α) (v : β) : (m.insert k v).get? k = some v := by
  rw [get?_insert, if_pos Std.ReflCmp.compare_self]

/-- Where keys that compare as equal are equal, all other keys find what they did. -/
lemma get?_insert_eq_ite [Std.LawfulEqOrd α] [DecidableEq α] (m : OrderedMap α β) (k k' : α) (v : β) :
    (m.insert k v).get? k' = if k' = k then some v else m.get? k' := by
  rw [get?_insert]
  exact if_congr Std.LawfulEqCmp.compare_eq_iff_eq rfl rfl

omit [Std.TransOrd α] in
@[simp] lemma get?_empty (k : α) : (∅ : OrderedMap α β).get? k = none := rfl

omit [Std.TransOrd α] in
lemma contains_eq_isSome (m : OrderedMap α β) (k : α) : m.contains k = (m.get? k).isSome := by
  rw [contains, get?, Option.isSome_map]

omit [Std.TransOrd α] in
lemma length_insertEntry {k : α} {v : β} {l : List (α × β)} (h : ∀ e ∈ l, compare k e.1 ≠ .eq) :
    (insertEntry id k v l).length = l.length + 1 := by
  induction l with
  | nil => rfl
  | cons d rest ih =>
    unfold insertEntry
    split
    · rfl
    · next heq => exact absurd heq (h d List.mem_cons_self)
    · rw [List.length_cons, ih fun e he => h e (List.mem_cons_of_mem _ he), List.length_cons]

/-- A new key makes a map larger by one. -/
lemma size_insert {m : OrderedMap α β} {k : α} {v : β} (h : m.contains k = false) :
    (m.insert k v).size = m.size + 1 := by
  have hne : ∀ e ∈ m.toList, compare k e.1 ≠ .eq := by
    rw [contains, find?, List.isSome_find?, List.any_eq_false] at h
    exact fun e he heq => h e he (beq_iff_eq.2 heq)
  exact length_insertEntry hne

/-! ## Entries of maps -/

lemma find?_of_mem {k : α} {v : β} {l : List (α × β)}
    (hl : l.Pairwise fun e f => compare e.1 f.1 = .lt) (h : (k, v) ∈ l) :
    l.find? (fun e => compare k e.1 == .eq) = some (k, v) := by
  induction l with
  | nil => cases h
  | cons d rest ih =>
    rw [List.pairwise_cons] at hl
    rcases List.mem_cons.1 h with rfl | hmem
    · have hself : compare k k = .eq := Std.ReflCmp.compare_self
      rw [List.find?_cons, hself]
      rfl
    · have hgt : compare k d.1 = .gt := Std.OrientedCmp.gt_of_lt (hl.1 _ hmem)
      rw [List.find?_cons, hgt]
      exact ih hl.2 hmem

lemma get?_of_entry {m : OrderedMap α β} {k : α} {v : β} (h : (k, v) ∈ m.toList) :
    m.get? k = some v := by
  rw [get?, find?, find?_of_mem m.sorted h]
  rfl

omit [Std.TransOrd α] in
lemma mem_insertEntry {k : α} {v : β} {l : List (α × β)} {e : α × β}
    (he : e ∈ insertEntry id k v l) :
    e ∈ l ∨ e.2 = v ∧ (e.1 = k ∨ compare k e.1 = .eq ∧ ∃ old, (e.1, old) ∈ l) := by
  induction l with
  | nil =>
    rw [insertEntry, List.mem_singleton] at he
    exact .inr ⟨he ▸ rfl, .inl (he ▸ rfl)⟩
  | cons d rest ih =>
    unfold insertEntry at he
    split at he
    · rcases List.mem_cons.1 he with rfl | he
      · exact .inr ⟨rfl, .inl rfl⟩
      · exact .inl he
    · next heq =>
      rcases List.mem_cons.1 he with rfl | he
      · exact .inr ⟨rfl, .inr ⟨heq, d.2, List.mem_cons_self⟩⟩
      · exact .inl (List.mem_cons_of_mem _ he)
    · rcases List.mem_cons.1 he with rfl | he
      · exact .inl List.mem_cons_self
      · rcases ih he with he | ⟨hv, hk | ⟨hk, old, hold⟩⟩
        · exact .inl (List.mem_cons_of_mem _ he)
        · exact .inr ⟨hv, .inl hk⟩
        · exact .inr ⟨hv, .inr ⟨hk, old, List.mem_cons_of_mem _ hold⟩⟩

/-- An entry after an insertion was there, or it has the new value under the new key or under the
spelling of it that was there. -/
lemma mem_insert {m : OrderedMap α β} {k : α} {v : β} {e : α × β}
    (he : e ∈ (m.insert k v).toList) :
    e ∈ m.toList ∨ e.2 = v ∧ (e.1 = k ∨ compare k e.1 = .eq ∧ ∃ old, (e.1, old) ∈ m.toList) :=
  mem_insertEntry he

/-- Where no two keys compare as equal, the entries are what is found. -/
lemma mem_iff_get? {m : OrderedMap α β} {P : α → Prop}
    (hP : ∀ a b, P a → P b → compare a b = .eq → a = b) (hm : ∀ e ∈ m.toList, P e.1) {k : α} {v : β}
    (hk : P k) : (k, v) ∈ m.toList ↔ m.get? k = some v := by
  refine ⟨get?_of_entry, fun h => ?_⟩
  obtain ⟨a, ha, hcompare⟩ := exists_mem_of_get?_eq_some h
  rw [hP k a hk (hm _ ha) hcompare]
  exact ha

/-- Maps in which the same is found are the same, as far as keys that compare as equal are equal. -/
theorem ext_of_get? {m n : OrderedMap α β} {P : α → Prop}
    (hP : ∀ a b, P a → P b → compare a b = .eq → a = b) (hm : ∀ e ∈ m.toList, P e.1)
    (hn : ∀ e ∈ n.toList, P e.1) (h : ∀ k, P k → m.get? k = n.get? k) : m = n := by
  have hirrefl : Std.Irrefl fun e f : α × β => compare e.1 f.1 = .lt := by
    refine ⟨fun e hlt => ?_⟩
    have hself : compare e.1 e.1 = .eq := Std.ReflCmp.compare_self
    rw [hself] at hlt
    cases hlt
  have hantisymm : Std.Antisymm fun e f : α × β => compare e.1 f.1 = .lt := by
    refine ⟨fun e f hlt hgt => ?_⟩
    rw [Std.OrientedCmp.gt_of_lt hlt] at hgt
    cases hgt
  refine ext (m.sorted.eq_of_mem_iff n.sorted fun ⟨k, v⟩ => ⟨fun hmem => ?_, fun hmem => ?_⟩)
  · have hk : P k := hm _ hmem
    rwa [mem_iff_get? hP hn hk, ← h k hk, ← mem_iff_get? hP hm hk]
  · have hk : P k := hn _ hmem
    rwa [mem_iff_get? hP hm hk, h k hk, ← mem_iff_get? hP hn hk]

omit [Std.TransOrd α] in
/-- A value that is changed together with all others is found with the key that is stored. -/
lemma get?_mapValues (m : OrderedMap α β) (f : α → β → γ) (k : α) :
    (m.mapValues f).get? k = (m.find? k).map fun e => f e.1 e.2 := by
  rw [get?, find?, find?, mapValues, List.find?_map, Option.map_map]
  rfl

/-- A value is found in a map made of pairs if all pairs with its key agree on it. -/
lemma get?_ofList {l : List (α × β)} {k : α} {v : β} (h : ∃ e ∈ l, compare k e.1 = .eq)
    (hv : ∀ e ∈ l, compare k e.1 = .eq → e.2 = v) : (ofList l).get? k = some v := by
  have key : ∀ m : OrderedMap α β,
      (m.get? k = some v ∨ ∃ e ∈ l, compare k e.1 = .eq) →
      (l.foldl (fun m e => m.insert e.1 e.2) m).get? k = some v := by
    clear h
    induction l with
    | nil =>
      rintro m (h | ⟨e, he, -⟩)
      · exact h
      · cases he
    | cons d rest ih =>
      intro m h
      refine ih (fun e he => hv e (List.mem_cons_of_mem _ he)) _ ?_
      by_cases hd : compare k d.1 = .eq
      · left
        rw [get?_insert, if_pos hd, hv d List.mem_cons_self hd]
      · rcases h with h | ⟨e, he, hk⟩
        · left
          rw [get?_insert, if_neg hd, h]
        · rcases List.mem_cons.1 he with rfl | he
          · exact absurd hk hd
          · exact .inr ⟨e, he, hk⟩
  exact key ∅ (.inr h)

/-! ## Entries in order -/

omit [Std.TransOrd α] in
lemma insertEntry_of_gt {k : α} {v : β} {l : List (α × β)} (h : ∀ e ∈ l, compare k e.1 = .gt) :
    insertEntry id k v l = l ++ [(k, v)] := by
  induction l with
  | nil => rfl
  | cons d rest ih =>
    unfold insertEntry
    rw [h d List.mem_cons_self]
    exact congrArg _ (ih fun e he => h e (List.mem_cons_of_mem _ he))

/-- Entries that come in order are put one after another. -/
lemma toList_foldl_insert {m : OrderedMap α β} {l : List (α × β)}
    (h : (m.toList ++ l).Pairwise fun e f => compare e.1 f.1 = .lt) :
    (l.foldl (fun m e => m.insert e.1 e.2) m).toList = m.toList ++ l := by
  induction l generalizing m with
  | nil => simp
  | cons d rest ih =>
    have hlast : (m.insert d.1 d.2).toList = m.toList ++ [d] := by
      refine insertEntry_of_gt fun e he => Std.OrientedCmp.gt_of_lt ?_
      exact (List.pairwise_append.1 h).2.2 e he d List.mem_cons_self
    have happend : (m.toList ++ [d]) ++ rest = m.toList ++ d :: rest := by simp
    rw [List.foldl_cons, ih (by rw [hlast, happend]; exact h), hlast, happend]

/-- A map is made again from its entries. -/
theorem ofList_toList (m : OrderedMap α β) : ofList m.toList = m :=
  ext (toList_foldl_insert (m := ∅) m.sorted)

end OrderedMap

namespace OrderedSet

variable {α : Type} [Ord α]

/-! ## Sets -/

lemma contains_iff {s : OrderedSet α} {a : α} :
    s.contains a ↔ ∃ b ∈ s.toList, compare a b = .eq := by
  simp [contains]

@[simp] lemma contains_empty (a : α) : (∅ : OrderedSet α).contains a = false := rfl

lemma contains_eq_isSome (s : OrderedSet α) (a : α) :
    s.contains a = (s.toMap.get? a).isSome := by
  rw [OrderedMap.get?, Option.isSome_map, OrderedMap.find?, List.isSome_find?, toMap, List.any_map]
  rfl

variable [Std.TransOrd α]

lemma contains_congr {s : OrderedSet α} {a b : α} (h : compare a b = .eq) :
    s.contains a = s.contains b := by
  rw [contains_eq_isSome, contains_eq_isSome, OrderedMap.get?_congr h]

lemma contains_of_mem {s : OrderedSet α} {a : α} (h : a ∈ s.toList) : s.contains a :=
  contains_iff.2 ⟨a, h, Std.ReflCmp.compare_self⟩

/-- Where no other member compares as equal to `a`, to be a member is to be listed. -/
lemma mem_iff_contains {s : OrderedSet α} {a : α}
    (h : ∀ b ∈ s.toList, compare a b = .eq → a = b) : a ∈ s.toList ↔ s.contains a := by
  constructor
  · exact contains_of_mem
  · intro hin
    obtain ⟨b, hb, hcompare⟩ := contains_iff.1 hin
    rw [h b hb hcompare]
    exact hb

lemma toMap_insert (s : OrderedSet α) (a : α) : (s.insert a).toMap = s.toMap.insert a () := by
  apply OrderedMap.ext
  show (OrderedMap.keys _).map (fun a => (a, ())) = _
  rw [OrderedMap.keys, List.map_map]
  exact List.map_id _

lemma contains_insert (s : OrderedSet α) (a b : α) :
    (s.insert a).contains b ↔ compare b a = .eq ∨ s.contains b := by
  rw [contains_eq_isSome, toMap_insert, OrderedMap.get?_insert, contains_eq_isSome]
  by_cases h : compare b a = .eq
  · simp [h]
  · simp [h]

lemma mem_insert {s : OrderedSet α} {a b : α} (h : b ∈ (s.insert a).toList) :
    b = a ∨ b ∈ s.toList := by
  obtain ⟨e, he, rfl⟩ := List.mem_map.1 h
  rcases OrderedMap.mem_insertEntry he with he | ⟨-, hk | ⟨-, old, hold⟩⟩
  · obtain ⟨c, hc, rfl⟩ := List.mem_map.1 he
    exact .inr hc
  · exact .inl hk
  · obtain ⟨c, hc, heq⟩ := List.mem_map.1 hold
    cases heq
    exact .inr hc

/-- Sets that contain the same are the same, as far as members that compare as equal are equal. -/
theorem ext_of_contains {s t : OrderedSet α} {P : α → Prop}
    (hP : ∀ a b, P a → P b → compare a b = .eq → a = b) (hs : ∀ a ∈ s.toList, P a)
    (ht : ∀ a ∈ t.toList, P a) (h : ∀ a, P a → (s.contains a ↔ t.contains a)) : s = t := by
  have hmap : s.toMap = t.toMap := by
    refine OrderedMap.ext_of_get? hP (fun e he => ?_) (fun e he => ?_) fun a ha => ?_
    · obtain ⟨a, ha, rfl⟩ := List.mem_map.1 he
      exact hs a ha
    · obtain ⟨a, ha, rfl⟩ := List.mem_map.1 he
      exact ht a ha
    · have heq := Bool.eq_iff_iff.2 (h a ha)
      rw [contains_eq_isSome, contains_eq_isSome] at heq
      have hunit : ∀ x : Option Unit, x = if x.isSome then some () else none := by
        intro x
        cases x with
        | none => rfl
        | some u => rfl
      rw [hunit (s.toMap.get? a), heq, ← hunit]
  apply ext
  have hkeys := congrArg OrderedMap.keys hmap
  simpa [OrderedMap.keys, toMap, Function.comp_def] using hkeys

/-- A set is made again from its members. -/
theorem insertAll_toList (s : OrderedSet α) : insertAll ∅ s.toList = s := by
  have hfold : ∀ (l : List α) (t : OrderedSet α), (t.insertAll l).toMap =
      (l.map fun a => (a, ())).foldl (fun m e => m.insert e.1 e.2) t.toMap := by
    intro l
    induction l with
    | nil => exact fun _ => rfl
    | cons a rest ih =>
      intro t
      rw [List.map_cons, List.foldl_cons, ← toMap_insert]
      exact ih (t.insert a)
  have hmap : (insertAll ∅ s.toList).toMap.toList = s.toMap.toList := by
    rw [hfold]
    exact OrderedMap.toList_foldl_insert (m := (∅ : OrderedSet α).toMap) s.toMap.sorted
  apply ext
  simpa [toMap, Function.comp_def] using congrArg (List.map Prod.fst) hmap

/-- A new member makes a set larger by one. -/
lemma size_insert {s : OrderedSet α} {a : α} (h : s.contains a = false) :
    (s.insert a).size = s.size + 1 := by
  have hnew : s.toMap.contains a = false := by
    rw [OrderedMap.contains_eq_isSome, ← contains_eq_isSome, h]
  calc
    (s.insert a).size = (s.toMap.insert a ()).size := List.length_map _
    _ = s.toMap.size + 1 := OrderedMap.size_insert hnew
    _ = s.size + 1 := by rw [OrderedMap.size, toMap, List.length_map, size]

lemma nodup_toList (s : OrderedSet α) : s.toList.Nodup := by
  refine s.sorted.imp fun {a b} hlt heq => ?_
  have hself : compare b b = .eq := Std.ReflCmp.compare_self
  rw [heq, hself] at hlt
  cases hlt

omit [Std.TransOrd α] in
lemma mem_replaceEntry {merge : α → α} {k : α} {l : List (α × Unit)} {e : α × Unit}
    (hm : ∀ b, merge b = k) (he : e ∈ OrderedMap.insertEntry merge k () l) :
    e.1 = k ∨ e ∈ l := by
  induction l with
  | nil =>
    rw [OrderedMap.insertEntry, List.mem_singleton] at he
    exact .inl (he ▸ rfl)
  | cons d rest ih =>
    unfold OrderedMap.insertEntry at he
    split at he
    · rcases List.mem_cons.1 he with rfl | he
      · exact .inl rfl
      · exact .inr he
    · rcases List.mem_cons.1 he with rfl | he
      · exact .inl (hm d.1)
      · exact .inr (List.mem_cons_of_mem _ he)
    · rcases List.mem_cons.1 he with rfl | he
      · exact .inr List.mem_cons_self
      · exact (ih he).imp_right (List.mem_cons_of_mem _)

/-- The members of a sorted list were in the list. -/
lemma mem_ofList {l : List α} {a : α} (h : a ∈ (ofList l).toList) : a ∈ l := by
  have key : ∀ s : OrderedSet α, a ∈ (l.foldl replace s).toList → a ∈ s.toList ∨ a ∈ l := by
    clear h
    induction l with
    | nil => exact fun s h => .inl h
    | cons b rest ih =>
      intro s h
      rcases ih _ h with h | h
      · obtain ⟨e, he, rfl⟩ := List.mem_map.1 h
        rcases mem_replaceEntry (fun _ => rfl) he with hb | he
        · exact .inr (hb ▸ List.mem_cons_self)
        · obtain ⟨c, hc, rfl⟩ := List.mem_map.1 he
          exact .inl hc
      · exact .inr (List.mem_cons_of_mem _ h)
  exact (key ∅ h).resolve_left (fun h => nomatch h)

lemma exists_replaceEntry {merge : α → α} {k a : α} {l : List (α × Unit)}
    (hm : ∀ b, merge b = k) (h : compare a k = .eq ∨ ∃ e ∈ l, compare a e.1 = .eq) :
    ∃ e ∈ OrderedMap.insertEntry merge k () l, compare a e.1 = .eq := by
  induction l with
  | nil =>
    rcases h with h | ⟨e, he, -⟩
    · exact ⟨(k, ()), List.mem_cons_self, h⟩
    · cases he
  | cons d rest ih =>
    unfold OrderedMap.insertEntry
    split
    · rcases h with h | ⟨e, he, hcompare⟩
      · exact ⟨(k, ()), List.mem_cons_self, h⟩
      · exact ⟨e, List.mem_cons_of_mem _ he, hcompare⟩
    · next heq =>
      rcases h with h | ⟨e, he, hcompare⟩
      · exact ⟨_, List.mem_cons_self, by rw [hm]; exact h⟩
      · rcases List.mem_cons.1 he with rfl | he
        · have hk : compare a k = .eq :=
            Std.TransCmp.eq_trans hcompare (Std.OrientedCmp.eq_symm heq)
          exact ⟨_, List.mem_cons_self, by rw [hm]; exact hk⟩
        · exact ⟨e, List.mem_cons_of_mem _ he, hcompare⟩
    · rcases h with h | ⟨e, he, hcompare⟩
      · obtain ⟨e, he, hcompare⟩ := ih (.inl h)
        exact ⟨e, List.mem_cons_of_mem _ he, hcompare⟩
      · rcases List.mem_cons.1 he with rfl | he
        · exact ⟨_, List.mem_cons_self, hcompare⟩
        · obtain ⟨e, he, hcompare⟩ := ih (.inr ⟨e, he, hcompare⟩)
          exact ⟨e, List.mem_cons_of_mem _ he, hcompare⟩

/-- Everything in a list is in the sorted list, if maybe in another spelling. -/
lemma contains_ofList {l : List α} {a : α} (h : a ∈ l) : (ofList l).contains a := by
  have key : ∀ s : OrderedSet α, (s.contains a ∨ a ∈ l) → (l.foldl replace s).contains a := by
    clear h
    induction l with
    | nil => exact fun s h => h.resolve_right (fun h => nomatch h)
    | cons b rest ih =>
      intro s h
      refine ih _ ?_
      rw [List.mem_cons, ← or_assoc] at h
      refine h.imp_left fun h => ?_
      have hentry : compare a b = .eq ∨ ∃ e ∈ s.toMap.toList, compare a e.1 = .eq := by
        rcases h with h | rfl
        · obtain ⟨c, hc, hcompare⟩ := contains_iff.1 h
          exact .inr ⟨(c, ()), List.mem_map_of_mem hc, hcompare⟩
        · exact .inl Std.ReflCmp.compare_self
      obtain ⟨e, he, hcompare⟩ := exists_replaceEntry (fun _ => rfl) hentry
      exact contains_iff.2 ⟨e.1, List.mem_map_of_mem he, hcompare⟩
  exact key ∅ (.inr h)

end OrderedSet

end IncludeDeps
