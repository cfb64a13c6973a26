/-!
# Ordered maps

A finite map kept as the list of its entries in strictly increasing key order.  Keys are
compared, never tested for equality: two keys that compare as equal name one entry, although
they may still be told apart (two spellings of one path, say).  What an insertion does with the
spelling already present is therefore part of the interface.

* `OrderedMap.insert` keeps the key that is there and replaces the value;
* `OrderedMap.replace` replaces both;
* `OrderedMap.get?` finds the value under any key that compares as equal.

Two maps with the same entries are equal (`OrderedMap.ext`), because the order of the entries
leaves no freedom in the representation.
-/

namespace IncludeDeps

/-- A finite map from `α` to `β`, its entries in strictly increasing order of their keys. -/
structure OrderedMap (α β : Type) [Ord α] where
  /-- The entries, by increasing key. -/
  toList : List (α × β)
  /-- No two keys compare as equal, and the entries are in order. -/
  sorted : toList.Pairwise fun e f => compare e.1 f.1 = .lt

namespace OrderedMap

variable {α β γ : Type} [Ord α]

/-- A map is determined by its entries. -/
@[ext]
theorem ext {m n : OrderedMap α β} (h : m.toList = n.toList) : m = n := by
  cases m; cases n; cases h; rfl

instance [DecidableEq α] [DecidableEq β] : DecidableEq (OrderedMap α β) := fun m n =>
  decidable_of_iff (m.toList = n.toList) ⟨ext, fun h => h ▸ rfl⟩

/-! ## Reading -/

/-- The map without entries. -/
def empty : OrderedMap α β := ⟨[], .nil⟩

instance : EmptyCollection (OrderedMap α β) := ⟨empty⟩

instance : Inhabited (OrderedMap α β) := ⟨empty⟩

/-- The keys in increasing order. -/
def keys (m : OrderedMap α β) : List α := m.toList.map Prod.fst

/-- The values in the order of their keys. -/
def values (m : OrderedMap α β) : List β := m.toList.map Prod.snd

/-- The number of entries. -/
def size (m : OrderedMap α β) : Nat := m.toList.length

/-- Whether there is no entry. -/
def isEmpty (m : OrderedMap α β) : Bool := m.toList.isEmpty

/-- The entry whose key compares as equal to `k`, with the key as it is stored. -/
def find? (m : OrderedMap α β) (k : α) : Option (α × β) :=
  m.toList.find? fun e => compare k e.1 == .eq

/-- The value under `k`. -/
def get? (m : OrderedMap α β) (k : α) : Option β := (m.find? k).map Prod.snd

/-- Whether there is an entry under `k`. -/
def contains (m : OrderedMap α β) (k : α) : Bool := (m.find? k).isSome

/-! ## Changing -/

/-- Puts `k` and `v` at their place in a sorted list of entries.  An entry under an equal key
turns into `merge k old`. -/
def insertEntry (merge : α → α) (k : α) (v : β) : List (α × β) → List (α × β)
  | [] => [(k, v)]
  | e :: rest =>
    match compare k e.1 with
    | .lt => (k, v) :: e :: rest
    | .eq => (merge e.1, v) :: rest
    | .gt => e :: insertEntry merge k v rest

section Sorted

variable [Std.TransOrd α]

/-- Every entry of a list after an insertion has the new key, or a key that was there. -/
theorem compare_insertEntry {merge : α → α} {k a : α} {v : β} {l : List (α × β)}
    (hm : ∀ b, compare k b = .eq → compare (merge b) b = .eq)
    (hk : compare a k = .lt) (hl : ∀ e ∈ l, compare a e.1 = .lt) :
    ∀ e ∈ insertEntry merge k v l, compare a e.1 = .lt := by
  induction l with
  | nil =>
    intro e he
    simp only [insertEntry, List.mem_singleton] at he
    exact he ▸ hk
  | cons d rest ih =>
    intro e he
    have hd := hl d (by simp)
    have hrest := ih fun e he => hl e (by simp [he])
    unfold insertEntry at he
    split at he
    · rcases List.mem_cons.1 he with rfl | he
      · exact hk
      · exact hl e he
    · next heq =>
      rcases List.mem_cons.1 he with rfl | he
      · exact Std.TransCmp.lt_of_lt_of_eq hd (Std.OrientedCmp.eq_symm (hm d.1 heq))
      · exact hl e (by simp [he])
    · rcases List.mem_cons.1 he with rfl | he
      · exact hd
      · exact hrest e he

/-- An insertion keeps the entries sorted. -/
theorem sorted_insertEntry {merge : α → α} {k : α} {v : β} {l : List (α × β)}
    (hm : ∀ b, compare k b = .eq → compare (merge b) b = .eq)
    (hl : l.Pairwise fun e f => compare e.1 f.1 = .lt) :
    (insertEntry merge k v l).Pairwise fun e f => compare e.1 f.1 = .lt := by
  induction l with
  | nil => simp [insertEntry]
  | cons d rest ih =>
    rw [List.pairwise_cons] at hl
    obtain ⟨hd, hrest⟩ := hl
    unfold insertEntry
    split
    · next hlt =>
      refine List.pairwise_cons.2 ⟨fun e he => ?_, List.pairwise_cons.2 ⟨hd, hrest⟩⟩
      rcases List.mem_cons.1 he with rfl | he
      · exact hlt
      · exact Std.TransCmp.lt_trans hlt (hd e he)
    · next heq =>
      exact List.pairwise_cons.2
        ⟨fun e he => Std.TransCmp.lt_of_eq_of_lt (hm d.1 heq) (hd e he), hrest⟩
    · next hgt =>
      exact List.pairwise_cons.2
        ⟨compare_insertEntry hm (Std.OrientedCmp.lt_of_gt hgt) hd, ih hrest⟩

/-- Sets the value under `k`.  Of a key that is there and the new one, the old spelling stays. -/
def insert (m : OrderedMap α β) (k : α) (v : β) : OrderedMap α β :=
  ⟨insertEntry id k v m.toList, sorted_insertEntry (fun _ _ => Std.ReflCmp.compare_self) m.sorted⟩

/-- Sets the value under `k`, and the spelling of the key to `k`. -/
def replace (m : OrderedMap α β) (k : α) (v : β) : OrderedMap α β :=
  ⟨insertEntry (fun _ => k) k v m.toList, sorted_insertEntry (fun _ h => h) m.sorted⟩

/-- The map made by inserting the pairs one after the other: of equal keys the first spelling
and the last value stay. -/
def ofList (l : List (α × β)) : OrderedMap α β := l.foldl (fun m e => m.insert e.1 e.2) empty

end Sorted

/-! ## Membership -/

section Membership

/-- An entry that is found is one of the entries, under a key that compares as equal. -/
theorem exists_mem_of_get?_eq_some {m : OrderedMap α β} {k : α} {v : β} (h : m.get? k = some v) :
    ∃ a, (a, v) ∈ m.toList ∧ compare k a = .eq := by
  obtain ⟨e, he, rfl⟩ := Option.map_eq_some_iff.1 h
  exact ⟨e.1, List.mem_of_find?_eq_some he, by simpa using List.find?_some he⟩

variable [Std.LawfulEqOrd α]

/-- Where keys that compare as equal are equal, the entry that is found is the one under the key. -/
theorem mem_of_get?_eq_some {m : OrderedMap α β} {k : α} {v : β} (h : m.get? k = some v) :
    (k, v) ∈ m.toList := by
  obtain ⟨a, ha, hk⟩ := exists_mem_of_get?_eq_some h
  exact Std.LawfulEqCmp.eq_of_compare hk ▸ ha

/-- There the new entry is under the new key. -/
theorem eq_or_mem_of_mem_insertEntry {k : α} {v : β} {l : List (α × β)} {e : α × β}
    (he : e ∈ insertEntry id k v l) : e = (k, v) ∨ e ∈ l := by
  induction l with
  | nil => simpa [insertEntry] using he
  | cons d rest ih =>
    unfold insertEntry at he
    split at he
    · rcases List.mem_cons.1 he with rfl | he
      · exact .inl rfl
      · exact .inr he
    · next heq =>
      rcases List.mem_cons.1 he with rfl | he
      · exact .inl (by rw [Std.LawfulEqCmp.eq_of_compare heq]; rfl)
      · exact .inr (List.mem_cons_of_mem _ he)
    · rcases List.mem_cons.1 he with rfl | he
      · exact .inr List.mem_cons_self
      · exact (ih he).imp_right (List.mem_cons_of_mem _)

/-- There an insertion leaves the entries under other keys alone. -/
theorem mem_insertEntry_of_ne {k : α} {v : β} {l : List (α × β)} {e : α × β} (he : e ∈ l)
    (hk : e.1 ≠ k) : e ∈ insertEntry id k v l := by
  induction l with
  | nil => cases he
  | cons d rest ih =>
    unfold insertEntry
    split
    · exact List.mem_cons_of_mem _ he
    · next heq =>
      rcases List.mem_cons.1 he with rfl | he
      · exact absurd (Std.LawfulEqCmp.eq_of_compare heq).symm hk
      · exact List.mem_cons_of_mem _ he
    · rcases List.mem_cons.1 he with rfl | he
      · exact List.mem_cons_self
      · exact List.mem_cons_of_mem _ (ih he)

/-- Every entry is found under its key. -/
theorem get?_eq_some_of_mem {m : OrderedMap α β} {k : α} {v : β} (h : (k, v) ∈ m.toList) :
    m.get? k = some v := by
  have key : ∀ l : List (α × β), (l.Pairwise fun e f => compare e.1 f.1 = .lt) → (k, v) ∈ l →
      l.find? (fun e => compare k e.1 == .eq) = some (k, v) := by
    intro l hl hmem
    induction l with
    | nil => cases hmem
    | cons d rest ih =>
      rw [List.pairwise_cons] at hl
      rcases List.mem_cons.1 hmem with rfl | hmem
      · simp [List.find?, Std.ReflCmp.compare_self]
      · have hlt := hl.1 _ hmem
        have hne : (compare k d.1 == .eq) = false := by
          have : compare k d.1 ≠ .eq := fun heq => by
            have hself : compare d.1 d.1 = .eq := Std.ReflCmp.compare_self
            rw [Std.LawfulEqCmp.eq_of_compare heq, hself] at hlt
            cases hlt
          simpa using this
        rw [List.find?_cons, hne]
        exact ih hl.2 hmem
  simp [get?, find?, key m.toList m.sorted h]

end Membership

/-! ## Selecting -/

/-- Keeps the entries that satisfy `p`. -/
def filter (p : α → β → Bool) (m : OrderedMap α β) : OrderedMap α β :=
  ⟨m.toList.filter fun e => p e.1 e.2, m.sorted.filter _⟩

/-- Applies `f` to every key and its value. -/
def mapValues (f : α → β → γ) (m : OrderedMap α β) : OrderedMap α γ :=
  ⟨m.toList.map fun e => (e.1, f e.1 e.2), List.pairwise_map.2 m.sorted⟩

end OrderedMap

end IncludeDeps
