import IncludeDeps.OrderedMap

/-!
# Ordered sets

A finite set kept as the list of its members in strictly increasing order.  As with
`OrderedMap`, members are compared and never tested for equality, so of two members that
compare as equal one has to give way.

* `OrderedSet.insert` keeps the member that is there;
* `OrderedSet.ofList` is the sorted form of a list, in which the last of equal members stays.
-/

namespace IncludeDeps

/-- A finite set of `α`, its members in strictly increasing order. -/
structure OrderedSet (α : Type) [Ord α] where
  /-- The members, in increasing order. -/
  toList : List α
  /-- No two members compare as equal, and they are in order. -/
  sorted : toList.Pairwise fun a b => compare a b = .lt

namespace OrderedSet

variable {α : Type} [Ord α]

/-- A set is determined by its members. -/
@[ext]
theorem ext {s t : OrderedSet α} (h : s.toList = t.toList) : s = t := by
  cases s; cases t; cases h; rfl

instance [DecidableEq α] : DecidableEq (OrderedSet α) := fun s t =>
  decidable_of_iff (s.toList = t.toList) ⟨ext, fun h => h ▸ rfl⟩

/-- The set without members. -/
def empty : OrderedSet α := ⟨[], .nil⟩

instance : EmptyCollection (OrderedSet α) := ⟨empty⟩

instance : Inhabited (OrderedSet α) := ⟨empty⟩

/-- The keys of a map. -/
def ofKeys {β : Type} (m : OrderedMap α β) : OrderedSet α := ⟨m.keys, List.pairwise_map.2 m.sorted⟩

/-- The map that has the members of the set as keys. -/
def toMap (s : OrderedSet α) : OrderedMap α Unit :=
  ⟨s.toList.map fun a => (a, ()), List.pairwise_map.2 s.sorted⟩

/-- The number of members. -/
def size (s : OrderedSet α) : Nat := s.toList.length

/-- Whether there is no member. -/
def isEmpty (s : OrderedSet α) : Bool := s.toList.isEmpty

/-- Whether some member compares as equal to `a`. -/
def contains (s : OrderedSet α) (a : α) : Bool := s.toList.any fun b => compare a b == .eq

/-- Keeps the members that satisfy `p`. -/
def filter (p : α → Bool) (s : OrderedSet α) : OrderedSet α :=
  ⟨s.toList.filter p, s.sorted.filter _⟩

variable [Std.TransOrd α]

/-- Adds `a`, unless a member compares as equal to it. -/
def insert (s : OrderedSet α) (a : α) : OrderedSet α := ofKeys (s.toMap.insert a ())

/-- Adds `a`, in the place of a member that compares as equal to it. -/
def replace (s : OrderedSet α) (a : α) : OrderedSet α := ofKeys (s.toMap.replace a ())

/-- The members of a list, added one after the other; the first of equal ones stays. -/
def insertAll (s : OrderedSet α) (l : List α) : OrderedSet α := l.foldl insert s

/-- The members of a list in order; the last of equal ones stays. -/
def ofList (l : List α) : OrderedSet α := l.foldl replace empty

end OrderedSet

end IncludeDeps
