import IncludeDeps.Proofs.Source.Comment
import IncludeDeps.Proofs.Source.LogicalLine
import IncludeDeps.Source.Reader

/-!
# Reading one text after another

A text is read line by line, and what is read of a line depends on the lines before it only through
its number and an open block comment.  So a text that leaves nothing open (`Source.IsClosed`) can be
followed by another one: both are read as they are by themselves, but the line numbers of the second
go on after the lines of the first (`Source.read_append`).

A line number has 32 bits and stays at the greatest one when there are more lines than that.
`Include.later` moves it in the same way, and below that bound it adds.
-/

namespace IncludeDeps

/-- An include of a text that is put after `k` lines. -/
def Include.later (k : Nat) (i : Include) : Include :=
  { i with line := i.line.map fun n => UInt32.ofNatClamp (n.toNat + k) }

namespace Directives

/-- What was found on the lines of a text, by its kind. -/
def ofFound (found : List (Include ⊕ MacroDefinition)) : Directives :=
  ⟨found.filterMap Sum.getLeft?, found.filterMap Sum.getRight?⟩

/-- The directives of a text that is put after `k` lines. -/
def later (k : Nat) (d : Directives) : Directives :=
  { d with includes := d.includes.map (.later k) }

/-- The directives of one text, then those of another one. -/
def append (d e : Directives) : Directives := ⟨d.includes ++ e.includes, d.macros ++ e.macros⟩

end Directives

namespace Source

open Text (chop)

variable {isOpen : Bool} {n k : Nat} {code a b : List Char} {ls ms : List LogicalLine}
  {x : Include ⊕ MacroDefinition} {i : Include} {pending : Option LogicalLine}

/-! ## Line numbers -/

lemma toNat_ofNatClamp (n : Nat) : (UInt32.ofNatClamp n).toNat = min n (UInt32.size - 1) := by
  by_cases h : n < UInt32.size
  · rw [UInt32.toNat_ofNatClamp_of_lt h]
    omega
  · rw [UInt32.toNat_ofNatClamp_of_le (Nat.le_of_not_lt h)]
    omega

lemma ofNatClamp_add (n k : Nat) :
    UInt32.ofNatClamp ((UInt32.ofNatClamp n).toNat + k) = UInt32.ofNatClamp (n + k) := by
  apply UInt32.toNat.inj
  rw [toNat_ofNatClamp, toNat_ofNatClamp, toNat_ofNatClamp]
  omega

/-- What a line says, put after `k` lines. -/
def moved (k : Nat) : Include ⊕ MacroDefinition → Include ⊕ MacroDefinition :=
  Sum.map (.later k) id

/-- What a line says, put on the line with the given number. -/
def numbered (n : Nat) : Include ⊕ MacroDefinition → Include ⊕ MacroDefinition :=
  Sum.map (fun i => { i with line := some (UInt32.ofNatClamp n) }) id

/-- Of a line, the number shows only as the line number of an include. -/
lemma readLine?_eq (n : Nat) (code : List Char) :
    readLine? n code = (readLine? 0 code).map (numbered n) := by
  unfold readLine?
  cases keyword? code with
  | none => rfl
  | some found =>
    obtain ⟨keyword, body⟩ := found
    cases keyword with
    | defineMacro =>
      show (definition? body).map .inr = ((definition? body).map .inr).map (numbered n)
      cases definition? body <;> rfl
    | includeFile => cases hbody : includeTarget? body <;> simp [hbody, numbered]
    | importFile => cases hbody : includeTarget? body <;> simp [hbody, numbered]

lemma readLine?_later : readLine? (n + k) code = (readLine? n code).map (moved k) := by
  have hnumbered : numbered (n + k) = moved k ∘ numbered n := by
    funext x
    cases x with
    | inl i => simp [numbered, moved, Include.later, ofNatClamp_add]
    | inr m => rfl
  rw [readLine?_eq (n + k), readLine?_eq n, Option.map_map, hnumbered]

lemma line_of_readLine? (h : readLine? n code = some (.inl i)) :
    i.line = some (UInt32.ofNatClamp n) := by
  rw [readLine?_eq] at h
  obtain ⟨x, -, hx⟩ := Option.map_eq_some_iff.1 h
  cases x with
  | inl j =>
    cases hx
    rfl
  | inr m => cases hx

lemma ofFound_append (found more : List (Include ⊕ MacroDefinition)) :
    Directives.ofFound (found ++ more) = (Directives.ofFound found).append (.ofFound more) := by
  simp [Directives.ofFound, Directives.append]

lemma ofFound_moved (found : List (Include ⊕ MacroDefinition)) :
    Directives.ofFound (found.map (moved k)) = (Directives.ofFound found).later k := by
  have hleft : ∀ x, (moved k x).getLeft? = x.getLeft?.map (Include.later k) := by
    rintro (i | m) <;> rfl
  have hright : ∀ x, (moved k x).getRight? = x.getRight? := by
    rintro (i | m) <;> rfl
  simp [Directives.ofFound, Directives.later, List.map_filterMap, hleft, hright]

/-! ## Lines that are read -/

/-- Whether a block comment is open after some lines. -/
def isOpenAfter (isOpen : Bool) (ls : List LogicalLine) : Bool :=
  ((stripLines isOpen (ls.map LogicalLine.text)).getLast?.map Prod.snd).getD isOpen

lemma isOpenAfter_cons (isOpen : Bool) (l : LogicalLine) (ls : List LogicalLine) :
    isOpenAfter isOpen (l :: ls) = isOpenAfter (stripComments isOpen l.text).2 ls := by
  rw [isOpenAfter, List.map_cons, stripLines, List.getLast?_cons]
  cases hlast : (stripLines (stripComments isOpen l.text).2 (ls.map LogicalLine.text)).getLast? <;>
    simp [isOpenAfter, hlast]

theorem readLines_append :
    readLines isOpen (ls ++ ms) = readLines isOpen ls ++ readLines (isOpenAfter isOpen ls) ms := by
  induction ls generalizing isOpen with
  | nil => rfl
  | cons l rest ih =>
    show (readLine? l.number (stripComments isOpen l.text).1).toList ++ readLines _ (rest ++ ms) = _
    rw [ih, isOpenAfter_cons, ← List.append_assoc]
    rfl

theorem readLines_later :
    readLines isOpen (ls.map (.later k)) = (readLines isOpen ls).map (moved k) := by
  induction ls generalizing isOpen with
  | nil => rfl
  | cons l rest ih =>
    show (readLine? (l.number + k) (stripComments isOpen l.text).1).toList ++
      readLines _ (rest.map (.later k)) = _
    rw [ih, readLine?_later, readLines, List.map_append, Option.toList_map]
    rfl

lemma exists_of_mem_readLines (h : x ∈ readLines isOpen ls) :
    ∃ l ∈ ls, ∃ code, readLine? l.number code = some x := by
  induction ls generalizing isOpen with
  | nil => cases h
  | cons l rest ih =>
    rcases List.mem_append.1 h with h | h
    · exact ⟨l, List.mem_cons_self, _, Option.mem_toList.1 h⟩
    · obtain ⟨l', hl', hread⟩ := ih h
      exact ⟨l', List.mem_cons_of_mem _ hl', hread⟩

/-! ## Texts that are read -/

/-- A text that leaves nothing open: no line, no run of joined lines, no block comment. -/
structure IsClosed (text : List Char) : Prop where
  line : text = [] ∨ text.getLast? = some '\n'
  run : ∀ l ∈ (Text.lines text).getLast?, (chop '\r' l).getLast? ≠ some '\\'
  comment : isOpenAfter false (logicalLines text) = false

lemma number_lt_of_mem_joinLines {rest : List (List Char)} {l : LogicalLine}
    (hpending : ∀ p ∈ pending, p.number < n) (h : l ∈ joinLines pending n rest) :
    l.number < n + rest.length := by
  -- a line has the number of the first physical line that it is joined from
  induction rest generalizing pending n with
  | nil =>
    cases pending with
    | none => cases h
    | some p =>
      obtain rfl := List.mem_singleton.1 h
      exact hpending l rfl
  | cons physical rest ih =>
    have hrun : (pending.getD ⟨n, []⟩).number < n + 1 := by
      cases pending with
      | none => exact Nat.lt_succ_self n
      | some p => exact Nat.lt_succ_of_lt (hpending p rfl)
    rw [List.length_cons]
    rcases continued_or_ended (chop '\r' physical) with ⟨head, hhead⟩ | hended
    · rw [joinLines_continued hhead] at h
      have hlt := ih (by rintro p ⟨⟩; exact hrun) h
      omega
    · rw [joinLines_ended hended, List.mem_cons] at h
      rcases h with rfl | h
      · have hlt : (pending.getD ⟨n, []⟩).number < n + 1 := hrun
        show (pending.getD ⟨n, []⟩).number < _
        omega
      · have hlt := ih (by nofun) h
        omega

/-- An include has the number of one of the lines of the text. -/
lemma exists_line_of_mem_includes (h : i ∈ (read b).includes) :
    ∃ n ≤ (Text.lines b).length, i.line = some (UInt32.ofNatClamp n) := by
  obtain ⟨x, hx, hi⟩ := List.mem_filterMap.1 h
  obtain ⟨l, hl, code, hread⟩ := exists_of_mem_readLines hx
  cases x with
  | inl j =>
    cases hi
    have hlt := number_lt_of_mem_joinLines (by nofun) hl
    exact ⟨l.number, by omega, line_of_readLine? hread⟩
  | inr m => cases hi

/-- After a text that leaves nothing open, another one is read as it is by itself, on later lines.
Unless there are more lines than a line number can count, each number grows by the number of lines
of the first text. -/
theorem read_append (ha : IsClosed a) (b : List Char) :
    read (a ++ b) = (read a).append ((read b).later (Text.lines a).length) ∧
      ((Text.lines (a ++ b)).length < UInt32.size → ∀ i ∈ (read b).includes,
        (i.later (Text.lines a).length).line.map UInt32.toNat =
          i.line.map fun n => n.toNat + (Text.lines a).length) := by
  constructor
  · show Directives.ofFound (readLines false (logicalLines (a ++ b))) = _
    rw [logicalLines_append ha.line ha.run, readLines_append, ha.comment, readLines_later,
      ofFound_append, ofFound_moved]
    rfl
  · intro hbound i hi
    obtain ⟨n, hn, hline⟩ := exists_line_of_mem_includes hi
    rw [Text.lines_append ha.line, List.length_append] at hbound
    simp only [Include.later, hline, Option.map_some, Option.some.injEq]
    rw [ofNatClamp_add, toNat_ofNatClamp, toNat_ofNatClamp]
    omega

/-- A text with joined lines, both kinds of line breaks and a comment over two lines. -/
def joined : List Char := "#define A \\\r\n 1\r\n/* one\n*/ #include <a.h>\n".toList

/-- A text that comes after it. -/
def added : List Char := "#include \\\n \"b.h\"\n#define B".toList

/-- The include of the text that comes after. -/
def addedInclude : Include := ⟨.quoted, "b.h", false, some 1⟩

theorem read_append_joined : IsClosed joined ∧ (Text.lines (joined ++ added)).length < UInt32.size ∧
    addedInclude ∈ (read added).includes ∧
    read (joined ++ added) = ⟨[⟨.system, "a.h", false, some 4⟩, addedInclude.later 4],
      [⟨"A", "1"⟩, ⟨"B", ""⟩]⟩ ∧
    (addedInclude.later 4).line.map UInt32.toNat = some (1 + 4) := by
  have hclosed : IsClosed joined := ⟨by decide +kernel, by decide +kernel, by decide +kernel⟩
  have hbound : (Text.lines (joined ++ added)).length < UInt32.size := by decide +kernel
  have hmem : addedInclude ∈ (read added).includes := by decide +kernel
  obtain ⟨hread, hnumbers⟩ := read_append hclosed added
  refine ⟨hclosed, hbound, hmem, ?_, hnumbers hbound addedInclude hmem⟩
  rw [hread]
  decide +kernel

end Source

end IncludeDeps
