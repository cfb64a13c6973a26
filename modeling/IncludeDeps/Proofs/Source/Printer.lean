import IncludeDeps.MacroTable.Expansion
import IncludeDeps.Proofs.Source.Reader

/-!
# Directives are read as they are written

A directive that is written on a line of its own is read as what it is (`Source.read_print`),
whatever its target or value holds of quotes, backslashes and other characters, as long as nothing
in it comes to an end too early (`Statement.IsLegal`).

* `Source.scanLine_body` and `Source.stripComments_line`: no comment is taken out of the line;
* `Source.newline_notMem_line` and `Source.exists_getLast?_line`: it is a logical line by itself;
* `Source.includeTarget?_body` and `Source.definition?_body`: what stands after the keyword is read.

A path in quotes may have comment markers in it, as it is a literal for the scan, but one in
brackets may not: the scan does not know it from code.
-/

namespace IncludeDeps

namespace Text

variable {c : Char} {cs : List Char}

lemma trim_cons_of_isBlank (hc : isBlank c) : trim (c :: cs) = trim cs := by
  rw [trim, trimStart, List.dropWhile_cons_of_pos hc]
  rfl

lemma trim_of_ends {d : Char} (hc : isBlank c = false) (hd : isBlank d = false) :
    trim (c :: cs ++ [d]) = c :: cs ++ [d] := by
  have hstart : trimStart (c :: cs ++ [d]) = c :: cs ++ [d] := by
    simp [trimStart, hc]
  rw [trim, hstart, trimEnd]
  simp [hd]

lemma isBlank_of_mem_getLast? (h : trim cs = cs) (hc : c ∈ cs.getLast?) : isBlank c = false := by
  rw [← h, trim, trimEnd, List.getLast?_reverse] at hc
  have hhead := List.head?_dropWhile_not isBlank (trimStart cs).reverse
  rw [Option.mem_def.1 hc] at hhead
  simpa using hhead

end Text

namespace Source

variable {text : List Char} {word number : Bool}

/-! ## Statements -/

/-- A directive as it stands on a line of its own. -/
inductive Statement where
  /-- An include or an import. -/
  | dependency (isImport : Bool) (kind : IncludeKind) (target : String)
  /-- The definition of a macro. -/
  | definition (name value : String)
deriving DecidableEq

/-- A text that can be the value of a macro, or the expression that an include is given by. -/
structure IsValue (text : List Char) : Prop where
  trim : Text.trim text = text
  backslash : text.getLast? ≠ some '\\'
  newline : '\n' ∉ text
  unmarked : IsUnmarked text

instance : Decidable (IsValue text) :=
  decidable_of_iff
    (Text.trim text = text ∧ text.getLast? ≠ some '\\' ∧ '\n' ∉ text ∧ IsUnmarked text)
    ⟨fun h => ⟨h.1, h.2.1, h.2.2.1, h.2.2.2⟩,
      fun h => ⟨h.trim, h.backslash, h.newline, h.unmarked⟩⟩

namespace Statement

/-- How a target is written. -/
def targetText : IncludeKind → String → List Char
  | .quoted, target => '"' :: target.toList ++ ['"']
  | .system, target => '<' :: target.toList ++ ['>']
  | .computed, target => target.toList

/-- The keyword of a statement. -/
def keyword : Statement → Keyword
  | dependency isImport _ _ => if isImport then .importFile else .includeFile
  | definition _ _ => .defineMacro

/-- What stands after the keyword. -/
def body : Statement → List Char
  | dependency _ kind target => targetText kind target
  | definition name value => name.toList ++ ' ' :: value.toList

/-- The line on which a statement stands. -/
def line (s : Statement) : List Char := '#' :: s.keyword.chars ++ ' ' :: s.body

/-- Statements, each on a line of its own. -/
def print (l : List Statement) : List Char := l.flatMap fun s => s.line ++ ['\n']

/-- A statement that can be told from its line: the target or value holds nothing that ends it
before its end, no line break, and where it is not in quotes no comment marker. -/
def IsLegal : Statement → Prop
  | dependency _ .quoted target =>
    target ≠ "" ∧ '"' ∉ target.toList ∧ '\n' ∉ target.toList
  | dependency _ .system target =>
    target ≠ "" ∧ '>' ∉ target.toList ∧ '\n' ∉ target.toList ∧ IsUnmarked target.toList
  | dependency _ .computed target =>
    target ≠ "" ∧ target.toList.head? ≠ some '"' ∧ target.toList.head? ≠ some '<' ∧
      IsValue target.toList
  | definition name value => isIdentifier name ∧ IsValue value.toList

instance : (s : Statement) → Decidable s.IsLegal
  | dependency _ .quoted _ => inferInstanceAs (Decidable (_ ∧ _ ∧ _))
  | dependency _ .system _ => inferInstanceAs (Decidable (_ ∧ _ ∧ _ ∧ _))
  | dependency _ .computed _ => inferInstanceAs (Decidable (_ ∧ _ ∧ _ ∧ _))
  | definition _ _ => inferInstanceAs (Decidable (_ ∧ _))

/-- The include on line `n`. -/
def include? (n : Nat) : Statement → Option Include
  | dependency isImport kind target => some ⟨kind, target, isImport, some (UInt32.ofNatClamp n)⟩
  | definition _ _ => none

/-- The definition that a statement is. -/
def macro? : Statement → Option MacroDefinition
  | dependency _ _ _ => none
  | definition name value => some ⟨name, value⟩

end Statement

/-! ## Reading a statement -/

variable {s : Statement} {l : List Statement} {name value target : String} {n : Nat}

lemma keyword?_line (k : Keyword) (body : List Char) :
    keyword? ('#' :: k.chars ++ ' ' :: body) = some (k, ' ' :: body) := by
  cases k <;> rfl

lemma upTo?_concat {close : Char} (hne : target ≠ "") (hclose : close ∉ target.toList) :
    upTo? close (target.toList ++ [close]) = some target := by
  have htake : (target.toList ++ [close]).takeWhile (· != close) = target.toList := by
    rw [List.takeWhile_append_of_pos fun c hc => by simpa using ne_of_mem_of_not_mem hc hclose]
    simp
  have hnil : target.toList ≠ [] := by simpa using hne
  rw [upTo?, if_pos (by simp), htake]
  split
  · next h => exact absurd h hnil
  · simp

/-- A legal target stands for itself. -/
lemma includeTarget?_body {isImport : Bool} {kind : IncludeKind}
    (h : (Statement.dependency isImport kind target).IsLegal) :
    includeTarget? (' ' :: Statement.targetText kind target) = some (kind, target) := by
  rw [includeTarget?, Text.trim_cons_of_isBlank (by decide)]
  cases kind with
  | quoted =>
    obtain ⟨hne, hquote, -⟩ := h
    rw [Statement.targetText, Text.trim_of_ends (by decide) (by decide)]
    show (upTo? '"' (target.toList ++ ['"'])).map _ = _
    rw [upTo?_concat hne hquote]
    rfl
  | system =>
    obtain ⟨hne, hbracket, -⟩ := h
    rw [Statement.targetText, Text.trim_of_ends (by decide) (by decide)]
    show (upTo? '>' (target.toList ++ ['>'])).map _ = _
    rw [upTo?_concat hne hbracket]
    rfl
  | computed =>
    obtain ⟨hne, hquote, hbracket, hvalue⟩ := h
    rw [Statement.targetText, hvalue.trim]
    have hnil : target.toList ≠ [] := by simpa using hne
    split
    · -- a legal expression starts with neither a quote nor a bracket, so it is not taken for a path
      next hcs => exact absurd hcs hnil
    · next hcs => simp [hcs] at hquote
    · next hcs => simp [hcs] at hbracket
    · simp

lemma toNat_of_isAlpha {c : Char} (h : c.isAlpha) : 0x41 ≤ c.toNat ∧ c.toNat ≤ 0x7a := by
  have hcase : c.isUpper ∨ c.isLower := Bool.or_eq_true_iff.1 h
  rcases hcase with hupper | hlower
  · obtain ⟨hlow, hhigh⟩ : 'A'.val ≤ c.val ∧ c.val ≤ 'Z'.val := of_decide_eq_true hupper
    exact ⟨hlow, Nat.le_trans hhigh (by decide)⟩
  · obtain ⟨hlow, hhigh⟩ : 'a'.val ≤ c.val ∧ c.val ≤ 'z'.val := by
      simpa using Bool.and_eq_true_iff.1 hlower
    exact ⟨Nat.le_trans (by decide) hlow, hhigh⟩

lemma isBlank_of_isNameStart {c : Char} (h : isNameStart c) : Text.isBlank c = false := by
  have hrange : 0x41 ≤ c.toNat ∧ c.toNat ≤ 0x7a := by
    rw [isNameStart, Bool.or_eq_true, beq_iff_eq] at h
    rcases h with h | rfl
    · exact toNat_of_isAlpha h
    · decide
  simp [Text.isBlank, Text.inRanges, Text.blankRanges]
  omega

/-- A legal definition is read as it is. -/
lemma definition?_body (h : (Statement.definition name value).IsLegal) :
    definition? (' ' :: (Statement.definition name value).body) = some ⟨name, value⟩ := by
  obtain ⟨hname, hvalue⟩ := h
  rw [isIdentifier] at hname
  split at hname
  · cases hname
  · next c rest hchars =>
    rw [Bool.and_eq_true, List.all_eq_true] at hname
    obtain ⟨hstart, hrest⟩ := hname
    have htrim : Text.trimStart (' ' :: (Statement.definition name value).body) =
        c :: (rest ++ ' ' :: value.toList) := by
      rw [Statement.body, hchars, Text.trimStart, List.dropWhile_cons_of_pos (by decide),
        List.cons_append, List.dropWhile_cons_of_neg (by simp [isBlank_of_isNameStart hstart])]
    have hblank : ¬ Text.isAsciiWord ' ' := by decide
    have hdrop :
        (rest ++ ' ' :: value.toList).dropWhile Text.isAsciiWord = ' ' :: value.toList := by
      rw [List.dropWhile_append_of_pos hrest, List.dropWhile_cons_of_neg hblank]
    have htake : (rest ++ ' ' :: value.toList).takeWhile Text.isAsciiWord = rest := by
      rw [List.takeWhile_append_of_pos hrest, List.takeWhile_cons_of_neg hblank, List.append_nil]
    have hname : String.ofList (c :: rest) = name := by rw [← hchars, String.ofList_toList]
    have hspace : Text.isBlank ' ' := by decide
    rw [definition?, htrim]
    simp only [hdrop, htake, hname, hstart, startsBlank, hspace, Bool.and_self, if_true,
      Text.trim_cons_of_isBlank hspace, hvalue.trim, String.ofList_toList]

/-! ## Reading a line -/

/-- What a statement says on line `n`. -/
def Statement.found (n : Nat) : Statement → Include ⊕ MacroDefinition
  | dependency isImport kind target => .inl ⟨kind, target, isImport, some (UInt32.ofNatClamp n)⟩
  | definition name value => .inr ⟨name, value⟩

lemma readLine?_line (h : s.IsLegal) (n : Nat) : readLine? n s.line = some (s.found n) := by
  rw [readLine?, Statement.line, keyword?_line]
  cases s with
  | dependency isImport kind target =>
    cases isImport <;>
      simp [Statement.keyword, Statement.body, includeTarget?_body h, Statement.found]
  | definition name value =>
    show (definition? _).map _ = _
    rw [definition?_body h]
    rfl

/-- What stands after the keyword is copied by a scan. -/
lemma scanLine_body (h : s.IsLegal) : scanLine (.code word number) s.body = (s.body, false) := by
  cases s with
  | dependency isImport kind target =>
    cases kind with
    | quoted =>
      obtain ⟨-, hquote, -⟩ := h
      have hnext : Scan.next word number '"' (target.toList ++ ['"']) = .literal '"' number := by
        simp [Scan.next]
      show scanLine _ ('"' :: (target.toList ++ ['"'])) = _
      rw [scanLine_code_cons_of_ne (by decide), hnext,
        scanLine_literal_of_notMem hquote]
      rfl
    | system =>
      obtain ⟨-, -, -, hunmarked⟩ := h
      have hbody : IsUnmarked (['<'] ++ (target.toList ++ ['>'])) :=
        (hunmarked.concat (by decide) (by decide)).append (by decide)
      exact scanLine_of_isUnmarked hbody rfl
    | computed => exact scanLine_of_isUnmarked h.2.2.2.unmarked rfl
  | definition name value =>
    have hname : '/' ∉ name.toList := notMem_of_isIdentifier (by decide) (by decide) h.1
    have hbody : IsUnmarked (name.toList ++ [' '] ++ value.toList) :=
      h.2.unmarked.append (by simp [hname])
    rw [List.append_assoc] at hbody
    exact scanLine_of_isUnmarked hbody rfl

lemma stripComments_line (h : s.IsLegal) : stripComments false s.line = (s.line, false) := by
  have hline : s.line = '#' :: s.keyword.chars ++ [' '] ++ s.body := by simp [Statement.line]
  obtain ⟨hslash, hstring, hcharacter⟩ : '/' ∉ '#' :: s.keyword.chars ++ [' '] ∧
      '"' ∉ '#' :: s.keyword.chars ++ [' '] ∧ '\'' ∉ '#' :: s.keyword.chars ++ [' '] := by
    cases s.keyword <;> decide
  obtain ⟨word, number, hscan⟩ : ∃ word number,
      scanLine (.code false false) ('#' :: s.keyword.chars ++ [' '] ++ s.body) =
        prepend ('#' :: s.keyword.chars ++ [' ']) (scanLine (.code word number) s.body) :=
    exists_scanLine_append hslash hstring hcharacter
  show scanLine (.code false false) s.line = _
  rw [hline, hscan, scanLine_body h]
  rfl

lemma newline_notMem_line (h : s.IsLegal) : '\n' ∉ s.line := by
  have hfront : '\n' ∉ '#' :: s.keyword.chars := by cases s.keyword <;> decide
  have hbody : '\n' ∉ s.body := by
    cases s with
    | dependency isImport kind target =>
      cases kind with
      | quoted => simp [Statement.body, Statement.targetText, h.2.2]
      | system => simp [Statement.body, Statement.targetText, h.2.2.1]
      | computed => exact h.2.2.2.newline
    | definition name value =>
      have hname : '\n' ∉ name.toList := notMem_of_isIdentifier (by decide) (by decide) h.1
      simp [Statement.body, h.2.newline, hname]
  simp [Statement.line, hbody] at hfront ⊢
  exact hfront

/-- After a blank a value ends neither in a carriage return nor in a backslash. -/
lemma IsValue.exists_getLast?_cons (h : IsValue text) :
    ∃ c, (' ' :: text).getLast? = some c ∧ c ≠ '\r' ∧ c ≠ '\\' := by
  rw [List.getLast?_cons]
  cases hlast : text.getLast? with
  | none => exact ⟨' ', rfl, by decide, by decide⟩
  | some c =>
    refine ⟨c, rfl, ?_, fun hc => h.backslash (hc ▸ hlast)⟩
    rintro rfl
    exact absurd (Text.isBlank_of_mem_getLast? h.trim hlast) (by decide)

/-- The line of a statement is neither cut nor continued at its end. -/
lemma exists_getLast?_line (h : s.IsLegal) :
    ∃ c, s.line.getLast? = some c ∧ c ≠ '\r' ∧ c ≠ '\\' := by
  have hbody : ∃ c, (' ' :: s.body).getLast? = some c ∧ c ≠ '\r' ∧ c ≠ '\\' := by
    cases s with
    | dependency isImport kind target =>
      cases kind with
      | quoted =>
        refine ⟨'"', ?_, by decide, by decide⟩
        rw [Statement.body, Statement.targetText, ← List.cons_append, List.getLast?_concat]
      | system =>
        refine ⟨'>', ?_, by decide, by decide⟩
        rw [Statement.body, Statement.targetText, ← List.cons_append, List.getLast?_concat]
      | computed => exact h.2.2.2.exists_getLast?_cons
    | definition name value =>
      obtain ⟨c, hc, hne⟩ := h.2.exists_getLast?_cons
      refine ⟨c, ?_, hne⟩
      rw [Statement.body, ← List.cons_append, List.getLast?_append, hc]
      rfl
  obtain ⟨c, hc, hne⟩ := hbody
  refine ⟨c, ?_, hne⟩
  rw [Statement.line, List.getLast?_append, hc]
  rfl

/-! ## Reading all lines -/

/-- Every statement is a logical line. -/
lemma joinLines_print (h : ∀ s ∈ l, s.IsLegal) (n : Nat) :
    joinLines none n (Text.lines (Statement.print l)) =
      (l.zipIdx n).map fun e => ⟨e.2, e.1.line⟩ := by
  induction l generalizing n with
  | nil => rfl
  | cons s l ih =>
    have hs := h s List.mem_cons_self
    obtain ⟨c, hlast, hreturn, hbackslash⟩ := exists_getLast?_line hs
    have hchop : Text.chop '\r' s.line = s.line := Text.chop_of_ne (by simpa [hlast] using hreturn)
    have hprint : Statement.print (s :: l) = s.line ++ '\n' :: Statement.print l := by
      simp [Statement.print]
    rw [hprint, Text.lines_append_break (newline_notMem_line hs), hchop,
      joinLines_ended (by rw [hchop, hlast]; simpa using hbackslash), hchop,
      ih fun s' hs' => h s' (List.mem_cons_of_mem _ hs')]
    rfl

lemma readLines_statements (h : ∀ s ∈ l, s.IsLegal) (n : Nat) :
    readLines false ((l.zipIdx n).map fun e => ⟨e.2, e.1.line⟩) =
      (l.zipIdx n).map fun e => e.1.found e.2 := by
  induction l generalizing n with
  | nil => rfl
  | cons s l ih =>
    have hs := h s List.mem_cons_self
    rw [List.zipIdx_cons, List.map_cons, readLines]
    simp only [stripComments_line hs]
    rw [readLine?_line hs, ih fun s' hs' => h s' (List.mem_cons_of_mem _ hs')]
    rfl

/-- Directives, each written on a line of its own, are read as they are, under the numbers of their
lines.  Targets and values may hold anything that does not end them before their end
(`Statement.IsLegal`). -/
theorem read_print (h : ∀ s ∈ l, s.IsLegal) :
    read (Statement.print l) =
      ⟨(l.zipIdx 1).filterMap fun e => e.1.include? e.2, l.filterMap Statement.macro?⟩ := by
  have hread : read (Statement.print l) = .ofFound ((l.zipIdx 1).map fun e => e.1.found e.2) := by
    rw [← readLines_statements h, ← joinLines_print h]
    rfl
  have hincludes : ∀ e : Statement × Nat, (e.1.found e.2).getLeft? = e.1.include? e.2 := by
    rintro ⟨s, n⟩
    cases s <;> rfl
  have hmacros : ∀ e : Statement × Nat, (e.1.found e.2).getRight? = e.1.macro? := by
    rintro ⟨s, n⟩
    cases s <;> rfl
  have hplaces : (l.zipIdx 1).filterMap (fun e => e.1.macro?) = l.filterMap Statement.macro? := by
    calc (l.zipIdx 1).filterMap (fun e => e.1.macro?)
        = ((l.zipIdx 1).map Prod.fst).filterMap Statement.macro? := by
          rw [List.filterMap_map]
          rfl
      _ = l.filterMap Statement.macro? := by rw [List.zipIdx_map_fst]
  rw [hread, Directives.ofFound, List.filterMap_map, List.filterMap_map]
  simp only [Function.comp_def, hincludes, hmacros, hplaces]

/-- Statements with markers, quotes and backslashes where they may stand. -/
def awkward : List Statement :=
  [.dependency false .quoted "di'r//x/*\\", .definition "A_1" "'\" 1'0 /", .definition "B" "",
    .dependency true .system "a\"b'\\", .dependency false .computed "#F(\"<x>\")"]

theorem read_print_awkward : (∀ s ∈ awkward, s.IsLegal) ∧
    read (Statement.print awkward) =
      ⟨[⟨.quoted, "di'r//x/*\\", false, some 1⟩, ⟨.system, "a\"b'\\", true, some 4⟩,
        ⟨.computed, "#F(\"<x>\")", false, some 5⟩], [⟨"A_1", "'\" 1'0 /"⟩, ⟨"B", ""⟩]⟩ := by
  have hlegal : ∀ s ∈ awkward, s.IsLegal := by decide +kernel
  refine ⟨hlegal, ?_⟩
  rw [read_print hlegal]
  decide +kernel

end Source

end IncludeDeps
