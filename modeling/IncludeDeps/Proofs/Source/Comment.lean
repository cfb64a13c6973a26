import IncludeDeps.Source.Comment
import Mathlib.Data.List.Induction
import Mathlib.Data.List.Infix
import Mathlib.Tactic.Lemma

/-!
# Scanning for comments

What one step of a scan does (`Source.scanLine_comment_cons`, `Source.scanLine_literal_cons`,
`Source.scanLine_code_cons` and the special cases beside them), and the texts that it leaves alone:

* `Source.scanLine_of_isUnmarked`: no comment starts in a text without comment markers;
* `Source.scanLine_literal_of_notMem`: a literal goes on up to its quote, whatever is in it.

`Source.stripLines` takes the comments out of one line after another.  Between lines a scan keeps
only whether a block comment is open: a literal ends with its line, closed or not.
-/

namespace IncludeDeps.Source

variable {scan : Scan} {word number : Bool} {quote c : Char} {rest front text : List Char}

/-- What a scan comes to with further text before it. -/
def prepend (front : List Char) (result : List Char × Bool) : List Char × Bool :=
  (front ++ result.1, result.2)

@[simp] lemma prepend_nil (result : List Char × Bool) : prepend [] result = result := rfl

@[simp] lemma prepend_prepend (front more : List Char) (result : List Char × Bool) :
    prepend front (prepend more result) = prepend (front ++ more) result := by
  simp [prepend]

/-! ## One step -/

/-- The scan after a character of code at which no comment starts. -/
def Scan.next (word number : Bool) (c : Char) (rest : List Char) : Scan :=
  if c = '\'' && number && startsAlphanumeric rest then .code word number
  else if c = '"' || c = '\'' then .literal c number
  else Scan.afterCode word number c

lemma isOpen_next : (Scan.next word number c rest).isOpen = false := by
  unfold Scan.next Scan.afterCode
  split
  · rfl
  · split
    · rfl
    · rfl

lemma scanLine_comment_close : scanLine (.comment number) ('*' :: '/' :: rest) =
    prepend [' '] (scanLine (.code false number) rest) := rfl

lemma scanLine_comment_cons (h : ∀ after, c = '*' → rest = '/' :: after → False) :
    scanLine (.comment number) (c :: rest) = scanLine (.comment number) rest := by
  rw [scanLine]
  exact h

lemma scanLine_literal_escape : scanLine (.literal quote number) ('\\' :: c :: rest) =
    prepend ['\\', c] (scanLine (.literal quote number) rest) := rfl

lemma scanLine_literal_cons (h : ∀ d after, c = '\\' → rest = d :: after → False) :
    scanLine (.literal quote number) (c :: rest) =
      prepend [c]
        (scanLine (if c = quote then .code false number else .literal quote number) rest) := by
  rw [scanLine]
  · rfl
  · exact h

/-- A backslash with nothing after it is a character like any other. -/
lemma scanLine_literal_last : scanLine (.literal quote number) [c] =
    prepend [c] (scanLine (if c = quote then .code false number else .literal quote number) []) :=
  scanLine_literal_cons fun _ _ _ hrest => List.cons_ne_nil _ _ hrest.symm

lemma scanLine_code_block :
    scanLine (.code word number) ('/' :: '*' :: rest) = scanLine (.comment number) rest := rfl

lemma scanLine_code_cons (hblock : ∀ after, c = '/' → rest = '*' :: after → False)
    (hline : ∀ after, c = '/' → rest = '/' :: after → False) :
    scanLine (.code word number) (c :: rest) =
      prepend [c] (scanLine (Scan.next word number c rest) rest) := by
  rw [scanLine]
  · rfl
  · exact hblock
  · exact hline

lemma scanLine_code_cons_of_ne (h : c ≠ '/') : scanLine (.code word number) (c :: rest) =
    prepend [c] (scanLine (Scan.next word number c rest) rest) :=
  scanLine_code_cons (fun _ hc => absurd hc h) fun _ hc => absurd hc h

/-! ## Texts that are left alone -/

/-- There is no comment marker in a text: nowhere two slashes, nor a slash and a star, one after
the other. -/
structure IsUnmarked (text : List Char) : Prop where
  line : ¬ ['/', '/'] <:+: text
  block : ¬ ['/', '*'] <:+: text

instance : Decidable (IsUnmarked text) :=
  decidable_of_iff (¬ ['/', '/'] <:+: text ∧ ¬ ['/', '*'] <:+: text)
    ⟨fun h => ⟨h.1, h.2⟩, fun h => ⟨h.line, h.block⟩⟩

lemma pair_infix_append_iff {d : Char} (h : c ∉ front) :
    [c, d] <:+: front ++ text ↔ [c, d] <:+: text := by
  induction front with
  | nil => rfl
  | cons e front ih =>
    obtain ⟨he, hfront⟩ := List.ne_and_not_mem_of_not_mem_cons h
    rw [List.cons_append, List.infix_cons_iff, ih hfront, List.cons_prefix_cons]
    simp [he]

lemma pair_infix_concat_iff {d e : Char} (h : d ≠ e) :
    [c, d] <:+: text ++ [e] ↔ [c, d] <:+: text := by
  rw [List.infix_concat_iff]
  refine or_iff_right ?_
  rintro ⟨init, hinit⟩
  have hlast := congrArg List.getLast? hinit
  simp [h] at hlast

namespace IsUnmarked

lemma of_cons (h : IsUnmarked (c :: text)) : IsUnmarked text :=
  ⟨fun hline => h.line (hline.trans (List.suffix_cons c text).isInfix),
    fun hblock => h.block (hblock.trans (List.suffix_cons c text).isInfix)⟩

lemma append (h : IsUnmarked text) (hfront : '/' ∉ front) : IsUnmarked (front ++ text) :=
  ⟨by rw [pair_infix_append_iff hfront]; exact h.line,
    by rw [pair_infix_append_iff hfront]; exact h.block⟩

lemma concat (h : IsUnmarked text) (hline : '/' ≠ c) (hblock : '*' ≠ c) :
    IsUnmarked (text ++ [c]) :=
  ⟨by rw [pair_infix_concat_iff hline]; exact h.line,
    by rw [pair_infix_concat_iff hblock]; exact h.block⟩

lemma not_block (h : IsUnmarked (c :: text)) :
    ∀ after, c = '/' → text = '*' :: after → False := by
  rintro after rfl rfl
  exact h.block ⟨[], after, rfl⟩

lemma not_line (h : IsUnmarked (c :: text)) :
    ∀ after, c = '/' → text = '/' :: after → False := by
  rintro after rfl rfl
  exact h.line ⟨[], after, rfl⟩

end IsUnmarked

/-- Outside of comments a text without markers is copied, literals and all: the markers are the two
openings of comments, and nothing else makes a scan leave out a character. -/
theorem scanLine_of_isUnmarked (h : IsUnmarked text) (hscan : scan.isOpen = false) :
    scanLine scan text = (text, false) := by
  -- a backslash in a literal takes the character after it along, so two steps at a time
  induction text using List.twoStepInduction generalizing scan with
  | nil => rw [scanLine, hscan]
  | singleton c =>
    cases scan with
    | comment number => cases hscan
    | literal quote number =>
      rw [scanLine_literal_last, scanLine]
      split <;> rfl
    | code word number =>
      rw [scanLine_code_cons h.not_block h.not_line, scanLine, isOpen_next]
      rfl
  | cons_cons c d rest ih ih' =>
    cases scan with
    | comment number => cases hscan
    | literal quote number =>
      by_cases hc : c = '\\'
      · subst hc
        rw [scanLine_literal_escape, ih h.of_cons.of_cons rfl]
        rfl
      · rw [scanLine_literal_cons fun _ _ hc' => absurd hc' hc, ih' d h.of_cons (by split <;> rfl)]
        rfl
    | code word number =>
      rw [scanLine_code_cons h.not_block h.not_line, ih' d h.of_cons isOpen_next]
      rfl

/-- A literal is copied up to its quote. -/
theorem scanLine_literal_of_notMem (h : quote ∉ text) :
    scanLine (.literal quote number) (text ++ [quote]) = (text ++ [quote], false) := by
  induction text using List.twoStepInduction with
  | nil =>
    rw [List.nil_append, scanLine_literal_last, if_pos rfl]
    rfl
  | singleton c =>
    by_cases hc : c = '\\'
    · subst hc
      rfl
    · have hne : c ≠ quote := (List.ne_of_not_mem_cons h).symm
      rw [List.singleton_append, scanLine_literal_cons fun _ _ hc' => absurd hc' hc, if_neg hne,
        scanLine_literal_last, if_pos rfl]
      rfl
  | cons_cons c d rest ih ih' =>
    obtain ⟨hne, hrest⟩ := List.ne_and_not_mem_of_not_mem_cons h
    by_cases hc : c = '\\'
    · subst hc
      rw [List.cons_append, List.cons_append, scanLine_literal_escape,
        ih (List.not_mem_of_not_mem_cons hrest)]
      rfl
    · rw [List.cons_append, scanLine_literal_cons fun _ _ hc' => absurd hc' hc, if_neg hne.symm,
        ih' d hrest]
      rfl

/-- Code in which nothing starts is copied, and the scan is in code after it. -/
lemma exists_scanLine_append (hslash : '/' ∉ front) (hstring : '"' ∉ front)
    (hcharacter : '\'' ∉ front) : ∃ word' number',
      scanLine (.code word number) (front ++ rest) =
        prepend front (scanLine (.code word' number') rest) := by
  induction front generalizing word number with
  | nil => exact ⟨word, number, rfl⟩
  | cons c front ih =>
    obtain ⟨hc, hslash⟩ := List.ne_and_not_mem_of_not_mem_cons hslash
    obtain ⟨hc', hstring⟩ := List.ne_and_not_mem_of_not_mem_cons hstring
    obtain ⟨hc'', hcharacter⟩ := List.ne_and_not_mem_of_not_mem_cons hcharacter
    have hnext : Scan.next word number c (front ++ rest) = Scan.afterCode word number c := by
      simp [Scan.next, hc'.symm, hc''.symm]
    rw [List.cons_append, scanLine_code_cons_of_ne hc.symm, hnext, Scan.afterCode]
    obtain ⟨word', number', hscan⟩ := ih hslash hstring hcharacter
    exact ⟨word', number', by rw [hscan, prepend_prepend]; rfl⟩

/-! ## One line after another -/

/-- Lines without their comments, each with whether a block comment is open after it. -/
def stripLines : (isOpen : Bool) → List (List Char) → List (List Char × Bool)
  | _, [] => []
  | isOpen, line :: rest =>
    stripComments isOpen line :: stripLines (stripComments isOpen line).2 rest

end IncludeDeps.Source
