import IncludeDeps.Proofs.Source.Comment
import IncludeDeps.Source.Reader

/-!
# The elements of a line

A line is made of words, numbers, literals, comments and other characters.  They are cut off one
by one, each as long as it can be (`Element.cut`), and no element depends on the ones before it.
What is left of a line without its comments is then what is left of its elements (`Element.code`).

A scan looks at one character after another instead.  Both come to the same
(`Source.stripLines_logicalLines`), for

* `Source.scanLine_comment_of_some`, `Source.scanLine_literal`, `Source.scanLine_number` and
  `Source.scanLine_word` tell how a scan goes through one kind of element;
* `Source.scanLine_cut` puts them together, and `Source.scanLine_ofCode` is the whole line.

There is one exception.  An apostrophe is part of a number if a letter or digit comes after it, and
a scan keeps in mind that there was a number while it goes through comments and literals.  So a
literal behind them can pass for a part of that number.  `Element.hasFalseSeparator` tells the lines
on which it does, and `Source.stripLines_mistaken` is a text of which too much is read for that
reason.
-/

namespace IncludeDeps.Source

/-! ## The elements of a line -/

/-- What a line is made of, once it is known where words, literals and comments begin and end. -/
inductive Element where
  /-- A word that is no number. -/
  | word (text : List Char)
  /-- A number, with its digit separators. -/
  | number (text : List Char)
  /-- A string or character literal, with its quotes. -/
  | literal (text : List Char)
  /-- A block comment, which ends on the line or goes on after it. -/
  | blockComment (isClosed : Bool)
  /-- A comment up to the end of the line. -/
  | lineComment
  /-- Any other character. -/
  | sign (c : Char)
deriving DecidableEq

namespace Element

/-- Whether a character goes on with a word or a number. -/
def continuesWord (c : Char) : Bool := Text.isAsciiWord c || c == '.'

/-- The rest of a number and the text after it.  An apostrophe before a letter or digit is part of
it. -/
def cutNumber : List Char → List Char × List Char
  | [] => ([], [])
  | '\'' :: c :: rest =>
    if c.isAlphanum then ('\'' :: c :: (cutNumber rest).1, (cutNumber rest).2)
    else ([], '\'' :: c :: rest)
  | c :: rest =>
    if continuesWord c then (c :: (cutNumber rest).1, (cutNumber rest).2) else ([], c :: rest)

/-- The rest of a literal, its closing quote included, and the text after it.  A backslash takes the
next character along. -/
def cutLiteral (quote : Char) : List Char → List Char × List Char
  | [] => ([], [])
  | '\\' :: c :: rest => ('\\' :: c :: (cutLiteral quote rest).1, (cutLiteral quote rest).2)
  | c :: rest =>
    if c = quote then ([c], rest) else (c :: (cutLiteral quote rest).1, (cutLiteral quote rest).2)

/-- The text after the end of a block comment, if it ends. -/
def afterComment? : List Char → Option (List Char)
  | [] => none
  | '*' :: '/' :: rest => some rest
  | _ :: rest => afterComment? rest

/-- The block comment in which a text starts, and the text after it. -/
def cutComment (text : List Char) : Element × List Char :=
  match afterComment? text with
  | some rest => (.blockComment true, rest)
  | none => (.blockComment false, [])

/-- The first element of a line of code, and the text after it. -/
def cut (c : Char) (rest : List Char) : Element × List Char :=
  match c, rest with
  | '/', '/' :: _ => (.lineComment, [])
  | '/', '*' :: rest => cutComment rest
  | c, rest =>
    if c = '"' || c = '\'' then (.literal (c :: (cutLiteral c rest).1), (cutLiteral c rest).2)
    else if c.isDigit then (.number (c :: (cutNumber rest).1), (cutNumber rest).2)
    else if Text.isAsciiWord c then
      (.word (c :: rest.takeWhile continuesWord), rest.dropWhile continuesWord)
    else (.sign c, rest)

lemma length_cutNumber_le (text : List Char) : (cutNumber text).2.length ≤ text.length := by
  fun_induction cutNumber text <;> grind

lemma length_cutLiteral_le (quote : Char) (text : List Char) :
    (cutLiteral quote text).2.length ≤ text.length := by
  fun_induction cutLiteral quote text <;> grind

lemma length_cutComment_le (text : List Char) : (cutComment text).2.length ≤ text.length := by
  unfold cutComment
  fun_induction afterComment? text <;> grind

lemma length_cut_le (c : Char) (rest : List Char) : (cut c rest).2.length ≤ rest.length := by
  unfold cut
  split
  · exact Nat.zero_le _
  · exact Nat.le_succ_of_le (length_cutComment_le _)
  · split
    · exact length_cutLiteral_le c rest
    · split
      · exact length_cutNumber_le rest
      · split
        · exact (List.dropWhile_suffix _).length_le
        · exact Nat.le_refl _

/-- The elements of a line of code. -/
def ofCode : List Char → List Element
  | [] => []
  | c :: rest => (cut c rest).1 :: ofCode (cut c rest).2
termination_by text => text.length
decreasing_by exact Nat.lt_succ_of_le (length_cut_le c rest)

/-- The elements of a line, which starts in a block comment or not. -/
def ofLine (isOpen : Bool) (line : List Char) : List Element :=
  if isOpen then (cutComment line).1 :: ofCode (cutComment line).2 else ofCode line

/-- What is left of an element: of a comment, a blank where it ends. -/
def code : Element → List Char
  | word text => text
  | number text => text
  | literal text => text
  | blockComment isClosed => if isClosed then [' '] else []
  | lineComment => []
  | sign c => [c]

/-- Whether a block comment is open after some elements. -/
def leavesOpen (elements : List Element) : Bool := elements.getLast? = some (.blockComment false)

/-- The elements of one line after another. -/
def ofLines : (isOpen : Bool) → List (List Char) → List (List Element)
  | _, [] => []
  | isOpen, line :: rest => ofLine isOpen line :: ofLines (leavesOpen (ofLine isOpen line)) rest

/-- The elements of the logical lines of a text. -/
def ofText (text : List Char) : List (List Element) :=
  ofLines false ((logicalLines text).map LogicalLine.text)

/-! ### Apostrophes in doubt -/

/-- Whether an element is a character literal with a letter or digit after its quote. -/
def looksSeparated : Element → Bool
  | literal ('\'' :: inside) => startsAlphanumeric inside
  | _ => false

/-- Whether there is nothing but comments and literals after a number, once an element is added. -/
def followsNumber (afterNumber : Bool) : Element → Bool
  | number _ => true
  | literal _ => afterNumber
  | blockComment _ => afterNumber
  | _ => false

/-- Whether some character literal passes for a part of a number: nothing but comments and literals
stands between the two. -/
def hasFalseSeparator : (afterNumber : Bool) → List Element → Bool
  | _, [] => false
  | afterNumber, e :: rest =>
    (afterNumber && e.looksSeparated) || hasFalseSeparator (e.followsNumber afterNumber) rest

end Element

/-! ## Scanning one element -/

variable {word number isOpen : Bool} {quote c : Char} {text rest : List Char}

open Element

lemma scanLine_comment_of_some (h : afterComment? text = some rest) :
    scanLine (.comment number) text = prepend [' '] (scanLine (.code false number) rest) := by
  fun_induction afterComment? text with
  | case1 => cases h
  | case2 =>
    cases h
    exact scanLine_comment_close
  | case3 c text hclose ih => rw [scanLine_comment_cons hclose, ih h]

lemma scanLine_comment_of_none (h : afterComment? text = none) :
    scanLine (.comment number) text = ([], true) := by
  fun_induction afterComment? text with
  | case1 => rfl
  | case2 => cases h
  | case3 c text hclose ih => rw [scanLine_comment_cons hclose, ih h]

lemma scanLine_literal (quote : Char) (text : List Char) :
    scanLine (.literal quote number) text =
      prepend (cutLiteral quote text).1
        (scanLine (.code false number) (cutLiteral quote text).2) := by
  fun_induction cutLiteral quote text with
  | case1 => rfl
  | case2 c rest ih =>
    rw [scanLine_literal_escape, ih, prepend_prepend]
    rfl
  | case3 rest hescape =>
    rw [scanLine_literal_cons hescape, if_pos rfl]
  | case4 c rest hescape hne ih =>
    rw [scanLine_literal_cons hescape, if_neg hne, ih, prepend_prepend]
    rfl

/-! ### Words and numbers -/

lemma ne_of_continuesWord (h : continuesWord c) : c ≠ '/' ∧ c ≠ '"' ∧ c ≠ '\'' := by
  refine ⟨?_, ?_, ?_⟩ <;> (rintro rfl; exact absurd h (by decide))

lemma continuesWord_of_isAlphanum (h : c.isAlphanum) : continuesWord c := by
  simp [continuesWord, Text.isAsciiWord, h]

lemma next_of_continuesWord (h : continuesWord c) :
    Scan.next true number c rest = .code true number := by
  obtain ⟨-, hstring, hcharacter⟩ := ne_of_continuesWord h
  have hcontinues : (Text.isAsciiWord c || c == '.') = true := h
  simp [Scan.next, Scan.afterCode, hstring, hcharacter, hcontinues]

lemma next_of_isAsciiWord (h : Text.isAsciiWord c) :
    Scan.next false number c rest = .code true c.isDigit := by
  have hcontinues : continuesWord c := by simp [continuesWord, h]
  obtain ⟨-, hstring, hcharacter⟩ := ne_of_continuesWord hcontinues
  simp [Scan.next, Scan.afterCode, hstring, hcharacter, h]

lemma scanLine_of_continuesWord (h : continuesWord c) :
    scanLine (.code true number) (c :: rest) = prepend [c] (scanLine (.code true number) rest) := by
  rw [scanLine_code_cons_of_ne (ne_of_continuesWord h).1, next_of_continuesWord h]

/-- Where a word comes to an end, it no longer matters that there was one. -/
lemma scanLine_boundary (hword : ∀ c ∈ text.head?, continuesWord c = false)
    (hseparator : number → text.head? = some '\'' → startsAlphanumeric text.tail = false) :
    scanLine (.code true number) text = scanLine (.code false number) text := by
  cases text with
  | nil => rfl
  | cons c rest =>
    have hword : (Text.isAsciiWord c || c == '.') = false := hword c rfl
    by_cases hblock : ∃ after, c = '/' ∧ rest = '*' :: after
    · obtain ⟨after, rfl, rfl⟩ := hblock
      rfl
    by_cases hline : ∃ after, c = '/' ∧ rest = '/' :: after
    · obtain ⟨after, rfl, rfl⟩ := hline
      rfl
    have hplain : ∀ word, scanLine (.code word number) (c :: rest) =
        prepend [c] (scanLine (Scan.next word number c rest) rest) := fun _ =>
      scanLine_code_cons (fun after hc hrest => hblock ⟨after, hc, hrest⟩)
        fun after hc hrest => hline ⟨after, hc, hrest⟩
    have hnext : Scan.next true number c rest = Scan.next false number c rest := by
      have hnone : (decide (c = '\'') && number && startsAlphanumeric rest) = false := by
        cases number with
        | false => simp
        | true =>
          by_cases hc : c = '\''
          · have hafter : startsAlphanumeric rest = false := hseparator rfl (by rw [hc]; rfl)
            simp [hafter]
          · simp [hc]
      simp [Scan.next, Scan.afterCode, hnone, hword]
    rw [hplain, hplain, hnext]

lemma scanLine_number (text : List Char) :
    scanLine (.code true true) text =
      prepend (cutNumber text).1 (scanLine (.code false true) (cutNumber text).2) := by
  fun_induction cutNumber text with
  | case1 => rfl
  | case2 c rest hc ih =>
    have hseparator : Scan.next true true '\'' (c :: rest) = .code true true := by
      simp [Scan.next, startsAlphanumeric, hc]
    rw [scanLine_code_cons_of_ne (by decide), hseparator,
      scanLine_of_continuesWord (continuesWord_of_isAlphanum hc), ih, prepend_prepend,
      prepend_prepend]
    rfl
  | case3 c rest hc =>
    refine scanLine_boundary (fun d hd => ?_) fun _ _ => ?_
    · cases hd
      rfl
    · simpa [startsAlphanumeric] using hc
  | case4 c rest hseparator hc ih =>
    rw [scanLine_of_continuesWord hc, ih, prepend_prepend]
    rfl
  | case5 c rest hseparator hc =>
    refine scanLine_boundary (by simpa using hc) fun _ hhead => ?_
    cases rest with
    | nil => rfl
    | cons d rest => exact (hseparator d rest (Option.some.inj hhead) rfl).elim

lemma scanLine_word (text : List Char) :
    scanLine (.code true false) text =
      prepend (text.takeWhile continuesWord)
        (scanLine (.code false false) (text.dropWhile continuesWord)) := by
  induction text with
  | nil => rfl
  | cons c rest ih =>
    by_cases hc : continuesWord c
    · rw [scanLine_of_continuesWord hc, ih, prepend_prepend, List.takeWhile_cons_of_pos hc,
        List.dropWhile_cons_of_pos hc]
      rfl
    · rw [List.takeWhile_cons_of_neg hc, List.dropWhile_cons_of_neg hc, prepend_nil]
      exact scanLine_boundary (by simpa using hc) nofun

lemma next_of_sign (hstring : c ≠ '"') (hcharacter : c ≠ '\'') (hword : ¬ Text.isAsciiWord c) :
    Scan.next false number c rest = .code false false := by
  have hdigit : c.isDigit = false := by
    have halphanum : c.isAlphanum = false := by simp_all [Text.isAsciiWord]
    simp_all [Char.isAlphanum]
  simp [Scan.next, Scan.afterCode, hstring, hcharacter, hword, hdigit]

/-! ## Scanning a line -/

lemma startsAlphanumeric_cutLiteral (quote : Char) (text : List Char) :
    startsAlphanumeric (cutLiteral quote text).1 = startsAlphanumeric text := by
  unfold cutLiteral
  split
  · rfl
  · rfl
  · split <;> rfl

lemma next_of_quote (hquote : c = '"' ∨ c = '\'')
    (h : (number && (literal (c :: (cutLiteral c rest).1)).looksSeparated) = false) :
    Scan.next false number c rest = .literal c number := by
  rcases hquote with rfl | rfl
  · simp [Scan.next]
  · have hseparator : (number && startsAlphanumeric rest) = false := by
      rw [← startsAlphanumeric_cutLiteral '\'']
      exact h
    simp [Scan.next, hseparator]

/-- What one element does to the scan: it is copied, unless it is a comment, and the scan goes on
after it.  The state of the scan is kept in two flags; that one is in a word or number is forgotten
at the end of the element, whereas it is remembered that a number came last until there is another
word or sign. -/
lemma scanLine_cut (h : (number && (cut c rest).1.looksSeparated) = false) :
    scanLine (.code false number) (c :: rest) =
      if (cut c rest).1 = .blockComment false then ([], true)
      else prepend (cut c rest).1.code
        (scanLine (.code false ((cut c rest).1.followsNumber number)) (cut c rest).2) := by
  unfold cut at h ⊢
  split
  · rfl
  · next after =>
    rw [scanLine_code_block, cutComment]
    cases hcomment : afterComment? after with
    | some after' => exact scanLine_comment_of_some hcomment
    | none => exact scanLine_comment_of_none hcomment
  · next hline hblock =>
    rw [scanLine_code_cons hblock hline]
    split
    · next hquote =>
      -- a quote after a number would be taken for a separator; that is excluded by `h`
      rw [next_of_quote (by simpa using hquote) (by simpa [hquote] using h), scanLine_literal,
        prepend_prepend]
      rfl
    · next hquote =>
      obtain ⟨hstring, hcharacter⟩ : c ≠ '"' ∧ c ≠ '\'' := by simpa using hquote
      split
      · next hdigit =>
        have hword : Text.isAsciiWord c := by simp [Text.isAsciiWord, Char.isAlphanum, hdigit]
        rw [next_of_isAsciiWord hword, hdigit, scanLine_number, prepend_prepend]
        rfl
      · next hdigit =>
        split
        · next hword =>
          rw [next_of_isAsciiWord hword, Bool.eq_false_iff.2 hdigit, scanLine_word,
            prepend_prepend]
          rfl
        · next hword =>
          rw [next_of_sign hstring hcharacter hword]
          rfl

lemma cut_snd_of_open (h : (cut c rest).1 = .blockComment false) : (cut c rest).2 = [] := by
  unfold cut at h ⊢
  split
  · rfl
  · next after =>
    unfold cutComment at h ⊢
    split
    · next hclosed =>
      simp [hclosed] at h
    · rfl
  · simp only at h
    split at h
    · cases h
    · split at h
      · cases h
      · split at h
        · cases h
        · cases h

lemma leavesOpen_cons {e : Element} {es : List Element} (h : e ≠ .blockComment false) :
    leavesOpen (e :: es) = leavesOpen es := by
  cases es with
  | nil => simp [leavesOpen, h]
  | cons d es => simp [leavesOpen]

/-- A line of code is scanned element by element, as long as the scan does not take an apostrophe
for a separator of digits that is the quote of a literal.  What is left of an element depends on
the element alone. -/
theorem scanLine_ofCode (h : hasFalseSeparator number (ofCode text) = false) :
    scanLine (.code false number) text =
      ((ofCode text).flatMap Element.code, leavesOpen (ofCode text)) := by
  induction text using ofCode.induct generalizing number with
  | case1 =>
    rw [ofCode]
    rfl
  | case2 c rest ih =>
    rw [ofCode, hasFalseSeparator, Bool.or_eq_false_iff] at h
    rw [ofCode, scanLine_cut h.1, ih h.2]
    split
    · next hopen =>
      rw [hopen, cut_snd_of_open hopen, ofCode]
      rfl
    · next hopen =>
      rw [leavesOpen_cons hopen]
      rfl

lemma stripComments_ofLine (h : hasFalseSeparator false (ofLine isOpen text) = false) :
    stripComments isOpen text =
      ((ofLine isOpen text).flatMap Element.code, leavesOpen (ofLine isOpen text)) := by
  cases isOpen with
  | false => exact scanLine_ofCode h
  | true =>
    show scanLine (.comment false) text = _
    cases hcomment : afterComment? text with
    | some rest =>
      have hline : ofLine true text = .blockComment true :: ofCode rest := by
        simp [ofLine, cutComment, hcomment]
      rw [hline] at h ⊢
      have hrest : hasFalseSeparator false (ofCode rest) = false := h
      rw [scanLine_comment_of_some hcomment, scanLine_ofCode hrest, leavesOpen_cons (by simp)]
      rfl
    | none =>
      have hline : ofLine true text = [.blockComment false] := by
        simp [ofLine, cutComment, hcomment, ofCode]
      rw [hline, scanLine_comment_of_none hcomment]
      rfl

lemma stripLines_ofLines {lines : List (List Char)}
    (h : ∀ es ∈ ofLines isOpen lines, hasFalseSeparator false es = false) :
    stripLines isOpen lines =
      (ofLines isOpen lines).map fun es => (es.flatMap Element.code, leavesOpen es) := by
  induction lines generalizing isOpen with
  | nil => rfl
  | cons line rest ih =>
    have hline := stripComments_ofLine (h _ List.mem_cons_self)
    rw [stripLines, ofLines, List.map_cons, hline,
      ih fun es hes => h es (List.mem_cons_of_mem _ hes)]

/-- Where no literal passes for a part of a number, the logical lines of a text are stripped to what
is left of their elements, and a block comment is open after a line if its last element is one that
does not end. -/
theorem stripLines_logicalLines (h : ∀ es ∈ ofText text, hasFalseSeparator false es = false) :
    stripLines false ((logicalLines text).map LogicalLine.text) =
      (ofText text).map fun es => (es.flatMap Element.code, leavesOpen es) :=
  stripLines_ofLines h

/-- A text with separated digits, quotes in literals and comments over two lines. -/
def separated : List Char :=
  "long a = 1'000'000; /* one\n' */ char b = u8'\"'; // two\nb = '\\''; s = \"/*\"; /* open".toList

theorem stripLines_logicalLines_separated :
    (∀ es ∈ ofText separated, hasFalseSeparator false es = false) ∧
      stripLines false ((logicalLines separated).map LogicalLine.text) =
        [("long a = 1'000'000; ".toList, true), ("  char b = u8'\"'; ".toList, false),
          ("b = '\\''; s = \"/*\"; ".toList, true)] := by
  have hseparator : ∀ es ∈ ofText separated, hasFalseSeparator false es = false := by
    decide +kernel
  refine ⟨hseparator, ?_⟩
  rw [stripLines_logicalLines hseparator]
  decide +kernel

/-- A text in which a comment parts a number from a character literal. -/
def mistaken : List Char := "X(1/**/'a') /*\n#include \"gone.h\"\n*/\n".toList

/-- The apostrophe after a number and a comment is taken for a separator.  The next one then opens a
literal, which hides the comment after it, so that a directive in that comment is read. -/
theorem stripLines_mistaken :
    (ofText mistaken).map (fun es => (es.flatMap Element.code, leavesOpen es)) =
        [("X(1 'a') ".toList, true), ([], true), ([' '], false)] ∧
      stripLines false ((logicalLines mistaken).map LogicalLine.text) =
        [("X(1 'a') /*".toList, false), ("#include \"gone.h\"".toList, false),
          ("*/".toList, false)] ∧
      (read mistaken).includes = [⟨.quoted, "gone.h", false, some 2⟩] := by
  decide +kernel

end IncludeDeps.Source
