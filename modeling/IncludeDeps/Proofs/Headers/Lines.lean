import IncludeDeps.Headers.File
import IncludeDeps.Proofs.Source.LogicalLine
import Mathlib.Data.List.TakeWhile

/-!
# Lines of a header dependencies file

A record is read from the line that was written of it (`HeaderRecord.read_line`), and a file of such lines
falls into them again (`HeaderMap.lines_text`), whatever characters the parts of the records have.

Both rest on what is written of a text inside quotes.  It is read back as it was (`Json.scanString_escape`),
and it has no control characters (`Json.le_toNat_of_mem_quote`), so nothing in it ends a line.

The reader is more generous than the writer: it takes members in any order, passes over those that it does
not know, and reads escapes that are never written.  Nothing is said of such lines here.
-/

namespace IncludeDeps

/-! ## Quoted texts -/

namespace Json

variable {c : Char} {s : String} {rest : List Char}

lemma hexNumber?_escape {n : Nat} (h : n < 0x20) :
    Text.hexNumber? ['0', '0', Text.hexDigit (n / 16), Text.hexDigit (n % 16)] = some n := by
  have hzero : Text.hexValue? '0' = some 0 := by decide
  have hhigh : Text.hexValue? (Text.hexDigit (n / 16)) = some (n / 16) :=
    Text.hexValue?_hexDigit (by omega)
  have hlow : Text.hexValue? (Text.hexDigit (n % 16)) = some (n % 16) :=
    Text.hexValue?_hexDigit (by omega)
  simp only [Text.hexNumber?, List.foldlM_cons, List.foldlM_nil, hzero, hhigh, hlow, Option.map_some,
    Option.bind_eq_bind, Option.bind_some, Option.pure_def]
  congr 1
  omega

lemma scanString_number {a b c d : Char} {n : Nat} (hn : Text.hexNumber? [a, b, c, d] = some n)
    (hlow : n < 0xd800) (rest : List Char) :
    scanString none ('\\' :: 'u' :: a :: b :: c :: d :: rest) =
      prepend (Char.ofNat n) (scanString none rest) := by
  rw [scanString.eq_def]
  simp only [hn]
  rw [if_neg (by omega), if_neg (by omega)]

/-- A character is read back from what is written of it inside quotes. -/
lemma scanString_escape_append (c : Char) (rest : List Char) :
    scanString none (escape c ++ rest) = prepend c (scanString none rest) := by
  unfold escape
  split
  case h_1 | h_2 | h_3 | h_4 | h_5 | h_6 | h_7 => rfl
  case h_8 hquote hslash _ _ _ _ _ =>
    split
    · next hcontrol =>
      have hnumber := scanString_number (hexNumber?_escape hcontrol) (by omega) rest
      rw [Char.ofNat_toNat] at hnumber
      exact hnumber
    · next hplain =>
      rw [List.singleton_append, scanString]
      · rw [if_neg hquote, if_neg hplain]
      · exact hslash

/-- A text is read back from what is written of it inside quotes, character by character, whatever
follows the closing quote. -/
theorem scanString_escape (cs rest : List Char) :
    scanString none (cs.flatMap escape ++ '"' :: rest) = .ok (cs, rest) := by
  induction cs with
  | nil => rfl
  | cons c cs ih =>
    rw [List.flatMap_cons, List.append_assoc, scanString_escape_append, ih]
    rfl

lemma toList_quote (s : String) : (quote s).toList = '"' :: (s.toList.flatMap escape ++ ['"']) := by
  rw [quote, String.toList_ofList]
  rfl

lemma scanStringValue_quote (s : String) (rest : List Char) :
    scanStringValue ((quote s).toList ++ rest) = .ok (s, rest) := by
  have hquote : (quote s).toList ++ rest = '"' :: (s.toList.flatMap escape ++ '"' :: rest) := by
    rw [toList_quote]
    simp
  rw [hquote]
  show (scanString none _).map _ = _
  rw [scanString_escape]
  simp [Except.map]

lemma le_toNat_hexDigit {n : Nat} (h : n < 16) : 0x20 ≤ (Text.hexDigit n).toNat := by
  have all : ∀ m : Fin 16, 0x20 ≤ (Text.hexDigit m.1).toNat := by decide
  exact all ⟨n, h⟩

lemma le_toNat_of_mem_escape {d : Char} (h : d ∈ escape c) : 0x20 ≤ d.toNat := by
  unfold escape at h
  split at h
  -- a backslash and a letter, for the characters with a short form
  case h_1 | h_2 | h_3 | h_4 | h_5 | h_6 | h_7 =>
    simp only [List.mem_cons, List.not_mem_nil, or_false] at h
    rcases h with rfl | rfl
    · decide
    · decide
  case h_8 =>
    split at h
    · next hcontrol =>
      simp only [List.mem_cons, List.not_mem_nil, or_false] at h
      rcases h with rfl | rfl | rfl | rfl | rfl | rfl
      · decide
      · decide
      · decide
      · decide
      · exact le_toNat_hexDigit (by omega)
      · exact le_toNat_hexDigit (by omega)
    · next hplain =>
      obtain rfl := List.mem_singleton.1 h
      omega

/-- There are no control characters in what is written of a text. -/
theorem le_toNat_of_mem_quote (h : c ∈ (quote s).toList) : 0x20 ≤ c.toNat := by
  rw [toList_quote, List.mem_cons, List.mem_append, List.mem_singleton, List.mem_flatMap] at h
  rcases h with rfl | ⟨d, -, hc⟩ | rfl
  · decide
  · exact le_toNat_of_mem_escape hc
  · decide

end Json

/-! ## Records -/

namespace HeaderRecord

open Json

variable {parts : Parts} {key : String} {r : HeaderRecord}

/-- A member is read back, if its name is that of a part that has not been read. -/
lemma readMember_quote (hkey : key.toList.flatMap escape = key.toList) (hpart : parts.get? key = some none)
    (s : String) (rest : List Char) :
    readMember parts (key.toList ++ '"' :: ':' :: ((quote s).toList ++ rest)) =
      .ok (parts.set key s, rest) := by
  have hname := scanString_escape key.toList (':' :: ((quote s).toList ++ rest))
  rw [hkey] at hname
  have hcolon : skipColon (':' :: ((quote s).toList ++ rest)) = .ok ((quote s).toList ++ rest) := rfl
  unfold readMember
  simp only [hname, bind, Except.bind, String.ofList_toList, hpart, hcolon, scanStringValue_quote]
  rfl

lemma readMembers_first (fuel : Nat) (parts : Parts) (rest : List Char) :
    readMembers (fuel + 1) true parts ('"' :: rest) =
      (readMember parts rest).bind fun x => readMembers fuel false x.1 x.2 :=
  rfl

lemma readMembers_next (fuel : Nat) (parts : Parts) (rest : List Char) :
    readMembers (fuel + 1) false parts (',' :: '"' :: rest) =
      (readMember parts rest).bind fun x => readMembers fuel false x.1 x.2 :=
  rfl

lemma readMembers_close (fuel : Nat) (h : parts.record? = some r) :
    readMembers (fuel + 1) false parts ['\x7d'] = .ok r := by
  have hskip : skipBlank ['\x7d'] = ['\x7d'] := rfl
  simp only [readMembers, hskip, h]
  rfl

lemma toList_line (r : HeaderRecord) : r.line.toList =
    '\x7b' :: '"' :: ("include".toList ++ '"' :: ':' :: ((quote r.target).toList ++
      ',' :: '"' :: ("header".toList ++ '"' :: ':' :: ((quote r.header.text).toList ++
        ',' :: '"' :: ("hash".toList ++ '"' :: ':' :: ((quote r.digest).toList ++ ['\x7d'])))))) := by
  unfold line
  simp only [String.toList_append]
  simp

/-- A record is read back from its line, whichever characters its path, its header and its digest
have. -/
theorem read_line (r : HeaderRecord) : read r.line.toList = .ok r := by
  have hread : ∀ members, read ('\x7b' :: members) = readMembers (members.length + 1) true {} members :=
    fun _ => rfl
  -- there are three members and the closing brace
  have hfuel : ∃ fuel, (r.line.toList.tail).length + 1 = fuel + 4 := by
    refine ⟨r.line.toList.tail.length - 3, ?_⟩
    rw [toList_line]
    simp only [List.tail_cons, List.length_cons, List.length_append]
    omega
  obtain ⟨fuel, hfuel⟩ := hfuel
  rw [toList_line, List.tail_cons] at hfuel
  rw [toList_line, hread, hfuel, readMembers_first, readMember_quote (by decide) rfl]
  simp only [Except.bind]
  rw [readMembers_next, readMember_quote (by decide) rfl]
  simp only [Except.bind]
  rw [readMembers_next, readMember_quote (by decide) rfl]
  simp only [Except.bind]
  exact readMembers_close fuel rfl

/-- There are no control characters in a line. -/
lemma le_toNat_of_mem_line {c : Char} (h : c ∈ r.line.toList) : 0x20 ≤ c.toNat := by
  -- tested with `all`: a quantifier over characters might be decided by going through every one
  have hkey : (["\x7b\"include\":", ",\"header\":", ",\"hash\":", "\x7d"].all fun key =>
      key.toList.all fun c => decide (0x20 ≤ c.toNat)) = true := by
    decide
  simp only [List.all_eq_true, decide_eq_true_eq] at hkey
  unfold line at h
  simp only [String.toList_append, List.mem_append] at h
  rcases h with (((((h | h) | h) | h) | h) | h) | h
  · exact hkey _ (by simp) c h
  · exact le_toNat_of_mem_quote h
  · exact hkey _ (by simp) c h
  · exact le_toNat_of_mem_quote h
  · exact hkey _ (by simp) c h
  · exact le_toNat_of_mem_quote h
  · exact hkey _ (by simp) c h

lemma trim_line_ne_nil (r : HeaderRecord) : Text.trim r.line.toList ≠ [] := by
  have hblank : Text.isBlank '\x7b' = false := by decide
  have hstart : Text.trimStart r.line.toList = r.line.toList := by
    rw [toList_line]
    exact List.dropWhile_cons_of_neg (by simp [hblank])
  intro h
  rw [Text.trim, hstart, Text.trimEnd, List.reverse_eq_nil_iff, List.dropWhile_eq_nil_iff] at h
  have hbrace := h '\x7b' (by rw [toList_line]; simp)
  rw [hblank] at hbrace
  cases hbrace

end HeaderRecord

/-! ## Lines -/

namespace Text

/-- Lines without control characters are told apart. -/
lemma lines_flatMap {ls : List (List Char)} (h : ∀ l ∈ ls, ∀ c ∈ l, 0x20 ≤ c.toNat) :
    lines (ls.flatMap (· ++ ['\n'])) = ls := by
  induction ls with
  | nil => rfl
  | cons l ls ih =>
    have hl := h l List.mem_cons_self
    have hfeed : '\n' ∉ l := fun hc => absurd (hl _ hc) (by decide)
    have hreturn : l.getLast? ≠ some '\r' := fun hc => absurd (hl _ (List.mem_of_getLast? hc)) (by decide)
    rw [List.flatMap_cons, List.append_assoc, List.singleton_append, lines_append_break hfeed,
      chop_of_ne hreturn, ih fun l hl => h l (List.mem_cons_of_mem _ hl)]

end Text

namespace HeaderMap

variable {w : Workspace} {path : Path} {records : List HeaderRecord}

/-- The text of a file with the given records. -/
def text (records : List HeaderRecord) : String := String.join (records.map fun r => r.line ++ "\n")

lemma toList_text (records : List HeaderRecord) :
    (text records).toList = (records.map fun r => r.line.toList).flatMap (· ++ ['\n']) := by
  induction records with
  | nil => rfl
  | cons r records ih =>
    rw [text, List.map_cons, String.join_cons, ← text, String.toList_append, String.toList_append, ih]
    rfl

/-- The lines of a file are those of its records. -/
theorem lines_text (records : List HeaderRecord) :
    Text.lines (text records).toList = records.map fun r => r.line.toList := by
  rw [toList_text, Text.lines_flatMap]
  intro l hl c hc
  obtain ⟨r, -, rfl⟩ := List.mem_map.1 hl
  exact HeaderRecord.le_toNat_of_mem_line hc

lemma readText_eq (h : w.read path = .ok (content records)) : w.readText path = .ok (text records) := by
  have htext : Bytes.text? (content records) = some (text records) := Bytes.text?_ofText _
  simp only [Workspace.readText, h, bind, Except.bind, htext]
  rfl

/-- The records of a file are read back from its content.  As every control character is escaped, a
line break ends a record and nothing else, and no line is blank. -/
theorem readHeaderFile_eq (h : w.read path = .ok (content records)) :
    readHeaderFile w path = .ok records := by
  -- no record has an empty line, so the lines that are passed over are none of these
  have hkept : (records.map fun r => r.line.toList).filter (fun l => !(Text.trim l).isEmpty) =
      records.map fun r => r.line.toList := by
    refine List.filter_eq_self.2 fun l hl => ?_
    obtain ⟨r, -, rfl⟩ := List.mem_map.1 hl
    simpa using r.trim_line_ne_nil
  unfold readHeaderFile
  rw [readText_eq h]
  show List.mapM _ ((Text.lines (text records).toList).filter _) = _
  have hread : (fun l => (HeaderRecord.read l).mapError recordFault) ∘
      (fun r : HeaderRecord => r.line.toList) = (pure : HeaderRecord → Except Fault HeaderRecord) := by
    funext r
    rw [Function.comp_apply, r.read_line]
    rfl
  rw [lines_text, hkept, List.mapM_map, hread, List.mapM_pure, List.map_id']
  rfl

end HeaderMap

end IncludeDeps
