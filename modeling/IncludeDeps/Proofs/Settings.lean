import IncludeDeps.Config.Reading
import IncludeDeps.Config.Sources
import IncludeDeps.Proofs.Run

/-!
# Settings and their fingerprints

The encoded form of settings is a list of fields with a zero character after each
(`Settings.encode_eq`).  While no field holds a zero character, the fields can be told apart, and so
can what they were made from: read from the end, the first field without an equals sign is the one
before the macros, and the field before that tells whether imports count.  Different settings are
then encoded in different ways (`Settings.IsPlain.eq_of_encode_eq`), and a source is compiled again
after every change of them (`Settings.recompile_of_change`).

A configuration may well have a zero character in the value of a macro, and that one passes for the
end of a field (`Settings.exists_unnoticed`).
-/

namespace IncludeDeps

/-! ## Terminated lists -/

section Terminated

variable {α : Type} {a : α} {x y u v : List α} {l l' : List (List α)}

/-- Two lists agree up to the first separator, and after it. -/
lemma List.append_cons_inj_of_first (hx : a ∉ x) (hy : a ∉ y) (h : x ++ a :: u = y ++ a :: v) :
    x = y ∧ u = v := by
  induction x generalizing y with
  | nil =>
    cases y with
    | nil => exact ⟨rfl, List.tail_eq_of_cons_eq h⟩
    | cons b y =>
      have hb : a = b := List.head_eq_of_cons_eq h
      exact absurd (hb ▸ List.mem_cons_self) hy
  | cons c x ih =>
    cases y with
    | nil =>
      have hc : c = a := List.head_eq_of_cons_eq h
      exact absurd (hc ▸ List.mem_cons_self) hx
    | cons b y =>
      obtain ⟨hcons, hrest⟩ := List.cons_eq_cons.1 h
      obtain ⟨hxy, huv⟩ :=
        ih (List.not_mem_of_not_mem_cons hx) (List.not_mem_of_not_mem_cons hy) hrest
      exact ⟨List.cons_eq_cons.2 ⟨hcons, hxy⟩, huv⟩

/-- Two lists agree after the last separator, and before it. -/
lemma List.append_cons_inj_of_last (hu : a ∉ u) (hv : a ∉ v) (h : x ++ a :: u = y ++ a :: v) :
    x = y ∧ u = v := by
  have hreverse : u.reverse ++ a :: x.reverse = v.reverse ++ a :: y.reverse := by
    simpa using congrArg List.reverse h
  obtain ⟨huv, hxy⟩ :=
    List.append_cons_inj_of_first (by simpa using hu) (by simpa using hv) hreverse
  exact ⟨List.reverse_injective hxy, List.reverse_injective huv⟩

/-- Lists without a separator can be told apart with one after each. -/
lemma List.eq_of_flatMap_terminated (hl : ∀ x ∈ l, a ∉ x) (hl' : ∀ x ∈ l', a ∉ x)
    (h : l.flatMap (· ++ [a]) = l'.flatMap (· ++ [a])) : l = l' := by
  induction l generalizing l' with
  | nil =>
    cases l' with
    | nil => rfl
    | cons y l' => simp at h
  | cons x l ih =>
    cases l' with
    | nil => simp at h
    | cons y l' =>
      simp only [List.flatMap_cons, List.append_assoc, List.singleton_append] at h
      obtain ⟨hxy, hrest⟩ := List.append_cons_inj_of_first (hl x List.mem_cons_self)
        (hl' y List.mem_cons_self) h
      have htail := ih (fun z hz => hl z (List.mem_cons_of_mem _ hz))
        (fun z hz => hl' z (List.mem_cons_of_mem _ hz)) hrest
      rw [hxy, htail]

end Terminated

namespace Bytes

lemma ofText_append (s t : String) : ofText (s ++ t) = ofText s ++ ofText t := by
  simp [ofText, String.toUTF8]

lemma ofText_injective : Function.Injective ofText := by
  intro s t h
  have hread : text? (ofText s) = text? (ofText t) := congrArg text? h
  simpa [text?_ofText] using hread

end Bytes

namespace Settings

variable {s s' : Settings}

/-! ## Fields -/

/-- How it is told whether imports count.  The byte that says no is the end of a field by itself. -/
def flagFields : Bool → List String
  | true => ["\x01"]
  | false => ["", ""]

/-- The field of a macro. -/
def macroField (e : String × String) : String := e.1 ++ "=" ++ e.2

/-- The fields of the encoded form. -/
def fields (s : Settings) : List String :=
  ("roots" :: s.roots.map Path.text ++ "imports" :: flagFields s.imports) ++
    "macros" :: s.macros.toList.map macroField

lemma encode_eq_flatMap_field (s : Settings) : s.encode = s.fields.flatMap field := by
  have hflag : [if s.imports then 1 else 0, 0] = (flagFields s.imports).flatMap field := by
    cases s.imports with
    | false => rfl
    | true => decide
  rw [encode, hflag]
  simp [fields, List.flatMap_map, macroField]

/-- The encoded form is a text in which a zero character stands after each field. -/
lemma encode_eq (s : Settings) : s.encode =
    Bytes.ofText (.ofList ((s.fields.map String.toList).flatMap (· ++ ['\x00']))) := by
  rw [encode_eq_flatMap_field]
  induction s.fields with
  | nil => rfl
  | cons f rest ih =>
    rw [List.flatMap_cons, ih, List.map_cons, List.flatMap_cons, String.ofList_append,
      Bytes.ofText_append, String.ofList_append, String.ofList_toList, Bytes.ofText_append]
    rfl

/-! ## Plain settings -/

/-- Macros have names that macros can have, and nothing holds a zero character. -/
structure IsPlain (s : Settings) : Prop where
  roots : ∀ r ∈ s.roots, '\x00' ∉ r.text.toList
  names : ∀ e ∈ s.macros.toList, isIdentifier e.1
  values : ∀ e ∈ s.macros.toList, '\x00' ∉ e.2.toList

instance : Decidable s.IsPlain :=
  decidable_of_iff ((∀ r ∈ s.roots, '\x00' ∉ r.text.toList) ∧
      (∀ e ∈ s.macros.toList, isIdentifier e.1) ∧ ∀ e ∈ s.macros.toList, '\x00' ∉ e.2.toList)
    ⟨fun h => ⟨h.1, h.2.1, h.2.2⟩, fun h => ⟨h.roots, h.names, h.values⟩⟩

lemma IsPlain.zero_notMem (h : s.IsPlain) : ∀ f ∈ s.fields, '\x00' ∉ f.toList := by
  intro f hf
  simp only [fields, List.mem_append, List.mem_cons, List.mem_map] at hf
  rcases hf with ((rfl | ⟨r, hr, rfl⟩) | rfl | hf) | rfl | ⟨e, he, rfl⟩
  · decide
  · exact h.roots r hr
  · decide
  · revert f
    cases s.imports with
    | false => decide
    | true => decide
  · decide
  · have hname := notMem_of_isIdentifier (c := '\x00') (by decide) (by decide) (h.names e he)
    simp [macroField, hname, h.values e he]

/-- No macro is taken for the head of the macros. -/
lemma macros_notMem : "macros" ∉ s.macros.toList.map macroField := by
  intro h
  obtain ⟨e, -, he⟩ := List.mem_map.1 h
  have hequals : '=' ∈ (macroField e).toList := by simp [macroField]
  rw [he] at hequals
  exact absurd hequals (by decide)

lemma eq_of_macroField_eq {e e' : String × String} (he : isIdentifier e.1)
    (he' : isIdentifier e'.1) (h : macroField e = macroField e') : e = e' := by
  have hlists : e.1.toList ++ '=' :: e.2.toList = e'.1.toList ++ '=' :: e'.2.toList := by
    simpa [macroField] using congrArg String.toList h
  obtain ⟨hname, hvalue⟩ := List.append_cons_inj_of_first
    (notMem_of_isIdentifier (by decide) (by decide) he)
    (notMem_of_isIdentifier (by decide) (by decide) he') hlists
  exact Prod.ext (String.toList_injective hname) (String.toList_injective hvalue)

lemma eq_of_map_macroField_eq {l l' : List (String × String)} (hl : ∀ e ∈ l, isIdentifier e.1)
    (hl' : ∀ e ∈ l', isIdentifier e.1) (h : l.map macroField = l'.map macroField) : l = l' := by
  induction l generalizing l' with
  | nil => simpa using h.symm
  | cons e rest ih =>
    cases l' with
    | nil => simp at h
    | cons e' rest' =>
      rw [List.map_cons, List.map_cons, List.cons_eq_cons] at h
      have hhead := eq_of_macroField_eq (hl e List.mem_cons_self) (hl' e' List.mem_cons_self) h.1
      have htail := ih (fun d hd => hl d (List.mem_cons_of_mem _ hd))
        (fun d hd => hl' d (List.mem_cons_of_mem _ hd)) h.2
      rw [hhead, htail]

/-- The fields before the macros tell whether imports count, and so which ones are roots. -/
lemma eq_of_append_flagFields_eq {roots roots' : List String} {b b' : Bool}
    (h : roots ++ "imports" :: flagFields b = roots' ++ "imports" :: flagFields b') :
    roots = roots' ∧ b = b' := by
  have hlast := congrArg List.getLast? h
  have hb : b = b' := by
    cases b with
    | false =>
      cases b' with
      | false => rfl
      | true => simp [flagFields] at hlast
    | true =>
      cases b' with
      | false => simp [flagFields] at hlast
      | true => rfl
  rw [hb] at h
  exact ⟨List.append_cancel_right h, hb⟩

/-- Plain settings are known by their fields. -/
lemma IsPlain.eq_of_fields_eq (hs : s.IsPlain) (hs' : s'.IsPlain) (h : s.fields = s'.fields) :
    s = s' := by
  -- a root or an imports flag may read like the head of the macros, but no macro does
  obtain ⟨hbefore, hmacros⟩ := List.append_cons_inj_of_last macros_notMem macros_notMem h
  have hentries := eq_of_map_macroField_eq hs.names hs'.names hmacros
  obtain ⟨hroots, himports⟩ := eq_of_append_flagFields_eq (List.tail_eq_of_cons_eq hbefore)
  have hpaths : s.roots = s'.roots :=
    List.map_injective_iff.2 (fun p q hpq => by cases p; cases q; cases hpq; rfl) hroots
  cases s
  cases s'
  cases hpaths
  cases himports
  cases OrderedMap.ext hentries
  rfl

/-- Plain settings are known by their encoded form. -/
theorem IsPlain.eq_of_encode_eq (hs : s.IsPlain) (hs' : s'.IsPlain) (h : s.encode = s'.encode) :
    s = s' := by
  apply hs.eq_of_fields_eq hs'
  rw [encode_eq, encode_eq] at h
  have hlists := String.ofList_injective (Bytes.ofText_injective h)
  have hzero : ∀ {s : Settings}, s.IsPlain → ∀ x ∈ s.fields.map String.toList, '\x00' ∉ x := by
    intro s hs x hx
    obtain ⟨f, hf, rfl⟩ := List.mem_map.1 hx
    exact hs.zero_notMem f hf
  exact List.map_injective_iff.2 (fun _ _ => String.toList_injective)
    (List.eq_of_flatMap_terminated (hzero hs) (hzero hs') hlists)

end Settings

/-! ## Analyses under changed settings -/

namespace RunM

variable {settings : Settings} {hasher : Hasher} {previous : TaskState} {sources : List Path}
  {r r' : Run} {a : Analysis}

/-- Against a state that was made under settings with another fingerprint, every source is compiled
again. -/
lemma recompile_of_fingerprint_ne
    (h : (analyse settings hasher previous sources).run.run r = (.ok a, r'))
    (hne : previous.settings ≠ some settings.fingerprint) : a.recompile = a.state.sources := by
  obtain ⟨l, pass, last, -, -, hpasses, -, -⟩ := passes_of_analyse h
  have hchanged : (previous.settings != some settings.fingerprint) = true := by simpa using hne
  apply OrderedSet.ext
  rw [hpasses.sources_eq, hpasses.outcome]
  show List.filter _ _ = _
  rw [List.filter_eq_self]
  intro p _
  simp [Run.context, hchanged]

end RunM

namespace Settings

variable {s s' : Settings}

/-- Plain settings that are encoded in the same way are the same.  So, unless their fingerprints
collide, an analysis under other settings than those of the state before compiles every source.
Settings are plain if no macro value and no root has a zero character in it, and the names of
macros are identifiers, as in every configuration. -/
theorem recompile_of_change (hs : s.IsPlain) (hs' : s'.IsPlain) :
    (s.encode = s'.encode → s = s') ∧
      (s ≠ s' → (s.fingerprint = s'.fingerprint → s.encode = s'.encode) →
        ∀ hasher (previous : TaskState) sources r a r', previous.settings = some s.fingerprint →
          (RunM.analyse s' hasher previous sources).run.run r = (.ok a, r') →
          a.recompile = a.state.sources) := by
  refine ⟨hs.eq_of_encode_eq hs', ?_⟩
  intro hne hcollision hasher previous sources r a r' hprevious h
  apply RunM.recompile_of_fingerprint_ne h
  rw [hprevious]
  intro heq
  exact hne (hs.eq_of_encode_eq hs' (hcollision (Option.some.inj heq)))

/-- Two sources. -/
def twoSources : Run where
  files := Workspace.ofTexts "p" [("a.c", "int a;\n"), ("b.c", "#include <x.h>\n")]

/-- Settings with one macro, the value of which holds an equals sign. -/
def oneMacro : Settings := ⟨[⟨"/inc"⟩], true, .ofList [("A", "1=B")]⟩

/-- Settings with two macros, the second without a value. -/
def twoMacros : Settings := ⟨[⟨"/inc"⟩], true, .ofList [("A", "1"), ("B", "")]⟩

theorem recompile_of_change_twoMacros : oneMacro.IsPlain ∧ twoMacros.IsPlain ∧
    oneMacro ≠ twoMacros ∧ ∃ a r' a' r'',
      (RunM.analyse oneMacro contentHasher ∅ [⟨"a.c"⟩, ⟨"b.c"⟩]).run.run twoSources = (.ok a, r') ∧
        (RunM.analyse twoMacros contentHasher a.state [⟨"a.c"⟩, ⟨"b.c"⟩]).run.run r' =
          (.ok a', r'') ∧
        a'.recompile.toList = [⟨"/p/a.c"⟩, ⟨"/p/b.c"⟩] := by
  let first := (RunM.analyse oneMacro contentHasher ∅ [⟨"a.c"⟩, ⟨"b.c"⟩]).run.run twoSources
  have hfindings : first.1.toOption.any fun a =>
      a.state.settings = some oneMacro.fingerprint ∧
        ((RunM.analyse twoMacros contentHasher a.state [⟨"a.c"⟩, ⟨"b.c"⟩]).run.run
          first.2).1.toOption.any fun a' =>
            a'.state.sources.toList = [⟨"/p/a.c"⟩, ⟨"/p/b.c"⟩] := by
    decide +kernel
  obtain ⟨a, r', hfirst, hrest⟩ := Except.exists_of_any hfindings
  rw [decide_eq_true_eq, show first.2 = r' from congrArg Prod.snd hfirst] at hrest
  obtain ⟨a', r'', hsecond, hsources⟩ := Except.exists_of_any hrest.2
  rw [decide_eq_true_eq] at hsources
  have hone : oneMacro.IsPlain := by decide
  have htwo : twoMacros.IsPlain := by decide
  have hne : oneMacro ≠ twoMacros := by decide
  -- the two digests differ, so for these settings nothing has to be assumed about digests
  have hcollision : oneMacro.fingerprint = twoMacros.fingerprint →
      oneMacro.encode = twoMacros.encode := by
    intro h
    exact absurd h (by decide +kernel)
  have hrecompile :=
    (recompile_of_change hone htwo).2 hne hcollision _ _ _ _ _ _ hrest.1 hsecond
  exact ⟨hone, htwo, hne, a, r', a', r'', hfirst, hsecond, by rw [hrecompile, hsources]⟩

/-- The text of a configuration with the given macros. -/
def configText (macros : String) : String :=
  "[project]\nname = \"p\"\n[tasks.main]\nsources = [\"a.c\"]\n[tasks.main.macros]\n" ++ macros

/-- The task of the configuration, for the project that `twoSources` holds. -/
def configTask (macros : String) : Except ConfigError Task := do
  (← Config.parse (configText macros)).task twoSources.files ⟨"/p"⟩ "main"

/-- The task with one macro, in the value of which there is a zero character. -/
def joined : Task :=
  ⟨":p:main", [⟨"/p/a.c"⟩], [], false, .ofList [("A", "1\x00B=2")], none⟩

/-- The task with two macros. -/
def parted : Task := { joined with macros := .ofList [("A", "1"), ("B", "2")] }

/-- A configuration may give a macro a value with a zero character.  When two macros take the place
of that one, and their fields are the parts of its field, then nothing is compiled again. -/
theorem exists_unnoticed :
    configTask "A = \"1\\u0000B=2\"\n" = .ok joined ∧
      configTask "A = \"1\"\nB = \"2\"\n" = .ok parted ∧
      joined.settings.encode = parted.settings.encode ∧
      joined.settings.macros ≠ parted.settings.macros ∧ ∃ a r' a' r'',
        (RunM.analyse joined.settings contentHasher ∅ joined.sources).run.run twoSources =
            (.ok a, r') ∧
          (RunM.analyse parted.settings contentHasher a.state parted.sources).run.run r' =
            (.ok a', r'') ∧
          a'.state.sources.toList = [⟨"/p/a.c"⟩] ∧ a'.recompile = ∅ := by
  let first := (RunM.analyse joined.settings contentHasher ∅ joined.sources).run.run twoSources
  have hfindings : first.1.toOption.any fun a =>
      ((RunM.analyse parted.settings contentHasher a.state parted.sources).run.run
        first.2).1.toOption.any fun a' =>
          a'.state.sources.toList = [⟨"/p/a.c"⟩] ∧ a'.recompile = ∅ := by
    decide +kernel
  obtain ⟨a, r', hfirst, hrest⟩ := Except.exists_of_any hfindings
  rw [show first.2 = r' from congrArg Prod.snd hfirst] at hrest
  obtain ⟨a', r'', hsecond, hunnoticed⟩ := Except.exists_of_any hrest
  rw [decide_eq_true_eq] at hunnoticed
  exact ⟨by decide +kernel, by decide +kernel, by decide +kernel, by decide +kernel,
    a, r', a', r'', hfirst, hsecond, hunnoticed⟩

end Settings

end IncludeDeps
