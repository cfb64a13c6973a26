import IncludeDeps.Timing
import Mathlib.Data.List.DropRight
import Mathlib.Tactic.Ring

/-!
# What reports tell

A duration is kept in two words, with carries from one to the other, and the runs of a phase are
counted in a third one.  A report tells the number of runs since the last report and the exact
time that they took.

* `Duration.ofNanoseconds?` is the duration of a number of nanoseconds, and
  `Duration.add?_eq`, `Duration.div?_eq` say that sums and parts are what they are on numbers;
* `TimingEvent` is what happens to timings; `TimingEvent.runs` are the runs of a phase since the last
  report, and `TimingEvent.total` is the time that they took;
* `Timings.after?` are the timings after a history, and `Timings.Tells` relates them to it;
* `Timings.report_after` tells when there is a report after a history, and all that stands in it.

A report gives a mean time only for a number of runs that fits into 32 bits, although it counts in 64
bits (`Timings.exists_without_average`).
-/

namespace IncludeDeps

namespace Duration

variable {d e : Duration} {seconds more s : UInt64} {nanos n : UInt32} {x : Option Duration} {k : Nat}

/-! ## Durations as numbers -/

/-- The least number of nanoseconds whose seconds do not fit into 64 bits. -/
def bound : Nat := 2 ^ 64 * 1000000000

/-- The duration of a number of nanoseconds. -/
def ofNanoseconds? (k : Nat) : Option Duration :=
  if k < bound then
    some ⟨UInt64.ofNat (k / 1000000000), UInt32.ofNat (k % 1000000000), by
      change (UInt32.ofNat (k % 1000000000)).toNat < 1000000000
      rw [UInt32.toNat_ofNat']
      omega⟩
  else none

lemma toNat_nanos_lt (d : Duration) : d.nanos.toNat < 1000000000 := UInt32.lt_iff_toNat_lt.1 d.nanos_lt

lemma nanoseconds_lt_bound (d : Duration) : d.nanoseconds < bound := by
  have hseconds := d.seconds.toNat_lt
  have hnanos := d.toNat_nanos_lt
  unfold nanoseconds bound
  omega

lemma eq_of_nanoseconds (h : d.nanoseconds = e.nanoseconds) : d = e := by
  obtain ⟨s, n, hn⟩ := d
  obtain ⟨s', n', hn'⟩ := e
  rw [UInt32.lt_iff_toNat_lt] at hn hn'
  change 1000000000 * s.toNat + n.toNat = 1000000000 * s'.toNat + n'.toNat at h
  change n.toNat < 1000000000 at hn
  change n'.toNat < 1000000000 at hn'
  obtain rfl : s = s' := UInt64.toNat.inj (by omega)
  obtain rfl : n = n' := UInt32.toNat.inj (by omega)
  rfl

lemma ofNanoseconds?_eq_some_iff : ofNanoseconds? k = some d ↔ d.nanoseconds = k := by
  have hself : k < bound → ∃ d, ofNanoseconds? k = some d ∧ d.nanoseconds = k := by
    intro hk
    refine ⟨_, if_pos hk, ?_⟩
    unfold bound at hk
    rw [nanoseconds, UInt64.toNat_ofNat', UInt32.toNat_ofNat']
    omega
  constructor
  · intro h
    by_cases hk : k < bound
    · obtain ⟨e, he, rfl⟩ := hself hk
      rw [Option.some.inj (h.symm.trans he)]
    · rw [ofNanoseconds?, if_neg hk] at h
      cases h
  · rintro rfl
    obtain ⟨e, he, heq⟩ := hself d.nanoseconds_lt_bound
    rw [he, eq_of_nanoseconds heq]

lemma ofNanoseconds?_eq_none_iff : ofNanoseconds? k = none ↔ bound ≤ k := by
  rw [ofNanoseconds?]
  split
  · next hk => simp [hk]
  · next hk => simp [Nat.le_of_not_lt hk]

lemma eq_ofNanoseconds? (hsome : ∀ d, x = some d → d.nanoseconds = k) (hnone : x = none → bound ≤ k) :
    x = ofNanoseconds? k := by
  cases x with
  | none => exact (ofNanoseconds?_eq_none_iff.2 (hnone rfl)).symm
  | some d => exact (ofNanoseconds?_eq_some_iff.2 (hsome d rfl)).symm

/-! ## Sums and parts -/

lemma toNat_of_plus? (h : plus? seconds more = some s) : s.toNat = seconds.toNat + more.toNat := by
  unfold plus? at h
  split at h
  · next hfits =>
    rw [← Option.some.inj h, UInt64.toNat_add]
    exact Nat.mod_eq_of_lt hfits
  · cases h

lemma le_of_plus? (h : plus? seconds more = none) : 2 ^ 64 ≤ seconds.toNat + more.toNat := by
  unfold plus? at h
  split at h
  · cases h
  · next hfits => exact Nat.le_of_not_lt hfits

lemma make?_eq : make? seconds nanos = ofNanoseconds? (1000000000 * seconds.toNat + nanos.toNat) := by
  have hseconds := seconds.toNat_lt
  unfold make?
  split
  · exact (ofNanoseconds?_eq_some_iff.2 rfl).symm
  · have hcarry : (nanos / perSecond).toUInt64.toNat = nanos.toNat / 1000000000 := by
      rw [UInt32.toNat_toUInt64, UInt32.toNat_div]
      rfl
    refine eq_ofNanoseconds? (fun d hd => ?_) fun hnone => ?_
    · obtain ⟨s, hs, rfl⟩ := Option.map_eq_some_iff.1 hd
      have hsum := toNat_of_plus? hs
      have hrest : (nanos % perSecond).toNat = nanos.toNat % 1000000000 := UInt32.toNat_mod _ _
      change 1000000000 * s.toNat + (nanos % perSecond).toNat = _
      omega
    · have hsum := le_of_plus? (Option.map_eq_none_iff.1 hnone)
      unfold bound
      omega

/-- The sum of two durations is the one of the sum of their nanoseconds, and there is none if the
seconds of that do not fit.  The sum of the two nanosecond parts is below 2³², so it does not wrap
around. -/
lemma add?_eq : d.add? e = ofNanoseconds? (d.nanoseconds + e.nanoseconds) := by
  have hd := d.toNat_nanos_lt
  have he := e.toNat_nanos_lt
  have hnanos : (d.nanos + e.nanos).toNat = d.nanos.toNat + e.nanos.toNat := by
    rw [UInt32.toNat_add]
    omega
  unfold add?
  cases hs : plus? d.seconds e.seconds with
  | none =>
    have hsum := le_of_plus? hs
    refine (ofNanoseconds?_eq_none_iff.2 ?_).symm
    unfold bound nanoseconds
    omega
  | some s =>
    have hsum := toNat_of_plus? hs
    simp only [Option.bind_eq_bind, Option.bind_some]
    split
    · rw [make?_eq]
      congr 1
      unfold nanoseconds
      omega
    · next hge =>
      have hge : perSecond ≤ d.nanos + e.nanos := UInt32.not_lt.1 hge
      have hge' : 1000000000 ≤ (d.nanos + e.nanos).toNat := UInt32.le_iff_toNat_le.1 hge
      -- a second is carried over, and it may be the one that is too many
      cases hs' : plus? s 1 with
      | none =>
        have hsum' : 2 ^ 64 ≤ s.toNat + 1 := le_of_plus? hs'
        refine (ofNanoseconds?_eq_none_iff.2 ?_).symm
        unfold bound nanoseconds
        omega
      | some s' =>
        have hsum' : s'.toNat = s.toNat + 1 := toNat_of_plus? hs'
        have hrest : (d.nanos + e.nanos - perSecond).toNat = (d.nanos + e.nanos).toNat - 1000000000 :=
          UInt32.toNat_sub_of_le _ _ hge
        rw [Option.bind_some, make?_eq]
        congr 1
        unfold nanoseconds
        omega

/-- What is left of the seconds, together with what is left of the nanoseconds, is divided in the end. -/
lemma div_parts (a b : Nat) {c : Nat} (hc : 0 < c) :
    1000000000 * (a / c) + (b / c + ((a % c) * 1000000000 + b % c) / c) = (1000000000 * a + b) / c := by
  have htotal : 1000000000 * a + b =
      c * (1000000000 * (a / c) + b / c) + ((a % c) * 1000000000 + b % c) := by
    calc
      1000000000 * a + b = 1000000000 * (c * (a / c) + a % c) + (c * (b / c) + b % c) := by
        rw [Nat.div_add_mod, Nat.div_add_mod]
      _ = c * (1000000000 * (a / c) + b / c) + ((a % c) * 1000000000 + b % c) := by ring
  rw [htotal, Nat.mul_add_div hc]
  omega

/-- A part of a duration is the one of the quotient of its nanoseconds, rounded down. -/
lemma div?_eq (hn : n ≠ 0) : d.div? n = ofNanoseconds? (d.nanoseconds / n.toNat) := by
  have hpos : 0 < n.toNat := Nat.pos_of_ne_zero fun h => hn (UInt32.toNat.inj h)
  have hlt := n.toNat_lt
  have hnanos := d.toNat_nanos_lt
  have hseconds := Nat.mod_lt d.seconds.toNat hpos
  have hmod := Nat.mod_lt d.nanos.toNat hpos
  -- no word overflows on the way
  have hleft : (d.seconds % n.toUInt64 * perSecond.toUInt64 + (d.nanos % n).toUInt64).toNat =
      d.seconds.toNat % n.toNat * 1000000000 + d.nanos.toNat % n.toNat := by
    have hmul : (d.seconds % n.toUInt64 * perSecond.toUInt64).toNat =
        d.seconds.toNat % n.toNat * 1000000000 := by
      rw [UInt64.toNat_mul, UInt64.toNat_mod, UInt32.toNat_toUInt64]
      change d.seconds.toNat % n.toNat * 1000000000 % 2 ^ 64 = _
      omega
    rw [UInt64.toNat_add, hmul, UInt32.toNat_toUInt64, UInt32.toNat_mod]
    omega
  have hcarry : (d.seconds.toNat % n.toNat * 1000000000 + d.nanos.toNat % n.toNat) / n.toNat <
      1000000001 := Nat.div_lt_of_lt_mul (by omega)
  have hquot : d.nanos.toNat / n.toNat < 1000000000 := (Nat.div_le_self _ _).trans_lt hnanos
  unfold div?
  rw [if_neg hn, make?_eq]
  congr 1
  rw [UInt64.toNat_div, UInt32.toNat_toUInt64, UInt32.toNat_add, UInt32.toNat_div,
    UInt64.toNat_toUInt32, UInt64.toNat_div, hleft, UInt32.toNat_toUInt64,
    Nat.mod_eq_of_lt (a := _ / _) (by omega), Nat.mod_eq_of_lt (by omega),
    div_parts _ _ hpos, nanoseconds]

end Duration

/-! ## Histories -/

/-- What happens to timings: a phase was run for some time, or all runs are cleared. -/
inductive TimingEvent where
  /-- A phase ran, and took this long. -/
  | run (op : Operation) (elapsed : Duration)
  /-- The runs are reported and cleared. -/
  | clear

namespace TimingEvent

/-- Whether the runs are cleared. -/
def isClear : TimingEvent → Bool
  | clear => true
  | run _ _ => false

/-- How long a run of `op` took. -/
def elapsed? (op : Operation) : TimingEvent → Option Duration
  | run op' elapsed => if op' = op then some elapsed else none
  | clear => none

/-- The runs of one phase since the last clear. -/
def runs (h : List TimingEvent) (op : Operation) : List Duration :=
  (h.rtakeWhile fun e => !e.isClear).filterMap (elapsed? op)

/-- The nanoseconds that they took altogether. -/
def total (h : List TimingEvent) (op : Operation) : ℕ := ((runs h op).map Duration.nanoseconds).sum

variable {h : List TimingEvent} {op op' : Operation} {elapsed : Duration}

lemma runs_clear : runs (h ++ [clear]) op = [] := by
  rw [runs, List.rtakeWhile_concat_neg _ _ _ (by simp [isClear]), List.filterMap_nil]

lemma runs_run : runs (h ++ [run op' elapsed]) op =
    if op' = op then runs h op ++ [elapsed] else runs h op := by
  rw [runs, List.rtakeWhile_concat_pos _ _ _ (by simp [isClear]), List.filterMap_append, ← runs]
  by_cases hop : op' = op
  · simp [elapsed?, hop]
  · simp [elapsed?, hop]

lemma total_run : total (h ++ [run op' elapsed]) op =
    if op' = op then total h op + elapsed.nanoseconds else total h op := by
  rw [total, runs_run]
  split
  · simp [total]
  · rfl

lemma runs_replicate (n : ℕ) : runs (List.replicate n (run op' elapsed)) op =
    if op' = op then List.replicate n elapsed else [] := by
  induction n with
  | zero => simp [runs]
  | succ n ih =>
    rw [List.replicate_succ', runs_run, ih]
    split
    · rw [List.replicate_succ']
    · rfl

lemma total_replicate (n : ℕ) : total (List.replicate n (run op' elapsed)) op =
    if op' = op then n * elapsed.nanoseconds else 0 := by
  rw [total, runs_replicate]
  split
  · rw [List.map_replicate, List.sum_replicate_nat]
  · rfl

end TimingEvent

namespace Timing

variable {t : Timing} {mean : Duration}

/-- The mean time of as many runs as fit into 32 bits is the quotient of all their nanoseconds. -/
lemma average?_eq : t.average? = if t.count = 0 ∨ 2 ^ 32 ≤ t.count.toNat then none
    else Duration.ofNanoseconds? (t.total.nanoseconds / t.count.toNat) := by
  unfold average?
  by_cases hzero : t.count = 0
  · rw [if_pos hzero, if_pos (.inl hzero)]
  · rw [if_neg hzero]
    by_cases hfits : t.count.toNat < UInt32.size
    · have hcount : t.count.toUInt32.toNat = t.count.toNat := by
        rw [UInt64.toNat_toUInt32]
        exact Nat.mod_eq_of_lt hfits
      have hpos : t.count.toUInt32 ≠ 0 := by
        intro h
        rw [h] at hcount
        exact hzero (UInt64.toNat.inj hcount.symm)
      rw [if_pos hfits, if_neg (by rintro (h | h); exacts [hzero h, absurd hfits (Nat.not_lt.2 h)]),
        Duration.div?_eq hpos, hcount]
    · rw [if_neg hfits, if_pos (.inr (Nat.le_of_not_lt hfits))]

lemma average?_eq_none_iff : t.average? = none ↔ t.count = 0 ∨ 2 ^ 32 ≤ t.count.toNat := by
  rw [average?_eq]
  split
  · next h => exact iff_of_true rfl h
  · next h =>
    refine iff_of_false (fun hnone => ?_) h
    have hle : t.total.nanoseconds / t.count.toNat ≤ t.total.nanoseconds := Nat.div_le_self _ _
    exact absurd (Duration.ofNanoseconds?_eq_none_iff.1 hnone)
      (Nat.not_le.2 (hle.trans_lt t.total.nanoseconds_lt_bound))

lemma nanoseconds_of_average? (h : t.average? = some mean) :
    mean.nanoseconds = t.total.nanoseconds / t.count.toNat := by
  rw [average?_eq] at h
  split at h
  · cases h
  · exact Duration.ofNanoseconds?_eq_some_iff.1 h

end Timing

namespace Timings

open TimingEvent (runs total)

variable {t t' : Timings} {h h' : List TimingEvent} {e : TimingEvent} {op op' : Operation} {r : Timing}
  {elapsed : Duration}

@[simp] lemma get_set : (t.set op r).get op' = if op' = op then r else t.get op' := by
  cases op with
  | _ => cases op' with
    | _ => rfl

/-- The timings after an event. -/
def react? (t : Timings) : TimingEvent → Option Timings
  | .run op elapsed => t.record? op elapsed
  | .clear => some t.clear.2

/-- The timings after a history; none if at some time the runs of a phase took too long altogether. -/
def after? (h : List TimingEvent) : Option Timings := h.foldlM react? {}

lemma after?_concat : after? (h ++ [e]) = (after? h).bind fun t => t.react? e := by
  simp [after?, List.foldlM_append]

/-- The counts and the times are the ones of the runs since the last clear.  A count takes 64 bits. -/
structure Tells (t : Timings) (h : List TimingEvent) : Prop where
  count : ∀ op, (t.get op).count = UInt64.ofNat (runs h op).length
  total : ∀ op, (t.get op).total.nanoseconds = total h op

/-- A further run is refused exactly if the time gets too long. -/
lemma record?_eq_none_iff :
    t.record? op elapsed = none ↔ Duration.bound ≤ (t.get op).total.nanoseconds + elapsed.nanoseconds := by
  rw [record?, Option.map_eq_none_iff, Timing.record?, Option.map_eq_none_iff, Duration.add?_eq,
    Duration.ofNanoseconds?_eq_none_iff]

/-- A further run makes the count and the time of its phase larger, and leaves the other phases alone. -/
lemma Tells.record (ht : t.Tells h) (hrecord : t.record? op elapsed = some t') :
    t'.Tells (h ++ [.run op elapsed]) := by
  obtain ⟨r, hr, rfl⟩ := Option.map_eq_some_iff.1 hrecord
  obtain ⟨sum, hsum, rfl⟩ := Option.map_eq_some_iff.1 hr
  rw [Duration.add?_eq, Duration.ofNanoseconds?_eq_some_iff] at hsum
  refine ⟨fun op' => ?_, fun op' => ?_⟩
  · rw [get_set, TimingEvent.runs_run]
    by_cases hop : op' = op
    · rw [if_pos hop, if_pos hop.symm, List.length_append, List.length_singleton, UInt64.ofNat_add, hop,
        ht.count]
      rfl
    · rw [if_neg hop, if_neg (Ne.symm hop), ht.count]
  · rw [get_set, TimingEvent.total_run]
    by_cases hop : op' = op
    · rw [if_pos hop, if_pos hop.symm, hop, ← ht.total, hsum]
    · rw [if_neg hop, if_neg (Ne.symm hop), ht.total]

/-- Where nothing ran since the last clear, there is nothing to tell. -/
lemma tells_start (hruns : ∀ op, runs h op = []) : ({} : Timings).Tells h := by
  refine ⟨fun op => ?_, fun op => ?_⟩
  · rw [hruns]
    cases op with
    | _ => rfl
  · rw [total, hruns]
    cases op with
    | _ => rfl

/-- What the timings after a history tell. -/
lemma tells_of_after? (ht : after? h = some t) : t.Tells h := by
  induction h using List.reverseRecOn generalizing t with
  | nil =>
    obtain rfl : {} = t := Option.some.inj ht
    exact tells_start fun _ => rfl
  | append_singleton h e ih =>
    rw [after?_concat] at ht
    obtain ⟨u, hu, ht⟩ := Option.bind_eq_some_iff.1 ht
    cases e with
    | run op elapsed => exact (ih hu).record ht
    | clear =>
      obtain rfl : {} = t := Option.some.inj ht
      exact tells_start fun _ => TimingEvent.runs_clear

/-- There are timings after a history exactly if at no time the runs of a phase took too long. -/
lemma exists_after?_iff :
    (∃ t, after? h = some t) ↔ ∀ h', h' <+: h → ∀ op, total h' op < Duration.bound := by
  induction h using List.reverseRecOn with
  | nil =>
    refine ⟨fun _ h' hstart op => ?_, fun _ => ⟨{}, rfl⟩⟩
    rw [List.prefix_nil.1 hstart]
    exact Nat.zero_lt_of_lt (Nat.lt_of_le_of_lt (Nat.zero_le _) (Duration.nanoseconds_lt_bound .zero))
  | append_singleton h e ih =>
    constructor
    · rintro ⟨t, ht⟩ h' hstart op
      rcases List.prefix_concat_iff.1 hstart with rfl | hstart
      · rw [← (tells_of_after? ht).total]
        exact Duration.nanoseconds_lt_bound _
      · rw [after?_concat] at ht
        obtain ⟨u, hu, -⟩ := Option.bind_eq_some_iff.1 ht
        exact ih.1 ⟨u, hu⟩ h' hstart op
    · intro hfits
      obtain ⟨u, hu⟩ := ih.2 fun h' hstart => hfits h' (hstart.trans (List.prefix_append _ _))
      rw [after?_concat, hu, Option.bind_some]
      cases e with
      | clear => exact ⟨_, rfl⟩
      | run op elapsed =>
        refine Option.ne_none_iff_exists'.1 fun hnone => ?_
        have hlong := record?_eq_none_iff.1 hnone
        have hshort := hfits _ List.prefix_rfl op
        rw [TimingEvent.total_run, if_pos rfl, ← (tells_of_after? hu).total] at hshort
        omega

/-! ## Reports -/

/-- After a history there is a report exactly if at no time the runs of a phase took 2⁶⁴ seconds or more.  It
lists every phase once, and tells the number of its runs since the last report, as far as 64 bits hold
it, and the exact time that they took.  A mean time is given exactly for one run or more and less than
2³² of them, and it is the quotient in whole nanoseconds, rounded down.  The runs of other phases, and
those before the last report, do not count. -/
theorem report_after (h : List TimingEvent) :
    ((∃ t, after? h = some t) ↔ ∀ h', h' <+: h → ∀ op, total h' op < 2 ^ 64 * 1000000000) ∧
      ∀ t, after? h = some t → t.clear.1.map Prod.fst = Operation.all ∧ t.clear.2 = {} ∧
        ∀ op r, (op, r) ∈ t.clear.1 → r = t.get op ∧
          r.count.toNat = (runs h op).length % 2 ^ 64 ∧ r.total.nanoseconds = total h op ∧
          (r.average? = none ↔ r.count = 0 ∨ 2 ^ 32 ≤ r.count.toNat) ∧
          ∀ mean, r.average? = some mean → mean.nanoseconds = total h op / r.count.toNat := by
  refine ⟨exists_after?_iff, fun t ht => ⟨by rw [clear, report, List.map_map]; rfl, rfl, ?_⟩⟩
  intro op r hr
  have htells := tells_of_after? ht
  obtain ⟨op', -, hop⟩ := List.mem_map.1 hr
  obtain ⟨rfl, rfl⟩ := Prod.mk.inj hop
  refine ⟨rfl, ?_, htells.total _, Timing.average?_eq_none_iff, fun mean hmean => ?_⟩
  · rw [htells.count, UInt64.toNat_ofNat']
  · rw [Timing.nanoseconds_of_average? hmean, htells.total]

/-- Two phases run before and after a report; the mean time of three runs is not a whole number. -/
theorem report_after_two_phases :
    let h : List TimingEvent := [.run .analysis ⟨1, 600000000, by decide⟩,
      .run .snapshot ⟨18446744073709551615, 999999999, by decide⟩, .clear,
      .run .snapshot ⟨1, 999999999, by decide⟩, .run .analysis ⟨5, 0, by decide⟩,
      .run .snapshot ⟨2, 2, by decide⟩, .run .snapshot .zero]
    ∃ t, after? h = some t ∧ ((Operation.snapshot, t.snapshot) ∈ t.clear.1) ∧
      t.snapshot.count.toNat = 3 ∧ t.snapshot.total.nanoseconds = 4000000001 ∧
      ∃ mean, t.snapshot.average? = some mean ∧ mean.nanoseconds = 1333333333 := by
  intro h
  have hsome : (after? h).isSome := by decide +kernel
  obtain ⟨t, ht⟩ := Option.isSome_iff_exists.1 hsome
  obtain ⟨-, -, hreport⟩ := (report_after h).2 t ht
  have hlisted : (Operation.snapshot, t.snapshot) ∈ t.clear.1 :=
    List.mem_map.2 ⟨.snapshot, by decide, rfl⟩
  obtain ⟨-, hcount, htotal, hnone, hmean⟩ := hreport _ _ hlisted
  have hthree : t.snapshot.count.toNat = 3 := hcount.trans (by decide +kernel)
  have hsum : t.snapshot.total.nanoseconds = 4000000001 := htotal.trans (by decide +kernel)
  have haverage : t.snapshot.average? ≠ none := by
    rw [ne_eq, hnone]
    rintro (hzero | hmany)
    · rw [hzero] at hthree
      cases hthree
    · omega
  obtain ⟨mean, haverage⟩ := Option.ne_none_iff_exists'.1 haverage
  refine ⟨t, ht, hlisted, hthree, hsum, mean, haverage, ?_⟩
  rw [hmean mean haverage, hthree, ← htotal, hsum]

/-- What `n` runs of one phase come to, if they fit. -/
lemma exists_after?_replicate (n : ℕ) (op : Operation) (elapsed : Duration)
    (hfits : n * elapsed.nanoseconds < Duration.bound) :
    ∃ t, after? (List.replicate n (.run op elapsed)) = some t ∧
      (t.get op).count = UInt64.ofNat n ∧ (t.get op).total.nanoseconds = n * elapsed.nanoseconds := by
  have hexists : ∃ t, after? (List.replicate n (.run op elapsed)) = some t := by
    refine exists_after?_iff.2 fun h' hstart op' => ?_
    obtain ⟨hle, heq⟩ := List.prefix_replicate_iff.1 hstart
    rw [heq, TimingEvent.total_replicate]
    split
    · exact (Nat.mul_le_mul_right _ hle).trans_lt hfits
    · exact (Nat.zero_le _).trans_lt hfits
  obtain ⟨t, ht⟩ := hexists
  have htells := tells_of_after? ht
  refine ⟨t, ht, ?_, ?_⟩
  · rw [htells.count, TimingEvent.runs_replicate, if_pos rfl, List.length_replicate]
  · rw [htells.total, TimingEvent.total_replicate, if_pos rfl]

/-- After 2³² runs of one nanosecond there is a report, but no mean time in it. -/
theorem exists_without_average :
    ∃ h t, after? h = some t ∧ (∀ h', h' <+: h → ∀ op, total h' op < 2 ^ 64 * 1000000000) ∧
      (Operation.analysis, t.analysis) ∈ t.clear.1 ∧ t.analysis.count.toNat = 2 ^ 32 ∧
      t.analysis.total.nanoseconds = 2 ^ 32 ∧ t.analysis.average? = none := by
  obtain ⟨t, ht, hcount, htotal⟩ := exists_after?_replicate (2 ^ 32) .analysis ⟨0, 1, by decide⟩ (by decide)
  have hmany : t.analysis.count.toNat = 2 ^ 32 := (congrArg UInt64.toNat hcount).trans (by decide)
  exact ⟨_, t, ht, exists_after?_iff.1 ⟨t, ht⟩, List.mem_map.2 ⟨.analysis, by decide, rfl⟩, hmany, htotal,
    Timing.average?_eq_none_iff.2 (.inr hmany.ge)⟩

end Timings

end IncludeDeps
