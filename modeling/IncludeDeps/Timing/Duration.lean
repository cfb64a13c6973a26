/-!
# Durations

A `Duration` is a number of seconds in 64 bits, and nanoseconds that do not make another second.

* `Duration.make?` carries nanoseconds over to the seconds;
* `Duration.add?` is the sum, as long as its seconds fit into 64 bits;
* `Duration.div?` is one of several equal parts, in whole nanoseconds.
-/

namespace IncludeDeps

/-- A span of time. -/
structure Duration where
  /-- The whole seconds. -/
  seconds : UInt64 := 0
  /-- The nanoseconds beyond them. -/
  nanos : UInt32 := 0
  /-- They do not make another second. -/
  nanos_lt : nanos < 1000000000 := by decide
deriving DecidableEq

namespace Duration

/-- No time at all. -/
def zero : Duration := {}

instance : Inhabited Duration := ⟨zero⟩

/-- The nanoseconds of a second. -/
def perSecond : UInt32 := 1000000000

/-- All of a duration in nanoseconds. -/
def nanoseconds (d : Duration) : Nat := 1000000000 * d.seconds.toNat + d.nanos.toNat

/-- More seconds, if they fit. -/
def plus? (seconds more : UInt64) : Option UInt64 :=
  if seconds.toNat + more.toNat < UInt64.size then some (seconds + more) else none

/-- The duration of seconds and nanoseconds, which may make further seconds. -/
def make? (seconds : UInt64) (nanos : UInt32) : Option Duration :=
  if h : nanos < perSecond then some ⟨seconds, nanos, h⟩
  else (plus? seconds (nanos / perSecond).toUInt64).map fun seconds =>
    ⟨seconds, nanos % perSecond, UInt32.mod_lt nanos (by decide)⟩

/-- The sum of two durations, if it fits. -/
def add? (d e : Duration) : Option Duration := do
  let seconds ← plus? d.seconds e.seconds
  let nanos := d.nanos + e.nanos
  if nanos < perSecond then make? seconds nanos
  else
    let seconds ← plus? seconds 1
    make? seconds (nanos - perSecond)

/-- One of `n` parts of a duration.  What is left of the seconds goes on to the nanoseconds. -/
def div? (d : Duration) (n : UInt32) : Option Duration :=
  if n = 0 then none
  else
    let left := (d.seconds % n.toUInt64) * perSecond.toUInt64 + (d.nanos % n).toUInt64
    make? (d.seconds / n.toUInt64) (d.nanos / n + (left / n.toUInt64).toUInt32)

end Duration

end IncludeDeps
