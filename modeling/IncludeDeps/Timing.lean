import IncludeDeps.Timing.Duration

/-!
# Timings

How often each phase of the work ran and how long it took altogether.

* `Operation` names the phases;
* `Timings.record?` adds one run, `Timings.clear` starts afresh;
* `Timing.average?` is the mean time of a run, in whole nanoseconds.
-/

namespace IncludeDeps

/-- A phase of the work. -/
inductive Operation where
  /-- The analysis of all sources of a task. -/
  | analysis
  /-- Reading one file. -/
  | snapshot
  /-- A compilation step, with what goes on around the compiler. -/
  | compileProcessing
  /-- The compiler itself. -/
  | compileExecution
deriving DecidableEq, Inhabited

namespace Operation

/-- The phases in the order of reports. -/
def all : List Operation := [analysis, snapshot, compileProcessing, compileExecution]

/-- The name of a phase. -/
def name : Operation → String
  | analysis => "analysis"
  | snapshot => "snapshot"
  | compileProcessing => "compile processing"
  | compileExecution => "compile execution"

/-- The name with blanks in front of it, at least `width` characters long. -/
def nameRight (op : Operation) (width : Nat) : String :=
  String.ofList (List.replicate (width - op.name.toList.length) ' ' ++ op.name.toList)

/-- The first characters of the name. -/
def nameStart (op : Operation) (count : Nat) : String := String.ofList (op.name.toList.take count)

end Operation

/-- The runs of one phase. -/
structure Timing where
  /-- How many there were. -/
  count : UInt64 := 0
  /-- How long they took altogether. -/
  total : Duration := .zero
deriving DecidableEq, Inhabited

namespace Timing

/-- Adds a run that took `elapsed`, if the time that all runs took fits into a duration. -/
def record? (t : Timing) (elapsed : Duration) : Option Timing :=
  (t.total.add? elapsed).map fun total => ⟨t.count + 1, total⟩

/-- The mean time of a run, rounded down.  There is none without a run, and none is given for more runs
than fit into 32 bits. -/
def average? (t : Timing) : Option Duration :=
  if t.count = 0 then none
  else if t.count.toNat < UInt32.size then t.total.div? t.count.toUInt32
  else none

end Timing

/-- The runs of all phases. -/
structure Timings where
  /-- The runs of `Operation.analysis`. -/
  analysis : Timing := {}
  /-- The runs of `Operation.snapshot`. -/
  snapshot : Timing := {}
  /-- The runs of `Operation.compileProcessing`. -/
  compileProcessing : Timing := {}
  /-- The runs of `Operation.compileExecution`. -/
  compileExecution : Timing := {}
deriving DecidableEq, Inhabited

namespace Timings

/-- The runs of one phase. -/
def get (t : Timings) : Operation → Timing
  | .analysis => t.analysis
  | .snapshot => t.snapshot
  | .compileProcessing => t.compileProcessing
  | .compileExecution => t.compileExecution

/-- Puts `r` in the place of the runs of one phase. -/
def set (t : Timings) (op : Operation) (r : Timing) : Timings :=
  match op with
  | .analysis => { t with analysis := r }
  | .snapshot => { t with snapshot := r }
  | .compileProcessing => { t with compileProcessing := r }
  | .compileExecution => { t with compileExecution := r }

/-- Adds a run of `op` that took `elapsed`. -/
def record? (t : Timings) (op : Operation) (elapsed : Duration) : Option Timings :=
  ((t.get op).record? elapsed).map (t.set op)

/-- The runs of every phase, in the order of reports. -/
def report (t : Timings) : List (Operation × Timing) := Operation.all.map fun op => (op, t.get op)

/-- The report, and the timings that start afresh after it. -/
def clear (t : Timings) : List (Operation × Timing) × Timings := (t.report, {})

end Timings

end IncludeDeps
