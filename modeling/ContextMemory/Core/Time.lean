/-
Offset-aware instants, as `datetime` carries them through the pipeline.

An instant is a whole number of microseconds since the Unix epoch together with
the UTC offset it was written with. Comparison and equality in the source are by
instant; only `isoformat` reads the offset. The graph stores whole epoch seconds:
`timestamp` is `int(dt.timestamp())`, which drops the fraction towards zero, and
`fromTimestamp` is what the graph is read back with. (`dt.timestamp()` is a
binary64; up to the year 2514 its truncation is the exact one below.)
-/

import Mathlib.Order.Basic
import Mathlib.Data.Int.Order.Basic

namespace ContextMemory

/-- An offset-aware `datetime`. -/
structure DateTime where
  micros : Int
  utcOffset : Int := 0
deriving DecidableEq, Repr

namespace DateTime

instance : LE DateTime := ⟨fun a b => a.micros ≤ b.micros⟩
instance : LT DateTime := ⟨fun a b => a.micros < b.micros⟩
instance (a b : DateTime) : Decidable (a ≤ b) := inferInstanceAs (Decidable (a.micros ≤ b.micros))
instance (a b : DateTime) : Decidable (a < b) := inferInstanceAs (Decidable (a.micros < b.micros))

theorem le_def {a b : DateTime} : a ≤ b ↔ a.micros ≤ b.micros := Iff.rfl
theorem lt_def {a b : DateTime} : a < b ↔ a.micros < b.micros := Iff.rfl

/-- `int(dt.timestamp())`. -/
def timestamp (dt : DateTime) : Int := dt.micros.tdiv 1000000

/-- `datetime.fromtimestamp(s, tz=timezone.utc)`; it raises outside the years 1 to 9999. -/
def fromTimestamp (seconds : Int) : Option DateTime :=
  if -62135596800 ≤ seconds ∧ seconds ≤ 253402300799 then some ⟨seconds * 1000000, 0⟩ else none

/-- A whole-second instant: nothing is lost on the way through the graph. -/
def WholeSecond (dt : DateTime) : Prop := dt.timestamp * 1000000 = dt.micros

instance (dt : DateTime) : Decidable dt.WholeSecond :=
  inferInstanceAs (Decidable (dt.timestamp * 1000000 = dt.micros))

theorem fromTimestamp_eq_some {seconds : Int} {dt : DateTime}
    (h : fromTimestamp seconds = some dt) : dt.micros = seconds * 1000000 := by
  unfold fromTimestamp at h
  split at h
  · cases h; rfl
  · cases h

/-- Left-pad a decimal numeral with zeros. -/
def pad (width : Nat) (n : Nat) : String :=
  let digits := toString n
  String.ofList (List.replicate (width - digits.length) '0') ++ digits

/-- The proleptic Gregorian date of a day number counted from 1970-01-01. -/
def civil (days : Int) : Int × Nat × Nat :=
  let z := days + 719468
  let era := z.fdiv 146097
  let doe := (z - era * 146097).toNat
  let yoe := (doe - doe / 1460 + doe / 36524 - doe / 146096) / 365
  let doy := doe - (365 * yoe + yoe / 4 - yoe / 100)
  let mp := (5 * doy + 2) / 153
  let day := doy - (153 * mp + 2) / 5 + 1
  let month := if mp < 10 then mp + 3 else mp - 9
  ((yoe : Int) + era * 400 + (if month ≤ 2 then 1 else 0), month, day)

/-- `dt.isoformat()`. -/
def isoformat (dt : DateTime) : String :=
  let wall := dt.micros + dt.utcOffset * 1000000
  let days := wall.fdiv 86400000000
  let rest := (wall - days * 86400000000).toNat
  let (year, month, day) := civil days
  let seconds := rest / 1000000
  let fraction := rest % 1000000
  let shift := dt.utcOffset.natAbs
  pad 4 year.toNat ++ "-" ++ pad 2 month ++ "-" ++ pad 2 day ++ "T" ++
    pad 2 (seconds / 3600) ++ ":" ++ pad 2 (seconds / 60 % 60) ++ ":" ++ pad 2 (seconds % 60) ++
    (if fraction = 0 then "" else "." ++ pad 6 fraction) ++
    (if dt.utcOffset < 0 then "-" else "+") ++ pad 2 (shift / 3600) ++ ":" ++ pad 2 (shift / 60 % 60) ++
    (if shift % 60 = 0 then "" else ":" ++ pad 2 (shift % 60))

example : isoformat ⟨1768035600250000, 0⟩ = "2026-01-10T09:00:00.250000+00:00" := by decide +kernel

end DateTime

end ContextMemory
