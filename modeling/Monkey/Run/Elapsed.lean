import Monkey.Number.Digits

/-!
# Elapsed time

A span of time in whole milliseconds, and its text: `0s`, `12ms`, `1.5s`,
`1m5s`, `1h0m2.25s`. Hours are written when there are any, minutes when there
are any or hours are written, and the fraction of a second without the zeros at
its end.
-/

namespace Monkey

/-- A span of time, in whole milliseconds. -/
structure Elapsed where
  millis : Nat
deriving DecidableEq, Repr, Inhabited

namespace Elapsed

/-- The span of some seconds and nanoseconds. Parts of a millisecond are dropped. -/
def ofSeconds (seconds nanos : Nat) : Elapsed :=
  ⟨seconds * 1000 + nanos / 1000000⟩

/-- Digits after the point for a fraction in thousandths, none for zero. -/
def fraction (thousandths : Nat) : String :=
  if thousandths = 0 then ""
  else
    let digits := (padded 3 thousandths).toList
    "." ++ String.ofList (digits.reverse.dropWhile (· == '0')).reverse

/-- Text of a span of at least a second. -/
def clock (millis : Nat) : String :=
  let hours := millis / 3600000
  let minutes := millis / 60000 % 60
  let seconds := millis / 1000 % 60
  (if hours = 0 then "" else toString hours ++ "h") ++
    (if hours = 0 ∧ minutes = 0 then "" else toString minutes ++ "m") ++
    toString seconds ++ fraction (millis % 1000) ++ "s"

/-- Text of a span. -/
def render (e : Elapsed) : String :=
  if e.millis = 0 then "0s"
  else if e.millis < 1000 then toString e.millis ++ "ms"
  else clock e.millis

end Elapsed

end Monkey
