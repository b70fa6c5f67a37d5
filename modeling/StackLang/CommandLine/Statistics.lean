import StackLang.Machine.Stats
import StackLang.Text.Decimal

/-!
# The statistics of a call

What a call of the program writes about its run if it is asked to: how long it took, how many
instructions that makes in a second, and the counters. The rate is a binary fraction of 64 bits, and
is rounded once more when it is written with one decimal.
-/

set_option autoImplicit false

namespace StackLang.CommandLine

open Text (natDigits natText)

/-- A number of units with decimals, from a number of parts of which `unit` make a unit, a power of
ten with this number of places. There are no zeros at the end, and no point without decimals. -/
def decimalText (unit places parts : Nat) : String :=
  let digits := natDigits (parts % unit)
  let decimals := List.replicate (places - digits.length) '0' ++ digits
  natText (parts / unit) ++
    if parts % unit = 0 then ""
    else "." ++ String.ofList (decimals.reverse.dropWhile (· == '0')).reverse

/-- A duration, in the largest unit that fits into it. -/
def durationText (nanoseconds : Nat) : String :=
  if 1000000000 ≤ nanoseconds then decimalText 1000000000 9 nanoseconds ++ "s"
  else if 1000000 ≤ nanoseconds then decimalText 1000000 6 nanoseconds ++ "ms"
  else if 1000 ≤ nanoseconds then decimalText 1000 3 nanoseconds ++ "µs"
  else natText nanoseconds ++ "ns"

example : durationText 1050000000 = "1.05s" ∧ durationText 2000 = "2µs" ∧
    durationText 0 = "0ns" := by decide +kernel

/-- The integer nearest to a fraction, and the even one of two that are as near. -/
def roundHalfEven (n d : Nat) : Nat :=
  if 2 * (n % d) < d ∨ (2 * (n % d) = d ∧ n / d % 2 = 0) then n / d else n / d + 1

/-- A number that is not negative, with one decimal. -/
def tenthsText (x : Float) : String :=
  let fraction := x.toBits.toNat % (1 <<< 52)
  let exponent := (x.toBits.toNat >>> 52) % 2048
  if exponent = 2047 then
    if fraction = 0 then "inf" else "NaN"
  else
    -- the number is this integer, times two to the power of its exponent less 1075
    let significand := if exponent = 0 then fraction else (1 <<< 52) + fraction
    let tenths := roundHalfEven ((10 * significand) <<< max exponent 1) (1 <<< 1075)
    natText (tenths / 10) ++ "." ++ natText (tenths % 10)

/-- How often something happens in a second, in thousands or in millions if it is that often. -/
def rateText (count nanoseconds : Nat) : String :=
  let seconds := (nanoseconds / 1000000000).toUInt64.toFloat +
    (nanoseconds % 1000000000).toUInt64.toFloat / 1e9
  let rate := count.toUInt64.toFloat / seconds
  if 1e6 ≤ rate then tenthsText (rate / 1e6) ++ "M"
  else if 1e3 ≤ rate then tenthsText (rate / 1e3) ++ "k"
  else tenthsText rate

/-- A tie goes to the even digit, and in no time everything happens infinitely often. -/
example : rateText 1 4000000000 = "0.2" ∧ rateText 1550 1000000000 = "1.6k" ∧
    rateText 7 0 = "infM" := by decide +kernel

/-- The statistics of a run in words. -/
def statsLines (nanoseconds : Nat) (s : Stats) : List String :=
  ["Execution time: " ++ durationText nanoseconds,
   "Instructions executed: " ++ natText s.instructions ++ " (" ++
     rateText s.instructions nanoseconds ++ "/s)",
   "Function calls: " ++ natText s.calls ++ " (max depth " ++ natText s.maxDepth ++ ")",
   "Values printed: " ++ natText s.outputs,
   "Max stack size: " ++ natText s.maxHeight]

end StackLang.CommandLine
