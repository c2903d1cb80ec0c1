import StateHistory.Number.Binary64

/-! # Delays between attempts

The delay before the next attempt grows by a factor from attempt to attempt, up to a limit, and goes
back to where it started once an attempt was worth while. Delays are counted in milliseconds. The
delay that is waited deviates from the current one by at most a quarter, so that many clients do not
come back at once. -/

namespace StateHistory

/-- The state of growing delays. -/
structure Delay where
  initial : Nat
  limit : Nat
  factor : Binary64
  current : Nat
deriving DecidableEq, Repr

namespace Delay

/-- Delays that start at `initial`, which is cut to the limit. -/
def start (initial limit : Nat) (factor : Binary64) : Delay :=
  ⟨initial, limit, factor, min initial limit⟩

/-- A number of milliseconds times a factor, without its fraction. -/
def scaled (millis : Nat) (factor : Binary64) : Nat :=
  ((Binary64.ofNat millis).mul factor).truncate

/-- The delay to wait, for a deviation between `minJitter` and `maxJitter`. -/
def wait (d : Delay) (jitter : Binary64) : Nat := scaled d.current jitter

/-- The smallest deviation, three quarters. -/
def minJitter : Binary64 := Binary64.ofDecimal false 75 (-2)

/-- The largest deviation, five quarters. -/
def maxJitter : Binary64 := Binary64.ofDecimal false 125 (-2)

/-- The delays after one attempt more. -/
def next (d : Delay) : Delay := { d with current := min (scaled d.current d.factor) d.limit }

/-- The delays after an attempt that was worth while. -/
def reset (d : Delay) : Delay := { d with current := min d.initial d.limit }

end Delay

end StateHistory
