/-!
# Limits

Bounds on the work that one script may cause. They are integers, so that a bound below zero
refuses everything.
-/

namespace EnvScript

structure Limits where
  /-- Code points in a script. -/
  inputSize : Int := 1000000
  tokens : Int := 100000
  /-- Rounds of the grammar's loops. -/
  iterations : Int := 1000000
  /-- Double quotes and `${…}` inside each other in one word. -/
  nesting : Int := 64
  /-- Length of a pattern's regular expression. -/
  pattern : Int := 10000
  deriving DecidableEq, Repr

end EnvScript
