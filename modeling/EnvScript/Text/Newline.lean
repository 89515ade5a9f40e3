import EnvScript.Text

/-!
# Line endings

Text files may end their lines with a newline, a carriage return or both.
-/

namespace EnvScript

/-- Makes every line ending a newline. -/
def foldNewlines (t : Text) : Text :=
  let step (state : Text × Bool) (c : Char) : Text × Bool :=
    let (done, afterReturn) := state
    if c = '\r' then ('\n' :: done, true)
    else if c = '\n' ∧ afterReturn = true then (done, false)
    else (c :: done, false)
  (t.foldl step ([], false)).1.reverse

end EnvScript
