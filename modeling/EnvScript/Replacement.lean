import EnvScript.Glob.Matcher
import EnvScript.Spec

/-!
# Replacing matches

`${NAME/pattern/replacement}`. The text is scanned from the left, and what the pattern matches at a
position, unless it is nothing, gives way to the replacement.
-/

namespace EnvScript

/-- Replaces the matches in a text, or with `all = false` the first of them. -/
def replaceMatches (steps : Steps) (replacement : Text) (all : Bool) : Text → Text
  | [] => []
  | c :: t =>
    match matchLength steps (c :: t) with
    | some (n + 1) =>
      replacement ++ if all then replaceMatches steps replacement all (t.drop n) else t.drop n
    | _ => c :: replaceMatches steps replacement all t
termination_by t => t.length
decreasing_by
  · simp only [List.length_drop, List.length_cons]
    omega
  · simp

/-- Applies a replace spec `pattern/replacement`. An empty pattern matches nothing. -/
def Spec.replace (limits : Limits) (origin spec : Text) (all : Bool) : Except EvalError Text :=
  match Spec.split '/' spec with
  | none => .error (.missingSeparator spec)
  | some (pattern, replacement) =>
    if pattern.isEmpty then .ok origin
    else
      (compilePattern limits.pattern pattern).map fun steps =>
        replaceMatches steps (Spec.unescape replacement) all origin

end EnvScript
