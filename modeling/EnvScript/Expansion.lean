import EnvScript.Context
import EnvScript.Replacement
import EnvScript.Substring
import EnvScript.Word

/-!
# Expansion

The text that a word stands for in a context. In the spec of a substitution, quoted and escaped
characters keep a backslash before them, so that they mean themselves there, while the values of
unquoted parameters are taken as they are.
-/

namespace EnvScript

def Parameter.value (context : Context) : Parameter → Except EvalError Text
  | .special _ => .error .unsupportedParameter
  | .var name =>
    match context.get? name with
    | some value => .ok value
    | none => .error (.unsetVariable name)

/-- The value to which an operation is applied. -/
def Parameter.origin (context : Context) : Parameter → Except EvalError Text
  | .special _ => .error .unsupportedParameter
  | .var name =>
    match context.get? name with
    | some value => .ok value
    | none => .error (.unsetOrigin name)

def Operation.apply (limits : Limits) (origin spec : Text) : Operation → Except EvalError Text
  | .replace => Spec.replace limits origin spec false
  | .replaceAll => Spec.replace limits origin spec true
  | .substring => Spec.substring origin spec

/-- What an escaped character stands for; an escaped newline stands for nothing. -/
def escapedText (t : Text) : Text := if t = ['\n'] then [] else t

/-- An escaped character as it stands in a spec. -/
def escapedSpec (t : Text) : Text := if t = ['\n'] then [] else '\\' :: t

/-- Text as it stands in a spec, in quotes or not. -/
def quotedSpec (quoted : Bool) (t : Text) : Text := if quoted then Spec.escape t else t

mutual

def expandPart (limits : Limits) (context : Context) : Part → Except EvalError Text
  | .literal text | .single text => .ok text
  | .escaped text => .ok (escapedText text)
  | .double parts => expandWord limits context parts
  | .colon => .ok [':']
  | .parameter p => p.value context
  | .substitution p op raw => do
    let origin ← p.origin context
    let spec ← expandSpec limits context false raw
    op.apply limits origin spec
  | .specless p _ => do
    discard (p.origin context)
    throw .missingSpec
  | .unsupported _ operator => .error (.unsupportedOperator operator)
  | .glob text => .error (.wildcard text)
  | .tilde _ => .error .tilde
  | .command .. => .error .commandSubstitution
  | .arithmetic _ => .error .arithmeticExpansion

def expandWord (limits : Limits) (context : Context) : List Part → Except EvalError Text
  | [] => .ok []
  | part :: parts => do
    let text ← expandPart limits context part
    let rest ← expandWord limits context parts
    return text ++ rest

/-- A part of a spec, inside of double quotes if `quoted`. -/
def expandSpecPart (limits : Limits) (context : Context) (quoted : Bool) :
    Part → Except EvalError Text
  | .literal text => .ok (quotedSpec quoted text)
  | .single text => .ok (Spec.escape text)
  | .escaped text => .ok (escapedSpec text)
  | .double parts => expandSpec limits context true parts
  | .colon => .ok [':']
  | .parameter p => (p.value context).map (quotedSpec quoted)
  | .substitution p op raw => do
    let origin ← p.origin context
    let spec ← expandSpec limits context false raw
    (op.apply limits origin spec).map (quotedSpec quoted)
  | .specless p _ => do
    discard (p.origin context)
    throw .missingSpec
  | .unsupported _ operator => .error (.unsupportedOperator operator)
  | .glob text => .error (.wildcard text)
  | .tilde _ => .error .tilde
  | .command .. => .error .commandSubstitution
  | .arithmetic _ => .error .arithmeticExpansion

def expandSpec (limits : Limits) (context : Context) (quoted : Bool) :
    List Part → Except EvalError Text
  | [] => .ok []
  | part :: parts => do
    let text ← expandSpecPart limits context quoted part
    let rest ← expandSpec limits context quoted parts
    return text ++ rest

end

end EnvScript
