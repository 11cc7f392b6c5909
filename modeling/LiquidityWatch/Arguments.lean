import LiquidityWatch.Value

/-! # Arguments

What is handed over to something with named parameters. Arguments come in order or by name. The
parameters that may be left out stand after the others and have defaults. -/

namespace LiquidityWatch

/-- The parameters of something that messages call `owner`. -/
structure Signature where
  owner : String
  required : List String
  optional : List (String × Value)

namespace Signature

/-- Messages count what the arguments are handed to as the first one, under this name. -/
def receiver : String := "self"

def parameters (s : Signature) : List String := s.required ++ s.optional.map Prod.fst

/-- A named argument has a parameter that none of the arguments in order has taken. -/
def checkNamed (s : Signature) (taken : List String) (name : Text) : Except Fault Unit :=
  if (receiver :: taken).any fun parameter => name == parameter then
    .error (.repeatedArgument s.owner name)
  else if s.parameters.any fun parameter => name == parameter then .ok ()
  else .error (.unexpectedArgument s.owner name)

/-- The value of each parameter. Of several faults those of named arguments come first, then a
surplus of arguments, then missing ones. -/
def bind (s : Signature) (ordered : List Value) (named : List (Text × Value)) :
    Except Fault (List (Text × Value)) := do
  let taken := s.parameters.take ordered.length
  named.forM fun argument => s.checkNamed taken argument.1
  let most := s.parameters.length + 1
  if most ≤ ordered.length then
    throw (.tooManyArguments s.owner (s.required.length + 1) most (ordered.length + 1))
  let given := (taken.map Text.ofString).zip ordered ++ named
  match s.required.filter fun (name : String) => (Value.lookup name given).isNone with
  | [] => return given ++ s.optional.map fun (name, default) => (Text.ofString name, default)
  | missing => throw (.missingArguments s.owner missing)

end Signature

end LiquidityWatch
