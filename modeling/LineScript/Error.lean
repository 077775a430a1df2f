/-
# Errors of evaluation

Each error ends the evaluation of a whole unit, through every block and call it is nested in.
-/

import LineScript.Token

namespace LineScript

/-- Why an evaluation failed. -/
inductive Error where
  /-- A variable was used that has no value. -/
  | unknownVariable (name : Text)
  /-- A command was called that is neither a procedure nor a primitive. -/
  | unknownCommand (name : Text)
  /-- The named command got a wrong number of arguments. -/
  | wrongArity (command : Text)
  /-- An argument that has to be a number is none. -/
  | notNumber (argument : Text)
  /-- A block was never closed; `code` is what had been collected of it. -/
  | unclosedBlock (code : Text)
  /-- Output could not be written. -/
  | outputFailed (reason : Text)
deriving DecidableEq, Repr

namespace Error

/-- The wording of an error. -/
def message : Error → Text
  | unknownVariable name => "undeclared identifier ".toList ++ name
  | unknownCommand name => "undeclared command ".toList ++ name
  | wrongArity command => "wrong number of arguments in ".toList ++ command
  | notNumber argument => "invalid argument ".toList ++ argument
  | unclosedBlock code => "invalid syntax in ".toList ++ code
  | outputFailed reason => "I/O error: ".toList ++ reason

end Error
end LineScript
