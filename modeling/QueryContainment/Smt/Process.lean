import QueryContainment.Smt.Settings
import QueryContainment.Smt.Signal
import QueryContainment.Text.Utf8

namespace QueryContainment.Smt

open Text (Bytes)

/-- How a process ends. -/
inductive Ending where
  | exited (status : Nat)
  | killed (signal : Nat)
deriving DecidableEq, Repr

structure Finished where
  output : Bytes
  errors : Bytes
  ending : Ending
deriving Repr

/-- Why a process does not start. -/
inductive StartFailure where
  | notFound
  | other (detail : String)
deriving DecidableEq, Repr

/-- What a program does, given its arguments and its input. The solver is such a program. -/
abbrev Program := List String → Bytes → Except StartFailure Finished

def Ending.text : Ending → String
  | .exited status => "exit status: " ++ toString status
  | .killed signal =>
    "signal: " ++ toString signal ++ ((signalName? signal).map fun s => " (" ++ s ++ ")").getD ""

def StartFailure.toFailure (program : String) : StartFailure → Failure
  | .notFound => .unavailable ("z3 binary " ++ program ++ " not found")
  | .other detail => .communication detail

def start (s : Settings) (program : Program) (arguments : List String) (input : Bytes) :
    Except Failure Finished :=
  (program arguments input).mapError (StartFailure.toFailure s.program)

namespace Settings

/-- The arguments for a formula that is read from the input. -/
def arguments (s : Settings) : List String :=
  ["-in", "-smt2", "-t:" ++ toString s.timeout]
    ++ (s.memoryLimit.map fun n => "-memory:" ++ toString n).toList

/-- The version that a program gives of itself. -/
def version (s : Settings) (program : Program) : Except Failure String := do
  let r ← start s program ["--version"] []
  match r.ending with
  | .exited 0 => return String.ofList (Text.trim (Text.decode r.output).toList)
  | ending =>
    throw (.unavailable (s.program ++ " --version exited with " ++ ending.text))

/-- The reply of a program to a formula: its output, or its errors if the output is blank. -/
def evaluate (s : Settings) (program : Program) (formula : String) : Except Failure String := do
  let r ← start s program s.arguments (Text.encode formula)
  let output := Text.decode r.output
  return if output.toList.all Text.isBlank then Text.decode r.errors else output

end Settings

end QueryContainment.Smt
