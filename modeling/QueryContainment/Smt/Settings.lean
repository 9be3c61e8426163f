import QueryContainment.Smt.Failure
import QueryContainment.Text.Blank

namespace QueryContainment.Smt

structure Settings where
  /-- The solver's program; a bare name is looked up in the search path. -/
  program : String := "z3"
  /-- The time for a single formula, in milliseconds. -/
  timeout : Nat := 60000
  /-- The limit on memory in megabytes. -/
  memoryLimit : Option Nat := none
deriving DecidableEq, Repr

namespace Settings

def timeoutVariable : String := "Z3_TIMEOUT_MS"

def digitsValue (digits : List Char) : Nat :=
  digits.foldl (fun n c => 10 * n + (c.toNat - 48)) 0

def readNumber (s : List Char) : Option Nat :=
  let digits := match s with
    | '+' :: rest => rest
    | s => s
  if !digits.isEmpty && digits.all Char.isDigit && digitsValue digits < Nat.pow 2 64 then
    some (digitsValue digits)
  else none

def override (s : Settings) (program timeout : Option String) : Except Failure Settings :=
  let s := match program with
    | some path => if path.isEmpty then s else { s with program := path }
    | none => s
  match timeout with
  | none => .ok s
  | some raw =>
    match readNumber (Text.trim raw.toList) with
    | some milliseconds => .ok { s with timeout := milliseconds }
    | none => .error (.configuration
        (timeoutVariable ++ " must be a number of milliseconds, got '" ++ raw ++ "'"))

def ofEnvironment (program timeout : Option String) : Except Failure Settings :=
  override {} program timeout

end Settings

end QueryContainment.Smt
