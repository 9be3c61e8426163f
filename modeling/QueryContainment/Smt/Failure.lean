namespace QueryContainment.Smt

inductive Failure where
  | communication (detail : String)
  | timeout (milliseconds : Nat)
  | unexpectedReply (reply : String)
  | configuration (detail : String)
  | unavailable (detail : String)
deriving DecidableEq, Repr

def thousandths (n : Nat) : List Char :=
  let digit (k : Nat) := Char.ofNat (48 + k % 10)
  ([digit (n / 100), digit (n / 10), digit n].reverse.dropWhile (· == '0')).reverse

/-- A span of time in the largest of the units `s`, `ms` and `ns` that gives a whole part. -/
def durationText (milliseconds : Nat) : String :=
  if milliseconds = 0 then "0ns"
  else if milliseconds < 1000 then toString milliseconds ++ "ms"
  else
    let fraction := thousandths (milliseconds % 1000)
    toString (milliseconds / 1000)
      ++ (if fraction.isEmpty then "" else "." ++ String.ofList fraction) ++ "s"

def Failure.message : Failure → String
  | .communication detail => "Failed to communicate with the solver: " ++ detail
  | .timeout milliseconds => "The solver did not answer within " ++ durationText milliseconds
  | .unexpectedReply reply => "Unexpected solver response: " ++ reply
  | .configuration detail => "Invalid solver configuration: " ++ detail
  | .unavailable detail => "The solver is not available: " ++ detail

end QueryContainment.Smt
