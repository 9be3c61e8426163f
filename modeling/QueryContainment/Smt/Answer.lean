import QueryContainment.Smt.Failure
import QueryContainment.Text.Blank

namespace QueryContainment.Smt

inductive Answer where
  | sat
  | unsat
deriving DecidableEq, Repr

/-- Reads the first line that is not blank. Anything but `sat` and `unsat` is no answer. -/
def Answer.ofReply (reply : String) : Except Failure Answer :=
  let line := Text.trim (Text.firstLine (Text.trimStart reply.toList))
  if line = "sat".toList then .ok .sat
  else if line = "unsat".toList then .ok .unsat
  else .error (.unexpectedReply (String.ofList (Text.trim reply.toList)))

end QueryContainment.Smt
