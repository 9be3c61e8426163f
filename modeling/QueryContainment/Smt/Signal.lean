namespace QueryContainment.Smt

def signalNames : List String :=
  [ "HUP", "INT", "QUIT", "ILL", "TRAP", "ABRT", "BUS", "FPE", "KILL", "USR1", "SEGV", "USR2",
    "PIPE", "ALRM", "TERM", "STKFLT", "CHLD", "CONT", "STOP", "TSTP", "TTIN", "TTOU", "URG", "XCPU",
    "XFSZ", "VTALRM", "PROF", "WINCH", "IO", "PWR", "SYS" ]

def shortSignalName? : Nat → Option String
  | 0 => none
  | n + 1 => signalNames[n]?

def signalName? (n : Nat) : Option String := (shortSignalName? n).map ("SIG" ++ ·)

end QueryContainment.Smt
