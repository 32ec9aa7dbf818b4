/-! # Signals

A process ends with a status, or through a signal that has been sent to it.
-/

namespace CodeIndex.Shell

structure Signal where
  number : Nat
  name : String
  /-- What the shell says about a process that the signal has ended. -/
  description : String
  /-- Whether the signal ends a process that does not provide for it. -/
  isDeadly : Bool := true
deriving DecidableEq, Repr

namespace Signal

def all : List Signal :=
  [⟨1, "HUP", "Hangup", true⟩, ⟨2, "INT", "Interrupt", true⟩, ⟨3, "QUIT", "Quit", true⟩,
    ⟨4, "ILL", "Illegal instruction", true⟩, ⟨5, "TRAP", "Trace/breakpoint trap", true⟩,
    ⟨6, "ABRT", "Aborted", true⟩, ⟨7, "BUS", "Bus error", true⟩,
    ⟨8, "FPE", "Floating point exception", true⟩, ⟨9, "KILL", "Killed", true⟩,
    ⟨10, "USR1", "User defined signal 1", true⟩, ⟨11, "SEGV", "Segmentation fault", true⟩,
    ⟨12, "USR2", "User defined signal 2", true⟩, ⟨13, "PIPE", "Broken pipe", true⟩,
    ⟨14, "ALRM", "Alarm clock", true⟩, ⟨15, "TERM", "Terminated", true⟩,
    ⟨16, "16", "Stack fault", true⟩, ⟨17, "CHLD", "Child exited", false⟩,
    ⟨18, "CONT", "Continued", false⟩, ⟨19, "STOP", "Stopped (signal)", false⟩,
    ⟨20, "TSTP", "Stopped", false⟩, ⟨21, "TTIN", "Stopped (tty input)", false⟩,
    ⟨22, "TTOU", "Stopped (tty output)", false⟩, ⟨23, "URG", "Urgent I/O condition", false⟩,
    ⟨24, "XCPU", "CPU time limit exceeded", true⟩, ⟨25, "XFSZ", "File size limit exceeded", true⟩,
    ⟨26, "VTALRM", "Virtual timer expired", true⟩, ⟨27, "PROF", "Profiling timer expired", true⟩,
    ⟨28, "WINCH", "Window changed", false⟩, ⟨29, "IO", "I/O possible", true⟩,
    ⟨30, "PWR", "Power failure", true⟩, ⟨31, "SYS", "Bad system call", true⟩]

/-- How many numbers of signals there are, zero among them. -/
def count : Nat := 65

def ofNumber (n : Nat) : Signal :=
  match all.find? (·.number == n) with
  | some s => s
  | none =>
    let name :=
      if n = 34 then "RTMIN"
      else if n = 64 then "RTMAX"
      else if n < 34 then toString n
      else if n < 50 then "RTMIN+" ++ toString (n - 34)
      else "RTMAX-" ++ toString (64 - n)
    ⟨n, name, "Real-time signal " ++ toString (n - 34), true⟩

/-- The signal that a name in either case stands for. -/
def ofName? (name : String) : Option Signal :=
  ((List.range count).drop 1).map ofNumber |>.find? fun s => s.name == name.map Char.toUpper

end Signal

/-- How a process ends. -/
inductive Ending where
  | exited (status : Nat)
  | killed (signal : Nat)
deriving DecidableEq, Repr

namespace Ending

def isSuccess (e : Ending) : Bool :=
  e == .exited 0

/-- The status that a shell gives to a command that ended so. -/
def status : Ending → Nat
  | exited n => n
  | killed n => 128 + n

/-- The name of a signal in the text of an ending, if it has one. -/
def signalName? (n : Nat) : Option String :=
  if n = 16 then some "STKFLT"
  else (Signal.all.find? (·.number == n)).map Signal.name

def text : Ending → String
  | .exited status => "exit status: " ++ toString status
  | .killed signal =>
    "signal: " ++ toString signal ++
      match signalName? signal with
      | some name => " (SIG" ++ name ++ ")"
      | none => ""

end Ending

end CodeIndex.Shell
