/-!
Signals: their numbers, their names and what is said of a process that one has ended.
-/

namespace SpecUpgrade.Machine

def signalTable : List (String × String) :=
  [("HUP", "Hangup"), ("INT", "Interrupt"), ("QUIT", "Quit"), ("ILL", "Illegal instruction"),
   ("TRAP", "Trace/breakpoint trap"), ("ABRT", "Aborted"), ("BUS", "Bus error"),
   ("FPE", "Floating point exception"), ("KILL", "Killed"), ("USR1", "User defined signal 1"),
   ("SEGV", "Segmentation fault"), ("USR2", "User defined signal 2"), ("PIPE", "Broken pipe"),
   ("ALRM", "Alarm clock"), ("TERM", "Terminated"), ("STKFLT", "Stack fault"),
   ("CHLD", "Child exited"), ("CONT", "Continued"), ("STOP", "Stopped (signal)"),
   ("TSTP", "Stopped"), ("TTIN", "Stopped (tty input)"), ("TTOU", "Stopped (tty output)"),
   ("URG", "Urgent I/O condition"), ("XCPU", "CPU time limit exceeded"),
   ("XFSZ", "File size limit exceeded"), ("VTALRM", "Virtual timer expired"),
   ("PROF", "Profiling timer expired"), ("WINCH", "Window changed"), ("IO", "I/O possible"),
   ("PWR", "Power failure"), ("SYS", "Bad system call")]

def signalInterrupt : Nat := 2

def signalQuit : Nat := 3

def signalKill : Nat := 9

def signalPipe : Nat := 13

def signalTerminate : Nat := 15

/-- The number after the last one of a signal. -/
def signalEnd : Nat := 65

/-- The first number of the signals without a meaning, and the last. -/
def signalFree : Nat × Nat := (34, 64)

/-- The name of a signal; one without a name has its number. -/
def signalName (number : Nat) : String :=
  let (first, last) := signalFree
  if number = 0 then "EXIT"
  else if number = 16 then "16"
  else
    match signalTable[number - 1]? with
    | some (name, _) => name
    | none =>
      if number < first || last < number then Nat.repr number
      else if number = first then "RTMIN"
      else if number = last then "RTMAX"
      else if number < first + 16 then "RTMIN+" ++ Nat.repr (number - first)
      else "RTMAX-" ++ Nat.repr (last - number)

/-- The signal of a name in large or small letters. -/
def signalOfName? (name : String) : Option Nat :=
  (List.range signalEnd).find? fun n => signalName n == name.toUpper

def signalText (number : Nat) : String :=
  if number = 0 then "Unknown signal 0"
  else ((signalTable[number - 1]?).map (·.2)).getD ("Unknown signal " ++ Nat.repr number)

/-- Signals that end no process by themselves. -/
def isHarmless (number : Nat) : Bool := [17, 18, 23, 28].contains number

/-- Signals that stop a process until it is continued. -/
def isPausing (number : Nat) : Bool := [19, 20, 21, 22].contains number

end SpecUpgrade.Machine
