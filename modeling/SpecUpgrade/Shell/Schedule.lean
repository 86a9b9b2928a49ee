import SpecUpgrade.Shell.Run

/-!
Processes side by side. Of those that can go on the one that has waited longest takes its steps up to
its next pause; when none can, the clock goes on to the next time that one waits for.
-/

namespace SpecUpgrade.Shell

open Machine (Ending)

structure Task where
  process : Process
  wake : Wake
  next : State → Step Ending

structure Schedule where
  machine : Machine
  tasks : List Task

namespace Schedule

/-- A process can write to a pipe, or read from it. -/
def holds (m : Machine) (writing : Bool) (store : Nat) (t : Task) : Bool :=
  t.process.descriptors.any fun (_, o) =>
    match m.opened[o]? with
    | some f => f.target = .pipe store && (if writing then f.writes else f.reads)
    | none => false

/-- A signal for a process that something has been laid down for. -/
def isSignalled (m : Machine) (t : Task) : Bool :=
  m.signals.any fun (n, signal) =>
    n == t.process.number && t.process.traps.any (·.1 == signal)

/-- What a process waits for has come. -/
def isReady (s : Schedule) (t : Task) : Bool :=
  let m := s.machine
  let hasEnded (n : Nat) : Bool := m.ended.any (·.1 == n)
  let size (store : Nat) : Nat := (m.stores.getD store {}).size
  match t.wake with
  | .soon => true
  | .time clock => decide (clock ≤ m.clock)
  | .child n => hasEnded n
  | .childOrSignal n => hasEnded n || isSignalled m t
  | .childUntil n clock => hasEnded n || decide (clock ≤ m.clock)
  | .readable store => size store != 0 || !s.tasks.any (holds m true store)
  | .writable store =>
    decide (size store < Run.pipeCapacity) || !s.tasks.any (holds m false store)
  | .never => false

def isFatal (p : Process) (signal : Nat) : Bool :=
  signal == Machine.signalKill ||
    !(p.ignored.contains signal || p.traps.any (·.1 == signal) || Machine.isHarmless signal ||
      Machine.isPausing signal)

def finish (m : Machine) (n : Nat) (e : Ending) : Machine :=
  { m with
    ended := (n, e) :: m.ended
    running := m.running.filter (· != n)
    signals := m.signals.filter (·.1 != n)
    places := m.places.filter (·.1 != n) }

/-- Ends the processes that a signal has come for which ends them. -/
def deliver (s : Schedule) : Schedule :=
  s.machine.signals.foldl (fun s (n, signal) =>
    match s.tasks.find? (·.process.number == n) with
    | some t =>
      if isFatal t.process signal then
        ⟨finish s.machine n (.killed signal), s.tasks.filter (·.process.number != n)⟩
      else s
    | none => s) s

def ofStart (begin : Body → Run Ending) (start : Start) : Task :=
  ⟨start.process, .soon, begin start.body⟩

def resume (begin : Body → Run Ending) (s : Schedule) (t : Task) : Schedule :=
  let others := s.tasks.filter (·.process.number != t.process.number)
  match t.next ⟨s.machine, t.process, []⟩ with
  | .done result st =>
    let e := match result with
      | .ok e => e
      | .error _ => .exited (st.process.status % 256)
    ⟨finish st.machine t.process.number e, others ++ st.started.map (ofStart begin)⟩
  | .paused wake st next =>
    ⟨{ st.machine with budget := st.machine.budget - 1 },
      others ++ st.started.map (ofStart begin) ++ [⟨st.process, wake, next⟩]⟩

def nextTime? (s : Schedule) : Option Nat :=
  s.tasks.foldl (fun best t =>
    let time := match t.wake with
      | .time clock => some clock
      | .childUntil _ clock => some clock
      | _ => none
    match time, best with
    | some clock, some b => some (min clock b)
    | some clock, none => some clock
    | none, best => best) none

/-- Runs processes until `isOver`, or until time is up or nothing can happen any more; then there is
no answer but the machine as it is. -/
def run (begin : Body → Run Ending) (isOver : Schedule → Bool) : Nat → Schedule → Bool × Schedule
  | 0, s => (false, s)
  | fuel + 1, s =>
    let s := s.deliver
    if isOver s then (true, s)
    else if (s.machine.limit.map fun limit => decide (limit ≤ s.machine.clock)).getD false then
      (false, s)
    else
      match s.tasks.find? s.isReady with
      | some t => run begin isOver fuel (s.resume begin t)
      | none =>
        match s.nextTime? with
        | none => (false, s)
        | some clock => run begin isOver fuel { s with machine := { s.machine with clock := clock } }

/-- Lets processes go on as long as no time passes. -/
def settle (begin : Body → Run Ending) : Nat → Schedule → Schedule
  | 0, s => s
  | fuel + 1, s =>
    let s := s.deliver
    match s.tasks.find? s.isReady with
    | some t => settle begin fuel (s.resume begin t)
    | none => s

end Schedule
end SpecUpgrade.Shell
