import SpecUpgrade.Utility.Basic

/-!
Programs that run other programs.
-/

namespace SpecUpgrade.Utility

open Shell

/-- Becomes a program, or says why not. -/
def become (name : String) (words : List String) : Run Nat := do
  match ← Run.resolvePlain words with
  | .ok (program, words) => Run.replace program words
  | .error e =>
    complain name (Quote.name (words.headD "") ++ ": " ++ e.reason)
    return if e = .missing || e = .notDirectory then 127 else 126

/-- Sets variables and becomes a program, or lists the variables. -/
def env : Program := fun words =>
  withOptions ⟨"iu:", [("ignore-environment", 'i'), ("unset", 'u')], false, 125⟩ words
    fun name g => do
  if g.has 'i' then
    Run.updateProcess fun p => { p with bindings := [] }
  for (c, text) in g.options do
    if c == 'u' then
      Run.updateProcess fun p => { p with bindings := p.bindings.filter (·.1 != text) }
  let assignments := g.operands.takeWhile fun (w : String) => w.toList.contains '='
  for w in assignments do
    let key := String.ofList (w.toList.takeWhile (· != '='))
    let value := (w.drop (key.length + 1)).toString
    Run.changeVariable key fun v => { v with value := some value, exported := true }
  match g.operands.drop assignments.length with
  | [] =>
    putStatus name ((Run.environmentOf (← Run.process)).flatMap fun (key, value) =>
      (key ++ "=" ++ value ++ "\n").toList)
  | command => become name command

def printenv : Program := fun words =>
  withOptions ⟨"", [], true, 2⟩ words fun name g => do
  let all := Run.environmentOf (← Run.process)
  if g.operands.isEmpty then
    putStatus name (all.flatMap fun (key, value) => (key ++ "=" ++ value ++ "\n").toList)
  else
    let mut status := 0
    for key in g.operands do
      match all.find? (·.1 == key) with
      | some (_, value) =>
        let _ ← put name (value ++ "\n").toList
      | none => status := 1
    return status

/-- A time with a letter for its unit, in milliseconds. -/
def duration? (text : String) : Option Nat :=
  let cs := text.toList
  let body := cs.takeWhile fun c => c.isDigit || c == '.'
  let whole := body.takeWhile Char.isDigit
  let fraction := (body.drop whole.length).drop 1
  let factor := match cs.drop body.length with
    | [] => some 1
    | ['s'] => some 1
    | ['m'] => some 60
    | ['h'] => some 3600
    | ['d'] => some 86400
    | _ => none
  if (whole.isEmpty && fraction.isEmpty) || !fraction.all Char.isDigit then
    if text == "inf" || text == "infinity" then some 1000000000000 else none
  else
    let value (ds : List Char) : Nat := ds.foldl (fun n c => n * 10 + (c.toNat - '0'.toNat)) 0
    factor.map fun f =>
      let scale := Nat.pow 10 fraction.length
      ((value whole * scale + value fraction) * f * 1000 + scale - 1) / scale

def sleep : Program := fun words =>
  withOptions ⟨"", [], true, 1⟩ words fun name g => do
  if g.operands.isEmpty then misuse name "missing operand" 1
  else
    match g.operands.find? fun t => (duration? t).isNone with
    | some _ =>
      for t in g.operands do
        if (duration? t).isNone then complain name ("invalid time interval " ++ Quote.word t)
      Run.printError (hint name)
      return 1
    | none =>
      Run.pass (g.operands.foldl (fun n t => n + (duration? t).getD 0) 0)
      return 0

end SpecUpgrade.Utility
