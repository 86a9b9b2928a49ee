import SpecUpgrade.Settings.Basic
import SpecUpgrade.Toml.Reader

/-!
Settings as a TOML document. Whatever the document does not set has its default, and keys that mean
nothing here are passed over.
-/

namespace SpecUpgrade

namespace Toml

def findMember (key : String) (members : List (String × Toml)) : Option Toml :=
  Table.find? ⟨.inline, members⟩ key

/-- The named fields of a record. A record is a table, or a list of its fields in order; a date
counts as a table without any of them. -/
def fields? (names : List String) : Toml → Option (List (Option Toml))
  | .table _ members => some (names.map fun name => findMember name members)
  | .array items => some (names.zipIdx.map fun (_, i) => items[i]?)
  | .tables items => some (names.zipIdx.map fun (_, i) => items[i]?.map (.table .header ·))
  | .date _ => some (names.map fun _ => none)
  | _ => none

def text? : Toml → Option String
  | .string s => some s
  | _ => none

def flag? : Toml → Option Bool
  | .boolean b => some b
  | _ => none

def count? : Toml → Option Nat
  | .integer n => if 0 ≤ n then some n.toNat else none
  | _ => none

def texts? : Toml → Option (List String)
  | .array items => items.mapM text?
  | .tables [] => some []
  | _ => none

def isVoid : Toml → Bool
  | .array items => items.isEmpty
  | .table _ members => members.isEmpty
  | .tables items => items.isEmpty
  | _ => false

/-- A rule is given by its name, or by a table whose one key is the name and whose value is void. -/
def rule? : Toml → Option Rule
  | .string name => Rule.ofName? name
  | .table _ [(name, value)] => if value.isVoid then Rule.ofName? name else none
  | _ => none

def rules? : Toml → Option (List Rule)
  | .array items => items.mapM rule?
  | .tables items => (items.map (.table .header ·)).mapM rule?
  | _ => none

def orDefault {α : Type} (read? : Toml → Option α) (default : α) : Option Toml → Option α
  | some value => read? value
  | none => some default

end Toml

def AnalysisSettings.ofToml? (t : Toml) : Option AnalysisSettings := do
  let default : AnalysisSettings := {}
  match ← t.fields? ["enabled", "command", "timeout_secs", "keep_sandbox"] with
  | [enabled, command, timeoutSecs, keepSandbox] =>
    return ⟨← Toml.orDefault Toml.flag? default.enabled enabled,
      ← Toml.orDefault Toml.texts? default.command command,
      ← Toml.orDefault Toml.count? default.timeoutSecs timeoutSecs,
      ← Toml.orDefault Toml.flag? default.keepSandbox keepSandbox⟩
  | _ => none

def ParserSettings.ofToml? (t : Toml) : Option ParserSettings := do
  let default : ParserSettings := {}
  match ← t.fields? ["command"] with
  | [command] => return ⟨← Toml.orDefault Toml.texts? default.command command⟩
  | _ => none

def ConvertSettings.ofToml? (t : Toml) : Option ConvertSettings := do
  let default : ConvertSettings := {}
  match ← t.fields? ["rules", "spec_suffix"] with
  | [rules, specSuffix] =>
    return ⟨← Toml.orDefault Toml.rules? default.rules rules,
      ← Toml.orDefault Toml.text? default.specSuffix specSuffix⟩
  | _ => none

namespace Settings

def ofToml? (t : Toml) : Option Settings := do
  match ← t.fields? ["analysis", "parser", "convert"] with
  | [analysis, parser, convert] =>
    return ⟨← Toml.orDefault AnalysisSettings.ofToml? {} analysis,
      ← Toml.orDefault ParserSettings.ofToml? {} parser,
      ← Toml.orDefault ConvertSettings.ofToml? {} convert⟩
  | _ => none

def ofText (path text : String) : Except SettingsError Settings :=
  match Toml.ofText? text with
  | none => .error (.malformed path "not a TOML document")
  | some t =>
    match ofToml? t with
    | none => .error (.malformed path "a value does not fit its key")
    | some s => s.checked

end Settings
end SpecUpgrade
