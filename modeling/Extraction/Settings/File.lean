import Extraction.Settings
import Extraction.Text.Utf8
import Extraction.Toml.Reader

/-! Settings files. Every name in a file is that of a setting, and what a file leaves out has its default
value. -/
namespace Extraction

inductive SettingsFileError where
  | unreadable
  | malformed
  | settings (error : SettingsError)

namespace Settings

def natOf? : Toml → Option Nat
  | .integer (.ofNat n) => some n
  | _ => none

def boolOf? : Toml → Option Bool
  | .boolean b => some b
  | _ => none

def floatOf? : Toml → Option Float
  | .float x => some x
  | .integer n => some (Numeral.signed (n < 0) (nearestDouble n.natAbs 1))
  | _ => none

/-- An extractor is given by its name, or by a table with an empty table under that name. -/
def extractorOf? : Toml → Option Extractor
  | .string name => Extractor.ofName? name
  | .table _ [(name, .table _ [])] => Extractor.ofName? name
  | _ => none

def set? (s : Settings) (entry : String × Toml) : Option Settings :=
  match entry with
  | ("extractor", value) => (extractorOf? value).map fun v => { s with extractor := v }
  | ("passes", value) => (natOf? value).map fun v => { s with passes := v }
  | ("prune_single_child", value) => (boolOf? value).map fun v => { s with pruneSingleChild := v }
  | ("threads", value) => (natOf? value).map fun v => { s with threads := some v }
  | ("batch_size", value) => (natOf? value).map fun v => { s with batchSize := v }
  | ("timeout_secs", value) => (natOf? value).map fun v => { s with timeoutSecs := some v }
  | ("canonicalize", value) => (boolOf? value).map fun v => { s with canonicalize := v }
  | ("bound", value) => (floatOf? value).map fun v => { s with bound := v }
  | _ => none

/-- The settings that a text describes, whether they make sense or not. -/
def ofText? (text : List Char) : Option Settings := do
  (← Toml.read? text).foldlM set? {}

def ofOctets (octets : List UInt8) : Except SettingsFileError Settings :=
  match Text.Utf8.decode octets with
  | none => .error .unreadable
  | some text =>
    match ofText? text with
    | none => .error .malformed
    | some s =>
      match s.validate with
      | .ok () => .ok s
      | .error e => .error (.settings e)

end Settings

end Extraction
