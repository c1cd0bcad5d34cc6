import ComponentGraph.Format
import ComponentGraph.Notice
import ComponentGraph.Project
import ComponentGraph.Toml.Document
/-!
# The settings file of a project

A project may keep settings in a TOML document at its base. Every setting may be absent, and no
other key is known. A document that cannot be read or understood is told of, and the project is
then taken as one without settings.
-/

namespace ComponentGraph

structure Config where
  componentsDir? : Option String := none
  format? : Option Format := none
  port? : Option UInt16 := none
  outDir? : Option String := none
  ignore : List String := []
deriving DecidableEq

namespace Config

/-- Why a document is no settings file. -/
inductive Fault where
  | notToml
  | unknownKey (key : String)
  | wrongValue (key : String)
deriving DecidableEq, Repr

def Fault.message : Fault → String
  | .notToml => "not a TOML document"
  | .unknownKey key => "unknown key " ++ key
  | .wrongValue key => "wrong value for " ++ key

/-- A format is given by its name, or by a table whose only entry has that name and holds
nothing. -/
def formatOf? : Toml.Value → Option Format
  | .text name => Format.ofName? name
  | .table _ [(name, .table _ [])] => Format.ofName? name
  | .table _ [(name, .list [])] => Format.ofName? name
  | _ => none

/-- Whole numbers from 0 to 65535 are ports. -/
def portOf? (v : Toml.Value) : Option UInt16 := do
  let n ← v.integer?
  if 0 ≤ n ∧ n < 65536 then some (UInt16.ofNat n.toNat) else none

/-- Take over the value of one key. -/
def set (c : Config) (key : String) (v : Toml.Value) : Except Fault Config :=
  let change : Option (Option Config) :=
    match key with
    | "components_dir" => some (v.text?.map fun dir => { c with componentsDir? := some dir })
    | "format" => some ((formatOf? v).map fun format => { c with format? := some format })
    | "port" => some ((portOf? v).map fun port => { c with port? := some port })
    | "out_dir" => some (v.text?.map fun dir => { c with outDir? := some dir })
    | "ignore" => some (v.texts?.map fun patterns => { c with ignore := patterns })
    | _ => none
  match change with
  | none => .error (.unknownKey key)
  | some none => .error (.wrongValue key)
  | some (some c) => .ok c

def ofEntries (entries : Toml.Entries) : Except Fault Config :=
  entries.foldlM (fun c (key, v) => c.set key v) {}

def ofText (document : String) : Except Fault Config :=
  match Toml.parse? document with
  | none => .error .notToml
  | some entries => ofEntries entries

/-- The name of the settings file. -/
def fileName : String := "vurif.toml"

theorem isPlainName_fileName : IsPlainName fileName := by decide

def path (p : Project) : Path := p.base.child fileName isPlainName_fileName

/-- The settings that a project keeps. -/
def load (p : Project) : Logged Config :=
  if p.files.exists? (path p) then
    match p.files.readText (path p) with
    | .error e => do
      Logged.say .error ("failed to read " ++ (path p).text ++ ": " ++ e.message)
      pure {}
    | .ok document =>
      match ofText document with
      | .error fault => do
        Logged.say .error ("failed to parse " ++ fileName ++ ": " ++ fault.message)
        pure {}
      | .ok c => do
        Logged.say .debug ("loaded " ++ fileName)
        pure c
  else pure {}

end Config

end ComponentGraph
