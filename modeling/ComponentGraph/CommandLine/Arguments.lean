import ComponentGraph.Settings.Resolution
/-!
# Arguments of the command line

An argument is an option, long or short, the mark behind which there are no more options, or a
plain word. A long option may carry its value behind an equals sign, a short one directly or
behind an equals sign; otherwise the value is the next argument, which has to be a
plain word. An option is given at most once, except for ignore patterns.
-/

namespace ComponentGraph.CommandLine

inductive Argument where
  | long (name : String) (attached? : Option String)
  /-- The character behind the hyphen, and what follows it. -/
  | short (letter : Char) (rest : List Char)
  /-- Two hyphens alone. -/
  | mark
  | word (s : String)
deriving DecidableEq, Repr

namespace Argument

def ofString (s : String) : Argument :=
  match s.toList with
  | ['-', '-'] => mark
  | '-' :: '-' :: cs =>
    match cs.span (· ≠ '=') with
    | (name, '=' :: value) => long (String.ofList name) (some (String.ofList value))
    | (name, _) => long (String.ofList name) none
  | '-' :: letter :: rest => short letter rest
  | _ => word s

/-- The value that a short option carries. -/
def attachedToShort? : List Char → Option String
  | [] => none
  | '=' :: value => some (String.ofList value)
  | value => some (String.ofList value)

end Argument

/-- Options with a value. -/
inductive ValueOption where
  | root
  | format
  | output
  | outDir
  | port
  | ignore
deriving DecidableEq, Repr

/-- What can be said by an option. -/
inductive Switch where
  | help
  | version
  | verbose
  | color
  | value (option : ValueOption)
deriving DecidableEq, Repr

/-- Where an option stands. -/
inductive Place where
  /-- In front of the command. -/
  | front
  /-- Behind the command. -/
  | behind
deriving DecidableEq, Repr

/-- The version is asked for in front of the command, and what concerns one command is said
behind it; the rest may stand in both places. -/
def Switch.allowed : Switch → Place → Bool
  | .help, _ | .verbose, _ | .color, _ | .value .root, _ => true
  | .version, place => place = .front
  | .value _, place => place = .behind

def Switch.ofLong? : String → Option Switch
  | "help" => some .help
  | "version" => some .version
  | "verbose" => some .verbose
  | "color" => some .color
  | "root" => some (.value .root)
  | "format" => some (.value .format)
  | "output" => some (.value .output)
  | "out-dir" => some (.value .outDir)
  | "port" => some (.value .port)
  | "ignore" => some (.value .ignore)
  | _ => none

def Switch.ofShort? : Char → Option Switch
  | 'h' => some .help
  | 'V' => some .version
  | 'f' => some (.value .format)
  | _ => none

/-- What the options in one place say. -/
structure Given where
  root? : Option String := none
  verbose : Bool := false
  color? : Option Bool := none
  overrides : Overrides := {}
deriving DecidableEq

/-- Why a command line is refused. -/
inductive UsageError where
  | unexpected (argument : String)
  | missingValue (argument : String)
  | wrongValue (argument value : String)
  | repeated (argument : String)
  | missingCommand
  | missingPath
deriving DecidableEq, Repr

def UsageError.message : UsageError → String
  | .unexpected argument => "unexpected argument '" ++ argument ++ "'"
  | .missingValue argument => "a value is required for '" ++ argument ++ "'"
  | .wrongValue argument value => "invalid value '" ++ value ++ "' for '" ++ argument ++ "'"
  | .repeated argument => "the argument '" ++ argument ++ "' cannot be used multiple times"
  | .missingCommand => "a command is required"
  | .missingPath => "a path is required"

/-- Digits with an optional sign, of a number from 0 to 65535. -/
def portOfText? (s : String) : Option UInt16 :=
  let ofDigits (digits : List Char) : Option Nat :=
    if digits.isEmpty then none else Toml.valueInBase? 10 digits
  let ofValue (n : Nat) : Option UInt16 := if n < 65536 then some (UInt16.ofNat n) else none
  match s.toList with
  | '+' :: digits => (ofDigits digits).bind ofValue
  | '-' :: digits => (ofDigits digits).bind fun n => if n = 0 then some 0 else none
  | digits => (ofDigits digits).bind ofValue

def boolOfText? : String → Option Bool
  | "true" => some true
  | "false" => some false
  | _ => none

namespace Given

/-- Give a value to a setting that has none yet. -/
def once {α : Type} (argument : String) (present? : Option α) (set : Given) :
    Except UsageError Given :=
  match present? with
  | none => .ok set
  | some _ => .error (.repeated argument)

/-- Take over the value of an option. -/
def setValue (g : Given) (argument : String) (option : ValueOption) (value : String) :
    Except UsageError Given :=
  let o := g.overrides
  match option with
  | .root =>
    if value = "" then .error (.wrongValue argument value)
    else once argument g.root? { g with root? := some value }
  | .format =>
    match Format.ofName? value with
    | none => .error (.wrongValue argument value)
    | some format =>
      once argument o.format? { g with overrides := { o with format? := some format } }
  | .output => once argument o.output? { g with overrides := { o with output? := some value } }
  | .outDir => once argument o.outDir? { g with overrides := { o with outDir? := some value } }
  | .port =>
    match portOfText? value with
    | none => .error (.wrongValue argument value)
    | some port => once argument o.port? { g with overrides := { o with port? := some port } }
  | .ignore => .ok { g with overrides := { o with ignore := o.ignore ++ [value] } }

def setVerbose (g : Given) (argument : String) : Except UsageError Given :=
  if g.verbose then .error (.repeated argument) else .ok { g with verbose := true }

/-- Colour is wanted when nothing else is said of it. -/
def setColor (g : Given) (argument : String) (attached? : Option String) :
    Except UsageError Given :=
  let value := attached?.getD "true"
  match boolOfText? value with
  | none => .error (.wrongValue argument value)
  | some color => once argument g.color? { g with color? := some color }

end Given

/-- What one option leads to. -/
inductive Step where
  | help
  | version
  /-- What is given now, and whether the next argument was the value of the option. -/
  | go (g : Given) (tookNext : Bool)

/-- Read an option behind which the argument `next?` stands. -/
def readSwitch (g : Given) (argument : String) (switch : Switch) (attached? next? : Option String) :
    Except UsageError Step :=
  match switch, attached? with
  | .help, none => .ok .help
  | .version, none => .ok .version
  | .verbose, none => do
    let g ← g.setVerbose argument
    pure (.go g false)
  | .help, some _ | .version, some _ | .verbose, some _ => .error (.unexpected argument)
  | .color, _ => do
    let g ← g.setColor argument attached?
    pure (.go g false)
  | .value option, some value => do
    let g ← g.setValue argument option value
    pure (.go g false)
  | .value option, none =>
    match next?.map Argument.ofString with
    | some (.word value) => do
      let g ← g.setValue argument option value
      pure (.go g true)
    | _ => .error (.missingValue argument)

/-- Read an option that is allowed in a place. A short option carries a value only if it is one
with a value; what follows the letter of any other is never looked at. -/
def readOption (place : Place) (g : Given) (argument : String) (next? : Option String) :
    Except UsageError Step :=
  let read (switch? : Option Switch) (attached? : Option String) : Except UsageError Step :=
    match switch? with
    | none => .error (.unexpected argument)
    | some switch =>
      if switch.allowed place then readSwitch g argument switch attached? next?
      else .error (.unexpected argument)
  match Argument.ofString argument with
  | .long name attached? => read (Switch.ofLong? name) attached?
  | .short letter rest =>
    match Switch.ofShort? letter with
    | some (.value option) => read (some (.value option)) (Argument.attachedToShort? rest)
    | switch? => read switch? none
  | .mark | .word _ => .error (.unexpected argument)

end ComponentGraph.CommandLine
