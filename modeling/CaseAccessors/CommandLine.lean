import CaseAccessors.Text

/-! The words of a command. Options may stand anywhere behind its name, and `--` ends them. -/
namespace CaseAccessors

inductive Format where
  | listing
  | json
  deriving DecidableEq, Repr

inductive Command where
  /-- Adds what is missing, or shows what it would add. -/
  | generate (dryRun : Bool)
  /-- Tells whether anything is missing. -/
  | check
  deriving DecidableEq, Repr

structure Invocation where
  command : Command
  inputs : List Text
  settingsPath : Option Text
  format : Format
  deriving DecidableEq, Repr

inductive Request where
  | version
  | help
  | run (i : Invocation)
  deriving DecidableEq, Repr

namespace CommandLine

inductive Valued where
  | settings
  | report
  deriving DecidableEq, Repr

def Valued.option : Valued → Text
  | .settings => "--config".toList
  | .report => "--report".toList

inductive Word where
  | plain
  | endOfOptions
  | verbose
  | dryRun
  | valued (option : Valued) (value : Option Text)
  | help
  | version
  | unknown
  deriving DecidableEq, Repr

/-- A word that begins with a hyphen is an option, but the hyphen alone is none. -/
def isOption (word : Text) : Bool := word.head? == some '-' && word != ['-']

/-- What the letters behind a single hyphen ask for. The first that ends the reading counts. -/
def Word.ofLetters : Text → Word
  | [] => .verbose
  | 'v' :: s => ofLetters s
  | 'h' :: _ => .help
  | 'V' :: _ => .version
  | _ => .unknown

def Word.ofValued? (option : Valued) (word : Text) : Option Word :=
  match Text.after? option.option word with
  | some [] => some (.valued option none)
  | some ('=' :: value) => some (.valued option (some value))
  | _ => none

def Word.of (word : Text) : Word :=
  if !isOption word then .plain
  else if word = "--".toList then .endOfOptions
  else if word = "--verbose".toList then .verbose
  else if word = "--dry-run".toList then .dryRun
  else if word = "--help".toList then .help
  else if word = "--version".toList then .version
  else
    match ofValued? .settings word, ofValued? .report word with
    | some w, _ => w
    | none, some w => w
    | none, none => ofLetters (word.drop 1)

inductive Name where
  | generate
  | check
  deriving DecidableEq, Repr

def Name.ofWord? (word : Text) : Option Name :=
  if word = "generate".toList then some .generate
  else if word = "check".toList then some .check
  else none

structure Given where
  inputs : List Text
  settingsPath : Option Text
  format : Option Format
  dryRun : Bool
  deriving DecidableEq, Repr

namespace Given

def nothing : Given := ⟨[], none, none, false⟩

def withInputs (g : Given) (words : List Text) : Given := { g with inputs := g.inputs ++ words }

def format? (word : Text) : Option Format :=
  if word = "text".toList then some .listing
  else if word = "json".toList then some .json
  else none

/-- Takes the value of an option. It has to be one that the option can have, and the first one. -/
def withValue? (g : Given) (option : Valued) (value : Text) : Option Given :=
  match option with
  | .settings =>
    if g.settingsPath.isSome || value.isEmpty then none
    else some { g with settingsPath := some value }
  | .report =>
    if g.format.isSome then none
    else (format? value).map fun f => { g with format := some f }

def withDryRun? (g : Given) (name : Name) : Option Given :=
  if name = .check ∨ g.dryRun then none else some { g with dryRun := true }

def invocation? (g : Given) (name : Name) : Option Invocation :=
  if g.inputs.isEmpty then none
  else
    let command := match name with
      | .generate => .generate g.dryRun
      | .check => .check
    some ⟨command, g.inputs, g.settingsPath, g.format.getD .listing⟩

end Given

def readCommand (name : Name) (g : Given) : List Text → Option Request
  | [] => (g.invocation? name).map .run
  | word :: words =>
    match Word.of word with
    | .plain => readCommand name (g.withInputs [word]) words
    | .endOfOptions => ((g.withInputs words).invocation? name).map .run
    | .verbose => readCommand name g words
    | .dryRun => (g.withDryRun? name).bind fun g => readCommand name g words
    | .valued option (some value) =>
      (g.withValue? option value).bind fun g => readCommand name g words
    | .valued option none =>
      match words with
      | [] => none
      | value :: words =>
        if isOption value then none
        else (g.withValue? option value).bind fun g => readCommand name g words
    | .help => some .help
    | .version => none
    | .unknown => none

def helpWord : Text := "help".toList

def isHelpTopic : List Text → Bool
  | [] => true
  | [word] => (Name.ofWord? word).isSome || word == helpWord
  | _ => false

def read : List Text → Option Request
  | [] => none
  | word :: words =>
    match Word.of word with
    | .verbose => read words
    | .help => some .help
    | .version => some .version
    | .plain =>
      match Name.ofWord? word with
      | some name => readCommand name .nothing words
      | none => if word = helpWord ∧ isHelpTopic words then some .help else none
    | _ => none

end CommandLine

end CaseAccessors
