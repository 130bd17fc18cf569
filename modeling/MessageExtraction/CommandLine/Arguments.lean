import MessageExtraction.Path

/-!
What is asked for on the command line. Options may stand between operands; a value follows its
option as the next argument, behind an equals sign or, for a short option, directly; two hyphens
end the options.
-/

namespace MessageExtraction.CommandLine

/-- The options that a command knows, each with all its names. -/
structure OptionNames where
  flags : List (List String)
  valued : List (List String)

/-- Arguments told apart. An option is given by the first of its names. -/
structure Arguments where
  flags : List String
  values : List (String × Text)
  operands : List Text
  deriving DecidableEq, Repr

namespace Arguments

def empty : Arguments := ⟨[], [], []⟩

def addFlag (name : String) (a : Arguments) : Arguments := { a with flags := name :: a.flags }

def addValue (name : String) (value : Text) (a : Arguments) : Arguments :=
  { a with values := (name, value) :: a.values }

def addOperand (operand : Text) (a : Arguments) : Arguments :=
  { a with operands := operand :: a.operands }

def has (a : Arguments) (name : String) : Bool := a.flags.contains name

/-- The value of an option; one given later goes before one given earlier. -/
def value? (a : Arguments) (name : String) : Option Text :=
  (a.values.filter fun (n, _) ↦ n == name).getLast?.map (·.2)

end Arguments

/-- An option that an argument names, with what it says about a value. -/
inductive Mention where
  | flag (name : String)
  | value (name : String) (value : Text)
  | valueFollows (name : String)
  | unknown
  deriving DecidableEq, Repr

def nameOf? (groups : List (List String)) (t : Text) : Option String := do
  let names ← groups.find? fun names ↦ names.any fun n ↦ Text.ofString n == t
  names.head?

namespace OptionNames

/-- An argument as the long name of an option, with a value behind an equals sign or without. -/
def long? (o : OptionNames) (arg : Text) : Option Mention :=
  let name := arg.takeWhile (· != CodePoint.equals)
  if !Text.startsWith name "--" then none
  else match nameOf? o.flags name, nameOf? o.valued name, arg.drop name.length with
    | some flag, _, [] => some (.flag flag)
    | some _, _, _ :: _ => some .unknown
    | none, some option, [] => some (.valueFollows option)
    | none, some option, _ :: value => some (.value option value)
    | none, none, _ => some .unknown

/-- The letters behind one hyphen: flags, and an option last that takes what is left as its value. -/
def short (o : OptionNames) : Text → List Mention
  | [] => []
  | letter :: rest =>
    let name := [CodePoint.hyphen, letter]
    match nameOf? o.flags name, nameOf? o.valued name with
    | some flag, _ => .flag flag :: o.short rest
    | none, some option => [if rest.isEmpty then .valueFollows option else .value option rest]
    | none, none => [.unknown]

/-- What an argument that begins with a hyphen says. -/
def mentions (o : OptionNames) (arg : Text) : List Mention :=
  match o.long? arg with
  | some m => [m]
  | none => o.short (arg.drop 1)

def isOption (arg : Text) : Bool := arg.head? == some CodePoint.hyphen && 1 < arg.length

/-- Adds the options of one argument, unless one of them is unknown. -/
def addAll (following : Option Text) : List Mention → Arguments → Option Arguments
  | [], a => some a
  | .flag name :: rest, a => (addAll following rest a).map (·.addFlag name)
  | .value name value :: rest, a => (addAll following rest a).map (·.addValue name value)
  | .valueFollows name :: rest, a => do
    let value ← following
    return (← addAll following rest a).addValue name value
  | .unknown :: _, _ => none

def takesNext (mentions : List Mention) : Bool :=
  mentions.any fun
    | .valueFollows _ => true
    | _ => false

/-- Reads arguments; the operands end the options if they are not to be mixed with them. -/
def read (o : OptionNames) (isMixed : Bool) : List Text → Option Arguments
  | [] => some .empty
  | arg :: rest =>
    if arg = "--" then some ⟨[], [], rest⟩
    else if isOption arg then
      let found := o.mentions arg
      if takesNext found then
        match rest with
        | value :: rest => do addAll (some value) found (← o.read isMixed rest)
        | [] => none
      else do addAll none found (← o.read isMixed rest)
    else if isMixed then (o.read isMixed rest).map (·.addOperand arg)
    else some ⟨[], [], arg :: rest⟩

end OptionNames

/-- What a command is to do. -/
inductive Command where
  /-- Write settings into a project. -/
  | init (path : Path)
  /-- Extract from every file of a project, some settings being set here. -/
  | extract (path : Path) (messagesDir : Option Path) (keepLocation enforceDescriptions : Bool)
      (moduleName : Option Text)
  /-- Show the messages of one file. -/
  | inspect (file : Path) (asJson enforceDescriptions : Bool)
  deriving DecidableEq, Repr

/-- A command, and whether all that happens is reported. -/
structure Request where
  isVerbose : Bool
  command : Command
  deriving DecidableEq, Repr

def commonOptions : OptionNames := ⟨[["--verbose", "-v"]], []⟩

def initOptions : OptionNames := ⟨[], []⟩

def extractOptions : OptionNames :=
  ⟨[["--extract-source-location"], ["--enforce-descriptions"]],
    [["--messages-dir", "-o"], ["--module-source"]]⟩

def inspectOptions : OptionNames := ⟨[["--json"], ["--enforce-descriptions"]], []⟩

/-- At most one operand, the working directory if there is none. -/
def directoryOperand? : List Text → Option Path
  | [] => some (.ofText [])
  | [t] => some (.ofText t)
  | _ => none

def Command.ofArguments? (name : Text) (args : List Text) : Option Command :=
  if name = "init" then do
    let a ← initOptions.read true args
    return .init (← directoryOperand? a.operands)
  else if name = "extract" then do
    let a ← extractOptions.read true args
    return .extract (← directoryOperand? a.operands) ((a.value? "--messages-dir").map Path.ofText)
      (a.has "--extract-source-location") (a.has "--enforce-descriptions")
      (a.value? "--module-source")
  else if name = "inspect" then do
    let a ← inspectOptions.read true args
    match a.operands with
    | [file] => return .inspect (.ofText file) (a.has "--json") (a.has "--enforce-descriptions")
    | _ => none
  else none

/-- What arguments ask for; none if they ask for nothing that can be done. -/
def Request.ofArguments? (args : List Text) : Option Request := do
  let a ← commonOptions.read false args
  match a.operands with
  | name :: rest => return ⟨a.has "--verbose", ← Command.ofArguments? name rest⟩
  | [] => none

end MessageExtraction.CommandLine
