/-!
# Arguments

Splits the arguments of a command line into options and positional arguments. An option with two dashes
may carry its value after an equals sign, or takes the next argument, whatever that looks like; options
with one dash may be written together. Two dashes alone end the options.
-/

namespace Layering.Cli

/-- Why a command line cannot be understood. -/
inductive UsageError where
  | noSuchOption (name : String)
  | missingValue (name : String)
  | unexpectedValue (name : String)
  | missingCommand
  | noSuchCommand (name : String)
  | extraArgument (text : String)
  | invalidValue (text : String)
  | invalidPath (text : String)
deriving DecidableEq, Repr

/-- The text of an error. -/
def UsageError.message : UsageError → String
  | noSuchOption name => s!"No such option: {name}"
  | missingValue name => s!"Option '{name}' requires an argument."
  | unexpectedValue name => s!"Option '{name}' does not take a value."
  | missingCommand => "Missing command."
  | noSuchCommand name => s!"No such command '{name}'."
  | extraArgument text => s!"Got unexpected extra argument ({text})"
  | invalidValue text => s!"Invalid value: '{text}'"
  | invalidPath text => s!"Invalid path: '{text}'"

/-- The options of a command: those that take a value, those that do not, and the letters that stand
for some of the latter. -/
structure OptionTable where
  valued : List String := []
  flags : List String := []
  letters : List (Char × String) := []

/-- Arguments that have been split up. -/
structure Arguments where
  /-- The options with their values, in order; a flag has none. -/
  options : List (String × Option String) := []
  positional : List String := []
deriving DecidableEq, Repr

namespace Arguments

/-- Adds an option. -/
def withOption (a : Arguments) (name : String) (value : Option String) : Arguments :=
  { a with options := a.options ++ [(name, value)] }

/-- Whether a flag is set. -/
def has (a : Arguments) (name : String) : Bool := a.options.any (·.1 = name)

/-- The value of an option; the last one counts. -/
def value? (a : Arguments) (name : String) : Option String :=
  (a.options.reverse.find? (·.1 = name)).bind (·.2)

end Arguments

/-- The options that letters after a dash stand for. -/
def lettersOf (table : OptionTable) : List Char → Except UsageError (List String)
  | [] => .ok []
  | c :: cs =>
    match table.letters.lookup c with
    | some name => (lettersOf table cs).map (name :: ·)
    | none => .error (.noSuchOption (String.ofList ['-', c]))

/-- An argument split at its first equals sign. -/
def splitEquals (arg : String) : String × Option String :=
  match arg.toList.span (· ≠ '=') with
  | (_, []) => (arg, none)
  | (name, _ :: value) => (String.ofList name, some (String.ofList value))

/-- Splits arguments up, adding to those before. When `mixed` is not set, the first positional argument
ends the options. -/
def splitArguments (table : OptionTable) (mixed : Bool) (read : Arguments) :
    List String → Except UsageError Arguments
  | [] => .ok read
  | arg :: rest =>
    if arg = "--" then .ok { read with positional := read.positional ++ rest }
    else if arg.toList.head? == some '-' && 1 < arg.length then
      let (name, value) := splitEquals arg
      if table.flags.contains name then
        match value with
        | none => splitArguments table mixed (read.withOption name none) rest
        | some _ => .error (.unexpectedValue name)
      else if table.valued.contains name then
        match value with
        | some v => splitArguments table mixed (read.withOption name (some v)) rest
        | none =>
          match rest with
          | v :: rest => splitArguments table mixed (read.withOption name (some v)) rest
          | [] => .error (.missingValue name)
      else if arg.toList.take 2 = ['-', '-'] then .error (.noSuchOption name)
      else
        match lettersOf table arg.toList.tail with
        | .ok names =>
          splitArguments table mixed (names.foldl (fun a n => a.withOption n none) read) rest
        | .error e => .error e
    else if mixed then
      splitArguments table mixed { read with positional := read.positional ++ [arg] } rest
    else .ok { read with positional := read.positional ++ arg :: rest }

end Layering.Cli
