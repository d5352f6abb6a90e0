import Layering.Path.Fault
import Layering.Value.Basic
import Layering.Yaml.Fault

/-!
# Configurations and their faults

A configuration is a record with a version, a list of rules and perhaps the path of another
configuration that it takes rules from.
-/

namespace Layering

/-- A problem in the shape of a configuration: where it is, and what it is. -/
structure ConfigIssue where
  path : String
  message : String
deriving DecidableEq, Repr

/-- The issue in a line. -/
def ConfigIssue.text (i : ConfigIssue) : String :=
  if i.path = "" then i.message else s!"{i.path}: {i.message}"

namespace Config

/-- The size that a configuration file may have, in bytes. -/
def maxSize : Nat := 1024 * 1024

/-- The number of configurations that one may take over, one from the other. -/
def maxDepth : Nat := 5

/-- The version of a configuration that gives none. -/
def defaultVersion : String := "1.0"

end Config

/-- Why a configuration cannot be used. -/
inductive ConfigError where
  /-- The file cannot be read. -/
  | unreadable (path : String)
  | tooLarge (size : Nat)
  /-- The file is no document. -/
  | unparsable (path : String) (fault : Yaml.Fault)
  /-- A scalar in the file is not what its tag says. -/
  | invalidScalar (fault : Yaml.Fault)
  | notAMapping (path : String)
  | baseNotAMapping (path : String)
  | badBase (path : String)
  | tooDeep (path : String)
  | circular (path base : String)
  /-- The path of the file, or of its base, is refused. -/
  | badPath (fault : PathFault)
  /-- A number that a check has to write down has too many digits. -/
  | hugeNumber
  | invalid (path : String) (issues : List ConfigIssue)
deriving DecidableEq, Repr

/-- The text of an error. -/
def ConfigError.message : ConfigError → String
  | unreadable path => s!"Config file not found or not accessible: {path}"
  | tooLarge size => s!"Config file too large ({size} bytes, maximum {Config.maxSize})"
  | unparsable path fault => s!"Failed to parse {path}: {fault.message}"
  | invalidScalar fault => fault.message
  | notAMapping path => s!"{path}: configuration must be a YAML mapping"
  | baseNotAMapping path => s!"{path}: configuration must be a mapping"
  | badBase path => s!"{path}: 'extends' must be a non-empty string"
  | tooDeep path => s!"{path}: 'extends' chain deeper than {Config.maxDepth}"
  | circular path base => s!"{path}: circular 'extends' via {base}"
  | badPath fault => fault.message
  | hugeNumber =>
    s!"Exceeds the limit ({Text.maxDigits} digits) for integer string conversion; " ++
      "use sys.set_int_max_str_digits() to increase the limit"
  | invalid path issues =>
    s!"Invalid configuration in {path}:\n" ++
      "\n".intercalate (issues.map fun i => "  - " ++ i.text)

end Layering
