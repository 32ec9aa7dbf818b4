import CodeIndex.Disk.Fault
import CodeIndex.Yaml.Problem

/-! # What can be wrong with settings -/

namespace CodeIndex

/-- Why settings that can be read are not accepted. -/
inductive SettingsFlaw where
  | versionNotInteger
  | emptySeparator
  | emptyOutermost
  | noExtensions
  | badExtension (extension : String)
  | ambiguousKinds (kinds : List String)
  | noDefinitions (language : String)
  | emptySuffix
  | emptyCommand
deriving DecidableEq, Repr

def SettingsFlaw.message : SettingsFlaw → String
  | .versionNotInteger => "'version' must be an integer"
  | .emptySeparator => "scope_separator must not be empty"
  | .emptyOutermost => "global_scope must not be empty"
  | .noExtensions => "source_extensions needs at least one extension"
  | .badExtension e =>
    "source extension '" ++ e ++ "' must be non-empty and given without the dot"
  | .ambiguousKinds kinds =>
    "node kinds assigned more than one role: " ++ ", ".intercalate kinds
  | .noDefinitions language => "language '" ++ language ++ "' defines no type or callable kinds"
  | .emptySuffix => "tree_source.suffix must not be empty"
  | .emptyCommand => "tree_source.argv must name a program"

inductive SettingsProblem where
  /-- A number of workers that is not between one and the greatest allowed. -/
  | threadsOutOfRange (threads : Nat)
  | missingVersion
  | unsupportedVersion (version : Nat)
  | unreadable (fault : Fault)
  | document (problem : Yaml.Problem)
  | flaw (flaw : SettingsFlaw)
deriving DecidableEq, Repr

namespace SettingsProblem

/-- The one version of the schema that can be read. -/
def supportedVersion : Nat := 1

def maxThreads : Nat := 1024

def message : SettingsProblem → String
  | .threadsOutOfRange threads =>
    "'threads' = " ++ toString threads ++ " is out of bounds (allowed 1 to " ++ toString maxThreads
      ++ "). Omit to use 75% of cores."
  | .missingVersion => "Index config has no schema version; start the file with 'version: 1'"
  | .unsupportedVersion version =>
    "Index config schema v" ++ toString version ++ " is not readable by this build (known: v"
      ++ toString supportedVersion ++ ")"
  | .unreadable fault => "Cannot read index config: " ++ fault.message
  | .document problem =>
    "Index config is not valid YAML for schema v" ++ toString supportedVersion ++ ": "
      ++ problem.message
  | .flaw reason => "Invalid index config: " ++ reason.message

end SettingsProblem

end CodeIndex
