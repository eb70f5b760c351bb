/-!
# Settings from the environment

A setting is an environment variable whose name starts with a fixed stem. An
environment variable has no equals sign in its name, so a setting with one is
never set.
-/

namespace TileTrace

/-- Environment variables and their values. -/
abbrev Environment := List (String × String)

namespace Environment

/-- The environment variable of a setting. -/
def variableName (setting : String) : String :=
  "TILEGRAPH_" ++ setting

/-- The value of a setting, if its variable is set. -/
def setting? (environment : Environment) (setting : String) : Option String :=
  environment.lookup (variableName setting)

/-- The value of a setting, or the default when its variable is not set. -/
def settingD (environment : Environment) (setting : String) (default : Option String) :
    Option String :=
  (environment.setting? setting).or default

/-- The environment with the variable of a setting set, or removed. -/
def withSetting (environment : Environment) (setting : String) (value : Option String) :
    Environment :=
  let others := environment.filter (·.1 ≠ variableName setting)
  match value with
  | some value =>
      if '=' ∈ setting.toList then others else (variableName setting, value) :: others
  | none => others

end Environment

end TileTrace
