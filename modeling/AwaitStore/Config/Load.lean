import AwaitStore.Config.Settings
import AwaitStore.Text.Utf8

namespace AwaitStore.Config

inductive ConfigError where
  | readFailed (path : String)
  | parseFailed (path : String)
  | notFound (path : String)
  | invalid (fault : Invalid)
  deriving DecidableEq, Repr

def ConfigError.message : ConfigError → String
  | readFailed path => s!"failed to read configuration file: {path}"
  | parseFailed path => s!"failed to parse configuration file: {path}"
  | notFound path => s!"configuration file not found: {path}"
  | invalid fault => s!"configuration validation failed: {fault.message}"

inductive Entry where
  | absent
  /-- Something that exists and has no contents, such as a directory. -/
  | unreadable
  | file (contents : Bytes)

def validate (s : Settings) : Except ConfigError Settings :=
  match s.fault? with
  | none => .ok s
  | some fault => .error (.invalid fault)

def read (path : String) (contents : Bytes) : Except ConfigError Settings :=
  match Text.ofUtf8 contents with
  | .error _ => .error (.readFailed path)
  | .ok text =>
      match (Json.parse? text).bind Settings.ofJson? with
      | none => .error (.parseFailed path)
      | some s => validate s

def defaultPath (home : String) : String := s!"{home}/.kvdb/config.json"

/-- A file that is named has to exist; without one in the default place the defaults hold. -/
def load (entry : String → Entry) (home : String) (path : Option String) : Except ConfigError Settings :=
  let place := path.getD (defaultPath home)
  match entry place with
  | .absent => if path.isSome then .error (.notFound place) else .ok {}
  | .unreadable => .error (.readFailed place)
  | .file contents => read place contents

inductive Level where
  | trace
  | debug
  | info
  | warn
  | error
  deriving DecidableEq, Repr

namespace Level

def name : Level → String
  | trace => "trace"
  | debug => "debug"
  | info => "info"
  | warn => "warn"
  | error => "error"

def all : List Level := [trace, debug, info, warn, error]

/-- Names are read in any case; a name that is not known stands for warnings. No letter outside ASCII
has a letter of these names as its small form. -/
def ofName (name : String) : Level :=
  (all.find? fun level => level.name.toList = name.toList.map Char.toLower).getD warn

def choose (verbose : Nat) (quiet : Bool) (configured : String) : Level :=
  if quiet then error
  else
    match verbose with
    | 0 => ofName configured
    | 1 => info
    | 2 => debug
    | _ => trace

end Level

end AwaitStore.Config
