import AwaitStore.CommandLine.Help
import AwaitStore.Config.Address
import AwaitStore.Config.Load

namespace AwaitStore.CommandLine

structure Host where
  entry : String → Config.Entry
  home : String
  listens : Config.Address → Bool
  reaches : String → Bool

namespace Host

/-- A host without any network interface. It can listen where no interface is asked for, but no peer can
be reached. -/
def isolated (entry : String → Config.Entry) (home : String) : Host where
  entry := entry
  home := home
  listens
    | .v4 .. => true
    | .v6 groups => groups.all (· == 0) || groups.take 6 == [0, 0, 0, 0, 0, 0xffff]
  reaches _ := false

def configurationFault (host : Host) (path : Option String) (e : Config.ConfigError) : String :=
  let hint :=
    if path.isSome then ""
    else
      s!"\nExpected config at: {Config.defaultPath host.home}\n" ++
        "Create one based on config/example-config.json\n"
  s!"Configuration error: {e.message}\n" ++ hint

def settings (host : Host) (path : Option String) : Except Exit Config.Settings :=
  match Config.load host.entry host.home path with
  | .ok s => .ok s
  | .error e => .error (.failure (host.configurationFault path e))

end Host

end AwaitStore.CommandLine
