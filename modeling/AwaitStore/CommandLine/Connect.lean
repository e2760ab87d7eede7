import AwaitStore.Client.Dialogue
import AwaitStore.CommandLine.Host

namespace AwaitStore.CommandLine

structure ConnectOptions where
  address : Option String := none
  config : Option String := none
  verbosity : Verbosity := {}
  deriving DecidableEq, Repr

def ConnectOptions.grammar : Grammar ConnectOptions where
  program := "kvdb-client"
  options :=
    ⟨none, "config", " <CONFIG_FILE>", "Path to configuration file", .value fun v a => do
        return { a with config := ← once a.config (← path? v) }⟩
      :: commonOptions ConnectOptions.verbosity fun verbosity a => { a with verbosity }
  wordName := "[ADDRESS]"
  wordAbout := "Server address as <host>:<port> (defaults to the configured server)"
  word v a := do return { a with address := ← once a.address v }

structure Contact where
  address : String
  settings : Config.Settings

def unreachable (address : String) : Exit :=
  .failure s!"Failed to connect to {address}: {StoreError.connectionFailed.message}\n"

def contact (host : Host) (arguments : List String) : Except Exit Contact := do
  let options ← match parse ConnectOptions.grammar arguments {} with
    | .ok o => .ok o
    | .error e => .error (Exit.ofEnded ConnectOptions.grammar e)
  let s ← host.settings options.config
  let address := options.address.getD s!"{s.bindAddress}:{s.port}"
  match Client.Link.connect (host.reaches address) s.conditions with
  | .error _ => .error (unreachable address)
  | .ok _ => .ok ⟨address, s⟩

end AwaitStore.CommandLine
