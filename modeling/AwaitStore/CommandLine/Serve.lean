import AwaitStore.CommandLine.Host
import AwaitStore.Server.Sessions
import AwaitStore.Store.Backend

namespace AwaitStore.CommandLine

structure ServeOptions where
  config : Option String := none
  port : Option Nat := none
  bind : Option String := none
  maxConnections : Option Nat := none
  backend : Option String := none
  shards : Option Nat := none
  verbosity : Verbosity := {}
  deriving DecidableEq, Repr

namespace ServeOptions

def grammar : Grammar ServeOptions where
  program := "kvdb-server"
  options :=
    [ ⟨some 'p', "port", " <PORT>", "TCP port to listen on (0 picks a free port)", .value fun v a => do
        return { a with port := ← once a.port (← port? v) }⟩,
      ⟨some 'b', "bind", " <ADDRESS>", "Address to bind to", .value fun v a => do
        return { a with bind := ← once a.bind v }⟩,
      ⟨some 'c', "max-connections", " <MAX_CONNECTIONS>",
        "Maximum number of concurrently authenticated users", .value fun v a => do
        return { a with maxConnections := ← once a.maxConnections (← number? Config.maxWord v) }⟩,
      ⟨none, "backend", " <BACKEND>", "Storage backend (simple, multi_condition, sharded)",
        .value fun v a => do return { a with backend := ← once a.backend v }⟩,
      ⟨none, "shards", " <SHARDS>", "Number of shards for the sharded backend", .value fun v a => do
        return { a with shards := ← once a.shards (← number? Config.maxWord v) }⟩ ]
      ++ commonOptions ServeOptions.verbosity fun verbosity a => { a with verbosity }
  wordName := "[CONFIG_FILE]"
  wordAbout := "Path to configuration file"
  word v a := do return { a with config := ← once a.config (← path? v) }

def apply (o : ServeOptions) (s : Config.Settings) : Config.Settings :=
  { s with
    port := o.port.getD s.port
    bindAddress := o.bind.getD s.bindAddress
    maxConnections := o.maxConnections.getD s.maxConnections
    backend := o.backend.getD s.backend
    shards := o.shards.getD s.shards }

end ServeOptions

structure Launch where
  settings : Config.Settings
  kind : Store.Kind
  address : Config.Address

def launch (host : Host) (arguments : List String) : Except Exit Launch := do
  let options ← match parse ServeOptions.grammar arguments {} with
    | .ok o => .ok o
    | .error e => .error (Exit.ofEnded ServeOptions.grammar e)
  let loaded ← host.settings options.config
  match Config.validate (options.apply loaded) with
  | .error e => .error (.failure s!"Configuration error: {e.message}\n")
  | .ok s =>
      match Store.Kind.ofName? s.backend s.shards, Config.Address.parse? s.bindAddress with
      | some kind, some address => .ok ⟨s, kind, address⟩
      | _, _ => .error (.failure "")

def Launch.start (host : Host) (l : Launch) : Except Exit Store.Backend :=
  match l.kind.build, Server.Sessions.ofSlots l.settings.maxConnections with
  | .error e, _ => .error (.abort e.message)
  | .ok _, .error e => .error (.abort e.message)
  | .ok store, .ok _ => if host.listens l.address then .ok store else .error (.failure "")

end AwaitStore.CommandLine
