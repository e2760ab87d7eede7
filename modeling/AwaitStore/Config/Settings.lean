import AwaitStore.Config.Address
import AwaitStore.Config.Json
import AwaitStore.Store.Kind
import AwaitStore.Wire.Frame

namespace AwaitStore.Config

structure Settings where
  bindAddress : String := "127.0.0.1"
  /-- Port 0 stands for any free port. -/
  port : Nat := 12345
  maxConnections : Nat := 16
  maxFrame : Nat := Wire.defaultMaxFrame
  backend : String := "multi_condition"
  shards : Nat := 64
  shrinkInterval : Nat := 30
  conditions : Nat := 32
  level : String := "warn"
  deriving DecidableEq, Repr

inductive Invalid where
  | bindAddress (address : String)
  | maxConnections
  | maxFrame
  | backend (name : String) (shards : Nat)
  | shrinkInterval
  | conditions
  deriving DecidableEq, Repr

def Invalid.message : Invalid → String
  | bindAddress address => s!"Invalid bind address '{address}'. Must be an IPv4 or IPv6 address"
  | maxConnections => "max_connections must be at least 1"
  | maxFrame => "max_frame_size must be at least 16 bytes"
  | backend name shards =>
      s!"Invalid backend '{name}' (shards = {shards}). Must be one of: simple, multi_condition, " ++
        "sharded (with shards > 0)"
  | shrinkInterval => "shrink_interval_secs must be at least 1"
  | conditions => "client conditions must be at least 1"

namespace Settings

def fault? (s : Settings) : Option Invalid :=
  if (Address.parse? s.bindAddress).isNone then some (.bindAddress s.bindAddress)
  else if s.maxConnections = 0 then some .maxConnections
  else if s.maxFrame < 16 then some .maxFrame
  else if (Store.Kind.ofName? s.backend s.shards).isNone then some (.backend s.backend s.shards)
  else if s.shrinkInterval = 0 then some .shrinkInterval
  else if s.conditions = 0 then some .conditions
  else none

def maxPort : Nat := 65535

open Json

def readServer (s : Settings) (j : Json) : Option Settings := do
  let fields ← record? ["bind_address", "port", "max_connections", "max_frame_size"] j
  return { s with
    bindAddress := ← get? fields "bind_address" s.bindAddress text?
    port := ← get? fields "port" s.port (natural? maxPort)
    maxConnections := ← get? fields "max_connections" s.maxConnections (natural? maxWord)
    maxFrame := ← get? fields "max_frame_size" s.maxFrame (natural? maxWord) }

def readBackend (s : Settings) (j : Json) : Option Settings := do
  let fields ← record? ["kind", "shards"] j
  return { s with
    backend := ← get? fields "kind" s.backend text?
    shards := ← get? fields "shards" s.shards (natural? maxWord) }

def readThreadPool (s : Settings) (j : Json) : Option Settings := do
  let fields ← record? ["shrink_interval_secs"] j
  return { s with shrinkInterval := ← get? fields "shrink_interval_secs" s.shrinkInterval (natural? maxWord) }

def readClient (s : Settings) (j : Json) : Option Settings := do
  let fields ← record? ["conditions"] j
  return { s with conditions := ← get? fields "conditions" s.conditions (natural? maxWord) }

def readLogging (s : Settings) (j : Json) : Option Settings := do
  let fields ← record? ["level"] j
  return { s with level := ← get? fields "level" s.level text? }

/-- A schema and a comment are allowed and say nothing. -/
def ofJson? (j : Json) : Option Settings := do
  let fields ← record? ["$schema", "_comment", "server", "backend", "thread_pool", "client", "logging"] j
  let _ ← get? fields "$schema" none optionalText?
  let _ ← get? fields "_comment" none optionalText?
  let s : Settings := {}
  let s ← get? fields "server" s (readServer s)
  let s ← get? fields "backend" s (readBackend s)
  let s ← get? fields "thread_pool" s (readThreadPool s)
  let s ← get? fields "client" s (readClient s)
  get? fields "logging" s (readLogging s)

end Settings

end AwaitStore.Config
