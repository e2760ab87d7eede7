import AwaitStore.CommandLine.Connect
import AwaitStore.CommandLine.Files
import AwaitStore.CommandLine.Measure
import AwaitStore.CommandLine.Serve
import AwaitStore.Server.Service
import AwaitStore.Server.Sha256
import Std.Async

namespace AwaitStore.Program

open CommandLine (Exit Host)
open Std.Async (Async)
open Std.Async.TCP (Socket.Client Socket.Server)

def finish (e : Exit) : IO UInt32 := do
  (← IO.getStdout).putStr e.out
  (← IO.getStderr).putStr e.err
  return e.code.toUInt32

def entryAt (path : String) : IO Config.Entry := do
  if !(← (System.mkFilePath [path]).pathExists) then return .absent
  try return .file (← IO.FS.readBinFile path).toList catch _ => return .unreadable

/-- This host, as far as the settings go: only the file that will be asked for is looked at. -/
def thisHost (config : Option String) : IO Host := do
  let home := (← IO.getEnv "HOME").getD ""
  let entry ← entryAt (config.getD (Config.defaultPath home))
  return ⟨fun _ => entry, home, fun _ => true, fun _ => true⟩

def socketAddress (address : Config.Address) (port : Nat) : Std.Net.SocketAddress :=
  match address with
  | .v4 a b c d => .v4 ⟨.ofParts a b c d, port.toUInt16⟩
  | .v6 groups => .v6 ⟨⟨Vector.ofFn fun i => groups.getD i.val 0⟩, port.toUInt16⟩

abbrev Digest := List UInt8

structure Station where
  service : Server.Service Digest
  sockets : Array Socket.Client

abbrev Shared := Std.Mutex Station

def flush (digest : Nat → String → Digest) (s : Station) : IO Station := do
  let mut service := s.service
  for h : i in [0 : s.sockets.size] do
    match service.connections[i]? with
    | none => pure ()
    | some c =>
        let (bytes, _) := Wire.writeFrames .ascending c.outlet.written
        let act ← try
            if !bytes.isEmpty then (s.sockets[i].send bytes.toByteArray).block
            pure Server.Outlet.Step.flush
          catch _ => pure .breakOff
        service := (service.step digest (.writer i act)).getD service
        try
          if service.isClosed i then s.sockets[i].shutdown.block
        catch _ => pure ()
        service := service.update i fun c => { c with outlet := c.outlet.forget }
  return { s with service }

def feed (digest : Nat → String → Digest) (shared : Shared) (steps : List Server.Step) : IO Unit :=
  shared.atomically do
    let s ← get
    let service := steps.foldl (fun s x => (s.step digest x).getD s) s.service
    set (← flush digest { s with service := service.settle digest })

partial def receive (digest : Nat → String → Digest) (shared : Shared) (i : Nat) (socket : Socket.Client) :
    Async Unit := do
  let chunk ← try socket.recv? 65536 catch _ => pure none
  match chunk with
  | none => feed digest shared [.hangUp i]
  | some bytes =>
      feed digest shared [.arrive i bytes.toList]
      receive digest shared i socket

def enter (digest : Nat → String → Digest) (shared : Shared) (socket : Socket.Client) : IO Nat :=
  shared.atomically do
    let s ← get
    let service := (s.service.step digest .connect).getD s.service
    set ({ service, sockets := s.sockets.push socket } : Station)
    pure s.sockets.size

partial def accept (digest : Nat → String → Digest) (shared : Shared) (listener : Socket.Server) :
    Async Unit := do
  let socket ← listener.accept
  socket.noDelay
  Std.Async.background (receive digest shared (← enter digest shared socket) socket)
  accept digest shared listener

/-- The n-th salt, from bytes drawn when the server starts. -/
def saltedDigest (seed : ByteArray) (n : Nat) (password : String) : Digest :=
  Server.Sha256.digest (seed.toList ++ Text.utf8 s!"{n}:{password}")

def serve (host : Host) (l : CommandLine.Launch) : IO UInt32 := do
  match l.start host with
  | .error e => finish e
  | .ok store =>
      let digest := saltedDigest (← IO.getRandomBytes 16)
      let listener ← Socket.Server.mk
      try
        listener.bind (socketAddress l.address l.settings.port)
        listener.listen 128
      catch _ => return 1
      let shared ← Std.Mutex.new
        (⟨.new l.settings.maxFrame l.settings.maxConnections store, #[]⟩ : Station)
      (Std.Async.background (accept digest shared listener) : Async Unit).block
      let interrupted ← Std.Async.Signal.Waiter.mk .sigint false
      let terminated ← Std.Async.Signal.Waiter.mk .sigterm false
      let _ ← IO.waitAny [← interrupted.wait, ← terminated.wait]
      feed digest shared [.shutdown]
      return 0

structure Desk where
  link : Client.Link
  running : List (Nat × Operation)
  calls : Nat
  sent : Nat

def say (text : String) : IO Unit := do
  (← IO.getStdout).putStr text
  (← IO.getStdout).flush

def complain (text : String) : IO Unit := do
  (← IO.getStderr).putStr text
  (← IO.getStderr).flush

def reportOutcome (op : Operation) : Outcome → IO Unit
  | .ok answer => say s!"{Shell.completedText op answer}\n{Client.prompt}"
  | .error e => complain s!"{e.message}\n{Client.prompt}"

def outcomeOf : Client.Result → Outcome
  | .outcome o => o
  | .failed e => .error e
  | .status _ => .error .connectionBroken

def advance (desk : Std.Mutex Desk) (socket : Socket.Client) (steps : List Client.Step) : IO Unit :=
  desk.atomically do
    let d ← get
    let moved := steps.foldl (fun l x => (l.step .ascending x).getD l) d.link
    let link := moved.settle .ascending
    let (bytes, _) := Wire.writeFrames .ascending (link.sent.drop d.sent)
    if !bytes.isEmpty then (socket.send bytes.toByteArray).block
    let mut running := []
    for (call, op) in d.running do
      match link.result? call with
      | some result => reportOutcome op (outcomeOf result)
      | none => running := running ++ [(call, op)]
    set { d with link, running, sent := link.sent.length }

partial def listen (desk : Std.Mutex Desk) (socket : Socket.Client) : Async Unit := do
  let chunk ← try socket.recv? 65536 catch _ => pure none
  match chunk with
  | none => advance desk socket [.hangUp]
  | some bytes =>
      advance desk socket [.arrive bytes.toList]
      listen desk socket

def call (desk : Std.Mutex Desk) (socket : Socket.Client) (request : Client.Request) : IO Nat := do
  let number ← desk.atomically do
    let d ← get
    let running := match request with
      | .perform op => d.running ++ [(d.calls, op)]
      | .logIn .. => d.running
    set { d with running, calls := d.calls + 1 }
    pure d.calls
  advance desk socket [.call number request]
  return number

partial def await (desk : Std.Mutex Desk) (number : Nat) : IO Client.Result := do
  let result ← desk.atomically do return (← get).link.result? number
  match result with
  | some result => return result
  | none =>
      IO.sleep 1
      await desk number

def readLine : IO (Option String) := do
  let line ← (← IO.getStdin).getLine
  return (Client.linesOf line).head?

def ask (prompt : String) : IO (Option String) := do
  say prompt
  readLine

partial def logIn (desk : Std.Mutex Desk) (socket : Socket.Client) : IO (Option (Except StoreError Unit)) := do
  let some username ← ask "Username: " | return none
  let some password ← ask "Password: " | return none
  match ← await desk (← call desk socket (.logIn username password)) with
  | .status status =>
      say s!"{Client.statusMessage status}\n"
      if status.isSuccess then return some (.ok ()) else logIn desk socket
  | .failed e => return some (.error e)
  | .outcome _ => return some (.error .connectionBroken)

partial def runCommands (desk : Std.Mutex Desk) (socket : Socket.Client) (line : Option String) :
    IO UInt32 := do
  match line with
  | none => return 0
  | some line =>
      if (← desk.atomically get).link.broken then
        complain "connection to the server was lost\n"
        return 1
      match Shell.Command.parse line with
      | .error e => complain s!"{e.message}\n{Client.prompt}"
      | .ok command =>
          if command.background then say s!"{Shell.backgroundedText}\n{Client.prompt}"
          let number ← call desk socket (.perform command.operation)
          if !command.background then let _ ← await desk number
      runCommands desk socket (← readLine)

def resolve (address : String) : IO Std.Net.SocketAddress := do
  let parts := address.splitOn ":"
  let host := String.intercalate ":" parts.dropLast
  let host := if host.startsWith "[" then ((host.drop 1).dropEnd 1).toString else host
  match Config.Address.parse? host, CommandLine.number? 65535 (parts.getLastD "") with
  | some a, some port => return socketAddress a port
  | none, some port => do
      match (← (Std.Async.DNS.getAddrInfo host (toString port)).block).toList with
      | .v4 a :: _ => return .v4 ⟨a, port.toUInt16⟩
      | .v6 a :: _ => return .v6 ⟨a, port.toUInt16⟩
      | [] => throw (IO.userError "unknown host")
  | _, none => throw (IO.userError "no port")

def connect (c : CommandLine.Contact) : IO UInt32 := do
  match Client.Link.connect true c.settings.conditions with
  | .error _ => finish (CommandLine.unreachable c.address)
  | .ok link =>
      let socket ← Socket.Client.mk
      try
        (socket.connect (← resolve c.address)).block
        socket.noDelay
      catch _ => return ← finish (CommandLine.unreachable c.address)
      let desk ← Std.Mutex.new (⟨link, [], 0, 0⟩ : Desk)
      (Std.Async.background (listen desk socket) : Async Unit).block
      match ← logIn desk socket with
      | none => return 0
      | some (.error e) => finish (.failure s!"{e.message}\n")
      | some (.ok ()) => runCommands desk socket (← ask Client.prompt)

/-- The workers take turns on one thread; each operation is timed by the clock of the host. -/
partial def drive (b : Bench.Benchmark) (p : Bench.Populated) (r : Bench.Run Bench.SplitMix) :
    IO (Option (Bench.Run Bench.SplitMix)) := do
  if r.ended then return some r
  match r.workers.findIdx? Bench.Run.isWorking with
  | none => drive b p r.unlock
  | some i =>
      match r.claim b.workload i with
      | some r => drive b p r
      | none =>
          let before ← IO.monoNanosNow
          match r.operate 1000000000 b p.keys p.values i with
          | none => return none
          | some (action, r) =>
              let after ← IO.monoNanosNow
              drive b p (action.elim r fun action => r.record i action (.ofNatClamp (after - before)))

def randomSource : IO Bench.SplitMix := do
  let bytes ← IO.getRandomBytes 8
  return ⟨bytes.toList.foldl (fun w b => w * 256 + b.toUInt64) 0⟩

def measure (b : Bench.Benchmark) : IO (Except Bench.Stop Bench.Results) := do
  match (b.population.populate .ascending 1000000000).run (← randomSource) with
  | none => return .error .exhausted
  | some (.error e, _) => return .error (.unbuildable e)
  | some (.ok p, _) =>
      if let .error fault := b.room then return .error (.unbuildable (.tooLarge fault))
      let sources ← (List.range b.workload.workers).mapM fun _ => randomSource
      let before ← IO.monoNanosNow
      match ← drive b p (.start p.store sources) with
      | none => return .error .exhausted
      | some r =>
          let after ← IO.monoNanosNow
          match r.merged with
          | .error e => return .error (.fault (.store e))
          | .ok results => return .ok (b.noteTime (after - before) results)

def write (r : Bench.Report) : IO Bool := do
  try
    IO.FS.writeFile r.path (String.join (r.lines.map (· ++ "\n")))
    say s!"Exported {r.path}\n"
    return true
  catch _ => return false

def writeAll : List Bench.Report → IO (Option Bench.Stop)
  | [] => return none
  | r :: rest => do
      if ← write r then writeAll rest else return some (.fault .report)

def runCells (suite : Bench.Suite) : List Bench.Cell → Bench.Progress →
    IO (Bench.Progress × Option Bench.Stop)
  | [], p => return (p, none)
  | c :: cells, p => do
      match suite.benchmark c with
      | .error fault => return (p, some (.fault fault))
      | .ok b =>
          match ← measure b with
          | .error stop => return (p, some stop)
          | .ok results =>
              match ← writeAll [suite.report c results] with
              | some stop => return (p, some stop)
              | none => runCells suite cells (suite.record c results p)

/-- Whether a directory stands there now; `none` where the way to it is missing. -/
def makeDirectory (path : String) : IO (Option Bool) := do
  try
    IO.FS.createDir path
    return some true
  catch
    | .noFileOrDirectory .. => return none
    | _ => return some (← (System.mkFilePath [path]).isDir)

def makeWay : List String → IO Bool
  | [] => return true
  | path :: above => do
      match ← makeDirectory path with
      | some made => return made
      | none => return (← makeWay above) && (← makeDirectory path) == some true

def runSuite (suite : Bench.Suite) : IO (Option Bench.Stop) := do
  if !(← makeWay (CommandLine.directories suite.outputDir)) then
    return some (.fault (.unwritable suite.outputDir))
  match Bench.Suite.accepted with
  | .error fault => return some (.fault fault)
  | .ok mixes =>
      match ← runCells suite (suite.grid mixes) ⟨[], []⟩ with
      | (_, some stop) => return some stop
      | (p, none) => writeAll (suite.timeReports mixes p.times)

def run : List String → IO UInt32
  | "server" :: arguments => do
      let config := match CommandLine.parse CommandLine.ServeOptions.grammar arguments {} with
        | .ok o => o.config
        | .error _ => none
      let host ← thisHost config
      match CommandLine.launch host arguments with
      | .error e => finish e
      | .ok l => serve host l
  | "client" :: arguments => do
      let config := match CommandLine.parse CommandLine.ConnectOptions.grammar arguments {} with
        | .ok o => o.config
        | .error _ => none
      match CommandLine.contact (← thisHost config) arguments with
      | .error e => finish e
      | .ok c => connect c
  | "tester" :: arguments => do
      match CommandLine.measurement arguments with
      | .error e => finish e
      | .ok suite =>
          match ← runSuite suite with
          | none => return 0
          | some stop => finish (CommandLine.stopped stop)
  | _ => do
      complain "usage: (server | client | tester) ARGUMENTS\n"
      return 2

end AwaitStore.Program

def main (arguments : List String) : IO UInt32 := AwaitStore.Program.run arguments
