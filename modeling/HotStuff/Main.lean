import HotStuff.Node.Hosting
import HotStuff.Node.Options

/-!
# The Program

Reads the configuration of a node, or makes one for development, and runs the node on the clock of
the machine until enough is committed. States are read from their files at the start and written
back as they change.
-/

namespace HotStuff.Program

/-- Puts a file of the machine on a disk, if it can be read. -/
def fetch (disk : Disk) (path : Path) : IO Disk := do
  try
    let content ← IO.FS.readBinFile (String.ofList path)
    return disk.putFile path content.toList
  catch _ => return disk

/-- The configuration to run. -/
def configure (options : Options) : IO (Except NodeFault NodeConfig) := do
  match options.config with
  | some path => return NodeConfig.load (← fetch .empty path) path
  | none =>
    let config := NodeConfig.devnet (options.devnet.getD 0)
    return config.validate.map fun _ => config

/-- The files that the states of the hosted members are saved in. -/
def stateFiles (config : NodeConfig) : List Path :=
  (config.members.toOption.getD []).filterMap config.statePath?

/-- Writes a file by way of a temporary one. -/
def replaceFile (path : Path) (content : Bytes) : IO Unit := do
  let scratch := String.ofList (path.withExtension ['t', 'm', 'p'])
  IO.FS.writeBinFile scratch ⟨content.toArray⟩
  IO.FS.rename scratch (String.ofList path)

/-- Writes the files that differ from those on the disk before. -/
def writeBack (files : List Path) (before after : Disk) : IO Unit := do
  for path in files do
    match (after.read path).toOption with
    | some content =>
      if (before.read path).toOption ≠ some content then replaceFile path content
    | none => pure ()

/-- Reports what the hosted members have announced, each beyond a number of events. -/
def report (options : Options) (shown : List Nat) (node : Node) : IO Unit := do
  for (e, n) in node.net.engines.zip (shown ++ List.replicate node.net.engines.length 0) do
    for line in Report.lines options e.ctx.me (e.events.drop n) do
      IO.eprintln line

/-- Lets the node run on the clock of the machine. `disk` is what has been written of its states,
and `shown` counts what has been reported. -/
partial def serve (options : Options) (files : List Path) (begun : Nat) (disk : Disk)
    (shown : List Nat) (node : Node) : IO (Except Overflow Node) := do
  writeBack files disk node.savedDisk
  report options shown node
  let now := (← IO.monoMsNow) - begun
  match node.runUntilHeight options.rounds (some now) 100000 with
  | .error o => return .error o
  | .ok (reached, next) =>
    if reached then
      writeBack files node.savedDisk next.savedDisk
      report options (node.net.engines.map fun e => e.events.length) next
      return .ok next.stop
    let due := next.net.due?.getD (now + 1)
    IO.sleep (UInt32.ofNat (max 1 (due - now)))
    serve options files begun node.savedDisk (node.net.engines.map fun e => e.events.length) next

/-- Says why the program ends. -/
def complain (words : String) : IO UInt32 := do
  IO.eprintln ("Error: " ++ words)
  return 1

/-- Runs the node of a configuration. -/
def run (options : Options) (config : NodeConfig) : IO UInt32 := do
  match config.dataDir with
  | some directory => IO.FS.createDirAll (String.ofList directory)
  | none => pure ()
  let files := stateFiles config
  let disk ← files.foldlM fetch .empty
  match Node.start config disk with
  | .error fault => complain fault.fullMessage
  | .ok node =>
    match ← serve options files (← IO.monoMsNow) disk [] node with
    | .error o => complain o.message
    | .ok node =>
      for (e, status) in node.net.engines.zip node.statuses do
        IO.println (Report.line options.jsonLogs .info e.ctx.me
          ("view " ++ toString status.view ++ " height " ++ toString status.height ++
            " committed " ++ status.committed.hex))
      return 0

/-- Does what the options ask for. -/
def perform (options : Options) : IO UInt32 := do
  match ← configure options with
  | .error fault => complain fault.fullMessage
  | .ok config =>
    match options.writeConfig with
    | some path =>
      IO.FS.writeFile (String.ofList path) (String.ofList config.yaml)
      return 0
    | none => run options config

end HotStuff.Program

/-- The program. -/
def main (words : List String) : IO UInt32 :=
  match HotStuff.Options.parse words with
  | .ok options => HotStuff.Program.perform options
  | .error fault => HotStuff.Program.complain fault.message
