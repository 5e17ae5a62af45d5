import HotStuff.Config
import HotStuff.Disk
import HotStuff.Node.Fault
import HotStuff.Wire.Saved
import HotStuff.Yaml
import HotStuff.Yaml.Writing

/-!
# The Configuration of a Node

A node hosts some members of a committee. Its configuration names the network, holds the
secrets of the hosted members, and says where their states are saved, beside the parameters
that all members share.

## Main definitions

* `NodeConfig.validate`: what a configuration has to satisfy before the node starts.
* `NodeConfig.load`: a configuration from a file.
* `NodeConfig.yaml`: the file for a configuration.
* `NodeConfig.devnet`: a network for development, hosted by one node.
-/

namespace HotStuff

/-- The format that the extension of a path stands for. -/
def FileFormat.ofPath? (path : Path) : Option FileFormat :=
  path.extension?.bind fun extension =>
    [("json".toList, FileFormat.json), ("yaml".toList, .yaml), ("yml".toList, .yaml)].lookup
      extension

/-- What a node hosts. -/
structure NodeConfig where
  /-- The name of the network. -/
  network : String
  /-- The secrets of the hosted members in hexadecimal. -/
  keys : List String
  /-- The directory for saved states, which are kept in memory if there is none. -/
  dataDir : Option Path := none
  /-- The size of a hosted member's inbox. -/
  mailboxSize : UInt64 := 1024
  /-- The parameters that all members share. -/
  consensus : Config
  deriving DecidableEq, Repr

namespace NodeConfig

/-! ### Written form -/

/-- The names of the fields, in the order in which they are written. -/
def fieldNames : List String := ["network", "keys", "data_dir", "mailbox_size", "consensus"]

instance : Writable NodeConfig where
  toJson c := .record [("network", toJson c.network), ("keys", toJson c.keys),
    ("data_dir", toJson (c.dataDir.map String.ofList)), ("mailbox_size", toJson c.mailboxSize),
    ("consensus", toJson c.consensus)]

instance : Readable NodeConfig where
  read? d := do
    let r ← Record.read? fieldNames d
    let directory : Option String ← r.defaulted? "data_dir" none
    return {
      network := ← r.required? "network"
      keys := ← r.required? "keys"
      dataDir := directory.map String.toList
      mailboxSize := ← r.defaulted? "mailbox_size" 1024
      consensus := ← r.required? "consensus" }

/-- The text of a configuration file in YAML. -/
def yaml (config : NodeConfig) : List Char := Yaml.render (toJson config)

/-! ### Validation -/

variable (config : NodeConfig)

/-- The secrets that texts are the hexadecimal forms of, the first text standing at a position. -/
def secretsFrom (position : Nat) : List String → Except NodeFault (List Secret)
  | [] => .ok []
  | text :: rest =>
    match Secret.ofText (utf8 text) with
    | .error fault => .error (.badKey position fault)
    | .ok secret => do return secret :: (← secretsFrom (position + 1) rest)

/-- The secrets of the hosted members. -/
def secrets : Except NodeFault (List Secret) := secretsFrom 0 config.keys

/-- The member that a secret belongs to. -/
def member (secret : Secret) : MemberId := config.consensus.hash.scheme.publicKey secret

/-- The hosted members, in the order of their keys. -/
def members : Except NodeFault (List MemberId) := do return (← config.secrets).map config.member

/-- Hosted members have to be in the committee, each of them once. -/
def checkHosted (committee seen : List MemberId) : List MemberId → Except NodeFault Unit
  | [] => .ok ()
  | m :: rest =>
    if m ∉ committee then .error (.outsider m)
    else if m ∈ seen then .error (.listedTwice m)
    else checkHosted committee (m :: seen) rest

/-- Passes a failure of the consensus on. -/
def ofConsensus {α : Type} : Outcome α → Except NodeFault α
  | .ok a => .ok a
  | .error failure => .error (.consensus failure)

/-- **Validation.** What has to hold before a node starts. -/
def validate : Except NodeFault Unit := do
  if config.network.isEmpty then throw .emptyNetwork
  if config.keys.isEmpty then throw .noKeys
  if config.mailboxSize = 0 then throw .zeroMailbox
  ofConsensus (Outcome.ofCheck config.consensus.validate)
  let committee ← ofConsensus (Committee.make config.consensus.members config.consensus.quorum)
  checkHosted committee.members [] (← config.members)

/-- The file that the state of a member is saved in, if there is a directory for it. -/
def statePath? (m : MemberId) : Option Path :=
  config.dataDir.map fun directory => Path.below directory (m.hex ++ ".json").toList

/-! ### Files -/

/-- The configuration that a text in some format holds. -/
def ofText? (format : FileFormat) (text : List Char) : Option NodeConfig :=
  match format with
  | .json => readJson? (Utf8.encode text)
  | .yaml => (Yaml.parse text).bind Readable.read?

/-- A text without the byte order mark in front of it. -/
def withoutMark : List Char → List Char
  | '\uFEFF' :: rest => rest
  | text => text

/-- **Loading.** The configuration in a file, in the format that the path tells. -/
def load (disk : Disk) (path : Path) : Except NodeFault NodeConfig :=
  match FileFormat.ofPath? path with
  | none => .error (.unknownFormat path)
  | some format =>
    match (disk.read path).toOption.bind Utf8.decode? with
    | none => .error (.unreadable path)
    | some text =>
      match ofText? format (withoutMark text) with
      | none => .error (.malformed format)
      | some config => do
        config.validate
        return config

/-! ### Development -/

/-- A network for development: a committee of some size, all of it hosted, with secrets from small
numbers and short periods. -/
def devnet (members : Nat) : NodeConfig :=
  let secrets := Secret.firstOf members
  { network := "tessera-devnet"
    keys := secrets.map Secret.hex
    consensus := {
      members := secrets.map HashAlgorithm.sha256.scheme.publicKey
      timeout := 2000
      interval := 200
      onlineCheck := 5000 } }

end NodeConfig

end HotStuff
