import HotStuff.Error
import HotStuff.Network
import HotStuff.Path

/-!
# Why a Node Does Not Start

The causes for which a node's configuration is refused, or the node does not start. Some of them
come from a failure of the consensus below, which is kept.

## Main definitions

* `NodeFault`: the causes.
* `NodeFault.message`: their wording.
* `NodeFault.failure?`: the failure behind a cause.
-/

namespace HotStuff

/-- The formats of a configuration file. -/
inductive FileFormat where
  | json
  | yaml
  deriving DecidableEq, Repr

/-- The name of a format in messages. -/
def FileFormat.name : FileFormat → String
  | json => "JSON"
  | yaml => "YAML"

/-- The causes for which a node does not start. -/
inductive NodeFault where
  /-- The extension of a path is none of a format. -/
  | unknownFormat (path : Path)
  /-- There is no file, or it holds no text. -/
  | unreadable (path : Path)
  | malformed (format : FileFormat)
  | emptyNetwork
  | noKeys
  | zeroMailbox
  /-- The consensus parameters are refused. -/
  | consensus (failure : Failure)
  /-- The key at a position is no secret. -/
  | badKey (position : Nat) (fault : KeyFault)
  | outsider (member : MemberId)
  | listedTwice (member : MemberId)
  /-- The directory for saved states cannot be made. -/
  | noDirectory (path : Path)
  /-- The inbox of a member cannot be made, which ends the process. -/
  | noInbox (fault : InboxFault)
  /-- The engine of a member does not start. -/
  | noEngine (member : MemberId) (failure : Failure)
  | noMembers
  deriving DecidableEq, Repr

namespace NodeFault

/-- The wording of a failure of the consensus. -/
def wording : Failure → String
  | .refused cause => cause.message
  | .overflow o => o.message

/-- The wording of a cause. -/
def message : NodeFault → String
  | unknownFormat path =>
    "unsupported config format for " ++ String.ofList path ++ ": expected .json, .yaml or .yml"
  | unreadable path => "failed to read " ++ String.ofList path
  | malformed format => "failed to parse " ++ format.name ++ " config"
  | emptyNetwork => "network is empty"
  | noKeys => "no hosted member keys"
  | zeroMailbox => "mailbox_size is zero"
  | consensus failure => wording failure
  | badKey position _ => "key #" ++ toString position
  | outsider member => "hosted key " ++ member.short ++ " is not a committee member"
  | listedTwice member => "hosted key " ++ member.short ++ " listed twice"
  | noDirectory path => "failed to create " ++ String.ofList path
  | noInbox fault => fault.message
  | noEngine member _ => "failed to create engine for " ++ member.short
  | noMembers => "no hosted members"

/-- The failure of the consensus behind a cause, if there is one. -/
def failure? : NodeFault → Option Failure
  | consensus failure => some failure
  | badKey _ fault => some (.refused (.invalidKey fault))
  | noEngine _ failure => some failure
  | unknownFormat _ | unreadable _ | malformed _ | emptyNetwork | noKeys | zeroMailbox
  | outsider _ | listedTwice _ | noDirectory _ | noInbox _ | noMembers => none

/-- The wording of a cause with that of the failure behind it, if it has a wording of its own. -/
def fullMessage (fault : NodeFault) : String :=
  match fault, fault.failure? with
  | consensus _, _ => fault.message
  | _, some failure => fault.message ++ ": " ++ wording failure
  | _, none => fault.message

end NodeFault

end HotStuff
