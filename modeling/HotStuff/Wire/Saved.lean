import HotStuff.Json.Reading
import HotStuff.Json.Writing
import HotStuff.Store
import HotStuff.Wire.Value

/-!
# The Written Form of Saved States and Configurations
-/

namespace HotStuff

instance : Writable SavedState where
  toJson s := .record [("view", toJson s.view), ("prepare_qc", toJson s.prepared),
    ("locked_qc", toJson s.locked), ("committed", toJson s.committed), ("height", toJson s.height)]

instance : Readable SavedState where
  read? d := do
    let r ← Record.read? ["view", "prepare_qc", "locked_qc", "committed", "height"] d
    return ⟨← r.required? "view", ← r.optional? "prepare_qc", ← r.optional? "locked_qc",
      ← r.required? "committed", ← r.required? "height"⟩

/-- The names of the fields of a configuration, in the order in which they are written. -/
def Config.fieldNames : List String :=
  ["members", "quorum", "hash", "consensus_timeout", "consensus_interval",
    "member_online_check_interval"]

instance : Writable Config where
  toJson c := .record [("members", toJson c.members), ("quorum", toJson c.quorum),
    ("hash", toJson c.hash), ("consensus_timeout", toJson c.timeout),
    ("consensus_interval", toJson c.interval),
    ("member_online_check_interval", toJson c.onlineCheck)]

instance : Readable Config where
  read? d := do
    let r ← Record.read? Config.fieldNames d
    let defaults : Config := { members := [] }
    return {
      members := ← r.required? "members"
      quorum := ← r.defaulted? "quorum" defaults.quorum
      hash := ← r.defaulted? "hash" defaults.hash
      timeout := ← r.defaulted? "consensus_timeout" defaults.timeout
      interval := ← r.defaulted? "consensus_interval" defaults.interval
      onlineCheck := ← r.defaulted? "member_online_check_interval" defaults.onlineCheck }

end HotStuff
