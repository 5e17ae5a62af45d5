import HotStuff.Action
import HotStuff.Table

/-!
# Metrics

Counts of what a member has done, most of them read off its actions, and their text form: for every
metric a line that says what it means, one with its type, and its samples.

Counts are words of 64 bits, which start from zero again after the last one. The sum of the sizes is
an exact number.

## Main definitions

* `Metrics.observe`: counts the actions that a handler returned.
* `Metrics.lines`: the text form, line by line.
-/

namespace HotStuff

/-- Sizes by power of two, with their number and their sum. -/
structure Histogram where
  count : UInt64
  sum : Nat
  /-- For each bound, how many sizes were not above it. -/
  notAbove : List UInt64
  deriving DecidableEq, Repr

namespace Histogram

/-- The bounds: sixteen, from 64 on, each twice the one before. -/
def bounds : List Nat := (List.range 16).map fun i => 64 * Nat.pow 2 i

/-- Nothing has been counted. -/
def empty : Histogram := ⟨0, 0, bounds.map fun _ => 0⟩

/-- Counts a size. -/
def observe (h : Histogram) (size : Nat) : Histogram where
  count := h.count + 1
  sum := h.sum + size
  notAbove := bounds.zipWith (fun bound n => if size ≤ bound then n + 1 else n) h.notAbove

end Histogram

/-- Counters by label, in the order in which the labels were first used. -/
abbrev Labelled := Table String UInt64

/-- One more under a label. -/
def Labelled.count (t : Labelled) (label : String) : Labelled :=
  Table.insert t label ((Table.get? t label).getD 0 + 1)

/-- What a member counts. -/
structure Metrics where
  commits : UInt64 := 0
  viewChanges : UInt64 := 0
  timeouts : UInt64 := 0
  /-- Certificates formed while leading, by phase. -/
  certified : Labelled := ∅
  /-- Messages received that could be read, by kind. -/
  received : Labelled := ∅
  /-- Messages refused or not readable, by kind. -/
  dropped : Labelled := ∅
  /-- The current view, in a signed word. -/
  view : Int64 := 0
  /-- The current height, in a signed word. -/
  height : Int64 := 0
  /-- The members heard from at the last check. -/
  online : Int64 := 0
  /-- The sizes of the data committed. -/
  payloadBytes : Histogram := .empty

namespace Metrics

instance : Inhabited Metrics := ⟨{}⟩

/-- The metrics of a member that starts in a view at a height. -/
def start (view : View) (height : Height) : Metrics :=
  { view := view.toInt64, height := height.toInt64 }

variable (m : Metrics)

/-- Counts an event. -/
def observeEvent : Event → Metrics
  | .certified _ phase => { m with certified := m.certified.count phase.name }
  | .committed _ height _ => { m with commits := m.commits + 1, height := height.toInt64 }
  | .viewChanged view _ => { m with viewChanges := m.viewChanges + 1, view := view.toInt64 }
  | .timedOut _ => { m with timeouts := m.timeouts + 1 }

/-- Counts an action. -/
def observeAction : Action → Metrics
  | .execute _ _ payload => { m with payloadBytes := m.payloadBytes.observe payload.data.length }
  | .notify event => m.observeEvent event
  | .send _ _ | .broadcast _ | .resetTimer _ => m

/-- Counts what a handler returned. -/
def observe (actions : List Action) : Metrics := actions.foldl observeAction m

/-- Counts a message that could be read. -/
def messageReceived (kind : String) : Metrics := { m with received := m.received.count kind }

/-- Counts a message that was refused or could not be read. -/
def messageDropped (kind : String) : Metrics := { m with dropped := m.dropped.count kind }

/-- Notes how many members are online. -/
def setOnline (n : Int64) : Metrics := { m with online := n }

/-! ### Text form -/

/-- The two lines before the samples of a metric. -/
def header (name help kind : String) : List String :=
  ["# HELP " ++ name ++ " " ++ help ++ ".", "# TYPE " ++ name ++ " " ++ kind]

/-- A counter. -/
def counterLines (name help : String) (n : UInt64) : List String :=
  header name help "counter" ++ [name ++ "_total " ++ toString n]

/-- A gauge. -/
def gaugeLines (name help : String) (n : Int64) : List String :=
  header name help "gauge" ++ [name ++ " " ++ toString n.toInt]

/-- A name with a label in braces, the value as it is. -/
def labelled (name label value : String) : String :=
  name ++ "\x7b" ++ label ++ "=\"" ++ value ++ "\"\x7d"

/-- Counters by label. Without a label in use there is no line at all. -/
def labelledLines (name help label : String) (t : Labelled) : List String :=
  if Table.isEmpty t then []
  else
    header name help "counter" ++
      t.entries.map fun e => labelled (name ++ "_total") label e.1 ++ " " ++ toString e.2

/-- A histogram: its sum, its count, and how many sizes are below each bound. -/
def histogramLines (name help : String) (h : Histogram) : List String :=
  let bucket (bound : String) (n : UInt64) : String :=
    labelled (name ++ "_bucket") "le" bound ++ " " ++ toString n
  header name help "histogram" ++
    [name ++ "_sum " ++ toString h.sum ++ ".0", name ++ "_count " ++ toString h.count] ++
    Histogram.bounds.zipWith (fun bound n => bucket (toString bound ++ ".0") n) h.notAbove ++
    [bucket "+Inf" h.count]

/-- The text form, line by line. -/
def lines : List String :=
  counterLines "tessera_commits" "Committed payloads" m.commits ++
  counterLines "tessera_view_changes" "Views entered" m.viewChanges ++
  counterLines "tessera_view_timeouts" "Views abandoned on timeout" m.timeouts ++
  labelledLines "tessera_qcs_formed" "Quorum certificates formed by this node as leader" "phase"
    m.certified ++
  labelledLines "tessera_messages_received" "Decoded consensus messages received" "kind"
    m.received ++
  labelledLines "tessera_messages_dropped" "Consensus messages dropped by validation" "kind"
    m.dropped ++
  gaugeLines "tessera_view" "Current view" m.view ++
  gaugeLines "tessera_height" "Committed chain height" m.height ++
  gaugeLines "tessera_online_members" "Committee members heard from recently" m.online ++
  histogramLines "tessera_payload_bytes" "Size of committed payload data in bytes"
    m.payloadBytes ++
  ["# EOF"]

/-- The text form. -/
def text : String := String.join (m.lines.map (· ++ "\n"))

/-- The lines that a reader of the text finds. A label may hold line feeds, so lines are told apart
in the text as a whole; a carriage return in front of a line feed belongs to it. -/
def shownLines : List String :=
  (m.text.splitOn "\n").dropLast.map fun line =>
    if line.endsWith "\r" then (line.dropEnd 1).toString else line

/-- The lines that say what the samples are, in their order. -/
def comments : List String := m.shownLines.filter fun line => line.startsWith "#"

/-- The samples, sorted by their bytes. -/
def samples : List String :=
  (m.shownLines.filter fun line => !line.startsWith "#").mergeSort fun a b =>
    Bytes.le (utf8 a) (utf8 b)

end Metrics

end HotStuff
