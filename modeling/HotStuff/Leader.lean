import HotStuff.Collector
import HotStuff.Replica

/-!
# Leading a View

The leader of a view waits until a quorum has entered it, proposes once, and turns the votes of each
phase into the certificate that justifies the next one. It holds nothing of its own but the
`Collector`; its own votes come back to it like anyone's.

## Main definitions

* `Leader.onNewView`: a member enters a view that the local member leads.
* `Leader.slot?`: whether there is something to propose now, and on which certificate.
* `Leader.propose`, `Leader.onVote`: the proposal, and what follows from the votes.
-/

namespace HotStuff

/-- A view in which the local member may propose. -/
structure Slot where
  view : View
  /-- The highest certificate that the members in the view brought. -/
  justify : Certificate
  /-- The payload that has to be proposed again, in place of fresh data. -/
  reproposal : Option Payload
  deriving DecidableEq, Repr

/-- Whether a slot asks for fresh data. -/
def Slot.needsPayload (slot : Slot) : Bool := slot.reproposal.isNone

/-- What an announcement came to. -/
structure Entry where
  view : View
  /-- The number of members known to have entered the view. -/
  count : Nat
  /-- Whether they are a quorum. -/
  quorumReached : Bool
  deriving DecidableEq, Repr

namespace Leader

variable (ctx : Context) (votes : Collector)

/-- A member enters a view with the genesis certificate or a valid Prepare certificate of an earlier
view. -/
def checkJustify (data : Statement) : Except Error Unit :=
  let justify := data.justify
  if justify = ctx.scheme.genesis then .ok ()
  else if justify.phase ≠ .prepare ∨ data.view ≤ justify.view then
    .error (.invalidCertificate (.newViewJustify data.view justify.phase justify.view))
  else ctx.verify justify

/-- The checks on an announcement, in their order. -/
def checkNewView (here : View) (msg : SignedStatement) : Except Error Unit := do
  let data := msg.body
  if data.phase ≠ .newView then throw (.unexpectedPhase data.phase .newView)
  ctx.verifySigned msg
  if !ctx.leads data.view then throw (.notLeader ctx.me data.view)
  if data.view < here then throw (.staleView data.view here)
  checkJustify ctx data
  checkViewBound data.view here data.justify.view

/-- Records that a member entered a view that the local member leads. -/
def onNewView (here : View) (msg : SignedStatement) : Except Error (Entry × Collector) := do
  checkNewView ctx here msg
  let (count, votes) ← votes.addNewView ctx.committee msg.body.view msg.signer msg.body.justify
  return (⟨msg.body.view, count, decide (ctx.committee.quorum ≤ count)⟩, votes)

/-- **The slot to propose in.** There is one while the local member leads the current view, has not
proposed in it, and a quorum has entered it. A certified payload that extends the committed chain
may be locked by some members, so it is proposed again. -/
def slot? (state : ReplicaState) : Option Slot :=
  if !ctx.leads state.view || state.phase ≠ .newView then none
  else if votes.newViewCount state.view < ctx.committee.quorum then none
  else
    let justify := (votes.highCertificate ctx.committee state.view).getD ctx.scheme.genesis
    let again := !justify.isGenesis && justify.phase = .prepare &&
      justify.payload.parent = state.committed
    some ⟨state.view, justify, if again then some justify.payload else none⟩

/-- **The proposal for a slot.** Opens its ballot; the data counts only where nothing has to be
proposed again. -/
def propose (slot : Slot) (committed : Digest) (data : Bytes) :
    Except Error (SignedStatement × Collector) := do
  let payload := slot.reproposal.getD ⟨committed, data⟩
  let votes ← votes.openBallot ⟨.prepare, slot.view, payload⟩
  return (ctx.sign ⟨slot.view, .prepare, payload, slot.justify⟩, votes)

/-- The statement that a certificate justifies, and the collector with the ballot on it opened. A
Decide is not voted on, and nothing follows it. -/
def follow (cert : Certificate) : Except Error (Option SignedStatement × Collector) :=
  match cert.phase.successor with
  | none => .ok (none, votes)
  | some next => do
    let votes ←
      if next = .decide then pure votes else votes.openBallot ⟨next, cert.view, cert.payload⟩
    return (some (ctx.sign ⟨cert.view, next, cert.payload, cert⟩), votes)

/-- **Counting a vote.** The result is what the leader says next, if the vote completed a
certificate. A certificate that was formed stays in the collector whatever comes after. -/
def onVote (here : View) (vote : Vote) : Except Error (Option SignedStatement) × Collector :=
  let view := vote.ballot.view
  if !ctx.leads view then (.error (.invalidVote (.notLeader view)), votes)
  else if view ≠ here then (.error (.viewMismatch view here), votes)
  else
    match votes.addVote ctx.scheme ctx.committee vote with
    | .error cause => (.error cause, votes)
    | .ok (.certified cert, counted) =>
      match follow ctx counted cert with
      | .error cause => (.error cause, counted)
      | .ok (said, opened) => (.ok said, opened)
    | .ok (_, counted) => (.ok none, counted)

end Leader

end HotStuff
