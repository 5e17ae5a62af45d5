import HotStuff.Message

/-!
# Causes of Failure

Every refusal has its cause as a value, and `message` gives the wording. Some causes carry a second
cause: why a certificate, a proposal or a vote is not valid. Two things can stop an operation that
no cause describes: a counter that would leave 64 bits. That is an `Overflow`, kept apart because
nothing continues after it.

## Main definitions

* `Error`: the causes, with `Error.kind` and `Error.message`.
* `Failure`: a cause or an overflow; `Outcome` is the result of an operation that can meet both.
-/

namespace HotStuff

/-- Why a certificate is refused. -/
inductive CertificateFault where
  | notMember (signer : MemberId)
  | repeatedVote (signer : MemberId)
  | badSeal (signer : MemberId)
  | tooFewVotes (votes quorum : Nat)
  /-- A proposal needs a Prepare certificate. -/
  | proposalPhase (phase : Phase)
  /-- A proposal needs a certificate of an earlier view. -/
  | proposalView (justify proposal : View)
  /-- A phase needs the certificate of the phase before it, for the same view and payload. -/
  | phaseNotJustified (phase : Phase) (expected : Option Phase) (view : View)
  /-- A NewView needs a Prepare certificate of an earlier view. -/
  | newViewJustify (view : View) (phase : Phase) (justify : View)
  /-- A decision needs its own Commit certificate. -/
  | decisionNotJustified (view : View)
  deriving DecidableEq, Repr

/-- Why a proposal, or what follows from one, is refused. -/
inductive ProposalFault where
  /-- Votes are already collected for another payload. -/
  | targetTaken (view : View) (phase : Phase)
  | parentMismatch (parent committed : Digest)
  /-- The leader drives its own phases and takes none from outside. -/
  | ownPhase (phase : Phase) (view : View)
  | payloadMismatch
  | decisionMismatch (committed : Digest)
  | conflictsWithLock (view : View)
  /-- The envelope names another phase than the statement. -/
  | envelopeMismatch (envelope phase : Phase)
  deriving DecidableEq, Repr

/-- Why a vote is refused. -/
inductive VoteFault where
  | noTarget (phase : Phase) (view : View)
  | otherPayload (signer : MemberId)
  | repeatedVote (signer : MemberId)
  | notLeader (view : View)
  deriving DecidableEq, Repr

/-- Why a configuration is refused. -/
inductive ConfigFault where
  | zeroTimeout
  | zeroInterval
  | zeroOnlineCheck
  /-- The name, in lower case, of no hash algorithm. -/
  | unknownHash (name : String)
  deriving DecidableEq, Repr

/-- The causes of failure. -/
inductive Error where
  | emptyCommittee
  | duplicateMember (member : MemberId)
  | invalidQuorum (quorum members : Nat)
  | notMember (member : MemberId)
  | config (fault : ConfigFault)
  | invalidKey (fault : KeyFault)
  | badSignature (signer : MemberId)
  | unknownSigner (signer : MemberId)
  | notLeader (signer : MemberId) (view : View)
  | staleView (got here : View)
  | viewMismatch (got here : View)
  | viewOutOfRange (got here : View)
  | unexpectedPhase (got here : Phase)
  | invalidCertificate (fault : CertificateFault)
  | invalidProposal (fault : ProposalFault)
  | invalidVote (fault : VoteFault)
  /-- Bytes that are no message. -/
  | undecodable
  /-- Saved state that cannot be read back. -/
  | unreadableState
  /-- The medium refused an operation. -/
  | medium
  /-- The engine has been started before. -/
  | alreadyRunning
  deriving DecidableEq, Repr

/-! ### Wording -/

/-- The wording of a fault in a certificate. -/
def CertificateFault.message : CertificateFault → String
  | notMember signer => "vote from non-member " ++ signer.short
  | repeatedVote signer => "duplicate vote from " ++ signer.short
  | badSeal signer => "bad signature from " ++ signer.short
  | tooFewVotes votes quorum => toString votes ++ " votes, need " ++ toString quorum
  | proposalPhase phase => "proposal justified by a " ++ phase.name ++ " certificate"
  | proposalView justify proposal =>
    "justify view " ++ toString justify ++ " is not below proposal view " ++ toString proposal
  | phaseNotJustified phase expected view =>
    let shown := match expected with
      | some p => "Some(" ++ p.name ++ ")"
      | none => "None"
    phase.name ++ " is not justified by a " ++ shown ++ " certificate for view " ++ toString view
  | newViewJustify view phase justify =>
    "NewView for view " ++ toString view ++ " carries a " ++ phase.name ++
      " certificate from view " ++ toString justify
  | decisionNotJustified view =>
    "Decide for view " ++ toString view ++ " is not justified by its Commit certificate"

/-- The wording of a fault in a proposal. -/
def ProposalFault.message : ProposalFault → String
  | targetTaken view phase =>
    "view " ++ toString view ++ " already has a " ++ phase.name ++ " target"
  | parentMismatch parent committed =>
    "parent " ++ parent.hex ++ " does not extend committed " ++ committed.hex
  | ownPhase phase view => phase.name ++ " for view " ++ toString view ++ " is our own"
  | payloadMismatch => "payload differs from the accepted proposal"
  | decisionMismatch committed => "decided payload does not extend committed " ++ committed.hex
  | conflictsWithLock view => "conflicts with certificate locked at view " ++ toString view
  | envelopeMismatch envelope phase =>
    envelope.name ++ " envelope carries " ++ phase.name ++ " data"

/-- The wording of a fault in a vote. -/
def VoteFault.message : VoteFault → String
  | noTarget phase view => "no open " ++ phase.name ++ " target for view " ++ toString view
  | otherPayload signer => signer.short ++ " voted for a different payload"
  | repeatedVote signer => "duplicate vote from " ++ signer.short
  | notLeader view => "vote for view " ++ toString view ++ " sent to a non-leader"

/-- The wording of a fault in a configuration. -/
def ConfigFault.message : ConfigFault → String
  | zeroTimeout => "consensus_timeout is zero"
  | zeroInterval => "consensus_interval is zero"
  | zeroOnlineCheck => "member_online_check_interval is zero"
  | unknownHash name => "unknown hash algorithm: " ++ name

namespace Error

/-- The name of the kind of cause. -/
def kind : Error → String
  | emptyCommittee => "EmptyCommittee"
  | duplicateMember _ => "DuplicateMember"
  | invalidQuorum _ _ => "InvalidQuorum"
  | notMember _ => "NotMember"
  | config _ => "Config"
  | invalidKey _ => "InvalidKey"
  | badSignature _ => "BadSignature"
  | unknownSigner _ => "UnknownSigner"
  | notLeader _ _ => "NotLeader"
  | staleView _ _ => "StaleView"
  | viewMismatch _ _ => "ViewMismatch"
  | viewOutOfRange _ _ => "ViewOutOfRange"
  | unexpectedPhase _ _ => "UnexpectedPhase"
  | invalidCertificate _ => "InvalidQc"
  | invalidProposal _ => "InvalidProposal"
  | invalidVote _ => "InvalidVote"
  | undecodable => "Decode"
  | unreadableState => "Store"
  | medium => "Io"
  | alreadyRunning => "AlreadyRunning"

/-- The wording of a cause. -/
def message : Error → String
  | emptyCommittee => "committee has no members"
  | duplicateMember member => "duplicate committee member: " ++ member.short
  | invalidQuorum quorum members =>
    "invalid quorum " ++ toString quorum ++ " for committee of " ++ toString members
  | notMember member => "local key " ++ member.short ++ " is not a committee member"
  | config fault => "invalid configuration: " ++ fault.message
  | invalidKey fault => "invalid key: " ++ fault.message
  | badSignature signer => "bad signature from " ++ signer.short
  | unknownSigner signer => "signer " ++ signer.short ++ " is not a committee member"
  | notLeader signer view => signer.short ++ " is not the leader of view " ++ toString view
  | staleView got here => "stale view " ++ toString got ++ ", local view is " ++ toString here
  | viewMismatch got here =>
    "view mismatch: message for view " ++ toString got ++ ", local view is " ++ toString here
  | viewOutOfRange got here =>
    "view " ++ toString got ++ " is out of range, local view is " ++ toString here
  | unexpectedPhase got here =>
    "unexpected phase " ++ got.name ++ ", local phase is " ++ here.name
  | invalidCertificate fault => "invalid quorum certificate: " ++ fault.message
  | invalidProposal fault => "invalid proposal: " ++ fault.message
  | invalidVote fault => "invalid vote: " ++ fault.message
  | undecodable => "decode error"
  | unreadableState => "state store error"
  | medium => "I/O error"
  | alreadyRunning => "engine already running"

end Error

/-- An operation whose result leaves 64 bits. -/
inductive Overflow where
  | add
  | multiply
  deriving DecidableEq, Repr

/-- The wording of an overflow. -/
def Overflow.message : Overflow → String
  | add => "attempt to add with overflow"
  | multiply => "attempt to multiply with overflow"

/-- Why an operation has no result. -/
inductive Failure where
  | refused (cause : Error)
  | overflow (at_ : Overflow)
  deriving DecidableEq, Repr

/-- The result of an operation that can be refused or overflow. -/
abbrev Outcome (α : Type) := Except Failure α

/-- Refuses for a cause. -/
def refuse {α : Type} (cause : Error) : Outcome α := .error (.refused cause)

/-- The outcome of a check that can only be refused. -/
def Outcome.ofCheck {α : Type} : Except Error α → Outcome α
  | .ok a => .ok a
  | .error cause => .error (.refused cause)

/-- The outcome of a computation that can only overflow. -/
def Outcome.ofChecked {α : Type} : Except Overflow α → Outcome α
  | .ok a => .ok a
  | .error o => .error (.overflow o)

/-- A computation in two parts succeeds when the first does, and the second on its value. -/
theorem bind_eq_ok {ε α β : Type} {x : Except ε α} {f : α → Except ε β} {b : β} :
    x >>= f = .ok b ↔ ∃ a, x = .ok a ∧ f a = .ok b := by
  cases x with
  | error e => simp [bind, Except.bind]
  | ok a => simp [bind, Except.bind]

/-- What is made of a result is there exactly if the result is. -/
theorem map_eq_ok {ε α β : Type} {x : Except ε α} {f : α → β} {b : β} :
    x.map f = .ok b ↔ ∃ a, x = .ok a ∧ f a = b := by
  cases x with
  | error e => simp [Except.map]
  | ok a => simp [Except.map]

/-- A guard lets through what does not meet its condition. -/
theorem guard_throw_eq_ok {ε α : Type} {c : Prop} [Decidable c] {e : ε} {x : Except ε α} {a : α} :
    (if c then (do let _ ← (throw e : Except ε Unit); x) else x) = .ok a ↔ ¬ c ∧ x = .ok a := by
  by_cases h : c <;> simp [h, throw, throwThe, MonadExceptOf.throw, bind, Except.bind]

/-- A guard that refuses lets through what does not meet its condition. -/
theorem guard_refuse_eq_ok {α : Type} {c : Prop} [Decidable c] {cause : Error} {x : Outcome α}
    {a : α} :
    (if c then (do let _ ← (refuse cause : Outcome Unit); x) else x) = .ok a ↔
      ¬ c ∧ x = .ok a := by
  by_cases h : c <;> simp [h, refuse, bind, Except.bind]

/-- A check that can only be refused succeeds as it is. -/
@[simp] theorem Outcome.ofCheck_eq_ok {α : Type} {x : Except Error α} {a : α} :
    Outcome.ofCheck x = .ok a ↔ x = .ok a := by
  cases x <;> simp [Outcome.ofCheck]

/-- A computation that can only overflow succeeds as it is. -/
@[simp] theorem Outcome.ofChecked_eq_ok {α : Type} {x : Except Overflow α} {a : α} :
    Outcome.ofChecked x = .ok a ↔ x = .ok a := by
  cases x <;> simp [Outcome.ofChecked]

/-! ### The bound on views -/

/-- How far past both the local view and a certified one a message may move a member. -/
def maxViewJump : UInt64 := 65536

/-- **The view bound.** A message may move a member to `view` if that is not the last view and at
most `maxViewJump` past the later of the local and the certified view. -/
def checkViewBound (view here certified : View) : Except Error Unit :=
  let anchor := if here < certified then certified else here
  if view = View.last ∨ (anchor ≤ view ∧ maxViewJump < view - anchor) then
    .error (.viewOutOfRange view here)
  else .ok ()

end HotStuff
