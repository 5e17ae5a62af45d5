import HotStuff.Committee

/-!
# Configuration

What the members of a network agree on before they start: who they are, the quorum, the hash
function and the timing. `Context.make` checks a configuration against a local secret; what it
returns is fixed for as long as the member runs.

## Main definitions

* `Config.validate`: no period is zero.
* `Context`: the committee, the scheme and the local key pair, which belongs to a member.
* `Context.verifySigned`: whether a statement comes from the member it names.
-/

namespace HotStuff

/-- The algorithm with a given name, whatever the case of its letters. -/
def HashAlgorithm.ofName (name : String) : Except Error HashAlgorithm :=
  let lower := name.map Char.toLower
  match HashAlgorithm.ofLowerName? lower with
  | some algorithm => .ok algorithm
  | none => .error (.config (.unknownHash lower))

/-- A period in milliseconds, in the words in which configurations are saved. -/
abbrev Millis := UInt64

/-- The parameters that all members share. -/
structure Config where
  /-- The committee, in rotation order. -/
  members : List MemberId
  /-- The quorum, unless it is the default one. -/
  quorum : Option UInt64 := none
  hash : HashAlgorithm := .sha256
  /-- How long a view may go without progress. -/
  timeout : Millis := 10000
  /-- How often a leader looks for a slot to propose in. -/
  interval : Millis := 1000
  /-- How often members are counted as heard from. -/
  onlineCheck : Millis := 5000
  deriving DecidableEq, Repr

/-- No period may be zero. -/
def Config.validate (config : Config) : Except Error Unit :=
  if config.timeout = 0 then .error (.config .zeroTimeout)
  else if config.interval = 0 then .error (.config .zeroInterval)
  else if config.onlineCheck = 0 then .error (.config .zeroOnlineCheck)
  else .ok ()

/-- What a member knows and never changes while it runs. -/
structure Context where
  scheme : Scheme
  committee : Committee
  keypair : Keypair scheme
  timeout : Millis
  /-- The local key pair is one of a member. -/
  me_mem : keypair.member ∈ committee.members

namespace Context

/-- The context of the member with a given secret. -/
def make (config : Config) (secret : Secret) : Outcome Context := do
  Outcome.ofCheck config.validate
  let committee ← Committee.make config.members config.quorum
  let keypair := Keypair.ofSecret config.hash.scheme secret
  if h : keypair.member ∈ committee.members then
    .ok ⟨config.hash.scheme, committee, keypair, config.timeout, h⟩
  else refuse (.notMember keypair.member)

variable (ctx : Context)

/-- The local member. -/
def me : MemberId := ctx.keypair.member

/-- The leader of a view. -/
def leader (view : View) : MemberId := ctx.committee.leader view

/-- Whether the local member leads a view. -/
def leads (view : View) : Bool := ctx.committee.isLeader ctx.me view

/-- A statement under the local seal. -/
def sign (s : Statement) : SignedStatement := ctx.scheme.signStatement ctx.keypair s

/-- A vote under the local seal. -/
def castVote (ballot : Ballot) : Vote := ctx.scheme.castVote ctx.keypair ballot

/-- Whether the signer of a statement is a member and the seal its own. -/
def verifySigned (s : SignedStatement) : Except Error Unit :=
  if s.signer ∉ ctx.committee.members then .error (.unknownSigner s.signer)
  else if !ctx.scheme.statementValid s then .error (.badSignature s.signer)
  else .ok ()

/-- Whether a certificate is valid in the committee. -/
def verify (cert : Certificate) : Except Error Unit := ctx.committee.verify ctx.scheme cert

end Context

end HotStuff
