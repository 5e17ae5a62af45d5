import HotStuff.Certificate

/-!
# Messages

A `Statement` is what a leader says in each phase of a view, and what a member says on entering a
view; signed, it travels in an envelope that names a phase. A `Vote` goes back to the leader. The
phase on the envelope is not signed, so receivers compare it with the phase in the statement.
-/

namespace HotStuff

/-- What a leader says in a phase, or a member on entering a view. -/
structure Statement where
  view : View
  phase : Phase
  payload : Payload
  /-- The certificate of the phase before, or the highest one known on entering a view. -/
  justify : Certificate
  deriving DecidableEq, Repr

/-- A statement with the seal of its sender. -/
structure SignedStatement where
  body : Statement
  stamp : Seal
  deriving DecidableEq, Repr

/-- The claimed sender. -/
def SignedStatement.signer (s : SignedStatement) : MemberId := s.stamp.signer

/-- A ballot with the seal of one voter. -/
structure Vote where
  ballot : Ballot
  stamp : Seal
  deriving DecidableEq, Repr

/-- A message between members. -/
inductive Message where
  /-- A statement in the envelope for `phase`. -/
  | statement (phase : Phase) (signed : SignedStatement)
  /-- A vote, to the leader of its view. -/
  | vote (vote : Vote)
  deriving DecidableEq, Repr

namespace Message

/-- A statement in the envelope for its own phase. -/
def ofStatement (s : SignedStatement) : Message := .statement s.body.phase s

/-- The kind of a message: the phase on the envelope, or a vote. -/
def kind : Message → String
  | statement phase _ => phase.name
  | vote _ => "Vote"

/-- The view a message belongs to. -/
def view : Message → View
  | statement _ s => s.body.view
  | vote v => v.ballot.view

/-- The seal on a message. -/
def stamp : Message → Seal
  | statement _ s => s.stamp
  | vote v => v.stamp

/-- The claimed sender of a message. -/
def signer (m : Message) : MemberId := m.stamp.signer

end Message

end HotStuff
