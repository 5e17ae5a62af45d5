import HotStuff.Proofs.Documents
import HotStuff.Wire.Message

/-!
# Messages on the Wire

A message is sent as its compact JSON form, and there are many other texts that it can be read from:
with blanks, in capital digits, with the members in another order, or with lists for records. All of
these agree on what the message is. It comes back from what is sent for it, so reading a message and
sending it on changes nothing but the spelling.

The one condition is on the keys of those who sealed it or a vote in its certificate: these are sent
unchecked, and a reader takes them only as points of the curve. A message that was received meets
it.

## Main definitions

* `Message.signers`: the keys in a message.
* `Message.SignedByPoints`: all of these are points.

## Main results

* `Message.decode?_of_spells`: a message is read from every spelling of its written form.
* `Message.signedByPoints_of_decode?`: a message that was received is signed by points.
* `wire_round_trip`: what is sent for a message is received as the message.
-/

namespace HotStuff

/-! ### The parts of a message -/

/-- A statement comes back if the signers in its certificate are points. -/
theorem Statement.readsBack {st : Statement} (h : ∀ s ∈ st.justify.seals, s.signer.isPoint) :
    ReadsBack st := by
  have hview := View.readsBack st.view
  have hphase := st.phase.readsBack
  have hpayload := st.payload.readsBack
  have hjustify := Certificate.readsBack h
  have hnames : Record.Distinct ["view", "phase", "payload", "justify"] :=
    ⟨by decide, by decide⟩
  refine .of_record rfl hnames ?_ fun r hr hholds => ?_
  · simp [hview.plain, hphase.plain, hpayload.plain, hjustify.plain]
  · refine Option.bind_eq_some_iff.mpr ⟨r, hr, ?_⟩
    rw [hholds.required (by simp) hview.read, hholds.required (by simp) hphase.read,
      hholds.required (by simp) hpayload.read, hholds.required (by simp) hjustify.read]
    rfl

/-- The signers in the certificate of a statement that was read are points. -/
theorem Statement.points_of_obtained {st : Statement} (h : Obtained st) :
    ∀ s ∈ st.justify.seals, s.signer.isPoint := by
  obtain ⟨δ, _, d, hread⟩ := h
  obtain ⟨r, -, hread⟩ := Option.bind_eq_some_iff.mp hread
  obtain ⟨view, -, hread⟩ := Option.bind_eq_some_iff.mp hread
  obtain ⟨phase, -, hread⟩ := Option.bind_eq_some_iff.mp hread
  obtain ⟨payload, -, hread⟩ := Option.bind_eq_some_iff.mp hread
  obtain ⟨justify, hjustify, hread⟩ := Option.bind_eq_some_iff.mp hread
  cases hread
  exact Certificate.points_of_obtained (Record.obtained_of_required hjustify)

/-- A signed statement comes back if all keys in it are points. -/
theorem SignedStatement.readsBack {s : SignedStatement} (hsigner : s.signer.isPoint)
    (h : ∀ t ∈ s.body.justify.seals, t.signer.isPoint) : ReadsBack s := by
  have hbody := Statement.readsBack h
  have hstamp := Seal.readsBack hsigner
  have hnames : Record.Distinct ["data", "seal"] := ⟨by decide, by decide⟩
  refine .of_record rfl hnames ?_ fun r hr hholds => ?_
  · simp [hbody.plain, hstamp.plain]
  · refine Option.bind_eq_some_iff.mpr ⟨r, hr, ?_⟩
    rw [hholds.required (by simp) hbody.read, hholds.required (by simp) hstamp.read]
    rfl

/-- All keys in a signed statement that was read are points. -/
theorem SignedStatement.points_of_obtained {s : SignedStatement} (h : Obtained s) :
    s.signer.isPoint ∧ ∀ t ∈ s.body.justify.seals, t.signer.isPoint := by
  obtain ⟨δ, _, d, hread⟩ := h
  obtain ⟨r, -, hread⟩ := Option.bind_eq_some_iff.mp hread
  obtain ⟨body, hbody, hread⟩ := Option.bind_eq_some_iff.mp hread
  obtain ⟨stamp, hstamp, hread⟩ := Option.bind_eq_some_iff.mp hread
  cases hread
  exact ⟨Seal.point_of_obtained (Record.obtained_of_required hstamp),
    Statement.points_of_obtained (Record.obtained_of_required hbody)⟩

/-- A vote comes back if its signer is a point. -/
theorem Vote.readsBack {v : Vote} (h : v.stamp.signer.isPoint) : ReadsBack v := by
  have hballot := v.ballot.readsBack
  have hstamp := Seal.readsBack h
  have hnames : Record.Distinct ["data", "seal"] := ⟨by decide, by decide⟩
  refine .of_record rfl hnames ?_ fun r hr hholds => ?_
  · simp [hballot.plain, hstamp.plain]
  · refine Option.bind_eq_some_iff.mpr ⟨r, hr, ?_⟩
    rw [hholds.required (by simp) hballot.read, hholds.required (by simp) hstamp.read]
    rfl

/-- The signer of a vote that was read is a point. -/
theorem Vote.point_of_obtained {v : Vote} (h : Obtained v) : v.stamp.signer.isPoint := by
  obtain ⟨δ, _, d, hread⟩ := h
  obtain ⟨r, -, hread⟩ := Option.bind_eq_some_iff.mp hread
  obtain ⟨ballot, -, hread⟩ := Option.bind_eq_some_iff.mp hread
  obtain ⟨stamp, hstamp, hread⟩ := Option.bind_eq_some_iff.mp hread
  cases hread
  exact Seal.point_of_obtained (Record.obtained_of_required hstamp)

/-! ### Messages -/

namespace Message

/-- **The keys in a message**: that of its sender, and those of the votes in its certificate. -/
def signers : Message → List MemberId
  | statement _ s => s.signer :: s.body.justify.seals.map Seal.signer
  | vote v => [v.stamp.signer]

/-- All keys in a message are points of the curve. -/
def SignedByPoints (m : Message) : Prop := ∀ key ∈ m.signers, key.isPoint

instance (m : Message) : Decidable m.SignedByPoints :=
  inferInstanceAs (Decidable (∀ key ∈ m.signers, key.isPoint))

/-- The keys in a statement are those of its sender and of its certificate. -/
theorem signedByPoints_statement {phase : Phase} {s : SignedStatement} :
    (statement phase s).SignedByPoints ↔
      s.signer.isPoint ∧ ∀ t ∈ s.body.justify.seals, t.signer.isPoint := by
  simp [SignedByPoints, signers]

/-- The key in a vote is that of its sender. -/
theorem signedByPoints_vote {v : Vote} : (vote v).SignedByPoints ↔ v.stamp.signer.isPoint := by
  simp [SignedByPoints, signers]

/-- No phase has the name of the votes, and each has its own. -/
theorem find?_name (phase : Phase) :
    utf8 phase.name ≠ utf8 "Vote" ∧
      (Phase.all.find? fun p => utf8 p.name == utf8 phase.name) = some phase := by
  cases phase <;> decide

/-- The body of a message is plain, and read as the message where its kind is known. -/
theorem readsBack_body {m : Message} (h : m.SignedByPoints) :
    m.body.Plain ∧ ofBody? (utf8 m.kind) m.body = some m := by
  cases m with
  | statement phase s =>
      obtain ⟨hsigner, hseals⟩ := signedByPoints_statement.mp h
      have hs : ReadsBack s := SignedStatement.readsBack hsigner hseals
      obtain ⟨hvote, hphase⟩ := find?_name phase
      refine ⟨hs.plain, ?_⟩
      rw [ofBody?, kind, if_neg hvote, hphase]
      exact congrArg (Option.map (statement phase)) hs.read
  | vote v =>
      have hv : ReadsBack v := Vote.readsBack (signedByPoints_vote.mp h)
      refine ⟨hv.plain, ?_⟩
      rw [ofBody?, kind, if_pos rfl]
      exact congrArg (Option.map vote) hv.read

/-- **A message is written as a plain value**, if all keys in it are points. -/
theorem plain_toJson {m : Message} (h : m.SignedByPoints) : (toJson m).Plain := by
  have hvote : Utf8.isValid (utf8 "Vote") := by decide
  have hkind : Utf8.isValid (utf8 m.kind) := by
    cases m with
    | statement phase s => exact phase.isValid_name
    | vote v => exact hvote
  have hnames : Record.Distinct ["type", "body"] := ⟨by decide, by decide⟩
  refine Record.plain_record hnames ?_
  simp only [List.forall_mem_cons, List.not_mem_nil, false_implies, implies_true, and_true]
  exact ⟨.scalar (.string hkind), (readsBack_body h).1⟩

/-- The written form of a message gives the kind first, then the body. -/
theorem ofJson?_toJson (m : Message) :
    ofJson? (toJson m) = ofBody? (utf8 m.kind) m.body := by
  have hnames : utf8 "type" ≠ utf8 "body" := by decide
  have hfields : (toJson m).fields? =
      some [(utf8 "type", Json.str m.kind), (utf8 "body", m.body)] :=
    Record.fields?_record [("type", Json.str m.kind), ("body", m.body)]
  have hitems : (toJson m).items? = none := rfl
  rw [ofJson?, hitems]
  simp only [hfields, Option.bind_some, ofMembers?]
  simp [hnames, ofParts?, Json.str, Json.variant?]

/-- **A message is read from every spelling of its written form.** -/
theorem decode?_of_spells {m : Message} (h : m.SignedByPoints) {text : Bytes}
    (hspells : Json.Spells (toJson m) text) : decode? text = some m := by
  rw [decode?, Json.parse_of_spells hspells, Option.bind_some, ofJson?_toJson]
  exact (readsBack_body h).2

/-- **A message is read back from its encoding.** -/
theorem decode?_encode {m : Message} (h : m.SignedByPoints) : decode? m.encode = some m :=
  decode?_of_spells h (Json.spells_compact (plain_toJson h))

/-! ### Messages that were received -/

/-- All keys in a body that was read are points, whatever kind it was read as. -/
theorem signedByPoints_of_ofBody? {δ : Type} [Document δ] {kind : Bytes} {d : δ} {m : Message}
    (h : ofBody? kind d = some m) : m.SignedByPoints := by
  rw [ofBody?] at h
  split at h
  · obtain ⟨v, hread, rfl⟩ := Option.map_eq_some_iff.mp h
    exact signedByPoints_vote.mpr (Vote.point_of_obtained ⟨δ, _, d, hread⟩)
  · split at h
    · obtain ⟨s, hread, rfl⟩ := Option.map_eq_some_iff.mp h
      exact signedByPoints_statement.mpr (SignedStatement.points_of_obtained ⟨δ, _, d, hread⟩)
    · cases h

/-- Whether the body or the kind came first, the body is read. -/
theorem signedByPoints_of_ofParts? {early : Bool} {kind body : Json} {m : Message}
    (h : ofParts? early kind body = some m) : m.SignedByPoints := by
  rw [ofParts?] at h
  split at h
  · cases h
  · split at h
    · split at h
      · exact signedByPoints_of_ofBody? h
      · cases h
    · exact signedByPoints_of_ofBody? h

/-- Wherever the kind stands among the members, all keys in what was read are points. -/
theorem signedByPoints_of_ofMembers? {members : List (Bytes × Json)} {m : Message}
    (h : ofMembers? members = some m) : m.SignedByPoints := by
  rw [ofMembers?] at h
  split at h
  · split at h
    · cases h
    · split at h
      · exact signedByPoints_of_ofParts? h
      · exact signedByPoints_of_ofParts? h
  · cases h

/-- A message may be an object or an array of its two parts; all keys in what was read are
points. -/
theorem signedByPoints_of_ofJson? {value : Json} {m : Message} (h : ofJson? value = some m) :
    m.SignedByPoints := by
  rw [ofJson?] at h
  split at h
  · exact signedByPoints_of_ofParts? h
  · cases h
  · obtain ⟨members, -, hmembers⟩ := Option.bind_eq_some_iff.mp h
    exact signedByPoints_of_ofMembers? hmembers

/-- **A message that was received is signed by points.** -/
theorem signedByPoints_of_decode? {bytes : Bytes} {m : Message} (h : decode? bytes = some m) :
    m.SignedByPoints := by
  obtain ⟨value, -, hvalue⟩ := Option.bind_eq_some_iff.mp h
  exact signedByPoints_of_ofJson? hvalue

end Message

/-! ### The round trip -/

/-- **The wire round trip.** What is sent for a message signed by points is received as the message.
And whatever bytes a message was received from, it is signed by points and comes back from what is
sent for it. -/
theorem wire_round_trip (m : Message) :
    (m.SignedByPoints → Message.decode? m.encode = some m) ∧
    ∀ bytes, Message.decode? bytes = some m →
      m.SignedByPoints ∧ Message.decode? m.encode = some m := by
  refine ⟨Message.decode?_encode, fun bytes hbytes => ?_⟩
  have hpoints := Message.signedByPoints_of_decode? hbytes
  exact ⟨hpoints, Message.decode?_encode hpoints⟩

namespace Respelling

/-- The generator of the curve as a key. -/
def key : MemberId := ⟨Bytes.toVector 32 (0x58 :: List.replicate 31 0x66)⟩

/-- A vote of that key, under no signature to speak of. -/
def vote : Message :=
  .vote ⟨⟨.prepare, 0xFFFFFFFFFFFFFFFF, ⟨⟨[]⟩, [0xAB]⟩⟩, ⟨key, default⟩⟩

/-- The same vote as a list, with blanks, with capital digits, and with names out of order. -/
def text : Bytes :=
  utf8 "[ \"Vote\",\n\x7b\"seal\": [\" 58" ++ List.replicate 62 0x36 ++ utf8 "\", \"" ++
    List.replicate 128 0x30 ++ utf8 "\"], \"data\":\x7b\"payload\": [\"\", \"aB\"], \"view\": " ++
    utf8 "18446744073709551615, \"note\": null, \"phase\": \x7b\"Prepare\": null\x7d\x7d\x7d ]"

end Respelling

open Respelling in
/-- A vote that is spelled in an unusual way is received, is signed by a point, and is received from
the usual spelling as well; the two spellings differ. -/
theorem wire_round_trip_of_respelling :
    Message.decode? text = some vote ∧ vote.encode ≠ text ∧ vote.SignedByPoints ∧
      Message.decode? vote.encode = some vote := by
  have htext : Message.decode? text = some vote := by decide +kernel
  have hpoints : vote.SignedByPoints := by decide +kernel
  refine ⟨htext, by decide +kernel, ((wire_round_trip vote).2 text htext).1, ?_⟩
  exact (wire_round_trip vote).1 hpoints

end HotStuff
