import HotStuff.Proofs.Spelling
import HotStuff.Wire.Value

/-!
# Values Come Back from Documents

What is written for a value is a plain JSON value, and reading that gives the value back. Keys are
the one condition: a key is written as it is and read only if it is a point of the curve. The other
way round, whatever document a value was read from, in this format or in another one, all keys in it
are points; so such a value can be written and read again.

Hexadecimal text is where the details are. Its digits are plain characters and no blanks, so nothing
is lost where blanks are taken off a key.

## Main definitions

* `ReadsBack`: what is written for a value is plain and read back.
* `Obtained`: the value was read from some document.

## Main results

* `Certificate.readsBack`: a certificate comes back if its signers are points.
* `Certificate.points_of_obtained`: the signers of a certificate that was read are points.
-/

namespace HotStuff

/-! ### Plain characters -/

namespace Utf8

/-- The characters of bytes below 128. -/
def latin (bs : Bytes) : List Char := bs.map fun b => Char.ofNat b.toNat

/-- Reading bytes below 128 adds the characters with these numbers to those read so far. By
induction on the bytes, each of them is read as a character of its own. -/
theorem decodeUpTo_ascii {bs : Bytes} (h : ∀ b ∈ bs, b < 0x80) (acc : List Char) :
    decodeUpTo bs.length bs acc = some (acc.reverse ++ latin bs) := by
  induction bs generalizing acc with
  | nil => simp [decodeUpTo, latin]
  | cons b bs ih =>
      obtain ⟨hb, hbs⟩ := List.forall_mem_cons.mp h
      have hchar : decodeChar? (b :: bs) = some (Char.ofNat b.toNat, bs) := by
        rw [decodeChar?.eq_def]
        exact if_pos hb
      rw [List.length_cons, decodeUpTo, hchar]
      simp only [ih hbs, latin, List.reverse_cons, List.append_assoc, List.map_cons,
        List.singleton_append]

/-- Bytes below 128 are the characters with these numbers. -/
theorem decode?_ascii {bs : Bytes} (h : ∀ b ∈ bs, b < 0x80) : decode? bs = some (latin bs) :=
  decodeUpTo_ascii h []

/-- Bytes below 128 are a text. -/
theorem isValid_ascii {bs : Bytes} (h : ∀ b ∈ bs, b < 0x80) : isValid bs := by
  rw [isValid, decode?_ascii h]
  rfl

/-- The characters of bytes below 128 are written as these bytes. -/
theorem encode_latin {bs : Bytes} (h : ∀ b ∈ bs, b < 0x80) : encode (latin bs) = bs := by
  have hall : ∀ b : UInt8, b < 0x80 → encodeChar (Char.ofNat b.toNat) = [b] :=
    Bytes.forall_byte (by decide +kernel)
  induction bs with
  | nil => rfl
  | cons b bs ih =>
      obtain ⟨hb, hbs⟩ := List.forall_mem_cons.mp h
      rw [latin, encode, List.map_cons, List.flatMap_cons, hall b hb]
      exact congrArg (b :: ·) (ih hbs)

end Utf8

/-- A text without blanks has none at its ends. -/
theorem Text.trim_eq_self {s : List Char} (h : ∀ c ∈ s, isBlank c = false) : trim s = s := by
  have hstay (t : List Char) (ht : ∀ c ∈ t, isBlank c = false) : t.dropWhile isBlank = t := by
    cases t with
    | nil => rfl
    | cons c t => exact List.dropWhile_cons_of_neg (by simp [ht c (List.mem_cons_self ..)])
  rw [trim, hstay s h, hstay s.reverse (by simpa using h), List.reverse_reverse]

/-! ### Hexadecimal text -/

/-- The bytes of a vector are read back as the vector. -/
theorem Bytes.toVector_toList {n : Nat} (v : Vector UInt8 n) : toVector n v.toList = v := by
  apply Vector.toList_inj.mp
  simp [toVector, Vector.toList, List.take_of_length_le]

namespace Hex

/-- A digit is a plain character, and no blank. -/
theorem digit_plain {n : UInt8} (h : n < 16) :
    digit n < 0x80 ∧ Text.isBlank (Char.ofNat (digit n).toNat) = false := by
  have hall : ∀ n : UInt8, n < 16 →
      digit n < 0x80 ∧ Text.isBlank (Char.ofNat (digit n).toNat) = false :=
    Bytes.forall_byte (by decide +kernel)
  exact hall n h

/-- Hexadecimal text consists of plain characters, and no blank is among them. -/
theorem encode_plain (bs : Bytes) :
    ∀ d ∈ encode bs, d < 0x80 ∧ Text.isBlank (Char.ofNat d.toNat) = false := by
  have hdigits : ∀ b : UInt8, b / 16 < 16 ∧ b % 16 < 16 := Bytes.forall_byte (by decide +kernel)
  induction bs with
  | nil => simp [encode]
  | cons b bs ih =>
      rw [encode, List.forall_mem_cons, List.forall_mem_cons]
      exact ⟨digit_plain (hdigits b).1, digit_plain (hdigits b).2, ih⟩

/-- Hexadecimal text has no blank at its ends, so trimming leaves it as it is. -/
theorem trimBytes_encode (bs : Bytes) : Text.trimBytes (encode bs) = encode bs := by
  have hascii : ∀ d ∈ encode bs, d < 0x80 := fun d hd => (encode_plain bs d hd).1
  have hblank : ∀ c ∈ Utf8.latin (encode bs), Text.isBlank c = false := by
    intro c hc
    obtain ⟨d, hd, rfl⟩ := List.mem_map.mp hc
    exact (encode_plain bs d hd).2
  rw [Text.trimBytes, Utf8.decode?_ascii hascii]
  simp only [Text.trim_eq_self hblank, Utf8.encode_latin hascii]

/-- Hexadecimal text of a vector is read back as the vector. -/
theorem decodeExact_encode {n : Nat} (v : Vector UInt8 n) :
    decodeExact n (encode v.toList) = .ok v := by
  simp [decodeExact, decodePairs_encode, Except.map, Bytes.toVector_toList]

end Hex

/-- Bytes are written as a plain scalar. -/
theorem plain_toHexJson (bs : Bytes) : bs.toHexJson.Plain :=
  .scalar (.string (Utf8.isValid_ascii fun d hd => (Hex.encode_plain bs d hd).1))

/-- Bytes that are written as hexadecimal text are read back. -/
theorem readHex?_toHexJson (bs : Bytes) : readHex? bs.toHexJson = some bs := by
  rw [readHex?, Bytes.toHexJson]
  exact congrArg Except.toOption (Hex.decode_encode bs)

/-! ### Records -/

namespace Record

/-- Names that tell fields apart: texts, no two of them the same. -/
structure Distinct (names : List String) : Prop where
  nodup : (names.map utf8).Nodup
  valid : ∀ name ∈ names, Utf8.isValid (utf8 name)

/-- A record holds the members of an object. -/
def Holds (r : Record Json) (members : List (String × Json)) : Prop :=
  ∀ name value, (name, value) ∈ members → r.get? name = some value

/-- A field that has to be there is read from the member of the record that has its name. -/
theorem Holds.required {r : Record Json} {members : List (String × Json)} (h : r.Holds members)
    {α : Type} [Readable α] {name : String} {value : Json} {a : α} (hmem : (name, value) ∈ members)
    (hread : Readable.read? value = some a) : r.required? name = some a := by
  rw [required?, h name value hmem]
  exact hread

/-- A field that may be left out is read from the member of the record that has its name. -/
theorem Holds.optional {r : Record Json} {members : List (String × Json)} (h : r.Holds members)
    {α : Type} [Readable α] {name : String} {value : Json} {a : Option α}
    (hmem : (name, value) ∈ members) (hread : Readable.read? value = some a) :
    r.optional? name = some a := by
  rw [optional?, h name value hmem]
  exact hread

/-- The members of an object as they are read. -/
def fieldsOf (members : List (String × Json)) : List (Bytes × Json) :=
  members.map fun m => (utf8 m.1, m.2)

/-- The fields of an object are its members, with their names as bytes. -/
theorem fields?_record (members : List (String × Json)) :
    Document.fields? (Json.record members) = some (fieldsOf members) := by
  show List.mapM _ _ = _
  rw [List.mapM_map]
  induction members with
  | nil => rfl
  | cons m members ih =>
      rw [List.mapM_cons, ih]
      rfl

/-- A record with the members of an object holds them if no name is there twice. -/
theorem holds_fieldsOf {members : List (String × Json)}
    (hnodup : ((members.map Prod.fst).map utf8).Nodup) :
    Holds ⟨true, fieldsOf members⟩ members := by
  intro name value hmem
  induction members with
  | nil => cases hmem
  | cons m members ih =>
      rw [List.map_cons, List.map_cons, List.nodup_cons] at hnodup
      rcases List.mem_cons.mp hmem with rfl | hlater
      · rw [get?, fieldsOf, List.map_cons, List.find?_cons_of_pos (by simp)]
        rfl
      · have hne : utf8 m.1 ≠ utf8 name := fun heq =>
          hnodup.1 (heq ▸ List.mem_map_of_mem (List.mem_map_of_mem hlater))
        rw [get?, fieldsOf, List.map_cons, List.find?_cons_of_neg (by simpa using hne)]
        exact ih hnodup.2 hlater

/-- **An object is read as a record that holds its members.** -/
theorem exists_read {members : List (String × Json)} (h : Distinct (members.map Prod.fst)) :
    ∃ r : Record Json, read? (members.map Prod.fst) (Json.record members) = some r ∧
      r.Holds members := by
  refine ⟨_, ?_, holds_fieldsOf h.nodup⟩
  have hnames : (fieldsOf members).map Prod.fst = (members.map Prod.fst).map utf8 := by
    rw [fieldsOf, List.map_map, List.map_map]
    rfl
  have hknown : (fieldsOf members).filter
      (fun f => ((members.map Prod.fst).map utf8).contains f.1) = fieldsOf members := by
    rw [List.filter_eq_self, ← hnames]
    exact fun f hf => List.contains_iff_mem.mpr (List.mem_map_of_mem hf)
  have hread : read? (members.map Prod.fst) (Json.record members) =
      (Document.fields? (Json.record members)).bind
        (ofFields? ((members.map Prod.fst).map utf8)) := rfl
  rw [hread, fields?_record, Option.bind_some, ofFields?]
  simp only [hknown, hnames]
  exact if_pos h.nodup

/-- An object with distinct names is plain if all its members are. -/
theorem plain_record {members : List (String × Json)} (hnames : Distinct (members.map Prod.fst))
    (h : ∀ m ∈ members, m.2.Plain) : (Json.record members).Plain := by
  refine .object (fun pair hpair => ?_) fun pair hpair => ?_
  · obtain ⟨m, hm, rfl⟩ := List.mem_map.mp hpair
    exact ⟨_, rfl, hnames.valid _ (List.mem_map_of_mem hm)⟩
  · obtain ⟨m, hm, rfl⟩ := List.mem_map.mp hpair
    exact h m hm

end Record

/-! ### What is written is read back -/

/-- **What is written for a value** is plain, and is read back as the value. -/
structure ReadsBack {α : Type} [Writable α] [Readable α] (a : α) : Prop where
  plain : (toJson a).Plain
  read : Readable.read? (toJson a) = some a

section

variable {α : Type} [Writable α] [Readable α]

/-- A value that is written as a record comes back if it can be told from a record that holds the
members. -/
theorem ReadsBack.of_record {a : α} {members : List (String × Json)}
    (hwritten : toJson a = Json.record members)
    (hnames : Record.Distinct (members.map Prod.fst)) (hplain : ∀ m ∈ members, m.2.Plain)
    (hread : ∀ r : Record Json, Record.read? (members.map Prod.fst) (Json.record members) = some r →
      r.Holds members → Readable.read? (Json.record members) = some a) : ReadsBack a := by
  obtain ⟨r, hr, hholds⟩ := Record.exists_read hnames
  constructor
  · rw [hwritten]
    exact Record.plain_record hnames hplain
  · rw [hwritten]
    exact hread r hr hholds

/-- A list comes back if all its items do. -/
theorem ReadsBack.list {xs : List α} (h : ∀ x ∈ xs, ReadsBack x) : ReadsBack xs := by
  constructor
  · refine .array fun item hitem => ?_
    obtain ⟨x, hx, rfl⟩ := List.mem_map.mp hitem
    exact (h x hx).plain
  · have hitems : Readable.read? (toJson xs) =
        (xs.map toJson).mapM (Readable.read? : Json → Option α) := rfl
    rw [hitems, List.mapM_map]
    clear hitems
    induction xs with
    | nil => rfl
    | cons x xs ih =>
        obtain ⟨hx, hxs⟩ := List.forall_mem_cons.mp h
        have hhead : (Readable.read? ∘ toJson) x = some x := hx.read
        rw [List.mapM_cons, hhead, ih hxs]
        rfl

/-- A value that may be absent comes back, if nothing else is written as its absence is. -/
theorem ReadsBack.option {x : Option α} (h : ∀ a, x = some a → ReadsBack a)
    (hpresent : ∀ a, x = some a → (toJson a).isNull = false) : ReadsBack x := by
  cases x with
  | none => exact ⟨.scalar .null, rfl⟩
  | some a =>
      have hread : Readable.read? (toJson (some a)) =
          (readOption? (toJson a) : Option (Option α)) := rfl
      refine ⟨(h a rfl).plain, ?_⟩
      rw [hread, readOption?, show Document.isAbsent? (toJson a) = some (toJson a).isNull from rfl,
        hpresent a rfl, (h a rfl).read]
      rfl

end

/-- A view is written as a number, and comes back. -/
theorem View.readsBack (view : View) : ReadsBack view := ⟨.scalar (.natural view), rfl⟩

/-- The name of a phase is a text. -/
theorem Phase.isValid_name (phase : Phase) : Utf8.isValid (utf8 phase.name) := by
  cases phase <;> decide

/-- A phase is written as its name, and comes back. -/
theorem Phase.readsBack (phase : Phase) : ReadsBack phase := by
  refine ⟨.scalar (.string phase.isValid_name), ?_⟩
  cases phase <;> rfl

/-- A digest comes back, whatever its length. -/
theorem Digest.readsBack (d : Digest) : ReadsBack d :=
  ⟨plain_toHexJson d.bytes, congrArg (Option.map Digest.mk) (readHex?_toHexJson d.bytes)⟩

/-- A signature comes back: what is written for it has the right length. -/
theorem Signature.readsBack (s : Signature) : ReadsBack s := by
  refine ⟨plain_toHexJson s.bytes, ?_⟩
  have hread : Readable.read? (toJson s) = (ofText (Hex.encode s.bytes)).toOption := rfl
  rw [hread, ofText, bytes, Hex.decodeExact_encode]
  rfl

/-- A key comes back if it is a point. -/
theorem MemberId.readsBack {m : MemberId} (h : m.isPoint) : ReadsBack m := by
  refine ⟨plain_toHexJson m.bytes, ?_⟩
  have hread : Readable.read? (toJson m) = (ofText (Hex.encode m.bytes)).toOption := rfl
  rw [hread, ofText, Hex.trimBytes_encode, bytes, Hex.decodeExact_encode]
  exact congrArg Except.toOption (if_pos h)

/-- A payload comes back, with any parent and any data. -/
theorem Payload.readsBack (p : Payload) : ReadsBack p := by
  have hparent := p.parent.readsBack
  have hdata : Readable.read? p.data.toHexJson = some (HexData.mk p.data) :=
    congrArg (Option.map HexData.mk) (readHex?_toHexJson p.data)
  have hnames : Record.Distinct ["parent", "data"] := ⟨by decide, by decide⟩
  refine .of_record rfl hnames ?_ fun r hr hholds => ?_
  · simp [hparent.plain, plain_toHexJson]
  · refine Option.bind_eq_some_iff.mpr ⟨r, hr, ?_⟩
    rw [hholds.required (by simp) hparent.read, hholds.required (by simp) hdata]
    rfl

/-- A ballot comes back. -/
theorem Ballot.readsBack (b : Ballot) : ReadsBack b := by
  have hphase := b.phase.readsBack
  have hview := View.readsBack b.view
  have hpayload := b.payload.readsBack
  have hnames : Record.Distinct ["phase", "view", "payload"] := ⟨by decide, by decide⟩
  refine .of_record rfl hnames ?_ fun r hr hholds => ?_
  · simp [hphase.plain, hview.plain, hpayload.plain]
  · refine Option.bind_eq_some_iff.mpr ⟨r, hr, ?_⟩
    rw [hholds.required (by simp) hphase.read, hholds.required (by simp) hview.read,
      hholds.required (by simp) hpayload.read]
    rfl

/-- A seal comes back if its signer is a point. -/
theorem Seal.readsBack {s : Seal} (h : s.signer.isPoint) : ReadsBack s := by
  have hsigner := MemberId.readsBack h
  have hsignature := s.signature.readsBack
  have hnames : Record.Distinct ["signer", "signature"] := ⟨by decide, by decide⟩
  refine .of_record rfl hnames ?_ fun r hr hholds => ?_
  · simp [hsigner.plain, hsignature.plain]
  · refine Option.bind_eq_some_iff.mpr ⟨r, hr, ?_⟩
    rw [hholds.required (by simp) hsigner.read, hholds.required (by simp) hsignature.read]
    rfl

/-- **A certificate comes back** if its signers are points. -/
theorem Certificate.readsBack {c : Certificate} (h : ∀ s ∈ c.seals, s.signer.isPoint) :
    ReadsBack c := by
  have hballot := c.ballot.readsBack
  have hseals : ReadsBack c.seals := .list fun s hs => Seal.readsBack (h s hs)
  have hnames : Record.Distinct ["data", "votes"] := ⟨by decide, by decide⟩
  refine .of_record rfl hnames ?_ fun r hr hholds => ?_
  · simp [hballot.plain, hseals.plain]
  · refine Option.bind_eq_some_iff.mpr ⟨r, hr, ?_⟩
    rw [hholds.required (by simp) hballot.read, hholds.required (by simp) hseals.read]
    rfl

/-! ### What was read can be written -/

/-- **A value that was read** from a document of some format. -/
def Obtained {α : Type} [Readable α] (a : α) : Prop :=
  ∃ (δ : Type) (_ : Document δ) (d : δ), Readable.read? d = some a

/-- What a field of a record is read as was read from a document. -/
theorem Record.obtained_of_required {δ : Type} [Document δ] {r : Record δ} {name : String}
    {α : Type} [Readable α] {a : α} (h : r.required? name = some a) : Obtained a := by
  obtain ⟨d, -, hread⟩ := Option.bind_eq_some_iff.mp h
  exact ⟨δ, _, d, hread⟩

/-- Each item of a list that was read was read from an item of the document. -/
theorem exists_of_mapM {δ α : Type} {read : δ → Option α} {items : List δ} {xs : List α}
    (h : items.mapM read = some xs) {x : α} (hx : x ∈ xs) : ∃ item ∈ items, read item = some x := by
  induction items generalizing xs with
  | nil =>
      cases h
      cases hx
  | cons item items ih =>
      rw [List.mapM_cons] at h
      obtain ⟨y, hy, h⟩ := Option.bind_eq_some_iff.mp h
      obtain ⟨ys, hys, h⟩ := Option.bind_eq_some_iff.mp h
      cases h
      rcases List.mem_cons.mp hx with rfl | hx
      · exact ⟨item, List.mem_cons_self .., hy⟩
      · obtain ⟨later, hlater, hread⟩ := ih hys hx
        exact ⟨later, List.mem_cons_of_mem _ hlater, hread⟩

/-- What is in a list that was read was read. -/
theorem Obtained.of_mem {α : Type} [Readable α] {xs : List α} (h : Obtained xs) {x : α}
    (hx : x ∈ xs) : Obtained x := by
  obtain ⟨δ, _, d, hread⟩ := h
  obtain ⟨items, -, hitems⟩ := Option.bind_eq_some_iff.mp hread
  obtain ⟨item, -, hitem⟩ := exists_of_mapM hitems hx
  exact ⟨δ, _, item, hitem⟩

/-- **A key that was read is a point.** -/
theorem MemberId.point_of_obtained {m : MemberId} (h : Obtained m) : m.isPoint := by
  obtain ⟨δ, _, d, hread⟩ := h
  obtain ⟨text, -, htext⟩ := Option.bind_eq_some_iff.mp hread
  rw [ofText] at htext
  split at htext
  · cases htext
  · split at htext
    · next hpoint =>
        cases htext
        exact hpoint
    · cases htext

/-- The signer of a seal that was read is a point. -/
theorem Seal.point_of_obtained {s : Seal} (h : Obtained s) : s.signer.isPoint := by
  obtain ⟨δ, _, d, hread⟩ := h
  obtain ⟨r, -, hread⟩ := Option.bind_eq_some_iff.mp hread
  obtain ⟨signer, hsigner, hread⟩ := Option.bind_eq_some_iff.mp hread
  obtain ⟨signature, -, hread⟩ := Option.bind_eq_some_iff.mp hread
  cases hread
  exact MemberId.point_of_obtained (Record.obtained_of_required hsigner)

/-- **The signers of a certificate that was read are points.** -/
theorem Certificate.points_of_obtained {c : Certificate} (h : Obtained c) :
    ∀ s ∈ c.seals, s.signer.isPoint := by
  obtain ⟨δ, _, d, hread⟩ := h
  obtain ⟨r, -, hread⟩ := Option.bind_eq_some_iff.mp hread
  obtain ⟨ballot, -, hread⟩ := Option.bind_eq_some_iff.mp hread
  obtain ⟨seals, hseals, hread⟩ := Option.bind_eq_some_iff.mp hread
  cases hread
  exact fun s hs => Seal.point_of_obtained ((Record.obtained_of_required hseals).of_mem hs)

end HotStuff
