import Mathlib.Data.List.Infix
import HotStuff.Json.Reading
import HotStuff.Json.Writing

/-!
# Spelling and Reading JSON

A value can be spelled in many ways: with blanks between its parts or without, on one line or on
many. What is not free is the order of the parts, the digits of a number, and the escapes of a
string, where the writer's are taken. Whatever the spelling, reading gives the value back. The
compact form is one of the spellings, and so is the indented form.

Reading a value has to stop where its spelling ends. Brackets and quotes see to that themselves; a
number needs something after it that could not be a part of a number. So all that is said of a
scanner is said for a text that `Ends` what comes before.

## Main definitions

* `Json.Plain`: the values that have a written form of their own.
* `Json.Spells`: the spellings of a value.

## Main results

* `Json.scanValue_of_spells`, `Json.parse_of_spells`: a spelling is read as its value.
* `Json.spells_compact`, `Json.spells_indented`: both written forms spell a plain value.
-/

namespace HotStuff.Json

/-! ### Blanks and ends -/

/-- Nothing but blanks. -/
def Blank (s : Bytes) : Prop := ∀ b ∈ s, isBlank b

/-- Nothing is a blank text. -/
theorem Blank.nil : Blank [] := by simp [Blank]

/-- Blanks in front are skipped. -/
theorem skipBlank_append {pre : Bytes} (hpre : Blank pre) (s : Bytes) :
    skipBlank (pre ++ s) = skipBlank s := by
  rw [skipBlank, List.dropWhile_append_of_pos hpre]
  rfl

/-- Of blanks nothing is left when they are skipped. -/
theorem skipBlank_blank {s : Bytes} (h : Blank s) : skipBlank s = [] := by
  rw [← List.append_nil s, skipBlank_append h]
  rfl

/-- What is no blank is not skipped. -/
theorem skipBlank_cons {b : UInt8} (h : isBlank b = false) (s : Bytes) :
    skipBlank (b :: s) = b :: s := by
  rw [skipBlank, List.dropWhile_cons_of_neg (by simp [h])]

/-- **The end of a value**: nothing follows, or a blank, a comma or a closing bracket. -/
def Ends (rest : Bytes) : Prop :=
  ∀ b s, rest = b :: s → isBlank b ∨ b = 0x2C ∨ b = 0x5D ∨ b = 0x7D

/-- The end of the text ends a value. -/
theorem Ends.nil : Ends [] := fun _ _ h => by cases h

/-- Blanks in front of an end are an end, so a value may be followed by them. -/
theorem Ends.of_blank {post rest : Bytes} (hpost : Blank post) (h : Ends rest) :
    Ends (post ++ rest) := by
  cases post with
  | nil => exact h
  | cons b post =>
      rintro c s ⟨⟩
      exact Or.inl (hpost b (List.mem_cons_self ..))

/-- A comma ends a value. -/
theorem ends_comma (s : Bytes) : Ends (0x2C :: s) := by
  rintro b t ⟨⟩
  exact Or.inr (Or.inl rfl)

/-- A closing bracket ends a value. -/
theorem ends_bracket (s : Bytes) : Ends (0x5D :: s) := by
  rintro b t ⟨⟩
  exact Or.inr (Or.inr (Or.inl rfl))

/-- A closing brace ends a value. -/
theorem ends_brace (s : Bytes) : Ends (0x7D :: s) := by
  rintro b t ⟨⟩
  exact Or.inr (Or.inr (Or.inr rfl))

/-- What ends a value goes on with no number. -/
theorem Ends.head {rest : Bytes} (h : Ends rest) {b : UInt8} {s : Bytes} (heq : rest = b :: s) :
    isDigit b = false ∧ b ≠ 0x2E ∧ b ≠ 0x65 ∧ b ≠ 0x45 := by
  have hall : ∀ b : UInt8, (isBlank b ∨ b = 0x2C ∨ b = 0x5D ∨ b = 0x7D) →
      isDigit b = false ∧ b ≠ 0x2E ∧ b ≠ 0x65 ∧ b ≠ 0x45 :=
    Bytes.forall_byte (by decide +kernel)
  exact hall b (h b s heq)

/-! ### Strings -/

/-- Whether a control character has no shorter escape than its number. -/
def isNumbered (b : UInt8) : Bool := b < 0x20 && (escaped b).length == 6

/-- The piece that a byte of a text is read as. -/
def pieceOf (b : UInt8) : Piece := if isNumbered b then .unit b.toNat else .byte b

/-- The escape of a byte: its number, a short one, or none. -/
theorem escaped_cases (b : UInt8) :
    (isNumbered b ∧ ∃ c d, escaped b = [0x5C, 0x75, 0x30, 0x30, c, d] ∧
        codeUnit? 0x30 0x30 c d = some b.toNat) ∨
      (isNumbered b = false ∧ ∃ e, escaped b = [0x5C, e] ∧ e ≠ 0x75 ∧ escape? e = some b) ∨
      (isNumbered b = false ∧ escaped b = [b] ∧ b ≠ 0x22 ∧ b ≠ 0x5C ∧ ¬ b < 0x20) := by
  have h : ∀ b : UInt8, (isNumbered b ∧ escaped b = [0x5C, 0x75, 0x30, 0x30, 0x30 + b / 16,
          if b % 16 < 10 then 0x30 + b % 16 else 0x57 + b % 16] ∧
        codeUnit? 0x30 0x30 (0x30 + b / 16)
          (if b % 16 < 10 then 0x30 + b % 16 else 0x57 + b % 16) = some b.toNat) ∨
      (isNumbered b = false ∧ escaped b = [0x5C, (escaped b).getLast!] ∧
        (escaped b).getLast! ≠ 0x75 ∧ escape? (escaped b).getLast! = some b) ∨
      (isNumbered b = false ∧ escaped b = [b] ∧ b ≠ 0x22 ∧ b ≠ 0x5C ∧ ¬ b < 0x20) :=
    Bytes.forall_byte (by decide +kernel)
  exact (h b).imp (fun ⟨hn, h⟩ => ⟨hn, _, _, h⟩) (Or.imp_left fun ⟨hn, h⟩ => ⟨hn, _, h⟩)

/-- **An escape is read as its byte.** -/
theorem scanString_escaped (b : UInt8) (read : List Piece) (rest : Bytes) :
    scanString read (escaped b ++ rest) = scanString (pieceOf b :: read) rest := by
  rcases escaped_cases b with ⟨hn, c, d, h, hunit⟩ | ⟨hn, e, h, hne, hescape⟩ |
    ⟨hn, h, hquote, hslash, hcontrol⟩
  · rw [h, pieceOf, if_pos hn]
    simp only [List.cons_append, List.nil_append, scanString, hunit]
  · rw [h, pieceOf, hn]
    simp [scanString, hne, hescape]
  · rw [h, pieceOf, hn]
    simp [scanString, hslash, hcontrol]

/-- **A text is read from its escapes** up to the quotation mark, after the pieces read before it.
By induction on the text, one byte at a time. -/
theorem scanString_quoted (text rest : Bytes) (read : List Piece) :
    scanString read (text.flatMap escaped ++ 0x22 :: rest) =
      some (read.reverse ++ text.map pieceOf, rest) := by
  induction text generalizing read with
  | nil => simp [scanString]
  | cons b text ih =>
      rw [List.flatMap_cons, List.append_assoc, scanString_escaped, ih]
      simp

/-- A code unit that is no half of a pair stands for itself. -/
theorem joinPieces_unit {n : Nat} (hn : n < 0xD800) (read : Bytes) (pieces : List Piece) :
    joinPieces read (.unit n :: pieces) =
      joinPieces ((encodeScalar n).reverse ++ read) pieces := by
  have hpair : ¬ (0xD800 ≤ n ∧ n < 0xDC00) := by omega
  have hlow : ¬ (0xDC00 ≤ n ∧ n < 0xE000) := by omega
  have hhalf : ¬ (0xD800 ≤ n ∧ n < 0xE000) := by omega
  cases pieces with
  | nil => simp only [joinPieces, if_neg hhalf]
  | cons piece pieces =>
      cases piece with
      | byte b => simp only [joinPieces, if_neg hhalf]
      | unit m => rw [joinPieces, if_neg hpair, if_neg hlow]

/-- A byte that is escaped by its number is a character of its own, and no half of a pair. -/
theorem encodeScalar_of_numbered {b : UInt8} (h : isNumbered b) :
    b.toNat < 0xD800 ∧ encodeScalar b.toNat = [b] := by
  have hall : ∀ b : UInt8, isNumbered b → b.toNat < 0xD800 ∧ encodeScalar b.toNat = [b] :=
    Bytes.forall_byte (by decide +kernel)
  exact hall b h

/-- The pieces that bytes are read as join into these bytes. -/
theorem joinPieces_pieceOf (read text : Bytes) :
    joinPieces read (text.map pieceOf) = some (read.reverse ++ text) := by
  induction text generalizing read with
  | nil => simp [joinPieces]
  | cons b text ih =>
      rw [List.map_cons, pieceOf]
      split
      · next hn =>
          obtain ⟨hlt, hscalar⟩ := encodeScalar_of_numbered hn
          rw [joinPieces_unit hlt, hscalar, ih]
          simp
      · rw [joinPieces, ih]
        simp

/-- **A string in quotes is read as its text.** -/
theorem textOf_pieceOf {text : Bytes} (h : Utf8.isValid text) :
    textOf (text.map pieceOf) = some text := by
  rw [textOf, joinPieces_pieceOf]
  exact if_pos h

/-! ### Numbers -/

/-- Every number has a digit. -/
theorem digits_ne_nil (n : Nat) : digits n ≠ [] := by
  rw [digits, Ne, List.map_eq_nil_iff]
  exact Nat.toDigits_ne_nil

/-- The byte of a digit has its value. -/
theorem byte_of_isDigit {c : Char} (h : c.isDigit) :
    isDigit (UInt8.ofNat c.toNat) ∧ (UInt8.ofNat c.toNat).toNat = c.toNat := by
  have hrange : 48 ≤ c.toNat ∧ c.toNat ≤ 57 := by
    simpa [Char.isDigit, UInt32.le_iff_toNat_le] using h
  have hbyte : (UInt8.ofNat c.toNat).toNat = c.toNat := by
    rw [UInt8.toNat_ofNat']
    exact Nat.mod_eq_of_lt (by omega)
  refine ⟨?_, hbyte⟩
  simp only [isDigit, Bool.and_eq_true, decide_eq_true_eq, UInt8.le_iff_toNat_le, hbyte]
  exact hrange

/-- Numbers are written with digits only. -/
theorem isDigit_of_mem_digits {n : Nat} {b : UInt8} (h : b ∈ digits n) : isDigit b := by
  obtain ⟨c, hc, rfl⟩ := List.mem_map.mp h
  exact (byte_of_isDigit (Nat.isDigit_of_mem_toDigits (by decide) (by decide) hc)).1

/-- Digits are read back as the number that they were written for. -/
theorem ofDigits_digits (n : Nat) : ofDigits (digits n) = n := by
  calc ofDigits (digits n)
      = Nat.ofDigitChars 10 (Nat.toDigits 10 n) 0 := by
        rw [ofDigits, digits, List.foldl_map, Nat.ofDigitChars]
        refine List.foldl_ext _ _ _ fun sofar c hc => ?_
        have hdigit := Nat.isDigit_of_mem_toDigits (by decide) (by decide) hc
        rw [(byte_of_isDigit hdigit).2, Nat.mul_comm]
        rfl
    _ = n := Nat.ofDigitChars_ten_toDigits

/-- No number above zero is written with a zero in front. -/
theorem head?_toDigits {n : Nat} (h : 0 < n) : (Nat.toDigits 10 n).head? ≠ some '0' := by
  induction n using Nat.strongRecOn with
  | ind n ih =>
      rw [Nat.toDigits_eq_if (by decide)]
      split
      · next hlt =>
          have hall : ∀ n < 10, 0 < n → [Nat.digitChar n].head? ≠ some '0' := by decide
          exact hall n hlt h
      · next hle =>
          rw [List.head?_append_of_ne_nil _ Nat.toDigits_ne_nil]
          exact ih (n / 10) (by omega) (by omega)

/-- A number of several digits does not begin with zero, as a reader would stop behind that. -/
theorem digits_ne_zero_cons (n : Nat) (b : UInt8) (s : Bytes) : digits n ≠ 0x30 :: b :: s := by
  intro h
  rcases Nat.eq_zero_or_pos n with rfl | hpos
  · cases h
  · obtain ⟨c, cs, hchars⟩ := List.exists_cons_of_ne_nil (Nat.toDigits_ne_nil (n := n) (b := 10))
    have hdigit : c.isDigit :=
      Nat.isDigit_of_mem_toDigits (by decide) (by decide) (hchars ▸ List.mem_cons_self ..)
    rw [digits, hchars, List.map_cons] at h
    have hcode : c.toNat = '0'.toNat := by
      rw [← (byte_of_isDigit hdigit).2, (List.cons.inj h).1]
      rfl
    have hzero : c = '0' := Char.toNat_inj.mp hcode
    exact head?_toDigits hpos (by rw [hchars, hzero]; rfl)

/-- The digits of a number are taken up to its end. -/
theorem someDigits_digits (n : Nat) {rest : Bytes} (hrest : Ends rest) :
    someDigits (digits n ++ rest) = some (digits n, rest) := by
  have hdigits : ∀ b ∈ digits n, isDigit b := fun b => isDigit_of_mem_digits
  have hstop : rest.takeWhile isDigit = [] ∧ rest.dropWhile isDigit = rest := by
    cases rest with
    | nil => exact ⟨rfl, rfl⟩
    | cons b rest =>
        have hnot : isDigit b = false := (hrest.head rfl).1
        exact ⟨List.takeWhile_cons_of_neg (by simp [hnot]),
          List.dropWhile_cons_of_neg (by simp [hnot])⟩
  rw [someDigits, List.takeWhile_append_of_pos hdigits, List.dropWhile_append_of_pos hdigits,
    hstop.1, hstop.2, List.append_nil]
  exact if_neg (by simpa using digits_ne_nil n)

/-- A number is read as an integer up to its end. -/
theorem integerPart_digits (n : Nat) {rest : Bytes} (hrest : Ends rest) :
    integerPart (digits n ++ rest) = some (digits n, rest) := by
  rw [integerPart, someDigits_digits n hrest]
  split
  · next heq => exact absurd (Prod.mk.inj (Option.some.inj heq)).1 (digits_ne_zero_cons n _ _)
  · rfl

/-- Where a number ends there is no fraction. -/
theorem fractionPart_of_ends {rest : Bytes} (hrest : Ends rest) :
    fractionPart rest = some ([], rest) := by
  rw [fractionPart.eq_def]
  split
  · exact absurd rfl (hrest.head rfl).2.1
  · rfl

/-- Where a number ends there is no exponent. -/
theorem exponentPart_of_ends {rest : Bytes} (hrest : Ends rest) :
    exponentPart rest = some ((false, 0), rest) := by
  rw [exponentPart.eq_def]
  split
  · exact absurd rfl (hrest.head rfl).2.2.1
  · exact absurd rfl (hrest.head rfl).2.2.2
  · rfl

/-- The digits of a number begin with one. -/
theorem digits_eq_cons (n : Nat) : ∃ b s, digits n = b :: s ∧ isDigit b := by
  obtain ⟨b, s, h⟩ := List.exists_cons_of_ne_nil (digits_ne_nil n)
  exact ⟨b, s, h, isDigit_of_mem_digits (h ▸ List.mem_cons_self ..)⟩

/-- **A number is read up to its end.** -/
theorem scanNumber_digits (n : UInt64) {rest : Bytes} (hrest : Ends rest) :
    scanNumber (digits n.toNat ++ rest) = some (.natural n, rest) := by
  have hunsigned (s : Bytes) : digits n.toNat ++ rest ≠ 0x2D :: s := by
    obtain ⟨b, ds, hdigits, hdigit⟩ := digits_eq_cons n.toNat
    rw [hdigits]
    rintro ⟨⟩
    exact absurd hdigit (by decide)
  have hlt : n.toNat < Nat.pow 2 64 := n.toNat_lt
  rw [scanNumber]
  simp only [integerPart_digits n.toNat hrest, fractionPart_of_ends hrest,
    exponentPart_of_ends hrest, ofDigits_digits, bind, Option.bind, hlt]
  · simp
  · exact hunsigned

/-! ### Values without parts -/

/-- The values without parts that have a written form of their own. -/
inductive Scalar : Json → Prop
  | null : Scalar .null
  | bool (value : Bool) : Scalar (.bool value)
  | natural (n : UInt64) : Scalar (.natural n)
  | string {text : Bytes} (h : Utf8.isValid text) : Scalar (.string (some text))

/-- No word begins with a digit, nor does a string, an array or an object. -/
theorem scanValue_of_isDigit {b : UInt8} (h : isDigit b) (s : Bytes) (fuel : Nat) :
    scanValue (fuel + 1) (b :: s) = scanNumber (b :: s) := by
  have hall : ∀ b : UInt8, isDigit b → isBlank b = false ∧
      (b ≠ 0x22 ∧ b ≠ 0x5B ∧ b ≠ 0x7B) ∧ ¬ 0x6E = b ∧ ¬ 0x74 = b ∧ ¬ 0x66 = b :=
    Bytes.forall_byte (by decide +kernel)
  obtain ⟨hblank, ⟨hquote, hbracket, hbrace⟩, hnull, htrue, hfalse⟩ := hall b h
  have hword (w : UInt8) (word : Bytes) (hne : ¬ w = b) : after? (w :: word) (b :: s) = none :=
    if_neg hne
  rw [scanValue, skipBlank_cons hblank]
  split
  · next heq => exact absurd (List.cons.inj heq).1 hquote
  · next heq => exact absurd (List.cons.inj heq).1 hbracket
  · next heq => exact absurd (List.cons.inj heq).1 hbrace
  · rw [scanScalar, show utf8 "null" = [0x6E, 0x75, 0x6C, 0x6C] from rfl, hword _ _ hnull,
      show utf8 "true" = [0x74, 0x72, 0x75, 0x65] from rfl, hword _ _ htrue,
      show utf8 "false" = [0x66, 0x61, 0x6C, 0x73, 0x65] from rfl, hword _ _ hfalse]

/-- **A value without parts is read up to its end.** -/
theorem scanValue_scalar {v : Json} (h : Scalar v) {rest : Bytes} (hrest : Ends rest)
    (fuel : Nat) : scanValue (fuel + 1) (scalar v ++ rest) = some (v, rest) := by
  cases h with
  | null => rfl
  | bool value =>
      cases value with
      | true => rfl
      | false => rfl
  | natural n =>
      obtain ⟨b, s, hdigits, hdigit⟩ := digits_eq_cons n.toNat
      have hnumber := scanNumber_digits n hrest
      rw [hdigits] at hnumber
      rw [scalar, hdigits]
      exact (scanValue_of_isDigit hdigit _ _).trans hnumber
  | @string text htext =>
      have hscan := scanString_quoted text rest []
      have hquoted : scalar (.string (some text)) ++ rest =
          0x22 :: (text.flatMap escaped ++ 0x22 :: rest) := by
        simp [scalar, quoted]
      rw [hquoted, scanValue, skipBlank_cons (by decide)]
      simp only [hscan, Option.map_some, List.reverse_nil, List.nil_append, textOf_pieceOf htext]

/-! ### Spellings -/

/-- Texts with a comma between them. -/
def commaed : List Bytes → Bytes
  | [] => []
  | [s] => s
  | s :: ss => s ++ 0x2C :: commaed ss

/-- **A member of an object as it is spelled**: its name with the blanks around it, and its value
with a spelling of that. -/
structure Member where
  before : Bytes
  name : Bytes
  after : Bytes
  value : Json
  text : Bytes

namespace Member

/-- What a member is read as. -/
def toPair (m : Member) : Option Bytes × Json := (some m.name, m.value)

/-- The spelling of a member. -/
def spelling (m : Member) : Bytes := m.before ++ quoted m.name ++ m.after ++ 0x3A :: m.text

end Member

/-- **The spellings of a value**: blanks may stand between any two of its parts, and around it. -/
inductive Spells : Json → Bytes → Prop
  | padded {v pre s post} (hpre : Blank pre) (hpost : Blank post) (h : Spells v s) :
      Spells v (pre ++ s ++ post)
  | scalar {v} (h : Scalar v) : Spells v (scalar v)
  | emptyArray {s} (hs : Blank s) : Spells (.array []) (0x5B :: s ++ [0x5D])
  | array {items : List (Json × Bytes)} (hne : items ≠ []) (h : ∀ p ∈ items, Spells p.1 p.2) :
      Spells (.array (items.map Prod.fst)) (0x5B :: commaed (items.map Prod.snd) ++ [0x5D])
  | emptyObject {s} (hs : Blank s) : Spells (.object []) (0x7B :: s ++ [0x7D])
  | object {members : List Member} (hne : members ≠ [])
      (hname : ∀ m ∈ members, Blank m.before ∧ Utf8.isValid m.name ∧ Blank m.after)
      (h : ∀ m ∈ members, Spells m.value m.text) :
      Spells (.object (members.map Member.toPair))
        (0x7B :: commaed (members.map Member.spelling) ++ [0x7D])

/-- **A text is scanned as a value** in front of anything that ends it, and blanks may be left. -/
def Scans (v : Json) (s : Bytes) : Prop :=
  ∀ fuel rest, s.length < fuel → Ends rest →
    ∃ post, Blank post ∧ scanValue fuel (s ++ rest) = some (v, post ++ rest)

/-- Blanks in front of a value do not matter. -/
theorem scanValue_blank {pre : Bytes} (hpre : Blank pre) (s : Bytes) (fuel : Nat) :
    scanValue fuel (pre ++ s) = scanValue fuel s := by
  cases fuel with
  | zero => rfl
  | succ fuel => rw [scanValue, scanValue, skipBlank_append hpre]

/-- A value may stand between blanks. -/
theorem Scans.padded {v : Json} {pre s post : Bytes} (hpre : Blank pre) (hpost : Blank post)
    (h : Scans v s) : Scans v (pre ++ s ++ post) := by
  intro fuel rest hfuel hrest
  have hlength : s.length < fuel := by
    simp only [List.length_append] at hfuel
    omega
  obtain ⟨left, hleft, hscan⟩ := h fuel (post ++ rest) hlength (hrest.of_blank hpost)
  refine ⟨left ++ post, ?_, ?_⟩
  · intro b hb
    exact (List.mem_append.mp hb).elim (hleft b) (hpost b)
  · rw [List.append_assoc, List.append_assoc, scanValue_blank hpre, hscan, List.append_assoc]

/-- A scalar is scanned in its written form. -/
theorem Scans.scalar {v : Json} (h : Scalar v) : Scans v (scalar v) := by
  intro fuel rest hfuel hrest
  obtain ⟨fuel, rfl⟩ := Nat.exists_eq_add_of_lt hfuel
  exact ⟨[], .nil, scanValue_scalar h hrest _⟩

/-- A closing bracket is no value. -/
theorem scanValue_bracket (fuel : Nat) {s t : Bytes} (h : skipBlank s = 0x5D :: t) :
    scanValue fuel s = none := by
  cases fuel with
  | zero => rfl
  | succ fuel =>
      rw [scanValue, h]
      rfl

/-- Several texts are separated by commas. -/
theorem commaed_cons_cons (s t : Bytes) (ts : List Bytes) :
    commaed (s :: t :: ts) = s ++ 0x2C :: commaed (t :: ts) := rfl

/-- Items are scanned one by one up to the bracket. -/
theorem scanItems_of_scans {items : List (Json × Bytes)} (hne : items ≠ [])
    (h : ∀ p ∈ items, Scans p.1 p.2) (rest : Bytes) {fuel : Nat}
    (hfuel : (commaed (items.map Prod.snd)).length + 1 < fuel) :
    scanItems fuel (commaed (items.map Prod.snd) ++ 0x5D :: rest) =
      some (items.map Prod.fst, rest) := by
  induction items generalizing fuel with
  | nil => exact absurd rfl hne
  | cons p items ih =>
      obtain ⟨hp, hitems⟩ := List.forall_mem_cons.mp h
      obtain ⟨fuel, rfl⟩ := Nat.exists_eq_succ_of_ne_zero (Nat.ne_zero_of_lt hfuel)
      cases items with
      | nil =>
          obtain ⟨post, hpost, hscan⟩ :=
            hp fuel (0x5D :: rest) (Nat.lt_of_succ_lt_succ hfuel) (ends_bracket rest)
          rw [scanItems]
          simp only [List.map_cons, List.map_nil, commaed, hscan, skipBlank_append hpost,
            skipBlank_cons (b := 0x5D) rfl]
      | cons q items =>
          rw [List.map_cons, List.map_cons, commaed_cons_cons, ← List.map_cons] at hfuel ⊢
          rw [List.length_append, List.length_cons] at hfuel
          have hlater : scanItems fuel (commaed ((q :: items).map Prod.snd) ++ 0x5D :: rest) =
              some ((q :: items).map Prod.fst, rest) :=
            ih (List.cons_ne_nil _ _) hitems (by omega)
          obtain ⟨post, hpost, hscan⟩ := hp fuel
            (0x2C :: (commaed ((q :: items).map Prod.snd) ++ 0x5D :: rest)) (by omega)
            (ends_comma _)
          rw [List.append_assoc, List.cons_append, scanItems]
          simp only [hscan, skipBlank_append hpost, skipBlank_cons (b := 0x2C) rfl, hlater]
          rfl

/-- Where a bracket closes at once there are no items to scan, so an array of some items is not
taken for an empty one. -/
theorem scanItems_bracket (fuel : Nat) {s t : Bytes} (h : skipBlank s = 0x5D :: t) :
    scanItems fuel s = none := by
  cases fuel with
  | zero => rfl
  | succ fuel => rw [scanItems, scanValue_bracket fuel h]

/-- An array is scanned up to its bracket. -/
theorem Scans.array {items : List (Json × Bytes)} (hne : items ≠ [])
    (h : ∀ p ∈ items, Scans p.1 p.2) :
    Scans (.array (items.map Prod.fst)) (0x5B :: commaed (items.map Prod.snd) ++ [0x5D]) := by
  intro fuel rest hfuel _
  obtain ⟨fuel, rfl⟩ := Nat.exists_eq_succ_of_ne_zero (Nat.ne_zero_of_lt hfuel)
  simp only [List.length_append, List.length_cons, List.length_nil] at hfuel
  have hitems : scanItems fuel (commaed (items.map Prod.snd) ++ 0x5D :: rest) =
      some (items.map Prod.fst, rest) := scanItems_of_scans hne h rest (by omega)
  refine ⟨[], .nil, ?_⟩
  rw [List.cons_append, List.cons_append, List.append_assoc, scanValue, skipBlank_cons (by decide)]
  simp only [List.singleton_append]
  split
  · next hclosed => cases hitems.symm.trans (scanItems_bracket fuel hclosed)
  · rw [hitems]
    rfl

/-- An empty array may have blanks inside. -/
theorem Scans.emptyArray {s : Bytes} (hs : Blank s) :
    Scans (.array []) (0x5B :: s ++ [0x5D]) := by
  intro fuel rest hfuel _
  obtain ⟨fuel, rfl⟩ := Nat.exists_eq_succ_of_ne_zero (Nat.ne_zero_of_lt hfuel)
  refine ⟨[], .nil, ?_⟩
  rw [List.cons_append, List.cons_append, List.append_assoc, scanValue, skipBlank_cons (by decide)]
  simp only [List.singleton_append, skipBlank_append hs, skipBlank_cons (b := 0x5D) rfl]
  rfl

/-! ### Objects -/

/-- The members that are left after one, up to the brace. -/
theorem scanMembers_spelling {m : Member}
    (hname : Blank m.before ∧ Utf8.isValid m.name ∧ Blank m.after) {fuel : Nat}
    {rest post more : Bytes} (hpost : Blank post)
    (hscan : scanValue fuel (m.text ++ rest) = some (m.value, post ++ more)) :
    scanMembers (fuel + 1) (m.spelling ++ rest) =
      match skipBlank more with
      | 0x7D :: rest => some ([m.toPair], rest)
      | 0x2C :: rest => (scanMembers fuel rest).map fun p => (m.toPair :: p.1, p.2)
      | _ => none := by
  obtain ⟨hbefore, hvalid, hafter⟩ := hname
  have hstring := scanString_quoted m.name (m.after ++ 0x3A :: (m.text ++ rest)) []
  have htext : m.spelling ++ rest = m.before ++ 0x22 :: (m.name.flatMap escaped ++
      0x22 :: (m.after ++ 0x3A :: (m.text ++ rest))) := by
    simp [Member.spelling, quoted]
  rw [htext, scanMembers, skipBlank_append hbefore, skipBlank_cons (by decide)]
  simp only [hstring, skipBlank_append hafter, skipBlank_cons (b := 0x3A) rfl, hscan,
    skipBlank_append hpost, List.reverse_nil, List.nil_append, textOf_pieceOf hvalid]
  rfl

/-- Members are scanned one by one up to the brace. -/
theorem scanMembers_of_scans {members : List Member} (hne : members ≠ [])
    (hname : ∀ m ∈ members, Blank m.before ∧ Utf8.isValid m.name ∧ Blank m.after)
    (h : ∀ m ∈ members, Scans m.value m.text) (rest : Bytes) {fuel : Nat}
    (hfuel : (commaed (members.map Member.spelling)).length + 1 < fuel) :
    scanMembers fuel (commaed (members.map Member.spelling) ++ 0x7D :: rest) =
      some (members.map Member.toPair, rest) := by
  induction members generalizing fuel with
  | nil => exact absurd rfl hne
  | cons m members ih =>
      obtain ⟨hm, hmembers⟩ := List.forall_mem_cons.mp h
      obtain ⟨hmname, hnames⟩ := List.forall_mem_cons.mp hname
      obtain ⟨fuel, rfl⟩ := Nat.exists_eq_succ_of_ne_zero (Nat.ne_zero_of_lt hfuel)
      have hlength : m.text.length < m.spelling.length := by
        simp only [Member.spelling, List.length_append, List.length_cons]
        omega
      cases members with
      | nil =>
          obtain ⟨post, hpost, hscan⟩ := hm fuel (0x7D :: rest)
            (Nat.lt_trans hlength (Nat.lt_of_succ_lt_succ hfuel)) (ends_brace rest)
          simp only [List.map_cons, List.map_nil, commaed]
          rw [scanMembers_spelling hmname hpost hscan, skipBlank_cons (by decide)]
          rfl
      | cons n members =>
          rw [List.map_cons, List.map_cons, commaed_cons_cons, ← List.map_cons] at hfuel ⊢
          rw [List.length_append, List.length_cons] at hfuel
          have hlater : scanMembers fuel
              (commaed ((n :: members).map Member.spelling) ++ 0x7D :: rest) =
                some ((n :: members).map Member.toPair, rest) :=
            ih (List.cons_ne_nil _ _) hnames hmembers (by omega)
          obtain ⟨post, hpost, hscan⟩ := hm fuel
            (0x2C :: (commaed ((n :: members).map Member.spelling) ++ 0x7D :: rest)) (by omega)
            (ends_comma _)
          rw [List.append_assoc, List.cons_append, scanMembers_spelling hmname hpost hscan,
            skipBlank_cons (by decide)]
          simp only [hlater]
          rfl

/-- Where a brace closes at once there are no members to scan, so an object of some members is not
taken for an empty one. -/
theorem scanMembers_brace (fuel : Nat) {s t : Bytes} (h : skipBlank s = 0x7D :: t) :
    scanMembers fuel s = none := by
  cases fuel with
  | zero => rfl
  | succ fuel =>
      rw [scanMembers, h]
      rfl

/-- An object is scanned up to its brace. -/
theorem Scans.object {members : List Member} (hne : members ≠ [])
    (hname : ∀ m ∈ members, Blank m.before ∧ Utf8.isValid m.name ∧ Blank m.after)
    (h : ∀ m ∈ members, Scans m.value m.text) :
    Scans (.object (members.map Member.toPair))
      (0x7B :: commaed (members.map Member.spelling) ++ [0x7D]) := by
  intro fuel rest hfuel _
  obtain ⟨fuel, rfl⟩ := Nat.exists_eq_succ_of_ne_zero (Nat.ne_zero_of_lt hfuel)
  simp only [List.length_append, List.length_cons, List.length_nil] at hfuel
  have hmembers : scanMembers fuel (commaed (members.map Member.spelling) ++ 0x7D :: rest) =
      some (members.map Member.toPair, rest) := scanMembers_of_scans hne hname h rest (by omega)
  refine ⟨[], .nil, ?_⟩
  rw [List.cons_append, List.cons_append, List.append_assoc, scanValue, skipBlank_cons (by decide)]
  simp only [List.singleton_append]
  split
  · next hclosed => cases hmembers.symm.trans (scanMembers_brace fuel hclosed)
  · rw [hmembers]
    rfl

/-- An empty object may have blanks inside. -/
theorem Scans.emptyObject {s : Bytes} (hs : Blank s) :
    Scans (.object []) (0x7B :: s ++ [0x7D]) := by
  intro fuel rest hfuel _
  obtain ⟨fuel, rfl⟩ := Nat.exists_eq_succ_of_ne_zero (Nat.ne_zero_of_lt hfuel)
  refine ⟨[], .nil, ?_⟩
  rw [List.cons_append, List.cons_append, List.append_assoc, scanValue, skipBlank_cons (by decide)]
  simp only [List.singleton_append, skipBlank_append hs, skipBlank_cons (b := 0x7D) rfl]
  rfl

/-! ### Reading what is spelled -/

/-- **A spelling is scanned as its value.** -/
theorem scans_of_spells {v : Json} {s : Bytes} (h : Spells v s) : Scans v s := by
  induction h with
  | padded hpre hpost _ ih => exact ih.padded hpre hpost
  | scalar hscalar => exact .scalar hscalar
  | emptyArray hs => exact .emptyArray hs
  | array hne _ ih => exact .array hne ih
  | emptyObject hs => exact .emptyObject hs
  | object hne hname _ ih => exact .object hne hname ih

/-- **A spelling is read as its value.** -/
theorem parse_of_spells {v : Json} {s : Bytes} (h : Spells v s) : parse s = some v := by
  obtain ⟨post, hpost, hscan⟩ := scans_of_spells h (s.length + 1) [] (Nat.lt_succ_self _) .nil
  rw [List.append_nil, List.append_nil] at hscan
  rw [parse, hscan]
  simp only [skipBlank_blank hpost]
  rfl

/-! ### Plain values -/

/-- **The values that have a written form of their own**: all numbers are naturals and all strings
texts. -/
inductive Plain : Json → Prop
  | scalar {v} (h : Scalar v) : Plain v
  | array {items} (h : ∀ item ∈ items, Plain item) : Plain (.array items)
  | object {members} (hname : ∀ m ∈ members, ∃ name, m.1 = some name ∧ Utf8.isValid name)
      (h : ∀ m ∈ members, Plain m.2) : Plain (.object members)

/-- A scalar has one written form. -/
theorem Scalar.compact_eq {v : Json} (h : Scalar v) : v.compact = scalar v := by
  cases h with
  | null => rfl
  | bool => rfl
  | natural => rfl
  | string => rfl

/-- The compact form separates items by nothing but commas. -/
theorem compactItems_eq (items : List Json) : compactItems items = commaed (items.map compact) := by
  induction items with
  | nil => rfl
  | cons item items ih =>
      cases items with
      | nil => rfl
      | cons next items =>
          rw [List.map_cons, List.map_cons, commaed_cons_cons, ← List.map_cons, ← ih]
          rfl

/-- A member as the compact form spells it. -/
def Member.ofPair (m : Option Bytes × Json) : Member := ⟨[], m.1.getD [], [], m.2, m.2.compact⟩

/-- The compact form separates members by nothing but commas. -/
theorem compactMembers_eq (members : List (Option Bytes × Json)) :
    compactMembers members = commaed ((members.map Member.ofPair).map Member.spelling) := by
  have hone (m : Option Bytes × Json) :
      (Member.ofPair m).spelling = nameOf m.1 ++ 0x3A :: m.2.compact := by
    simp [Member.spelling, Member.ofPair, nameOf]
  induction members with
  | nil => rfl
  | cons m members ih =>
      cases members with
      | nil => exact (hone m).symm
      | cons next members =>
          rw [List.map_cons, List.map_cons, List.map_cons, List.map_cons, commaed_cons_cons,
            ← List.map_cons, ← List.map_cons, ← ih, hone]
          rfl

/-- The members that the compact form spells are those of the object. -/
theorem Member.toPair_ofPair {members : List (Option Bytes × Json)}
    (hname : ∀ m ∈ members, ∃ name, m.1 = some name ∧ Utf8.isValid name) :
    (members.map Member.ofPair).map Member.toPair = members := by
  rw [List.map_map, List.map_congr_left (g := id), List.map_id]
  intro m hm
  obtain ⟨name, hsome, -⟩ := hname m hm
  rw [Function.comp, Member.toPair, Member.ofPair, hsome]
  exact Prod.ext hsome.symm rfl

/-- **The compact form spells a plain value.** -/
theorem spells_compact {v : Json} (h : Plain v) : Spells v v.compact := by
  induction h with
  | scalar hscalar => exact hscalar.compact_eq ▸ .scalar hscalar
  | @array items _ ih =>
      rw [compact, compactItems_eq]
      by_cases hne : items = []
      · subst hne
        exact .emptyArray .nil
      · let spelled : List (Json × Bytes) := items.map fun v => (v, v.compact)
        have hspells : Spells (.array (spelled.map Prod.fst))
            (0x5B :: commaed (spelled.map Prod.snd) ++ [0x5D]) := by
          refine .array (by simpa [spelled] using hne) fun p hp => ?_
          obtain ⟨v, hv, rfl⟩ := List.mem_map.mp hp
          exact ih v hv
        simpa [spelled, Function.comp_def] using hspells
  | @object members hname _ ih =>
      rw [compact, compactMembers_eq]
      by_cases hne : members = []
      · subst hne
        exact .emptyObject .nil
      · have hspells : Spells (.object ((members.map Member.ofPair).map Member.toPair))
            (0x7B :: commaed ((members.map Member.ofPair).map Member.spelling) ++ [0x7D]) := by
          refine .object (by simpa using hne) (fun m hm => ?_) fun m hm => ?_
          · obtain ⟨pair, hpair, rfl⟩ := List.mem_map.mp hm
            obtain ⟨name, hsome, hvalid⟩ := hname pair hpair
            refine ⟨.nil, ?_, .nil⟩
            rw [Member.ofPair, hsome]
            exact hvalid
          · obtain ⟨pair, hpair, rfl⟩ := List.mem_map.mp hm
            exact ih pair hpair
        rwa [Member.toPair_ofPair hname] at hspells

/-- **What is written is read back.** -/
theorem parse_compact {v : Json} (h : Plain v) : parse v.compact = some v :=
  parse_of_spells (spells_compact h)

/-! ### The indented form -/

/-- A new line is blank, however far it is indented. -/
theorem newLine_blank (level : Nat) : Blank (newLine level) := by
  intro b hb
  rcases List.mem_cons.mp hb with rfl | hb
  · rfl
  · obtain rfl := List.eq_of_mem_replicate hb
    rfl

/-- What follows the last of several texts is a part of that text. -/
theorem commaed_concat_append (ss : List Bytes) (s post : Bytes) :
    commaed (ss ++ [s ++ post]) = commaed (ss ++ [s]) ++ post := by
  induction ss with
  | nil => rfl
  | cons t ss ih =>
      cases ss with
      | nil => simp [commaed]
      | cons u ss =>
          rw [List.cons_append, List.cons_append, List.cons_append, List.cons_append,
            commaed_cons_cons, commaed_cons_cons, ← List.cons_append, ← List.cons_append, ih]
          simp

/-- Blanks may stand in front of the bracket that closes an array. -/
theorem Spells.closeArray {items : List Json} {spell : Json → Bytes} {post : Bytes}
    (hne : items ≠ []) (hpost : Blank post) (h : ∀ item ∈ items, Spells item (spell item)) :
    Spells (.array items) (0x5B :: commaed (items.map spell) ++ post ++ [0x5D]) := by
  obtain ⟨init, last, rfl⟩ := (List.eq_nil_or_concat items).resolve_left hne
  rw [List.concat_eq_append] at h ⊢
  let spelled : List (Json × Bytes) :=
    (init.map fun item => (item, spell item)) ++ [(last, spell last ++ post)]
  have hspells : Spells (.array (spelled.map Prod.fst))
      (0x5B :: commaed (spelled.map Prod.snd) ++ [0x5D]) := by
    refine .array (by simp [spelled]) fun p hp => ?_
    rcases List.mem_append.mp hp with hp | hp
    · obtain ⟨item, hitem, rfl⟩ := List.mem_map.mp hp
      exact h item (List.mem_append_left _ hitem)
    · obtain rfl := List.mem_singleton.mp hp
      exact .padded .nil hpost (h last (List.mem_append_right _ (List.mem_singleton_self _)))
  simpa [spelled, Function.comp_def, commaed_concat_append] using hspells

/-- Blanks may stand in front of the brace that closes an object. -/
theorem Spells.closeObject {members : List Member} {post : Bytes} (hne : members ≠ [])
    (hpost : Blank post)
    (hname : ∀ m ∈ members, Blank m.before ∧ Utf8.isValid m.name ∧ Blank m.after)
    (h : ∀ m ∈ members, Spells m.value m.text) :
    Spells (.object (members.map Member.toPair))
      (0x7B :: commaed (members.map Member.spelling) ++ post ++ [0x7D]) := by
  obtain ⟨init, last, rfl⟩ := (List.eq_nil_or_concat members).resolve_left hne
  rw [List.concat_eq_append] at hname h ⊢
  have hlast : last ∈ init ++ [last] := List.mem_append_right _ (List.mem_singleton_self _)
  let padded : Member := { last with text := last.text ++ post }
  have hpadded : padded.spelling = last.spelling ++ post := by simp [padded, Member.spelling]
  have hspells : Spells (.object ((init ++ [padded]).map Member.toPair))
      (0x7B :: commaed ((init ++ [padded]).map Member.spelling) ++ [0x7D]) := by
    refine .object (by simp) (fun m hm => ?_) fun m hm => ?_
    · rcases List.mem_append.mp hm with hm | hm
      · exact hname m (List.mem_append_left _ hm)
      · obtain rfl := List.mem_singleton.mp hm
        exact hname last hlast
    · rcases List.mem_append.mp hm with hm | hm
      · exact h m (List.mem_append_left _ hm)
      · obtain rfl := List.mem_singleton.mp hm
        exact .padded .nil hpost (h last hlast)
  simp only [List.map_append, List.map_cons, List.map_nil, hpadded, commaed_concat_append]
    at hspells ⊢
  exact List.append_assoc (0x7B :: _) post [0x7D] ▸ hspells

/-- A scalar is indented as it is written. -/
theorem Scalar.indented_eq {v : Json} (h : Scalar v) (level : Nat) :
    v.indented level = scalar v := by
  cases h with
  | null => rfl
  | bool => rfl
  | natural => rfl
  | string => rfl

/-- The indented form puts each item on a line of its own. -/
theorem indentedItems_eq (level : Nat) (items : List Json) :
    indentedItems level items =
      commaed (items.map fun item => newLine level ++ item.indented level) := by
  induction items with
  | nil => rfl
  | cons item items ih =>
      cases items with
      | nil => rfl
      | cons next items =>
          rw [indentedItems, ih]
          · rfl
          · exact List.cons_ne_nil _ _

/-- A member as the indented form spells it. -/
def Member.onLine (level : Nat) (m : Option Bytes × Json) : Member :=
  ⟨newLine level, m.1.getD [], [], m.2, 0x20 :: m.2.indented level⟩

/-- The indented form puts each member on a line of its own. -/
theorem indentedMembers_eq (level : Nat) (members : List (Option Bytes × Json)) :
    indentedMembers level members =
      commaed ((members.map (Member.onLine level)).map Member.spelling) := by
  have hone (m : Option Bytes × Json) : (Member.onLine level m).spelling =
      newLine level ++ nameOf m.1 ++ 0x3A :: 0x20 :: m.2.indented level := by
    simp [Member.spelling, Member.onLine, nameOf]
  induction members with
  | nil => rfl
  | cons m members ih =>
      cases members with
      | nil => exact (hone m).symm
      | cons next members =>
          rw [List.map_cons, List.map_cons, List.map_cons, List.map_cons, commaed_cons_cons,
            ← List.map_cons, ← List.map_cons, ← ih, hone, indentedMembers]
          simp

/-- The members that the indented form spells are those of the object. -/
theorem Member.toPair_onLine {level : Nat} {members : List (Option Bytes × Json)}
    (hname : ∀ m ∈ members, ∃ name, m.1 = some name ∧ Utf8.isValid name) :
    (members.map (Member.onLine level)).map Member.toPair = members := by
  rw [List.map_map, List.map_congr_left (g := id), List.map_id]
  intro m hm
  obtain ⟨name, hsome, -⟩ := hname m hm
  rw [Function.comp, Member.toPair, Member.onLine, hsome]
  exact Prod.ext hsome.symm rfl

/-- **The indented form spells a plain value.** -/
theorem spells_indented {v : Json} (h : Plain v) (level : Nat) : Spells v (v.indented level) := by
  induction h generalizing level with
  | scalar hscalar => exact hscalar.indented_eq level ▸ .scalar hscalar
  | @array items _ ih =>
      cases items with
      | nil => exact .emptyArray .nil
      | cons item items =>
          rw [indented, indentedItems_eq]
          refine .closeArray (List.cons_ne_nil _ _) (newLine_blank level) fun v hv => ?_
          rw [← List.append_nil (newLine (level + 1) ++ v.indented (level + 1))]
          exact .padded (newLine_blank _) .nil (ih v hv (level + 1))
  | @object members hname _ ih =>
      cases members with
      | nil => exact .emptyObject .nil
      | cons member members =>
          let lines : List Member := (member :: members).map (Member.onLine (level + 1))
          have hspells : Spells (.object (lines.map Member.toPair))
              (0x7B :: commaed (lines.map Member.spelling) ++ newLine level ++ [0x7D]) := by
            refine .closeObject (List.cons_ne_nil _ _) (newLine_blank level) (fun m hm => ?_)
              fun m hm => ?_
            · obtain ⟨pair, hpair, rfl⟩ := List.mem_map.mp hm
              obtain ⟨name, hsome, hvalid⟩ := hname pair hpair
              refine ⟨newLine_blank _, ?_, .nil⟩
              rw [Member.onLine, hsome]
              exact hvalid
            · obtain ⟨pair, hpair, rfl⟩ := List.mem_map.mp hm
              have hvalue : Spells pair.2 ([0x20] ++ pair.2.indented (level + 1) ++ []) :=
                .padded (by simp [Blank, isBlank]) .nil (ih pair hpair (level + 1))
              rwa [List.append_nil] at hvalue
          rw [Member.toPair_onLine hname] at hspells
          rwa [indented, indentedMembers_eq]

end HotStuff.Json
