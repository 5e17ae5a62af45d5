import HotStuff.Error

/-!
# Spellings of a Key

A key in a configuration is written in hexadecimal, by hand as often as not. Blanks around it are
passed over, those of any script, and a letter may be written in either case. So one secret has many
spellings, and two texts that differ in nothing else are spellings of one secret or of none.

The blanks are characters, and the digits are bytes. What joins the two is that characters can be
read back from their bytes.

## Main definitions

* `SameKey`: texts that differ in blanks around them and in the case of letters only.

## Main results

* `Utf8.decode?_encode`: characters are read back from their bytes.
* `Hex.decodeExact_congr`: the case of a digit does not matter.
* `SameKey.ofText`: spellings of one secret.
-/

namespace HotStuff
namespace Utf8

variable {c : Char} {least k n : Nat} {bound : UInt8}

/-- A byte that goes on with a character has the six bits that were put into it. -/
theorem continuation?_ofNat (hk : k < 64) : continuation? (UInt8.ofNat (0x80 + k)) = some k := by
  have hall : ∀ k : Fin 64, continuation? (UInt8.ofNat (0x80 + k.val)) = some k.val := by decide
  exact hall ⟨k, hk⟩

/-- A character is read from its number, if it was not to be written on fewer bytes. -/
theorem scalar?_toNat (hleast : least ≤ c.toNat) : scalar? least c.toNat = some c := by
  rw [scalar?, if_pos ⟨hleast, c.valid⟩, Char.ofNat_toNat]

/-- The numbers of characters take 21 bits, and not all numbers of that length. -/
theorem toNat_lt (c : Char) : c.toNat < 0x110000 := by
  rcases c.valid with hlow | ⟨-, hhigh⟩
  · exact Nat.lt_trans hlow (by decide)
  · exact hhigh

/-- A number below 256 is that of a byte. -/
theorem toNat_ofNat (hn : n < 256) : (UInt8.ofNat n).toNat = n := by
  rw [UInt8.toNat_ofNat', Nat.mod_eq_of_lt hn]

/-- A byte is compared by its number, where that is smaller. -/
theorem ofNat_lt (hn : n < 256) (hlt : n < bound.toNat) : UInt8.ofNat n < bound := by
  rw [UInt8.lt_iff_toNat_lt, toNat_ofNat hn]
  exact hlt

/-- A byte is compared by its number, where that is no smaller. -/
theorem not_ofNat_lt (hn : n < 256) (hle : bound.toNat ≤ n) : ¬ UInt8.ofNat n < bound := by
  rw [UInt8.lt_iff_toNat_lt, toNat_ofNat hn]
  exact Nat.not_lt.mpr hle

section Forms

variable {high upper mid low : Nat} (rest : Bytes)

/-- The first byte tells the number of bytes; the bits of all of them are those of the number. -/
theorem decodeChar?_two (hhigh : high < 32) (hlow : low < 64) :
    decodeChar? (UInt8.ofNat (0xC0 + high) :: UInt8.ofNat (0x80 + low) :: rest) =
      (scalar? 0x80 (high * 64 + low)).bind fun c => some (c, rest) := by
  have hlead : 0xC0 + high < 256 := by omega
  rw [decodeChar?, if_neg (not_ofNat_lt hlead (show 0x80 ≤ _ by omega)),
    if_neg (not_ofNat_lt hlead (show 0xC0 ≤ _ by omega)),
    if_pos (ofNat_lt hlead (show _ < 0xE0 by omega))]
  simp only [continuation?_ofNat hlow, toNat_ofNat hlead, Nat.add_sub_cancel_left,
    Option.bind_eq_bind, Option.bind_some]
  rfl

/-- A character on three bytes has sixteen bits. -/
theorem decodeChar?_three (hhigh : high < 16) (hmid : mid < 64) (hlow : low < 64) :
    decodeChar? (UInt8.ofNat (0xE0 + high) :: UInt8.ofNat (0x80 + mid) ::
        UInt8.ofNat (0x80 + low) :: rest) =
      (scalar? 0x800 ((high * 64 + mid) * 64 + low)).bind fun c => some (c, rest) := by
  have hlead : 0xE0 + high < 256 := by omega
  rw [decodeChar?, if_neg (not_ofNat_lt hlead (show 0x80 ≤ _ by omega)),
    if_neg (not_ofNat_lt hlead (show 0xC0 ≤ _ by omega)),
    if_neg (not_ofNat_lt hlead (show 0xE0 ≤ _ by omega)),
    if_pos (ofNat_lt hlead (show _ < 0xF0 by omega))]
  simp only [continuation?_ofNat hmid, continuation?_ofNat hlow, toNat_ofNat hlead,
    Nat.add_sub_cancel_left, Option.bind_eq_bind, Option.bind_some]
  rfl

/-- A character on four bytes has 21 bits. -/
theorem decodeChar?_four (hhigh : high < 8) (hupper : upper < 64) (hmid : mid < 64)
    (hlow : low < 64) :
    decodeChar? (UInt8.ofNat (0xF0 + high) :: UInt8.ofNat (0x80 + upper) ::
        UInt8.ofNat (0x80 + mid) :: UInt8.ofNat (0x80 + low) :: rest) =
      (scalar? 0x10000 (((high * 64 + upper) * 64 + mid) * 64 + low)).bind
        fun c => some (c, rest) := by
  have hlead : 0xF0 + high < 256 := by omega
  rw [decodeChar?, if_neg (not_ofNat_lt hlead (show 0x80 ≤ _ by omega)),
    if_neg (not_ofNat_lt hlead (show 0xC0 ≤ _ by omega)),
    if_neg (not_ofNat_lt hlead (show 0xE0 ≤ _ by omega)),
    if_neg (not_ofNat_lt hlead (show 0xF0 ≤ _ by omega)),
    if_pos (ofNat_lt hlead (show _ < 0xF8 by omega))]
  simp only [continuation?_ofNat hupper, continuation?_ofNat hmid, continuation?_ofNat hlow,
    toNat_ofNat hlead, Nat.add_sub_cancel_left, Option.bind_eq_bind, Option.bind_some]
  rfl

end Forms

/-- **A character is read back** from its bytes, whatever follows them. -/
theorem decodeChar?_encodeChar (c : Char) (rest : Bytes) :
    decodeChar? (encodeChar c ++ rest) = some (c, rest) := by
  have hbound := toNat_lt c
  have hmod (n : Nat) : n % 64 < 64 := Nat.mod_lt n (by decide)
  rw [encodeChar]
  split
  · next hone =>
      have hlead : c.toNat < 256 := by omega
      have hlow : UInt8.ofNat c.toNat < 0x80 := ofNat_lt hlead hone
      rw [List.singleton_append, decodeChar?.eq_def]
      refine (if_pos hlow).trans ?_
      rw [toNat_ofNat hlead, Char.ofNat_toNat]
  split
  · next hone _ =>
      have hsum : c.toNat / 64 * 64 + c.toNat % 64 = c.toNat := by omega
      simp only [List.cons_append, List.nil_append]
      rw [decodeChar?_two rest (by omega) (hmod _), hsum, scalar?_toNat (by omega)]
      rfl
  split
  · next _ hthree =>
      have hsum : (c.toNat / 4096 * 64 + c.toNat / 64 % 64) * 64 + c.toNat % 64 = c.toNat := by
        omega
      simp only [List.cons_append, List.nil_append]
      rw [decodeChar?_three rest (by omega) (hmod _) (hmod _), hsum, scalar?_toNat (by omega)]
      rfl
  · next hfour =>
      have hsum : ((c.toNat / 262144 * 64 + c.toNat / 4096 % 64) * 64 + c.toNat / 64 % 64) * 64 +
          c.toNat % 64 = c.toNat := by omega
      simp only [List.cons_append, List.nil_append]
      rw [decodeChar?_four rest (by omega) (hmod _) (hmod _) (hmod _), hsum,
        scalar?_toNat (by omega)]
      rfl

/-- The characters of a text are written one after the other. -/
theorem encode_cons (c : Char) (s : List Char) : encode (c :: s) = encodeChar c ++ encode s :=
  List.flatMap_cons

/-- Every character takes a byte or more, so reading a text goes on. -/
theorem length_encodeChar_pos (c : Char) : 0 < (encodeChar c).length := by
  rw [encodeChar]
  split
  · exact Nat.zero_lt_succ _
  split
  · exact Nat.zero_lt_succ _
  split <;> exact Nat.zero_lt_succ _

/-- Reading takes one step for one character, and finds it in front of whatever else there is. -/
theorem decodeUpTo_encodeChar (fuel : Nat) (c : Char) (rest : Bytes) (acc : List Char) :
    decodeUpTo (fuel + 1) (encodeChar c ++ rest) acc = decodeUpTo fuel rest (c :: acc) := by
  have hchar := decodeChar?_encodeChar c rest
  cases hbytes : encodeChar c ++ rest with
  | nil =>
      have hpos := length_encodeChar_pos c
      rw [(List.append_eq_nil_iff.mp hbytes).1] at hpos
      exact absurd hpos (Nat.lt_irrefl 0)
  | cons b bs =>
      rw [hbytes] at hchar
      simp only [decodeUpTo, hchar]

/-- A text is read back if there are steps enough for its characters. By induction on it, with what
has been read before. -/
theorem decodeUpTo_encode {fuel : Nat} (s acc : List Char) (hfuel : s.length ≤ fuel) :
    decodeUpTo fuel (encode s) acc = some (acc.reverse ++ s) := by
  induction s generalizing fuel acc with
  | nil =>
      rw [List.append_nil]
      cases fuel <;> rfl
  | cons c s ih =>
      cases fuel with
      | zero => exact absurd hfuel (Nat.not_succ_le_zero _)
      | succ fuel =>
          rw [encode_cons, decodeUpTo_encodeChar, ih (c :: acc) (Nat.le_of_succ_le_succ hfuel),
            List.reverse_cons, List.append_assoc, List.singleton_append]

/-- A text has no more characters than bytes, so there are always steps enough. -/
theorem length_le_encode (s : List Char) : s.length ≤ (encode s).length := by
  induction s with
  | nil => exact Nat.le_refl 0
  | cons c s ih =>
      have hpos := length_encodeChar_pos c
      rw [encode_cons, List.length_append, List.length_cons]
      omega

/-- **Characters are read back** from their bytes. -/
theorem decode?_encode (s : List Char) : decode? (encode s) = some s := by
  rw [decode?, decodeUpTo_encode s [] (length_le_encode s)]
  rfl

end Utf8

/-- The blanks around a text are taken off its characters. -/
theorem Text.trimBytes_encode (s : List Char) :
    trimBytes (Utf8.encode s) = Utf8.encode (trim s) := by
  rw [trimBytes, Utf8.decode?_encode]

namespace Hex

/-- A pair of digits is read together with what follows it. -/
theorem decodePairs_cons_cons_eq_ok {position : Nat} {a b : UInt8} {rest bytes : Bytes} :
    decodePairs position (a :: b :: rest) = .ok bytes ↔
      ∃ high low later, value? a = some high ∧ value? b = some low ∧
        decodePairs (position + 2) rest = .ok later ∧ (high * 16 + low) :: later = bytes := by
  rw [decodePairs, valueAt, valueAt]
  cases value? a with
  | none => simp
  | some high =>
  cases value? b with
  | none => simp
  | some low =>
  cases decodePairs (position + 2) rest with
  | error fault => simp
  | ok later => simp

/-- Digits that stand for the same numbers are read as the same bytes. -/
theorem decodePairs_congr {position : Nat} {as bs bytes : Bytes}
    (has : decodePairs position as = .ok bytes) (h : as.map value? = bs.map value?) :
    decodePairs position bs = .ok bytes := by
  match as, bs with
  | [], [] | [_], [_] => exact has
  | a :: a' :: as, b :: b' :: bs =>
      simp only [List.map_cons, List.cons.injEq] at h
      obtain ⟨ha, ha', hrest⟩ := h
      obtain ⟨high, low, later, hhigh, hlow, hlater, hbytes⟩ :=
        decodePairs_cons_cons_eq_ok.mp has
      exact decodePairs_cons_cons_eq_ok.mpr ⟨high, low, later, ha ▸ hhigh, ha' ▸ hlow,
        decodePairs_congr hlater hrest, hbytes⟩
  | [], _ :: _ | _ :: _, [] | [_], _ :: _ :: _ | _ :: _ :: _, [_] => simp at h

/-- **The case of a digit does not matter**: digits that stand for the same numbers are read as the
same bytes. -/
theorem decodeExact_congr {n : Nat} {as bs : Bytes} {v : Vector UInt8 n}
    (has : decodeExact n as = .ok v) (h : as.map value? = bs.map value?) :
    decodeExact n bs = .ok v := by
  have hlength : as.length = bs.length := by simpa using congrArg List.length h
  rw [decodeExact] at has
  split at has
  · cases has
  split at has
  · cases has
  · next heven hsize =>
      obtain ⟨bytes, hbytes, hv⟩ := map_eq_ok.mp has
      rw [decodeExact, if_neg (hlength ▸ heven), if_neg (hlength ▸ hsize)]
      exact map_eq_ok.mpr ⟨bytes, decodePairs_congr hbytes h, hv⟩

/-- A character and its lower case stand for the same numbers. -/
theorem value?_toLower (c : Char) :
    (Utf8.encodeChar c.toLower).map value? = (Utf8.encodeChar c).map value? := by
  have hall : ∀ n : Fin 128, (Utf8.encodeChar (Char.ofNat n.val).toLower).map value? =
      (Utf8.encodeChar (Char.ofNat n.val)).map value? := by decide +kernel
  by_cases hupper : c.val ≥ 'A'.val ∧ c.val ≤ 'Z'.val
  · have hlast : c.toNat ≤ 'Z'.toNat := UInt32.le_iff_toNat_le.mp hupper.2
    have hlow : c.toNat < 128 := Nat.lt_of_le_of_lt hlast (by decide)
    rw [← Char.ofNat_toNat c]
    exact hall ⟨c.toNat, hlow⟩
  · have hlower : c.toLower = c := dif_neg hupper
    rw [hlower]

/-- A text and its lower case stand for the same digits. -/
theorem value?_encode_toLower (s : List Char) :
    (Utf8.encode (s.map Char.toLower)).map value? = (Utf8.encode s).map value? := by
  induction s with
  | nil => rfl
  | cons c s ih =>
      rw [List.map_cons, Utf8.encode_cons, Utf8.encode_cons, List.map_append, List.map_append,
        value?_toLower, ih]

end Hex

/-- Texts that differ in blanks around them and in the case of letters only. -/
def SameKey (a b : String) : Prop :=
  (Text.trim a.toList).map Char.toLower = (Text.trim b.toList).map Char.toLower

instance (a b : String) : Decidable (SameKey a b) := inferInstanceAs (Decidable (_ = _))

/-- **Spellings of one secret.** -/
theorem SameKey.ofText {a b : String} {secret : Secret} (h : SameKey a b)
    (ha : Secret.ofText (utf8 a) = .ok secret) : Secret.ofText (utf8 b) = .ok secret := by
  have hdigits : (Utf8.encode (Text.trim a.toList)).map Hex.value? =
      (Utf8.encode (Text.trim b.toList)).map Hex.value? := by
    rw [← Hex.value?_encode_toLower, h, Hex.value?_encode_toLower]
  rw [Secret.ofText, utf8, Text.trimBytes_encode] at ha ⊢
  split at ha
  · cases ha
  · next seed hseed =>
      rw [Hex.decodeExact_congr hseed hdigits]
      exact ha
end HotStuff
