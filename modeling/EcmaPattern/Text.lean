import EcmaPattern.CodePoint

/-!
# Text

Text is a sequence of 16-bit code units, and all offsets count units. A lead surrogate directly
followed by a trail surrogate can be read as one character; whether it is depends on the grammar in
force, so `Text.characters` takes that as an argument.

Main statements:

* `Text.ofCodePoints_characters`: encoding the paired or unpaired characters of a text gives the
  text back;
* `Text.characters_eq_uncons?`: the characters of a text are those that `Text.uncons?` takes off it
  one by one.
-/

namespace EcmaPattern

/-! ## Text

Text is a sequence of 16-bit code units. All offsets count units. A lead surrogate directly followed
by a trail surrogate can be read as one character; whether it is depends on the grammar in force, so
`characters` takes that as an argument. Main statement: encoding the paired characters of a text
gives the text back, `ofCodePoints_characters`. -/

/-- A sequence of 16-bit code units. -/
abbrev Text := List CodeUnit

def CodePoint.encode (c : CodePoint) : Text :=
  if c.val < 0x10000 then [UInt16.ofNat c.val]
  else [UInt16.ofNat (0xD800 + (c.val - 0x10000) / 0x400),
    UInt16.ofNat (0xDC00 + (c.val - 0x10000) % 0x400)]

namespace Text

def ofCodePoints (cs : List CodePoint) : Text := cs.flatMap CodePoint.encode

def ofString (s : String) : Text := ofCodePoints (s.toList.map CodePoint.ofChar)

def isPair (u v : CodeUnit) : Bool := (CodePoint.ofUnit u).isLead && (CodePoint.ofUnit v).isTrail

/-- The first character and what follows it. With `paired`, a surrogate pair is one character. -/
def uncons? (paired : Bool) : Text → Option (CodePoint × Text)
  | [] => none
  | [u] => some (.ofUnit u, [])
  | u :: v :: rest =>
    if paired && isPair u v then some (.ofPair (.ofUnit u) (.ofUnit v), rest)
    else some (.ofUnit u, v :: rest)

/-- All characters, in order. With `paired`, a surrogate pair is one character. -/
def characters (paired : Bool) : Text → List CodePoint
  | [] => []
  | [u] => [.ofUnit u]
  | u :: v :: rest =>
    if paired && isPair u v then .ofPair (.ofUnit u) (.ofUnit v) :: characters paired rest
    else .ofUnit u :: characters paired (v :: rest)

/-- The text as a string, if no surrogate in it is without its partner. -/
def toString? (t : Text) : Option String :=
  ((t.characters true).mapM CodePoint.toChar?).map String.ofList

/-- The units from offset `start` up to offset `stop`; offsets past the end are cut back to it. -/
def slice (t : Text) (start stop : Nat) : Text := (t.take stop).drop start

/-- The offset that a number means in a text of the given length: a number below zero counts from
the end, though not past the start. -/
def offsetOf (length : Nat) (n : Int) : Nat := if n < 0 then (length + n).toNat else n.toNat

/-- A unit that is read by itself is encoded as it was. -/
theorem encode_ofUnit (u : CodeUnit) : (CodePoint.ofUnit u).encode = [u] := by
  have h : u.toNat < 0x10000 := u.toNat_lt
  simp [CodePoint.encode, CodePoint.ofUnit, h]

/-- A pair that is read as one character is encoded as the two units. -/
theorem encode_ofPair {u v : CodeUnit} (h : isPair u v) :
    (CodePoint.ofPair (.ofUnit u) (.ofUnit v)).encode = [u, v] := by
  simp only [isPair, Bool.and_eq_true] at h
  obtain ⟨hu, hv⟩ := h
  have hval := CodePoint.val_ofPair hu hv
  rw [CodePoint.isLead_iff] at hu
  rw [CodePoint.isTrail_iff] at hv
  simp only [CodePoint.val_ofUnit] at hu hv hval
  have hlead : 0xD800 + ((CodePoint.ofPair (.ofUnit u) (.ofUnit v)).val - 0x10000) / 0x400
      = u.toNat := by omega
  have htrail : 0xDC00 + ((CodePoint.ofPair (.ofUnit u) (.ofUnit v)).val - 0x10000) % 0x400
      = v.toNat := by omega
  rw [CodePoint.encode, if_neg (by omega), hlead, htrail, UInt16.ofNat_toNat, UInt16.ofNat_toNat]

/-- Reading a text character by character loses nothing. -/
theorem ofCodePoints_characters (paired : Bool) (t : Text) :
    ofCodePoints (t.characters paired) = t := by
  fun_induction characters paired t with
  | case1 => rfl
  | case2 u => simp [ofCodePoints, encode_ofUnit]
  | case3 u v rest h ih =>
    simp only [Bool.and_eq_true] at h
    simp only [ofCodePoints, List.flatMap_cons, encode_ofPair h.2] at ih ⊢
    rw [ih]; rfl
  | case4 u v rest h ih =>
    simp only [ofCodePoints, List.flatMap_cons, encode_ofUnit] at ih ⊢
    rw [ih]; rfl

/-- The characters of a text are its first character and those of the rest. -/
theorem characters_eq_uncons? (paired : Bool) (t : Text) :
    t.characters paired =
      match t.uncons? paired with
      | none => []
      | some (c, rest) => c :: rest.characters paired := by
  match t with
  | [] => rfl
  | [u] => simp [characters, uncons?]
  | u :: v :: rest =>
    simp only [characters, uncons?]
    split <;> rfl

end Text

end EcmaPattern

namespace EcmaPattern.Text

/-! ## UTF-16

Strings of code points as code units and back, by way of the bytes that make them up. -/

def toBytes (t : Text) : List UInt8 :=
  t.flatMap fun (u : CodeUnit) => [u.toUInt8, (u >>> 8).toUInt8]

/-- The units that bytes make up, two by two. -/
def ofBytes : List UInt8 → Text
  | low :: high :: rest => (low.toUInt16 ||| high.toUInt16 <<< 8) :: ofBytes rest
  | _ => []

/-- A string in bytes. A surrogate in it is encoded as it is. -/
def encodeUtf16 (s : List CodePoint) : List UInt8 := toBytes (ofCodePoints s)

/-- The string that bytes encode. A surrogate without its partner is decoded as it is. -/
def decodeUtf16 (bytes : List UInt8) : List CodePoint := (ofBytes bytes).characters true

def toCodeUnits (s : List CodePoint) : Text := ofBytes (encodeUtf16 s)

def fromCodeUnits (t : Text) : List CodePoint := decodeUtf16 t.toBytes

end EcmaPattern.Text
