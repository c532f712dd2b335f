import Mathlib.Data.List.Chain
import EcmaPattern.Proofs.Window
import EcmaPattern.Text

/-!
# UTF-16

Code units become a string and the same code units again. The other way round, a string is got back
exactly if no two surrogates in it stand side by side as a pair, since these would be joined
(`utf16_round_trip`). The string of some code units is what a window that joins pairs leads through.
-/

namespace EcmaPattern

/-! ## Bytes

Two bytes to a unit, the low one first. -/

/-- The two bytes of a unit make up the unit. -/
theorem Text.join_bytes (u : CodeUnit) :
    u.toUInt8.toUInt16 ||| (u >>> 8).toUInt8.toUInt16 <<< 8 = u := by
  refine UInt16.toNat_inj.mp ?_
  have hlt := u.toNat_lt
  have hlow : u.toNat % 2 ^ 8 < 2 ^ 8 := Nat.mod_lt _ (by decide)
  have hhigh : ((u.toNat >>> 8) % 2 ^ 8) <<< 8 % 2 ^ 16 = 2 ^ 8 * (u.toNat / 2 ^ 8) := by
    rw [Nat.shiftLeft_eq, Nat.shiftRight_eq_div_pow]
    omega
  calc (u.toUInt8.toUInt16 ||| (u >>> 8).toUInt8.toUInt16 <<< 8).toNat
      = u.toNat % 2 ^ 8 ||| ((u.toNat >>> 8) % 2 ^ 8) <<< 8 % 2 ^ 16 := by
        simp [UInt16.toNat_shiftLeft]
    _ = 2 ^ 8 * (u.toNat / 2 ^ 8) + u.toNat % 2 ^ 8 := by
        rw [hhigh, Nat.or_comm, Nat.two_pow_add_eq_or_of_lt hlow]
    _ = u.toNat := Nat.div_add_mod _ _

/-- Units survive being taken apart into bytes. -/
theorem Text.ofBytes_toBytes (t : Text) : ofBytes t.toBytes = t := by
  induction t with
  | nil => rfl
  | cons u t ih =>
    have hcons : ofBytes (toBytes (u :: t)) =
        (u.toUInt8.toUInt16 ||| (u >>> 8).toUInt8.toUInt16 <<< 8) :: ofBytes (toBytes t) := rfl
    rw [hcons, join_bytes, ih]

/-- Going by way of bytes gives the code units. -/
theorem Text.toCodeUnits_eq (s : List CodePoint) : toCodeUnits s = ofCodePoints s :=
  ofBytes_toBytes _

/-- Going back by way of bytes gives the characters, with pairs joined. -/
theorem Text.fromCodeUnits_eq (t : Text) : fromCodeUnits t = t.characters true := by
  rw [fromCodeUnits, decodeUtf16, ofBytes_toBytes]

/-! ## Strings

To encode and to join are inverse to each other except where two surrogates, each a character of the
string by itself, come to stand side by side as a pair. -/

/-- Two code points that would be joined to one. -/
def CodePoint.ArePair (c d : CodePoint) : Prop := c.isLead = true ∧ d.isTrail = true

theorem CodePoint.encode_of_lt {c : CodePoint} (h : c.val < 0x10000) :
    ∃ u, c.encode = [u] ∧ ofUnit u = c := by
  refine ⟨UInt16.ofNat c.val, if_pos h, Fin.ext ?_⟩
  rw [val_ofUnit, UInt16.toNat_ofNat_of_lt' h]

/-- A code point beyond the units is the pair of two of them. -/
theorem CodePoint.encode_of_le {c : CodePoint} (h : 0x10000 ≤ c.val) :
    ∃ u v, c.encode = [u, v] ∧ Text.isPair u v = true ∧ ofPair (ofUnit u) (ofUnit v) = c := by
  have hc := c.isLt
  have hlead : (UInt16.ofNat (0xD800 + (c.val - 0x10000) / 0x400)).toNat =
      0xD800 + (c.val - 0x10000) / 0x400 :=
    UInt16.toNat_ofNat_of_lt' (show _ < 0x10000 by omega)
  have htrail : (UInt16.ofNat (0xDC00 + (c.val - 0x10000) % 0x400)).toNat =
      0xDC00 + (c.val - 0x10000) % 0x400 :=
    UInt16.toNat_ofNat_of_lt' (show _ < 0x10000 by omega)
  have hl : (ofUnit (UInt16.ofNat (0xD800 + (c.val - 0x10000) / 0x400))).isLead = true := by
    rw [isLead_iff, val_ofUnit, hlead]
    omega
  have ht : (ofUnit (UInt16.ofNat (0xDC00 + (c.val - 0x10000) % 0x400))).isTrail = true := by
    rw [isTrail_iff, val_ofUnit, htrail]
    omega
  refine ⟨_, _, if_neg (by omega), ?_, Fin.ext ?_⟩
  · rw [Text.isPair, hl, ht]
    rfl
  · rw [val_ofPair hl ht, val_ofUnit, val_ofUnit, hlead, htrail]
    omega

theorem CodePoint.not_isLead_of_le {c : CodePoint} (h : 0x10000 ≤ c.val) : c.isLead = false := by
  rw [Bool.eq_false_iff, ne_eq, isLead_iff]
  omega

theorem CodePoint.not_isTrail_of_le {c : CodePoint} (h : 0x10000 ≤ c.val) : c.isTrail = false := by
  rw [Bool.eq_false_iff, ne_eq, isTrail_iff]
  omega

namespace Text

/-- A joined pair is above the basic plane, so it is no surrogate. -/
theorem val_joined {u v : CodeUnit} (h : isPair u v = true) :
    0x10000 ≤ (CodePoint.ofPair (.ofUnit u) (.ofUnit v)).val := by
  rw [isPair, Bool.and_eq_true] at h
  rw [CodePoint.val_ofPair h.1 h.2]
  exact Nat.le_add_left _ _

/-- A text begins with a trail surrogate only if its first unit is one. -/
theorem isTrail_of_head? {v : CodeUnit} {rest : Text} {d : CodePoint}
    (hd : (characters true (v :: rest)).head? = some d) (ht : d.isTrail = true) :
    (CodePoint.ofUnit v).isTrail = true := by
  cases rest with
  | nil =>
    cases hd
    exact ht
  | cons w rest =>
    rw [characters, Bool.true_and] at hd
    split at hd
    · next hpair =>
      cases hd
      rw [CodePoint.not_isTrail_of_le (val_joined hpair)] at ht
      cases ht
    · cases hd
      exact ht

/-- What a text is decoded to holds no pair. -/
theorem isChain_characters (t : Text) :
    (t.characters true).IsChain fun c d => ¬CodePoint.ArePair c d := by
  fun_induction characters true t with
  | case1 => exact .nil
  | case2 u => exact .singleton _
  | case3 u v rest h ih =>
    rw [List.isChain_cons]
    refine ⟨fun d _ hpair => ?_, ih⟩
    rw [CodePoint.ArePair, CodePoint.not_isLead_of_le (val_joined h)] at hpair
    cases hpair.1
  | case4 u v rest h ih =>
    rw [List.isChain_cons]
    refine ⟨fun d hd hpair => h ?_, ih⟩
    rw [Bool.true_and, isPair, hpair.1, isTrail_of_head? hd hpair.2]
    rfl

/-- An encoded string begins with a trail surrogate only if the string does. -/
theorem ofCodePoints_cons (d : CodePoint) (s : List CodePoint) :
    ∃ v rest, ofCodePoints (d :: s) = v :: rest ∧
      ((CodePoint.ofUnit v).isTrail = true → d.isTrail = true) := by
  rcases Nat.lt_or_ge d.val 0x10000 with hd | hd
  · obtain ⟨v, hv, rfl⟩ := CodePoint.encode_of_lt hd
    exact ⟨v, ofCodePoints s, congrArg (· ++ ofCodePoints s) hv, id⟩
  · obtain ⟨v, w, hcode, hpair, -⟩ := CodePoint.encode_of_le hd
    refine ⟨v, w :: ofCodePoints s, congrArg (· ++ ofCodePoints s) hcode, fun ht => ?_⟩
    rw [isPair, Bool.and_eq_true, CodePoint.isLead_iff] at hpair
    rw [CodePoint.isTrail_iff] at ht
    omega

/-- The first character of an encoded string is that of the string, unless it is joined. -/
theorem uncons?_encode_append {c : CodePoint} {s : List CodePoint}
    (h : ∀ d ∈ s.head?, ¬CodePoint.ArePair c d) :
    (c.encode ++ ofCodePoints s).uncons? true = some (c, ofCodePoints s) := by
  rcases Nat.lt_or_ge c.val 0x10000 with hc | hc
  · obtain ⟨u, hu, rfl⟩ := CodePoint.encode_of_lt hc
    rw [hu]
    cases s with
    | nil => rfl
    | cons d s =>
      obtain ⟨v, rest, hrest, htrail⟩ := ofCodePoints_cons d s
      have hno : isPair u v = false := by
        rw [Bool.eq_false_iff, ne_eq, isPair, Bool.and_eq_true]
        exact fun hpair => h d rfl ⟨hpair.1, htrail hpair.2⟩
      rw [hrest, List.cons_append, List.nil_append, uncons?, Bool.true_and, hno]
      rfl
  · obtain ⟨u, v, hcode, hpair, rfl⟩ := CodePoint.encode_of_le hc
    rw [hcode, List.cons_append, List.cons_append, List.nil_append, uncons?, Bool.true_and,
      if_pos hpair]

/-- A string without pairs is got back from its units. -/
theorem characters_ofCodePoints {s : List CodePoint}
    (h : s.IsChain fun c d => ¬CodePoint.ArePair c d) : (ofCodePoints s).characters true = s := by
  induction s with
  | nil => rfl
  | cons c s ih =>
    obtain ⟨hhead, hs⟩ := List.isChain_cons.mp h
    have huncons : (ofCodePoints (c :: s)).uncons? true = some (c, ofCodePoints s) :=
      uncons?_encode_append hhead
    rw [characters_eq_uncons?, huncons]
    exact congrArg (c :: ·) (ih hs)

end Text

/-! ## Round trips

In the direction from units to a string there is no exception. -/

/-- Code units make up a string that has the same code units. A string is made up again from its
code units if and only if no lead surrogate in it is directly followed by a trail surrogate. The
string of some code units is the sequence of characters that a window joining pairs leads through.
-/
theorem utf16_round_trip :
    (∀ u, Text.toCodeUnits (Text.fromCodeUnits u) = u) ∧
    (∀ s, Text.fromCodeUnits (Text.toCodeUnits s) = s ↔
      s.IsChain fun c d => ¬(c.isLead = true ∧ d.isTrail = true)) ∧
    ∀ (u : Text) (w : Window) (k : Nat),
      (Window.advanceBy k (w.reset u 0 u.length true)).current = (Text.fromCodeUnits u)[k]? := by
  refine ⟨?_, ?_, ?_⟩
  · intro u
    rw [Text.toCodeUnits_eq, Text.fromCodeUnits_eq, Text.ofCodePoints_characters]
  · intro s
    rw [Text.toCodeUnits_eq, Text.fromCodeUnits_eq]
    constructor
    · intro h
      rw [← h]
      exact Text.isChain_characters _
    · exact Text.characters_ofCodePoints
  · intro u w k
    have hv : (Slice.whole u).Valid := ⟨Nat.zero_le _, Nat.le_refl _⟩
    have hcontent : (Slice.whole u).content = u := List.take_length
    have hadvance := Window.current_advanceBy_reset hv w true k
    rw [hcontent] at hadvance
    rw [Text.fromCodeUnits_eq]
    exact hadvance

end EcmaPattern
