import EcmaPattern.Proofs.Agreement
import EcmaPattern.Proofs.Relaxation.Names

/-!
# Names across editions

The names of groups and of properties are what later editions read differently. A name of a group
is read alike, or else it was at fault before (`groupName_agrees`): later editions join surrogate
pairs, and no name that an earlier edition accepts has a surrogate in it. A property that was known
stays what it was (`Property.ofName?_mono`), and property escapes are read alike unless only the
later edition has them; then the letter after the backslash is a `p` (`setEscape_agrees`).

The tables of properties grow from edition to edition, and a name of one kind never becomes one of
another: a category stays a category and a property of strings was no binary property before
(`not_isBinary_of_isOfStrings`, by evaluation of the tables).
-/

namespace EcmaPattern

/-! ## Properties that were known before

A property is looked up as a category, then as a binary property, then as one of strings.
Monotonicity of the tables is not enough for this order, since an entry added to an earlier table
would take precedence; that no name is in two of the tables is what remains to be checked. -/

namespace Property

/-- A later edition keeps the values of an earlier one. -/
theorem isValue_mono {e e' : Edition} (h : e ≤ e') {name value : String}
    (hv : isValue e name value = true) : isValue e' name value = true := by
  unfold isValue at hv ⊢
  split
  · next hcategory =>
    rw [if_pos hcategory] at hv
    exact listed_mono h hv
  · next hcategory =>
    rw [if_neg hcategory, Bool.and_eq_true] at hv
    rw [Bool.and_eq_true]
    exact ⟨hv.1, listed_mono h hv.2⟩

/-- A pair that an edition knows is known to every later one. -/
theorem ofPair?_mono {e e' : Edition} (h : e ≤ e') {name value : String} {p : Property}
    (hp : ofPair? e name value = some p) : ofPair? e' name value = some p := by
  rw [ofPair?] at hp ⊢
  split at hp
  · next hv => rwa [if_pos (isValue_mono h hv)]
  · cases hp

/-- General categories are as old as property escapes. -/
theorem isValue_category {e e' : Edition} (he : e.supports .propertyEscapes = true) {name : String}
    (h : isValue e' "General_Category" name = true) :
    isValue e "General_Category" name = true := by
  have hsince : ∀ row ∈ categoryValues, row.1 ≤ Feature.since .propertyEscapes := by decide
  have hlisted : listed categoryValues e' name = true := h
  show listed categoryValues e name = true
  simp only [listed, List.any_eq_true, Bool.and_eq_true, decide_eq_true_eq] at hlisted ⊢
  obtain ⟨row, hmem, -, hname⟩ := hlisted
  exact ⟨row, hmem, Nat.le_trans (hsince row hmem) (of_decide_eq_true he), hname⟩

/-- A property of strings is not one that single characters have or lack. -/
theorem not_isBinary_of_isOfStrings {e e' : Edition} {name : String}
    (h : isOfStrings e name = true) : isBinary e' name = false := by
  have hdisjoint : ∀ row ∈ stringNames, ∀ n ∈ row.2, ∀ row' ∈ binaryNames, n ∉ row'.2 := by
    decide +kernel
  rw [Bool.eq_false_iff]
  intro hbinary
  simp only [isOfStrings, isBinary, listed, List.any_eq_true, Bool.and_eq_true,
    List.contains_iff_mem] at h hbinary
  obtain ⟨row, hmem, -, hname⟩ := h
  obtain ⟨row', hmem', -, hname'⟩ := hbinary
  exact hdisjoint row hmem name hname row' hmem' hname'

/-- A property that stands alone is the same in a later edition. -/
theorem ofName?_mono {e e' : Edition} (h : e ≤ e') (he : e.supports .propertyEscapes = true)
    {stringsAllowed : Bool} {name : String} {p : Property}
    (hp : ofName? e stringsAllowed name = some p) : ofName? e' stringsAllowed name = some p := by
  have hcategory : isValue e' "General_Category" name = isValue e "General_Category" name := by
    rw [Bool.eq_iff_iff]
    exact ⟨isValue_category he, isValue_category (Edition.supports_mono h he)⟩
  rw [ofName?] at hp ⊢
  rw [hcategory]
  split at hp
  · next hvalue => rwa [if_pos hvalue]
  next hvalue =>
  rw [if_neg hvalue]
  split at hp
  · next hbinary =>
    have hlater : isBinary e' name = true := listed_mono h hbinary
    rwa [if_pos hlater]
  split at hp
  · next hstrings =>
    obtain ⟨hallowed, hstrings⟩ := (Bool.and_eq_true _ _).mp hstrings
    have hlater : isOfStrings e' name = true := listed_mono h hstrings
    rw [not_isBinary_of_isOfStrings hstrings, if_neg Bool.false_ne_true, hallowed, hlater]
    exact hp
  · cases hp

end Property

namespace Parser

variable {α : Type} {k : Comparison} {s t u : State}

/-! ## Set escapes

Where both editions have property escapes, the names they know may differ, but an unknown one is a
fault. Where only the second has them, its letter is a character or a fault by the first. -/

/-- What the second edition knows more of is excused, if the first has property escapes at all. -/
theorem sameProperties
    (h : k.right.edition.supports .propertyEscapes = k.left.edition.supports .propertyEscapes)
    (b : Cursor) : (k.pairing b).SameProperties where
  unicode := k.unicode
  supports := h
  pair name value := by
    show Property.ofPair? k.right.edition name value = Property.ofPair? k.left.edition name value ∨
      Property.ofPair? k.left.edition name value = none ∧ ∀ e, k.Stops b e
    rcases k.edition with heq | ⟨hle, hstops⟩
    · exact .inl (by rw [heq])
    · cases hleft : Property.ofPair? k.left.edition name value with
      | none => exact .inr ⟨rfl, Comparison.StopsAlways.stops hstops b⟩
      | some p => exact .inl (Property.ofPair?_mono hle hleft)
  lone hsupports name := by
    show Property.ofName? k.right.edition k.right.sets name =
        Property.ofName? k.left.edition k.left.sets name ∨
      Property.ofName? k.left.edition k.left.sets name = none ∧ ∀ e, k.Stops b e
    rw [k.sets]
    rcases k.edition with heq | ⟨hle, hstops⟩
    · exact .inl (by rw [heq])
    · cases hleft : Property.ofName? k.left.edition k.left.sets name with
      | none => exact .inr ⟨rfl, Comparison.StopsAlways.stops hstops b⟩
      | some p => exact .inl (Property.ofName?_mono hle hsupports hleft)

/-- Property escapes agree if both grammars have them or neither has. -/
theorem propertyEscape_agrees (mark : Cursor)
    (h : k.right.edition.supports .propertyEscapes = k.left.edition.supports .propertyEscapes) :
    Agrees k (propertyEscape mark) :=
  .of_pairs fun b => propertyEscape_pairs (sameProperties h b) rfl fun _ _ _ => rfl

/-- After a backslash, a property escape begins by the second grammar only. -/
structure GainsProperty (k : Comparison) (c : Cursor) : Prop where
  unicode : k.left.unicode = true
  left : k.left.edition.supports .propertyEscapes = false
  stops : k.StopsAlways
  letter : c.current = some (.ofChar 'p') ∨ c.current = some (.ofChar 'P')

/-- The letters that stand for sets are the same in all editions. -/
theorem letterEscape_agrees (mark : Cursor) :
    Agrees k (do
      let (set, negated) ← select escapeSet?
      return .escape (← spanFrom mark) set negated : Parser CharSet) :=
  (select_agrees _).bind fun _ => (spanFrom_agrees mark).bind fun _ => pure_agrees _

/-- Set escapes agree, except where only the second grammar has a property escape. -/
theorem setEscape_agreesAt (mark : Cursor) :
    AgreesAt k (setEscape mark) s ∨ GainsProperty k s.cursor := by
  rcases k.supports_cases .propertyEscapes with heq | ⟨hleft, hright, hstops⟩
  · exact .inl ((letterEscape_agrees mark).orElse (propertyEscape_agrees mark heq) s)
  -- at any other letter, and by code units, neither grammar has a property escape
  have hmiss : ∀ g s, g.unicode = false ∨ s.cursor.current.bind propertyLetter? = none →
      propertyEscape mark g s = .miss := by
    intro g s h
    rw [propertyEscape, grammar_bind, require_bind_eq_miss]
    refine h.imp_right fun hnone => ?_
    rw [supports_bind, require_bind_eq_miss]
    exact .inr (bind_of_miss (select_eq_miss.mpr hnone))
  by_cases hnone : k.left.unicode = false ∨ s.cursor.current.bind propertyLetter? = none
  · refine .inl ((letterEscape_agrees mark s).orElse fun _ =>
      (miss_agrees s).congr (hmiss _ _ hnone) (hmiss _ _ ?_))
    rwa [k.unicode]
  · right
    rw [not_or, Bool.not_eq_false] at hnone
    refine ⟨hnone.1, hleft, hstops, ?_⟩
    cases hcur : s.cursor.current with
    | none => simp [hcur] at hnone
    | some l =>
      rw [hcur] at hnone
      rw [Option.some.injEq, Option.some.injEq]
      exact eq_of_propertyLetter? hnone.2

namespace GainsProperty

variable (h : GainsProperty k s.cursor)

include h

theorem current_ne {c : CodePoint} (hc : c.isOneOf ['p', 'P'] = false) :
    s.cursor.current ≠ some c := by
  intro hcur
  rcases h.letter with hl | hl
  · obtain rfl : c = .ofChar 'p' := Option.some.inj (hcur.symm.trans hl)
    exact absurd hc (by decide)
  · obtain rfl : c = .ofChar 'P' := Option.some.inj (hcur.symm.trans hl)
    exact absurd hc (by decide)

/-- The first grammar has no set escape there. -/
theorem setEscape_eq_miss (mark : Cursor) : setEscape mark k.left s = .miss := by
  have hset : s.cursor.current.bind escapeSet? = none := by
    rcases h.letter with hl | hl <;> rw [hl] <;> decide
  rw [setEscape, orElse_of_miss (bind_of_miss (select_eq_miss.mpr hset)), propertyEscape,
    grammar_bind, require_bind_eq_miss]
  refine .inr ?_
  rw [supports_bind, h.left]
  rfl

/-- Nor does the letter stand for a character. -/
theorem escapedValue_eq_miss : escapedValue k.left s = .miss := by
  have hexact : k.left.exact = true := by rw [Grammar.exact, h.unicode, Bool.or_true]
  have hidentity : identityEscape k.left s = .miss := by
    rw [identityEscape, grammar_bind, satisfy_eq_miss]
    intro c hc
    simp only [isIdentityEscape, h.unicode, if_true]
    rcases h.letter with hl | hl <;> rw [hl] at hc <;> cases hc <;> decide
  have hunicode : unicodeEscape k.left.unicode k.left s = .miss :=
    bind_of_miss (eat_eq_miss.mpr (h.current_ne (by decide)))
  have hoctal : (do require !k.left.exact; legacyOctal : Parser CodePoint) k.left s = .miss := by
    rw [hexact]
    rfl
  rcases h.letter with hl | hl <;>
    rw [escapedValue_of_letter hl rfl rfl, orElse_of_miss hunicode, orElse_of_miss hoctal,
      hidentity]

end GainsProperty

/-! ## Names of groups

From some edition on, a name joins surrogate pairs even by code units. Before, a surrogate was no
character of a name, so names with one were at fault. -/

/-- The characters that a test of names lets pass are neither surrogates nor the signs that a name
is written with. -/
def NameTest (test : CodePoint → Bool) : Prop :=
  ∀ c, test c = true → c.isSurrogate = false ∧ c.isOneOf ['\\', '>'] = false

theorem nameTest_start : NameTest CodePoint.isIdentifierStart := by
  intro c hc
  refine ⟨?_, CodePoint.isOneOf_eq_false CodePoint.isNameLike
    (CodePoint.isNameLike_of_identifier (.inl hc)) rfl⟩
  rw [CodePoint.isIdentifierStart, Bool.and_eq_true, Bool.not_eq_true'] at hc
  exact hc.1

theorem nameTest_part : NameTest CodePoint.isIdentifierPart := by
  intro c hc
  refine ⟨?_, CodePoint.isOneOf_eq_false CodePoint.isNameLike
    (CodePoint.isNameLike_of_identifier (.inr hc)) rfl⟩
  rw [CodePoint.isIdentifierPart, Bool.and_eq_true, Bool.not_eq_true'] at hc
  exact hc.1

/-- A character of a name agrees if pairs are joined in both grammars or in neither. -/
theorem nameCharacter_agrees (test : CodePoint → Bool)
    (h : k.left.unicode = true ∨ k.right.edition.supports .unicodeGroupNames =
      k.left.edition.supports .unicodeGroupNames) : Agrees k (nameCharacter test) := by
  have hjoins : (!k.right.unicode && k.right.edition.supports .unicodeGroupNames) =
      (!k.left.unicode && k.left.edition.supports .unicodeGroupNames) := by
    rw [k.unicode]
    rcases h with h | h
    · rw [h]
      rfl
    · rw [h]
  refine .grammar_bind (by rw [hjoins, k.unicode]) ((satisfy_agrees _).bind fun first => ?_)
  refine Agrees.bind ?_ fun c => (require_agrees _).bind fun _ => pure_agrees c
  refine ((require_agrees _).bind fun _ => unicodeEscape_agrees ?_).orElse
    (.orElse ?_ (pure_agrees first))
  · exact k.strict_or_unicode.imp_right fun hu => by rw [hu, Bool.or_true]
  · exact (require_agrees _).bind fun _ => (satisfy_agrees _).bind fun _ => pure_agrees _

/-- An escape of four digits that is no surrogate is the same where pairs and braces are read. -/
theorem unicodeEscape_wide {c : CodePoint} (hc : c.isSurrogate = false)
    (h : unicodeEscape false k.left s = .done c t) :
    unicodeEscape true k.right (k.across s) = .done c (k.across t) := by
  obtain ⟨u, hu, h⟩ := eat_bind_eq_done.mp h
  have hdigits : ∃ n, fixedHex 4 k.left u = .done n t ∧ CodePoint.ofNat n = c := by
    rcases orElse_eq_done.mp h with h | ⟨-, h⟩
    · cases (require_bind_eq_done.mp h).1
    rcases orElse_eq_done.mp h with h | ⟨-, h⟩
    · exact map_eq_done.mp h
    rcases orElse_eq_done.mp h with h | ⟨-, h⟩
    · cases (require_bind_eq_done.mp h).1
    · rw [grammar_bind] at h
      exact absurd (require_bind_eq_done.mp h).2 fail_ne_done
  obtain ⟨n, hn, rfl⟩ := hdigits
  have hn' := (fixedHex_agrees 4 u).done hn
  have hpair : (do require true; escapedPair : Parser CodePoint) k.right (k.across u) = .miss := by
    refine require_bind_eq_miss.mpr (.inr ?_)
    rw [escapedPair, bind_of_done hn', require_bind_eq_miss]
    exact .inl (Bool.or_eq_false_iff.mp hc).1
  rw [unicodeEscape, bind_of_done ((eat_agrees _ s).done (eat_eq_done (x := ()).mpr hu)),
    orElse_of_miss hpair]
  exact orElse_of_done (map_eq_done.mpr ⟨n, hn', rfl⟩)

/-- The bracket that closes a name is no character of it. -/
theorem nameCharacter_eq_miss {g : Grammar} {test : CodePoint → Bool} (htest : NameTest test)
    (h : s.cursor.current = some (.ofChar '>')) : nameCharacter test g s = .miss := by
  have hfalse : test '>' = false := by
    rw [Bool.eq_false_iff]
    intro htrue
    exact absurd (htest _ htrue).2 (by decide)
  have hfirst : satisfy (fun _ => true) g s =
      .done (.ofChar '>') { s with cursor := s.cursor.advance } :=
    satisfy_eq_done.mpr ⟨rfl, State.reads_singleton.mpr ⟨h, rfl⟩⟩
  rw [nameCharacter, grammar_bind, bind_of_done hfirst]
  have hlead : (CodePoint.ofChar '>').isLead = false := by decide
  refine bind_eq_miss.mpr (.inr ⟨.ofChar '>', { s with cursor := s.cursor.advance }, ?_,
    require_bind_eq_miss.mpr (.inl hfalse)⟩)
  rw [orElse_of_miss (require_bind_eq_miss.mpr (.inl (by decide))),
    orElse_of_miss (require_bind_eq_miss.mpr (.inl (by rw [hlead, Bool.and_false])))]
  rfl

section Joined

variable (hu : k.left.unicode = false)
  (hleft : k.left.edition.supports .unicodeGroupNames = false)
  (hright : k.right.edition.supports .unicodeGroupNames = true)

include hu hleft hright

/-- A character of a name is the same where surrogate pairs are joined. -/
theorem nameCharacter_joined {test : CodePoint → Bool} (htest : NameTest test) {c : CodePoint}
    (h : nameCharacter test k.left s = .done c t) :
    nameCharacter test k.right (k.across s) = .done c (k.across t) := by
  simp only [nameCharacter, grammar_bind, k.unicode, hu, hleft, hright, Bool.not_false,
    Bool.true_and, Bool.false_and, Bool.or_false] at h ⊢
  obtain ⟨first, u, hfirst, h⟩ := bind_eq_done.mp h
  obtain ⟨d, v, hd, h⟩ := bind_eq_done.mp h
  obtain ⟨hc, h⟩ := require_bind_eq_done.mp h
  obtain ⟨rfl, rfl⟩ := pure_eq_done.mp h
  obtain ⟨hsurrogate, hsign⟩ := htest d hc
  rw [bind_of_done ((satisfy_agrees _ s).done hfirst)]
  refine bind_eq_done.mpr ⟨d, k.across v, ?_, require_bind_eq_done.mpr ⟨hc, rfl⟩⟩
  rcases orElse_eq_done.mp hd with hd | ⟨-, hd⟩
  · obtain ⟨hslash, hd⟩ := require_bind_eq_done.mp hd
    exact orElse_of_done (require_bind_eq_done.mpr ⟨hslash, unicodeEscape_wide hsurrogate hd⟩)
  rcases orElse_eq_done.mp hd with hd | ⟨-, hd⟩
  · cases (require_bind_eq_done.mp hd).1
  -- a plain character is no lead surrogate, so there is no pair to join
  obtain ⟨rfl, rfl⟩ := pure_eq_done.mp hd
  have hslash : (first == .ofChar '\\') = false := by
    simp only [CodePoint.isOneOf, List.any_cons, Bool.or_eq_false_iff] at hsign
    rw [beq_eq_false_iff_ne] at hsign ⊢
    exact fun heq => hsign.1 heq.symm
  rw [orElse_of_miss (require_bind_eq_miss.mpr (.inl hslash)),
    orElse_of_miss (require_bind_eq_miss.mpr (.inl (Bool.or_eq_false_iff.mp hsurrogate).1))]
  rfl

/-- As many characters of a name are read, up to the bracket that closes it. -/
theorem upTo_nameCharacter_joined {count : Nat} {name : GroupName}
    (h : upTo (nameCharacter CodePoint.isIdentifierPart) count k.left s = .done name t)
    (hclose : t.cursor.current = some (.ofChar '>')) :
    upTo (nameCharacter CodePoint.isIdentifierPart) count k.right (k.across s) =
      .done name (k.across t) := by
  -- no step of the second run can go further, since the bracket is no character of a name
  induction count generalizing s name with
  | zero =>
    obtain ⟨rfl, rfl⟩ := pure_eq_done.mp h
    rfl
  | succ count ih =>
    rw [upTo_succ_apply] at h ⊢
    cases hc : nameCharacter CodePoint.isIdentifierPart k.left s with
    | fault e => simp [hc] at h
    | miss =>
      simp only [hc, Outcome.done.injEq] at h
      obtain ⟨rfl, rfl⟩ := h
      rw [nameCharacter_eq_miss (s := k.across s) nameTest_part hclose]
    | done c u =>
      rw [nameCharacter_joined hu hleft hright nameTest_part hc]
      cases hrest : upTo (nameCharacter CodePoint.isIdentifierPart) count k.left u with
      | fault e => simp [hc, hrest] at h
      | miss => simp [hc, hrest] at h
      | done rest v =>
        simp only [hc, hrest, Outcome.done.injEq] at h
        obtain ⟨rfl, rfl⟩ := h
        simp only [ih hrest]

/-- A name that was read is the same where surrogate pairs are joined. -/
theorem groupName_joined {name : GroupName} (h : groupName k.left s = .done name t) :
    groupName k.right (k.across s) = .done name (k.across t) := by
  obtain ⟨u, hopen, h⟩ := eat_bind_eq_done.mp h
  obtain ⟨name', v, hname, h⟩ := bind_eq_done.mp h
  obtain ⟨w, hclose, h⟩ := eat_or_fail_bind_eq_done.mp h
  obtain ⟨rfl, rfl⟩ := pure_eq_done.mp h
  rw [orElse_fail_eq_done, identifierName] at hname
  obtain ⟨c, u', hc, hname⟩ := bind_eq_done.mp hname
  obtain ⟨rest, v', hrest, hname⟩ := bind_eq_done.mp hname
  obtain ⟨rfl, rfl⟩ := pure_eq_done.mp hname
  have hidentifier : identifierName k.right (k.across u) = .done (c :: rest) (k.across v') := by
    rw [identifierName, bind_of_done (nameCharacter_joined hu hleft hright nameTest_start hc)]
    refine bind_eq_done.mpr ⟨rest, k.across v', ?_, rfl⟩
    exact upTo_nameCharacter_joined hu hleft hright hrest hclose.current_eq
  rw [groupName, bind_of_done ((eat_agrees _ s).done (eat_eq_done (x := ()).mpr hopen)),
    bind_of_done (orElse_of_done hidentifier)]
  exact eat_or_fail_bind_eq_done.mpr
    ⟨k.across w, eat_eq_done.mp ((eat_agrees _ v').done (eat_eq_done (x := ()).mpr hclose)), rfl⟩

end Joined

/-- A name of a group is read alike, or was at fault by the first grammar. -/
theorem groupName_agrees : Agrees k groupName := by
  have halike (h : k.left.unicode = true ∨ k.right.edition.supports .unicodeGroupNames =
      k.left.edition.supports .unicodeGroupNames) : Agrees k groupName := by
    have hname : Agrees k identifierName :=
      (nameCharacter_agrees _ h).bind fun _ => (nameCharacter_agrees _ h).many.bind fun _ =>
        pure_agrees _
    exact (eat_agrees _).bind fun _ => (hname.orElse (fail_agrees _)).bind fun _ =>
      ((eat_agrees _).orElse (fail_agrees _)).bind fun _ => pure_agrees _
  rcases k.supports_cases .unicodeGroupNames with heq | ⟨hleft, hright, hstops⟩
  · exact halike (.inr heq)
  cases hu : k.left.unicode with
  | true => exact halike (.inl hu)
  | false =>
    intro s
    apply AgreesAt.of_outcomes
    · intro name t h
      obtain ⟨cs, hr, -⟩ := groupName_eq_done h
      exact ⟨hr.cursor.reaches, groupName_joined hu hleft hright h⟩
    · intro h
      rcases eat_bind_eq_miss.mp h with h | ⟨u, -, h⟩
      · exact bind_of_miss (eat_eq_miss.mpr h)
      -- after the first bracket there is a name or a fault
      rcases bind_eq_miss.mp h with h | ⟨name, v, -, h⟩
      · exact absurd (orElse_eq_miss.mp h).2 fail_ne_miss
      rcases bind_eq_miss.mp h with h | ⟨_, w, -, h⟩
      · exact absurd (orElse_eq_miss.mp h).2 fail_ne_miss
      · cases h
    · intro e _
      exact .inr (hstops.stops _ _)

end Parser

end EcmaPattern
