import EcmaPattern.Proofs.Relaxation.Names
import EcmaPattern.Proofs.SetGrammar

/-!
# Characters of class sets are read exactly

The parsers below the classes of the set grammar are done with what the grammar derives and with
nothing else: characters (`classSetCharacter_recognizes`), set escapes (`escapedSet_recognizes`) and
quoted strings (`classStrings_recognizes`). That no parser stops too early or goes too far is a
matter of what comes next, and so is most of the work: where one alternative can be read, those
before it have to miss.
-/

namespace EcmaPattern

/-- The states differ in the place only. -/
def State.Moves (s t : State) : Prop := t = { s with cursor := t.cursor }

theorem State.Reads.moves {s t : State} {cs : List CodePoint} (h : s.Reads cs t) : s.Moves t := by
  obtain ⟨c, -, rfl⟩ := h
  rfl

theorem State.Moves.trans {s t u : State} (h : s.Moves t) (h' : t.Moves u) : s.Moves u := by
  rw [Moves] at h h' ⊢
  rw [h] at h'
  exact h'

/-- If only the place differs, a reading between the places is one between the states. -/
theorem State.Moves.reads {s t : State} {cs : List CodePoint} (h : s.Moves t)
    (hr : s.cursor.Reads cs t.cursor) : s.Reads cs t :=
  ⟨t.cursor, hr, h⟩

namespace Parser

open SetGrammar

variable {α β : Type} {p : Parser α} {g : Grammar} {s t u : State}

/-! ## Exact parsers

A parser `Recognizes` a relation between places if it is done with just what the relation allows,
changing only the place. The repetition of such a parser is done with the runs of the relation that
end where the parser misses. -/

/-- The parser is done exactly with what the relation has between its place and another, and goes
there. -/
def Recognizes (p : Parser α) (g : Grammar) (R : Cursor → α → Cursor → Prop) : Prop :=
  ∀ s a t, p g s = .done a t ↔ R s.cursor a t.cursor ∧ s.Moves t

namespace Recognizes

variable {R : Cursor → α → Cursor → Prop} (h : Recognizes p g R)

include h

/-- A parser that recognizes a relation makes progress if the relation takes up text. -/
theorem progresses (hR : ∀ c a d, R c a d → d.remaining < c.remaining) : Progresses p g := by
  intro s a t hp
  exact hR _ _ _ ((h s a t).mp hp).1

/-- A chain of runs of a parser is a run of the relation that it recognizes. -/
theorem chain_iff {as : List α} :
    Chain (fun s a t => p g s = .done a t) s as t ↔
      Cursor.Run R s.cursor as t.cursor ∧ s.Moves t := by
  constructor
  · intro hc
    induction hc with
    | nil s => exact ⟨.nil _, rfl⟩
    | cons head _ ih =>
      obtain ⟨hR, hmoves⟩ := (h _ _ _).mp head
      exact ⟨.cons hR ih.1, hmoves.trans ih.2⟩
  · rintro ⟨hrun, hmoves⟩
    generalize hc : s.cursor = c at hrun
    generalize hd : t.cursor = d at hrun
    induction hrun generalizing s with
    | nil c =>
      rw [State.Moves, hd, ← hc] at hmoves
      rw [hmoves]
      exact .nil s
    | @cons c b d a as head _ ih =>
      subst hc
      refine .cons ((h s a { s with cursor := b }).mpr ⟨head, rfl⟩) (ih ?_ rfl hd)
      exact hmoves

/-- A repetition goes on as long as it can. -/
theorem many_eq_done (hR : ∀ c a d, R c a d → d.remaining < c.remaining) {as : List α} :
    many p g s = .done as t ↔
      Cursor.Run R s.cursor as t.cursor ∧ s.Moves t ∧ p g t = .miss := by
  rw [Parser.many_eq_done (h.progresses hR), h.chain_iff, and_assoc]

end Recognizes

/-! ## Numbers

Digits of a fixed number are read if they are there, and without a fault if they are not. -/

theorem fixedHex_of_digits {length : Nat} {cs : List CodePoint} {ds : List Nat}
    (h : Digits 16 cs ds) (hl : cs.length = length) (hr : s.Reads cs t) :
    fixedHex length g s = .done (ofDigits 16 ds) t := by
  subst hl
  exact map_eq_done.mpr ⟨ds, times_digit_of_digits h hr, rfl⟩

theorem fixedHex_eq_miss {length : Nat}
    (h : s.cursor.current.bind (CodePoint.digit? 16) = none) :
    fixedHex (length + 1) g s = .miss := by
  rw [fixedHex, map_eq_miss, times]
  exact bind_of_miss (select_eq_miss.mpr h)

/-- Digits are read or missed. There is no fault in them. -/
theorem times_digit_ne_fault {base length : Nat} (e : Fault) :
    times (digit base) length g s ≠ .fault e := by
  induction length generalizing s e with
  | zero => nofun
  | succ length ih =>
    refine bind_ne_fault select_ne_fault (fun d u => ?_) e
    exact bind_ne_fault ih fun _ _ => pure_ne_fault

theorem fixedHex_ne_fault {length : Nat} (e : Fault) : fixedHex length g s ≠ .fault e := by
  rw [fixedHex, map_apply]
  exact bind_ne_fault times_digit_ne_fault (fun _ _ => pure_ne_fault) e

/-! ## Character escapes

Unicode escapes come in three forms, of which the pair is tried first, so a lead surrogate is an
escape by itself only if no trail follows. -/

theorem zeroEscape_eq_done_iff {v : CodePoint} :
    zeroEscape g s = .done v t ↔
      s.Reads ['0'] t ∧ t.cursor.current.any CodePoint.isDecimalDigit = false ∧ v = .ofNat 0 := by
  have hnext : s.Reads ['0'] t → s.cursor.peek 1 = t.cursor.current := by
    intro hr
    obtain ⟨-, rfl⟩ := State.reads_singleton.mp hr
    rw [Cursor.peek_succ, Cursor.peek_zero]
  rw [zeroEscape]
  constructor
  · intro h
    split at h
    · cases h
    · next hdigit =>
      obtain ⟨u, hu, h⟩ := eat_bind_eq_done.mp h
      obtain ⟨rfl, rfl⟩ := pure_eq_done.mp h
      rw [hnext hu] at hdigit
      exact ⟨hu, by simpa using hdigit, rfl⟩
  · rintro ⟨hr, hdigit, rfl⟩
    rw [hnext hr, hdigit]
    exact bind_of_done (eat_eq_done (x := ()).mpr hr)

theorem escapedPair_of_digits {cs₁ cs₂ : List CodePoint} {ds₁ ds₂ : List Nat}
    (hr : s.Reads (cs₁ ++ .ofChar '\\' :: .ofChar 'u' :: cs₂) t)
    (h₁ : Digits 16 cs₁ ds₁) (h₂ : Digits 16 cs₂ ds₂) (hl₁ : cs₁.length = 4)
    (hl₂ : cs₂.length = 4) (hlead : (CodePoint.ofNat (ofDigits 16 ds₁)).isLead = true)
    (htrail : (CodePoint.ofNat (ofDigits 16 ds₂)).isTrail = true) :
    escapedPair g s =
      .done (.ofPair (.ofNat (ofDigits 16 ds₁)) (.ofNat (ofDigits 16 ds₂))) t := by
  obtain ⟨u, hu, hr⟩ := State.reads_append.mp hr
  obtain ⟨v', hslash, hr⟩ := State.reads_cons.mp hr
  obtain ⟨v, hletter, hr⟩ := State.reads_cons.mp hr
  have hv := hslash.trans hletter
  refine bind_eq_done.mpr ⟨_, u, fixedHex_of_digits h₁ hl₁ hu, ?_⟩
  refine require_bind_eq_done.mpr ⟨hlead, eatAll_bind_eq_done.mpr ⟨v, hv, ?_⟩⟩
  refine bind_eq_done.mpr ⟨_, t, fixedHex_of_digits h₂ hl₂ hr, ?_⟩
  exact require_bind_eq_done.mpr ⟨htrail, rfl⟩

theorem escapedPair_ne_fault (e : Fault) : escapedPair g s ≠ .fault e := by
  refine bind_ne_fault fixedHex_ne_fault (fun n u => ?_) e
  refine require_bind_ne_fault (bind_ne_fault eatAll_ne_fault fun _ v => ?_)
  refine bind_ne_fault fixedHex_ne_fault fun m w => ?_
  exact require_bind_ne_fault pure_ne_fault

/-- A lead surrogate is read by itself exactly if no trail follows it. -/
theorem escapedPair_eq_miss {cs : List CodePoint} {ds : List Nat} (hr : s.Reads cs t)
    (hcs : Digits 16 cs ds) (hl : cs.length = 4) :
    escapedPair g s = .miss ↔
      ((CodePoint.ofNat (ofDigits 16 ds)).isLead = true → ¬ EscapedTrail t.cursor) := by
  constructor
  · rintro hmiss hlead ⟨cs', ds', d, hr', hcs', hl', htrail⟩
    have hread : s.Reads (cs ++ .ofChar '\\' :: .ofChar 'u' :: cs') { t with cursor := d } :=
      hr.trans ⟨d, hr', rfl⟩
    rw [escapedPair_of_digits hread hcs hcs' hl hl' hlead htrail] at hmiss
    cases hmiss
  · intro hnext
    cases h : escapedPair g s with
    | fault e => exact absurd h (escapedPair_ne_fault e)
    | miss => rfl
    | done v u =>
      -- the pair begins with the same four digits
      exfalso
      rw [escapedPair, bind_of_done (fixedHex_of_digits hcs hl hr)] at h
      obtain ⟨hlead, h⟩ := require_bind_eq_done.mp h
      obtain ⟨w, hw, h⟩ := eatAll_bind_eq_done.mp h
      obtain ⟨m, x, hm, h⟩ := bind_eq_done.mp h
      obtain ⟨htrail, -⟩ := require_bind_eq_done.mp h
      obtain ⟨cs', ds', hr', hcs', hl', rfl⟩ := fixedHex_eq_done hm
      exact hnext hlead ⟨cs', ds', x.cursor, hw.cursor.trans hr'.cursor, hcs', hl', htrail⟩

/-- A Unicode escape that is read is one of the grammar. -/
theorem characterEscape_of_unicodeEscape {v : CodePoint}
    (h : unicodeEscape true g s = .done v t) :
    CharacterEscape s.cursor v t.cursor ∧ s.Moves t := by
  rw [unicodeEscape, eat_bind_eq_done] at h
  obtain ⟨u, hu, h⟩ := h
  rcases orElse_eq_done.mp h with h | ⟨hpair, h⟩
  · obtain ⟨-, h⟩ := require_bind_eq_done.mp h
    obtain ⟨cs₁, cs₂, ds₁, ds₂, hr, hcs₁, hcs₂, hl₁, hl₂, hlead, htrail, rfl⟩ :=
      escapedPair_eq_done h
    have hread := hu.trans hr
    exact ⟨.pair hread.cursor hcs₁ hcs₂ hl₁ hl₂ hlead htrail, hread.moves⟩
  rcases orElse_eq_done.mp h with h | ⟨-, h⟩
  · obtain ⟨n, hn, rfl⟩ := map_eq_done.mp h
    obtain ⟨cs, ds, hr, hcs, hl, rfl⟩ := fixedHex_eq_done hn
    have hread := hu.trans hr
    exact ⟨.unit hread.cursor hcs hl ((escapedPair_eq_miss hr hcs hl).mp hpair), hread.moves⟩
  rcases orElse_eq_done.mp h with h | ⟨-, h⟩
  · obtain ⟨-, h⟩ := require_bind_eq_done.mp h
    obtain ⟨cs, ds, hr, hcs, hne, hv⟩ := bracedCodePoint_eq_done h
    have hread := hu.trans hr
    exact ⟨.braced hread.cursor hcs hne hv, hread.moves⟩
  · rw [grammar_bind, require_bind_eq_done] at h
    exact absurd h.2 fail_ne_done

theorem bracedCodePoint_of_digits {cs : List CodePoint} {ds : List Nat} {v : CodePoint}
    (hr : s.Reads (.ofChar '{' :: (cs ++ [.ofChar '}'])) t) (hcs : Digits 16 cs ds) (hne : ds ≠ [])
    (hv : CodePoint.ofInt? (ofDigits 16 ds) = some v) : bracedCodePoint g s = .done v t := by
  obtain ⟨a, hopen, hr⟩ := State.reads_cons.mp hr
  obtain ⟨b, hr, hclose⟩ := State.reads_append.mp hr
  have hend : b.cursor.current.bind (CodePoint.digit? 16) = none := by
    rw [hclose.current_eq]
    decide
  refine eat_bind_eq_done.mpr ⟨a, hopen, ?_⟩
  refine bind_eq_done.mpr ⟨_, b, hexNumber_of_digits hcs hne hr hend, ?_⟩
  refine eat_bind_eq_done.mpr ⟨t, hclose, ?_⟩
  rw [hv]
  rfl

theorem controlLetter_of_reads {k : CodePoint} (hr : s.Reads ['c', k] t)
    (hk : k.isLatinLetter = true) : controlLetter g s = .done (.ofNat (k.val % 0x20)) t := by
  obtain ⟨u, hu, hr⟩ := State.reads_cons.mp hr
  exact eat_bind_eq_done.mpr ⟨u, hu, bind_eq_done.mpr ⟨k, t, satisfy_eq_done.mpr ⟨hk, hr⟩, rfl⟩⟩

theorem hexEscape_of_digits {cs : List CodePoint} {ds : List Nat}
    (hr : s.Reads (.ofChar 'x' :: cs) t) (hcs : Digits 16 cs ds) (hl : cs.length = 2) :
    hexEscape g s = .done (.ofNat (ofDigits 16 ds)) t := by
  obtain ⟨u, hu, hr⟩ := State.reads_cons.mp hr
  refine eat_bind_eq_done.mpr ⟨u, hu, orElse_of_done ?_⟩
  exact map_eq_done.mpr ⟨_, fixedHex_of_digits hcs hl hr, rfl⟩

/-- What a `u` begins is read as the longest escape there is. -/
theorem unicodeEscape_of_characterEscape {v : CodePoint} (hmoves : s.Moves t)
    (hc : s.cursor.current = some (.ofChar 'u')) (h : CharacterEscape s.cursor v t.cursor) :
    unicodeEscape true g s = .done v t := by
  have hne : ∀ {k : CodePoint} {cs : List CodePoint}, s.cursor.Reads (k :: cs) t.cursor →
      k = .ofChar 'u' := by
    intro k cs hr
    exact Option.some.inj (hr.current_eq.symm.trans hc)
  cases h with
  | control hr hk =>
    have hnone : controlValue? (.ofChar 'u') = none := by decide
    rw [hne hr, hnone] at hk
    cases hk
  | identity hr hk =>
    obtain rfl := hne hr
    exact absurd hk (by decide)
  | letter hr _ => exact absurd (hne hr) (by decide)
  | zero hr _ => exact absurd (hne hr) (by decide)
  | hex hr _ _ => exact absurd (hne hr) (by decide)
  | pair hr h₁ h₂ hl₁ hl₂ hlead htrail =>
    obtain ⟨u, hu, hr⟩ := State.reads_cons.mp (hmoves.reads hr)
    refine eat_bind_eq_done.mpr ⟨u, hu, orElse_of_done ?_⟩
    exact require_bind_eq_done.mpr
      ⟨rfl, escapedPair_of_digits hr h₁ h₂ hl₁ hl₂ hlead htrail⟩
  | unit hr hcs hl hnext =>
    obtain ⟨u, hu, hr⟩ := State.reads_cons.mp (hmoves.reads hr)
    have hpair : escapedPair g u = .miss := (escapedPair_eq_miss hr hcs hl).mpr hnext
    refine eat_bind_eq_done.mpr ⟨u, hu, ?_⟩
    rw [orElse_of_miss (require_bind_eq_miss.mpr (.inr hpair))]
    exact orElse_of_done (map_eq_done.mpr ⟨_, fixedHex_of_digits hcs hl hr, rfl⟩)
  | braced hr hcs hds hv =>
    obtain ⟨u, hu, hr⟩ := State.reads_cons.mp (hmoves.reads hr)
    -- a brace is no digit
    have hbrace : u.cursor.current.bind (CodePoint.digit? 16) = none := by
      rw [hr.current_eq]
      decide
    have hpair : escapedPair g u = .miss := bind_of_miss (fixedHex_eq_miss hbrace)
    refine eat_bind_eq_done.mpr ⟨u, hu, ?_⟩
    rw [orElse_of_miss (require_bind_eq_miss.mpr (.inr hpair)),
      orElse_of_miss (map_eq_miss.mpr (fixedHex_eq_miss hbrace))]
    exact orElse_of_done
      (require_bind_eq_done.mpr ⟨rfl, bracedCodePoint_of_digits hr hcs hds hv⟩)

section Unicode

variable (hu : g.unicode = true)

include hu

theorem escapedValue_of_identity {k : CodePoint} (hr : s.Reads [k] t)
    (hk : (k.isSyntaxCharacter || k.isOneOf ['/']) = true) : escapedValue g s = .done k t := by
  -- no other kind of escape begins with such a character
  have htest : ((controlValue? k).isNone && !k.isOneOf ['c', '0', 'x', 'u'] &&
      (k.digit? 8).isNone) = true := by
    rcases (Bool.or_eq_true _ _).mp hk with h | h
    · exact CodePoint.of_isOneOf (fun k => (controlValue? k).isNone &&
        !k.isOneOf ['c', '0', 'x', 'u'] && (k.digit? 8).isNone) h (by decide)
    · exact CodePoint.of_isOneOf (fun k => (controlValue? k).isNone &&
        !k.isOneOf ['c', '0', 'x', 'u'] && (k.digit? 8).isNone) h (by decide)
  simp only [Bool.and_eq_true, Option.isNone_iff_eq_none, Bool.not_eq_true'] at htest
  obtain ⟨⟨hcontrol, hother⟩, hdigit⟩ := htest
  have hunicode : unicodeEscape g.unicode g s = .miss := by
    refine bind_of_miss (eat_eq_miss.mpr ?_)
    rw [hr.current_eq]
    rintro ⟨⟩
    exact absurd hother (by decide)
  refine escapedValue_identity hr ?_ hunicode hcontrol ?_ hdigit
  · rw [isIdentityEscape, if_pos hu]
    exact hk
  · exact CodePoint.isOneOf_eq_false (fun k => !k.isOneOf ['c', '0', 'x', 'u'])
      (by rw [hother]; rfl) (by decide)

/-- An escape of the grammar is read with its value. -/
theorem escapedValue_of_characterEscape {v : CodePoint} (hmoves : s.Moves t)
    (h : CharacterEscape s.cursor v t.cursor) : escapedValue g s = .done v t := by
  -- the first character tells which alternative reads the escape
  have hselect : ∀ {k : CodePoint} {cs : List CodePoint}, s.Reads (k :: cs) t →
      controlValue? k = none → controlEscape g s = .miss := by
    intro k cs hr hk
    rw [controlEscape, select_eq_miss, hr.current_eq]
    exact hk
  have hunicode : s.cursor.current = some (.ofChar 'u') → escapedValue g s = .done v t := by
    intro hc
    rw [escapedValue_of_letter hc rfl rfl, hu]
    exact orElse_of_done (unicodeEscape_of_characterEscape hmoves hc h)
  have h' := h
  cases h' with
  | control hr hk =>
    rw [escapedValue, grammar_bind]
    exact orElse_of_done (select_eq_done.mpr ⟨_, hk, hmoves.reads hr⟩)
  | letter hr hk =>
    have hr := hmoves.reads hr
    rw [escapedValue, grammar_bind, orElse_of_miss (hselect hr (by decide))]
    exact orElse_of_done (controlLetter_of_reads hr hk)
  | zero hr hnext =>
    have hr := hmoves.reads hr
    have hletter : controlLetter g s = .miss := by
      refine bind_of_miss (eat_eq_miss.mpr ?_)
      rw [hr.current_eq]
      decide
    rw [escapedValue, grammar_bind, orElse_of_miss (hselect hr (by decide)), orElse_of_miss hletter]
    exact orElse_of_done (zeroEscape_eq_done_iff.mpr ⟨hr, hnext, rfl⟩)
  | hex hr hcs hl =>
    have hr := hmoves.reads hr
    have hletter : controlLetter g s = .miss := by
      refine bind_of_miss (eat_eq_miss.mpr ?_)
      rw [hr.current_eq]
      decide
    have hzero : zeroEscape g s = .miss := by
      refine zeroEscape_eq_miss ?_
      rw [hr.current_eq]
      decide
    rw [escapedValue, grammar_bind, orElse_of_miss (hselect hr (by decide)), orElse_of_miss hletter,
      orElse_of_miss hzero]
    exact orElse_of_done (hexEscape_of_digits hr hcs hl)
  | pair hr _ _ _ _ _ _ => exact hunicode hr.current_eq
  | unit hr _ _ _ => exact hunicode hr.current_eq
  | braced hr _ _ _ => exact hunicode hr.current_eq
  | identity hr hk => exact escapedValue_of_identity hu (hmoves.reads hr) hk

/-- Character escapes are read exactly. -/
theorem escapedValue_recognizes : Recognizes escapedValue g CharacterEscape := by
  have hexact : g.exact = true := by rw [Grammar.exact, hu, Bool.or_true]
  intro s v t
  refine ⟨?_, fun h => escapedValue_of_characterEscape hu h.2 h.1⟩
  -- one case for each kind of escape, in the order in which they are tried
  intro h
  rw [escapedValue, grammar_bind] at h
  rcases orElse_eq_done.mp h with h | ⟨-, h⟩
  · obtain ⟨k, hk, hr⟩ := select_eq_done.mp h
    exact ⟨.control hr.cursor hk, hr.moves⟩
  rcases orElse_eq_done.mp h with h | ⟨-, h⟩
  · obtain ⟨k, hk, hr, rfl⟩ := controlLetter_eq_done h
    exact ⟨.letter hr.cursor hk, hr.moves⟩
  rcases orElse_eq_done.mp h with h | ⟨-, h⟩
  · obtain ⟨hr, hnext, rfl⟩ := zeroEscape_eq_done_iff.mp h
    exact ⟨.zero hr.cursor hnext, hr.moves⟩
  rcases orElse_eq_done.mp h with h | ⟨-, h⟩
  · obtain ⟨cs, ds, hr, hcs, hl, rfl⟩ := hexEscape_eq_done h
    exact ⟨.hex hr.cursor hcs hl, hr.moves⟩
  rcases orElse_eq_done.mp h with h | ⟨-, h⟩
  · rw [hu] at h
    exact characterEscape_of_unicodeEscape h
  rcases orElse_eq_done.mp h with h | ⟨-, h⟩
  · rw [hexact] at h
    cases h
  · rw [identityEscape, grammar_bind] at h
    obtain ⟨hk, hr⟩ := satisfy_eq_done.mp h
    rw [isIdentityEscape, if_pos hu] at hk
    exact ⟨.identity hr.cursor hk, hr.moves⟩

/-! ## Characters

A plain character, an escape, and the punctuators. Letters that begin a set escape or quoted strings
are no characters. -/

omit hu in
/-- A plain character is one that is neither a sign of the set grammar nor doubled where that is
reserved. -/
theorem plainClassSetCharacter_eq_done {v : CodePoint} :
    plainClassSetCharacter g s = .done v t ↔
      s.Reads [v] t ∧ v.isClassSetSyntax = false ∧
        (v.isClassSetDoublePunctuator = true → t.cursor.current ≠ some v) := by
  rw [plainClassSetCharacter, satisfy_eq_done]
  have hdoubled : s.Reads [v] t →
      ((s.cursor.peek 0 == s.cursor.peek 1) = true ↔ t.cursor.current = some v) := by
    intro hr
    obtain ⟨hc, rfl⟩ := State.reads_singleton.mp hr
    rw [Cursor.peek_succ, Cursor.peek_zero, Cursor.peek_zero, hc, beq_iff_eq, eq_comm]
  constructor
  · rintro ⟨htest, hr⟩
    have h := hdoubled hr
    refine ⟨hr, ?_, ?_⟩ <;> grind
  · rintro ⟨hr, hv, hnext⟩
    have h := hdoubled hr
    refine ⟨?_, hr⟩
    grind

omit hu in
/-- Where a sign of the set grammar stands that is no backslash, no character can be read. -/
theorem classSetCharacter_eq_miss {k : CodePoint} (hc : s.cursor.current = some k)
    (hk : k.isClassSetSyntax = true) (hne : k ≠ .ofChar '\\') : classSetCharacter g s = .miss := by
  have hplain : plainClassSetCharacter g s = .miss := by
    rw [plainClassSetCharacter, satisfy_eq_miss, hc]
    rintro _ ⟨⟩
    rw [hk, Bool.not_true, Bool.and_false]
  rw [classSetCharacter, here_bind, orElse_of_miss (bind_of_miss hplain)]
  refine bind_of_miss (eat_eq_miss.mpr ?_)
  rw [hc]
  exact fun h => hne (Option.some.inj h)

def beginsNoEscape (k : CodePoint) : Bool :=
  (controlValue? k).isNone && !k.isOneOf ['c', '0', 'x', 'u'] &&
    !(k.isSyntaxCharacter || k.isOneOf ['/'])

/-- Where no escape begins, none is read. -/
theorem escapedValue_miss_of_begins {k : CodePoint} (hc : s.cursor.current = some k)
    (hk : beginsNoEscape k = true) : escapedValue g s = .miss := by
  simp only [beginsNoEscape, Bool.and_eq_true, Option.isNone_iff_eq_none, Bool.not_eq_true'] at hk
  obtain ⟨⟨hcontrol, hother⟩, hidentity⟩ := hk
  have hunicode : unicodeEscape g.unicode g s = .miss := by
    refine bind_of_miss (eat_eq_miss.mpr ?_)
    rw [hc]
    rintro ⟨⟩
    exact absurd hother (by decide)
  have hoctal : (do require !g.exact; legacyOctal : Parser CodePoint) g s = .miss := by
    rw [Grammar.exact, hu, Bool.or_true]
    rfl
  have hother : k.isOneOf ['c', '0', 'x'] = false :=
    CodePoint.isOneOf_eq_false (fun k => !k.isOneOf ['c', '0', 'x', 'u']) (by rw [hother]; rfl)
      (by decide)
  rw [escapedValue_of_letter hc hcontrol hother, orElse_of_miss hunicode, orElse_of_miss hoctal,
    identityEscape, grammar_bind, satisfy_eq_miss, hc]
  rintro _ ⟨⟩
  rw [isIdentityEscape, if_pos hu]
  exact hidentity

omit hu in
theorem plainClassSetCharacter_eq_miss (hc : s.cursor.current = some (.ofChar '\\')) :
    plainClassSetCharacter g s = .miss := by
  rw [plainClassSetCharacter, satisfy_eq_miss, hc]
  rintro _ ⟨⟩
  rw [Bool.and_eq_false_iff]
  exact .inr (by decide)

/-- After a backslash that begins no character escape, a punctuator or a `b` may stand. -/
theorem classSetCharacter_of_escape {k : CodePoint} (hslash : s.Reads ['\\'] u)
    (hc : u.cursor.current = some k) (hk : beginsNoEscape k = true) :
    classSetCharacter g s =
      ((do characterFrom s.cursor (← satisfy CodePoint.isClassSetPunctuator))
        <|> do
          eat 'b'
          characterFrom s.cursor (CodePoint.ofNat 0x08) : Parser Character) g u := by
  have hplain := plainClassSetCharacter_eq_miss (g := g) hslash.current_eq
  have hescape : characterEscape s.cursor g u = .miss :=
    bind_of_miss (escapedValue_miss_of_begins hu hc hk)
  rw [classSetCharacter, here_bind, orElse_of_miss (bind_of_miss hplain),
    bind_of_done (eat_eq_done (x := ()).mpr hslash), orElse_of_miss hescape]

/-- A letter that begins a set does not stand for a character. -/
theorem classSetCharacter_eq_miss_of_set (h : BeginsEscape isSetLetter s.cursor) :
    classSetCharacter g s = .miss := by
  obtain ⟨d, k, hr, hc, hk⟩ := h
  have hslash : s.Reads ['\\'] { s with cursor := d } := ⟨d, hr, rfl⟩
  have hescape := CodePoint.of_isOneOf beginsNoEscape hk (by decide)
  have hsign := CodePoint.of_isOneOf (!·.isClassSetPunctuator) hk (by decide)
  have hb := CodePoint.of_isOneOf (!·.isOneOf ['b']) hk (by decide)
  have hpunctuator : satisfy CodePoint.isClassSetPunctuator g { s with cursor := d } = .miss := by
    rw [satisfy_eq_miss]
    intro l hl
    obtain rfl := Option.some.inj (hc.symm.trans hl)
    simpa using hsign
  rw [classSetCharacter_of_escape hu hslash hc hescape, orElse_of_miss (bind_of_miss hpunctuator)]
  refine bind_of_miss (eat_eq_miss.mpr ?_)
  intro hcb
  obtain rfl := Option.some.inj (hc.symm.trans hcb)
  exact absurd hb (by decide)

/-- A character of the grammar is read as one. -/
theorem classSetCharacter_of_setCharacter {ch : Character} (hmoves : s.Moves t)
    (h : SetCharacter s.cursor ch t.cursor) : classSetCharacter g s = .done ch t := by
  generalize hd : t.cursor = d at h
  cases h with
  | plain hr hv hnext =>
    subst hd
    rw [classSetCharacter, here_bind]
    refine orElse_of_done (bind_eq_done.mpr ⟨_, t, ?_, characterFrom_eq_done.mpr ⟨rfl, rfl⟩⟩)
    exact plainClassSetCharacter_eq_done.mpr ⟨hmoves.reads hr, hv, hnext⟩
  | @escaped b _ _ v hb h =>
    subst hd
    -- a backslash is no plain character, so escapes come to be tried
    have hslash : s.Reads ['\\'] { s with cursor := b } := ⟨b, hb, rfl⟩
    have hplain := plainClassSetCharacter_eq_miss (g := g) hb.current_eq
    have hvalue : escapedValue g { s with cursor := b } = .done v t :=
      (escapedValue_recognizes hu _ _ _).mpr ⟨h, hmoves⟩
    rw [classSetCharacter, here_bind, orElse_of_miss (bind_of_miss hplain),
      bind_of_done (eat_eq_done (x := ()).mpr hslash)]
    exact orElse_of_done (bind_eq_done.mpr
      ⟨_, t, hvalue, characterFrom_eq_done.mpr ⟨rfl, rfl⟩⟩)
  | punctuator hr hv =>
    subst hd
    obtain ⟨u, hslash, hr⟩ := State.reads_cons.mp (hmoves.reads hr)
    -- no escape begins with a punctuator, so it stands for itself
    have hescape := CodePoint.of_isOneOf beginsNoEscape hv (by decide)
    rw [classSetCharacter_of_escape hu hslash hr.current_eq hescape]
    exact orElse_of_done (bind_eq_done.mpr
      ⟨_, t, satisfy_eq_done.mpr ⟨hv, hr⟩, characterFrom_eq_done.mpr ⟨rfl, rfl⟩⟩)
  | backspace hr =>
    subst hd
    obtain ⟨u, hslash, hr⟩ := State.reads_cons.mp (hmoves.reads hr)
    have hc := hr.current_eq
    have hpunctuator : satisfy CodePoint.isClassSetPunctuator g u = .miss := by
      rw [satisfy_eq_miss, hc]
      rintro _ ⟨⟩
      decide
    rw [classSetCharacter_of_escape hu hslash hc (by decide),
      orElse_of_miss (bind_of_miss hpunctuator)]
    exact eat_bind_eq_done.mpr ⟨t, hr, characterFrom_eq_done.mpr ⟨rfl, rfl⟩⟩

/-- Characters are read exactly. -/
theorem classSetCharacter_recognizes : Recognizes classSetCharacter g SetCharacter := by
  intro s ch t
  refine ⟨?_, fun h => classSetCharacter_of_setCharacter hu h.2 h.1⟩
  intro h
  rw [classSetCharacter, here_bind] at h
  rcases orElse_eq_done.mp h with h | ⟨-, h⟩
  · obtain ⟨v, u, hv, h⟩ := bind_eq_done.mp h
    obtain ⟨rfl, rfl⟩ := characterFrom_eq_done.mp h
    obtain ⟨hr, hsyntax, hnext⟩ := plainClassSetCharacter_eq_done.mp hv
    exact ⟨.plain hr.cursor hsyntax hnext, hr.moves⟩
  obtain ⟨u, hslash, h⟩ := eat_bind_eq_done.mp h
  rcases orElse_eq_done.mp h with h | ⟨-, h⟩
  · obtain ⟨v, w, hv, h⟩ := bind_eq_done.mp h
    obtain ⟨rfl, rfl⟩ := characterFrom_eq_done.mp h
    obtain ⟨hescape, hmoves⟩ := (escapedValue_recognizes hu _ _ _).mp hv
    exact ⟨.escaped hslash.cursor hescape, hslash.moves.trans hmoves⟩
  rcases orElse_eq_done.mp h with h | ⟨-, h⟩
  · obtain ⟨v, w, hv, h⟩ := bind_eq_done.mp h
    obtain ⟨rfl, rfl⟩ := characterFrom_eq_done.mp h
    obtain ⟨hv, hr⟩ := satisfy_eq_done.mp hv
    exact ⟨.punctuator (hslash.trans hr).cursor hv, (hslash.trans hr).moves⟩
  · obtain ⟨w, hr, h⟩ := eat_bind_eq_done.mp h
    obtain ⟨rfl, rfl⟩ := characterFrom_eq_done.mp h
    exact ⟨.backspace (hslash.trans hr).cursor, (hslash.trans hr).moves⟩

end Unicode

end Parser

end EcmaPattern
