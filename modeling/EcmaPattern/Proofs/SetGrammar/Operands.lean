import EcmaPattern.Proofs.SetGrammar.Characters

/-!
# Operands of class sets are read exactly

Set escapes (`escapedSet_recognizes`), quoted strings (`classStrings_recognizes`) and, given that
the classes inside a class are read exactly, operands of any kind (`classSetOperand_recognizes`).

Each parser is shown to be done with what the grammar derives and with nothing else. For the second
half the parsers before it in a choice have to miss, and for that it has to be known that they find
no fault there.
-/

namespace EcmaPattern.Parser

open SetGrammar

variable {g : Grammar} {s t u : State}

/-! ## Property escapes

The words of a property go on as long as they can, and what follows them is an equals sign or a
brace, which are no characters of words. -/

theorem chain_of_satisfy {test : CodePoint → Bool} {cs : List CodePoint} (hr : s.Reads cs t)
    (h : ∀ k ∈ cs, test k = true) : Chain (fun s c t => satisfy test g s = .done c t) s cs t := by
  induction cs generalizing s with
  | nil =>
    rw [hr.eq_of_nil]
    exact .nil t
  | cons k cs ih =>
    obtain ⟨u, hk, hr⟩ := State.reads_cons.mp hr
    refine .cons (satisfy_eq_done.mpr ⟨h k List.mem_cons_self, hk⟩) (ih hr ?_)
    exact fun l hl => h l (List.mem_cons_of_mem k hl)

/-- A word is as long as it can be. -/
theorem propertyWord_eq_done_iff {test : CodePoint → Bool} {w : String} :
    propertyWord test g s = .done w t ↔
      ∃ cs, cs ≠ [] ∧ s.Reads cs t ∧ (∀ k ∈ cs, test k = true) ∧
        (∀ k, t.cursor.current = some k → test k = false) ∧ word cs = w := by
  have hmany : ∀ {u : State} {ks : List CodePoint}, many (satisfy test) g u = .done ks t ↔
      Chain (fun s c t => satisfy test g s = .done c t) u ks t ∧ satisfy test g t = .miss :=
    many_eq_done (progresses_satisfy test g)
  rw [propertyWord, many1, bind_eq_done]
  constructor
  · rintro ⟨cs, u, hcs, h⟩
    obtain ⟨rfl, rfl⟩ := pure_eq_done.mp h
    obtain ⟨k, v, hk, hcs⟩ := bind_eq_done.mp hcs
    obtain ⟨ks, x, hks, hcs⟩ := bind_eq_done.mp hcs
    obtain ⟨rfl, rfl⟩ := pure_eq_done.mp hcs
    obtain ⟨hchain, hmiss⟩ := hmany.mp hks
    obtain ⟨hr, htest⟩ := reads_of_chain_satisfy (Chain.cons hk hchain)
    exact ⟨_, List.cons_ne_nil _ _, hr, htest, satisfy_eq_miss.mp hmiss, rfl⟩
  · rintro ⟨cs, hne, hr, htest, hend, rfl⟩
    refine ⟨cs, t, ?_, rfl⟩
    cases chain_of_satisfy (g := g) hr htest with
    | nil => exact absurd rfl hne
    | cons head tail =>
      exact bind_eq_done.mpr ⟨_, _, head, bind_eq_done.mpr
        ⟨_, t, hmany.mpr ⟨tail, satisfy_eq_miss.mpr hend⟩, rfl⟩⟩

theorem propertyWord_ne_fault {test : CodePoint → Bool} (e : Fault) :
    propertyWord test g s ≠ .fault e :=
  bind_ne_fault (many1_ne_fault (fun _ => satisfy_ne_fault) s) (fun _ _ => pure_ne_fault) e

/-- What is looked up is given, or else there is a fault. -/
theorem lookup_eq_done (lookup : Grammar → Option Property) {p : Property} :
    (grammar >>= fun g => match lookup g with
      | some p => pure p
      | none => fail .invalidPropertyName : Parser Property) g s = .done p t ↔
      lookup g = some p ∧ s = t := by
  rw [grammar_bind]
  cases lookup g with
  | none => simp [fail_ne_done]
  | some q => simp [pure_eq_done]

/-- A property with a value is read just where one is written that the edition knows. -/
theorem propertyPair_eq_done_iff {p : Property} :
    propertyPair g s = .done p t ↔
      ∃ ns vs, ns ≠ [] ∧ (∀ k ∈ ns, k.isPropertyNameCharacter = true) ∧ vs ≠ [] ∧
        (∀ k ∈ vs, k.isPropertyValueCharacter = true) ∧
        Property.ofPair? g.edition (word ns) (word vs) = some p ∧
        s.Reads (ns ++ .ofChar '=' :: vs) t ∧
        ∀ k, t.cursor.current = some k → k.isPropertyValueCharacter = false := by
  rw [propertyPair, bind_eq_done]
  constructor
  · rintro ⟨name, u₁, hname, h⟩
    obtain ⟨u₂, heq, h⟩ := eat_bind_eq_done.mp h
    obtain ⟨value, u₃, hvalue, h⟩ := bind_eq_done.mp h
    obtain ⟨hp, rfl⟩ :=
      (lookup_eq_done fun g => Property.ofPair? g.edition name value).mp h
    obtain ⟨ns, hns, hr, hn, -, rfl⟩ := propertyWord_eq_done_iff.mp hname
    obtain ⟨vs, hvs, hr', hv, hend, rfl⟩ := propertyWord_eq_done_iff.mp hvalue
    exact ⟨ns, vs, hns, hn, hvs, hv, hp, hr.trans (heq.trans hr'), hend⟩
  · rintro ⟨ns, vs, hns, hn, hvs, hv, hp, hr, hend⟩
    obtain ⟨u₁, hr₁, hr⟩ := State.reads_append.mp hr
    obtain ⟨u₂, heq, hr₂⟩ := State.reads_cons.mp hr
    have hstop : ∀ k, u₁.cursor.current = some k → k.isPropertyNameCharacter = false := by
      rw [heq.current_eq]
      rintro _ ⟨⟩
      decide
    refine ⟨_, u₁, propertyWord_eq_done_iff.mpr ⟨ns, hns, hr₁, hn, hstop, rfl⟩, ?_⟩
    refine eat_bind_eq_done.mpr ⟨u₂, heq, bind_eq_done.mpr ⟨word vs, t, ?_, ?_⟩⟩
    · exact propertyWord_eq_done_iff.mpr ⟨vs, hvs, hr₂, hv, hend, rfl⟩
    · exact (lookup_eq_done fun g => Property.ofPair? g.edition _ _).mpr ⟨hp, rfl⟩

/-- A property alone is read just where one is written that the edition knows. -/
theorem loneProperty_eq_done_iff {p : Property} :
    loneProperty g s = .done p t ↔
      ∃ ns, ns ≠ [] ∧ (∀ k ∈ ns, k.isPropertyValueCharacter = true) ∧
        Property.ofName? g.edition g.sets (word ns) = some p ∧ s.Reads ns t ∧
        ∀ k, t.cursor.current = some k → k.isPropertyValueCharacter = false := by
  rw [loneProperty, bind_eq_done]
  constructor
  · rintro ⟨name, u, hname, h⟩
    obtain ⟨hp, rfl⟩ := (lookup_eq_done fun g => Property.ofName? g.edition g.sets name).mp h
    obtain ⟨ns, hns, hr, hn, hend, rfl⟩ := propertyWord_eq_done_iff.mp hname
    exact ⟨ns, hns, hn, hp, hr, hend⟩
  · rintro ⟨ns, hns, hn, hp, hr, hend⟩
    exact ⟨_, t, propertyWord_eq_done_iff.mpr ⟨ns, hns, hr, hn, hend, rfl⟩,
      (lookup_eq_done fun g => Property.ofName? g.edition g.sets _).mpr ⟨hp, rfl⟩⟩

/-- A property that stands alone is no pair: the name of a pair would have to end before an equals
sign. -/
theorem propertyPair_eq_miss {ns : List CodePoint} (hr : s.Reads (ns ++ [.ofChar '}']) t)
    (hn : ∀ k ∈ ns, k.isPropertyValueCharacter = true) : propertyPair g s = .miss := by
  cases h : propertyWord CodePoint.isPropertyNameCharacter g s with
  | fault e => exact absurd h (propertyWord_ne_fault e)
  | miss => exact bind_of_miss h
  | done w u =>
    obtain ⟨cs, -, hcs, hname, -, -⟩ := propertyWord_eq_done_iff.mp h
    obtain ⟨es, rfl, hes⟩ := reads_firstPart hr hcs fun hmem =>
      absurd (hname _ hmem) (by decide)
    have hne : u.cursor.current ≠ some (.ofChar '=') := by
      cases es with
      | nil =>
        rw [hes.current_eq]
        decide
      | cons k es =>
        rw [hes.current_eq]
        rintro ⟨⟩
        exact absurd (hn _ (List.mem_append_right cs List.mem_cons_self)) (by decide)
    rw [propertyPair, bind_of_done h]
    exact bind_of_miss (eat_eq_miss.mpr hne)

section Sets

variable (hu : g.unicode = true) (hg : g.sets = true)
  (hp : g.edition.supports .propertyEscapes = true)

include hg

/-- What may stand between the braces of a property escape is read up to the closing brace. -/
theorem property_eq_done_iff {p : Property} :
    (∃ u, (propertyPair <|> loneProperty <|> fail .invalidPropertyName : Parser Property) g s =
        .done p u ∧ u.Reads ['}'] t) ↔
      ∃ ns, PropertyText g.edition ns p ∧ s.Reads (ns ++ [.ofChar '}']) t := by
  constructor
  · rintro ⟨u, h, hclose⟩
    rcases orElse_eq_done.mp h with h | ⟨-, h⟩
    · obtain ⟨ns, vs, hns, hn, hvs, hv, hp, hr, -⟩ := propertyPair_eq_done_iff.mp h
      exact ⟨_, .pair hns hn hvs hv hp, hr.trans hclose⟩
    · obtain ⟨ns, hns, hn, hp, hr, -⟩ := loneProperty_eq_done_iff.mp (orElse_fail_eq_done.mp h)
      rw [hg] at hp
      exact ⟨_, .lone hns hn hp, hr.trans hclose⟩
  · rintro ⟨ns, h, hr⟩
    obtain ⟨u, hu, hclose⟩ := State.reads_append.mp hr
    -- a brace belongs to no word
    have hend : ∀ k, u.cursor.current = some k → k.isPropertyValueCharacter = false := by
      rw [hclose.current_eq]
      rintro _ ⟨⟩
      decide
    refine ⟨u, ?_, hclose⟩
    cases h with
    | pair hns hn hvs hv hp =>
      exact orElse_of_done (propertyPair_eq_done_iff.mpr ⟨_, _, hns, hn, hvs, hv, hp, hu, hend⟩)
    | lone hns hn hp =>
      rw [← hg] at hp
      rw [orElse_of_miss (propertyPair_eq_miss hr hn)]
      exact orElse_of_done (loneProperty_eq_done_iff.mpr ⟨_, hns, hn, hp, hu, hend⟩)

include hu hp

/-- A property escape is read just where one is written. -/
theorem propertyEscape_eq_done_iff {mark : Cursor} {x : CharSet} :
    propertyEscape mark g s = .done x t ↔
      ∃ k ns p negated, s.Reads (k :: .ofChar '{' :: (ns ++ [.ofChar '}'])) t ∧
        propertyLetter? k = some negated ∧ PropertyText g.edition ns p ∧
        (negated && p.strings) = false ∧ x = .property (.between mark t.cursor) p negated := by
  rw [propertyEscape, grammar_bind, require_bind_eq_done, supports_bind, require_bind_eq_done,
    bind_eq_done]
  constructor
  · rintro ⟨-, -, negated, u₁, hneg, h⟩
    obtain ⟨k, hk, hr₁⟩ := select_eq_done.mp hneg
    obtain ⟨u₂, hopen, h⟩ := eat_or_fail_bind_eq_done.mp h
    obtain ⟨p, u₃, hproperty, h⟩ := bind_eq_done.mp h
    obtain ⟨u₄, hclose, h⟩ := eat_or_fail_bind_eq_done.mp h
    obtain ⟨ns, hns, hr⟩ := (property_eq_done_iff hg).mp ⟨u₃, hproperty, hclose⟩
    split at h
    · exact absurd h fail_ne_done
    · next hs =>
      rw [spanFrom_bind] at h
      obtain ⟨rfl, rfl⟩ := pure_eq_done.mp h
      exact ⟨k, ns, p, negated, hr₁.trans (hopen.trans hr), hk, hns, by simpa using hs, rfl⟩
  · rintro ⟨k, ns, p, negated, hr, hk, hns, hs, rfl⟩
    obtain ⟨u₁, hr₁, hr⟩ := State.reads_cons.mp hr
    obtain ⟨u₂, hopen, hr⟩ := State.reads_cons.mp hr
    obtain ⟨u₃, hproperty, hclose⟩ := (property_eq_done_iff hg).mpr ⟨ns, hns, hr⟩
    refine ⟨hu, hp, negated, u₁, select_eq_done.mpr ⟨k, hk, hr₁⟩, ?_⟩
    refine eat_or_fail_bind_eq_done.mpr ⟨u₂, hopen, bind_eq_done.mpr ⟨p, u₃, hproperty, ?_⟩⟩
    refine eat_or_fail_bind_eq_done.mpr ⟨t, hclose, ?_⟩
    rw [hs]
    rfl

/-- Set escapes are read exactly. -/
theorem escapedSet_recognizes : Recognizes escapedSet g (SetEscape g.edition) := by
  intro s x t
  rw [escapedSet, here_bind, eat_bind_eq_done]
  constructor
  · rintro ⟨u, hslash, h⟩
    rcases orElse_eq_done.mp h with h | ⟨-, h⟩
    · obtain ⟨⟨set, negated⟩, v, hset, h⟩ := bind_eq_done.mp h
      obtain ⟨k, hk, hr⟩ := select_eq_done.mp hset
      dsimp only at h
      rw [spanFrom_bind] at h
      obtain ⟨rfl, rfl⟩ := pure_eq_done.mp h
      exact ⟨.letter (hslash.trans hr).cursor hk, (hslash.trans hr).moves⟩
    · obtain ⟨k, ns, p, negated, hr, hk, hns, hs, rfl⟩ :=
        (propertyEscape_eq_done_iff hu hg hp).mp h
      exact ⟨.property (hslash.trans hr).cursor hk hns hs, (hslash.trans hr).moves⟩
  · rintro ⟨h, hmoves⟩
    generalize hd : t.cursor = d at h
    cases h with
    | letter hr hk =>
      subst hd
      obtain ⟨u, hslash, hr⟩ := State.reads_cons.mp (hmoves.reads hr)
      refine ⟨u, hslash, orElse_of_done ?_⟩
      exact bind_eq_done.mpr ⟨_, t, select_eq_done.mpr ⟨_, hk, hr⟩, rfl⟩
    | property hr hk hns hs =>
      subst hd
      obtain ⟨u, hslash, hr⟩ := State.reads_cons.mp (hmoves.reads hr)
      refine ⟨u, hslash, ?_⟩
      -- the letters of properties are not those of the other sets
      have hletter : u.cursor.current.bind escapeSet? = none := by
        rw [hr.current_eq, Option.bind_some]
        rcases eq_of_propertyLetter? (Option.ne_none_iff_exists'.mpr ⟨_, hk⟩) with rfl | rfl <;>
          decide
      rw [setEscape, orElse_of_miss (bind_of_miss (select_eq_miss.mpr hletter))]
      exact (propertyEscape_eq_done_iff hu hg hp).mpr ⟨_, _, _, _, hr, hk, hns, hs, rfl⟩

/-! ## Quoted strings

A string goes on as long as there are characters; a bar or a brace is none. So the strings are as
the grammar divides them. -/

omit hg hp

/-- A quoted string goes on as long as there are characters. -/
theorem classString_eq_done_iff {x : ClassString} :
    classString g s = .done x t ↔
      ∃ cs, Cursor.Run SetCharacter s.cursor cs t.cursor ∧ s.Moves t ∧
        classSetCharacter g t = .miss ∧ x = ⟨.between s.cursor t.cursor, cs⟩ := by
  have hmany : ∀ {cs : List Character} {u : State}, many classSetCharacter g s = .done cs u ↔
      Cursor.Run SetCharacter s.cursor cs u.cursor ∧ s.Moves u ∧ classSetCharacter g u = .miss :=
    (classSetCharacter_recognizes hu).many_eq_done fun _ _ _ => SetCharacter.remaining_lt
  rw [classString, here_bind, bind_eq_done]
  constructor
  · rintro ⟨cs, u, hcs, h⟩
    rw [spanFrom_bind] at h
    obtain ⟨rfl, rfl⟩ := pure_eq_done.mp h
    obtain ⟨hrun, hmoves, hmiss⟩ := hmany.mp hcs
    exact ⟨cs, hrun, hmoves, hmiss, rfl⟩
  · rintro ⟨cs, hrun, hmoves, hmiss, rfl⟩
    exact ⟨cs, t, hmany.mpr ⟨hrun, hmoves, hmiss⟩, rfl⟩

theorem quotedStrings_of_chain {cs : List Character} {xs : List ClassString}
    (hx : Cursor.Run SetCharacter s.cursor cs t.cursor)
    (h : Chain (fun s x t =>
      (do eat '|'; classString : Parser ClassString) g s = .done x t) t xs u) :
    QuotedStrings s.cursor (⟨.between s.cursor t.cursor, cs⟩ :: xs) u.cursor ∧ t.Moves u := by
  induction h generalizing s cs with
  | nil t => exact ⟨.last hx, rfl⟩
  | cons head _ ih =>
    obtain ⟨v, hbar, hy⟩ := eat_bind_eq_done.mp head
    obtain ⟨cs', hrun, hmoves, -, rfl⟩ := (classString_eq_done_iff hu).mp hy
    obtain ⟨hs, hmoves'⟩ := ih hrun
    exact ⟨.cons hx hbar.cursor hs, hbar.moves.trans (hmoves.trans hmoves')⟩

/-- Up to the closing brace, strings are read one by one: no character begins with a bar or a
brace. -/
theorem chain_of_quotedStrings {xs : List ClassString} (hmoves : s.Moves t)
    (hclose : t.cursor.current = some (.ofChar '}')) (h : QuotedStrings s.cursor xs t.cursor) :
    ∃ y ys u, xs = y :: ys ∧ classString g s = .done y u ∧
      Chain (fun s x t =>
        (do eat '|'; classString : Parser ClassString) g s = .done x t) u ys t := by
  generalize hc : s.cursor = c at h
  generalize hd : t.cursor = d at h
  induction h generalizing s with
  | last h =>
    subst hc hd
    refine ⟨_, [], t, rfl, (classString_eq_done_iff hu).mpr ⟨_, h, hmoves, ?_, rfl⟩, .nil t⟩
    exact classSetCharacter_eq_miss hclose (by decide) (by decide)
  | @cons b c d _ cs xs h hbar _ ih =>
    subst hc
    obtain ⟨y, ys, u, rfl, hy, hys⟩ := @ih { s with cursor := b } hmoves rfl hd
    have hmiss : classSetCharacter g { s with cursor := d } = .miss :=
      classSetCharacter_eq_miss hbar.current_eq (by decide) (by decide)
    refine ⟨_, _, { s with cursor := d }, rfl,
      (classString_eq_done_iff hu).mpr ⟨cs, h, rfl, hmiss, rfl⟩, .cons ?_ hys⟩
    exact eat_bind_eq_done.mpr ⟨{ s with cursor := b }, ⟨b, hbar, rfl⟩, hy⟩

/-- Quoted strings are read exactly. -/
theorem classStrings_recognizes : Recognizes classStrings g Quotation := by
  intro s x t
  constructor
  · intro h
    obtain ⟨y, ys, u, v, w, hopen, hy, hys, hclose, rfl⟩ := classStrings_eq_done h
    obtain ⟨cs, hrun, hmoves, -, rfl⟩ := (classString_eq_done_iff hu).mp hy
    obtain ⟨hstrings, hmoves'⟩ := quotedStrings_of_chain hu hrun hys
    exact ⟨.mk hopen.cursor hstrings hclose.cursor,
      hopen.moves.trans (hmoves.trans (hmoves'.trans hclose.moves))⟩
  · rintro ⟨h, hmoves⟩
    generalize hd : t.cursor = d at h
    cases h with
    | @mk a b _ _ xs hopen h hclose =>
      subst hd
      have hend := hclose.current_eq
      obtain ⟨y, ys, u, rfl, hy, hys⟩ := chain_of_quotedStrings hu (g := g)
        (s := { s with cursor := a }) (t := { s with cursor := b }) rfl hend h
      have hbar : (do eat '|'; classString : Parser ClassString) g { s with cursor := b } =
          .miss := by
        refine bind_of_miss (eat_eq_miss.mpr ?_)
        rw [hend]
        decide
      rw [classStrings, here_bind, eatAll_bind_eq_done]
      refine ⟨{ s with cursor := a }, ⟨a, hopen, rfl⟩, bind_eq_done.mpr ⟨y, u, hy, ?_⟩⟩
      refine bind_eq_done.mpr ⟨ys, _, (many_eq_done progresses_barred).mpr ⟨hys, hbar⟩, ?_⟩
      exact eat_or_fail_bind_eq_done.mpr ⟨t, ⟨_, hclose, hmoves⟩, rfl⟩

/-! ## Operands

The four alternatives begin differently: with a bracket, with a backslash and a letter for a set or
for strings, or with a character. -/

omit hu in
/-- A character begins neither as a class does nor as a set escape or quoted strings do. -/
theorem misses_at_character {ch : Character} {d : Cursor} (h : SetCharacter s.cursor ch d) :
    s.cursor.current ≠ some (.ofChar '[') ∧ escapedSet g s = .miss ∧ classStrings g s = .miss := by
  rw [escapedSet, here_bind, classStrings, here_bind]
  rcases h.begins with h | ⟨b, k, hr, hc, hk⟩
  · have hne := h.current_ne (k := .ofChar '\\') (by decide)
    refine ⟨h.current_ne (by decide), bind_of_miss (eat_eq_miss.mpr hne), bind_of_miss ?_⟩
    rw [eatAll_eq_miss, List.map_cons, Cursor.eat?, if_neg hne]
  · have hk : isSetLetter k = false := by simpa using hk
    have hset : escapeSet? k = none := by
      cases h : escapeSet? k with
      | none => rfl
      | some x => exact absurd (isSetLetter_of_escapeSet? h) (by simp [hk])
    have hproperty : propertyLetter? k = none := by
      cases h : propertyLetter? k with
      | none => rfl
      | some x => exact absurd (isSetLetter_of_propertyLetter? h) (by simp [hk])
    have hslash : s.Reads ['\\'] { s with cursor := b } := ⟨b, hr, rfl⟩
    obtain ⟨hcur, rfl⟩ := Cursor.reads_singleton.mp hr
    refine ⟨by rw [hcur]; decide, ?_, bind_of_miss ?_⟩
    · rw [bind_of_done (eat_eq_done (x := ()).mpr hslash)]
      exact setEscape_eq_miss hc hset hproperty
    · rw [eatAll_eq_miss, List.map_cons, Cursor.eat?, if_pos hcur, List.map_cons, Cursor.eat?,
        if_neg]
      rw [hc]
      rintro ⟨⟩
      exact absurd hk (by decide)

omit hu in
/-- Quoted strings are no escape for a set. -/
theorem escapedSet_eq_miss_of_quotation {x : CharSet} {d : Cursor} (h : Quotation s.cursor x d) :
    escapedSet g s = .miss := by
  cases h with
  | mk hopen _ _ =>
    obtain ⟨hc, hrest⟩ := Cursor.reads_cons.mp hopen
    have hslash : s.Reads ['\\'] { s with cursor := s.cursor.advance } :=
      State.reads_singleton.mpr ⟨hc, rfl⟩
    have hq : ({ s with cursor := s.cursor.advance } : State).cursor.current = some (.ofChar 'q') :=
      hrest.current_eq
    rw [escapedSet, here_bind, bind_of_done (eat_eq_done (x := ()).mpr hslash)]
    exact setEscape_eq_miss hq rfl rfl

variable {inner : Parser CharSet} {depth : Nat}
  (hinner : Recognizes inner g fun c x d =>
    SetGrammar.Derives g.edition c (.charClass x) d ∧ x.nesting ≤ depth)
  (hmiss : ∀ s : State, s.cursor.current ≠ some (.ofChar '[') → inner g s = .miss)

include hg hp hinner hmiss

/-- Operands are read exactly, as deep as the classes inside them are. -/
theorem classSetOperand_recognizes :
    Recognizes (classSetOperand inner) g fun c x d =>
      SetGrammar.Derives g.edition c (.operand x) d ∧ x.nesting ≤ depth := by
  intro s x t
  constructor
  · intro h
    rcases orElse_eq_done.mp h with h | ⟨-, h⟩
    · obtain ⟨⟨hx, hdepth⟩, hmoves⟩ := (hinner s x t).mp h
      exact ⟨⟨.nested hx, hdepth⟩, hmoves⟩
    rcases orElse_eq_done.mp h with h | ⟨-, h⟩
    · obtain ⟨hx, hmoves⟩ := (escapedSet_recognizes hu hg hp s x t).mp h
      refine ⟨⟨.setEscape hx, ?_⟩, hmoves⟩
      cases hx <;> simp [CharSet.nesting]
    rcases orElse_eq_done.mp h with h | ⟨-, h⟩
    · obtain ⟨hx, hmoves⟩ := (classStrings_recognizes hu s x t).mp h
      refine ⟨⟨.strings hx, ?_⟩, hmoves⟩
      cases hx
      simp [CharSet.nesting]
    · obtain ⟨c, hc, rfl⟩ := map_eq_done.mp h
      obtain ⟨hc, hmoves⟩ := (classSetCharacter_recognizes hu s c t).mp hc
      exact ⟨⟨.character hc, by simp [CharSet.nesting]⟩, hmoves⟩
  · rintro ⟨⟨h, hdepth⟩, hmoves⟩
    generalize hd : t.cursor = d at h
    cases h with
    | nested h =>
      subst hd
      exact orElse_of_done ((hinner s x t).mpr ⟨⟨h, hdepth⟩, hmoves⟩)
    | setEscape h =>
      subst hd
      -- the alternatives before this one miss by the first character, or the one behind the
      -- backslash
      obtain ⟨b, k, hr, -, -⟩ := h.begins
      rw [classSetOperand, orElse_of_miss (hmiss s (by rw [hr.current_eq]; decide))]
      exact orElse_of_done ((escapedSet_recognizes hu hg hp s x t).mpr ⟨h, hmoves⟩)
    | strings h =>
      subst hd
      obtain ⟨b, k, hr, -, -⟩ := h.begins
      rw [classSetOperand, orElse_of_miss (hmiss s (by rw [hr.current_eq]; decide)),
        orElse_of_miss (escapedSet_eq_miss_of_quotation h)]
      exact orElse_of_done ((classStrings_recognizes hu s x t).mpr ⟨h, hmoves⟩)
    | @character _ _ ch h =>
      subst hd
      obtain ⟨hbracket, hset, hstrings⟩ := misses_at_character (g := g) h
      rw [classSetOperand, orElse_of_miss (hmiss s hbracket), orElse_of_miss hset,
        orElse_of_miss hstrings]
      exact map_eq_done.mpr ⟨ch, (classSetCharacter_recognizes hu s ch t).mpr ⟨h, hmoves⟩, rfl⟩

end Sets

end EcmaPattern.Parser
