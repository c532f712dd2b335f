import EcmaPattern.Proofs.Extension.Terms
import EcmaPattern.Proofs.Forms.Atoms

/-!
# Every form is read

With the `u` flag, the spelling of a form is parsed as its tree, from the edition with lookbehinds
on and if the limit on nesting is not below the depth of the tree (`forms_read_as_their_trees`).

The induction is on the form. Each part of it is built, in the sense of `Builds`, wherever its
spelling is followed by something that can follow an element; the count of groups carries on from
part to part, and the number of all groups, which references are checked against, is the same
throughout. It is found by a scan ahead of the parse, so a group may stand behind its references.

Key lemmas:

* `Builds.reads_enclose`, for what stands between parentheses;
* `builds_sequence` and `builds_sequences`, for elements and for alternatives in a row;
* `builds_alternatives`, by induction on the form.
-/

namespace EcmaPattern

open EcmaPattern.Parser
open EcmaPattern.Form

namespace Parser

variable {g : Grammar} {s t u v : State} {cls : Parser CharSet} {inside : Nested}
  {qs : List Sequence}

/-! ## Assertions

Edges, boundaries and lookarounds begin with signs of their own, and a group does not begin like a
lookaround. -/

theorem edgeAssertion_of_sign {e : Edge} (hr : s.Reads [edgeSign e] t) :
    edgeAssertion g s = .done (.edge (.between s.cursor t.cursor) e) t := by
  have hedge : ((do eat '^'; return Edge.start) <|> (do eat '$'; return Edge.stop) : Parser Edge)
      g s = .done e t := by
    cases e with
    | start => exact orElse_of_done (bind_of_done (eat_eq_done (x := ()).mpr hr))
    | stop =>
      have hne : s.cursor.current ≠ some (.ofChar '^') := by
        rw [hr.current_eq]
        decide
      rw [orElse_of_miss (bind_of_miss (eat_eq_miss.mpr hne))]
      exact bind_of_done (eat_eq_done (x := ()).mpr hr)
  rw [edgeAssertion, here_bind, bind_of_done hedge]
  rfl

theorem edgeAssertion_eq_miss {k : CodePoint} (hc : s.cursor.current = some k)
    (hk : k.isOneOf ['^', '$'] = false) : edgeAssertion g s = .miss := by
  have hne : ∀ l, s.cursor.current = some l → l.isOneOf ['^', '$'] = false := by
    rw [hc]
    rintro _ ⟨⟩
    exact hk
  rw [edgeAssertion, here_bind]
  refine bind_of_miss (orElse_eq_miss.mpr ⟨?_, ?_⟩)
  · exact bind_of_miss (eat_eq_miss.mpr (State.current_ne hne rfl))
  · exact bind_of_miss (eat_eq_miss.mpr (State.current_ne hne rfl))

theorem wordBoundary_of_letter {negated : Bool} (hr : s.Reads ['\\', boundaryLetter negated] t) :
    wordBoundary g s = .done (.wordBoundary (.between s.cursor t.cursor) negated) t := by
  have hboundary : ((do eatAll ['\\', 'B']; return true) <|> (do eatAll ['\\', 'b']; return false) :
      Parser Bool) g s = .done negated t := by
    cases negated with
    | true => exact orElse_of_done (bind_of_done (eatAll_eq_done (x := ()).mpr hr))
    | false =>
      obtain ⟨u, hslash, hletter⟩ := State.reads_cons.mp hr
      have hother : eatAll ['\\', 'B'] g s = .miss := by
        refine eatAll_pair_eq_miss fun w hw => ?_
        obtain ⟨-, rfl⟩ := State.reads_singleton.mp hw
        obtain ⟨-, rfl⟩ := State.reads_singleton.mp hslash
        rw [hletter.current_eq]
        decide
      rw [orElse_of_miss (bind_of_miss hother)]
      exact bind_of_done (eatAll_eq_done (x := ()).mpr hr)
  rw [wordBoundary, here_bind, bind_of_done hboundary]
  rfl

/-- The opening of a lookaround is read as such where the edition has lookbehinds. -/
theorem lookOpening_of_text {direction : Direction} {negated : Bool}
    (hlook : g.edition.supports .lookbehind = true)
    (hr : s.Reads (lookText direction negated) t) :
    lookOpening g s = .done (direction, negated) t := by
  -- the sign is compared with `=` first, so `!` is read after a miss
  have hsign : ∀ {w : State}, w.Reads [if negated then '!' else '='] t →
      ((do eat '='; return false) <|> (do eat '!'; return true) : Parser Bool) g w =
        .done negated t := by
    intro w hw
    cases negated with
    | false => exact orElse_of_done (bind_of_done (eat_eq_done (x := ()).mpr hw))
    | true =>
      have hne : w.cursor.current ≠ some (.ofChar '=') := by
        rw [hw.current_eq]
        decide
      rw [orElse_of_miss (bind_of_miss (eat_eq_miss.mpr hne))]
      exact bind_of_done (eat_eq_done (x := ()).mpr hw)
  cases direction with
  | ahead =>
    obtain ⟨u, hopen, hr⟩ : ∃ u, s.Reads ['(', '?'] u ∧
        u.Reads [if negated then '!' else '='] t := by
      cases negated <;> exact State.reads_append.mp hr
    have hne : u.cursor.current ≠ some (.ofChar '<') := by
      rw [hr.current_eq]
      cases negated <;> decide
    rw [lookOpening, bind_of_done (eatAll_eq_done (x := ()).mpr hopen), supports_bind, hlook,
      if_pos rfl]
    exact bind_eq_done.mpr ⟨false, u, eats_of_ne hne, bind_of_done (hsign hr)⟩
  | behind =>
    obtain ⟨u, hopen, hr⟩ : ∃ u, s.Reads ['(', '?'] u ∧
        u.Reads ['<', if negated then '!' else '='] t := by
      cases negated <;> exact State.reads_append.mp hr
    obtain ⟨w, hangle, hr⟩ := State.reads_cons.mp hr
    rw [lookOpening, bind_of_done (eatAll_eq_done (x := ()).mpr hopen), supports_bind, hlook,
      if_pos rfl]
    exact bind_eq_done.mpr ⟨true, w, eats_eq_done.mpr (.inl ⟨rfl, hangle⟩), bind_of_done (hsign hr)⟩

/-- A lookaround, between its signs. -/
theorem lookaround_of_reads {direction : Direction} {negated : Bool}
    (hlook : g.edition.supports .lookbehind = true)
    (hopen : s.Reads (lookText direction negated) u) (h : inside s.cursor g u = .done qs v)
    (hclose : v.Reads [')'] t) :
    lookaround inside g s = .done (.look (.between s.cursor t.cursor) direction negated qs) t := by
  rw [lookaround, here_bind, bind_of_done (lookOpening_of_text hlook hopen)]
  exact bind_eq_done.mpr ⟨qs, v, h, bind_eq_done.mpr ⟨(), t, closeGroup_of_reads hclose, rfl⟩⟩

theorem group_eq_capturingGroup (hopen : s.Reads ['('] u)
    (hu : u.cursor.current ≠ some (.ofChar '?')) :
    group inside g s = capturingGroup inside s.cursor none g u := by
  rw [group, here_bind, bind_of_done (eat_eq_done (x := ()).mpr hopen),
    bind_of_done (eats_of_ne hu), if_neg Bool.false_ne_true]

/-- A capturing group without a name, between its signs. -/
theorem group_of_capture (hopen : s.Reads ['('] u)
    (hu : u.cursor.current ≠ some (.ofChar '?'))
    (h : inside s.cursor g (u.openCapture none) = .done qs v) (hclose : v.Reads [')'] t) :
    group inside g s = .done (.capture (.between s.cursor t.cursor) (u.opened + 1) none qs) t := by
  rw [group_eq_capturingGroup hopen hu, capturingGroup, openCapture_bind]
  exact bind_eq_done.mpr ⟨qs, v, h, bind_eq_done.mpr ⟨(), t, closeGroup_of_reads hclose, rfl⟩⟩

/-! ## What is built

To build a tree is to be done with the spelling and to give the tree, wherever what follows does not
go on with the spelling. The parser of what is nested is a parameter. -/

/-- If the numbers can be converted, the parser reads up to a place, opens so many groups on the
way, and gives a value that is the given one when its places are forgotten. If they cannot, it finds
that one is too long. -/
def Builds {α : Type} (bare : α → α) (p : Parser α) (g : Grammar) (s : State) (c : Cursor)
    (count : Nat) (numbers : List Nat) (a : α) : Prop :=
  (Convertible numbers ∧
      ∃ b t, p g s = .done b t ∧ t.cursor = c ∧ t.opened = s.opened + count ∧ bare b = a) ∨
    ¬Convertible numbers ∧ (p g s).Overflows

namespace Builds

variable {α β : Type} {bare : α → α} {bare' : β → β} {p : Parser α} {q : Parser β} {a : α} {b : β}
  {c d : Cursor} {k l : Nat} {ms ns : List Nat}

/-- Without numbers, there is nothing that could be too long. -/
theorem of_done (h : ∃ b t, p g s = .done b t ∧ t.cursor = c ∧ t.opened = s.opened + k ∧
    bare b = a) : Builds bare p g s c k [] a := .inl ⟨nofun, h⟩

/-- What is done without opening a group builds a tree. -/
theorem of_reads {b : α} {cs : List CodePoint} (h : p g s = .done b t) (hr : s.Reads cs t)
    (hb : bare b = a) : Builds bare p g s t.cursor 0 [] a :=
  .of_done ⟨b, t, h, rfl, hr.opened, hb⟩

/-- What is built in two steps. The first may find that a number is too long, and so may the second
where the first is done. -/
theorem followed (h : Builds bare p g s c k ms a)
    (hover : (p g s).Overflows → (q g u).Overflows)
    (hdone : ∀ x t, p g s = .done x t → t.cursor = c → t.opened = s.opened + k → bare x = a →
      Builds bare' q g u d l ns b) : Builds bare' q g u d l (ms ++ ns) b := by
  rcases h with ⟨hms, x, t, hx, hc, hopened, ha⟩ | ⟨hms, hlong⟩
  · refine (hdone x t hx hc hopened ha).imp ?_ ?_
    · exact fun ⟨hns, h⟩ => ⟨convertible_append.mpr ⟨hms, hns⟩, h⟩
    · exact fun ⟨hns, h⟩ => ⟨fun hboth => hns (convertible_append.mp hboth).2, h⟩
  · exact .inr ⟨fun hboth => hms (convertible_append.mp hboth).1, hover hlong⟩

/-- What is built of what another parser builds, with no more numbers. -/
theorem finished (h : Builds bare p g s c k ms a)
    (hover : (p g s).Overflows → (q g u).Overflows)
    (hdone : ∀ x t, p g s = .done x t → t.cursor = c → t.opened = s.opened + k → bare x = a →
      ∃ y v, q g u = .done y v ∧ v.cursor = d ∧ v.opened = u.opened + l ∧ bare' y = b) :
    Builds bare' q g u d l ms b := by
  rw [← List.append_nil ms]
  exact h.followed hover fun x t hx hc hopened ha => .of_done (hdone x t hx hc hopened ha)

end Builds

/-- A cursor that moves on can be that of a state. -/
theorem exists_reads {cs : List CodePoint} {c : Cursor} (h : s.cursor.Reads cs c) :
    ∃ t, s.Reads cs t ∧ t.cursor = c :=
  ⟨{ s with cursor := c }, ⟨c, h, rfl⟩, rfl⟩

/-- What is enclosed lies between the opening signs and a closing parenthesis. -/
theorem reads_enclose {opening cs : List CodePoint} {c : Cursor}
    (h : s.cursor.Reads (enclose opening cs) c) :
    ∃ u b, s.Reads opening u ∧ u.cursor.Reads cs b ∧ b.current = some (.ofChar ')') ∧
      b.Reads [.ofChar ')'] c := by
  obtain ⟨b, h, hclose⟩ := Cursor.reads_append.mp h
  obtain ⟨a, hopen, hinside⟩ := Cursor.reads_append.mp h
  obtain ⟨u, hu, rfl⟩ := exists_reads hopen
  exact ⟨u, b, hu, hinside, hclose.current_eq, hclose⟩

theorem assertion_eq_miss_of_escape {k : CodePoint} {cs : List CodePoint} {c : Cursor}
    (hr : s.cursor.Reads (.ofChar '\\' :: k :: cs) c) (hk : k.isOneOf ['b', 'B'] = false) :
    assertion inside g s = .miss := by
  obtain ⟨hslash, hr⟩ := Cursor.reads_cons.mp hr
  have hletter : ∀ l, s.cursor.advance.current = some l → l.isOneOf ['b', 'B'] = false := by
    rw [hr.current_eq]
    rintro _ ⟨⟩
    exact hk
  refine assertion_eq_miss ?_ fun t ht => ?_
  · rw [hslash]
    rintro _ ⟨⟩
    decide
  · obtain ⟨-, rfl⟩ := State.reads_singleton.mp ht
    exact ⟨State.current_ne hletter rfl, State.current_ne hletter rfl⟩

/-- No atom of a form is taken for an assertion. -/
theorem assertion_eq_miss_of_atom {n : Nat} (a : Atom n) {c : Cursor}
    (hr : s.cursor.Reads a.spell c) : assertion inside g s = .miss := by
  cases a with
  | character w => exact assertion_eq_miss_of_escape hr (by decide)
  | any =>
    have hc := hr.current_eq
    refine assertion_eq_miss ?_ fun t ht => ?_
    · rw [hc]
      rintro _ ⟨⟩
      decide
    · rw [ht.current_eq] at hc
      exact absurd hc (by decide)
  | escape set negated =>
    exact assertion_eq_miss_of_escape hr (by cases set <;> cases negated <;> decide)
  | reference i =>
    obtain ⟨d, ds, hds, -⟩ := digits_numeral (by decide : 1 < 10) (by decide) (i + 1)
    cases hcs : numeral 10 (i + 1) with
    | nil =>
      rw [hcs] at hds
      cases hds
    | cons k cs =>
      rw [Atom.spell, hcs] at hr
      have hk : (k.digit? 10).isSome = true :=
        isSome_digit?_of_mem_numeral (by decide) (by decide) (hcs ▸ List.mem_cons_self)
      exact assertion_eq_miss_of_escape hr
        (CodePoint.isOneOf_eq_false (fun k => (k.digit? 10).isSome) hk (by decide))
  -- every other atom begins with a sign of its own that no assertion begins with
  | charClass negated parts =>
    refine assertion_eq_miss_of_ne ?_
    cases negated <;> exact hr.current_eq
  -- a group and a lookaround begin alike, and the colon tells them apart
  | group alternatives =>
    obtain ⟨u, b, hopen, -⟩ := reads_enclose hr
    obtain ⟨v, hquestion, hcolon⟩ : ∃ v, s.Reads ['(', '?'] v ∧ v.Reads [':'] u :=
      State.reads_append.mp hopen
    rw [assertion_eq_lookaround hopen.current_eq]
    refine lookaround_eq_miss_of_question hquestion fun k hk => ?_
    rw [hcolon.current_eq] at hk
    cases hk
    decide
  -- behind the parenthesis of a capture no question mark stands
  | capture alternatives =>
    obtain ⟨u, b, hopen, hinside, hb, -⟩ := reads_enclose hr
    have hapart := apart_of_alternatives hinside (.of_current hb rfl)
    have hlook : eatAll ['(', '?'] g s = .miss := by
      refine eatAll_pair_eq_miss fun t ht => ?_
      obtain ⟨-, rfl⟩ := State.reads_singleton.mp ht
      obtain ⟨-, rfl⟩ := State.reads_singleton.mp hopen
      exact hapart.current_ne rfl
    have hopening : lookOpening g s = .miss := bind_of_miss hlook
    rw [assertion_eq_lookaround hopen.current_eq, lookaround, here_bind,
      bind_of_miss hopening]

section Grammar

/-- The grammar reads by code points, has lookbehinds, and counts at least so many groups. -/
structure Suits (g : Grammar) (n : Nat) : Prop where
  unicode : g.unicode = true
  sets : g.sets = false
  lookbehind : g.edition.supports .lookbehind = true
  captures : n ≤ g.captures

theorem Suits.exact {n : Nat} (hg : Suits g n) : g.exact = true := by
  rw [Grammar.exact, hg.unicode, Bool.or_true]

variable {n : Nat} (hg : Suits g n)

include hg

/-! ## Terms

An atom with a count behind it, or with none, is a term. -/

/-- A term that is not repeated is built if its atom is. -/
theorem builds_term {e : Term} {c : Cursor} {k : Nat} {ms : List Nat}
    (ha : assertion inside g s = .miss)
    (h : Builds Term.bare (atom cls inside) g s c k ms e) (hc : Apart c) :
    Builds Term.bare (term cls inside) g s c k ms e := by
  have hterm : term cls inside g s = (atom cls inside >>= quantified s.cursor) g s := by
    rw [term_of_atom ha, if_pos hg.exact]
  refine h.finished (fun hlong => ?_) ?_
  · rw [hterm]
    exact Overflows.bind hlong
  · rintro x t hx rfl hopened rfl
    refine ⟨x, t, ?_, rfl, hopened, rfl⟩
    rw [hterm, bind_of_done hx]
    exact quantified_eq_self hc.atQuantifier_eq_false

/-- A term that is repeated is built if its atom is, and then its bounds; either may hold a number
that is too long. -/
theorem builds_repeated {e : Term} {b c : Cursor} {k : Nat} {ms : List Nat}
    (ha : assertion inside g s = .miss) (h : Builds Term.bare (atom cls inside) g s b k ms e)
    (r : Count) (hr : b.Reads r.spell c) (hc : Apart c) :
    Builds Term.bare (term cls inside) g s c k (ms ++ r.min :: r.max.toList)
      (.quantified .blank ⟨r.min, r.max, r.greedy⟩ e) := by
  have hterm : term cls inside g s = (atom cls inside >>= quantified s.cursor) g s := by
    rw [term_of_atom ha, if_pos hg.exact]
  refine h.followed (fun hlong => ?_) ?_
  · rw [hterm]
    exact Overflows.bind hlong
  rintro x t hx rfl hopened rfl
  obtain ⟨u, hu, rfl⟩ := exists_reads hr
  obtain ⟨hdone, hlong⟩ := quantifier_of_count (g := g) r hu (hc.current_ne rfl)
  rw [Builds, hterm, bind_of_done hx]
  by_cases hnumbers : Convertible (r.min :: r.max.toList)
  · refine .inl ⟨hnumbers, .quantified (.between s.cursor u.cursor) ⟨r.min, r.max, r.greedy⟩ x, u,
      ?_, rfl, ?_, ?_⟩
    · rw [quantified, bind_of_done (attempt_of_done (hdone hnumbers))]
      rfl
    · rw [hu.opened, hopened]
    · rw [Term.bare]
  · exact .inr ⟨hnumbers, quantified_overflows (hlong hnumbers)⟩

theorem builds_assertion {e : Term} {c : Cursor} {k : Nat} {ms : List Nat}
    (h : Builds Term.bare (assertion inside) g s c k ms e) :
    Builds Term.bare (term cls inside) g s c k ms e := by
  refine h.finished (fun hlong => ?_) fun x t hx hc hopened he => ⟨x, t, ?_, hc, hopened, he⟩
  · rw [term, here_bind, grammar_bind]
    exact Overflows.bind (Overflows.attempt hlong)
  · rw [term_of_assertion hx, hg.exact]
    rfl

/-! ## Atoms

For each kind of atom, the alternatives before its own miss. -/

omit hg in
theorem atom_of_escaped {e : Term} (hc : s.cursor.current = some (.ofChar '\\'))
    (h : escapedAtom g s = .done e t) : atom cls inside g s = .done e t := by
  have hdot : s.cursor.current ≠ some (.ofChar '.') := by
    rw [hc]
    decide
  rw [atom, orElse_of_miss (anyCharacter_eq_miss hdot)]
  exact orElse_of_done h

/-- Where a bracket or a parenthesis opens, there is a class or a group. -/
theorem atom_eq_of_opening {k : CodePoint} (hc : s.cursor.current = some k)
    (hk : k.isOneOf ['[', '('] = true) :
    atom cls inside g s = (Term.set <$> cls <|> group inside) g s := by
  rw [← atom_eq_of_current (isOneOf_of_current hc hk), if_pos hg.exact]

/-- A class is built from its parts. -/
theorem builds_class {depth : Nat} {negated : Bool} (parts : List Part)
    (hr : s.Reads (classText negated ++ parts.flatMap Part.spell ++ [.ofChar ']']) t) :
    Builds Term.bare (atom (charClass (depth + 1) false) inside) g s t.cursor 0 []
      (.set (.listing .blank negated false (parts.map Part.tree))) := by
  obtain ⟨x, hx, hbare⟩ := charClass_of_parts hg.unicode hg.sets depth parts hr
  have hc : s.cursor.current = some (.ofChar '[') := by
    cases negated <;> exact hr.current_eq
  refine .of_reads (b := .set x) ?_ hr (by rw [Term.bare, hbare])
  rw [atom_eq_of_opening hg hc rfl]
  exact orElse_of_done (map_eq_done.mpr ⟨x, hx, rfl⟩)

section Enclosed

variable {a b c : Cursor} {k : Nat} {ms : List Nat}
  (hcls : ∀ s : State, s.cursor.current ≠ some (.ofChar '[') → cls g s = .miss)

include hcls

theorem atom_eq_group (hc : s.cursor.current = some (.ofChar '(')) :
    atom cls inside g s = group inside g s := by
  have hbracket : s.cursor.current ≠ some (.ofChar '[') := by
    rw [hc]
    decide
  rw [atom_eq_of_opening hg hc rfl, orElse_of_miss (map_eq_miss.mpr (hcls s hbracket))]

/-- A group is built if what is inside it is. -/
theorem builds_group (hopen : s.Reads ['(', '?', ':'] u)
    (h : Builds Term.bareAll (inside s.cursor) g u b k ms qs) (hclose : b.Reads [.ofChar ')'] c) :
    Builds Term.bare (atom cls inside) g s c k ms (.group .blank none qs) := by
  have hgroup : atom cls inside g s = group inside g s := atom_eq_group hg hcls hopen.current_eq
  refine h.finished (fun hlong => ?_) ?_
  · rw [hgroup]
    rw [group_eq_plainGroup hopen]
    exact Overflows.bind hlong
  rintro rs v hrs rfl hopened rfl
  obtain ⟨t, ht, rfl⟩ := exists_reads hclose
  refine ⟨_, t, hgroup.trans (group_of_plain hopen hrs ht), rfl, ?_, ?_⟩
  · rw [ht.opened, hopened, hopen.opened]
  · rw [Term.bare]
    rfl

/-- A capturing group is built if what is inside it is, with one group more before it. -/
theorem builds_capture (hopen : s.Reads ['('] u) (hu : u.cursor.current ≠ some (.ofChar '?'))
    (h : Builds Term.bareAll (inside s.cursor) g (u.openCapture none) b k ms qs)
    (hclose : b.Reads [.ofChar ')'] c) :
    Builds Term.bare (atom cls inside) g s c (k + 1) ms
      (.capture .blank (s.opened + 1) none qs) := by
  have hgroup : atom cls inside g s = group inside g s := atom_eq_group hg hcls hopen.current_eq
  refine h.finished (fun hlong => ?_) ?_
  · obtain ⟨e, he, hcause⟩ := hlong
    rw [hgroup, group_eq_capturingGroup hopen hu, capturingGroup, openCapture_bind]
    exact ⟨e, bind_of_fault he, hcause⟩
  rintro rs v hrs rfl hopened rfl
  obtain ⟨t, ht, rfl⟩ := exists_reads hclose
  refine ⟨_, t, hgroup.trans (group_of_capture hopen hu hrs ht), rfl, ?_, ?_⟩
  · have hcount : (u.openCapture none).opened = u.opened + 1 := rfl
    rw [ht.opened, hopened, hcount, hopen.opened]
    omega
  · rw [Term.bare, hopen.opened]

end Enclosed

/-- A lookaround is built if what is inside it is. -/
theorem builds_look {b c : Cursor} {k : Nat} {ms : List Nat} {direction : Direction}
    {negated : Bool} (hopen : s.Reads (lookText direction negated) u)
    (h : Builds Term.bareAll (inside s.cursor) g u b k ms qs) (hclose : b.Reads [.ofChar ')'] c) :
    Builds Term.bare (assertion inside) g s c k ms (.look .blank direction negated qs) := by
  have hc : s.cursor.current = some (.ofChar '(') := by
    cases direction <;> cases negated <;> exact hopen.current_eq
  have hlook : assertion inside g s = lookaround inside g s := assertion_eq_lookaround hc
  refine h.finished (fun hlong => ?_) ?_
  · rw [hlook, lookaround, here_bind, bind_of_done (lookOpening_of_text hg.lookbehind hopen)]
    exact Overflows.bind hlong
  rintro rs v hrs rfl hopened rfl
  obtain ⟨t, ht, rfl⟩ := exists_reads hclose
  refine ⟨_, t, hlook.trans (lookaround_of_reads hg.lookbehind hopen hrs ht), rfl, ?_, ?_⟩
  · rw [ht.opened, hopened, hopen.opened]
  · rw [Term.bare]

omit hg in
/-- A reference is built of the outcomes of its number. -/
theorem builds_reference {m : Nat} (hc : s.cursor.current = some (.ofChar '\\'))
    (hr : s.Reads (.ofChar '\\' :: numeral 10 m) t)
    (hdone : (numeral 10 m).length ≤ 4300 →
      escapedAtom g s = .done (.reference (.between s.cursor t.cursor) (.number m)) t)
    (hlong : 4300 < (numeral 10 m).length → (escapedAtom g s).Overflows) :
    Builds Term.bare (atom cls inside) g s t.cursor 0 [m] (.reference .blank (.number m)) := by
  rw [Builds, Convertible, List.forall_mem_singleton]
  rcases Nat.lt_or_ge 4300 (numeral 10 m).length with hmany | hfew
  · refine .inr ⟨Nat.not_le.mpr hmany, ?_⟩
    have hdot : s.cursor.current ≠ some (.ofChar '.') := by
      rw [hc]
      decide
    rw [atom, orElse_of_miss (anyCharacter_eq_miss hdot)]
    exact Overflows.orElse (hlong hmany)
  · refine .inl ⟨hfew, _, t, atom_of_escaped hc (hdone hfew), rfl, hr.opened, ?_⟩
    rw [Term.bare]

omit hg in
theorem builds_edge {e : Edge} (hr : s.Reads [edgeSign e] t) :
    Builds Term.bare (assertion inside) g s t.cursor 0 [] (.edge .blank e) :=
  .of_reads (orElse_of_done (edgeAssertion_of_sign hr)) hr (by rw [Term.bare])

omit hg in
theorem builds_boundary {negated : Bool} (hr : s.Reads ['\\', boundaryLetter negated] t) :
    Builds Term.bare (assertion inside) g s t.cursor 0 [] (.wordBoundary .blank negated) := by
  have hedge : edgeAssertion g s = .miss :=
    edgeAssertion_eq_miss hr.current_eq (by decide)
  refine .of_reads (b := .wordBoundary (.between s.cursor t.cursor) negated) ?_ hr
    (by rw [Term.bare])
  rw [assertion, orElse_of_miss hedge]
  exact orElse_of_done (wordBoundary_of_letter hr)

/-! ## Elements and alternatives

By induction on the list. What follows an element is the next one or the end of the alternative. -/

def sequences (cls : Parser CharSet) (inside : Nested) : Parser (List Sequence) := do
  let first ← sequence cls inside
  let rest ← many (followingSequence cls inside)
  return first :: rest

omit hg in
theorem alternatives_eq_sequences :
    alternatives cls inside g s =
      (sequences cls inside >>= endOfAlternatives) g (s.inScope GroupScope.enterDisjunction) := by
  rw [sequences, bind_assoc]
  simp only [bind_assoc, pure_bind]
  rfl

/-- No element begins at the place. -/
def Ends (c : Cursor) : Prop := ∀ k, c.current = some k → k.isOneOf ['|', ')'] = true

omit hg in
theorem Ends.of_none {c : Cursor} (hc : c.current = none) : Ends c := by
  intro k hk
  rw [hc] at hk
  cases hk

omit hg in
theorem Ends.of_current {c : Cursor} {k : CodePoint} (hc : c.current = some k)
    (hk : k.isOneOf ['|', ')'] = true) : Ends c := by
  intro l hl
  rw [hc] at hl
  cases hl
  exact hk

omit hg in
/-- The end of an alternative keeps apart what comes before it. -/
theorem Ends.apart {c : Cursor} (h : Ends c) : Apart c :=
  fun k hk => CodePoint.of_isOneOf _ (h k hk) rfl

theorem builds_noElement {depth : Nat} (h : Ends s.cursor) :
    Builds Term.bareTerms (many (term (charClass depth false) inside)) g s s.cursor 0 [] [] := by
  have hmiss : term (charClass depth false) inside g s = .miss := by
    refine term_eq_miss (fun _ _ => charClass_eq_miss)
      (fun k hk => CodePoint.of_isOneOf _ (h k hk) rfl) fun hexact => ?_
    rw [hg.exact] at hexact
    cases hexact
  exact .of_done ⟨[], s, many_none hmiss, rfl, rfl, by rw [Term.bareTerms]⟩

omit hg in
/-- Elements in a row are built one after the other: if a number in the first is too long, the rest
is not read. -/
theorem builds_elements {e : Term} {es : List Term} {b c : Cursor} {k l : Nat} {ms ns : List Nat}
    {depth : Nat}
    (h : Builds Term.bare (term (charClass depth false) (nestedAt depth)) g s b k ms e)
    (hs : ∀ u : State, u.cursor = b → u.opened = s.opened + k → Builds Term.bareTerms
      (many (term (charClass depth false) (nestedAt depth))) g u c l ns es) :
    Builds Term.bareTerms (many (term (charClass depth false) (nestedAt depth))) g s c (k + l)
      (ms ++ ns) (e :: es) := by
  have hprogress : Progresses (term (charClass depth false) (nestedAt depth)) g :=
    progresses_term g
  refine h.followed (fun hlong => (Overflows.runsOver hlong).many hprogress) ?_
  rintro x u hx hb hopened rfl
  rw [← List.append_nil ns]
  refine (hs u hb hopened).followed (fun hlong => ?_) ?_
  · exact ((runsOver_of_many hlong).after (.single hx)).many hprogress
  rintro xs t hxs hc hopened' rfl
  refine .of_done ⟨x :: xs, t, many_cons hprogress hx hxs, hc, ?_, by rw [Term.bareTerms]⟩
  rw [hopened', hopened, Nat.add_assoc]

omit hg in
theorem builds_sequence {es : List Term} {c : Cursor} {k : Nat} {ms : List Nat}
    (h : Builds Term.bareTerms (many (term cls inside)) g s c k ms es) :
    Builds Term.bareSequence (sequence cls inside) g s c k ms (.mk .blank es) := by
  refine h.finished (fun hlong => ?_) ?_
  · rw [sequence, here_bind]
    exact Overflows.bind hlong
  rintro xs t hxs hc hopened rfl
  refine ⟨.mk (.between s.cursor t.cursor) xs, t, ?_, hc, hopened, by rw [Term.bareSequence]⟩
  rw [sequence, here_bind, bind_of_done hxs]
  rfl

omit hg in
theorem builds_last {q : Sequence} {c : Cursor} {k : Nat} {ms : List Nat}
    (h : Builds Term.bareSequence (sequence cls inside) g s c k ms q)
    (hc : c.current ≠ some (.ofChar '|')) :
    Builds Term.bareAll (sequences cls inside) g s c k ms [q] := by
  refine h.finished Overflows.bind ?_
  rintro x t hx rfl hopened rfl
  have hrest : many (followingSequence cls inside) g t = .done [] t :=
    many_none (bind_of_miss (eat_eq_miss.mpr hc))
  refine ⟨[x], t, ?_, rfl, hopened, by rw [Term.bareAll, Term.bareAll]⟩
  rw [sequences, bind_of_done hx, bind_of_done hrest]
  rfl

omit hg in
/-- Behind a bar, what the next alternatives find is what the repetition finds. -/
theorem runsOver_of_sequences (hbar : s.Reads ['|'] t)
    (h : (sequences cls inside g (t.inScope GroupScope.followingAlternative)).Overflows) :
    RunsOver (followingSequence cls inside) g s := by
  have hfollowing : followingSequence cls inside g s =
      sequence cls inside g (t.inScope GroupScope.followingAlternative) := by
    rw [followingSequence, bind_of_done (eat_eq_done (x := ()).mpr hbar)]
    rfl
  rcases Overflows.of_bind h with hlong | ⟨y, v, hy, hrest⟩
  · rw [← hfollowing] at hlong
    exact Overflows.runsOver hlong
  · rcases Overflows.of_bind hrest with hlong | ⟨ys, w, -, e, he, -⟩
    · exact (runsOver_of_many hlong).after (.single (hfollowing.trans hy))
    · cases he

omit hg in
/-- Alternatives are built one after the other. -/
theorem builds_sequences {q : Sequence} {qs : List Sequence} {b c d : Cursor} {k l depth : Nat}
    {ms ns : List Nat}
    (h : Builds Term.bareSequence (sequence (charClass depth false) (nestedAt depth)) g s b k ms q)
    (hbar : b.Reads [.ofChar '|'] c)
    (hs : ∀ u : State, u.cursor = c → u.opened = s.opened + k →
      Builds Term.bareAll (sequences (charClass depth false) (nestedAt depth)) g u d l ns qs) :
    Builds Term.bareAll (sequences (charClass depth false) (nestedAt depth)) g s d (k + l)
      (ms ++ ns) (q :: qs) := by
  have hprogress : Progresses (followingSequence (charClass depth false) (nestedAt depth)) g :=
    progresses_followingSequence (progresses_term g)
  refine h.followed Overflows.bind ?_
  rintro x t hx rfl hopened rfl
  obtain ⟨u, hu, rfl⟩ := exists_reads hbar
  rw [← List.append_nil ns]
  -- the alternatives behind the bar are read in a scope that has been moved on
  refine (hs (u.inScope GroupScope.followingAlternative) rfl (hu.opened.trans hopened)).followed
    (fun hlong => ?_) ?_
  · rw [sequences, bind_of_done hx]
    exact Overflows.bind ((runsOver_of_sequences hu hlong).many hprogress)
  rintro xs w hxs hd hopened' rfl
  obtain ⟨y, v, hy, hxs⟩ := bind_eq_done.mp hxs
  obtain ⟨ys, v', hys, hxs⟩ := bind_eq_done.mp hxs
  obtain ⟨rfl, rfl⟩ := pure_eq_done.mp hxs
  -- the first of them is one step of the repetition, and the others are its further steps
  have hfollowing : followingSequence (charClass depth false) (nestedAt depth) g t = .done y v :=
    eat_bind_eq_done.mpr ⟨u, hu, bind_eq_done.mpr ⟨(), _, rfl, hy⟩⟩
  have hrest := many_cons hprogress hfollowing hys
  refine .of_done ⟨x :: y :: ys, v', ?_, hd, ?_, by rw [Term.bareAll]⟩
  · rw [sequences, bind_of_done hx, bind_of_done hrest]
    rfl
  · have hcount : (u.inScope GroupScope.followingAlternative).opened = u.opened := rfl
    rw [hopened', hcount, hu.opened, hopened, Nat.add_assoc]

omit hg in
/-- Alternatives up to a place where they end are a disjunction. -/
theorem builds_disjunction {depth k : Nat} {c : Cursor} {ms : List Nat}
    (hc : c.current = none ∨ c.current = some (.ofChar ')'))
    (h : Builds Term.bareAll (sequences (charClass depth false) (nestedAt depth)) g
      (s.inScope GroupScope.enterDisjunction) c k ms qs) :
    Builds Term.bareAll (disjunction depth) g s c k ms qs := by
  refine h.finished (fun hlong => ?_) ?_
  · rw [disjunction_eq_nestedAt, alternatives_eq_sequences]
    exact Overflows.bind hlong
  rintro rs t hrs rfl hopened rfl
  obtain ⟨first, u, hfirst, hrs⟩ := bind_eq_done.mp hrs
  obtain ⟨rest, v, hrest, hrs⟩ := bind_eq_done.mp hrs
  obtain ⟨rfl, rfl⟩ := pure_eq_done.mp hrs
  refine ⟨first :: rest, v.inScope GroupScope.leaveDisjunction, ?_, rfl, hopened, rfl⟩
  refine disjunction_eq_done.mpr ⟨first, rest, u, v, hfirst, hrest, ?_⟩
  rw [endOfAlternatives, bind_of_done (noStrayQuantifier_of_closes hc)]
  rfl

end Grammar

/-! ## Forms

Here the induction is on the form, and the levels that are left go down with it. -/

section Forms

variable {n : Nat}

mutual

/-- Every atom is built, at any depth that is enough for it. -/
theorem builds_atom (hg : Suits g n) : (a : Atom n) →
    ∀ {depth : Nat} {s : State} {c : Cursor}, a.depth ≤ depth → s.cursor.Reads a.spell c →
    c.current.bind (CodePoint.digit? 10) = none →
    Builds Term.bare (atom (charClass depth false) (nestedAt depth)) g s c a.captures a.numbers
      (a.tree s.opened)
  | .character w, depth, s, c, _, hr, _ => by
    obtain ⟨t, ht, rfl⟩ := exists_reads hr
    exact .of_reads (atom_of_escaped hr.current_eq
      (escapedAtom_of_character hg.unicode ht)) ht (by rw [Term.bare, CharSet.bare]; rfl)
  | .any, depth, s, c, _, hr, _ => by
    obtain ⟨t, ht, rfl⟩ := exists_reads hr
    have hany : anyCharacter g s = .done (.any (.between s.cursor t.cursor)) t := by
      rw [anyCharacter, here_bind, bind_of_done (eat_eq_done (x := ()).mpr ht)]
      rfl
    exact .of_reads (orElse_of_done hany) ht (by rw [Term.bare]; rfl)
  | .escape set negated, depth, s, c, _, hr, _ => by
    obtain ⟨t, ht, rfl⟩ := exists_reads hr
    exact .of_reads (atom_of_escaped hr.current_eq (escapedAtom_of_letter ht)) ht
      (by rw [Term.bare, CharSet.bare]; rfl)
  | .reference i, depth, s, c, _, hr, hend => by
    obtain ⟨t, ht, rfl⟩ := exists_reads hr
    have hle : i.val + 1 ≤ g.captures := Nat.le_trans i.isLt hg.captures
    obtain ⟨hdone, hlong⟩ := escapedAtom_of_reference (Nat.succ_ne_zero _) hle ht hend
    exact builds_reference hr.current_eq ht hdone hlong
  | .charClass negated parts, depth, s, c, hdepth, hr, _ => by
    obtain ⟨t, ht, rfl⟩ := exists_reads hr
    obtain ⟨depth, rfl⟩ := Nat.exists_eq_succ_of_ne_zero (Nat.pos_iff_ne_zero.mp hdepth)
    exact builds_class hg parts ht
  | .group x, depth, s, c, hdepth, hr, _ => by
    rw [Atom.depth] at hdepth
    obtain ⟨depth, rfl⟩ := Nat.exists_eq_add_of_le' (Nat.le_of_add_left_le hdepth)
    obtain ⟨u, b, hu, hx, hb, hclose⟩ := reads_enclose hr
    have hinside : Builds Term.bareAll (disjunction depth) g u b x.captures x.numbers
        (x.trees u.opened) :=
      builds_disjunction (.inr hb)
        (builds_alternatives hg x (Nat.le_of_succ_le_succ hdepth) hx (.inr hb))
    rw [hu.opened] at hinside
    exact builds_group hg (fun _ => charClass_eq_miss) hu hinside hclose
  | .capture x, depth, s, c, hdepth, hr, _ => by
    rw [Atom.depth] at hdepth
    obtain ⟨depth, rfl⟩ := Nat.exists_eq_add_of_le' (Nat.le_of_add_left_le hdepth)
    obtain ⟨u, b, hu, hx, hb, hclose⟩ := reads_enclose hr
    have hquestion : u.cursor.current ≠ some (.ofChar '?') :=
      (apart_of_alternatives hx (.of_current hb rfl)).current_ne rfl
    -- the group gets its number before what is inside it
    have hinside : Builds Term.bareAll (disjunction depth) g (u.openCapture none) b x.captures
        x.numbers (x.trees (u.opened + 1)) :=
      builds_disjunction (.inr hb)
        (builds_alternatives hg x (Nat.le_of_succ_le_succ hdepth) hx (.inr hb))
    rw [hu.opened] at hinside
    exact builds_capture hg (fun _ => charClass_eq_miss) hu hquestion hinside hclose

theorem builds_element (hg : Suits g n) : (e : Element n) →
    ∀ {depth : Nat} {s : State} {c : Cursor}, e.depth ≤ depth → s.cursor.Reads e.spell c →
    Apart c →
    Builds Term.bare (term (charClass depth false) (nestedAt depth)) g s c e.captures e.numbers
      (e.tree s.opened)
  | .atom a, depth, s, c, hdepth, hr, hc =>
    builds_term hg (assertion_eq_miss_of_atom a hr)
      (builds_atom hg a hdepth hr hc.digit?_eq_none) hc
  | .repeated a r, depth, s, c, hdepth, hr, hc => by
    obtain ⟨b, ha, hrepeat⟩ := Cursor.reads_append.mp hr
    obtain ⟨cs, hcs⟩ := r.spell_begins
    -- bounds begin with a brace, which is no digit of the atom before them
    have hb : b.current.bind (CodePoint.digit? 10) = none := by
      rw [hcs] at hrepeat
      rw [hrepeat.current_eq]
      decide
    exact builds_repeated hg (assertion_eq_miss_of_atom a ha) (builds_atom hg a hdepth ha hb) r
      hrepeat hc
  | .edge e, depth, s, c, _, hr, _ => by
    obtain ⟨t, ht, rfl⟩ := exists_reads hr
    exact builds_assertion hg (builds_edge ht)
  | .wordBoundary negated, depth, s, c, _, hr, _ => by
    obtain ⟨t, ht, rfl⟩ := exists_reads hr
    exact builds_assertion hg (builds_boundary ht)
  | .look direction negated x, depth, s, c, hdepth, hr, _ => by
    rw [Element.depth] at hdepth
    -- a lookaround takes a level, and its depth says that there is one
    obtain ⟨depth, rfl⟩ := Nat.exists_eq_add_of_le' (Nat.le_of_add_left_le hdepth)
    obtain ⟨u, b, hu, hx, hb, hclose⟩ := reads_enclose hr
    have hinside : Builds Term.bareAll (disjunction depth) g u b x.captures x.numbers
        (x.trees u.opened) :=
      builds_disjunction (.inr hb)
        (builds_alternatives hg x (Nat.le_of_succ_le_succ hdepth) hx (.inr hb))
    rw [hu.opened] at hinside
    exact builds_assertion hg (builds_look hg hu hinside hclose)

theorem builds_terms (hg : Suits g n) : (es : List (Element n)) →
    ∀ {depth : Nat} {s : State} {c : Cursor}, depthOf es ≤ depth →
    s.cursor.Reads (spellElements es) c → Ends c →
    Builds Term.bareTerms (many (term (charClass depth false) (nestedAt depth))) g s c
      (capturesOf es) (numbersOf es) (treesOf s.opened es)
  | [], depth, s, c, _, hr, hc => by
    obtain rfl := Cursor.reads_nil.mp hr
    rw [treesOf]
    exact builds_noElement hg hc
  | e :: es, depth, s, c, hdepth, hr, hc => by
    obtain ⟨b, he, hes⟩ := Cursor.reads_append.mp hr
    rw [depthOf, Nat.max_le] at hdepth
    rw [treesOf, capturesOf]
    refine builds_elements (builds_element hg e hdepth.1 he (apart_of_elements hes hc.apart)) ?_
    rintro u rfl hopened
    rw [← hopened]
    exact builds_terms hg es hdepth.2 hes hc

/-- All alternatives are built, at any depth that is enough for them. The recursion is that of the
forms, with one case for each constructor. -/
theorem builds_alternatives (hg : Suits g n) : (x : Alternatives n) →
    ∀ {depth : Nat} {s : State} {c : Cursor}, x.depth ≤ depth → s.cursor.Reads x.spell c →
    c.current = none ∨ c.current = some (.ofChar ')') →
    Builds Term.bareAll (sequences (charClass depth false) (nestedAt depth)) g s c x.captures
      x.numbers (x.trees s.opened)
  | .last es, depth, s, c, hdepth, hr, hc => by
    have hends : Ends c := hc.elim .of_none (.of_current · rfl)
    have hbar : c.current ≠ some (.ofChar '|') := by
      rcases hc with hc | hc <;> rw [hc] <;> decide
    rw [Alternatives.trees]
    exact builds_last (builds_sequence (builds_terms hg es hdepth hr hends)) hbar
  | .cons es rest, depth, s, c, hdepth, hr, hc => by
    obtain ⟨b, hes, hr⟩ := Cursor.reads_append.mp hr
    obtain ⟨hbar, hrest⟩ := Cursor.reads_cons.mp hr
    rw [Alternatives.depth, Nat.max_le] at hdepth
    rw [Alternatives.trees, Alternatives.captures]
    refine builds_sequences
      (builds_sequence (builds_terms hg es hdepth.1 hes (.of_current hbar rfl)))
      (Cursor.reads_singleton.mpr ⟨hbar, rfl⟩) fun u hu hopened => ?_
    rw [← hu] at hrest
    rw [← hopened]
    exact builds_alternatives hg rest hdepth.2 hrest hc

end

end Forms

end Parser

/-! ## Patterns

The scan for groups finds the number of groups of the form, there are no names, so one pass is all
there is. The last theorem shows why the numbers of a form have to be short: a bound with too many
digits is refused. -/

def unicodeFlags : FlagSet := { unicode := true }

theorem resolve_unicodeFlags {e : Edition} (h : .es2018 ≤ e) :
    FlagChoice.resolve e (.text ['u']) = .ok unicodeFlags := by
  revert h
  cases e <;> first | (intro h; rfl) | (intro h; exact absurd h (by decide))

theorem supports_of_es2018 {e : Edition} (h : .es2018 ≤ e) :
    e.supports .lookbehind = true ∧ e.supports .namedGroups = true := by
  revert h
  cases e <;> decide

/-- Where no name is referred to, references mean one group each, the one with their number. -/
theorem Pattern.fields_of_reference {p : Pattern} (h : p.referredNames = []) {n : Node}
    (hn : n ∈ (Node.pattern p).descendants) (hkind : n.kind = .reference) :
    ∃ k, n.fields = [("ref", .value (.number k)), ("resolved", .value (.numbers [k]))] := by
  rw [← Pattern.referredNames_node, Node.referredNames, List.filterMap_eq_nil_iff] at h
  obtain ⟨span, target, rfl⟩ := Node.eq_reference hkind
  cases target with
  | number k => exact ⟨k, rfl⟩
  | name name indexes => cases h _ hn

namespace Form

/-- A pass over the spelling of a form gives its tree, or finds that one of its numbers is too
long. -/
theorem pass_spell (rule : DuplicateRule) {o : Options} (f : Form) (ho : .es2018 ≤ o.edition)
    (hdepth : f.depth ≤ o.maxDepth) :
    (Convertible f.numbers → ∃ p scope,
      Pattern.pass rule o unicodeFlags true ⟨0, .ofCodePoints f.spell, true⟩ = .ok (p, scope) ∧
        p.bare = f.tree) ∧
    (¬Convertible f.numbers → ∃ e n,
      Pattern.pass rule o unicodeFlags true ⟨0, .ofCodePoints f.spell, true⟩ = .error e ∧
        4300 < n ∧ e.cause = .tooManyDigits n) := by
  let c : Cursor := ⟨0, .ofCodePoints f.spell, true⟩
  let g : Grammar := Pattern.grammarFor o unicodeFlags true c
  have hr := Cursor.reads_of_plain f.alternatives.isPlain_spell 0 [] true
  rw [List.append_nil] at hr
  -- the scan has counted the groups of the form
  have hcaptures : g.captures = f.groups := by
    have hscan := f.alternatives.scan hr
    rwa [f.captures_eq] at hscan
  have hg : Suits g f.groups := ⟨rfl, rfl, (supports_of_es2018 ho).1, Nat.le_of_eq hcaptures.symm⟩
  have hbuilds : Builds Term.bareAll (disjunction o.maxDepth) g ⟨c, .empty rule, 0⟩ _
      f.alternatives.captures f.numbers (f.alternatives.trees 0) :=
    builds_disjunction (.inl rfl) (builds_alternatives hg f.alternatives hdepth hr (.inl rfl))
  rcases hbuilds with ⟨hnumbers, qs, t, hqs, hcursor, -, hbare⟩ | ⟨hnumbers, e, he, n, hn, hcause⟩
  · refine ⟨fun _ => ?_, fun h => absurd hnumbers h⟩
    have hnames : Term.referredNamesOfAll qs = [] := by
      rw [← Term.referredNamesOfAll_bare, hbare, f.alternatives.referredNames_trees]
    have hend : t.cursor.current = none := by
      rw [hcursor]
      rfl
    refine ⟨_, _, Pattern.pass_eq_ok.mpr ⟨qs, t, hqs, hend, rfl, ?_, rfl⟩, ?_⟩
    · rw [hnames]
      rfl
    · rw [Pattern.bare, Pattern.resolve, Term.resolveAll_eq_self _ qs hnames, hbare]
      rfl
  · exact ⟨fun h => absurd h hnumbers, fun _ =>
      ⟨e, n, Pattern.pass_of_disjunction_fault he, hn, hcause⟩⟩

end Form

/-- Every form is accepted whose numbers can be converted. With the `u` flag, from the edition with
lookbehinds on, strict or not, the spelling of a form whose tree does not nest more deeply than the
limit allows is parsed, and what it is parsed as, without the places, is the tree of the form: its
capturing groups have their numbers in the order in which they open, and a reference means the group
with its number. But if a bound or the number of a reference takes more than 4300 digits, there is
no tree and no diagnostic either, only the failure to convert a number. -/
theorem forms_read_as_their_trees (o : Options) (f : Form) (ho : .es2018 ≤ o.edition)
    (hdepth : (Node.pattern f.tree).depth ≤ o.maxDepth) :
    ((∀ m ∈ f.numbers, (Form.numeral 10 m).length ≤ 4300) →
      ∃ p, parsePattern o (.text ['u']) (.whole (.ofCodePoints f.spell)) = .ok p ∧
        p.bare = f.tree ∧
        ∀ n ∈ (Node.pattern p).descendants, n.kind = .reference →
          ∃ k, n.fields = [("ref", .value (.number k)), ("resolved", .value (.numbers [k]))]) ∧
    ∀ m ∈ f.numbers, 4300 < (Form.numeral 10 m).length →
      ∃ n, 4300 < n ∧
        parsePattern o (.text ['u']) (.whole (.ofCodePoints f.spell)) =
          .error (.tooManyDigits n) := by
  rw [f.depth_tree] at hdepth
  obtain ⟨hdone, hlong⟩ := f.pass_spell (Pattern.duplicateRule o.edition) ho hdepth
  -- by code points references are always read by name, so there is no second pass
  have halways : Pattern.alwaysNamedReferences o unicodeFlags = true := by
    rw [Pattern.alwaysNamedReferences, (supports_of_es2018 ho).2]
    rfl
  constructor
  · intro hnumbers
    obtain ⟨p, scope, hpass, hbare⟩ := hdone hnumbers
    -- a form has no names, so nothing is left to resolve
    have hnames : p.referredNames = [] := by
      rw [Pattern.referredNames, ← Term.referredNamesOfAll_bare]
      have halternatives : Term.bareAll p.alternatives = f.alternatives.trees 0 :=
        congrArg Pattern.alternatives hbare
      rw [halternatives, f.alternatives.referredNames_trees]
    refine ⟨p, ?_, hbare, fun n hn hkind => Pattern.fields_of_reference hnames hn hkind⟩
    refine parsePattern_eq_ok.mpr ⟨unicodeFlags, resolve_unicodeFlags ho, ?_⟩
    refine Pattern.read_eq_ok.mpr ⟨rfl, Pattern.readUnder_eq_ok.mpr ⟨p, scope, ?_, ?_⟩⟩
    · rw [halways, Slice.cursor_whole]
      exact hpass
    · rw [halways]
      rfl
  · intro m hm hmany
    obtain ⟨e, n, hpass, hn, hcause⟩ := hlong fun h => absurd hmany (Nat.not_lt.mpr (h m hm))
    refine ⟨n, hn, parsePattern_of_pass_error (resolve_unicodeFlags ho) rfl ?_ hcause⟩
    rw [halways, Slice.cursor_whole]
    exact hpass

theorem forms_read_as_their_trees_with_forward_references :
    ∃ p, parsePattern (.ofEdition .es2018 true) (.text ['u'])
        (.whole (.ofString "\\2(?<=[^\\W\\u\x7b61\x7d-\\u\x7b7a\x7d])|(?:(\\1)|(.))\x7b2,\x7d?$")) =
          .ok p ∧
      p.bare = ⟨.blank,
        [.mk .blank [.reference .blank (.number 2),
          .look .blank .behind false [.mk .blank [.set (.listing .blank true false
            [.escape .blank .word true, .range .blank ⟨.blank, 'a'⟩ ⟨.blank, 'z'⟩])]]],
        .mk .blank [.quantified .blank ⟨2, none, false⟩ (.group .blank none
            [.mk .blank [.capture .blank 1 none [.mk .blank [.reference .blank (.number 1)]]],
              .mk .blank [.capture .blank 2 none [.mk .blank [.any .blank]]]]),
          .edge .blank .stop]]⟩ := by
  -- the form that the text spells, with a reference before its group and one inside it
  let f : Form := {
    groups := 2
    alternatives :=
      .cons [.atom (.reference 1), .look .behind false (.last [.atom
        (.charClass true [.escape .word true, .range 'a' 'z' (by decide)])])]
      (.last [.repeated (.group
        (.cons [.atom (.capture (.last [.atom (.reference 0)]))]
          (.last [.atom (.capture (.last [.atom .any]))]))) ⟨2, none, false, rfl⟩, .edge .stop])
    captures_eq := rfl }
  have hspell : Text.ofCodePoints f.spell = .ofString
      "\\2(?<=[^\\W\\u\x7b61\x7d-\\u\x7b7a\x7d])|(?:(\\1)|(.))\x7b2,\x7d?$" := by
    decide +kernel
  have hdepth : (Node.pattern f.tree).depth ≤ (Options.ofEdition .es2018 true).maxDepth := by
    rw [f.depth_tree]
    decide
  have hnumbers : ∀ m ∈ f.numbers, (Form.numeral 10 m).length ≤ 4300 := by decide
  obtain ⟨p, hp, hbare, -⟩ :=
    (forms_read_as_their_trees (.ofEdition .es2018 true) f (by decide) hdepth).1 hnumbers
  rw [hspell] at hp
  exact ⟨p, hp, hbare⟩

/-- A dot repeated at least as often as a one with 4300 zeros says. -/
theorem form_refused_at_long_bound :
    ∃ f : Form,
      f.spell = .ofChar '.' :: .ofChar '{' :: .ofChar '1' ::
        (List.replicate 4300 (.ofChar '0') ++ [.ofChar ',', .ofChar '}']) ∧
      (Node.pattern f.tree).depth ≤ (Options.ofEdition .es2018 false).maxDepth ∧
      ∃ n, parsePattern (.ofEdition .es2018 false) (.text ['u'])
        (.whole (.ofCodePoints f.spell)) = .error (.tooManyDigits n) := by
  obtain ⟨k, hk⟩ : ∃ k, k = 4300 := ⟨_, rfl⟩
  let f : Form := ⟨0, .last [.repeated .any ⟨10 ^ k, none, true, rfl⟩], rfl⟩
  have hlong : ¬Convertible f.numbers := by
    intro h
    have hfew := h (10 ^ k) List.mem_cons_self
    rw [numeral_tenPower, List.length_cons, List.length_replicate, hk] at hfew
    exact Nat.lt_irrefl 4300 hfew
  have hspell : f.spell = .ofChar '.' :: .ofChar '{' ::
      (numeral 10 (10 ^ k) ++ [.ofChar ',', .ofChar '}']) := List.append_nil _
  have hdepth : f.depth ≤ (Options.ofEdition .es2018 false).maxDepth := Nat.zero_le _
  obtain ⟨e, n, hpass, -, hcause⟩ := (f.pass_spell .forbidden (by decide) hdepth).2 hlong
  refine ⟨f, ?_, Nat.le_trans (Nat.le_of_eq f.depth_tree) hdepth, n, ?_⟩
  · rw [hspell, numeral_tenPower, hk]
    rfl
  · refine parsePattern_of_pass_error (resolve_unicodeFlags (by decide)) rfl ?_ hcause
    rw [Slice.cursor_whole]
    exact hpass

end EcmaPattern
