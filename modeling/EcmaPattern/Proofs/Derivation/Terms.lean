import EcmaPattern.Grammar.Term
import EcmaPattern.Proofs.Derivation.Classes

/-!
# Terms are derived

Every disjunction that is read has a derivation (`disjunction_derives`). The parsers of terms take
the parsers of classes and of what is inside groups as arguments; here these are assumed to read
what is derived, and the recursion over the nesting depth discharges the assumption at the end.

Key lemmas:

* `group_reads` takes a group apart into what was read, and is where the ways to open one are told
  apart;
* `term_derives` and `alternatives_derives`, over parsers for what nests;
* `disjunction_derives`, by induction on the levels that are left;
* `disjunction_eq_nestedAt`, by which a statement about all levels is made one about `alternatives`.
-/

namespace EcmaPattern

open EcmaPattern.Parser in
/-- How modifiers were read: the flags that are turned on and, behind a hyphen, those that are
turned off. -/
inductive GivesModifiers (g : Grammar) (s : State) : Modifiers → State → Prop
  | add {t : State} {f : ModifierFlags} (hadd : modifierFlags g s = .done f t)
      (hletters : noLetters f = false) :
      GivesModifiers g s ⟨.between s.cursor t.cursor, f, none⟩ t
  | remove {t u v : State} {f f' : ModifierFlags} (hadd : modifierFlags g s = .done f u)
      (hhyphen : u.Reads ['-'] v) (hremove : modifierFlags g v = .done f' t)
      (hclash : clash? f f' = none)
      (hletters :
        (noLetters f' && noLetters f && (t.cursor.peek 0 == some (.ofChar ':'))) = false) :
      GivesModifiers g s ⟨.between s.cursor t.cursor, f, some f'⟩ t

open EcmaPattern.Parser in
/-- How a group was read: as one that captures, with a name or without, or as one that does not,
with modifiers or without. -/
inductive ReadsGroup (g : Grammar) (inside : Nested) (s : State) : Term → State → Prop
  | capture {u v t : State} {qs : List Sequence} (hopen : s.Reads ['('] u)
      (hnext : u.cursor.current ≠ some (.ofChar '?'))
      (hqs : inside s.cursor g (u.openCapture none) = .done qs v) (hclose : v.Reads [')'] t) :
      ReadsGroup g inside s (.capture (.between s.cursor t.cursor) (s.opened + 1) none qs) t
  | named {u v w t : State} {name : GroupName} {qs : List Sequence}
      (hg : g.edition.supports .namedGroups = true) (hopen : s.Reads ['(', '?'] u)
      (hname : groupName g u = .done name v)
      (hqs : inside s.cursor g (v.openCapture (some name)) = .done qs w)
      (hclose : w.Reads [')'] t) :
      ReadsGroup g inside s (.capture (.between s.cursor t.cursor) (s.opened + 1) (some name) qs) t
  | plain {u v t : State} {qs : List Sequence} (hopen : s.Reads ['(', '?', ':'] u)
      (hqs : inside s.cursor g u = .done qs v) (hclose : v.Reads [')'] t) :
      ReadsGroup g inside s (.group (.between s.cursor t.cursor) none qs) t
  | modified {u v w x t : State} {m : Modifiers} {qs : List Sequence}
      (hg : g.edition.supports .modifiers = true) (hopen : s.Reads ['(', '?'] u)
      (hm : modifiers g u = .done m v) (hcolon : v.Reads [':'] w)
      (hqs : inside s.cursor g w = .done qs x) (hclose : x.Reads [')'] t) :
      ReadsGroup g inside s (.group (.between s.cursor t.cursor) (some m) qs) t

namespace Parser

variable {g : Grammar} {s t u : State}

/-! ## References and escapes

A numeral is a reference only up to the number of groups; above it, the parser goes on to other
escapes or to a fault. That it misses there is needed as well as what it reads. -/

/-- A reference by number is a numeral that is not above the number of groups. -/
theorem numberedReference_eq_done {mark : Cursor} {e : Term}
    (h : numberedReference mark g s = .done e t) :
    ∃ n cs, numeral? s.cursor.characters = some n ∧ n ≤ g.captures ∧ cs ≠ [] ∧
      (∀ c ∈ cs, c.isDecimalDigit) ∧ s.Reads cs t ∧
      e = .reference (.between mark t.cursor) (.number n) := by
  rw [numberedReference, sees_bind, require_bind_eq_done] at h
  obtain ⟨hzero, h⟩ := h
  obtain ⟨n, u, hn, h⟩ := bind_eq_done.mp h
  obtain ⟨cs, ds, hr, hcs, hne, rfl, hend, -⟩ := number_eq_done hn
  rw [grammar_bind] at h
  split at h
  · next hle =>
    rw [spanFrom_bind] at h
    obtain ⟨rfl, rfl⟩ := pure_eq_done.mp h
    have hne' : cs ≠ [] := by
      rintro rfl
      exact hne (List.length_eq_zero_iff.mp hcs.length_eq.symm)
    refine ⟨_, cs, ?_, hle, hne', fun c hc => hcs.isSome_of_mem hc, hr, rfl⟩
    rw [Cursor.current_eq_head?] at hend
    rw [numeral?, hr.cursor.characters, leadingDigits_append hcs hend]
    obtain ⟨d, ds, rfl⟩ := List.exists_cons_of_ne_nil hne
    cases d with
    | succ d => rfl
    | zero =>
      -- the first digit would be a zero, which was ruled out
      obtain ⟨c, cs, rfl⟩ := List.exists_cons_of_ne_nil hne'
      rw [Digits, List.map_cons, List.map_cons, List.cons.injEq] at hcs
      rw [Cursor.peek_zero, hr.current_eq] at hzero
      rw [CodePoint.digit?_eq_zero hcs.1] at hzero
      simp at hzero
  · split at h
    · exact absurd h fail_ne_done
    · cases h

/-- Where a number stands and no reference is read, there are fewer groups than the number says. -/
theorem numberedReference_eq_miss {mark : Cursor} (h : numberedReference mark g s = .miss) {n : Nat}
    (hn : numeral? s.cursor.characters = some n) : g.captures < n := by
  have hzero : (s.cursor.peek 0 == some (.ofChar '0')) = false := by
    rw [beq_eq_false_iff_ne, Cursor.peek_zero]
    intro hc
    rw [Cursor.characters_eq_cons hc, numeral?_zero] at hn
    cases hn
  rw [numberedReference, sees_bind, hzero, require_bind_eq_miss] at h
  rcases h with h | h
  · cases h
  rcases number_of_numeral? (g := g) hn with ⟨t, ht⟩ | ⟨count, index, hfault⟩
  · rw [bind_of_done ht, grammar_bind] at h
    by_cases hle : n ≤ g.captures
    · rw [if_pos hle] at h
      cases h
    · exact Nat.not_le.mp hle
  · rw [bind_of_fault hfault] at h
    cases h

/-- A reference by name is a `k` and a name between angle brackets, and it has no indexes yet. -/
theorem namedReference_eq_done {mark : Cursor} {e : Term}
    (h : namedReference mark g s = .done e t) :
    ∃ cs name, g.namedReferences = true ∧ NameSpelling g cs name ∧
      s.Reads (.ofChar 'k' :: .ofChar '<' :: (cs ++ [.ofChar '>'])) t ∧
      e = .reference (.between mark t.cursor) (.name name []) := by
  rw [namedReference, grammar_bind, require_bind_eq_done] at h
  obtain ⟨hg, h⟩ := h
  obtain ⟨u, hk, h⟩ := eat_bind_eq_done.mp h
  obtain ⟨name, v, hname, h⟩ := bind_eq_done.mp h
  rw [spanFrom_bind] at h
  obtain ⟨rfl, rfl⟩ := pure_eq_done.mp h
  obtain ⟨cs, hr, hcs, -⟩ := groupName_eq_done (orElse_fail_eq_done.mp hname)
  exact ⟨cs, name, hg, hcs, hk.trans hr, rfl⟩

theorem escapedNumeral?_slash (cs : List CodePoint) :
    escapedNumeral? (.ofChar '\\' :: cs) = numeral? cs := rfl

/-- What is read behind a backslash can be derived, as a reference, a set or a character. -/
theorem escapedAtom_derives {e : Term} (h : escapedAtom g s = .done e t) :
    Derives g s (.term e) t := by
  rw [escapedAtom, here_bind, eat_bind_eq_done] at h
  obtain ⟨u, hslash, h⟩ := h
  have hnumeral : escapedNumeral? s.cursor.characters = numeral? u.cursor.characters := by
    rw [hslash.cursor.characters]
    rfl
  rcases orElse_eq_done.mp h with h | ⟨hnumber, h⟩
  · obtain ⟨n, cs, hn, hle, hne, hcs, hr, rfl⟩ := numberedReference_eq_done h
    exact .numbered (hnumeral.trans hn) hle hne hcs (hslash.trans hr)
  rcases orElse_eq_done.mp h with h | ⟨-, h⟩
  · obtain ⟨x, hx, rfl⟩ := map_eq_done.mp h
    obtain ⟨cs, make, hr, hcs, rfl⟩ := setEscape_eq_done hx
    exact .termEscape (.mk hcs (hslash.trans hr))
  rcases orElse_eq_done.mp h with h | ⟨-, h⟩
  · obtain ⟨⟨span, v⟩, hc, rfl⟩ := map_eq_done.mp h
    obtain ⟨cs, hr, hcs, rfl⟩ := characterEscape_eq_done hc
    refine .termCharacter (.spelled (.escaped hcs) (hslash.trans hr)) ?_
    intro n hn
    exact numberedReference_eq_miss hnumber (hnumeral.symm.trans hn)
  rcases orElse_eq_done.mp h with h | ⟨-, h⟩
  · obtain ⟨cs, name, hg, hcs, hr, rfl⟩ := namedReference_eq_done h
    exact .named hg hcs (hslash.trans hr)
  · rw [grammar_bind, require_bind_eq_done] at h
    exact absurd h.2 fail_ne_done

/-! ## Single characters

The characters that stand for themselves, and the bounds that never do. -/

theorem anyCharacter_derives {e : Term} (h : anyCharacter g s = .done e t) :
    Derives g s (.term e) t := by
  rw [anyCharacter, here_bind, eat_bind_eq_done] at h
  obtain ⟨u, hdot, h⟩ := h
  rw [spanFrom_bind] at h
  obtain ⟨rfl, rfl⟩ := pure_eq_done.mp h
  exact .any hdot

/-- A character that stands for itself can be derived where the test lets no other pass. -/
theorem plainCharacter_derives {test : CodePoint → Bool} {e : Term}
    (htest : ∀ c, test c → Place.allows g .term c ∧ c ≠ .ofChar '\\')
    (h : plainCharacter test g s = .done e t) : Derives g s (.term e) t := by
  rw [plainCharacter, here_bind, bind_eq_done] at h
  obtain ⟨c, u, hc, h⟩ := h
  obtain ⟨hc, hr⟩ := satisfy_eq_done.mp hc
  obtain ⟨x, hx, rfl⟩ := map_eq_done.mp h
  obtain ⟨rfl, rfl⟩ := characterSetFrom_eq_done.mp hx
  obtain ⟨hallow, hne⟩ := htest c hc
  refine .termCharacter (.spelled (.plain hallow) hr) ?_
  intro n hn
  rw [hr.cursor.characters, List.singleton_append, escapedNumeral?, if_neg hne] at hn
  cases hn

/-- A backslash that stands for itself can be derived. -/
theorem lonelyBackslash_derives {e : Term} (h : lonelyBackslash g s = .done e t) :
    Derives g s (.term e) t := by
  rw [lonelyBackslash, here_bind, eat_bind_eq_done] at h
  obtain ⟨u, hslash, h⟩ := h
  rw [sees_bind, require_bind_eq_done] at h
  obtain ⟨hc, h⟩ := h
  obtain ⟨x, hx, rfl⟩ := map_eq_done.mp h
  obtain ⟨rfl, rfl⟩ := characterSetFrom_eq_done.mp hx
  rw [Cursor.peek_zero] at hc
  have hc := eq_of_beq hc
  refine .termCharacter (.backslash nofun hslash hc) ?_
  intro n hn
  rw [hslash.cursor.characters, List.singleton_append, escapedNumeral?_slash,
    Cursor.characters_eq_cons hc, numeral?_eq_none (by decide)] at hn
  cases hn

/-- Bounds are no term. -/
theorem strayBounds_ne_done {e : Term} : strayBounds g s ≠ .done e t := by
  intro h
  rw [strayBounds, bind_eq_done] at h
  obtain ⟨b, u, -, h⟩ := h
  exact absurd h fail_ne_done

/-! ## Modifiers

Runs of letters, put together with a hyphen and with the checks that are made on them. -/

theorem modifierFlags_eq_done {f : ModifierFlags} (h : modifierFlags g s = .done f t) :
    ReadsFlags s f t := by
  rw [modifierFlags, here_bind, bind_eq_done] at h
  obtain ⟨letters, u, hletters, h⟩ := h
  obtain ⟨hr, hall⟩ := reads_of_chain_satisfy (chain_of_many hletters)
  cases hrepeat : firstRepeat [] 0 letters with
  | some pair =>
    simp only [hrepeat] at h
    exact absurd h failAt_ne_done
  | none =>
    simp only [hrepeat] at h
    rw [spanFrom_bind] at h
    obtain ⟨rfl, rfl⟩ := pure_eq_done.mp h
    exact .mk hall hr rfl

/-- The flags after the hyphen are read like those before it. -/
theorem removedFlags_eq_modifierFlags {add f : ModifierFlags}
    (h : removedFlags add g s = .done f t) :
    modifierFlags g s = .done f t ∧ clash? add f = none ∧
      (noLetters f && noLetters add && (t.cursor.peek 0 == some (.ofChar ':'))) = false := by
  rw [removedFlags, bind_eq_done] at h
  obtain ⟨remove, u, hremove, h⟩ := h
  rw [sees_bind] at h
  split at h
  · exact absurd h fail_ne_done
  · next hempty =>
    cases hclash : clash? add remove with
    | some letter =>
      simp only [hclash] at h
      exact absurd h fail_ne_done
    | none =>
      simp only [hclash] at h
      obtain ⟨rfl, rfl⟩ := pure_eq_done.mp h
      exact ⟨hremove, hclash, by simpa using hempty⟩

/-- Modifiers are taken apart into the runs of letters they were read from. -/
theorem modifiers_given {m : Modifiers} (h : modifiers g s = .done m t) :
    GivesModifiers g s m t := by
  rw [modifiers, here_bind, bind_eq_done] at h
  obtain ⟨add, u₁, hadd, h⟩ := h
  obtain ⟨hyphen, u₂, hhyphen, h⟩ := bind_eq_done.mp h
  split at h
  · cases h
  next hempty =>
  rcases eats_eq_done.mp hhyphen with ⟨rfl, hr⟩ | ⟨rfl, -, rfl⟩
  · obtain ⟨o, u₃, ho, h⟩ := bind_eq_done.mp h
    obtain ⟨rfl, rfl⟩ := pure_eq_done.mp h
    obtain ⟨remove, hremove, rfl⟩ := map_eq_done.mp ho
    obtain ⟨hremove, hclash, hletters⟩ := removedFlags_eq_modifierFlags hremove
    exact .remove hadd hr hremove hclash hletters
  · obtain ⟨o, u₃, ho, h⟩ := bind_eq_done.mp h
    obtain ⟨rfl, rfl⟩ := pure_eq_done.mp h
    obtain ⟨rfl, rfl⟩ := pure_eq_done.mp ho
    exact .add hadd (by simpa using hempty)

theorem modifiers_eq_done {m : Modifiers} (h : modifiers g s = .done m t) :
    ReadsModifiers s m t := by
  cases modifiers_given h with
  | add hadd _ => exact .add (modifierFlags_eq_done hadd)
  | remove hadd hhyphen hremove _ _ =>
    exact .remove (modifierFlags_eq_done hadd) hhyphen (modifierFlags_eq_done hremove)

/-! ## Groups and assertions

For each construct a lemma that takes it apart into states, and one that puts a derivation together
from these. Other modules use the former with other relations. -/

theorem closeGroup_bind_eq_done {β : Type} {f : Unit → Parser β} {b : β} :
    (closeGroup >>= f) g s = .done b t ↔ ∃ u, s.Reads [')'] u ∧ f () g u = .done b t :=
  eat_or_fail_bind_eq_done

theorem edgeAssertion_derives {e : Term} (h : edgeAssertion g s = .done e t) :
    Derives g s (.term e) t := by
  rw [edgeAssertion, here_bind, bind_eq_done] at h
  obtain ⟨edge, u, hedge, h⟩ := h
  rw [spanFrom_bind] at h
  obtain ⟨rfl, rfl⟩ := pure_eq_done.mp h
  refine .edge ?_
  rcases orElse_eq_done.mp hedge with hedge | ⟨-, hedge⟩
  · obtain ⟨v, hr, hedge⟩ := eat_bind_eq_done.mp hedge
    obtain ⟨rfl, rfl⟩ := pure_eq_done.mp hedge
    exact hr
  · obtain ⟨v, hr, hedge⟩ := eat_bind_eq_done.mp hedge
    obtain ⟨rfl, rfl⟩ := pure_eq_done.mp hedge
    exact hr

theorem wordBoundary_derives {e : Term} (h : wordBoundary g s = .done e t) :
    Derives g s (.term e) t := by
  rw [wordBoundary, here_bind, bind_eq_done] at h
  obtain ⟨negated, u, hnegated, h⟩ := h
  rw [spanFrom_bind] at h
  obtain ⟨rfl, rfl⟩ := pure_eq_done.mp h
  refine .wordBoundary ?_
  rcases orElse_eq_done.mp hnegated with hneg | ⟨-, hneg⟩
  · obtain ⟨v, hr, hneg⟩ := eatAll_bind_eq_done.mp hneg
    obtain ⟨rfl, rfl⟩ := pure_eq_done.mp hneg
    exact hr
  · obtain ⟨v, hr, hneg⟩ := eatAll_bind_eq_done.mp hneg
    obtain ⟨rfl, rfl⟩ := pure_eq_done.mp hneg
    exact hr

/-- The opening of a lookaround is its text, and it looks behind only where the edition has that. -/
theorem lookOpening_eq_done {direction : Direction} {negated : Bool}
    (h : lookOpening g s = .done (direction, negated) t) :
    s.Reads (lookText direction negated) t ∧
      (direction = .behind → g.edition.supports .lookbehind) := by
  rw [lookOpening] at h
  obtain ⟨u₁, hopen, h⟩ := eatAll_bind_eq_done.mp h
  -- what is left to read once the direction is known
  have hsign : ∀ {behind : Bool} {v : State},
      (do
        let negated ← (do eat '='; return false) <|> (do eat '!'; return true)
        return (if behind then .behind else .ahead, negated) :
          Parser (Direction × Bool)) g v = .done (direction, negated) t →
      direction = (if behind then .behind else .ahead) ∧
        v.Reads [if negated then .ofChar '!' else .ofChar '='] t := by
    intro behind v h
    obtain ⟨n, w, hn, h⟩ := bind_eq_done.mp h
    obtain ⟨heq, rfl⟩ := pure_eq_done.mp h
    cases heq
    refine ⟨rfl, ?_⟩
    rcases orElse_eq_done.mp hn with hn | ⟨-, hn⟩
    · obtain ⟨x, hr, hn⟩ := eat_bind_eq_done.mp hn
      obtain ⟨rfl, rfl⟩ := pure_eq_done.mp hn
      exact hr
    · obtain ⟨x, hr, hn⟩ := eat_bind_eq_done.mp hn
      obtain ⟨rfl, rfl⟩ := pure_eq_done.mp hn
      exact hr
  rw [supports_bind] at h
  split at h
  · next hsupports =>
    obtain ⟨behind, u₂, hbehind, h⟩ := bind_eq_done.mp h
    obtain ⟨rfl, hr⟩ := hsign h
    refine ⟨?_, fun _ => hsupports⟩
    rcases eats_eq_done.mp hbehind with ⟨rfl, hless⟩ | ⟨rfl, -, rfl⟩
    · have hread := hopen.trans (hless.trans hr)
      cases negated <;> exact hread
    · have hread := hopen.trans hr
      cases negated <;> exact hread
  · obtain ⟨behind, u₂, hbehind, h⟩ := bind_eq_done.mp h
    obtain ⟨rfl, rfl⟩ := pure_eq_done.mp hbehind
    obtain ⟨rfl, hr⟩ := hsign h
    refine ⟨?_, nofun⟩
    have hread := hopen.trans hr
    cases negated <;> exact hread

section Constructs

variable {inside : Nested} {e : Term}

theorem lookaround_eq_done (h : lookaround inside g s = .done e t) :
    ∃ direction negated u qs v, lookOpening g s = .done (direction, negated) u ∧
      inside s.cursor g u = .done qs v ∧ v.Reads [')'] t ∧
      e = .look (.between s.cursor t.cursor) direction negated qs := by
  rw [lookaround, here_bind, bind_eq_done] at h
  obtain ⟨⟨direction, negated⟩, u, hopen, h⟩ := h
  dsimp only at h
  obtain ⟨qs, v, hqs, h⟩ := bind_eq_done.mp h
  obtain ⟨w, hclose, h⟩ := closeGroup_bind_eq_done.mp h
  rw [spanFrom_bind] at h
  obtain ⟨rfl, rfl⟩ := pure_eq_done.mp h
  exact ⟨direction, negated, u, qs, v, hopen, hqs, hclose, rfl⟩

/-- The rest of a group is what is inside it and a parenthesis. -/
theorem plainGroup_eq_done {mark : Cursor} {m : Option Modifiers}
    (h : plainGroup inside mark m g s = .done e t) :
    ∃ qs u, inside mark g s = .done qs u ∧ u.Reads [')'] t ∧
      e = .group (.between mark t.cursor) m qs := by
  rw [plainGroup, bind_eq_done] at h
  obtain ⟨qs, u, hqs, h⟩ := h
  obtain ⟨v, hclose, h⟩ := closeGroup_bind_eq_done.mp h
  rw [spanFrom_bind] at h
  obtain ⟨rfl, rfl⟩ := pure_eq_done.mp h
  exact ⟨qs, u, hqs, hclose, rfl⟩

/-- The rest of a capturing group is read with the group already open. -/
theorem capturingGroup_eq_done {mark : Cursor} {name : Option GroupName}
    (h : capturingGroup inside mark name g s = .done e t) :
    ∃ qs u, inside mark g (s.openCapture name) = .done qs u ∧ u.Reads [')'] t ∧
      e = .capture (.between mark t.cursor) (s.opened + 1) name qs := by
  rw [capturingGroup, openCapture_bind, bind_eq_done] at h
  obtain ⟨qs, u, hqs, h⟩ := h
  obtain ⟨v, hclose, h⟩ := closeGroup_bind_eq_done.mp h
  rw [spanFrom_bind] at h
  obtain ⟨rfl, rfl⟩ := pure_eq_done.mp h
  exact ⟨qs, u, hqs, hclose, rfl⟩

theorem namedGroup_eq_done {mark : Cursor} (h : namedGroup inside mark g s = .done e t) :
    ∃ name u, groupName g s = .done name u ∧
      capturingGroup inside mark (some name) g u = .done e t := by
  rw [namedGroup, bind_eq_done] at h
  obtain ⟨name, u, hname, h⟩ := h
  obtain ⟨conflict, v, hconflict, h⟩ := bind_eq_done.mp h
  obtain ⟨-, rfl⟩ := Outcome.done.inj hconflict
  split at h
  · exact absurd h fail_ne_done
  · exact ⟨name, u, hname, h⟩

theorem modifiedGroup_eq_done {mark : Cursor} (h : modifiedGroup inside mark g s = .done e t) :
    ∃ m u v, g.edition.supports .modifiers = true ∧ modifiers g s = .done m u ∧
      u.Reads [':'] v ∧ plainGroup inside mark (some m) g v = .done e t := by
  rw [modifiedGroup, bind_eq_done] at h
  obtain ⟨o, v, ho, h⟩ := h
  rcases (attempt_eq_done.mp ho).symm with ⟨rfl, -, rfl⟩ | ⟨m, rfl, hm⟩
  · exact absurd h failAt_ne_done
  rw [supports_bind, require_bind_eq_done] at hm
  obtain ⟨hg, hm⟩ := hm
  obtain ⟨m', u, hmods, hm⟩ := bind_eq_done.mp hm
  obtain ⟨w, hr, hm⟩ := eat_bind_eq_done.mp hm
  obtain ⟨rfl, rfl⟩ := pure_eq_done.mp hm
  exact ⟨m', u, w, hg, hmods, hr, h⟩

/-- A group is taken apart into its opening, what is inside it, and its parenthesis. -/
theorem group_reads (h : group inside g s = .done e t) : ReadsGroup g inside s e t := by
  rw [group, here_bind, eat_bind_eq_done] at h
  obtain ⟨u₁, hopen, h⟩ := h
  obtain ⟨question, u₂, hquestion, h⟩ := bind_eq_done.mp h
  rcases (eats_eq_done.mp hquestion).symm with ⟨rfl, hnext, rfl⟩ | ⟨rfl, hq⟩
  · obtain ⟨qs, v, hqs, hclose, rfl⟩ := capturingGroup_eq_done h
    rw [hopen.opened]
    exact .capture hopen hnext hqs hclose
  obtain ⟨colon, u₃, hcolon, h⟩ := bind_eq_done.mp h
  rcases (eats_eq_done.mp hcolon).symm with ⟨rfl, -, rfl⟩ | ⟨rfl, hc⟩
  · rw [if_neg Bool.false_ne_true, supports_bind, sees_bind] at h
    split at h
    · next hcond =>
      obtain ⟨name, u₄, hname, h⟩ := namedGroup_eq_done h
      obtain ⟨qs, v, hqs, hclose, rfl⟩ := capturingGroup_eq_done h
      obtain ⟨cs, hr, -, -⟩ := groupName_eq_done hname
      rw [hr.opened, hq.opened, hopen.opened]
      exact .named ((Bool.and_eq_true _ _).mp hcond).1 (hopen.trans hq) hname hqs hclose
    · obtain ⟨m, u₄, u₅, hg, hm, hr, h⟩ := modifiedGroup_eq_done h
      obtain ⟨qs, v, hqs, hclose, rfl⟩ := plainGroup_eq_done h
      exact .modified hg (hopen.trans hq) hm hr hqs hclose
  · obtain ⟨qs, v, hqs, hclose, rfl⟩ := plainGroup_eq_done h
    exact .plain (hopen.trans (hq.trans hc)) hqs hclose

end Constructs

section Nesting

variable {inside : Nested}
  (hinside : ∀ mark s qs t, inside mark g s = .done qs t → Derives g s (.disjunction qs) t)

include hinside

/-- What is read as a lookaround can be derived, if what is inside can. -/
theorem lookaround_derives {e : Term} (h : lookaround inside g s = .done e t) :
    Derives g s (.term e) t := by
  obtain ⟨direction, negated, u, qs, v, hopen, hqs, hclose, rfl⟩ := lookaround_eq_done h
  obtain ⟨hread, hg⟩ := lookOpening_eq_done hopen
  exact .look hg hread (hinside _ _ _ _ hqs) hclose

theorem assertion_derives {e : Term} (h : assertion inside g s = .done e t) :
    Derives g s (.term e) t := by
  rcases orElse_eq_done.mp h with h | ⟨-, h⟩
  · exact edgeAssertion_derives h
  rcases orElse_eq_done.mp h with h | ⟨-, h⟩
  · exact wordBoundary_derives h
  · exact lookaround_derives hinside h

/-- What is read as a group can be derived, if what is inside can. -/
theorem group_derives {e : Term} (h : group inside g s = .done e t) : Derives g s (.term e) t := by
  cases group_reads h with
  | capture hopen hnext hqs hclose => exact .capture hopen hnext (hinside _ _ _ _ hqs) hclose
  | named hg hopen hname hqs hclose =>
    obtain ⟨cs, hr, hcs, hne⟩ := groupName_eq_done hname
    exact .namedCapture hg hcs hne (hopen.trans hr) (hinside _ _ _ _ hqs) hclose
  | plain hopen hqs hclose => exact .group hopen (hinside _ _ _ _ hqs) hclose
  | modified hg hopen hm hcolon hqs hclose =>
    exact .modifiedGroup hg hopen (modifiers_eq_done hm) hcolon (hinside _ _ _ _ hqs) hclose

/-! ## Terms

A term is an assertion or an atom, and a quantifier may follow. Which of the two it is decides
whether one may, so the cases are kept apart. -/

omit hinside in
/-- A quantifier follows and the term is repeated, or none does and the term stays what it is. -/
theorem quantified_eq_done {mark : Cursor} {e e' : Term}
    (h : quantified mark e g s = .done e' t) :
    (∃ r, quantifier false g s = .done r t ∧ e' = .quantified (.between mark t.cursor) r e) ∨
      quantifier false g s = .miss ∧ e' = e ∧ s = t := by
  rw [quantified, bind_eq_done] at h
  obtain ⟨o, u, ho, h⟩ := h
  rcases attempt_eq_done.mp ho with ⟨r, rfl, hr⟩ | ⟨rfl, hmiss, rfl⟩
  · obtain ⟨rfl, rfl⟩ := pure_eq_done.mp h
    exact .inl ⟨r, hr, rfl⟩
  · obtain ⟨rfl, rfl⟩ := pure_eq_done.mp h
    exact .inr ⟨hmiss, rfl, rfl⟩

omit hinside in
/-- A term that can be derived can be derived with its quantifier. -/
theorem quantified_derives {e e' : Term} (he : Derives g s (.term e) t)
    (h : quantified s.cursor e g t = .done e' u) : Derives g s (.term e') u := by
  rcases quantified_eq_done h with ⟨r, hr, rfl⟩ | ⟨-, rfl, rfl⟩
  · obtain ⟨cs, hread, hcs⟩ := quantifier_eq_done hr
    exact .quantified he hcs hread
  · exact he

variable {cls : Parser CharSet}
  (hcls : ∀ s x t, cls g s = .done x t → Derives g s (.charClass x) t)

include hcls

theorem atom_derives (hg : g.exact = true) {e : Term} (h : atom cls inside g s = .done e t) :
    Derives g s (.term e) t := by
  rcases orElse_eq_done.mp h with h | ⟨-, h⟩
  · exact anyCharacter_derives h
  rcases orElse_eq_done.mp h with h | ⟨-, h⟩
  · exact escapedAtom_derives h
  rcases orElse_eq_done.mp h with h | ⟨-, h⟩
  · obtain ⟨x, hx, rfl⟩ := map_eq_done.mp h
    exact .termClass (hcls _ _ _ hx)
  rcases orElse_eq_done.mp h with h | ⟨-, h⟩
  · exact group_derives hinside h
  · refine plainCharacter_derives ?_ h
    intro c hc
    rw [Place.allows, if_pos hg]
    refine ⟨hc, ?_⟩
    rintro rfl
    exact absurd hc (by decide)

theorem webAtom_derives (hg : g.exact = false) {e : Term}
    (h : webAtom cls inside g s = .done e t) : Derives g s (.term e) t := by
  rcases orElse_eq_done.mp h with h | ⟨-, h⟩
  · exact anyCharacter_derives h
  rcases orElse_eq_done.mp h with h | ⟨-, h⟩
  · exact escapedAtom_derives h
  rcases orElse_eq_done.mp h with h | ⟨-, h⟩
  · exact lonelyBackslash_derives h
  rcases orElse_eq_done.mp h with h | ⟨-, h⟩
  · obtain ⟨x, hx, rfl⟩ := map_eq_done.mp h
    exact .termClass (hcls _ _ _ hx)
  rcases orElse_eq_done.mp h with h | ⟨-, h⟩
  · exact group_derives hinside h
  rcases orElse_eq_done.mp h with h | ⟨-, h⟩
  · exact absurd h strayBounds_ne_done
  · refine plainCharacter_derives ?_ h
    intro c hc
    rw [Place.allows, if_neg (by simp [hg])]
    refine ⟨hc, ?_⟩
    rintro rfl
    exact absurd hc (by decide)

omit hinside hcls in
/-- A term is an assertion, which outside the exact grammar may be a repeated lookahead, or else an
atom that may be repeated. -/
theorem term_eq_done {e : Term} (h : term cls inside g s = .done e t) :
    (∃ a u, assertion inside g s = .done a u ∧
      (if !g.exact && a.isLookahead then quantified s.cursor a else pure a) g u = .done e t) ∨
    assertion inside g s = .miss ∧ ∃ a u,
      (if g.exact then atom cls inside else webAtom cls inside) g s = .done a u ∧
      quantified s.cursor a g u = .done e t := by
  rw [term, here_bind, grammar_bind, bind_eq_done] at h
  obtain ⟨o, u, ho, h⟩ := h
  rcases attempt_eq_done.mp ho with ⟨a, rfl, ha⟩ | ⟨rfl, hmiss, rfl⟩
  · exact .inl ⟨a, u, ha, h⟩
  · refine .inr ⟨hmiss, ?_⟩
    cases hg : g.exact with
    | true =>
      simp only [hg] at h
      exact bind_eq_done.mp h
    | false =>
      simp only [hg] at h
      exact bind_eq_done.mp h

/-- What is read as a term can be derived, if classes and what is inside groups can. -/
theorem term_derives {e : Term} (h : term cls inside g s = .done e t) :
    Derives g s (.term e) t := by
  rcases term_eq_done h with ⟨a, u, ha, h⟩ | ⟨-, a, u, ha, h⟩
  · have ha := assertion_derives hinside ha
    split at h
    · exact quantified_derives ha h
    · obtain ⟨rfl, rfl⟩ := pure_eq_done.mp h
      exact ha
  · refine quantified_derives ?_ h
    split at ha
    · next hg => exact atom_derives hinside hcls hg ha
    · next hg => exact webAtom_derives hinside hcls (by simpa using hg) ha

/-! ## Alternatives

The bars between alternatives change the scope; the look for a stray quantifier behind them reads
nothing. -/

omit hinside hcls in
theorem sequence_eq_done {q : Sequence} (h : sequence cls inside g s = .done q t) :
    ∃ es, many (term cls inside) g s = .done es t ∧ q = .mk (.between s.cursor t.cursor) es := by
  rw [sequence, here_bind, bind_eq_done] at h
  obtain ⟨es, u, hes, h⟩ := h
  rw [spanFrom_bind] at h
  obtain ⟨rfl, rfl⟩ := pure_eq_done.mp h
  exact ⟨es, hes, rfl⟩

omit hinside hcls in
theorem followingSequence_eq_done {q : Sequence}
    (h : followingSequence cls inside g s = .done q t) :
    ∃ u, s.Reads ['|'] u ∧
      sequence cls inside g (u.inScope GroupScope.followingAlternative) = .done q t := by
  obtain ⟨u, hbar, h⟩ := eat_bind_eq_done.mp h
  obtain ⟨_, v, hscope, h⟩ := bind_eq_done.mp h
  obtain ⟨-, rfl⟩ := Outcome.done.inj hscope
  exact ⟨u, hbar, h⟩

/-- What is read as an alternative can be derived, term by term. -/
theorem sequence_derives {q : Sequence} (h : sequence cls inside g s = .done q t) :
    Derives g s (.sequence q) t := by
  obtain ⟨es, hes, rfl⟩ := sequence_eq_done h
  refine .sequence ?_
  have hchain := chain_of_many hes
  clear h hes
  induction hchain with
  | nil s => exact .noTerm s
  | cons head _ ih => exact .consTerm (term_derives hinside hcls head) ih

/-- Alternatives behind bars can be derived in a row with the first. -/
theorem followingSequences_derives {q : Sequence} {qs : List Sequence}
    (hq : Derives g s (.sequence q) t)
    (h : Chain (fun s q t => followingSequence cls inside g s = .done q t) t qs u) :
    Derives g s (.alternatives (q :: qs)) u := by
  induction h generalizing s q with
  | nil t => exact .lastAlternative hq
  | cons head _ ih =>
    obtain ⟨v, hbar, hnext⟩ := followingSequence_eq_done head
    exact .consAlternative hq hbar (ih (sequence_derives hinside hcls hnext))

omit hinside hcls in
/-- The look for a stray quantifier reads nothing. -/
theorem noStrayQuantifier_eq_done {x : Unit} (h : noStrayQuantifier g s = .done x t) : s = t := by
  rcases orElse_eq_done.mp h with h | ⟨-, h⟩
  · obtain ⟨r, u, -, h⟩ := bind_eq_done.mp h
    exact absurd h fail_ne_done
  rcases orElse_eq_done.mp h with h | ⟨-, h⟩
  · obtain ⟨u, -, h⟩ := eat_bind_eq_done.mp h
    exact absurd h fail_ne_done
  · exact (pure_eq_done.mp h).2

omit hinside hcls in
/-- Behind the alternatives no quantifier stands, and their scope is left again. -/
theorem alternatives_eq_done {qs : List Sequence}
    (h : alternatives cls inside g s = .done qs t) :
    ∃ q rest u v, sequence cls inside g (s.inScope GroupScope.enterDisjunction) = .done q u ∧
      many (followingSequence cls inside) g u = .done rest v ∧
      noStrayQuantifier g v = .done () v ∧ qs = q :: rest ∧
      t = v.inScope GroupScope.leaveDisjunction := by
  rw [alternatives] at h
  obtain ⟨_, u₁, henter, h⟩ := bind_eq_done.mp h
  obtain ⟨-, rfl⟩ := Outcome.done.inj henter
  obtain ⟨q, u₂, hq, h⟩ := bind_eq_done.mp h
  obtain ⟨rest, u₃, hrest, h⟩ := bind_eq_done.mp h
  obtain ⟨_, u₄, hstray, h⟩ := bind_eq_done.mp h
  obtain ⟨_, u₅, hleave, h⟩ := bind_eq_done.mp h
  obtain ⟨-, rfl⟩ := Outcome.done.inj hleave
  obtain ⟨rfl, rfl⟩ := pure_eq_done.mp h
  obtain rfl := noStrayQuantifier_eq_done hstray
  exact ⟨q, rest, u₂, u₃, hq, hrest, hstray, rfl, rfl⟩

/-- What is read between the ends of a disjunction can be derived, if classes and what is inside
groups can. -/
theorem alternatives_derives {qs : List Sequence} (h : alternatives cls inside g s = .done qs t) :
    Derives g s (.disjunction qs) t := by
  obtain ⟨q, rest, u, v, hq, hqs, -, rfl, rfl⟩ := alternatives_eq_done h
  exact .disjunction (followingSequences_derives hinside hcls
    (sequence_derives hinside hcls hq) (chain_of_many hqs))

end Nesting

/-- Every disjunction that is read is derived. -/
theorem disjunction_derives {depth : Nat} {qs : List Sequence}
    (h : disjunction depth g s = .done qs t) : Derives g s (.disjunction qs) t := by
  induction depth generalizing s t qs with
  | zero =>
    refine alternatives_derives (fun _ _ _ _ h => ?_) (fun _ _ _ => charClass_derives) h
    exact absurd h failAt_ne_done
  | succ depth ih =>
    exact alternatives_derives (fun _ _ _ _ => ih) (fun _ _ _ => charClass_derives) h

end Parser

/-! ## Levels

The recursion of `disjunction` runs on the levels that are left. At each of them, classes and groups
have parsers of their own. -/

open EcmaPattern.Parser

/-- The parser of what is inside groups, with the given number of levels left for them. -/
def nestedAt : Nat → Nested
  | 0 => fun mark => failAt .nestedTooDeeply mark.index
  | depth + 1 => fun _ => disjunction depth

/-- A disjunction of any depth is a list of alternatives over the parser of what nests in it. This
is how recursions over the depth begin. -/
theorem disjunction_eq_nestedAt (depth : Nat) (g : Grammar) (s : State) :
    disjunction depth g s = alternatives (charClass depth false) (nestedAt depth) g s := by
  cases depth with
  | zero => rfl
  | succ depth => rfl

namespace Parser

variable {depth : Nat}

/-- What is read one level further down can be derived, by induction on the levels. -/
theorem nestedAt_derives {mark : Cursor} {qs : List Sequence}
    (h : nestedAt depth mark g s = .done qs t) : Derives g s (.disjunction qs) t := by
  cases depth with
  | zero => cases h
  | succ depth => exact disjunction_derives h

/-- What is read as a term at any depth can be derived. -/
theorem term_derives_at {e : Term}
    (h : term (charClass depth false) (nestedAt depth) g s = .done e t) :
    Derives g s (.term e) t :=
  term_derives (fun _ _ _ _ => nestedAt_derives) (fun _ _ _ => charClass_derives) h

/-- Every term takes something of the text. -/
theorem progresses_term (g : Grammar) :
    Progresses (term (charClass depth false) (nestedAt depth)) g :=
  fun _ _ _ h => (term_derives_at h).term_remaining_lt

end Parser

end EcmaPattern
