import EcmaPattern.Proofs.Resolution
import EcmaPattern.Proofs.SetGrammar.Classes

/-!
# Patterns that are one class

With the `v` flag, a text is parsed as a pattern that is nothing but one class exactly if the
grammar derives it as a class, and then with the tree of the derivation
(`set_classes_parsed_exactly`). The limit on nesting is the only other condition, and a limit of as
many levels as the text has units is none.
-/

namespace EcmaPattern

open SetGrammar

namespace Parser

variable {g : Grammar} {s t u : State} {cls : Parser CharSet} {inside : Nested}

/-! ## One term

A pattern that begins with a bracket has a class for its first term, since no assertion and no other
atom begins with one. If the class ends with the text, it is the only term. -/

theorem many_once {α : Type} {p : Parser α} {a : α} (h : p g s = .done a t)
    (hend : p g t = .miss) : many p g s = .done [a] t := by
  have hrest : ∀ count, upTo p count g t = .done [] t := by
    intro count
    cases count with
    | zero => rfl
    | succ count => rw [upTo_succ_apply, hend]
  rw [many, upTo_succ_apply, h]
  dsimp only
  rw [hrest]

/-- If there is one term and nothing behind it, it is the only term of the only alternative. -/
theorem alternatives_of_term {e : Term}
    (h : term cls inside g (s.inScope GroupScope.enterDisjunction) = .done e u)
    (hmiss : term cls inside g u = .miss) (hend : u.cursor.current = none) :
    alternatives cls inside g s =
      .done [.mk (.between s.cursor u.cursor) [e]] (u.inScope GroupScope.leaveDisjunction) := by
  have hquiet : u.atQuantifier = false := by rw [State.atQuantifier, hend]; rfl
  have hsequence : sequence cls inside g (s.inScope GroupScope.enterDisjunction) =
      .done (.mk (.between s.cursor u.cursor) [e]) u := by
    rw [sequence, here_bind, bind_of_done (many_once h hmiss)]
    rfl
  have hfollowing : many (followingSequence cls inside) g u = .done [] u := by
    refine many_none (bind_of_miss (eat_eq_miss.mpr ?_))
    simp [hend]
  have hstray : noStrayQuantifier g u = .done () u := by
    rw [noStrayQuantifier, orElse_of_miss (bind_of_miss (quantifier_eq_miss hquiet)),
      orElse_of_miss (bind_of_miss (eat_eq_miss.mpr (by simp [hend])))]
    rfl
  rw [alternatives, bind_of_done (a := ()) (u := s.inScope GroupScope.enterDisjunction) rfl,
    bind_of_done hsequence, bind_of_done hfollowing, bind_of_done hstray]
  rfl

section Exact

variable (hg : g.exact = true)

include hg

/-- Where a bracket opens, only a class can be read. -/
theorem term_at_bracket (hc : s.cursor.current = some (.ofChar '[')) {e : Term} :
    term cls inside g s = .done e t ↔
      ∃ x u, cls g s = .done x u ∧ quantified s.cursor (.set x) g u = .done e t := by
  have hne : ∀ {k : CodePoint}, k ≠ .ofChar '[' → s.cursor.current ≠ some k := by
    intro k hk h
    exact hk (Option.some.inj (h.symm.trans hc))
  have hassertion : assertion inside g s = .miss := by
    apply assertion_eq_miss
    · rw [hc]
      rintro _ ⟨⟩
      decide
    · intro u hr
      exact absurd hr.current_eq (hne (by decide))
  have hplain : plainCharacter (!·.isSyntaxCharacter) g s = .miss := by
    rw [plainCharacter, here_bind]
    refine bind_of_miss (satisfy_eq_miss.mpr ?_)
    rw [hc]
    rintro _ ⟨⟩
    decide
  -- all other alternatives miss at a bracket, those before the class and those behind it
  have hatom : ∀ {e : Term} {u : State}, atom cls inside g s = .done e u ↔
      ∃ x, cls g s = .done x u ∧ Term.set x = e := by
    intro e u
    rw [atom, orElse_of_miss (anyCharacter_eq_miss (hne (by decide))),
      orElse_of_miss (escapedAtom_eq_miss (hne (by decide))), orElse_eq_done, map_eq_done,
      orElse_of_miss (group_eq_miss (hne (by decide))), hplain]
    simp
  rw [term, here_bind, grammar_bind, bind_of_done (attempt_of_miss hassertion)]
  dsimp only
  rw [if_pos hg, bind_eq_done]
  constructor
  · rintro ⟨a, u, ha, h⟩
    obtain ⟨x, hx, rfl⟩ := hatom.mp ha
    exact ⟨x, u, hx, h⟩
  · rintro ⟨x, u, hx, h⟩
    exact ⟨.set x, u, hatom.mpr ⟨x, hx, rfl⟩, h⟩

/-- At the end there is no term. -/
theorem term_at_end (hcls : ∀ s : State, s.cursor.current ≠ some (.ofChar '[') → cls g s = .miss)
    (hend : s.cursor.current = none) : term cls inside g s = .miss := by
  have hne : ∀ {k : CodePoint}, s.cursor.current ≠ some k := by
    rw [hend]
    nofun
  have hassertion : assertion inside g s = .miss := by
    apply assertion_eq_miss
    · intro k hk
      exact absurd hk hne
    · intro u hr
      exact absurd hr.current_eq hne
  have hplain : plainCharacter (!·.isSyntaxCharacter) g s = .miss := by
    rw [plainCharacter, here_bind]
    exact bind_of_miss (satisfy_eq_miss.mpr fun k hk => absurd hk hne)
  have hatom : atom cls inside g s = .miss := by
    rw [atom, orElse_of_miss (anyCharacter_eq_miss hne), orElse_of_miss (escapedAtom_eq_miss hne),
      orElse_of_miss (map_eq_miss.mpr (hcls s hne)), orElse_of_miss (group_eq_miss hne), hplain]
  rw [term, here_bind, grammar_bind, bind_of_done (attempt_of_miss hassertion)]
  dsimp only
  rw [if_pos hg]
  exact bind_of_miss hatom

/-! ## One alternative

Behind the class nothing is left to read, so there is one alternative with one term. -/

/-- A pattern that is one class is read by the parser of classes. -/
theorem class_of_alternatives (hc : s.cursor.current = some (.ofChar '[')) {span : Span}
    {x : CharSet} (h : alternatives cls inside g s = .done [.mk span [.set x]] t) :
    ∃ u, cls g (s.inScope GroupScope.enterDisjunction) = .done x u ∧ u.cursor = t.cursor := by
  obtain ⟨q, rest, v, w, hq, hrest, -, hqs, rfl⟩ := alternatives_eq_done h
  obtain ⟨rfl, rfl⟩ := List.cons.inj hqs
  cases chain_of_many hrest
  obtain ⟨es, hes, hspan⟩ := sequence_eq_done hq
  cases hspan
  have hc : (s.inScope GroupScope.enterDisjunction).cursor.current = some (.ofChar '[') := hc
  cases chain_of_many hes with
  | cons head tail =>
    cases tail
    obtain ⟨y, w, hy, hquantified⟩ := (term_at_bracket hg hc).mp head
    rcases quantified_eq_done hquantified with ⟨r, -, hcontra⟩ | ⟨-, hxy, rfl⟩
    · cases hcontra
    · cases hxy
      exact ⟨w, hy, rfl⟩

/-- A class up to the end of the text is read as the one term of the one alternative. -/
theorem alternatives_of_class
    (hcls : ∀ s : State, s.cursor.current ≠ some (.ofChar '[') → cls g s = .miss)
    (hc : s.cursor.current = some (.ofChar '[')) {x : CharSet}
    (h : cls g (s.inScope GroupScope.enterDisjunction) = .done x u)
    (hend : u.cursor.current = none) :
    alternatives cls inside g s =
      .done [.mk (.between s.cursor u.cursor) [.set x]]
        (u.inScope GroupScope.leaveDisjunction) := by
  have hc : (s.inScope GroupScope.enterDisjunction).cursor.current = some (.ofChar '[') := hc
  have hquiet : u.atQuantifier = false := by rw [State.atQuantifier, hend]; rfl
  exact alternatives_of_term ((term_at_bracket hg hc).mpr ⟨x, u, h, quantified_eq_self hquiet⟩)
    (term_at_end hg hcls hend) hend

end Exact

theorem disjunction_eq_alternatives (depth : Nat) (g : Grammar) (s : State) :
    ∃ inside, disjunction depth g s = alternatives (charClass depth false) inside g s := by
  cases depth with
  | zero => exact ⟨_, rfl⟩
  | succ depth => exact ⟨_, rfl⟩

end Parser

open EcmaPattern.Parser

/-! ## Whole patterns

Under the `v` flag references by name are always on, so there is one pass. The statement is an
equivalence with the grammar and the depth of the tree on one side; further down are a case of it
and the grammar's one restriction on how a class may begin. -/

theorem SetSpelling.isClass_eq_false {g : Grammar} {cs : List CodePoint} {make : Span → CharSet}
    (h : SetSpelling g cs make) (span : Span) : (make span).isClass = false := by
  cases h <;> rfl

/-- A pattern that is one class begins with a bracket. -/
theorem Derives.current_of_class {g : Grammar} {s t : State} {span : Span} {x : CharSet}
    (h : EcmaPattern.Derives g s (.disjunction [.mk span [.set x]]) t) (hx : x.isClass = true) :
    s.cursor.current = some (.ofChar '[') := by
  have hterm : ∃ u, EcmaPattern.Derives g (s.inScope GroupScope.enterDisjunction)
      (.term (.set x)) u := by
    cases h with
    | disjunction h =>
      cases h with
      | lastAlternative h =>
        cases h with
        | sequence h =>
          cases h with
          | consTerm h _ => exact ⟨_, h⟩
      | consAlternative _ _ h => cases h
  obtain ⟨u, h⟩ := hterm
  cases h with
  | termCharacter _ _ => cases hx
  | termEscape h =>
    cases h with
    | mk hset _ =>
      rw [hset.isClass_eq_false] at hx
      cases hx
  | termClass h => exact h.current_of_charClass

/-- Filling in what references mean makes no pattern into one set that was none. -/
theorem Term.resolveAll_eq_set {indexes : GroupName → List Nat} {qs : List Sequence} {span : Span}
    {x : CharSet} (h : Term.resolveAll indexes qs = [.mk span [.set x]]) :
    qs = [.mk span [.set x]] := by
  rw [Term.resolveAll_eq, List.map_eq_singleton_iff] at h
  obtain ⟨⟨span', es⟩, rfl, h⟩ := h
  obtain ⟨rfl, hes⟩ := Sequence.mk.inj h
  rw [Term.resolveTerms_eq, List.map_eq_singleton_iff] at hes
  obtain ⟨e, rfl, he⟩ := hes
  rw [Term.resolve_eq_set he]

def setFlags : FlagSet := { unicodeSets := true }

theorem resolve_setFlags {e : Edition} (h : e.supports .unicodeSetsFlag = true) :
    FlagChoice.resolve e (.text ['v']) = .ok setFlags := by
  revert h
  cases e <;> first | (intro h; rfl) | (intro h; exact absurd h (by decide))

theorem supports_propertyEscapes {e : Edition} (h : e.supports .unicodeSetsFlag = true) :
    e.supports .propertyEscapes = true := by
  revert h
  cases e <;> decide

section Patterns

variable {o : Options} (ho : o.edition.supports .unicodeSetsFlag = true) {text : Text} {x : CharSet}

include ho

/-- Under the flag `v` a pattern is read in one pass. -/
theorem parsePattern_setFlags {p : Pattern} :
    parsePattern o (.text ['v']) (.whole text) = .ok p ↔
      ∃ scope, Pattern.pass (Pattern.duplicateRule o.edition) o setFlags true
        ((Slice.whole text).cursor true) = .ok (p, scope) := by
  -- with these flags, one pass is enough
  have halways : Pattern.alwaysNamedReferences o setFlags = true := by
    simp [Pattern.alwaysNamedReferences, setFlags]
  rw [parsePattern_eq_ok, resolve_setFlags ho]
  constructor
  · rintro ⟨flags, hflags, hread⟩
    cases hflags
    obtain ⟨-, hread⟩ := Pattern.read_eq_ok.mp hread
    obtain ⟨q, scope, hpass, h⟩ := Pattern.readUnder_eq_ok.mp hread
    rw [halways] at hpass h
    obtain rfl : q = p := h
    exact ⟨scope, hpass⟩
  · rintro ⟨scope, hpass⟩
    refine ⟨setFlags, rfl, Pattern.read_eq_ok.mpr ⟨rfl, Pattern.readUnder_eq_ok.mpr ?_⟩⟩
    refine ⟨p, scope, by rw [halways]; exact hpass, ?_⟩
    rw [halways]
    rfl

/-- A pattern is one class if and only if a class is all that is read. -/
theorem parsePattern_class_iff :
    (∃ p span, parsePattern o (.text ['v']) (.whole text) = .ok p ∧
        p.alternatives = [.mk span [.set x]] ∧ x.isClass = true) ↔
      IsClass o.edition text x ∧ x.nesting ≤ o.maxDepth := by
  let c := (Slice.whole text).cursor true
  let g := Pattern.grammarFor o setFlags true c
  let s : State := ⟨c, .empty (Pattern.duplicateRule o.edition), 0⟩
  have hexact : g.exact = true := Bool.or_true _
  have hclass : Recognizes (charClass o.maxDepth false) g fun c x d =>
      SetGrammar.Derives o.edition c (.charClass x) d ∧ x.nesting ≤ o.maxDepth :=
    charClass_recognizes rfl rfl (supports_propertyEscapes ho) o.maxDepth false
  obtain ⟨inside, hinside⟩ := disjunction_eq_alternatives o.maxDepth g s
  constructor
  · rintro ⟨p, span, hp, halternatives, hx⟩
    obtain ⟨scope, hpass⟩ := (parsePattern_setFlags ho).mp hp
    obtain ⟨qs, t, hqs, hend, -, -, rfl⟩ := Pattern.pass_eq_ok.mp hpass
    obtain rfl := Term.resolveAll_eq_set halternatives
    -- a tree that is a class was read from a bracket, so the class parser has given it
    have hc := Derives.current_of_class (disjunction_derives hqs) hx
    rw [hinside] at hqs
    obtain ⟨u, hu, hcursor⟩ := class_of_alternatives hexact hc hqs
    obtain ⟨⟨hclass, hdepth⟩, -⟩ := (hclass _ _ _).mp hu
    exact ⟨⟨u.cursor, hclass, by rw [hcursor]; exact hend⟩, hdepth⟩
  · rintro ⟨⟨d, h, hend⟩, hdepth⟩
    have hread : charClass o.maxDepth false g (s.inScope GroupScope.enterDisjunction) =
        .done x { s.inScope GroupScope.enterDisjunction with cursor := d } :=
      (hclass _ _ _).mpr ⟨⟨h, hdepth⟩, rfl⟩
    have halternatives := hinside.trans (alternatives_of_class hexact
      (fun _ => charClass_eq_miss) h.charClass_current hread hend)
    refine ⟨⟨.between c d, [.mk (.between c d) [.set x]]⟩, _, (parsePattern_setFlags ho).mpr
      ⟨_, Pattern.pass_eq_ok.mpr ⟨_, _, halternatives, hend, rfl, rfl, rfl⟩⟩, rfl, ?_⟩
    cases h <;> rfl

end Patterns

namespace SetGrammar

variable {e : Edition} {text : Text} {x y : CharSet}

theorem IsClass.span_eq (h : IsClass e text x) : x.span = ⟨0, text.length, text⟩ := by
  obtain ⟨d, h, hend⟩ := h
  obtain ⟨cs, hr⟩ := h.reaches
  have hspan : x.span = .between ((Slice.whole text).cursor true) d := by cases h <;> rfl
  have hahead : ((Slice.whole text).cursor true).ahead = text := List.take_length
  have htext : text = Text.ofCodePoints cs := by
    have h := hr.ahead
    rwa [hahead, Cursor.current_eq_none.mp hend, List.append_nil] at h
  have hindex : d.index = text.length := by
    have h := hr.index
    rw [← htext] at h
    exact h.trans (Nat.zero_add _)
  have hraw := hr.textTo
  rw [← htext] at hraw
  rw [hspan, Span.between, hraw, hindex]
  rfl

/-- Classes nest no deeper than the text is long, so a limit as long as the text is no limit. -/
theorem IsClass.nesting_le (h : IsClass e text x) : x.nesting ≤ text.length := by
  obtain ⟨d, h, -⟩ := h
  have hlength : ((Slice.whole text).cursor true).remaining = text.length :=
    congrArg List.length (List.take_length (l := text))
  have hle := h.nesting_le
  rw [hlength] at hle
  exact Nat.le_trans (Nat.le_add_right _ _) hle

/-- No text is a class in two ways. -/
theorem IsClass.unique (he : e.supports .unicodeSetsFlag = true) (hx : IsClass e text x)
    (hy : IsClass e text y) : x = y := by
  -- a parser that goes deep enough reads the text as either, and it has one answer
  let o : Options := ⟨e, false, text.length + 1, Nat.succ_pos _⟩
  have hdeep : ∀ {z : CharSet}, IsClass e text z → z.nesting ≤ o.maxDepth :=
    fun h => Nat.le_succ_of_le h.nesting_le
  obtain ⟨p, span, hp, hpx, -⟩ := (parsePattern_class_iff (o := o) he).mpr ⟨hx, hdeep hx⟩
  obtain ⟨q, span', hq, hqy, -⟩ := (parsePattern_class_iff (o := o) he).mpr ⟨hy, hdeep hy⟩
  obtain rfl : p = q := Except.ok.inj (hp.symm.trans hq)
  obtain ⟨-, hxy⟩ : span = span' ∧ x = y := by simpa using hpx.symm.trans hqy
  exact hxy

end SetGrammar

/-- With the `v` flag, a text is parsed as a pattern of one class that covers it exactly if the
grammar derives the text as a class and the class is not nested too deeply, and the class is that of
the derivation. No class is nested more deeply than its text is long, so a limit that is not below
the length excludes none. A text has one derivation at most, as far as its tree goes. -/
theorem set_classes_parsed_exactly (o : Options)
    (ho : o.edition.supports .unicodeSetsFlag = true) (text : Text) :
    (∀ x, (∃ p span, parsePattern o (.text ['v']) (.whole text) = .ok p ∧
        p.alternatives = [.mk span [.set x]] ∧ x.isClass = true ∧
        x.span = ⟨0, text.length, text⟩) ↔
      IsClass o.edition text x ∧ x.nesting ≤ o.maxDepth) ∧
    (∀ x, IsClass o.edition text x → x.nesting ≤ text.length) ∧
    ∀ x y, IsClass o.edition text x → IsClass o.edition text y → x = y := by
  refine ⟨fun x => ?_, fun x => IsClass.nesting_le, fun x y => IsClass.unique ho⟩
  rw [← parsePattern_class_iff ho]
  constructor
  · rintro ⟨p, span, hp, halternatives, hx, -⟩
    exact ⟨p, span, hp, halternatives, hx⟩
  · rintro h
    obtain ⟨hclass, -⟩ := (parsePattern_class_iff ho).mp h
    obtain ⟨p, span, hp, halternatives, hx⟩ := h
    exact ⟨p, span, hp, halternatives, hx, hclass.span_eq⟩

/-- The one alternative is a class, over the span, that subtracts from what is left of another
subtraction. -/
def subtractsTwice (span : Span) : List Sequence → Bool
  | [.mk _ [.set (.expression span' false
      (.operation _ .subtraction (.operation _ .subtraction _ _) _))]] => decide (span' = span)
  | _ => false

/-- Operations are nested on the left, and a third ampersand after two is refused. -/
theorem set_classes_parsed_exactly_at_operations :
    Edition.es2025.supports .unicodeSetsFlag = true ∧
    (∃ span₁ span₂ span₃ a b c, IsClass .es2025 (.ofString "[\\p{Lu}--[A-F]--\\q{X|YZ}]")
      (.expression span₁ false
        (.operation span₂ .subtraction (.operation span₃ .subtraction a b) c))) ∧
    ∀ x, ¬ IsClass .es2025 (.ofString "[a&&&b]") x := by
  have he : Edition.es2025.supports .unicodeSetsFlag = true := by decide
  refine ⟨he, ?_, ?_⟩
  · have hparsed : (parsePattern (.ofEdition .es2025 false) (.text ['v'])
        (.whole (.ofString "[\\p{Lu}--[A-F]--\\q{X|YZ}]"))).toOption.any (fun p =>
          subtractsTwice ⟨0, 25, .ofString "[\\p{Lu}--[A-F]--\\q{X|YZ}]"⟩ p.alternatives) =
        true := by decide +kernel
    obtain ⟨p, hp, htest⟩ := Except.exists_eq_ok_of_any hparsed
    rw [subtractsTwice.eq_def] at htest
    split at htest
    · next span span₁ span₂ span₃ a b c halternatives =>
      obtain ⟨hexact, -, -⟩ := set_classes_parsed_exactly (.ofEdition .es2025 false) he
        (.ofString "[\\p{Lu}--[A-F]--\\q{X|YZ}]")
      obtain ⟨hclass, -⟩ := (hexact _).mp
        ⟨p, span, hp, halternatives, rfl, of_decide_eq_true htest⟩
      exact ⟨_, _, _, _, _, _, hclass⟩
    · cases htest
  · intro x hx
    obtain ⟨hexact, hnesting, -⟩ :=
      set_classes_parsed_exactly (.ofEdition .es2025 false) he (.ofString "[a&&&b]")
    have hlength : (Text.ofString "[a&&&b]").length ≤ 64 := by decide +kernel
    obtain ⟨p, span, hp, -⟩ := (hexact x).mpr ⟨hx, Nat.le_trans (hnesting x hx) hlength⟩
    have herror : (parsePattern (.ofEdition .es2025 false) (.text ['v'])
        (.whole (.ofString "[a&&&b]"))).isOk = false := by decide +kernel
    rw [hp] at herror
    cases herror

/-- If nothing were said of a caret, the text would be an intersection in brackets. But its caret
negates the class, and then no operand stands before the ampersands. -/
theorem leading_caret_not_an_operand :
    (∃ a b d x, ((Slice.whole (.ofString "[^&&a]")).cursor true).Reads ['['] a ∧
      SetGrammar.Derives .es2025 a (.operations .intersection x) b ∧ b.Reads [']'] d ∧
      d.current = none) ∧
    ∀ p, parsePattern (.ofEdition .es2025 false) (.text ['v']) (.whole (.ofString "[^&&a]")) ≠
      .ok p := by
  constructor
  · have hcaret : SetCharacter ⟨1, .ofString "^&&a]", true⟩ _ ⟨2, .ofString "&&a]", true⟩ :=
      .plain (v := '^') rfl (by decide) (by decide)
    have hsign : OperationSign .intersection ⟨2, .ofString "&&a]", true⟩
        ⟨4, .ofString "a]", true⟩ := ⟨rfl, by decide⟩
    have hletter : SetCharacter ⟨4, .ofString "a]", true⟩ _ ⟨5, .ofString "]", true⟩ :=
      .plain (v := 'a') rfl (by decide) (by decide)
    exact ⟨_, _, ⟨6, [], true⟩, _, rfl,
      .operation (.character hcaret) hsign (.character hletter), rfl, rfl⟩
  · intro p hp
    have herror : (parsePattern (.ofEdition .es2025 false) (.text ['v'])
        (.whole (.ofString "[^&&a]"))).isOk = false := by decide +kernel
    rw [hp] at herror
    cases herror

end EcmaPattern
