import EcmaPattern.Proofs.Fragments.Origins

/-!
# Constructs by themselves

A pass over the text of a construct gives the construct: the text ends with the sign that closes the
construct, so it is a text that is cut off there, and the parser that gave the construct gives it
again, with lower numbers for its groups (`Source.reread`). Nothing is left behind it, so it is the
only term of the only alternative (`Pattern.pass_of_construct`).

Key lemmas:

* `Source.closes`, that the parser which gave the construct ends with its closing sign;
* `Source.reread`, that it gives the construct again in the text that is cut off there;
* `disjunction_of_term`, that a term at the end of which the text ends is the whole pattern.
-/

namespace EcmaPattern

open EcmaPattern.Parser

/-! ## The text of a construct

The place of a construct in the text of the pattern, and the text between its ends as a text of its
own. -/

/-- Behind a unit that opens no pair, the characters of a text may be cut off. -/
theorem Text.characters_append {u : CodeUnit} (hu : (CodePoint.ofUnit u).isLead = false)
    (paired : Bool) (t rest : Text) :
    characters paired (t ++ [u] ++ rest) =
      characters paired (t ++ [u]) ++ characters paired rest := by
  match t with
  | [] =>
    cases rest with
    | nil => simp [characters]
    | cons v rest => simp [characters, isPair, hu]
  | [a] =>
    have hlast := characters_append hu paired [] rest
    simp only [List.nil_append, List.cons_append, characters] at hlast ⊢
    split
    · rfl
    · rw [hlast]
      rfl
  | a :: b :: t =>
    have hrest := characters_append hu paired t rest
    have hnext := characters_append hu paired (b :: t) rest
    simp only [List.cons_append, characters] at hrest hnext ⊢
    split
    · rw [hrest]
      rfl
    · rw [hnext]
      rfl

section Counts

variable {c : CodePoint} (hc : c = .ofChar ')' ∨ c = .ofChar ']')

include hc

/-- Whether a parenthesis opens a capturing group is decided before a closing sign. -/
theorem opensCapture_append (xs ys : List CodePoint) :
    opensCapture (xs ++ c :: ys) = opensCapture (xs ++ [c]) := by
  match xs with
  | [] => rcases hc with rfl | rfl <;> rfl
  | [a] => rcases hc with rfl | rfl <;> rfl
  | [a, b] => rfl
  | a :: b :: d :: xs => rfl

/-- Among fewer characters not more groups are counted, if a sign that closes is the last. -/
theorem countCaptures_le_append (inClass escaped : Bool) (xs ys : List CodePoint) :
    countCaptures inClass escaped (xs ++ [c]) ≤ countCaptures inClass escaped (xs ++ c :: ys) := by
  induction xs generalizing inClass escaped with
  | nil =>
    have hnone : countCaptures inClass escaped [c] = 0 := by
      rcases hc with rfl | rfl <;> cases escaped <;> cases inClass <;> rfl
    rw [List.nil_append, hnone]
    exact Nat.zero_le _
  | cons x xs ih =>
    simp only [List.cons_append, countCaptures, opensCapture_append hc]
    repeat' split
    all_goals first | exact ih _ _ | exact Nat.succ_le_succ (ih _ _)

end Counts

def Cursor.upTo (c : Cursor) (stop : Nat) : Cursor := { c with ahead := c.textTo stop }

namespace Cut

def between (g : Grammar) (s t : State) (closer : CodeUnit)
    (closes : closer = 0x29 ∨ closer = 0x5D) : Cut where
  left := g
  captures := countCaptures false false (s.cursor.upTo t.cursor.index).characters
  closer := closer
  closes := closes
  rest := t.cursor.ahead
  stop := t.cursor.index
  groups := s.opened

variable {g : Grammar} {s t : State} {cs : List CodePoint} {closer : CodeUnit}
  {closes : closer = 0x29 ∨ closer = 0x5D}

/-- The text up to a place is what was read up to there. -/
theorem textTo_of_reads (closes : closer = 0x29 ∨ closer = 0x5D)
    (hr : s.cursor.Reads (cs ++ [.ofUnit closer]) t.cursor) :
    s.cursor.textTo t.cursor.index = Text.ofCodePoints cs ++ [closer] := by
  have hcloser : (CodePoint.ofUnit closer).encode = [closer] := by
    rcases closes with rfl | rfl <;> decide
  rw [hr.textTo]
  simp [Text.ofCodePoints, hcloser]

/-- The place where the text begins is one of the whole text and of the text by itself. -/
theorem within_between (hr : s.cursor.Reads (cs ++ [.ofUnit closer]) t.cursor) {scope : GroupScope}
    (hrule : scope.rule = .unchecked) :
    (between g s t closer closes).Within s ⟨s.cursor.upTo t.cursor.index, scope, 0⟩ := by
  have htext := textTo_of_reads closes hr
  refine ⟨?_, ⟨⟨_, htext⟩, ?_⟩, (Nat.zero_add _).symm, hrule⟩
  · have hahead := hr.ahead
    rw [← hr.textTo] at hahead
    show s.cursor = { s.cursor with ahead := s.cursor.textTo t.cursor.index ++ t.cursor.ahead }
    rw [← hahead]
  · show s.cursor.index + (s.cursor.textTo t.cursor.index).length = t.cursor.index
    rw [hr.textTo, ← hr.index]

/-- Not more groups are counted in the text by itself than from where it begins. -/
theorem captures_between (hr : s.cursor.Reads (cs ++ [.ofUnit closer]) t.cursor) :
    (between g s t closer closes).captures ≤ countCaptures false false s.cursor.characters := by
  have hlead : (CodePoint.ofUnit closer).isLead = false := by
    rcases closes with rfl | rfl <;> decide
  have hsign : CodePoint.ofUnit closer = .ofChar ')' ∨ CodePoint.ofUnit closer = .ofChar ']' := by
    rcases closes with rfl | rfl <;> decide
  have hcharacters : (s.cursor.upTo t.cursor.index).characters = cs ++ [.ofUnit closer] := by
    have happend := Text.characters_append hlead s.cursor.paired (.ofCodePoints cs) t.cursor.ahead
    rw [← textTo_of_reads closes hr, hr.textTo, ← hr.ahead] at happend
    have hreads := hr.characters
    rw [Cursor.characters, Cursor.characters, hr.paired] at hreads
    rw [Cursor.upTo, Cursor.characters, hr.textTo]
    exact List.append_cancel_right (happend.symm.trans hreads)
  show countCaptures false false (s.cursor.upTo t.cursor.index).characters ≤ _
  rw [hcharacters, hr.characters, List.append_assoc]
  exact countCaptures_le_append hsign false false cs t.cursor.characters

end Cut

/-! ## One term

No quantifier stands at the end of a text, so a term up to the end is not quantified. A construct
begins with a bracket or a parenthesis, and there is only one kind of term it can be. -/

namespace Parser

variable {g : Grammar} {s t : State} {inside : Nested} {depth : Nat} {e : Term}

/-- At the end of the text there is no quantifier. -/
theorem quantified_of_end {mark : Cursor} (hend : t.cursor.current = none) :
    quantified mark e g t = .done e t :=
  quantified_eq_self (by rw [State.atQuantifier, hend]; rfl)

/-- A group up to the end of the text is a term. -/
theorem term_of_group (hmiss : assertion inside g s = .miss) (h : group inside g s = .done e t)
    (hend : t.cursor.current = none) :
    term (charClass depth false) inside g s = .done e t := by
  have hparen : s.cursor.current = some (.ofChar '(') := by
    by_contra hne
    rw [group_eq_miss hne] at h
    cases h
  have hcls : charClass depth false g s = .miss := charClass_eq_miss (by rw [hparen]; decide)
  have hatom : (if g.exact then atom (charClass depth false) inside else
      webAtom (charClass depth false) inside) g s = .done e t := by
    rw [atom_eq_of_current (isOneOf_of_current hparen rfl),
      orElse_of_miss (map_eq_miss.mpr hcls), h]
  rw [term_of_atom hmiss, bind_of_done hatom, quantified_of_end hend]

theorem term_of_lookaround (h : lookaround inside g s = .done e t)
    (hend : t.cursor.current = none) :
    term (charClass depth false) inside g s = .done e t := by
  have hparen : s.cursor.current = some (.ofChar '(') := by
    by_contra hne
    rw [lookaround_eq_miss hne] at h
    cases h
  rw [term_of_assertion ((assertion_eq_lookaround hparen).trans h)]
  split
  · exact quantified_of_end hend
  · rfl

/-- A class up to the end of the text is a term. -/
theorem term_of_charClass {x : CharSet} (h : charClass depth false g s = .done x t)
    (hend : t.cursor.current = none) :
    term (charClass depth false) inside g s = .done (.set x) t := by
  have hbracket : s.cursor.current = some (.ofChar '[') := by
    by_contra hne
    rw [charClass_eq_miss hne] at h
    cases h
  have hatom : (if g.exact then atom (charClass depth false) inside else
      webAtom (charClass depth false) inside) g s = .done (.set x) t := by
    rw [atom_eq_of_current (isOneOf_of_current hbracket rfl)]
    exact orElse_of_done (map_eq_done.mpr ⟨x, h, rfl⟩)
  rw [term_of_atom (assertion_eq_miss_of_ne hbracket), bind_of_done hatom, quantified_of_end hend]

/-- A term behind which nothing is left is all there is. -/
theorem disjunction_of_term
    (h : term (charClass depth false) (nestedAt depth) g (s.inScope GroupScope.enterDisjunction) =
      .done e t) (hend : t.cursor.current = none) :
    disjunction depth g s =
      .done [.mk (.between s.cursor t.cursor) [e]] (t.inScope GroupScope.leaveDisjunction) := by
  rw [disjunction_eq_nestedAt]
  refine alternatives_of_term h (term_eq_miss (fun _ _ => charClass_eq_miss) ?_ ?_) hend
  · simp [hend]
  · simp [hend]

/-- What is nested follows at any depth, given at least as many levels; by induction on the levels.
-/
theorem nestedAt_follow {k : Cut} (hcaptures : k.captures ≤ k.left.captures) {depth depth' : Nat}
    (h : depth ≤ depth') (m m' : Cursor) :
    AlternativesFollow k (nestedAt depth m) (nestedAt depth' m') := by
  cases depth with
  | zero => exact failAt_follows _ _ _
  | succ depth =>
    cases depth' with
    | zero => omega
    | succ depth' => exact disjunction_follows hcaptures (Nat.le_of_succ_le_succ h)

end Parser

/-! ## Constructs that are read again

From the lemmas on texts that are cut off, for each source. -/

section Sources

variable {g : Grammar} {s t : State} {depth count : Nat} {m : Node}

/-- A group or a lookaround ends with its parenthesis. -/
theorem Encloses.closes {d : Nat} {e : Term} (h : Encloses g (nestedAt d) s e t) :
    e.span = .between s.cursor t.cursor ∧ ∃ cs, s.cursor.Reads (cs ++ [.ofChar ')']) t.cursor := by
  have hreads : ∀ {mark : Cursor} {cs : List CodePoint} {u v w : State} {qs : List Sequence},
      s.cursor.Reads cs u.cursor → nestedAt d mark g u = .done qs v → v.Reads [')'] w →
        ∃ cs, s.cursor.Reads (cs ++ [.ofChar ')']) w.cursor := by
    intro mark cs u v w qs hopen h hclose
    obtain ⟨ds, hds⟩ := (nestedAt_derives h).reaches
    exact ⟨cs ++ ds, (hopen.trans hds).trans hclose.cursor⟩
  cases h with
  | look hopen h hclose => exact ⟨rfl, hreads hopen.cursor h hclose⟩
  | group hopen h hclose => exact ⟨rfl, hreads hopen.cursor h hclose⟩
  | capture hne hopen h hclose =>
    exact ⟨rfl, hreads (u := State.openCapture _ _) hopen.cursor h hclose⟩

/-- A class ends with its bracket. -/
theorem Derives.class_closes {x : CharSet} (h : Derives g s (.charClass x) t) :
    x.span = .between s.cursor t.cursor ∧ ∃ cs, s.cursor.Reads (cs ++ [.ofChar ']']) t.cursor := by
  cases h with
  | listing hopen h hclose _ =>
    obtain ⟨ds, hds⟩ := h.reaches
    exact ⟨rfl, _, (hopen.cursor.trans hds).trans hclose.cursor⟩
  | expression _ hopen h hclose _ _ =>
    obtain ⟨ds, hds⟩ := h.reaches
    exact ⟨rfl, _, (hopen.cursor.trans hds).trans hclose.cursor⟩

/-- A construct lies between the states of its source, and a closing sign is the last of it. -/
theorem Source.closes (h : Source g depth count s m t) :
    m.span = .between s.cursor t.cursor ∧ ∃ (cs : List CodePoint) (closer : CodeUnit),
      (closer = 0x29 ∨ closer = 0x5D) ∧ s.cursor.Reads (cs ++ [.ofUnit closer]) t.cursor := by
  have hparen : CodePoint.ofChar ')' = .ofUnit 0x29 := by decide
  have hbracket : CodePoint.ofChar ']' = .ofUnit 0x5D := by decide
  cases h with
  | group _ _ _ h =>
    obtain ⟨hspan, cs, hr⟩ := (group_encloses h).closes
    exact ⟨hspan, cs, 0x29, .inl rfl, hparen ▸ hr⟩
  | look _ _ h =>
    obtain ⟨hspan, cs, hr⟩ := (lookaround_encloses h).closes
    exact ⟨hspan, cs, 0x29, .inl rfl, hparen ▸ hr⟩
  | set _ h =>
    obtain ⟨hspan, cs, hr⟩ := (charClass_derives h).class_closes
    exact ⟨hspan, cs, 0x5D, .inr rfl, hbracket ▸ hr⟩
  | nested _ h =>
    obtain ⟨hspan, cs, hr⟩ := (charClass_derives h).class_closes
    exact ⟨hspan, cs, 0x5D, .inr rfl, hbracket ▸ hr⟩

/-- The parser that gave a construct gives it again where there is only the text of the construct,
and there it is a term with nothing behind it. -/
theorem Source.reread (h : Source g depth count s m t) (hcount : count ≤ g.captures)
    (hrefers : ¬ m.Refers) (scope : GroupScope) (hrule : scope.rule = .unchecked) :
    ∃ e t', term (charClass depth false) (nestedAt depth)
        { g with captures := countCaptures false false (s.cursor.upTo t.cursor.index).characters }
        ⟨s.cursor.upTo t.cursor.index, scope, 0⟩ = .done e t' ∧
      t'.cursor.current = none ∧ m.asTerm? = some (e.raise s.opened) := by
  obtain ⟨-, cs, closer, hcloses, hr⟩ := h.closes
  let k := Cut.between g s t closer hcloses
  have hwithin : k.Within s ⟨s.cursor.upTo t.cursor.index, scope, 0⟩ :=
    Cut.within_between hr hrule
  have hcaptures : countCaptures false false s.cursor.characters ≤ count →
      k.captures ≤ k.left.captures := fun hle =>
    Nat.le_trans (Cut.captures_between hr) (Nat.le_trans hle hcount)
  -- the text by itself is read to its end
  have hend : ∀ {t' : State}, k.AtEnd t'.cursor → t'.cursor.current = none :=
    fun hend => Cursor.current_eq_none.mpr hend.ahead
  have hset : ∀ {d : Nat} {nested : Bool} {x : CharSet}, d ≤ depth →
      charClass d nested g s = .done x t →
        ∃ t', term (charClass depth false) (nestedAt depth) k.right
            ⟨s.cursor.upTo t.cursor.index, scope, 0⟩ = .done (.set x) t' ∧
          t'.cursor.current = none := by
    intro d nested x hd hx
    obtain ⟨x', t', hx', rfl, hstop⟩ :=
      charClass_closes (k := k) hd nested false _ _ _ _ hwithin hx rfl id
    exact ⟨t', term_of_charClass hx' (hend hstop), hend hstop⟩
  cases h with
  | group hd hle hmiss h =>
    have hinside := fun m m' (_ : k.pairing.Marks m m') => nestedAt_follow (hcaptures hle) hd m m'
    obtain ⟨e, t', he, hraise, hstop⟩ :=
      (group_carries hinside).closes _ _ _ _ hwithin h rfl hrefers
    have hmiss := (assertion_follows hinside).miss hwithin trivial hmiss
    exact ⟨e, t', term_of_group hmiss he (hend hstop), hend hstop, congrArg some hraise.symm⟩
  | look hd hle h =>
    have hinside := fun m m' (_ : k.pairing.Marks m m') => nestedAt_follow (hcaptures hle) hd m m'
    obtain ⟨e, t', he, hraise, hstop⟩ :=
      (lookaround_carries hinside).closes _ _ _ _ hwithin h rfl hrefers
    exact ⟨e, t', term_of_lookaround he (hend hstop), hend hstop, congrArg some hraise.symm⟩
  | set hd h =>
    obtain ⟨t', hx, hstop⟩ := hset hd h
    exact ⟨.set _, t', hx, hstop, by simp [Term.raise, Node.asTerm?]⟩
  | nested hd h =>
    obtain ⟨t', hx, hstop⟩ := hset hd h
    exact ⟨.set _, t', hx, hstop, by simp [Term.raise, Node.asTerm?]⟩

end Sources

/-! ## Passes

In a pass nothing precedes the construct. So its groups are numbered from one on, and `groupsBefore`
is what they were raised by in the whole. -/

namespace Node

variable {n : Node}

/-- A construct in which no reference stands is not changed when references are resolved. -/
theorem resolve_eq_self (f : GroupName → List Nat) (hnests : n.kind.nests = true)
    (hrefers : ¬ n.Refers) : n.resolve f = n := by
  cases n with
  | term e =>
    have hnames := referredNames_of_not_refers hrefers
    rw [Term.referredNames_node] at hnames
    rw [resolve, Term.resolve_eq_self f e hnames]
  | charSet x => rfl
  | _ => cases hnests

end Node

namespace Pattern

variable {rule : DuplicateRule} {o : Options} {flags : FlagSet} {named : Bool} {c : Cursor}
  {p : Pattern} {scope : GroupScope} {m : Node}

/-- Every construct in a pattern that is read has an origin. -/
theorem origin_of_mem {qs : List Sequence} {t : State} {f : GroupName → List Nat} {span : Span}
    (h : disjunction o.maxDepth (grammarFor o flags named c) ⟨c, .empty rule, 0⟩ = .done qs t)
    (hm : m ∈ (Node.pattern (resolve f ⟨span, qs⟩)).descendants) (hnests : m.kind.nests = true)
    (hrefers : ¬ m.Refers) :
    Origin (grammarFor o flags named c) o.maxDepth ⟨c, .empty rule, 0⟩
      (Piece.disjunction qs).captures t m := by
  change m ∈ ((Node.pattern ⟨span, qs⟩).resolve f).descendants at hm
  rw [Node.descendants_resolve] at hm
  obtain ⟨n, hn, rfl⟩ := List.mem_map.mp hm
  rw [Node.kind_resolve] at hnests
  rw [Node.refers_resolve] at hrefers
  rw [Node.resolve_eq_self f hnests hrefers]
  rw [Node.descendants_eq, Node.children_pattern] at hn
  rcases List.mem_cons.mp hn with rfl | hn
  · cases hnests
  · obtain ⟨q, hq, hn⟩ := List.mem_flatMap.mp hn
    exact (disjunction_origins h).2 q hq n hn hnests

def groupsBefore (p : Pattern) (offset : Nat) : Nat :=
  (Node.pattern p).captures.countP fun c => c.start < offset

/-- A pass over the text of a construct in which no reference stands gives the construct, with
lower numbers for its groups. -/
theorem pass_of_construct (h : pass rule o flags named c = .ok (p, scope))
    (hm : m ∈ (Node.pattern p).descendants) (hnests : m.kind.nests = true)
    (hrefers : ¬ m.Refers) :
    ∃ span e scope', pass .unchecked o flags named ⟨m.span.start, m.span.raw, c.paired⟩ =
        .ok (⟨span, [.mk span [e]]⟩, scope') ∧
      m.asTerm? = some (e.raise (p.groupsBefore m.span.start)) := by
  obtain ⟨qs, t, hqs, -, -, -, rfl⟩ := pass_eq_ok.mp h
  -- the parser that gave the construct, and the state in which it was run
  obtain ⟨u, v, hbegun, hsource⟩ := origin_of_mem hqs hm hnests hrefers
  obtain ⟨hspan, -⟩ := hsource.closes
  have hcursor : (⟨m.span.start, m.span.raw, c.paired⟩ : Cursor) =
      u.cursor.upTo v.cursor.index := by
    obtain ⟨cs, hr⟩ := hbegun.reaches
    rw [hspan, ← hr.paired]
    rfl
  -- what the numbers were raised by is how many groups had been opened
  have hbefore : groupsBefore (resolve scope.indexes ⟨.between c t.cursor, qs⟩) m.span.start =
      u.opened := by
    rw [groupsBefore, captures_resolve, hspan, hbegun.opened, Nat.zero_add]
    rfl
  -- run again over its own text, the parser gives the construct with lower numbers
  obtain ⟨e, t', he, hend, hterm⟩ := hsource.reread (Nat.le_refl _) hrefers
    (GroupScope.enterDisjunction (.empty .unchecked)) rfl
  have hrun := disjunction_of_term
    (s := ⟨u.cursor.upTo v.cursor.index, .empty .unchecked, 0⟩) he hend
  have hnames : Term.referredNamesOfAll
      [.mk (.between (u.cursor.upTo v.cursor.index) t'.cursor) [e]] = [] := by
    have hnone := Node.referredNames_of_asTerm? hrefers hterm
    simp [Term.referredNamesOfAll, Term.referredNamesOfSequence, Term.referredNamesOfTerms, hnone]
  rw [hcursor, hbefore]
  refine ⟨.between (u.cursor.upTo v.cursor.index) t'.cursor, e, _,
    pass_eq_ok.mpr ⟨_, _, hrun, hend, rfl, ?_, ?_⟩, hterm⟩
  · rw [hnames]
    rfl
  · rw [resolve, Term.resolveAll_eq_self _ _ hnames]
    rfl

end Pattern

end EcmaPattern
