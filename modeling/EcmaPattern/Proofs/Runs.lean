import EcmaPattern.Proofs.Fragments.Answers

/-!
# Runs

A parser is run over a text that is known. Plain characters are read one by one
(`State.reads_of_plain`), alternatives are a first sequence and those behind bars
(`Parser.disjunction_eq_done`), and a group is what its parentheses enclose
(`Parser.group_of_plain`).

What a pass gives is told by its run and by the tree alone: the groups that are counted ahead of the
run are those of the tree, and a name means the groups of the tree that have it
(`Pattern.run_of_pass` and `Pattern.pass_of_run`).

These lemmas go the other way from those on derivations: they start from the text and conclude that
a parser is done. They are used where a pattern is put together from parts that have been parsed
before.
-/

namespace EcmaPattern

open EcmaPattern.Parser

/-! ## Whole texts

At the end of a whole text the span from its start is the whole text. -/

def Span.whole (t : Text) : Span := ⟨0, t.length, t⟩

theorem Span.between_whole {text : Text} {paired : Bool} {c : Cursor} (h : c.index = text.length) :
    Span.between ⟨0, text, paired⟩ c = .whole text := by
  rw [Span.between, Cursor.textTo, h, Nat.sub_zero, List.take_length, whole]

/-- The end of what lies ahead. -/
theorem Cursor.Reaches.eq_end {c d : Cursor} (h : c.Reaches d) (hd : d.current = none) :
    d = ⟨c.index + c.remaining, [], c.paired⟩ := by
  obtain ⟨cs, hr⟩ := h
  have hnil := current_eq_none.mp hd
  have hahead := hr.ahead
  rw [hnil, List.append_nil] at hahead
  obtain ⟨index, ahead, paired⟩ := d
  obtain rfl : ahead = [] := hnil
  have hindex : index = _ := hr.index
  have hpaired : paired = _ := hr.paired
  rw [hindex, hpaired, remaining, hahead]

/-! ## Alternatives and groups

How a run over alternatives is made of runs over the parts, and what is left to show when a text is
known to be a group. -/

namespace Parser

variable {g : Grammar} {s t u v : State} {inside : Nested} {qs : List Sequence}

/-- Alternatives are a first sequence and the sequences behind bars. -/
theorem disjunction_eq_done {depth : Nat} :
    disjunction depth g s = .done qs t ↔
      ∃ first rest u v,
        sequence (charClass depth false) (nestedAt depth) g
          (s.inScope GroupScope.enterDisjunction) = .done first u ∧
        many (followingSequence (charClass depth false) (nestedAt depth)) g u = .done rest v ∧
        endOfAlternatives (first :: rest) g v = .done qs t := by
  rw [disjunction_eq_nestedAt]
  constructor
  · intro h
    obtain ⟨_, u₀, henter, h⟩ := bind_eq_done.mp h
    cases henter
    obtain ⟨first, u, hfirst, h⟩ := bind_eq_done.mp h
    obtain ⟨rest, v, hrest, h⟩ := bind_eq_done.mp h
    exact ⟨first, rest, u, v, hfirst, hrest, h⟩
  · rintro ⟨first, rest, u, v, hfirst, hrest, h⟩
    refine bind_eq_done.mpr ⟨(), _, rfl, bind_eq_done.mpr ⟨first, u, hfirst, ?_⟩⟩
    exact bind_eq_done.mpr ⟨rest, v, hrest, h⟩

/-- A disjunction gets forward. -/
theorem disjunction_reaches {depth : Nat} (h : disjunction depth g s = .done qs t) :
    s.cursor.Reaches t.cursor := (disjunction_derives h).reaches

theorem closeGroup_of_reads (h : s.Reads [')'] t) : closeGroup g s = .done () t :=
  orElse_of_done (eat_eq_done.mpr h)

/-- What opens as a group that captures nothing is read as one. -/
theorem group_eq_plainGroup (hopen : s.Reads ['(', '?', ':'] u) :
    group inside g s = plainGroup inside s.cursor none g u := by
  obtain ⟨a, hparen, hopen⟩ := State.reads_cons.mp hopen
  obtain ⟨b, hquestion, hcolon⟩ := State.reads_cons.mp hopen
  rw [group, here_bind, bind_of_done (eat_eq_done (x := ()).mpr hparen),
    bind_of_done (eats_eq_done.mpr (.inl ⟨rfl, hquestion⟩)), if_pos rfl,
    bind_of_done (eats_eq_done.mpr (.inl ⟨rfl, hcolon⟩)), if_pos rfl]

/-- A group that captures nothing, between its signs. -/
theorem group_of_plain (hopen : s.Reads ['(', '?', ':'] u)
    (h : inside s.cursor g u = .done qs v) (hclose : v.Reads [')'] t) :
    group inside g s = .done (.group (.between s.cursor t.cursor) none qs) t := by
  rw [group_eq_plainGroup hopen, plainGroup, bind_of_done h,
    bind_of_done (closeGroup_of_reads hclose)]
  rfl

/-- A lookaround begins with one of three signs behind the question mark. -/
theorem lookaround_eq_miss_of_question (hopen : s.Reads ['(', '?'] u)
    (hu : ∀ c, u.cursor.current = some c → c.isOneOf ['<', '=', '!'] = false) :
    lookaround inside g s = .miss := by
  have hsign : ((do eat '='; return false) <|> (do eat '!'; return true) : Parser Bool) g u =
      .miss :=
    orElse_eq_miss.mpr ⟨bind_of_miss (eat_eq_miss.mpr (State.current_ne hu rfl)),
      bind_of_miss (eat_eq_miss.mpr (State.current_ne hu rfl))⟩
  have hopening : lookOpening g s = .miss := by
    rw [lookOpening, bind_of_done (eatAll_eq_done (x := ()).mpr hopen), supports_bind]
    split
    · exact (bind_of_done (eats_of_ne (State.current_ne hu rfl))).trans (bind_of_miss hsign)
    · exact (bind_of_done (pure_apply false g u)).trans (bind_of_miss hsign)
  rw [lookaround, here_bind, bind_of_miss hopening]

theorem State.Reads.inScope {cs : List CodePoint} (h : s.Reads cs t) (f : GroupScope → GroupScope) :
    (s.inScope f).Reads cs (t.inScope f) := by
  obtain ⟨c, hc, rfl⟩ := h
  exact ⟨c, hc, rfl⟩

/-- A group that captures nothing, if there is nothing else, takes one level. -/
theorem disjunction_of_group {depth : Nat} (hopen : s.Reads ['(', '?', ':'] u)
    (h : disjunction depth g (u.inScope GroupScope.enterDisjunction) = .done qs v)
    (hclose : v.Reads [')'] t) (hend : t.cursor.current = none) :
    disjunction (depth + 1) g s =
      .done [.mk (.between s.cursor t.cursor) [.group (.between s.cursor t.cursor) none qs]]
        (t.inScope GroupScope.leaveDisjunction) := by
  have hopen := State.Reads.inScope hopen GroupScope.enterDisjunction
  obtain ⟨a, hquestion, hcolon⟩ : ∃ a, (s.inScope GroupScope.enterDisjunction).Reads ['(', '?'] a ∧
      a.Reads [':'] (u.inScope GroupScope.enterDisjunction) := State.reads_append.mp hopen
  have hmiss : lookaround (nestedAt (depth + 1)) g (s.inScope GroupScope.enterDisjunction) =
      .miss := by
    refine lookaround_eq_miss_of_question hquestion fun c hc => ?_
    rw [hcolon.current_eq] at hc
    cases hc
    decide
  have hparen := hopen.current_eq
  have hgroup : group (nestedAt (depth + 1)) g (s.inScope GroupScope.enterDisjunction) = _ :=
    group_of_plain hopen h hclose
  exact disjunction_of_term
    (term_of_group ((assertion_eq_lookaround hparen).trans hmiss) hgroup hend) hend

end Parser

/-! ## Passes and their runs

Whether a pass succeeds depends on more than its run: groups are counted before, and names are
resolved behind it. Both are functions of the tree, by what is known of derivations, so that a pass
can be exchanged for its run and back. -/

/-- The groups of a pattern are those of its alternatives. -/
theorem Node.captures_pattern (p : Pattern) :
    (pattern p).captures = (Piece.disjunction p.alternatives).captures := by
  rw [captures_eq, children_pattern]
  rfl

/-- The groups that a scan counts ahead of alternatives that are all there is are the groups in
them. -/
theorem Derives.countCaptures_eq {g : Grammar} {s t : State} {qs : List Sequence}
    (h : Derives g s (.disjunction qs) t) (hend : t.cursor.current = none) :
    countCaptures false false s.cursor.characters = (Piece.disjunction qs).captures.length := by
  have hscan : countCaptures false false s.cursor.characters =
      (Piece.disjunction qs).captures.length + countCaptures false false t.cursor.characters :=
    h.scanned
  rw [Cursor.current_eq_none] at hend
  rw [hscan, Cursor.characters, hend]
  rfl

/-- The numbers of the groups in a part of a tree that have a name. -/
def Piece.indexesOf (x : Piece) (name : GroupName) : List Nat :=
  (x.captures.filter (·.name == some name)).map Capture.index

/-- The scope in which the alternatives of a pattern end has the numbers of the groups in them. -/
theorem Derives.indexes_eq {g : Grammar} {c : Cursor} {rule : DuplicateRule} {qs : List Sequence}
    {t : State} (h : Derives g ⟨c, .empty rule, 0⟩ (.disjunction qs) t) :
    t.scope.indexes = (Piece.disjunction qs).indexesOf := by
  funext name
  rw [Pattern.indexes_of_derives ⟨0, 0, []⟩ h, Node.indexesOf, Node.captures_pattern]
  rfl

namespace Pattern

variable {rule : DuplicateRule} {o : Options} {flags : FlagSet} {named : Bool} {c : Cursor}
  {p : Pattern} {scope : GroupScope}

/-- A pass that gives a pattern is a run over the alternatives up to the end of the text. -/
theorem run_of_pass (h : pass rule o flags named c = .ok (p, scope)) :
    ∃ qs t, disjunction o.maxDepth (grammarFor o flags named c) ⟨c, .empty rule, 0⟩ = .done qs t ∧
      t.cursor.current = none ∧
      (grammarFor o flags named c).captures = (Piece.disjunction qs).captures.length ∧
      (∀ name ∈ Term.referredNamesOfAll qs, (Piece.disjunction qs).indexesOf name ≠ []) ∧
      p = resolve (Piece.disjunction qs).indexesOf ⟨.between c t.cursor, qs⟩ := by
  obtain ⟨qs, t, hqs, hend, rfl, hnames, rfl⟩ := pass_eq_ok.mp h
  have hderives := disjunction_derives hqs
  have hindexes := hderives.indexes_eq
  rw [hindexes]
  refine ⟨qs, t, hqs, hend, hderives.countCaptures_eq hend, fun name hname => ?_, rfl⟩
  have hdeclares := List.all_eq_true.mp hnames name hname
  rwa [GroupScope.declares_eq, hindexes, Bool.not_eq_true', List.isEmpty_eq_false_iff] at hdeclares

/-- A run under the grammar of a pass, but for the number of groups, which is told by the tree. -/
theorem pass_of_run {g : Grammar} {qs : List Sequence} {t : State}
    (h : disjunction o.maxDepth g ⟨c, .empty rule, 0⟩ = .done qs t)
    (hend : t.cursor.current = none)
    (hg : { grammarFor o flags named c with captures := g.captures } = g)
    (hcaptures : g.captures = (Piece.disjunction qs).captures.length)
    (hnames : ∀ name ∈ Term.referredNamesOfAll qs, (Piece.disjunction qs).indexesOf name ≠ []) :
    pass rule o flags named c =
      .ok (resolve (Piece.disjunction qs).indexesOf ⟨.between c t.cursor, qs⟩, t.scope) := by
  have hderives := disjunction_derives h
  have hindexes := hderives.indexes_eq
  have hgrammar : grammarFor o flags named c = g := by
    rw [← hg, hcaptures, ← hderives.countCaptures_eq hend]
    rfl
  rw [← hindexes]
  refine pass_eq_ok.mpr
    ⟨qs, t, hgrammar ▸ h, hend, rfl, List.all_eq_true.mpr fun name hname => ?_, rfl⟩
  rw [GroupScope.declares_eq, hindexes, Bool.not_eq_true', List.isEmpty_eq_false_iff]
  exact hnames name hname

/-! ## Names

With the check for names that stand twice put aside, only `NamesApart` remains of it. -/

/-- In a pattern that is read, names stand twice only as the edition allows. -/
theorem namesApart_of_readUnder (h : readUnder (duplicateRule o.edition) o flags c = .ok p) :
    (Node.pattern p).NamesApart o.edition := by
  obtain ⟨named, scope, hpass⟩ := pass_of_readUnder h
  exact (admits_iff_namesApart hpass o.edition).mp (admits_of_pass hpass)

/-- Where names are kept apart, the check for them has no influence. -/
theorem readUnder_of_namesApart (h : readUnder .unchecked o flags c = .ok p)
    (hapart : (Node.pattern p).NamesApart o.edition) :
    readUnder (duplicateRule o.edition) o flags c = .ok p := by
  rcases readUnder_checked o flags c p h with ⟨-, hread⟩ | ⟨hnot, -⟩
  · exact hread
  · exact absurd hapart hnot

end Pattern

end EcmaPattern
