import EcmaPattern.Proofs.Extension.Passes
import EcmaPattern.Proofs.NestingLimit.Answers

/-!
# Composing patterns

A pattern between the signs of a group that captures nothing is read as before, three units further
on, if there is one level left for it (`groups_are_transparent`). Two patterns with a bar between
them are read as the alternatives of both, if no group of them captures (`bars_join_alternatives`).

In either case the text of a pattern goes on with a sign that belongs to nothing before it, so it is
run over as before. What is left to see is that nothing else that a pattern depends on changes: the
number of its groups, their names, how deeply it nests, and in how many passes it is read.

Key lemmas:

* `Parser.disjunction_lowered`, for one level less;
* `Pattern.pass_grouped` and `Pattern.pass_barred`, for one pass over the text that is put together;
* `Pattern.readUnder_grouped` and `Pattern.readUnder_barred`, where the number of passes is shown to
  be the same.
-/

namespace EcmaPattern

open EcmaPattern.Parser EcmaPattern.Extension

def Text.grouped (t : Text) : Text := .ofString "(?:" ++ t ++ .ofString ")"

theorem Text.length_grouped (t : Text) : t.grouped.length = t.length + 4 := by
  have hopen : (Text.ofString "(?:").length = 3 := by decide
  have hclose : (Text.ofString ")").length = 1 := by decide
  rw [grouped, List.length_append, List.length_append, hopen, hclose]
  omega

def Pattern.ofGroup (span : Span) (qs : List Sequence) : Pattern :=
  ⟨span, [.mk span [.group span none qs]]⟩

/-! ## The tree of a group

A group that does not capture adds a node and a level. Groups with numbers and names are those of
the pattern inside. -/

namespace Pattern

variable {span : Span} {qs : List Sequence}

/-- The groups of a pattern are not changed when it is put into a group that captures nothing. -/
theorem captures_ofGroup :
    (Piece.disjunction (ofGroup span qs).alternatives).captures =
      (Piece.disjunction qs).captures := by
  rw [← Node.captures_pattern, ofGroup, Node.captures_single, Node.captures_eq,
    Node.children_group_none]
  rfl

theorem indexesOf_ofGroup :
    (Piece.disjunction (ofGroup span qs).alternatives).indexesOf =
      (Piece.disjunction qs).indexesOf := by
  funext name
  rw [Piece.indexesOf, captures_ofGroup, Piece.indexesOf]

theorem hasNamedGroup_ofGroup {span' : Span} :
    (ofGroup span qs).hasNamedGroup = hasNamedGroup ⟨span', qs⟩ := by
  rw [hasNamedGroup, hasNamedGroup, Node.captures_pattern, Node.captures_pattern, captures_ofGroup]

theorem referredNames_ofGroup :
    Term.referredNamesOfAll (ofGroup span qs).alternatives = Term.referredNamesOfAll qs := by
  simp [ofGroup, Term.referredNamesOfAll, Term.referredNamesOfSequence, Term.referredNamesOfTerms,
    Term.referredNames]

/-- It does not matter whether references are resolved inside the group or outside. -/
theorem resolve_ofGroup (f : GroupName → List Nat) :
    (ofGroup span qs).resolve f = ofGroup span (Term.resolveAll f qs) := by
  simp [ofGroup, resolve, Term.resolveAll, Term.resolveSequence, Term.resolveTerms, Term.resolve]

/-- The groups of the pattern part where those of the alternatives do. -/
theorem namesApart_ofGroup {edition : Edition} {span' : Span}
    (h : (Node.pattern ⟨span', qs⟩).NamesApart edition) :
    (Node.pattern (ofGroup span qs)).NamesApart edition := by
  refine Node.namesApart_single fun c hc d hd hne hname => ?_
  have hcaptures : (Node.term (.group span none qs)).captures =
      (Node.pattern ⟨span', qs⟩).captures := by
    rw [Node.captures_eq, Node.children_group_none, Node.captures_pattern]
    rfl
  rw [hcaptures] at hc hd
  refine (h c hc d hd hne hname).imp_right (And.imp_right fun hparts => ?_)
  rw [Node.parts_iff, Node.children_pattern] at hparts
  rwa [Node.parts_iff, Node.children_group_none]

end Pattern

/-! ## Groups

The inner pattern is moved by three units and has one level less, and the text goes on behind it
with a parenthesis. Each of these is a relation between runs of its own; they are put together here.
-/

namespace Pattern

variable {rule : DuplicateRule} {o : Options} {flags : FlagSet} {named : Bool} {c : Cursor}
  {p : Pattern} {scope : GroupScope}

/-- What a pass reads is read with fewer levels, if it nests no deeper. -/
theorem disjunction_lowered (h : pass rule o flags named c = .ok (p, scope)) {levels : Nat}
    (hnil : p.beneath levels = []) (hle : levels ≤ o.maxDepth) (k : Nat) :
    disjunction levels (grammarFor o flags named c) ⟨c.shift k, .empty rule, 0⟩ =
      disjunction o.maxDepth (grammarFor o flags named c) ⟨c.shift k, .empty rule, 0⟩ := by
  obtain ⟨qs, t, hqs, -, -, -, rfl⟩ := pass_eq_ok.mp h
  rw [beneath_resolve] at hnil
  have hmoves : ∀ levels, disjunction levels (grammarFor o flags named c)
      ⟨c.shift k, .empty rule, 0⟩ = _ := fun levels =>
    disjunction_moves levels (grammarFor o flags named c) ⟨c, .empty rule, 0⟩
  rw [hmoves, hmoves]
  rcases disjunction_limits (g := grammarFor o flags named c) hle ⟨c, .empty rule, 0⟩
    with ⟨heq, -⟩ | ⟨i, -, -, -, hhead⟩
  · rw [heq]
  · have hdeep := hhead qs t hqs
    rw [deepDisjunction, hnil] at hdeep
    cases hdeep

/-- A run over a text between the signs of a group that captures nothing. -/
theorem disjunction_grouped {g : Grammar} {rule : DuplicateRule} {depth : Nat} {text : Text}
    {paired : Bool} {qs : List Sequence} {t : State}
    (h : disjunction depth g ⟨⟨3, text, paired⟩, .empty rule, 0⟩ = .done qs t)
    (hend : t.cursor.current = none) :
    ∃ t', disjunction (depth + 1) g ⟨⟨0, text.grouped, paired⟩, .empty .unchecked, 0⟩ =
        .done (ofGroup (.whole text.grouped) qs).alternatives t' ∧
      t'.cursor.current = none ∧ t'.cursor.index = text.grouped.length := by
  let k := goingOn g ⟨3, text, paired⟩ [0x29] (by simp)
  have hstart : k.Beside ⟨⟨3, text, paired⟩, .empty rule, 0⟩
      ⟨⟨3, text ++ [0x29], paired⟩, GroupScope.enterDisjunction (.empty .unchecked), 0⟩ :=
    beside_start rfl rfl 0
  obtain ⟨u, hrun, hu⟩ := disjunction_done hstart h hend (show [0x29].head? ≠ some 0x7C by decide)
    fun q _ hdiffers => hdiffers.1 rfl
  -- the run ends in front of the closing sign
  have hcursor : u.cursor =
      ⟨3 + text.length, .ofCodePoints [.ofChar ')'] ++ ([] : Text), paired⟩ := by
    rw [hu.cursor, (disjunction_reaches h).eq_end hend]
    rfl
  have hopen : State.Reads ⟨⟨0, text.grouped, paired⟩, .empty .unchecked, 0⟩ ['(', '?', ':']
      ⟨⟨3, text ++ [0x29], paired⟩, .empty .unchecked, 0⟩ :=
    State.reads_of_plain rfl (List.append_assoc _ _ _)
  have hclose := State.reads_of_plain rfl (congrArg Cursor.ahead hcursor)
  have hstop : u.cursor.index + 1 = text.grouped.length := by
    rw [hcursor, Text.length_grouped]
    show 3 + text.length + 1 = text.length + 4
    omega
  have hgroup := disjunction_of_group hopen hrun hclose rfl
  rw [Span.between_whole hstop] at hgroup
  exact ⟨_, hgroup, rfl, hstop⟩

/-- A pass over a text between the signs of a group that captures nothing. -/
theorem pass_grouped {text : Text} {paired : Bool}
    (h : pass rule o flags named ⟨0, text, paired⟩ = .ok (p, scope))
    (hnil : p.beneath (o.maxDepth - 1) = []) :
    ∃ scope', pass .unchecked o flags named ⟨0, text.grouped, paired⟩ =
        .ok (ofGroup (.whole text.grouped) (Term.shiftAll 3 p.alternatives), scope') ∧
      scope'.isEmpty = scope.isEmpty := by
  have hshift : pass rule o flags named ⟨3, text, paired⟩ = .ok (p.shift 3, scope) := by
    have hmoves := pass_shift rule o flags 3 ⟨0, text, paired⟩ named
    rwa [h] at hmoves
  obtain ⟨qs, t, hqs, hend, hcaptures, hnames, hp⟩ := run_of_pass hshift
  obtain ⟨depth, hdepth⟩ := Nat.exists_eq_add_one_of_ne_zero (Nat.ne_of_gt o.maxDepth_pos)
  rw [hdepth, Nat.add_sub_cancel] at hnil
  have hlow : disjunction depth (grammarFor o flags named ⟨0, text, paired⟩)
      ⟨⟨3, text, paired⟩, .empty rule, 0⟩ = .done qs t :=
    (disjunction_lowered h hnil (by omega) 3).trans hqs
  obtain ⟨t', hrun, hend', hstop⟩ := disjunction_grouped hlow hend
  rw [← hdepth] at hrun
  have halternatives : Term.shiftAll 3 p.alternatives =
      Term.resolveAll (Piece.disjunction qs).indexesOf qs := congrArg Pattern.alternatives hp
  let group := ofGroup (.whole text.grouped) qs
  have hpass : pass .unchecked o flags named ⟨0, text.grouped, paired⟩ =
      .ok (resolve (Piece.disjunction group.alternatives).indexesOf
        ⟨.between ⟨0, text.grouped, paired⟩ t'.cursor, group.alternatives⟩, t'.scope) := by
    refine pass_of_run hrun hend' rfl ?_ ?_
    · rw [captures_ofGroup]
      exact hcaptures
    · rw [referredNames_ofGroup, indexesOf_ofGroup]
      exact hnames
  rw [Span.between_whole hstop, indexesOf_ofGroup] at hpass
  change pass .unchecked o flags named _ = .ok (group.resolve _, t'.scope) at hpass
  rw [resolve_ofGroup, ← halternatives] at hpass
  refine ⟨t'.scope, hpass, ?_⟩
  rw [isEmpty_of_pass hpass, isEmpty_of_pass hshift, hasNamedGroup_ofGroup]
  rfl

/-- A pattern between the signs of a group that captures nothing. If it is read in two passes, both
nest alike, so that one level is left in each; and the groups have the names that they have without
the signs, so that these are kept apart. -/
theorem readUnder_grouped {text : Text} {paired : Bool}
    (h : readUnder (duplicateRule o.edition) o flags ⟨0, text, paired⟩ = .ok p)
    (hdepth : (Node.pattern p).depth < o.maxDepth) :
    readUnder (duplicateRule o.edition) o flags ⟨0, text.grouped, paired⟩ =
      .ok (ofGroup (.whole text.grouped) (Term.shiftAll 3 p.alternatives)) := by
  have hnil : p.beneath (o.maxDepth - 1) = [] := by
    rw [beneath, Node.depth_le_iff.mp (Nat.le_sub_one_of_lt hdepth), List.map_nil]
  have hshift : readUnder (duplicateRule o.edition) o flags ⟨3, text, paired⟩ =
      .ok (p.shift 3) := by
    have hmoves := readUnder_shift (duplicateRule o.edition) o flags 3 ⟨0, text, paired⟩
    rwa [h] at hmoves
  refine readUnder_of_namesApart ?_ (namesApart_ofGroup (namesApart_of_readUnder hshift))
  obtain ⟨q, scope, hq, hp⟩ := readUnder_eq_ok.mp h
  rw [readUnder_eq_ok]
  split at hp
  · next hagain =>
    obtain ⟨scope', hp⟩ := hp
    simp only [Bool.and_eq_true, Bool.not_eq_true'] at hagain
    have hfirst : q.beneath (o.maxDepth - 1) = [] := by
      rw [← hnil]
      exact ((passes_alike hagain.1.1 hagain.1.2 (hagain.1.1 ▸ hq) hp).2 _).symm
    obtain ⟨scope₁, hq, hempty⟩ := pass_grouped hq hfirst
    obtain ⟨scope₂, hp, -⟩ := pass_grouped hp hnil
    refine ⟨_, scope₁, hq, ?_⟩
    rw [hempty, if_pos (by simp [hagain])]
    exact ⟨scope₂, hp⟩
  · next honce =>
    subst hp
    obtain ⟨scope₁, hq, hempty⟩ := pass_grouped hq hnil
    refine ⟨_, scope₁, hq, ?_⟩
    rw [hempty, if_neg honce]

end Pattern

/-- A group that captures nothing is transparent: if a pattern does not use up the nesting limit,
then the pattern between the signs of such a group is read as one term, the group, without
modifiers, and the alternatives in it are those of the pattern, three units further on and otherwise
unchanged. -/
theorem groups_are_transparent (o : Options) (choice : FlagChoice) (text : Text) (p : Pattern)
    (h : parsePattern o choice (.whole text) = .ok p)
    (hdepth : (Node.pattern p).depth < o.maxDepth) :
    parsePattern o choice (.whole text.grouped) =
      .ok (.ofGroup (.whole text.grouped) (Term.shiftAll 3 p.alternatives)) := by
  obtain ⟨flags, hflags, hread⟩ := parsePattern_eq_ok.mp h
  obtain ⟨hconflict, hread⟩ := Pattern.read_eq_ok.mp hread
  rw [Slice.cursor_whole] at hread
  refine parsePattern_eq_ok.mpr ⟨flags, hflags, Pattern.read_eq_ok.mpr ⟨hconflict, ?_⟩⟩
  rw [Slice.cursor_whole]
  exact Pattern.readUnder_grouped hread hdepth

/-- A name that stands twice and is referred to, so that the pattern is read twice, a reference to a
group that opens later, a brace that opens no bounds, and a backslash that stands for itself before
the closing sign. -/
theorem groups_are_transparent_with_names :
    ∃ (o : Options) (text : Text) (p : Pattern), o = ⟨.es2025, false, 3, by decide⟩ ∧
      text = .ofString "(?<n>a)\\k<n>\x7b|(?<n>])\\3([b])\\c" ∧
      parsePattern o (.set {}) (.whole text) = .ok p ∧ (Node.pattern p).depth < o.maxDepth ∧
      parsePattern o (.set {}) (.whole text.grouped) =
        .ok (.ofGroup (.whole text.grouped) (Term.shiftAll 3 p.alternatives)) := by
  obtain ⟨o, ho⟩ : ∃ o : Options, o = ⟨.es2025, false, 3, by decide⟩ := ⟨_, rfl⟩
  obtain ⟨text, htext⟩ : ∃ text : Text,
    text = .ofString "(?<n>a)\\k<n>\x7b|(?<n>])\\3([b])\\c" := ⟨_, rfl⟩
  have hany : (parsePattern o (.set {}) (.whole text)).toOption.any
      (fun p => decide ((Node.pattern p).depth < o.maxDepth)) = true := by
    rw [ho, htext]
    decide +kernel
  obtain ⟨p, hp, hdepth⟩ := Except.exists_eq_ok_of_any hany
  have hdepth := of_decide_eq_true hdepth
  exact ⟨o, text, p, ho, htext, hp, hdepth, groups_are_transparent o (.set {}) text p hp hdepth⟩

/-! ## Bars

The first pattern is read in a text that goes on, and the second at an offset and in a scope that
the first has left. Without captures the scope holds nothing, so it makes no difference. -/

def Text.barred (t u : Text) : Text := t ++ .ofString "|" ++ u

theorem Text.barred_eq (t u : Text) : t.barred u = t ++ 0x7C :: u := List.append_assoc t [0x7C] u

section Bars

variable {k : Extension} {depth : Nat}

/-- What is nested extends at any depth; by induction on the levels. -/
theorem nestedAt_extends (m m' : Cursor) :
    AlternativesExtend k (nestedAt depth m) (nestedAt depth m') := by
  cases depth with
  | zero => exact failAt_extends _ _ _
  | succ depth => exact disjunction_extends depth

/-- The sequences of alternatives that are read to the end of the text are read in the text that
goes on, one after the other, even if a bar comes next. -/
theorem sequences_extend (hsets : k.sets = k.left.sets) {s s' t : State} {qs : List Sequence}
    (hs : k.Beside (s.inScope GroupScope.enterDisjunction) s')
    (h : disjunction depth k.left s = .done qs t) (hend : t.cursor.current = none) :
    ∃ first rest u v, qs = first :: rest ∧
      sequence (charClass depth false) (nestedAt depth) k.right s' = .done first u ∧
      Chain (fun s q t => followingSequence (charClass depth false) (nestedAt depth) k.right s =
        .done q t) u rest v ∧
      v.cursor = t.cursor.extend k.rest ∧ v.opened = t.opened ∧ v.scope.rule = .unchecked := by
  obtain ⟨first, rest, u, v, hfirst, hrest, hqs⟩ := disjunction_eq_done.mp h
  obtain ⟨rfl, rfl⟩ := state_of_endOfAlternatives hqs
  have hchain := chain_of_many hrest
  have hdiffers : ∀ n, ¬ k.Differs n := fun n hn => hn.1 hsets
  -- no backslash is left at the end, so none was left before
  have hhangs : ¬ k.Hangs v := by
    rintro ⟨-, hslash⟩
    have hnil : v.cursor.ahead = [] := Cursor.current_eq_none.mp hend
    rw [hnil] at hslash
    cases hslash
  have hstays : ∀ {s qs t}, k.Hangs s → Chain (fun s q t =>
      followingSequence (charClass depth false) (nestedAt depth) k.left s = .done q t) s qs t →
        k.Hangs t := by
    intro s qs t hs hchain
    cases hchain with
    | nil => exact hs
    | cons head _ => exact absurd head (followingSequence_ne_done_of_ends (.inl hs))
  have hinside : ∀ m m', k.pairing.Marks m m' → AlternativesExtend k (nestedAt depth m) _ :=
    fun m m' _ => nestedAt_extends m m'
  rcases Extends.done (sequence_extends hinside) hs trivial hfirst with
    hlost | ⟨-, u', hfirst', hu⟩
  · exact absurd (hstays (hlost.resolve_right (hdiffers _)) hchain) hhangs
  -- the second run may go on with more alternatives, so the steps are compared one by one
  have hrun : ∀ {s s' qs t}, k.Beside s s' → Chain (fun s q t =>
      followingSequence (charClass depth false) (nestedAt depth) k.left s = .done q t) s qs t →
      k.Hangs t ∨ ∃ t', Chain (fun s q t =>
        followingSequence (charClass depth false) (nestedAt depth) k.right s = .done q t) s' qs t' ∧
          k.Beside t t' := by
    intro s s' qs t hs hsteps
    induction hsteps generalizing s' with
    | nil s => exact .inr ⟨s', .nil s', hs⟩
    | @cons s u t q qs head tail ih =>
      have hends : ¬ k.Ends s := fun hends => followingSequence_ne_done_of_ends hends head
      rcases Extends.done (followingSequence_extends hinside) hs hends head with
        hlost | ⟨-, u', head', hu⟩
      · exact .inl (hstays (hlost.resolve_right (hdiffers _)) tail)
      · exact (ih hu).imp_right fun ⟨t', tail', ht⟩ => ⟨t', .cons head' tail', ht⟩
  obtain ⟨v', hchain', hv⟩ := (hrun hu hchain).resolve_left hhangs
  exact ⟨first, rest, u', v', rfl, hfirst', hchain', hv.cursor, hv.opened, hv.rule⟩

/-- A run over two texts with a bar between them. In neither of them a group may be opened, since
the groups of the second would be numbered from there on. -/
theorem disjunction_barred {g : Grammar} {rule : DuplicateRule} {text text' : Text} {paired : Bool}
    {qs qs' : List Sequence} {t t' : State}
    (h : disjunction depth g ⟨⟨0, text, paired⟩, .empty rule, 0⟩ = .done qs t)
    (hend : t.cursor.current = none) (hopened : t.opened = 0)
    (h' : disjunction depth g ⟨⟨text.length + 1, text', paired⟩, .empty rule, 0⟩ = .done qs' t')
    (hend' : t'.cursor.current = none) :
    ∃ w, disjunction depth g ⟨⟨0, text.barred text', paired⟩, .empty .unchecked, 0⟩ =
        .done (qs ++ qs') w ∧
      w.cursor.current = none ∧ w.cursor.index = (text.barred text').length := by
  let k := goingOn g ⟨0, text, paired⟩ (0x7C :: text') (by simp)
  have hstart : k.Beside (State.inScope ⟨⟨0, text, paired⟩, .empty rule, 0⟩
      GroupScope.enterDisjunction) (State.inScope ⟨⟨0, text ++ 0x7C :: text', paired⟩,
        .empty .unchecked, 0⟩ GroupScope.enterDisjunction) := beside_start rfl rfl 0
  obtain ⟨first, rest, u, v, rfl, hfirst, hrest, hv, hvopened, hvrule⟩ :=
    sequences_extend (k := k) rfl hstart h hend
  -- the run over the first text ends in front of the bar
  have hcursor : v.cursor = ⟨text.length, .ofCodePoints [.ofChar '|'] ++ text', paired⟩ := by
    rw [hv, (disjunction_reaches h).eq_end hend]
    show (⟨0 + text.length, _, paired⟩ : Cursor) = _
    rw [Nat.zero_add]
    rfl
  have hbar : v.Reads ['|'] ⟨⟨text.length + 1, text', paired⟩, v.scope, v.opened⟩ := by
    have hreads := State.reads_of_plain (s := v) rfl (congrArg Cursor.ahead hcursor)
    rwa [hcursor] at hreads
  let k' := goingOn g ⟨text.length + 1, text', paired⟩ [] (fun _ hu => by cases hu)
  have hstart' : k'.Beside (State.inScope ⟨⟨text.length + 1, text', paired⟩, .empty rule, 0⟩
      GroupScope.enterDisjunction)
      ⟨⟨text.length + 1, text', paired⟩, v.scope.followingAlternative, v.opened⟩ :=
    ⟨(Cursor.extend_nil _).symm, rfl, hvopened.trans hopened,
      (v.scope.rule_followingAlternative).trans hvrule⟩
  obtain ⟨first', rest', u', v', rfl, hfirst', hrest', hv', -⟩ :=
    sequences_extend (k := k') rfl hstart' h' hend'
  have hfollowing : followingSequence (charClass depth false) (nestedAt depth) g v =
      .done first' u' := eat_bind_eq_done.mpr ⟨_, hbar, hfirst'⟩
  have hcursor' : v'.cursor = ⟨text.length + 1 + text'.length, [], paired⟩ := by
    rw [hv', (disjunction_reaches h').eq_end hend']
    rfl
  have hnone : v'.cursor.current = none := by
    rw [hcursor']
    rfl
  have hmany : many (followingSequence (charClass depth false) (nestedAt depth)) g u =
      .done (rest ++ first' :: rest') v' := by
    refine (many_eq_done (progresses_followingSequence (progresses_term g))).mpr
      ⟨hrest.append (.cons hfollowing hrest'), bind_of_miss (eat_eq_miss.mpr ?_)⟩
    rw [hnone]
    exact (Option.some_ne_none _).symm
  have hstray := noStrayQuantifier_of_closes (g := g) (.inl hnone)
  refine ⟨v'.inScope GroupScope.leaveDisjunction, ?_, hnone, ?_⟩
  · refine disjunction_eq_done.mpr ⟨first, _, u, v', text.barred_eq text' ▸ hfirst, hmany, ?_⟩
    exact bind_of_done hstray
  · rw [Text.barred_eq, List.length_append, List.length_cons]
    show v'.cursor.index = _
    rw [hcursor']
    show text.length + 1 + text'.length = _
    omega

end Bars

/-- A tree without a capturing group has no groups. -/
theorem Node.captures_eq_nil {n : Node} (h : ∀ m ∈ n.descendants, m.kind ≠ .capturingGroup) :
    n.captures = [] := by
  refine List.filterMap_eq_nil_iff.mpr fun m hm => ?_
  unfold capture?
  split
  · exact absurd rfl (h _ hm)
  · rfl

theorem Piece.captures_disjunction_append (qs qs' : List Sequence) :
    (disjunction (qs ++ qs')).captures =
      (disjunction qs).captures ++ (disjunction qs').captures := by
  simp [captures, nodes]

theorem Term.referredNamesOfAll_append (qs qs' : List Sequence) :
    referredNamesOfAll (qs ++ qs') = referredNamesOfAll qs ++ referredNamesOfAll qs' := by
  induction qs with
  | nil => simp [referredNamesOfAll]
  | cons q qs ih => simp [referredNamesOfAll, ih]

namespace Pattern

variable {rule : DuplicateRule} {o : Options} {flags : FlagSet} {named : Bool} {c : Cursor}
  {p q : Pattern} {scope scope' : GroupScope}

/-- A pass that finds no group finds no reference by name either, so its tree is what was read. -/
theorem run_of_captures_nil (h : pass rule o flags named c = .ok (p, scope))
    (hp : (Node.pattern p).captures = []) :
    ∃ t, disjunction o.maxDepth (grammarFor o flags named c) ⟨c, .empty rule, 0⟩ =
        .done p.alternatives t ∧
      t.cursor.current = none ∧ t.opened = 0 ∧ (grammarFor o flags named c).captures = 0 ∧
      Term.referredNamesOfAll p.alternatives = [] := by
  obtain ⟨qs, t, hqs, hend, hcaptures, hnames, rfl⟩ := run_of_pass h
  rw [captures_resolve] at hp
  have hnone : Term.referredNamesOfAll qs = [] := by
    refine List.eq_nil_iff_forall_not_mem.mpr fun name hname => hnames name hname ?_
    rw [Piece.indexesOf, hp]
    rfl
  have hopened := (disjunction_derives hqs).captures_numbered.opened
  rw [hp] at hopened hcaptures
  have halternatives : Term.resolveAll (Piece.disjunction qs).indexesOf qs = qs :=
    Term.resolveAll_eq_self _ qs hnone
  rw [resolve, halternatives]
  exact ⟨t, hqs, hend, hopened, hcaptures, hnone⟩

/-- The alternatives of two patterns, which stand in two texts with a bar between them. -/
def barred (text text' : Text) (p q : Pattern) : Pattern :=
  ⟨.whole (text.barred text'), p.alternatives ++ Term.shiftAll (text.length + 1) q.alternatives⟩

/-- A pass over two texts with a bar between them. -/
theorem pass_barred {text text' : Text} {paired : Bool}
    (h : pass rule o flags named ⟨0, text, paired⟩ = .ok (p, scope))
    (hp : (Node.pattern p).captures = [])
    (h' : pass rule o flags named ⟨0, text', paired⟩ = .ok (q, scope'))
    (hq : (Node.pattern q).captures = []) :
    ∃ scope'', pass .unchecked o flags named ⟨0, text.barred text', paired⟩ =
        .ok (barred text text' p q, scope'') ∧
      (Node.pattern (barred text text' p q)).captures = [] := by
  obtain ⟨t, hrun, hend, hopened, hcaptures, hnames⟩ := run_of_captures_nil h hp
  obtain ⟨t', hrun', hend', -, hcaptures', hnames'⟩ := run_of_captures_nil h' hq
  -- where no groups are counted, the two grammars are one
  have hgrammar : grammarFor o flags named ⟨0, text', paired⟩ =
      grammarFor o flags named ⟨0, text, paired⟩ :=
    congrArg (fun n => { grammarFor o flags named ⟨0, text, paired⟩ with captures := n })
      (hcaptures'.trans hcaptures.symm)
  have hmoved : disjunction o.maxDepth (grammarFor o flags named ⟨0, text, paired⟩)
      ⟨⟨text.length + 1, text', paired⟩, .empty rule, 0⟩ =
        .done (Term.shiftAll (text.length + 1) q.alternatives) (t'.shift (text.length + 1)) := by
    have hmoves := disjunction_moves (k := text.length + 1) o.maxDepth
      (grammarFor o flags named ⟨0, text', paired⟩) ⟨⟨0, text', paired⟩, .empty rule, 0⟩
    rw [hrun', hgrammar] at hmoves
    exact hmoves
  obtain ⟨w, hw, hwend, hstop⟩ := disjunction_barred hrun hend hopened hmoved hend'
  let qs := p.alternatives ++ Term.shiftAll (text.length + 1) q.alternatives
  have hgroups : (Piece.disjunction qs).captures = [] := by
    have hcount := (disjunction_derives hmoved).countCaptures_eq hend'
    have hzero : (Piece.disjunction _).captures.length = 0 := hcount.symm.trans hcaptures'
    rw [Piece.captures_disjunction_append, ← Node.captures_pattern p, hp,
      List.eq_nil_of_length_eq_zero hzero]
    rfl
  have hnone : Term.referredNamesOfAll qs = [] := by
    rw [Term.referredNamesOfAll_append, Term.referredNamesOfAll_shift, hnames, hnames']
    rfl
  have hpass : pass .unchecked o flags named ⟨0, text.barred text', paired⟩ =
      .ok (resolve (Piece.disjunction qs).indexesOf
        ⟨.between ⟨0, text.barred text', paired⟩ w.cursor, qs⟩, w.scope) := by
    refine pass_of_run hw hwend rfl ?_ ?_
    · rw [hgroups]
      exact hcaptures
    · rw [hnone]
      nofun
  rw [resolve, Term.resolveAll_eq_self _ qs hnone, Span.between_whole hstop] at hpass
  exact ⟨w.scope, hpass, (Node.captures_pattern _).trans hgroups⟩

/-- A pattern without groups is read in one pass. -/
theorem pass_of_captures_nil (h : readUnder rule o flags c = .ok p)
    (hp : (Node.pattern p).captures = []) :
    ∃ scope, pass rule o flags (alwaysNamedReferences o flags) c = .ok (p, scope) := by
  obtain ⟨q, scope, hq, h⟩ := readUnder_eq_ok.mp h
  split at h
  · next hagain =>
    obtain ⟨scope', h⟩ := h
    simp only [Bool.and_eq_true, Bool.not_eq_true'] at hagain
    have hempty : scope'.isEmpty = true := by
      rw [isEmpty_of_pass h, hasNamedGroup, hp]
      rfl
    rw [(passes_alike hagain.1.1 hagain.1.2 (hagain.1.1 ▸ hq) h).1, hagain.2] at hempty
    cases hempty
  · subst h
    exact ⟨scope, hq⟩

/-- A text in front of a bar is read as before, if it has no groups that the text behind could refer
to. -/
theorem readUnder_barred {text text' : Text} {paired : Bool}
    (h : readUnder (duplicateRule o.edition) o flags ⟨0, text, paired⟩ = .ok p)
    (hp : (Node.pattern p).captures = [])
    (h' : readUnder (duplicateRule o.edition) o flags ⟨0, text', paired⟩ = .ok q)
    (hq : (Node.pattern q).captures = []) :
    readUnder (duplicateRule o.edition) o flags ⟨0, text.barred text', paired⟩ =
      .ok (barred text text' p q) := by
  obtain ⟨scope, hpass⟩ := pass_of_captures_nil h hp
  obtain ⟨scope', hpass'⟩ := pass_of_captures_nil h' hq
  obtain ⟨scope'', hjoined, hnone⟩ := pass_barred hpass hp hpass' hq
  refine readUnder_of_namesApart ?_ ?_
  · rw [readUnder_of_pass_ok hjoined, isEmpty_of_pass hjoined, hasNamedGroup, hnone]
    simp
  · intro c hc
    rw [hnone] at hc
    cases hc

end Pattern

/-- Alternation is compositional: if no group of two patterns captures, then the patterns with a bar
between them are read as the alternatives of the first, followed by those of the second, which stand
further on by the length of the first and the bar. -/
theorem bars_join_alternatives (o : Options) (choice : FlagChoice) (text text' : Text)
    (p q : Pattern) (hp : parsePattern o choice (.whole text) = .ok p)
    (hq : parsePattern o choice (.whole text') = .ok q)
    (hpnone : ∀ n ∈ (Node.pattern p).descendants, n.kind ≠ .capturingGroup)
    (hqnone : ∀ n ∈ (Node.pattern q).descendants, n.kind ≠ .capturingGroup) :
    parsePattern o choice (.whole (text.barred text')) =
      .ok ⟨.whole (text.barred text'),
        p.alternatives ++ Term.shiftAll (text.length + 1) q.alternatives⟩ := by
  obtain ⟨flags, hflags, hpread⟩ := parsePattern_eq_ok.mp hp
  obtain ⟨flags', hflags', hqread⟩ := parsePattern_eq_ok.mp hq
  obtain rfl : flags = flags' := Except.ok.inj (hflags.symm.trans hflags')
  obtain ⟨hconflict, hpread⟩ := Pattern.read_eq_ok.mp hpread
  obtain ⟨-, hqread⟩ := Pattern.read_eq_ok.mp hqread
  rw [Slice.cursor_whole] at hpread hqread
  refine parsePattern_eq_ok.mpr ⟨flags, hflags, Pattern.read_eq_ok.mpr ⟨hconflict, ?_⟩⟩
  rw [Slice.cursor_whole]
  exact Pattern.readUnder_barred hpread (Node.captures_eq_nil hpnone) hqread
    (Node.captures_eq_nil hqnone)

/-- A brace and a backslash that stand for themselves before the bar, and after it what would be
bounds behind the brace, an escape that no group makes a reference, and text that no name makes
one. -/
theorem bars_join_alternatives_in_web_grammar :
    ∃ (o : Options) (text text' : Text) (p q : Pattern), o = .ofEdition .es2025 false ∧
      text = .ofString "[|]\x7b\\c" ∧ text' = .ofString "1,2\x7d(?=\\1)*|\\k<n>" ∧
      parsePattern o (.set {}) (.whole text) = .ok p ∧
      parsePattern o (.set {}) (.whole text') = .ok q ∧
      (∀ n ∈ (Node.pattern p).descendants, n.kind ≠ .capturingGroup) ∧
      (∀ n ∈ (Node.pattern q).descendants, n.kind ≠ .capturingGroup) ∧
      parsePattern o (.set {}) (.whole (text.barred text')) =
        .ok ⟨.whole (text.barred text'),
          p.alternatives ++ Term.shiftAll (text.length + 1) q.alternatives⟩ := by
  obtain ⟨o, ho⟩ : ∃ o : Options, o = .ofEdition .es2025 false := ⟨_, rfl⟩
  have hone : ∀ text ∈ [Text.ofString "[|]\x7b\\c", .ofString "1,2\x7d(?=\\1)*|\\k<n>"],
      ∃ p, parsePattern o (.set {}) (.whole text) = .ok p ∧
        ∀ n ∈ (Node.pattern p).descendants, n.kind ≠ .capturingGroup := by
    intro text htext
    have hany : (parsePattern o (.set {}) (.whole text)).toOption.any (fun p =>
        (Node.pattern p).descendants.all fun n => n.kind ≠ .capturingGroup) = true := by
      rw [ho]
      revert text
      decide +kernel
    obtain ⟨p, hp, htest⟩ := Except.exists_eq_ok_of_any hany
    exact ⟨p, hp, fun n hn => of_decide_eq_true (List.all_eq_true.mp htest n hn)⟩
  obtain ⟨p, hp, hpnone⟩ := hone _ List.mem_cons_self
  obtain ⟨q, hq, hqnone⟩ := hone _ (List.mem_cons_of_mem _ List.mem_cons_self)
  exact ⟨o, _, _, p, q, ho, rfl, rfl, hp, hq, hpnone, hqnone,
    bars_join_alternatives o (.set {}) _ _ p q hp hq hpnone hqnone⟩

end EcmaPattern
