import EcmaPattern.Proofs.Agreement.Terms

/-!
# Trees without references by name

Two grammars that differ in whether `\k` is a named reference read the same as long as no name is
referred to (`disjunction_keeps`). `Keeps k names p` says so of a parser, given the names that a
value of its type refers to; like agreement, it is closed under the combinators.

The names that a value refers to are given by a function, so that the statement for a list of terms
is about the names of its members. A parser that agrees outright keeps everything (`Agrees.keeps`),
and what is left are the parsers in which a reference may stand.
-/

namespace EcmaPattern

/-- Where `\k` is no named reference, no name is referred to. -/
theorem Derives.referredNames_eq_nil {g : Grammar} (hg : g.namedReferences = false) {s t : State}
    {x : Piece} (h : Derives g s x t) : x.referredNames = [] := by
  induction h with
  | named hN => rw [hg] at hN; cases hN
  | _ => simp_all [Piece.referredNames, Term.referredNames, Term.referredNamesOfTerms,
      Term.referredNamesOfSequence, Term.referredNamesOfAll]

namespace Parser

/-! ## What is read without referring to names

If the first grammar's value refers to no name, the second grammar reads the same value; and where
the first one misses, the second one does. The second half is what choices and repetitions need.
Behind alternatives there is always something left to do that reads nothing (`endOfAlternatives`),
which is split off so that it can be shown never to miss. -/

/-- What the parser reads under the first grammar without referring to a name, it reads under the
second, and where it misses under the first, it misses under the second. -/
structure Keeps {α : Type} (k : Comparison) (names : α → List GroupName) (p : Parser α) : Prop where
  done : ∀ {s : State} {a : α} {t : State}, p k.left s = .done a t → names a = [] →
    p k.right (k.across s) = .done a (k.across t)
  miss : ∀ {s : State}, p k.left s = .miss → p k.right (k.across s) = .miss

variable {α β : Type} {k : Comparison} {names : α → List GroupName} {names' : β → List GroupName}
  {p q : Parser α} {f : α → Parser β}

/-- What agrees reads the same, with references or without. -/
theorem Agrees.keeps (h : Agrees k p) : Keeps k names p :=
  ⟨fun ha _ => (h _).done ha, fun hs => (h _).miss hs⟩

namespace Keeps

/-- What follows must not lose the names and, if there are names to lose, must not miss. -/
theorem bind (hp : Keeps k names p) (hf : ∀ a, Keeps k names' (f a))
    (hnames : ∀ {a s b t}, f a k.left s = .done b t → names' b = [] → names a = [])
    (hmiss : ∀ a, names a = [] ∨ NeverMisses (f a)) : Keeps k names' (p >>= f) := by
  constructor
  · intro s b t h hb
    obtain ⟨a, u, ha, h⟩ := bind_eq_done.mp h
    rw [bind_of_done (hp.done ha (hnames h hb))]
    exact (hf a).done h hb
  · intro s h
    rcases bind_eq_miss.mp h with h | ⟨a, u, ha, h⟩
    · exact bind_of_miss (hp.miss h)
    · rcases hmiss a with hnil | hnever
      · rw [bind_of_done (hp.done ha hnil)]
        exact (hf a).miss h
      · exact absurd h (hnever _ _)

/-- What follows a parser that agrees decides which names are referred to. -/
theorem agrees_bind (hp : Agrees k p) (hf : ∀ a, Keeps k names' (f a)) :
    Keeps k names' (p >>= f) := by
  constructor
  · intro s b t h hb
    obtain ⟨a, u, ha, h⟩ := bind_eq_done.mp h
    rw [bind_of_done ((hp s).done ha)]
    exact (hf a).done h hb
  · intro s h
    rcases bind_eq_miss.mp h with h | ⟨a, u, ha, h⟩
    · exact bind_of_miss ((hp s).miss h)
    · rw [bind_of_done ((hp s).done ha)]
      exact (hf a).miss h

theorem orElse (hp : Keeps k names p) (hq : Keeps k names q) : Keeps k names (p <|> q) := by
  constructor
  · intro s a t h ha
    rcases orElse_eq_done.mp h with h | ⟨hmiss, h⟩
    · exact orElse_of_done (hp.done h ha)
    · rw [orElse_of_miss (hp.miss hmiss)]
      exact hq.done h ha
  · intro s h
    obtain ⟨hmiss, h⟩ := orElse_eq_miss.mp h
    rw [orElse_of_miss (hp.miss hmiss)]
    exact hq.miss h

theorem attempt (hp : Keeps k names p) :
    Keeps k (fun o : Option α => o.elim [] names) (attempt p) := by
  constructor
  · intro s o t h ho
    rcases attempt_eq_done.mp h with ⟨a, rfl, ha⟩ | ⟨rfl, ha, rfl⟩
    · exact attempt_of_done (hp.done ha ho)
    · exact attempt_of_miss (hp.miss ha)
  · intro s h
    exact absurd h attempt_ne_miss

theorem map {f : α → β} (hp : Keeps k names p) (hf : ∀ a, names' (f a) = [] → names a = []) :
    Keeps k names' (f <$> p) := by
  constructor
  · intro s b t h hb
    obtain ⟨a, ha, rfl⟩ := map_eq_done.mp h
    exact map_eq_done.mpr ⟨a, hp.done ha (hf a hb), rfl⟩
  · intro s h
    exact map_eq_miss.mpr (hp.miss (map_eq_miss.mp h))

theorem grammar_bind {f : Grammar → Parser α} (heq : f k.right = f k.left)
    (hf : Keeps k names (f k.left)) : Keeps k names (grammar >>= f) := by
  constructor
  · intro s a t h ha
    rw [Parser.grammar_bind, heq]
    exact hf.done h ha
  · intro s h
    rw [Parser.grammar_bind, heq]
    exact hf.miss h

/-- A repetition refers to what its runs refer to, and nothing is referred to only if no run refers
to anything. -/
theorem upTo (hp : Keeps k names p) (count : Nat) :
    Keeps k (List.flatMap names) (upTo p count) := by
  induction count with
  | zero => exact (pure_agrees []).keeps
  | succ count ih =>
    rw [upTo_succ_eq]
    refine hp.attempt.bind ?_ ?_ ?_
    · intro o
      cases o with
      | some a => exact ih.map fun as h => (List.append_eq_nil_iff.mp h).2
      | none => exact (pure_agrees []).keeps
    · intro o s as t h has
      cases o with
      | some a =>
        obtain ⟨rest, -, rfl⟩ := map_eq_done.mp h
        exact (List.append_eq_nil_iff.mp has).1
      | none => rfl
    · intro o
      cases o with
      | some a =>
        refine .inr fun g s h => ?_
        exact neverMisses_upTo p count g s (map_eq_miss.mp h)
      | none => exact .inl rfl

theorem many (hp : Keeps k names p) : Keeps k (List.flatMap names) (many p) :=
  ⟨fun h has => (hp.upTo _).done h has, fun h => absurd h (neverMisses_many p _ _)⟩

end Keeps

section Terms

variable {inside : Nested} (hedition : k.right.edition = k.left.edition)
  (hnames : k.right.namedReferences = false)
  (hinside : ∀ mark, Keeps k Term.referredNamesOfAll (inside mark))

include hedition in
theorem setEscape_agrees (mark : Cursor) : Agrees k (setEscape mark) :=
  .orElse ((select_agrees _).bind fun _ => (spanFrom_agrees mark).bind fun _ => pure_agrees _)
    (propertyEscape_agrees mark (by rw [hedition]))

include hnames in
/-- The second grammar has no references by name to offer. -/
theorem namedReference_keeps (mark : Cursor) :
    Keeps k Term.referredNames (namedReference mark) := by
  constructor
  · intro s e t h he
    obtain ⟨cs, name, -, -, -, rfl⟩ := namedReference_eq_done h
    simp [Term.referredNames] at he
  · intro s _
    rw [namedReference, Parser.grammar_bind, hnames]
    rfl

include hedition hnames in
/-- A term behind a backslash is the same under both grammars, unless it refers to a name. -/
theorem escapedAtom_keeps : Keeps k Term.referredNames escapedAtom := by
  refine .agrees_bind here_agrees fun mark => .agrees_bind (eat_agrees _) fun _ => ?_
  have hset := (setEscape_agrees hedition mark).map (f := Term.set)
  exact (numberedReference_agrees mark).keeps.orElse (hset.keeps.orElse
    ((characterEscape_agrees mark).map.keeps.orElse ((namedReference_keeps hnames mark).orElse
      (exact_fail_agrees _).keeps)))

/-- A term is repeated with the names that it refers to. -/
theorem quantified_referredNames {g : Grammar} {mark : Cursor} {e e' : Term} {s t : State}
    (h : quantified mark e g s = .done e' t) : e'.referredNames = e.referredNames := by
  obtain ⟨o, u, -, h⟩ := bind_eq_done.mp h
  cases o with
  | some r =>
    obtain ⟨span, v, -, h⟩ := bind_eq_done.mp h
    obtain ⟨rfl, -⟩ := pure_eq_done.mp h
    simp [Term.referredNames]
  | none =>
    obtain ⟨rfl, -⟩ := pure_eq_done.mp h
    rfl

theorem neverMisses_quantified (mark : Cursor) (e : Term) : NeverMisses (quantified mark e) := by
  refine NeverMisses.bind (fun _ _ => attempt_ne_miss) fun o => ?_
  cases o with
  | some r => exact (neverMisses_spanFrom mark).bind fun _ => neverMisses_pure _
  | none => exact neverMisses_pure e

include hinside in
/-- What is inside a construct keeps its names, up to the parenthesis that closes it. -/
theorem enclosed_keeps (make : Span → List Sequence → Term)
    (hmake : ∀ span qs, (make span qs).referredNames = Term.referredNamesOfAll qs) (mark : Cursor) :
    Keeps k Term.referredNames (do
      let qs ← inside mark
      closeGroup
      return make (← spanFrom mark) qs : Parser Term) := by
  refine (hinside mark).bind (fun qs => ?_) ?_ fun qs => .inr ?_
  · exact Agrees.keeps (closeGroup_agrees.bind fun _ => (spanFrom_agrees mark).bind fun _ =>
      pure_agrees _)
  · intro qs s e t h he
    obtain ⟨_, u, -, h⟩ := bind_eq_done.mp h
    rw [spanFrom_bind] at h
    obtain ⟨rfl, -⟩ := pure_eq_done.mp h
    rwa [hmake] at he
  · exact NeverMisses.bind (.orElse _ fun _ _ => fail_ne_miss) fun _ =>
      (neverMisses_spanFrom mark).bind fun _ => neverMisses_pure _

include hedition hinside in
/-- A lookaround is the same under both grammars, unless something in it refers to a name. -/
theorem assertion_keeps : Keeps k Term.referredNames (assertion inside) := by
  have hopening : Agrees k lookOpening := fun s => lookOpening_agreesAt (.inl (by rw [hedition]))
  have hlook : Keeps k Term.referredNames (lookaround inside) := by
    refine .agrees_bind here_agrees fun mark => .agrees_bind hopening fun (direction, negated) => ?_
    exact enclosed_keeps hinside (fun span qs => .look span direction negated qs)
      (fun _ _ => by simp [Term.referredNames]) mark
  exact edgeAssertion_agrees.keeps.orElse (wordBoundary_agrees.keeps.orElse hlook)

section Groups

variable (hscope : k.scope = id)

include hinside hscope

theorem capturingGroup_keeps (mark : Cursor) (name : Option GroupName) :
    Keeps k Term.referredNames (capturingGroup inside mark name) :=
  .agrees_bind (openCapture_agrees (.of_id hscope) name) fun index =>
    enclosed_keeps hinside (fun span qs => .capture span index name qs)
      (fun _ _ => by simp [Term.referredNames]) mark

omit hscope in
theorem plainGroup_keeps (mark : Cursor) (m : Option Modifiers) :
    Keeps k Term.referredNames (plainGroup inside mark m) :=
  enclosed_keeps hinside (fun span qs => .group span m qs)
    (fun _ _ => by simp [Term.referredNames]) mark

theorem namedGroup_keeps (mark : Cursor) : Keeps k Term.referredNames (namedGroup inside mark) := by
  have hconflicts (name : GroupName) : Agrees k (conflicts name) :=
    conflicts_agrees fun scope => by
      rw [hscope]
      rfl
  refine .agrees_bind groupName_agrees fun name => .agrees_bind (hconflicts name) fun conflict => ?_
  cases conflict with
  | true => exact (fail_agrees _).keeps
  | false => exact capturingGroup_keeps hinside hscope mark _

omit hscope in
include hedition in
theorem modifiedGroup_keeps (mark : Cursor) :
    Keeps k Term.referredNames (modifiedGroup inside mark) := by
  have hopening : Agrees k (do
      require (← supports .modifiers)
      let m ← modifiers
      eat ':'
      return m : Parser Modifiers) :=
    .supports_bind (by rw [hedition]) ((require_agrees _).bind fun _ => modifiers_agrees.bind
      fun _ => (eat_agrees _).bind fun _ => pure_agrees _)
  refine .agrees_bind hopening.attempt fun o => ?_
  cases o with
  | some m => exact plainGroup_keeps hinside mark _
  | none => exact (failAt_agrees _ _).keeps

include hedition in
/-- A group is the same under both grammars, unless something in it refers to a name. -/
theorem group_keeps : Keeps k Term.referredNames (group inside) := by
  refine .agrees_bind here_agrees fun mark => .agrees_bind (eat_agrees _) fun _ =>
    .agrees_bind (eats_agrees _) fun question => ?_
  cases question with
  | false => exact capturingGroup_keeps hinside hscope mark none
  | true =>
    refine .agrees_bind (eats_agrees _) fun colon => ?_
    cases colon with
    | true => exact plainGroup_keeps hinside mark none
    | false =>
      refine .agrees_bind (supports_agrees (by rw [hedition])) fun named =>
        .agrees_bind (sees_agrees _ _) fun bracket => ?_
      split
      · exact namedGroup_keeps hinside hscope mark
      · exact modifiedGroup_keeps hedition hinside mark

end Groups

/-- What is left to do once all alternatives have been read. -/
def endOfAlternatives (qs : List Sequence) : Parser (List Sequence) := do
  noStrayQuantifier
  modifyScope GroupScope.leaveDisjunction
  return qs

theorem endOfAlternatives_agrees (hscopes : k.MapsScopes) (qs : List Sequence) :
    Agrees k (endOfAlternatives qs) :=
  noStrayQuantifier_agrees.bind fun _ => (modifyScope_agrees hscopes.leaveDisjunction).bind
    fun _ => pure_agrees qs

theorem neverMisses_endOfAlternatives (qs : List Sequence) : NeverMisses (endOfAlternatives qs) :=
  noStrayQuantifier_neverMisses.bind fun _ => (neverMisses_modifyScope _).bind fun _ =>
    neverMisses_pure qs

/-- What is left to do behind alternatives does not change them. -/
theorem endOfAlternatives_eq_done {g : Grammar} {qs qs' : List Sequence} {s t : State}
    (h : endOfAlternatives qs g s = .done qs' t) : qs' = qs := by
  obtain ⟨_, u, -, h⟩ := bind_eq_done.mp h
  obtain ⟨_, v, -, h⟩ := bind_eq_done.mp h
  exact (pure_eq_done.mp h).1.symm

section Classes

variable {cls : Parser CharSet} (hcls : Agrees k cls) (hexact : k.left.exact = true)
  (hscope : k.scope = id)

include hedition hnames hinside hcls hexact hscope

omit hexact in
theorem atom_keeps : Keeps k Term.referredNames (atom cls inside) :=
  anyCharacter_agrees.keeps.orElse ((escapedAtom_keeps hedition hnames).orElse
    (hcls.map.keeps.orElse ((group_keeps hedition hinside hscope).orElse
      (plainCharacter_agrees _).keeps)))

/-- A term is the same under both grammars, unless something in it refers to a name. -/
theorem term_keeps : Keeps k Term.referredNames (term cls inside) := by
  refine .agrees_bind here_agrees fun mark => .grammar_bind (by rw [k.exact]) ?_
  -- first the agreement itself, then the names of a first part that is done, then what may miss
  refine (assertion_keeps hedition hinside).attempt.bind ?_ ?_ ?_
  · intro o
    cases o with
    | some e =>
      dsimp only
      split
      · exact (quantified_agrees _ _).keeps
      · exact (pure_agrees _).keeps
    | none =>
      rw [hexact]
      refine (atom_keeps hedition hnames hinside hcls hscope).bind
        (fun e => (quantified_agrees mark e).keeps) ?_ fun e => .inr (neverMisses_quantified mark e)
      intro e s e' t h he'
      rwa [quantified_referredNames h] at he'
  · intro o s e' t h he'
    cases o with
    | some e =>
      dsimp only at h
      split at h
      · rwa [quantified_referredNames h] at he'
      · obtain ⟨rfl, -⟩ := pure_eq_done.mp h
        exact he'
    | none => rfl
  · intro o
    cases o with
    | some e =>
      right
      dsimp only
      split
      · exact neverMisses_quantified mark e
      · exact neverMisses_pure e
    | none => exact .inl rfl

theorem sequence_keeps : Keeps k Term.referredNamesOfSequence (sequence cls inside) := by
  have hterms := (term_keeps hedition hnames hinside hcls hexact hscope).many
  refine .agrees_bind here_agrees fun mark => hterms.bind (fun es => ?_) ?_ fun es => .inr ?_
  · exact Agrees.keeps ((spanFrom_agrees mark).bind fun _ => pure_agrees _)
  · intro es s q t h hq
    rw [spanFrom_bind] at h
    obtain ⟨rfl, -⟩ := pure_eq_done.mp h
    rwa [Term.referredNamesOfSequence, Term.referredNamesOfTerms_eq_flatMap] at hq
  · exact (neverMisses_spanFrom mark).bind fun _ => neverMisses_pure _

/-- Alternatives are the same under both grammars, unless something in them refers to a name. -/
theorem alternatives_keeps : Keeps k Term.referredNamesOfAll (alternatives cls inside) := by
  have hscopes : k.MapsScopes := .of_id hscope
  have hsequence := sequence_keeps hedition hnames hinside hcls hexact hscope
  have hfollowing : Keeps k Term.referredNamesOfSequence (followingSequence cls inside) :=
    .agrees_bind (eat_agrees _) fun _ => .agrees_bind (modifyScope_agrees
      hscopes.followingAlternative) fun _ => hsequence
  refine .agrees_bind (modifyScope_agrees hscopes.enterDisjunction) fun _ =>
    hsequence.bind (fun first => ?_) ?_
      fun first => .inr ((neverMisses_many _).bind fun rest => neverMisses_endOfAlternatives _)
  · refine hfollowing.many.bind
      (fun rest => (endOfAlternatives_agrees hscopes (first :: rest)).keeps) ?_
      fun rest => .inr (neverMisses_endOfAlternatives _)
    intro rest s qs t h hqs
    rw [endOfAlternatives_eq_done h, Term.referredNamesOfAll_eq_flatMap] at hqs
    exact (List.append_eq_nil_iff.mp hqs).2
  · intro first s qs t h hqs
    obtain ⟨rest, u, -, h⟩ := bind_eq_done.mp h
    rw [endOfAlternatives_eq_done h, Term.referredNamesOfAll_eq_flatMap] at hqs
    exact (List.append_eq_nil_iff.mp hqs).1

end Classes

end Terms

/-- A disjunction is the same under both grammars, unless something in it refers to a name; by
induction on the levels that are left. -/
theorem disjunction_keeps (hedition : k.right.edition = k.left.edition)
    (hnames : k.right.namedReferences = false) (hexact : k.left.exact = true)
    (hscope : k.scope = id) (depth : Nat) :
    Keeps k Term.referredNamesOfAll (disjunction depth) := by
  induction depth with
  | zero =>
    exact alternatives_keeps hedition hnames (fun mark => (failAt_agrees _ _).keeps)
      (charClass_agrees 0 false) hexact hscope
  | succ depth ih =>
    exact alternatives_keeps hedition hnames (fun _ => ih) (charClass_agrees (depth + 1) false)
      hexact hscope

end Parser

end EcmaPattern
