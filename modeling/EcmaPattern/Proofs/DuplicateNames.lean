import EcmaPattern.Proofs.Agreement.References
import EcmaPattern.Proofs.GroupPlaces

/-!
# Parsers that check for names that stand twice

A parser is run beside one that lets names stand twice anywhere. `ChecksAt` says that the two do the
same, and that the rule admits the names that are given; or else the first finds that a name stands
twice, and the rule does not admit the names that the second gives. This is closed under the
combinators. Most parsers neither look at the scope of names nor change it (`IgnoresScope`), so
there is something to show only for groups and for alternatives (`disjunction_checks`).

Key lemmas:

* `IgnoresScope.checks`, by which parsers that do not concern groups need no lemma of their own;
* `admitted_declare_iff`, that declaring a group adds a condition on that group only;
* `disjunction_checks`, by induction on the levels that are left.
-/

namespace EcmaPattern

/-! ## Scopes

To be admitted is to have no two declarations that conflict under the rule. A scope only grows, so a
conflict stays one, and that is why the first parser may break off early. -/

namespace GroupScope

variable {scope scope' scope'' : GroupScope} {name : GroupName}

def unchecked (scope : GroupScope) : GroupScope := scope.underRule fun _ => .unchecked

/-- The rule of the scope lets its names stand. -/
def Admitted (scope : GroupScope) : Prop := scope.rule.Admits scope.declarations

/-- Names may have been added. -/
structure GrowsTo (scope scope' : GroupScope) : Prop where
  rule : scope'.rule = scope.rule
  declarations : scope.declarations <+: scope'.declarations

theorem GrowsTo.refl (scope : GroupScope) : scope.GrowsTo scope := ⟨rfl, List.prefix_rfl⟩

/-- Names that have been added stay. -/
theorem GrowsTo.trans (h : scope.GrowsTo scope') (h' : scope'.GrowsTo scope'') :
    scope.GrowsTo scope'' :=
  ⟨h'.rule.trans h.rule, h.declarations.trans h'.declarations⟩

theorem rule_followingAlternative (scope : GroupScope) :
    scope.followingAlternative.rule = scope.rule := by
  simp only [followingAlternative, enterAlternative]
  cases scope.path.getLast? <;> rfl

/-- Going to the next alternative declares nothing. -/
theorem declarations_followingAlternative (scope : GroupScope) :
    scope.followingAlternative.declarations = scope.declarations := by
  simp only [followingAlternative, enterAlternative]
  cases scope.path.getLast? <;> rfl

/-- A name conflicts with none of the groups that have it if the rule allows it beside each. -/
theorem conflicts_eq_false_iff :
    scope.conflicts name = false ↔
      ∀ d ∈ scope.declarations, d.name = name → scope.rule.Allows d.path scope.path := by
  rw [conflicts]
  cases scope.rule with
  | forbidden => simp [DuplicateRule.Allows, declares]
  | separated => simp [DuplicateRule.Allows, declarationsOf]
  | unchecked => simp [DuplicateRule.Allows]

/-- A name may be given exactly if it does not conflict. -/
theorem admitted_declare_iff {index : Nat} :
    (scope.declare name index).Admitted ↔ scope.Admitted ∧ scope.conflicts name = false := by
  rw [conflicts_eq_false_iff, Admitted, declare, DuplicateRule.Admits, List.pairwise_append]
  simp [Admitted, DuplicateRule.Admits]

end GroupScope

/-- If a rule admits names, it admits the first of them. -/
theorem DuplicateRule.Admits.of_initial {rule : DuplicateRule} {ds ds' : List Declaration}
    (h : rule.Admits ds') (hinitial : ds <+: ds') : rule.Admits ds :=
  h.sublist hinitial.sublist

namespace Parser

variable {α β : Type} {g : Grammar} {p q : Parser α} {f : α → Parser β} {s t : State}

/-! ## Parsers that ignore the scope

Such a parser may be run with any scope, with the same outcome but for the scope. It says nothing
about a rule, so it checks trivially. -/

/-- The parser does the same in every scope, and leaves the scope as it is. -/
def IgnoresScope (g : Grammar) (p : Parser α) : Prop := ∀ f, Agrees (.inScopes g f) p

theorem IgnoresScope.scope_eq {a : α} (h : IgnoresScope g p) (ha : p g s = .done a t) :
    t.scope = s.scope := by
  -- in the scope that it is in, the parser would end up in just that scope
  have hsame : p g s = .done a { t with scope := s.scope } := (h (fun _ => s.scope) s).done ha
  rw [ha, Outcome.done.injEq] at hsame
  rw [hsame.2]

/-- What ignores scopes has the same outcome in a changed one. -/
theorem IgnoresScope.outcome (h : IgnoresScope g p) (f : GroupScope → GroupScope) (s : State) :
    p g (s.inScope f) = (Comparison.inScopes g f).outcome (p g s) :=
  (h f s).agrees.resolve_right fun ⟨_, _, _, _, hd⟩ => hd

/-! ## Parsers that check

Closure under the combinators. In a row of two parsers the first one may find a conflict where the
second does not; then what follows on the second side can only add declarations. -/

/-- From the state, the parser does what it would do without the check for names that stand twice,
and gives only names that the rule admits; or it finds that a name stands twice, and without the
check it does not miss and gives names that the rule does not admit. -/
structure ChecksAt (g : Grammar) (p : Parser α) (s : State) : Prop where
  grows : ∀ {a t}, p g s = .done a t → s.scope.GrowsTo t.scope
  checks :
    (p g (s.inScope .unchecked) = (Comparison.inScopes g .unchecked).outcome (p g s) ∧
      ∀ a t, p g s = .done a t → s.scope.Admitted → t.scope.Admitted) ∨
    (∃ i, p g s = .fault ⟨.duplicateGroupName, i⟩) ∧ p g (s.inScope .unchecked) ≠ .miss ∧
      ∀ a t, p g (s.inScope .unchecked) = .done a t → ¬ s.scope.rule.Admits t.scope.declarations

def Checks (g : Grammar) (p : Parser α) : Prop := ∀ s, ChecksAt g p s

/-- What ignores scopes gives no names, and passes every check. -/
theorem IgnoresScope.checks (h : IgnoresScope g p) : Checks g p := by
  intro s
  refine ⟨fun ha => ?_, .inl ⟨h.outcome _ s, fun a t ha hs => ?_⟩⟩
  · rw [h.scope_eq ha]
    exact .refl _
  · rwa [h.scope_eq ha]

namespace ChecksAt

theorem miss (h : ChecksAt g p s) (hp : p g s = .miss) : p g (s.inScope .unchecked) = .miss := by
  rcases h.checks with ⟨heq, -⟩ | ⟨⟨i, hi⟩, -⟩
  · rw [heq, hp]
    rfl
  · rw [hp] at hi
    cases hi

/-- What follows must not miss where, without the check, it follows a name that stands twice. -/
theorem bind_of (hp : ChecksAt g p s) (hf : ∀ a, Checks g (f a))
    (hmiss : ∀ i a t, p g s = .fault ⟨.duplicateGroupName, i⟩ →
      p g (s.inScope .unchecked) = .done a t → NeverMisses (f a)) : ChecksAt g (p >>= f) s := by
  constructor
  · intro b u h
    obtain ⟨a, t, ha, h⟩ := bind_eq_done.mp h
    exact (hp.grows ha).trans ((hf a t).grows h)
  · rcases hp.checks with ⟨heq, hadmitted⟩ | ⟨⟨i, hi⟩, hp, hrefused⟩
    · rw [bind_apply, bind_apply, heq]
      cases ha : p g s with
      | done a t =>
        rcases (hf a t).checks with ⟨heq', hadmitted'⟩ | ⟨hfault, hf', hrefused⟩
        · exact .inl ⟨heq', fun b u h hs => hadmitted' b u h (hadmitted a t ha hs)⟩
        · refine .inr ⟨hfault, hf', fun b u h => ?_⟩
          rw [← (hp.grows ha).rule]
          exact hrefused b u h
      | miss => exact .inl ⟨rfl, nofun⟩
      | fault e => exact .inl ⟨rfl, nofun⟩
    · refine .inr ⟨⟨i, by rw [bind_apply, hi]⟩, ?_, ?_⟩
      · intro h
        rcases bind_eq_miss.mp h with h | ⟨a, t, ha, h⟩
        · exact hp h
        · exact hmiss i a t hi ha g t h
      · intro b u h
        obtain ⟨a, t, ha, h⟩ := bind_eq_done.mp h
        intro hu
        exact hrefused a t ha (hu.of_initial ((hf a t).grows h).declarations)

/-- Parsers that check do so in a row, if the later one never misses: where the first finds a name
twice, the rest is still read without the check. -/
theorem bind (hp : ChecksAt g p s) (hf : ∀ a, Checks g (f a)) (hmiss : ∀ a, NeverMisses (f a)) :
    ChecksAt g (p >>= f) s :=
  hp.bind_of hf fun _ a _ _ _ => hmiss a

/-- What stands before may be anything that ignores the scope. -/
theorem after {γ : Type} {p : Parser γ} {f : γ → Parser β} (hp : IgnoresScope g p)
    (hf : ∀ c t, p g s = .done c t → ChecksAt g (f c) t) : ChecksAt g (p >>= f) s := by
  constructor
  · intro b u h
    obtain ⟨c, t, hc, h⟩ := bind_eq_done.mp h
    rw [← hp.scope_eq hc]
    exact (hf c t hc).grows h
  · rw [bind_apply, bind_apply, hp.outcome]
    cases hc : p g s with
    | done c t =>
      have hchecks := (hf c t hc).checks
      rw [hp.scope_eq hc] at hchecks
      exact hchecks
    | miss => exact .inl ⟨rfl, nofun⟩
    | fault e => exact .inl ⟨rfl, nofun⟩

/-- Parsers that do the same check alike. -/
theorem congr (hp : ChecksAt g p s) (h : q g s = p g s)
    (h' : q g (s.inScope .unchecked) = p g (s.inScope .unchecked)) : ChecksAt g q s := by
  refine ⟨fun ha => hp.grows (h ▸ ha), ?_⟩
  rw [h, h']
  exact hp.checks

/-- A choice checks if its parts do. -/
theorem orElse (hp : ChecksAt g p s) (hq : ChecksAt g q s) : ChecksAt g (p <|> q) s := by
  by_cases h : p g s = .miss
  · exact hq.congr (orElse_of_miss h) (orElse_of_miss (hp.miss h))
  · have hfirst : ∀ {u}, p g u ≠ .miss → (p <|> q) g u = p g u := by
      intro u hu
      rw [orElse_apply]
      split
      · contradiction
      · rfl
    refine hp.congr (hfirst h) (hfirst ?_)
    rcases hp.checks with ⟨heq, -⟩ | ⟨-, hp', -⟩
    · rw [heq]
      cases hs : p g s with
      | miss => exact absurd hs h
      | _ => nofun
    · exact hp'

theorem map {f : α → β} (hp : ChecksAt g p s) : ChecksAt g (f <$> p) s :=
  hp.bind (f := fun a => pure (f a)) (fun _ => IgnoresScope.checks fun _ => pure_agrees _)
    fun _ => neverMisses_pure _

theorem attempt (hp : ChecksAt g p s) : ChecksAt g (attempt p) s := by
  constructor
  · intro o t h
    rcases attempt_eq_done.mp h with ⟨a, rfl, ha⟩ | ⟨rfl, -, rfl⟩
    · exact hp.grows ha
    · exact .refl _
  · rcases hp.checks with ⟨heq, hadmitted⟩ | ⟨⟨i, hi⟩, hp, hrefused⟩
    · refine .inl ⟨?_, ?_⟩
      · rw [Parser.attempt, Parser.attempt, heq]
        cases p g s <;> rfl
      · intro o t h
        rcases attempt_eq_done.mp h with ⟨a, rfl, ha⟩ | ⟨rfl, -, rfl⟩
        · exact hadmitted a t ha
        · exact id
    · refine .inr ⟨⟨i, by rw [Parser.attempt, hi]⟩, attempt_ne_miss, ?_⟩
      intro o t h
      rcases attempt_eq_done.mp h with ⟨a, rfl, ha⟩ | ⟨-, ha, -⟩
      · exact hrefused a t ha
      · exact absurd ha hp

/-- After an attempt, what follows may miss if the attempt came to nothing. -/
theorem attempt_bind {f : Option α → Parser β} (hp : ChecksAt g p s) (hf : ∀ o, Checks g (f o))
    (hmiss : ∀ a, NeverMisses (f (some a))) : ChecksAt g (Parser.attempt p >>= f) s := by
  refine hp.attempt.bind_of hf fun i o t hfault ho => ?_
  rcases attempt_eq_done.mp ho with ⟨a, rfl, -⟩ | ⟨rfl, hnone, -⟩
  · exact hmiss a
  · -- an attempt comes to nothing without the check only if it does with it
    have hmissed : p g s = .miss := by
      rcases hp.checks with ⟨heq, -⟩ | ⟨-, hne, -⟩
      · rw [heq] at hnone
        cases hs : p g s with
        | miss => rfl
        | done a t => rw [hs] at hnone; cases hnone
        | fault e => rw [hs] at hnone; cases hnone
      · exact absurd hnone hne
    rw [attempt_of_miss hmissed] at hfault
    cases hfault

theorem grammar_bind {f : Grammar → Parser α} (h : ChecksAt g (f g) s) :
    ChecksAt g (grammar >>= f) s := h.congr rfl rfl

end ChecksAt

namespace Checks

/-- A repetition checks if its parser does: where a run finds a name twice, the repetition without
the check goes on to names that the rule does not admit. -/
theorem upTo (hp : Checks g p) (count : Nat) : Checks g (upTo p count) := by
  induction count with
  | zero => exact IgnoresScope.checks fun _ => pure_agrees []
  | succ count ih =>
    intro s
    rw [upTo_succ_eq]
    refine (hp s).attempt.bind ?_ ?_
    · rintro (_ | a)
      · exact IgnoresScope.checks fun _ => pure_agrees []
      · exact fun t => (ih t).map
    · rintro (_ | a) g t h
      · cases h
      · exact neverMisses_upTo p count g t (map_eq_miss.mp h)

theorem many (hp : Checks g p) : Checks g (many p) := fun s =>
  (hp.upTo (s.cursor.remaining + 1) s).congr rfl rfl

end Checks

/-! ## Groups

Only a group with a name can be refused. Its number is given before its name is looked at, so the
scopes agree when the check is made. -/

section Groups

/-- A change of scopes checks if it declares nothing. -/
theorem modifyScope_checks {f : GroupScope → GroupScope}
    (hf : ∀ scope, (f scope).unchecked = f scope.unchecked)
    (hrule : ∀ scope, (f scope).rule = scope.rule)
    (hdeclarations : ∀ scope, (f scope).declarations = scope.declarations) :
    Checks g (modifyScope f) := by
  intro s
  refine ⟨fun h => ?_, .inl ⟨?_, fun a t h hs => ?_⟩⟩
  · cases h
    exact ⟨hrule _, hdeclarations _ ▸ List.prefix_rfl⟩
  · show Outcome.done () _ = Outcome.done () _
    simp only [Comparison.across, Comparison.inScopes, State.inScope, hf]
  · cases h
    show (f s.scope).rule.Admits (f s.scope).declarations
    rw [hrule, hdeclarations]
    exact hs

theorem enterDisjunction_checks : Checks g (modifyScope GroupScope.enterDisjunction) :=
  modifyScope_checks (fun _ => rfl) (fun _ => rfl) fun _ => rfl

theorem leaveDisjunction_checks : Checks g (modifyScope GroupScope.leaveDisjunction) :=
  modifyScope_checks (fun _ => rfl) (fun _ => rfl) fun _ => rfl

theorem followingAlternative_checks : Checks g (modifyScope GroupScope.followingAlternative) :=
  modifyScope_checks (fun scope => scope.underRule_followingAlternative _)
    GroupScope.rule_followingAlternative GroupScope.declarations_followingAlternative

/-- A group without a name, or with one that does not conflict. -/
theorem openCapture_checksAt {name : Option GroupName}
    (hname : ∀ n, name = some n → s.scope.conflicts n = false) :
    ChecksAt g (openCapture name) s := by
  refine ⟨fun h => ?_, .inl ⟨?_, fun a t h hs => ?_⟩⟩
  · cases h
    cases name with
    | none => exact .refl _
    | some n => exact ⟨rfl, List.prefix_append _ _⟩
  · cases name <;> rfl
  · cases h
    cases name with
    | none => exact hs
    | some n => exact GroupScope.admitted_declare_iff.mpr ⟨hs, hname n rfl⟩

variable {inside : Nested} (hinside : ∀ mark, Checks g (inside mark))
  (hmiss : ∀ mark, NeverMisses (inside mark))

include hinside

/-- What is inside a construct, up to the parenthesis that closes it. -/
theorem enclosed_checks (make : Span → List Sequence → Term) (mark : Cursor) :
    Checks g (do
      let qs ← inside mark
      closeGroup
      return make (← spanFrom mark) qs : Parser Term) := by
  refine fun s => (hinside mark s).bind (fun qs => ?_) fun qs => ?_
  · exact IgnoresScope.checks fun _ => closeGroup_agrees.bind fun _ =>
      (spanFrom_agrees mark).bind fun _ => pure_agrees _
  · exact NeverMisses.bind (.orElse _ fun _ _ => fail_ne_miss) fun _ =>
      (neverMisses_spanFrom mark).bind fun _ => neverMisses_pure _

theorem assertion_checks : Checks g (assertion inside) := by
  have hopening : IgnoresScope g lookOpening := fun _ s => lookOpening_agreesAt (.inl rfl)
  have hlook : Checks g (lookaround inside) := fun s =>
    .after (fun _ => here_agrees) fun mark t _ => .after hopening fun (direction, negated) u _ =>
      enclosed_checks hinside (fun span qs => .look span direction negated qs) mark u
  exact fun s => ((IgnoresScope.checks fun _ => edgeAssertion_agrees) s).orElse
    (((IgnoresScope.checks fun _ => wordBoundary_agrees) s).orElse (hlook s))

theorem plainGroup_checks (mark : Cursor) (m : Option Modifiers) :
    Checks g (plainGroup inside mark m) :=
  enclosed_checks hinside (fun span qs => .group span m qs) mark

include hmiss

/-- The rest of a capturing group checks, if its name does not conflict. -/
theorem capturingGroup_checksAt (mark : Cursor) {name : Option GroupName}
    (hname : ∀ n, name = some n → s.scope.conflicts n = false) :
    ChecksAt g (capturingGroup inside mark name) s := by
  refine (openCapture_checksAt hname).bind (fun index => ?_) fun index => ?_
  · exact enclosed_checks hinside (fun span qs => .capture span index name qs) mark
  · exact (hmiss mark).bind fun qs => NeverMisses.bind (.orElse _ fun _ _ => fail_ne_miss) fun _ =>
      (neverMisses_spanFrom mark).bind fun _ => neverMisses_pure _

omit hinside in
theorem capturingGroup_neverMisses (mark : Cursor) (name : Option GroupName) :
    NeverMisses (capturingGroup inside mark name) :=
  NeverMisses.bind (fun _ _ h => by cases h) fun _ => (hmiss mark).bind fun _ =>
    NeverMisses.bind (.orElse _ fun _ _ => fail_ne_miss) fun _ =>
      (neverMisses_spanFrom mark).bind fun _ => neverMisses_pure _

/-- Without the check, a name that conflicts is given, and nothing that follows takes it back. -/
theorem namedGroup_checks (mark : Cursor) : Checks g (namedGroup inside mark) := by
  refine fun s => .after (fun _ => groupName_agrees) fun name t _ => ?_
  have hunchecked : (do
      if ← conflicts name then fail .duplicateGroupName
      else capturingGroup inside mark (some name) : Parser Term) g (t.inScope .unchecked) =
        capturingGroup inside mark (some name) g (t.inScope .unchecked) := rfl
  -- the scope decides before the group is opened
  cases hconflicts : t.scope.conflicts name with
  | false =>
    have hgroup : ChecksAt g (capturingGroup inside mark (some name)) t := by
      apply capturingGroup_checksAt hinside hmiss mark
      intro n hn
      cases hn
      exact hconflicts
    refine hgroup.congr ?_ hunchecked
    show (if t.scope.conflicts name then fail .duplicateGroupName
      else capturingGroup inside mark (some name) : Parser Term) g t = _
    rw [hconflicts]
    rfl
  | true =>
    have hfault : (do
        if ← conflicts name then fail .duplicateGroupName
        else capturingGroup inside mark (some name) : Parser Term) g t =
          .fault ⟨.duplicateGroupName, t.cursor.index⟩ := by
      show (if t.scope.conflicts name then fail .duplicateGroupName
        else capturingGroup inside mark (some name) : Parser Term) g t = _
      rw [hconflicts]
      rfl
    refine ⟨fun h => ?_, .inr ⟨⟨_, hfault⟩, ?_, fun e u h hadmits => ?_⟩⟩
    · rw [hfault] at h
      cases h
    · rw [hunchecked]
      exact capturingGroup_neverMisses hmiss mark _ g _
    -- the name has been declared by then, and what is declared later does not take it back
    · rw [hunchecked, capturingGroup] at h
      obtain ⟨index, v, hopen, h⟩ := bind_eq_done.mp h
      cases hopen
      have hgrows := (enclosed_checks hinside
        (fun span qs => .capture span (t.opened + 1) (some name) qs) mark _).grows h
      have hadmitted : (t.scope.declare name (t.opened + 1)).Admitted :=
        hadmits.of_initial hgrows.declarations
      rw [GroupScope.admitted_declare_iff, hconflicts] at hadmitted
      exact Bool.noConfusion hadmitted.2

omit hmiss in
/-- A group with modifiers checks if what is inside it does. -/
theorem modifiedGroup_checks (mark : Cursor) : Checks g (modifiedGroup inside mark) := by
  have hopening : IgnoresScope g (do
      require (← supports .modifiers)
      let m ← modifiers
      eat ':'
      return m : Parser Modifiers) :=
    fun _ => .supports_bind rfl ((require_agrees _).bind fun _ => modifiers_agrees.bind fun _ =>
      (eat_agrees _).bind fun _ => pure_agrees _)
  refine fun s => .after (fun f => (hopening f).attempt) ?_
  rintro (_ | m) t -
  · exact IgnoresScope.checks (fun _ => failAt_agrees _ _) t
  · exact plainGroup_checks hinside mark (some m) t

/-- A group checks if what is inside it does; its own name is checked where it is declared. -/
theorem group_checks : Checks g (group inside) := by
  refine fun s => .after (fun _ => here_agrees) fun mark t _ => .after (fun _ => eat_agrees _)
    fun _ u _ => .after (fun _ => eats_agrees _) ?_
  rintro (_ | _) v -
  · exact capturingGroup_checksAt hinside hmiss mark nofun
  · refine .after (fun _ => eats_agrees _) ?_
    rintro (_ | _) w -
    · refine .after (fun _ => supports_agrees rfl) fun named x _ =>
        .after (fun _ => sees_agrees _ _) fun bracket y _ => ?_
      split
      · exact namedGroup_checks hinside hmiss mark y
      · exact modifiedGroup_checks hinside mark y
    · exact plainGroup_checks hinside mark none w

end Groups

/-! ## Terms in sequence

Everything else passes the relation on, from atoms to disjunctions. -/

section Terms

variable {cls : Parser CharSet} (hcls : IgnoresScope g cls) {inside : Nested}
  (hinside : ∀ mark, Checks g (inside mark)) (hmiss : ∀ mark, NeverMisses (inside mark))

include hcls hinside hmiss

theorem atom_checks : Checks g (atom cls inside) := by
  have hescaped : IgnoresScope g escapedAtom := fun _ => escapedAtom_agrees (.inl rfl)
  exact fun s => (IgnoresScope.checks (fun _ => anyCharacter_agrees) s).orElse
    ((hescaped.checks s).orElse ((IgnoresScope.checks (fun f => (hcls f).map) s).orElse
      ((group_checks hinside hmiss s).orElse
        (IgnoresScope.checks (fun _ => plainCharacter_agrees _) s))))

theorem webAtom_checks : Checks g (webAtom cls inside) := by
  have hescaped : IgnoresScope g escapedAtom := fun _ => escapedAtom_agrees (.inl rfl)
  have hlonely : IgnoresScope g lonelyBackslash := fun _ =>
    here_agrees.bind fun mark => (eat_agrees _).bind fun _ => (sees_agrees _ _).bind fun _ =>
      (require_agrees _).bind fun _ => (characterSetFrom_agrees mark _).map
  have hstray : IgnoresScope g strayBounds := fun _ =>
    (bracedBounds_agrees true).bind fun _ => fail_agrees _
  exact fun s => (IgnoresScope.checks (fun _ => anyCharacter_agrees) s).orElse
    ((hescaped.checks s).orElse ((hlonely.checks s).orElse
      ((IgnoresScope.checks (fun f => (hcls f).map) s).orElse
        ((group_checks hinside hmiss s).orElse ((hstray.checks s).orElse
          (IgnoresScope.checks (fun _ => plainCharacter_agrees _) s))))))

/-- A term checks if what is inside groups does. -/
theorem term_checks : Checks g (term cls inside) := by
  refine fun s => .after (fun _ => here_agrees) fun mark t _ => ?_
  have hquantified : ∀ {p : Parser Term}, Checks g p → Checks g (p >>= quantified mark) :=
    fun hp s => (hp s).bind (fun e => IgnoresScope.checks fun _ => quantified_agrees mark e)
      (neverMisses_quantified mark)
  refine .grammar_bind ((assertion_checks hinside t).attempt_bind ?_ ?_)
  · rintro (_ | e)
    · cases g.exact with
      | true => exact hquantified (atom_checks hcls hinside hmiss)
      | false => exact hquantified (webAtom_checks hcls hinside hmiss)
    · dsimp only
      split
      · exact IgnoresScope.checks fun _ => quantified_agrees mark e
      · exact IgnoresScope.checks fun _ => pure_agrees e
  · intro e
    dsimp only
    split
    · exact neverMisses_quantified mark e
    · exact neverMisses_pure e

theorem sequence_checks : Checks g (sequence cls inside) := by
  refine fun s => .after (fun _ => here_agrees) fun mark t _ =>
    ((term_checks hcls hinside hmiss).many t).bind (fun es => ?_) fun es => ?_
  · exact IgnoresScope.checks fun _ => (spanFrom_agrees mark).bind fun _ => pure_agrees _
  · exact (neverMisses_spanFrom mark).bind fun _ => neverMisses_pure _

/-- Alternatives check if what is inside groups does. -/
theorem alternatives_checks : Checks g (alternatives cls inside) := by
  have hsequence := sequence_checks hcls hinside hmiss
  have hfollowing : Checks g (followingSequence cls inside) := fun s =>
    .after (fun _ => eat_agrees _) fun _ t _ =>
      (followingAlternative_checks t).bind (fun _ => hsequence)
        fun _ => sequence_neverMisses cls inside
  have hend : ∀ qs, Checks g (endOfAlternatives qs) := fun qs s =>
    .after (fun _ => noStrayQuantifier_agrees) fun _ t _ =>
      (leaveDisjunction_checks t).bind
        (fun _ => IgnoresScope.checks fun _ => pure_agrees qs) fun _ => neverMisses_pure _
  refine fun s => (enterDisjunction_checks s).bind
    (fun _ t => (hsequence t).bind (fun first u => ?_) fun first => ?_) fun _ => ?_
  · exact (hfollowing.many u).bind (fun rest => hend (first :: rest))
      fun rest => neverMisses_endOfAlternatives _
  · exact (neverMisses_many _).bind fun rest => neverMisses_endOfAlternatives (first :: rest)
  · exact (sequence_neverMisses cls inside).bind fun first => (neverMisses_many _).bind
      fun rest => neverMisses_endOfAlternatives (first :: rest)

end Terms

/-- A disjunction is read as without the check, unless a name stands twice. -/
theorem disjunction_checks (depth : Nat) : Checks g (disjunction depth) := by
  induction depth with
  | zero =>
    exact alternatives_checks (fun _ => charClass_agrees 0 false)
      (fun mark => IgnoresScope.checks fun _ => failAt_agrees _ _) fun mark _ _ => failAt_ne_miss
  | succ depth ih =>
    exact alternatives_checks (fun _ => charClass_agrees (depth + 1) false) (fun mark => ih)
      fun mark => disjunction_neverMisses depth

end Parser

end EcmaPattern
