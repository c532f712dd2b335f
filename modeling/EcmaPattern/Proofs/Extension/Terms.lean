import EcmaPattern.Proofs.Extension
import EcmaPattern.Proofs.Fragments.Constructs

/-!
# Terms of texts that go on

Groups and lookarounds end with a parenthesis, so they are read in a text that goes on as they are
in the text (`group_extends`, `lookaround_extends`). Between terms there are two places at which the
runs part. If only a backslash is left, there is no term for the first run, and the second escapes
the parting sign. And if a bar is put behind the text, an alternative follows for the second run.
Alternatives are read alike unless the text ends in one of these ways (`disjunction_extends`).

If the second run takes classes by the set grammar and the first does not, a part in which a class
stands is excused, and every other part is read alike.

Key lemmas:

* `enclosed_extends`, for what stands between parentheses;
* `sequence_extends`, where a backslash that is left over hangs;
* `disjunction_extends`, by induction on the levels that are left.
-/

namespace EcmaPattern

/-! ## Places at which the runs part

`Hangs` is the backslash that is left over, and `Ends` is that or the end of the text where a bar is
put behind it. Terms can be read on from neither, so they concern sequences and alternatives only.
-/

namespace Extension

variable (k : Extension)

/-- Only a backslash is left, behind which the text goes on. -/
def Hangs (s : State) : Prop := k.rest ≠ [] ∧ s.cursor.ahead = [0x5C]

/-- At the end of the text, the runs of a sequence of alternatives part. -/
def Ends (s : State) : Prop :=
  k.Hangs s ∨ s.cursor.ahead = [] ∧ k.rest.head? = some 0x7C

variable {k}

/-- At the end of a text nothing lies ahead but a hanging backslash, if anything. -/
theorem Ends.current {s : State} {c : CodePoint} (h : k.Ends s) (hc : s.cursor.current = some c) :
    c = .ofChar '\\' := by
  rcases h with ⟨-, hahead⟩ | ⟨hahead, -⟩
  · rw [Cursor.current, hahead] at hc
    cases hc
    decide
  · rw [Cursor.current, hahead] at hc
    cases hc

theorem Ends.not_reads {s t : State} {c : CodePoint} (h : k.Ends s) (hc : c ≠ .ofChar '\\') :
    ¬ s.Reads [c] t :=
  fun hr => hc (h.current hr.current_eq)

end Extension

namespace Derives

variable {g : Grammar} {s t : State}

/-- A term that begins with a backslash has more than that. -/
theorem advance_current {e : Term} (h : Derives g s (.term e) t)
    (hc : s.cursor.current = some (.ofChar '\\')) : s.cursor.advance.current ≠ none := by
  have hsecond : ∀ {c d : CodePoint} {cs : List CodePoint} {t : State},
      s.Reads (c :: d :: cs) t → s.cursor.advance.current ≠ none := by
    intro c d cs t hr
    rw [(Cursor.reads_cons.mp hr.cursor).2.current_eq]
    exact Option.some_ne_none d
  have hfirst : ∀ {c : CodePoint} {cs : List CodePoint} {t : State}, s.Reads (c :: cs) t →
      c = .ofChar '\\' := by
    intro c cs t hr
    exact Option.some.inj (hr.current_eq.symm.trans hc)
  -- only a repetition has a term as its first part, so the induction is for that case
  generalize hx : Piece.term e = x at h
  induction h generalizing e with
  | termCharacter h =>
    cases h with
    | spelled h hr =>
      cases h with
      | plain h =>
        rw [hfirst hr, Place.allows] at h
        split at h <;> cases h
      | escaped h =>
        obtain ⟨d, cs, rfl⟩ := List.exists_cons_of_ne_nil h.ne_nil
        exact hsecond hr
      | backspace h => exact hsecond hr
    | backslash _ hr hnext =>
      obtain ⟨-, rfl⟩ := State.reads_singleton.mp hr
      exact fun hnone => Option.some_ne_none _ (hnext.symm.trans hnone)
  | termEscape h =>
    cases h with
    | mk h hr =>
      cases h <;> exact hsecond hr
  | termClass h => exact absurd (h.current_of_charClass.symm.trans hc) (by decide)
  | any hr => exact absurd (hfirst hr) (by decide)
  | @edge _ _ edge hr =>
    cases edge
    · exact absurd (hfirst hr) (by decide)
    · exact absurd (hfirst hr) (by decide)
  | wordBoundary hr => exact hsecond hr
  | @look _ _ _ _ direction negated _ _ hr =>
    cases direction <;> cases negated <;> exact hsecond hr
  | group hr => exact absurd (hfirst hr) (by decide)
  | modifiedGroup _ hr => exact absurd (hfirst hr) (by decide)
  | capture hr => exact absurd (hfirst hr) (by decide)
  | namedCapture _ _ _ hr => exact absurd (hfirst hr) (by decide)
  | numbered _ _ hne _ hr =>
    obtain ⟨d, cs, rfl⟩ := List.exists_cons_of_ne_nil hne
    exact hsecond hr
  | named _ _ hr => exact hsecond hr
  | quantified _ _ _ ih => exact ih hc hsecond hfirst rfl
  | _ => cases hx

end Derives

/-! ## Classes in a part

If the set grammar is switched on for the second run, classes differ and so does everything that
holds one. -/

def Node.HoldsClass (n : Node) : Prop := ∃ m ∈ n.descendants, m.kind = .characterClass

namespace Node.HoldsClass

theorem of_kind {n : Node} (h : n.kind = .characterClass) : n.HoldsClass := by
  refine ⟨n, ?_, h⟩
  rw [descendants_eq]
  exact List.mem_cons_self

/-- A class below a child stands in the node. -/
theorem of_child {n c : Node} (h : c.HoldsClass) (hc : c ∈ n.children) : n.HoldsClass := by
  obtain ⟨m, hm, hkind⟩ := h
  refine ⟨m, ?_, hkind⟩
  rw [descendants_eq]
  exact List.mem_cons_of_mem n (List.mem_flatMap.mpr ⟨c, hc, hm⟩)

end Node.HoldsClass

/-- Classes are read by different grammars, and one stands in the part. -/
def Extension.Differs (k : Extension) (n : Node) : Prop := k.sets ≠ k.left.sets ∧ n.HoldsClass

theorem Extension.Differs.of_child {k : Extension} {n c : Node} (h : k.Differs c)
    (hc : c ∈ n.children) : k.Differs n :=
  h.imp_right fun hclass => hclass.of_child hc

namespace Parser

open Extension

variable {α : Type} {k : Extension}

/-- A parser of terms, from states with `P`: what holds a class is excused. -/
abbrev TermExtends (k : Extension) (P : State → Prop) (p q : Parser Term) : Prop :=
  Extends k P (fun _ => True) (fun e _ => k.Differs (.term e)) p q

/-- A parser of alternatives: also excused is where the runs part. -/
abbrev AlternativesExtend (k : Extension) (p q : Parser (List Sequence)) : Prop :=
  Extends k (fun _ => True) (fun _ => True)
    (fun qs t => k.Ends t ∨ ∃ q ∈ qs, k.Differs (.sequence q)) p q

/-- A class is read alike, or else by another grammar. -/
theorem charClass_extends (depth : Nat) :
    Extends k (fun _ => True) (fun _ => True)
      (fun x _ => k.sets ≠ k.left.sets ∧ x.kind = .characterClass)
      (charClass depth false) (charClass depth false) := by
  -- with the same grammar for classes in both runs there is nothing to excuse
  by_cases hsets : k.sets = k.left.sets
  · exact .of_pairs (charClass_pairs hsets depth false)
  have hleft : k.left.sets = false := by
    cases h : k.left.sets with
    | false => rfl
    | true => exact absurd ((k.widens h).trans h.symm) hsets
  refine .of_outcomes (fun {s s' x t} _ _ hdone => ?_) fun {s s'} hs _ hmiss => ?_
  -- otherwise a class that is done is the excuse, and only misses remain to be compared
  · refine .inl ⟨hsets, ?_⟩
    cases charClass_derives hdone with
    | listing => rfl
    | expression hg => rw [hleft] at hg; cases hg
  · refine charClass_eq_miss fun hbracket => ?_
    have hc : s.cursor.current ≠ some (.ofChar '[') := by
      intro hc
      cases depth with
      | zero =>
        rw [charClass, here_bind, eat_bind_eq_miss] at hmiss
        rcases hmiss with hne | ⟨_, -, hfault⟩
        · exact hne hc
        · cases hfault
      | succ depth => exact classBody_ne_miss hc hmiss
    rcases hs.current with heq | ⟨-, -, c, hcurrent, hparting⟩
    · exact hc (heq ▸ hbracket)
    · rw [hcurrent] at hbracket
      cases hbracket
      exact absurd hparting (by decide)

/-! ## Escaped terms

Behind a backslash there may be a parting sign, so there has to be something left of the text. All
other terms that hold nothing are read alike. -/

/-- What is behind a backslash extends, if there is anything. -/
theorem atomEscape_extends {m m' : Cursor} (hm : k.pairing.Marks m m') :
    Extends k k.Live (fun _ => True) (fun _ _ => False) (atomEscape m) (atomEscape m') := by
  have hset : k.pairing.Pairs Eq (Term.set <$> setEscape m) (Term.set <$> setEscape m') :=
    set_map_maps k.trees (setEscape_maps k.trees hm k.pairing_sameProperties)
  refine .orElse (.of_pairs (numberedReference_maps k.trees hm k.pairing_alike rfl))
    (.orElse (.of_pairs hset) (.orElse ?_ ?_))
  · exact (characterEscape_extends hm).map fun _ _ _ => id
  · exact .of_pairs ((namedReference_maps k.trees hm rfl groupName_beside).orElse
      (exact_fail_pairs k.pairing_alike rfl))

/-- If more than the backslash is left, there is something for it to escape. -/
theorem escapedAtom_extends :
    Extends k (fun s => ¬ k.Hangs s) (fun _ => True) (fun _ _ => False) escapedAtom
      escapedAtom := by
  have hslash : k.pairing.Pairs Eq (eat '\\') (eat '\\') := sign_pairs (by decide)
  have hbackslash : Extends k (fun s => ¬ k.Hangs s) k.Live (fun _ _ => False) (eat '\\')
      (eat '\\') := by
    refine .of_outcomes (fun {s s' x t} hs hhangs hdone => .inr ⟨?_, ?_⟩) fun {s s'} hs _ hmiss =>
      Pairing.Outcomes.of_miss (hmiss ▸ hslash s s' hs)
    · by_cases hrest : k.rest = []
      · exact .inl hrest
      · refine .inr fun hnil => hhangs ⟨hrest, ?_⟩
        rw [(eat_eq_done.mp hdone).cursor.ahead, hnil]
        rfl
    · obtain ⟨t', hr, ht⟩ := hs.reads (eat_eq_done.mp hdone)
      exact ⟨t', eat_eq_done.mpr hr, ht⟩
  exact .here_bind fun _ _ hm => hbackslash.bind (fun _ => atomEscape_extends hm)
    Pairing.retains_of_nothing

/-! ## Groups

A group that is done has its parenthesis in the first text. So what is inside it ends before that,
and neither of the excuses for an end applies there. -/

/-- Where there is no parenthesis, there is a fault. -/
theorem closeGroup_beside : k.pairing.Pairs Eq closeGroup closeGroup := by
  refine fun s s' hs => .of_free k.pairing_free (fun x t hdone => ?_) fun hmiss => ?_
  · obtain ⟨t', hr, ht⟩ := hs.reads (eat_eq_done.mp (orElse_fail_eq_done.mp hdone))
    exact ⟨x, t', orElse_of_done (eat_eq_done.mpr hr), rfl, ht⟩
  · exact absurd hmiss ((closeGroup_proceeds _).ne_miss s)

theorem openCapture_beside (name : Option GroupName) :
    k.pairing.Pairs Eq (openCapture name) (openCapture name) := by
  intro s s' hs
  refine .done (congrArg (· + 1) hs.opened.symm)
    ⟨hs.cursor, hs.marks, congrArg (· + 1) hs.opened, ?_⟩
  cases name <;> exact hs.rule

/-- Where names are not checked, none is refused. -/
theorem Extends.unlessConflicts {P P' : State → Prop} {lost : Term → State → Prop}
    {name : GroupName} {p q : Parser Term} (h : Extends k P P' lost p q) :
    Extends k P P' lost (do if ← conflicts name then fail .duplicateGroupName else p)
      (do if ← conflicts name then fail .duplicateGroupName else q) := by
  intro s s' hs hP
  show k.pairing.Trailing P' (.of lost) Eq
    ((if s.scope.conflicts name then fail .duplicateGroupName else p : Parser Term) _ _)
    ((if s'.scope.conflicts name then fail .duplicateGroupName else q : Parser Term) _ _)
  rw [show s'.scope.conflicts name = false by rw [GroupScope.conflicts, hs.rule]]
  split
  · exact .excused trivial
  · exact h s s' hs hP

section Enclosed

variable {inside : Nested} (hinside : ∀ m m', k.pairing.Marks m m' →
  AlternativesExtend k (inside m) (inside m'))

include hinside

/-- Alternatives are followed by a parenthesis, so the runs have not parted. -/
theorem enclosed_extends {make : Span → List Sequence → Term} {m m' : Cursor}
    (hm : k.pairing.Marks m m')
    (hchild : ∀ span qs, ∀ q ∈ qs, .sequence q ∈ (Node.term (make span qs)).children) :
    TermExtends k (fun _ => True)
      (do let qs ← inside m
          closeGroup
          return make (← spanFrom m) qs)
      (do let qs ← inside m'
          closeGroup
          return make (← spanFrom m') qs) := by
  refine (hinside m m' hm).bind (fun qs => .after closeGroup_beside fun _ =>
    .spanFrom_bind hm fun span => .pure rfl) fun _ qs u hlost => ⟨?_, ?_⟩
  · exact (Proceeds.bind (closeGroup_proceeds _) fun _ =>
      .spanFrom_bind _ fun _ => .pure _).ne_miss u
  · intro e t he
    obtain ⟨v, hclose, he⟩ := closeGroup_bind_eq_done.mp he
    rcases hlost with hends | ⟨q, hq, hdiffers⟩
    · exact absurd hclose (hends.not_reads (by decide))
    · rw [spanFrom_bind] at he
      obtain ⟨rfl, -⟩ := pure_eq_done.mp he
      exact hdiffers.of_child (hchild _ qs q hq)

theorem lookaround_extends :
    TermExtends k (fun _ => True) (lookaround inside) (lookaround inside) := by
  refine .here_bind fun m m' hm => .after (lookOpening_pairs rfl) ?_
  rintro ⟨direction, negated⟩
  refine enclosed_extends hinside hm fun span qs q hq => ?_
  rw [Node.children_look]
  exact List.mem_map_of_mem hq

section Marks

variable {m m' : Cursor} (hm : k.pairing.Marks m m')

include hm

/-- A capturing group extends if what is inside it does. -/
theorem capturingGroup_extends (name : Option GroupName) :
    TermExtends k (fun _ => True) (capturingGroup inside m name)
      (capturingGroup inside m' name) := by
  refine .after (openCapture_beside name) fun index =>
    enclosed_extends hinside hm fun span qs q hq => ?_
  rw [Node.children_capture]
  exact List.mem_map_of_mem hq

theorem plainGroup_extends (modifiers : Option Modifiers) :
    TermExtends k (fun _ => True) (plainGroup inside m modifiers)
      (plainGroup inside m' modifiers) := by
  refine enclosed_extends hinside hm fun span qs q hq => ?_
  have hmem : Node.sequence q ∈ qs.map Node.sequence := List.mem_map_of_mem hq
  cases modifiers with
  | none => rwa [Node.children_group_none]
  | some _ =>
    rw [Node.children_group_some]
    exact List.mem_cons_of_mem _ hmem

theorem modifiedGroup_extends :
    TermExtends k (fun _ => True) (modifiedGroup inside m) (modifiedGroup inside m') := by
  have hopening : k.pairing.Pairs Eq (do
      require (← supports .modifiers)
      let m ← modifiers
      eat ':'
      return m : Parser Modifiers) (do
      require (← supports .modifiers)
      let m ← modifiers
      eat ':'
      return m) :=
    .bind (supports_pairs rfl) fun _ => (require_pairs _).bind fun _ =>
      Pairing.Pairs.bind (modifiers_maps k.trees) fun _ => (sign_pairs (by decide)).bind fun _ =>
        .pure rfl
  refine .after hopening.attempt fun o => ?_
  cases o with
  | some found => exact plainGroup_extends hinside hm (some found)
  | none => exact failAt_extends _ _ _

end Marks

/-- A group extends if what is inside it does. -/
theorem group_extends : TermExtends k (fun _ => True) (group inside) (group inside) :=
  .here_bind fun _ _ hm => .after (sign_pairs (by decide)) fun _ =>
    .after (eats_pairs (Pairing.not_parts (by decide))) fun _ => .ite
      (.after (eats_pairs (Pairing.not_parts (by decide))) fun _ =>
        .ite (plainGroup_extends hinside hm none)
          (.after (supports_pairs rfl) fun _ =>
            .after (sees_pairs (Pairing.not_parts (by decide))) fun _ => .ite
              (.after groupName_beside fun name =>
                Extends.unlessConflicts (capturingGroup_extends hinside hm (some name)))
              (modifiedGroup_extends hinside hm)))
      (capturingGroup_extends hinside hm none)

/-- An assertion extends if what is inside it does. -/
theorem assertion_extends :
    TermExtends k (fun _ => True) (assertion inside) (assertion inside) :=
  .orElse (.of_pairs (edgeAssertion_maps k.trees))
    (.orElse (.of_pairs (wordBoundary_maps k.trees)) (lookaround_extends hinside))

end Enclosed

/-! ## Alternatives

A sequence stops where no term can be read. At the end of the first text the second run has a
parting sign before it, at which it stops as well. -/

/-- Where the runs part, the first cannot repeat a parser any more. -/
theorem Extends.many_until {stuck : State → Prop} {bad : α → Prop} {p q : Parser α}
    (hp : Extends k (fun s => ¬ stuck s) (fun _ => True) (fun a t => stuck t ∨ bad a) p q)
    (hstuck : ∀ {s a t}, stuck s → p k.left s ≠ .done a t) (hleft : Progresses p k.left)
    (hright : Progresses q k.right) :
    Extends k (fun _ => True) (fun s => ¬ stuck s) (fun as t => stuck t ∨ ∃ a ∈ as, bad a)
      (Parser.many p) (Parser.many q) := by
  -- a repetition that starts where it is stuck makes no step
  have hstays : ∀ {s as t}, stuck s → Chain (fun s a t => p k.left s = .done a t) s as t →
      stuck t := by
    intro s as t hs hchain
    cases hchain with
    | nil => exact hs
    | cons head _ => exact absurd head (hstuck hs)
  -- getting stuck becomes an excuse, so that every step starts where it is allowed to
  have hstep : Extends k (fun s => ¬ stuck s) (fun s => ¬ stuck s)
      (fun a t => stuck t ∨ bad a) p q := by
    refine .of_outcomes (fun {s s' a t} hs hP ha => ?_) fun hs hP => hp.miss hs hP
    by_cases ht : stuck t
    · exact .inl (.inl ht)
    · exact (Extends.done hp hs hP ha).imp_right fun h => ⟨ht, h.2⟩
  have hmany : Extends k _ _ (fun as t => stuck t ∨ ∃ a ∈ as, bad a) (Parser.many p)
      (Parser.many q) :=
    hstep.many hleft hright
      (fun _ a u as t hlost has => hlost.imp (fun hu => hstays hu has)
        fun ha => ⟨a, List.mem_cons_self, ha⟩)
      fun _ a as t hlost => hlost.imp_right fun ⟨b, hb, hbad⟩ =>
        ⟨b, List.mem_cons_of_mem a hb, hbad⟩
  refine .of_outcomes (fun {s s' as t} hs _ has => ?_) fun _ _ hmiss => ?_
  · by_cases hstart : stuck s
    · exact .inl (.inl (hstays hstart (chain_of_many has)))
    · exact hmany.done hs hstart has
  · exact absurd hmiss (neverMisses_many p _ _)

/-- A quantifier does not undo a difference. -/
theorem quantified_differs {mark : Cursor} {e e' : Term} {s t : State}
    (h : quantified mark e k.left s = .done e' t) (he : k.Differs (.term e)) :
    k.Differs (.term e') := by
  obtain ⟨o, u, -, h⟩ := bind_eq_done.mp h
  cases o with
  | none =>
    obtain ⟨rfl, -⟩ := pure_eq_done.mp h
    exact he
  | some r =>
    dsimp only at h
    rw [spanFrom_bind] at h
    obtain ⟨rfl, -⟩ := pure_eq_done.mp h
    exact he.of_child (by rw [Node.children_quantified]; exact List.mem_singleton_self _)

section Alternatives

variable {depth : Nat} (hinside : ∀ m m', k.pairing.Marks m m' →
  AlternativesExtend k (nestedAt depth m) (nestedAt depth m'))

include hinside

/-- An atom extends, unless a backslash hangs. -/
theorem atom_extends :
    TermExtends k (fun s => ¬ k.Hangs s)
      (if k.left.exact then atom (charClass depth false) (nestedAt depth)
        else webAtom (charClass depth false) (nestedAt depth))
      (if k.left.exact then atom (charClass depth false) (nestedAt depth)
        else webAtom (charClass depth false) (nestedAt depth)) := by
  have hclass : TermExtends k (fun s => ¬ k.Hangs s) (Term.set <$> charClass depth false)
      (Term.set <$> charClass depth false) :=
    Extends.from_ ((charClass_extends depth).map fun _ x _ hx => ⟨hx.1, .of_kind hx.2⟩)
  have hgroup : TermExtends k (fun s => ¬ k.Hangs s) (group (nestedAt depth))
      (group (nestedAt depth)) :=
    Extends.from_ (group_extends hinside)
  have hescaped : TermExtends k (fun s => ¬ k.Hangs s) escapedAtom escapedAtom :=
    escapedAtom_extends.mono (fun _ => id) (fun _ => id) (fun _ _ _ hfalse => hfalse.elim)
      fun _ _ => id
  have hplain : ∀ test : CodePoint → Bool,
      test (.ofChar ')') = false ∧ test (.ofChar '|') = false →
        k.pairing.Pairs Eq (plainCharacter test) (plainCharacter test) := fun test htest =>
    .here_bind fun _ _ hm => (satisfy_pairs fun _ => CodePoint.test_parting htest).bind fun c =>
      set_map_maps k.trees (characterSetFrom_maps k.trees hm c)
  refine .ite ?_ ?_
  · exact .orElse (.of_pairs (anyCharacter_maps k.trees)) (hescaped.orElse (hclass.orElse
      (hgroup.orElse (.of_pairs (hplain _ (by decide))))))
  · exact .orElse (.of_pairs (anyCharacter_maps k.trees)) (hescaped.orElse (.orElse
      (.of_pairs (lonelyBackslash_maps k.trees)) (hclass.orElse (hgroup.orElse (.orElse
        (.of_pairs (strayBounds_maps k.trees k.pairing_alike))
          (.of_pairs (hplain _ (by decide))))))))

/-- A term extends, unless a backslash hangs. -/
theorem term_extends :
    TermExtends k (fun s => ¬ k.Hangs s) (term (charClass depth false) (nestedAt depth))
      (term (charClass depth false) (nestedAt depth)) := by
  refine .here_bind fun m m' hm => .grammar_bind ?_
  have hquantified : ∀ {P : State → Prop} e, TermExtends k P (quantified m e) (quantified m' e) :=
    fun e => .of_pairs (quantified_pairs hm k.pairing_alike rfl fun _ _ => rfl)
  refine (Extends.from_ (assertion_extends hinside)).attempt_bind ?_ (fun e => ?_)
    fun _ e u he => ?_
  · have hatom : TermExtends k (fun s => ¬ k.Hangs s) (_ >>= quantified m) (_ >>= quantified m') :=
      (atom_extends hinside).bind hquantified
        fun _ e u he =>
          ⟨(quantified_proceeds _ _ e).ne_miss u, fun _ _ h => quantified_differs h he⟩
    rw [show k.pairing.left.exact = k.left.exact from rfl,
      show k.pairing.right.exact = k.left.exact from rfl]
    cases hleft : k.left.exact with
    | true =>
      rw [hleft] at hatom
      exact hatom
    | false =>
      rw [hleft] at hatom
      exact hatom
  · exact .ite (hquantified e) (.mono (.pure rfl) (fun _ => id) (fun _ _ => trivial)
      (fun _ _ _ => id) fun _ _ => id)
  · dsimp only
    split
    · exact ⟨(quantified_proceeds _ _ e).ne_miss u, fun _ _ h => quantified_differs h he⟩
    · refine ⟨nofun, fun e' t h => ?_⟩
      obtain ⟨rfl, -⟩ := pure_eq_done.mp h
      exact he

omit hinside in
/-- A backslash that hangs is no term. -/
theorem term_ne_done_of_hangs {s t : State} {e : Term} (hs : k.Hangs s) :
    term (charClass depth false) (nestedAt depth) k.left s ≠ .done e t := by
  intro h
  refine (term_derives_at h).advance_current ?_ ?_
  · rw [Cursor.current, hs.2]
    show some (CodePoint.ofUnit 0x5C) = _
    decide
  · rw [Cursor.current_eq_none, Cursor.advance, hs.2]
    rfl

/-- An alternative extends, term by term, unless a backslash hangs behind it. -/
theorem sequence_extends :
    Extends k (fun _ => True) (fun s => ¬ k.Hangs s)
      (fun q t => k.Hangs t ∨ k.Differs (.sequence q))
      (sequence (charClass depth false) (nestedAt depth))
      (sequence (charClass depth false) (nestedAt depth)) := by
  have hterm : Extends k (fun s => ¬ k.Hangs s) (fun _ => True)
      (fun e t => k.Hangs t ∨ k.Differs (.term e)) (term (charClass depth false) (nestedAt depth))
      (term (charClass depth false) (nestedAt depth)) :=
    (term_extends hinside).mono (fun _ => id) (fun _ => id) (fun _ _ _ => .inr) fun _ _ => id
  refine .here_bind fun m m' hm => (Extends.many_until hterm term_ne_done_of_hangs
    (progresses_term _) (progresses_term _)).bind (fun es => ?_) fun _ es u hlost => ⟨nofun, ?_⟩
  · exact .spanFrom_bind hm fun _ => .pure rfl
  · intro q t hq
    rw [spanFrom_bind] at hq
    obtain ⟨rfl, rfl⟩ := pure_eq_done.mp hq
    refine hlost.imp_right fun ⟨e, he, hdiffers⟩ => hdiffers.of_child ?_
    rw [Node.children_sequence]
    exact List.mem_map_of_mem he

omit hinside in
/-- At the end of the text a bar is seen only by the second run, if one is put there. -/
theorem bar_extends :
    Extends k (fun s => ¬ k.Ends s) (fun _ => True) (fun _ _ => False) (eat '|') (eat '|') := by
  refine .of_outcomes (fun hs _ hdone => ?_) fun {s s'} hs hends hmiss => ?_
  · obtain ⟨t', hr, ht⟩ := hs.reads (eat_eq_done.mp hdone)
    exact .inr ⟨trivial, t', eat_eq_done.mpr hr, ht⟩
  · rw [eat_eq_miss] at hmiss ⊢
    intro hbar
    rcases hs.current with heq | ⟨-, hnone, -⟩
    · exact hmiss (heq ▸ hbar)
    · have hnil := Cursor.current_eq_none.mp hnone
      refine hends (.inr ⟨hnil, ?_⟩)
      rw [hs.cursor, current_extend_of_nil hnil, Option.map_eq_some_iff] at hbar
      obtain ⟨u, hu, hbar⟩ := hbar
      rcases k.parts u hu with rfl | rfl
      · exact absurd hbar (by decide)
      · exact hu

theorem followingSequence_extends :
    Extends k (fun s => ¬ k.Ends s) (fun s => ¬ k.Hangs s)
      (fun q t => k.Hangs t ∨ k.Differs (.sequence q))
      (followingSequence (charClass depth false) (nestedAt depth))
      (followingSequence (charClass depth false) (nestedAt depth)) :=
  bar_extends.bind (fun _ => .after (modifyScope_beside GroupScope.rule_followingAlternative)
    fun _ => sequence_extends hinside) Pairing.retains_of_nothing

omit hinside in
/-- At the end of the text no further alternative begins. -/
theorem followingSequence_ne_done_of_ends {s t : State} {q : Sequence} (hs : k.Ends s) :
    followingSequence (charClass depth false) (nestedAt depth) k.left s ≠ .done q t := by
  intro h
  obtain ⟨u, hbar, -⟩ := eat_bind_eq_done.mp h
  exact hs.not_reads (by decide) hbar

omit hinside in
theorem endOfAlternatives_beside (qs : List Sequence) :
    k.pairing.Pairs Eq (endOfAlternatives qs) (endOfAlternatives qs) :=
  (noStrayQuantifier_pairs k.pairing_alike).bind fun _ =>
    Pairing.Pairs.bind (modifyScope_beside (f := GroupScope.leaveDisjunction) fun _ => rfl)
      fun _ => .pure rfl

omit hinside in
theorem state_of_endOfAlternatives {g : Grammar} {qs qs' : List Sequence} {s t : State}
    (h : endOfAlternatives qs g s = .done qs' t) :
    qs' = qs ∧ t = s.inScope GroupScope.leaveDisjunction := by
  refine ⟨endOfAlternatives_eq_done h, ?_⟩
  obtain ⟨_, u, hstray, h⟩ := bind_eq_done.mp h
  obtain rfl := noStrayQuantifier_eq_done hstray
  obtain ⟨_, v, hleave, h⟩ := bind_eq_done.mp h
  obtain ⟨-, rfl⟩ := Outcome.done.inj hleave
  obtain ⟨-, rfl⟩ := pure_eq_done.mp h
  rfl

/-- Alternatives extend. At the end of the text the runs part: over the text that goes on, more
alternatives may come. -/
theorem alternatives_extend :
    AlternativesExtend k (alternatives (charClass depth false) (nestedAt depth))
      (alternatives (charClass depth false) (nestedAt depth)) := by
  have hprogress : ∀ g, Progresses
      (followingSequence (charClass depth false) (nestedAt depth)) g :=
    fun g => progresses_followingSequence (progresses_term g)
  have hfollowing : Extends k (fun s => ¬ k.Ends s) (fun _ => True)
      (fun q t => k.Ends t ∨ k.Differs (.sequence q))
      (followingSequence (charClass depth false) (nestedAt depth))
      (followingSequence (charClass depth false) (nestedAt depth)) :=
    (followingSequence_extends hinside).mono (fun _ => id) (fun _ _ => trivial)
      (fun _ _ _ => .imp_left .inl) fun _ _ => id
  have hmany := Extends.many_until hfollowing followingSequence_ne_done_of_ends (hprogress _)
    (hprogress _)
  -- what has been excused before the end stays excused
  have hend : ∀ {first rest u qs t}, endOfAlternatives (first :: rest) k.left u = .done qs t →
      (k.Ends u ∨ ∃ q ∈ first :: rest, k.Differs (.sequence q)) →
        k.Ends t ∨ ∃ q ∈ qs, k.Differs (.sequence q) := by
    intro first rest u qs t h hlost
    obtain ⟨rfl, rfl⟩ := state_of_endOfAlternatives h
    exact hlost
  refine .after (modifyScope_beside (f := GroupScope.enterDisjunction) fun _ => rfl) fun _ =>
    (sequence_extends hinside).bind (fun first => ?_) fun _ first u hlost => ⟨?_, ?_⟩
  · refine Extends.from_ (hmany.bind (fun rest => .of_pairs (endOfAlternatives_beside _))
      fun _ rest u hlost => ⟨neverMisses_endOfAlternatives _ _ u, fun qs t h => hend h ?_⟩)
    exact hlost.imp_right fun ⟨q, hq, hdiffers⟩ => ⟨q, List.mem_cons_of_mem _ hq, hdiffers⟩
  · exact (neverMisses_many _).bind (fun rest => neverMisses_endOfAlternatives _) _ u
  · intro qs t h
    obtain ⟨rest, v, hrest, h⟩ := bind_eq_done.mp h
    refine hend h ?_
    rcases hlost with hhangs | hdiffers
    · cases chain_of_many hrest with
      | nil => exact .inl (.inl hhangs)
      | cons head _ => exact absurd head (followingSequence_ne_done_of_ends (.inl hhangs))
    · exact .inr ⟨first, List.mem_cons_self, hdiffers⟩

end Alternatives

/-- Alternatives are read in a text that goes on as in the text. -/
theorem disjunction_extends (depth : Nat) :
    AlternativesExtend k (disjunction depth) (disjunction depth) := by
  have heq : ∀ depth, disjunction depth =
      alternatives (charClass depth false) (nestedAt depth) := by
    intro depth
    funext g s
    exact disjunction_eq_nestedAt depth g s
  induction depth with
  | zero =>
    rw [heq]
    exact alternatives_extend fun _ _ _ => failAt_extends _ _ _
  | succ depth ih =>
    rw [heq]
    exact alternatives_extend fun _ _ _ => ih

end Parser

end EcmaPattern
