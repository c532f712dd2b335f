import EcmaPattern.Proofs.Passes
import EcmaPattern.Proofs.Traces.Classes

/-!
# Traces of patterns

Every node of a pattern was given by a parser of its own (`disjunction_traced`). The parser of what
is inside groups is assumed to leave a trace; the recursion over the nesting depth discharges this
at the end.
-/

namespace EcmaPattern

open EcmaPattern.Parser

variable {g : Grammar} {s t u v : State}

/-! ## Modifiers

The two lists of flags are nodes too, so they have a trace. -/

theorem Node.children_modifiers (m : Modifiers) :
    (Node.modifiers m).children = .modifierFlags m.add :: m.remove.toList.map .modifierFlags := by
  cases hr : m.remove <;> simp [children, fields, Field.parts, hr]

theorem modifierFlags_traced {f : ModifierFlags} (h : modifierFlags g s = .done f t) :
    Traced g s (.modifierFlags f) t :=
  .leaf (.modifierFlags h) rfl (modifierFlags_eq_done h).reaches

/-- Modifiers leave a trace. -/
theorem modifiers_traced {m : Modifiers} (h : modifiers g s = .done m t) :
    Traced g s (.modifiers m) t := by
  refine .of_children (.modifiers h) ?_
  rw [Node.children_modifiers]
  cases modifiers_given h with
  | add hadd _ => exact .single (modifierFlags_traced hadd)
  | remove hadd hhyphen hremove _ _ =>
    have hremove := modifierFlags_traced hremove
    exact .cons (modifierFlags_traced hadd)
      (.single (hremove.within hhyphen.cursor.reaches (.refl _)))

/-! ## Groups and assertions

What is inside is traced by hypothesis, between states that lie between those of the group. -/

section Nesting

variable {inside : Nested} {e : Term}

/-- The modifiers of a group were read after its question mark, in an edition that has them. -/
theorem group_modifiers {span : Span} {m : Modifiers} {qs : List Sequence}
    (h : group inside g s = .done (.group span (some m) qs) t) :
    g.edition.supports .modifiers = true ∧ ∃ u v w x mark, s.cursor.Reaches u.cursor ∧
      modifiers g u = .done m v ∧ v.Reads [':'] w ∧ inside mark g w = .done qs x ∧
      x.Reads [')'] t := by
  cases group_reads h with
  | modified hg hopen hm hcolon hqs hclose =>
    exact ⟨hg, _, _, _, _, _, hopen.cursor.reaches, hm, hcolon, hqs, hclose⟩

variable (hinside : ∀ mark s qs t, inside mark g s = .done qs t →
  TracedAll g s (qs.map .sequence) t)

include hinside

/-- What is below a group or a lookaround was given inside it, but for modifiers. -/
theorem Encloses.traced (h : Encloses g inside s e t)
    (hm : ∀ span m qs, e = .group span (some m) qs → Traced g s (.modifiers m) t) :
    TracedAll g s (Node.term e).children t := by
  cases h with
  | look hopen h hclose =>
    rw [Node.children_look]
    exact (hinside _ _ _ _ h).within hopen.cursor.reaches hclose.cursor.reaches
  | @group _ _ _ _ _ _ m hopen h hclose =>
    have hqs := (hinside _ _ _ _ h).within hopen.cursor.reaches hclose.cursor.reaches
    cases m with
    | none =>
      rw [Node.children_group_none]
      exact hqs
    | some m =>
      rw [Node.children_group_some]
      exact ⟨hqs.reaches, List.forall_mem_cons.mpr ⟨hm _ _ _ rfl, hqs.traced⟩⟩
  | capture _ hopen h hclose =>
    rw [Node.children_capture]
    exact (hinside _ _ _ _ h).within hopen.cursor.reaches hclose.cursor.reaches

/-- The children of a group leave a trace. -/
theorem group_traced (h : group inside g s = .done e t) :
    TracedAll g s (Node.term e).children t := by
  refine (group_encloses h).traced hinside ?_
  rintro span m qs rfl
  obtain ⟨-, u, v, w, x, mark, hu, hm, hcolon, hqs, hclose⟩ := group_modifiers h
  exact (modifiers_traced hm).within hu (hcolon.cursor.reaches.trans
    ((hinside _ _ _ _ hqs).reaches.trans hclose.cursor.reaches))

end Nesting

/-! ## Terms

A term is an assertion, an atom or one of them with a quantifier. In the last case the element has a
trace of its own. -/

/-- How a term was read: as an assertion, which only outside the exact grammar and only for a
lookahead may be repeated, or as an atom that may be repeated. -/
inductive ReadsTerm (g : Grammar) (cls : Parser CharSet) (inside : Nested) (s : State) :
    Term → State → Prop
  | assertion {e : Term} {t : State} (h : Parser.assertion inside g s = .done e t) :
      ReadsTerm g cls inside s e t
  | quantifiedAssertion {a e : Term} {t u : State}
      (ha : Parser.assertion inside g s = .done a u) (hg : g.exact = false)
      (hlook : a.isLookahead = true) (h : quantified s.cursor a g u = .done e t) :
      ReadsTerm g cls inside s e t
  | atom {a e : Term} {t u : State} (ha : ReadsAtom g cls inside s a u)
      (h : quantified s.cursor a g u = .done e t) : ReadsTerm g cls inside s e t

/-- What is read as a term is known by what it is: an assertion or an atom, repeated or not. -/
theorem term_reads {cls : Parser CharSet} {inside : Nested} {e : Term}
    (h : term cls inside g s = .done e t) : ReadsTerm g cls inside s e t := by
  rcases term_eq_done h with ⟨a, u, ha, h⟩ | ⟨ha, a, u, hatom, h⟩
  · split at h
    · next hcond =>
      obtain ⟨hg, hlook⟩ := (Bool.and_eq_true _ _).mp hcond
      exact .quantifiedAssertion ha (by simpa using hg) hlook h
    · obtain ⟨rfl, rfl⟩ := pure_eq_done.mp h
      exact .assertion ha
  · exact .atom (atom_reads ha hatom) h

section Terms

variable {d : Nat} {e : Term}
  (hinside : ∀ mark s qs t, nestedAt d mark g s = .done qs t → TracedAll g s (qs.map .sequence) t)
  (hderives : ∀ mark s qs t, nestedAt d mark g s = .done qs t → Derives g s (.disjunction qs) t)

include hinside hderives

theorem assertion_traced (h : assertion (nestedAt d) g s = .done e t) :
    Traced g s (.term e) t := by
  have hreaches := (assertion_derives hderives h).reaches
  refine .of_children (.assertion h) ?_
  rcases orElse_eq_done.mp h with h | ⟨-, h⟩
  · obtain ⟨_, _, rfl⟩ := edgeAssertion_shape h
    exact .nil hreaches
  rcases orElse_eq_done.mp h with h | ⟨-, h⟩
  · obtain ⟨_, _, rfl⟩ := wordBoundary_shape h
    exact .nil hreaches
  · have hencloses := lookaround_encloses h
    obtain ⟨_, _, _, _, rfl⟩ := lookaround_shape h
    exact hencloses.traced hinside nofun

omit hderives in
/-- An atom leaves a trace. -/
theorem ReadsAtom.traced (h : ReadsAtom g (Parser.charClass d false) (nestedAt d) s e t) :
    Traced g s (.term e) t := by
  refine .of_children (.atom h) ?_
  cases h with
  | any hr => exact .nil hr.cursor.reaches
  | @reference _ target _ h => cases target <;> exact .nil h.reaches
  | setEscape h =>
    rw [show (Node.term (.set _)).children = [] from h.children_eq]
    exact .nil h.reaches
  | character h _ => exact .nil h.reaches
  | charClass h => exact charClass_traced h
  | group h => exact group_traced hinside h

omit hinside hderives in
/-- A term that is repeated leaves a trace, and so does the repetition. -/
theorem quantified_traced {e' : Term} (he : Traced g s (.term e) t)
    (hread : g.exact = false ∧ e.isLookahead = true ∨
      ReadsAtom g (Parser.charClass d false) (nestedAt d) s e t)
    (hspan : e.span = .between s.cursor t.cursor)
    (h : quantified s.cursor e g t = .done e' u) : Traced g s (.term e') u := by
  rcases quantified_eq_done h with ⟨r, hr, rfl⟩ | ⟨-, rfl, rfl⟩
  · obtain ⟨cs, hreads, -⟩ := quantifier_eq_done hr
    refine .of_children (.quantified hread hspan he.reaches hr) ?_
    rw [Node.children_quantified]
    exact .single (he.within (.refl _) hreads.cursor.reaches)
  · exact he

omit hinside in
theorem ReadsAtom.span_eq (h : ReadsAtom g (Parser.charClass d false) (nestedAt d) s e t) :
    e.span = .between s.cursor t.cursor := by
  cases h with
  | any _ => rfl
  | reference h => exact h.term_span
  | setEscape h => exact (Derives.termEscape h).term_span
  | character _ _ => rfl
  | charClass h => exact (Derives.termClass (charClass_derives h)).term_span
  | group h => exact (group_derives hderives h).term_span

/-- A term leaves a trace, if what is inside groups does. -/
theorem term_traced (h : term (Parser.charClass d false) (nestedAt d) g s = .done e t) :
    Traced g s (.term e) t := by
  cases term_reads h with
  | assertion ha => exact assertion_traced hinside hderives ha
  | quantifiedAssertion ha hg hlook hq =>
    exact quantified_traced (d := d) (assertion_traced hinside hderives ha) (.inl ⟨hg, hlook⟩)
      (assertion_derives hderives ha).term_span hq
  | atom ha hq =>
    exact quantified_traced (ha.traced hinside) (.inr ha) (ha.span_eq hderives) hq

/-! ## Alternatives

Traces are put one after the other. -/

/-- An alternative, behind which stands a bar or, when all alternatives have been read, no
quantifier. -/
theorem sequence_traced {q : Sequence}
    (h : sequence (charClass d false) (nestedAt d) g s = .done q t)
    (hend : t.cursor.current = some (.ofChar '|') ∨ ∃ x u, noStrayQuantifier g t = .done x u) :
    Traced g s (.sequence q) t := by
  refine .of_children (.alternative h hend) ?_
  obtain ⟨es, hes, rfl⟩ := sequence_eq_done h
  rw [Node.children_sequence]
  exact .of_chain_single (fun _ _ _ => term_traced hinside hderives) (chain_of_many hes)

theorem followingSequences_traced {q : Sequence} {qs : List Sequence}
    (hq : sequence (charClass d false) (nestedAt d) g s = .done q t)
    (h : Chain (fun s q t =>
      followingSequence (charClass d false) (nestedAt d) g s = .done q t) t qs u)
    (hend : ∃ x v, noStrayQuantifier g u = .done x v) :
    TracedAll g s ((q :: qs).map .sequence) u := by
  induction h generalizing s q with
  | nil t => exact .single (sequence_traced hinside hderives hq (.inr hend))
  | cons head _ ih =>
    obtain ⟨v, hbar, hnext⟩ := followingSequence_eq_done head
    have hq := sequence_traced hinside hderives hq (.inl hbar.current_eq)
    exact .cons hq ((ih hnext hend).within hbar.cursor.reaches (.refl _))

/-- Alternatives leave a trace, if what is inside groups does. -/
theorem alternatives_traced {qs : List Sequence}
    (h : alternatives (charClass d false) (nestedAt d) g s = .done qs t) :
    TracedAll g s (qs.map .sequence) t := by
  obtain ⟨q, rest, u, v, hq, hqs, hstray, rfl, rfl⟩ := alternatives_eq_done h
  have htraced :=
    followingSequences_traced hinside hderives hq (chain_of_many hqs) ⟨(), v, hstray⟩
  -- to enter and to leave a disjunction reads nothing
  exact htraced.within (.refl _) (.refl _)

end Terms

/-- Every node below a disjunction was given by a parser of its own. -/
theorem disjunction_traced {depth : Nat} {qs : List Sequence}
    (h : disjunction depth g s = .done qs t) : TracedAll g s (qs.map .sequence) t := by
  induction depth generalizing s t qs with
  | zero =>
    rw [disjunction_eq_nestedAt] at h
    exact alternatives_traced (fun _ _ _ _ h => by cases h) (fun _ _ _ _ h => by cases h) h
  | succ depth ih =>
    rw [disjunction_eq_nestedAt] at h
    exact alternatives_traced (d := depth + 1) (fun _ _ _ _ => ih)
      (fun _ _ _ _ => disjunction_derives) h

end EcmaPattern
