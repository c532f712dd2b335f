import EcmaPattern.Proofs.Fragments.Origins

/-!
# Traces

Every node of a tree was given by a parser of its own that was run in the course of the reading, and
what is known of a node is what that parser has looked at. `Given` says for each kind of node which
parser that is, and `Traced` that every node below a node was given between two states of the
reading. What holds of all nodes of all trees then takes one look at each constructor of `Given`.
Here the relations are set up, and characters and atoms are taken apart.

To prove something of all nodes of all trees one would have to go through all parsers each time. The
trace does it once. What is recorded in it is what the parser looked at, not only what it read,
since some properties are about characters that were not taken, such as a digit that could have
been.
-/

namespace EcmaPattern

open EcmaPattern.Parser

variable {g : Grammar} {s t u v : State}

/-! ## Characters

All ways in which the value of a character is read, with what it was read as. -/

/-- How a character was read. Unlike `ReadsCharacter`, this says that an escape was read by the
parser of escapes, which tries the longer ones first, and that outside the set grammar `\b` was read
as something else before. -/
inductive ReadsValue (g : Grammar) (p : Place) (s : State) : CodePoint → State → Prop
  | plain {c : CodePoint} {t : State} (h : p.allows g c = true) (hr : s.Reads [c] t) :
      ReadsValue g p s c t
  | escaped {v : CodePoint} {t u : State} (hslash : s.Reads ['\\'] u)
      (hb : p ≠ .sets → u.cursor.current ≠ some (.ofChar 'b'))
      (h : escapedValue g u = .done v t) : ReadsValue g p s v t
  | backspace {t : State} (hp : p ≠ .term) (hr : s.Reads ['\\', 'b'] t) :
      ReadsValue g p s (.ofNat 0x08) t
  | hyphen {t : State} (hr : s.Reads ['\\', '-'] t) : ReadsValue g p s '-' t
  | letter {c : CodePoint} {t : State} (hr : s.Reads ['\\', 'c', c] t) :
      ReadsValue g p s (.ofNat (c.val % 0x20)) t
  | punctuator {c : CodePoint} {t : State} (h : c.isClassSetPunctuator = true)
      (hr : s.Reads ['\\', c] t) : ReadsValue g p s c t
  | backslash {t : State} (hr : s.Reads ['\\'] t) : ReadsValue g p s '\\' t

theorem ReadsValue.reaches {p : Place} {c : CodePoint} (h : ReadsValue g p s c t) :
    s.cursor.Reaches t.cursor := by
  cases h with
  | plain _ hr => exact hr.cursor.reaches
  | escaped hslash _ h =>
    obtain ⟨cs, hr, -⟩ := escapedValue_eq_done h
    exact (hslash.trans hr).cursor.reaches
  | backspace _ hr => exact hr.cursor.reaches
  | hyphen hr => exact hr.cursor.reaches
  | letter hr => exact hr.cursor.reaches
  | punctuator _ hr => exact hr.cursor.reaches
  | backslash hr => exact hr.cursor.reaches

/-! ## Atoms

One constructor for each kind of atom, with the first character that decides it. -/

/-- How an atom was read, where no assertion begins. -/
inductive ReadsAtom (g : Grammar) (cls : Parser CharSet) (inside : Nested) (s : State) :
    Term → State → Prop
  | any {t : State} (hr : s.Reads ['.'] t) :
      ReadsAtom g cls inside s (.any (.between s.cursor t.cursor)) t
  | reference {span : Span} {target : Target} {t : State}
      (h : Derives g s (.term (.reference span target)) t) :
      ReadsAtom g cls inside s (.reference span target) t
  | setEscape {x : CharSet} {t : State} (h : ReadsSetEscape g s x t) :
      ReadsAtom g cls inside s (.set x) t
  | character {c : CodePoint} {t : State} (h : ReadsValue g .term s c t)
      (hb : s.cursor.current = some (.ofChar '{') → strayBounds g s = .miss) :
      ReadsAtom g cls inside s (.set (.character ⟨.between s.cursor t.cursor, c⟩)) t
  | charClass {x : CharSet} {t : State} (h : cls g s = .done x t) :
      ReadsAtom g cls inside s (.set x) t
  | group {e : Term} {t : State} (h : group inside g s = .done e t) : ReadsAtom g cls inside s e t

section Atoms

variable {cls : Parser CharSet} {inside : Nested} {e : Term}

theorem edgeAssertion_shape (h : edgeAssertion g s = .done e t) :
    ∃ span edge, e = .edge span edge := by
  rw [edgeAssertion, here_bind, bind_eq_done] at h
  obtain ⟨edge, u, -, h⟩ := h
  rw [spanFrom_bind] at h
  exact ⟨_, edge, (pure_eq_done.mp h).1.symm⟩

theorem wordBoundary_shape (h : wordBoundary g s = .done e t) :
    ∃ span negated, e = .wordBoundary span negated := by
  rw [wordBoundary, here_bind, bind_eq_done] at h
  obtain ⟨negated, u, -, h⟩ := h
  rw [spanFrom_bind] at h
  exact ⟨_, negated, (pure_eq_done.mp h).1.symm⟩

theorem lookaround_shape (h : lookaround inside g s = .done e t) :
    ∃ span direction negated qs, e = .look span direction negated qs := by
  obtain ⟨direction, negated, u, qs, v, -, -, -, rfl⟩ := lookaround_eq_done h
  exact ⟨_, direction, negated, qs, rfl⟩

/-- An assertion is an edge, a word boundary or a lookaround. -/
theorem assertion_kind (h : assertion inside g s = .done e t) :
    e.kind = .edge ∨ e.kind = .wordBoundary ∨ e.kind = .lookaround := by
  rcases orElse_eq_done.mp h with h | ⟨-, h⟩
  · obtain ⟨_, _, rfl⟩ := edgeAssertion_shape h
    exact .inl rfl
  rcases orElse_eq_done.mp h with h | ⟨-, h⟩
  · obtain ⟨_, _, rfl⟩ := wordBoundary_shape h
    exact .inr (.inl rfl)
  · obtain ⟨_, _, _, _, rfl⟩ := lookaround_shape h
    exact .inr (.inr rfl)

/-- A group captures or does not. -/
theorem group_shape (h : group inside g s = .done e t) :
    (∃ span m qs, e = .group span m qs) ∨
      ∃ span index name qs, e = .capture span index name qs := by
  cases group_reads h with
  | capture _ _ _ _ => exact .inr ⟨_, _, _, _, rfl⟩
  | named _ _ _ _ _ => exact .inr ⟨_, _, _, _, rfl⟩
  | plain _ _ _ => exact .inl ⟨_, _, _, rfl⟩
  | modified _ _ _ _ _ _ => exact .inl ⟨_, _, _, rfl⟩

/-- A group captures or does not. -/
theorem group_kind (h : group inside g s = .done e t) :
    e.kind = .group ∨ e.kind = .capturingGroup := by
  rcases group_shape h with ⟨_, _, _, rfl⟩ | ⟨_, _, _, _, rfl⟩
  · exact .inl rfl
  · exact .inr rfl

/-- Where no assertion begins, no `\b` stands. -/
theorem current_ne_of_assertion (h : assertion inside g s = .miss) (hslash : s.Reads ['\\'] u) :
    u.cursor.current ≠ some (.ofChar 'b') := by
  intro hb
  obtain ⟨hcurrent, rfl⟩ := State.reads_singleton.mp hslash
  obtain ⟨-, h⟩ := orElse_eq_miss.mp h
  obtain ⟨h, -⟩ := orElse_eq_miss.mp h
  rw [wordBoundary, here_bind] at h
  rcases bind_eq_miss.mp h with h | ⟨_, _, -, h⟩
  · obtain ⟨-, h⟩ := orElse_eq_miss.mp h
    rcases bind_eq_miss.mp h with h | ⟨_, _, -, h⟩
    · rw [eatAll_eq_miss, List.map_cons, Cursor.eat?, if_pos hcurrent, List.map_cons, Cursor.eat?,
        if_pos hb] at h
      cases h
    · cases h
  · cases h

/-- No bounds begin with a backslash. -/
theorem current_ne_of_backslash (hslash : s.Reads ['\\'] u) :
    s.cursor.current ≠ some (.ofChar '{') := by
  rw [hslash.current_eq]
  decide

/-- What is read behind a backslash is known by what it is. -/
theorem escapedAtom_reads (hmiss : assertion inside g s = .miss)
    (h : escapedAtom g s = .done e t) : ReadsAtom g cls inside s e t := by
  have hderives := escapedAtom_derives h
  rw [escapedAtom, here_bind, eat_bind_eq_done] at h
  obtain ⟨u, hslash, h⟩ := h
  have hne := current_ne_of_backslash hslash
  rcases orElse_eq_done.mp h with h | ⟨-, h⟩
  · obtain ⟨n, cs, -, -, -, -, -, rfl⟩ := numberedReference_eq_done h
    exact .reference hderives
  rcases orElse_eq_done.mp h with h | ⟨-, h⟩
  · obtain ⟨x, hx, rfl⟩ := map_eq_done.mp h
    obtain ⟨cs, make, hr, hcs, rfl⟩ := setEscape_eq_done hx
    exact .setEscape (.mk hcs (hslash.trans hr))
  rcases orElse_eq_done.mp h with h | ⟨-, h⟩
  · obtain ⟨c, hc, rfl⟩ := map_eq_done.mp h
    rw [characterEscape, bind_eq_done] at hc
    obtain ⟨w, x, hw, hc⟩ := hc
    obtain ⟨rfl, rfl⟩ := characterFrom_eq_done.mp hc
    exact .character (.escaped hslash (fun _ => current_ne_of_assertion hmiss hslash) hw)
      fun hc => absurd hc hne
  rcases orElse_eq_done.mp h with h | ⟨-, h⟩
  · obtain ⟨cs, name, -, -, -, rfl⟩ := namedReference_eq_done h
    exact .reference hderives
  · rw [grammar_bind, require_bind_eq_done] at h
    exact absurd h.2 fail_ne_done

theorem plainCharacter_reads {test : CodePoint → Bool}
    (htest : ∀ c, test c = true → Place.term.allows g c = true)
    (hb : s.cursor.current = some (.ofChar '{') → test '{' = true → strayBounds g s = .miss)
    (h : plainCharacter test g s = .done e t) : ReadsAtom g cls inside s e t := by
  rw [plainCharacter, here_bind, bind_eq_done] at h
  obtain ⟨c, u, hc, h⟩ := h
  obtain ⟨x, hx, rfl⟩ := map_eq_done.mp h
  obtain ⟨rfl, rfl⟩ := characterSetFrom_eq_done.mp hx
  obtain ⟨hc, hr⟩ := satisfy_eq_done.mp hc
  refine .character (.plain (htest c hc) hr) fun hbrace => hb hbrace ?_
  rw [hr.current_eq] at hbrace
  rwa [Option.some.inj hbrace] at hc

theorem lonelyBackslash_reads (h : lonelyBackslash g s = .done e t) :
    ReadsAtom g cls inside s e t := by
  rw [lonelyBackslash, here_bind, eat_bind_eq_done] at h
  obtain ⟨u, hslash, h⟩ := h
  rw [sees_bind, require_bind_eq_done] at h
  obtain ⟨x, hx, rfl⟩ := map_eq_done.mp h.2
  obtain ⟨rfl, rfl⟩ := characterSetFrom_eq_done.mp hx
  exact .character (.backslash hslash) fun hc => absurd hc (current_ne_of_backslash hslash)

theorem anyCharacter_reads (h : anyCharacter g s = .done e t) : ReadsAtom g cls inside s e t := by
  rw [anyCharacter, here_bind, eat_bind_eq_done] at h
  obtain ⟨u, hr, h⟩ := h
  rw [spanFrom_bind] at h
  obtain ⟨rfl, rfl⟩ := pure_eq_done.mp h
  exact .any hr

/-- What is read as an atom is known by what it is, in either grammar. -/
theorem atom_reads (hmiss : assertion inside g s = .miss)
    (h : (if g.exact then atom cls inside else webAtom cls inside) g s = .done e t) :
    ReadsAtom g cls inside s e t := by
  cases hg : g.exact with
  | true =>
    rw [hg, if_pos rfl] at h
    rcases orElse_eq_done.mp h with h | ⟨-, h⟩
    · exact anyCharacter_reads h
    rcases orElse_eq_done.mp h with h | ⟨-, h⟩
    · exact escapedAtom_reads hmiss h
    rcases orElse_eq_done.mp h with h | ⟨-, h⟩
    · obtain ⟨x, hx, rfl⟩ := map_eq_done.mp h
      exact .charClass hx
    rcases orElse_eq_done.mp h with h | ⟨-, h⟩
    · exact .group h
    · exact plainCharacter_reads (fun c hc => by rwa [Place.allows, if_pos hg])
        (fun _ hbrace => absurd hbrace (by decide)) h
  | false =>
    rw [hg, if_neg Bool.false_ne_true] at h
    rcases orElse_eq_done.mp h with h | ⟨-, h⟩
    · exact anyCharacter_reads h
    rcases orElse_eq_done.mp h with h | ⟨-, h⟩
    · exact escapedAtom_reads hmiss h
    rcases orElse_eq_done.mp h with h | ⟨-, h⟩
    · exact lonelyBackslash_reads h
    rcases orElse_eq_done.mp h with h | ⟨-, h⟩
    · obtain ⟨x, hx, rfl⟩ := map_eq_done.mp h
      exact .charClass hx
    rcases orElse_eq_done.mp h with h | ⟨-, h⟩
    · exact .group h
    rcases orElse_eq_done.mp h with h | ⟨hstray, h⟩
    · exact absurd h strayBounds_ne_done
    -- a brace is read as a character only after bounds have been looked for
    · exact plainCharacter_reads (fun c hc => by rwa [Place.allows, if_neg (by simp [hg])])
        (fun _ _ => hstray) h

end Atoms

/-! ## Nodes

`Given` is a relation between two states and a node. A node below a node was given between states in
between, so `Traced` is closed under what comes before and behind. -/

/-- The node was given between two states by the parser for it. -/
inductive Given (g : Grammar) (s : State) : Node → State → Prop
  | alternative {d : Nat} {q : Sequence} {t : State}
      (h : Parser.sequence (Parser.charClass d false) (nestedAt d) g s = .done q t)
      (hend : t.cursor.current = some (.ofChar '|') ∨
        ∃ x u, noStrayQuantifier g t = .done x u) : Given g s (.sequence q) t
  | assertion {d : Nat} {e : Term} {t : State}
      (h : Parser.assertion (nestedAt d) g s = .done e t) : Given g s (.term e) t
  | atom {d : Nat} {e : Term} {t : State}
      (h : ReadsAtom g (Parser.charClass d false) (nestedAt d) s e t) : Given g s (.term e) t
  | quantified {d : Nat} {e : Term} {r : Repetition} {t u : State}
      (he : g.exact = false ∧ e.isLookahead = true ∨
        ReadsAtom g (Parser.charClass d false) (nestedAt d) s e u)
      (hspan : e.span = .between s.cursor u.cursor) (hreaches : s.cursor.Reaches u.cursor)
      (h : Parser.quantifier false g u = .done r t) :
      Given g s (.term (.quantified (.between s.cursor t.cursor) r e)) t
  | modifiers {m : Modifiers} {t : State} (h : Parser.modifiers g s = .done m t) :
      Given g s (.modifiers m) t
  | modifierFlags {f : ModifierFlags} {t : State} (h : Parser.modifierFlags g s = .done f t) :
      Given g s (.modifierFlags f) t
  | character {c : CodePoint} {t : State} (h : ReadsValue g g.classPlace s c t) :
      Given g s (.charSet (.character ⟨.between s.cursor t.cursor, c⟩)) t
  | setEscape {x : CharSet} {t : State} (h : ReadsSetEscape g s x t) : Given g s (.charSet x) t
  | range {span : Span} {first last : Character} {t : State} :
      Given g s (.charSet (.range span first last)) t
  | strings {span : Span} {xs : List ClassString} {t : State} (hg : g.sets = true) :
      Given g s (.charSet (.strings span xs)) t
  | string {x : ClassString} {t : State} (hg : g.sets = true) : Given g s (.classString x) t
  | operation {span : Span} {op : SetOperation} {x y : CharSet} {t : State} (hg : g.sets = true) :
      Given g s (.charSet (.operation span op x y)) t
  | nested {x : CharSet} {t : State} (hg : g.sets = true) (h : Derives g s (.charClass x) t) :
      Given g s (.charSet x) t

/-- A character in a class. -/
theorem Given.character_of_charSet {c : Character} (h : Given g s (.charSet (.character c)) t) :
    c.span = .between s.cursor t.cursor ∧ ReadsValue g g.classPlace s c.value t := by
  generalize hx : CharSet.character c = x at h
  cases h with
  | character h =>
    cases hx
    exact ⟨rfl, h⟩
  | setEscape h =>
    cases h with
    | mk h _ => cases h <;> cases hx
  | nested _ h => cases h <;> cases hx
  | _ => cases hx

/-- A character outside classes. -/
theorem Given.character_of_term {c : Character} (h : Given g s (.term (.set (.character c))) t) :
    c.span = .between s.cursor t.cursor ∧ ReadsValue g .term s c.value t ∧
      (s.cursor.current = some (.ofChar '{') → strayBounds g s = .miss) := by
  generalize hx : Term.set (.character c) = x at h
  cases h with
  | assertion h => rcases assertion_kind h with hk | hk | hk <;> rw [← hx] at hk <;> cases hk
  | atom h =>
    cases h with
    | character h hb =>
      cases hx
      exact ⟨rfl, h, hb⟩
    | setEscape h =>
      cases h with
      | mk h _ => cases h <;> cases hx
    | charClass h =>
      have hclass := charClass_derives h
      cases hx
      cases hclass
    | group h => rcases group_kind h with hk | hk <;> rw [← hx] at hk <;> cases hk
    | _ => cases hx
  | quantified _ _ _ _ => cases hx

/-- A repeated term is an atom or, by the web grammar, a lookahead, and behind it a quantifier was
read. -/
theorem Given.quantified_parts {span : Span} {r : Repetition} {e : Term}
    (h : Given g s (.term (.quantified span r e)) t) :
    ∃ d u, (g.exact = false ∧ e.isLookahead = true ∨
        ReadsAtom g (Parser.charClass d false) (nestedAt d) s e u) ∧
      e.span = .between s.cursor u.cursor ∧ s.cursor.Reaches u.cursor ∧
      span = .between s.cursor t.cursor ∧ Parser.quantifier false g u = .done r t := by
  generalize hx : Term.quantified span r e = x at h
  cases h with
  | assertion h => rcases assertion_kind h with hk | hk | hk <;> rw [← hx] at hk <;> cases hk
  | atom h =>
    cases h with
    | group h => rcases group_kind h with hk | hk <;> rw [← hx] at hk <;> cases hk
    | _ => cases hx
  | @quantified d _ _ _ u he hspan hreaches h =>
    cases hx
    exact ⟨d, u, he, hspan, hreaches, rfl, h⟩

/-- Every node of the tree was given between two states that lie between the given ones. -/
structure Traced (g : Grammar) (s : State) (n : Node) (t : State) : Prop where
  reaches : s.cursor.Reaches t.cursor
  given : ∀ m ∈ n.descendants, ∃ u v, s.cursor.Reaches u.cursor ∧ v.cursor.Reaches t.cursor ∧
    Given g u m v

/-- Trees one after the other, all of whose nodes were given. -/
structure TracedAll (g : Grammar) (s : State) (ns : List Node) (t : State) : Prop where
  reaches : s.cursor.Reaches t.cursor
  traced : ∀ n ∈ ns, Traced g s n t

/-- A node that was given between two states was given between any two states around them. -/
theorem Traced.within {n : Node} (h : Traced g t n u) (hst : s.cursor.Reaches t.cursor)
    (huv : u.cursor.Reaches v.cursor) : Traced g s n v := by
  refine ⟨hst.trans (h.reaches.trans huv), fun m hm => ?_⟩
  obtain ⟨a, b, ha, hb, hgiven⟩ := h.given m hm
  exact ⟨a, b, hst.trans ha, hb.trans huv, hgiven⟩

/-- A node is traced if it was given and what is below it is traced. -/
theorem Traced.of_children {n : Node} (h : Given g s n t) (hc : TracedAll g s n.children t) :
    Traced g s n t :=
  ⟨hc.reaches, Node.forall_descendants.mpr
    ⟨⟨s, t, .refl _, .refl _, h⟩, fun c hmem => (hc.traced c hmem).given⟩⟩

namespace TracedAll

variable {ns ms : List Node}

theorem nil (h : s.cursor.Reaches t.cursor) : TracedAll g s [] t := ⟨h, List.forall_mem_nil _⟩

theorem single {n : Node} (h : Traced g s n t) : TracedAll g s [n] t :=
  ⟨h.reaches, List.forall_mem_singleton.mpr h⟩

/-- Nodes one after the other leave their traces one after the other. -/
theorem append (h : TracedAll g s ns t) (h' : TracedAll g t ms u) : TracedAll g s (ns ++ ms) u := by
  refine ⟨h.reaches.trans h'.reaches, fun n hn => ?_⟩
  rcases List.mem_append.mp hn with hn | hn
  · exact (h.traced n hn).within (.refl _) h'.reaches
  · exact (h'.traced n hn).within h.reaches (.refl _)

theorem cons {n : Node} (h : Traced g s n t) (h' : TracedAll g t ms u) :
    TracedAll g s (n :: ms) u :=
  (single h).append h'

theorem within (h : TracedAll g t ns u) (hst : s.cursor.Reaches t.cursor)
    (huv : u.cursor.Reaches v.cursor) : TracedAll g s ns v :=
  ⟨hst.trans (h.reaches.trans huv), fun n hn => (h.traced n hn).within hst huv⟩

/-- The steps of a repetition are traced one by one. -/
theorem of_chain {α : Type} {as : List α} {f : α → List Node} {step : State → α → State → Prop}
    (hstep : ∀ s a t, step s a t → TracedAll g s (f a) t) (h : Chain step s as t) :
    TracedAll g s (as.flatMap f) t := by
  induction h with
  | nil s => exact .nil (.refl _)
  | cons head _ ih => exact (hstep _ _ _ head).append ih

/-- If each step of a chain leaves a trace, so does the chain. -/
theorem of_chain_single {α : Type} {as : List α} {f : α → Node}
    {step : State → α → State → Prop} (hstep : ∀ s a t, step s a t → Traced g s (f a) t)
    (h : Chain step s as t) : TracedAll g s (as.map f) t := by
  rw [← List.flatMap_singleton' (as.map f), List.flatMap_map]
  exact of_chain (fun s a t ha => .single (hstep s a t ha)) h

end TracedAll

/-- A node with nothing below it is traced if it was given. -/
theorem Traced.leaf {n : Node} (h : Given g s n t) (hc : n.children = [])
    (hreaches : s.cursor.Reaches t.cursor) : Traced g s n t :=
  .of_children h (hc ▸ .nil hreaches)

end EcmaPattern
