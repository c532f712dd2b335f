import EcmaPattern.Proofs.CharacterValues.Answers
import EcmaPattern.Proofs.Fragments.Constructs

/-!
# Constructs and where they are allowed

Some constructs came with a later edition, some are read only by code points, and some only by the
set grammar. The parsers ask for this in many places, some before a construct has been read and some
after. `Node.Allowed` says what each node demands of the edition and the flags, and every node that
was given demands no more than there is (`Node.GivenIn.allowed`). A reference by name is the
exception: it may be read where no group can have a name, and is refused only when the pattern is
resolved.

Key lemmas:

* `listed_of_ofName?` and `listed_of_ofPair?`, on the tables of properties;
* `group_allowed` and `assertion_allowed`, for what came with an edition;
* `Node.GivenIn.allowed`, with one case for each constructor of the trace.
-/

namespace EcmaPattern

open EcmaPattern.Parser

/-! ## What is allowed

One demand for each kind of node, stated apart from the parsers. It is a function of the node, so a
reader can compare it with the standard. -/

def ModifierFlags.switches : List (ModifierFlags → Bool) := [ignoreCase, multiline, dotAll]

/-- A group turns some flag on or off, and none both. -/
structure Modifiers.Apart (m : Modifiers) : Prop where
  disjoint : ∀ has ∈ ModifierFlags.switches, has m.add = true → m.remove.any has = false
  nonempty : ∃ has ∈ ModifierFlags.switches, has m.add = true ∨ m.remove.any has = true

/-- The tables of an edition list the property: as one with a value, as one that characters have or
lack, or as one of strings. -/
def Property.Listed (e : Edition) (p : Property) : Prop :=
  match p.value with
  | some value => p.strings = false ∧ isValue e p.key value = true
  | none => (if p.strings then isOfStrings e p.key else isBinary e p.key) = true

def Kind.isClass : Kind → Bool
  | characterClass => true
  | expressionClass => true
  | _ => false

def CharSet.Allowed (e : Edition) (flags : FlagSet) : CharSet → Prop
  | character c => 0xFFFF < c.value.val → flags.unicodeMode = true
  | property _ p _ => flags.unicodeMode = true ∧ .es2018 ≤ e ∧ p.Listed e ∧
      (p.strings = true → flags.unicodeSets = true ∧ .es2024 ≤ e)
  | strings _ _ => flags.unicodeSets = true
  | operation _ _ _ _ => flags.unicodeSets = true
  | listing _ _ sets _ => sets = flags.unicodeSets
  | expression _ _ _ => flags.unicodeSets = true
  | escape _ _ _ => True
  | range _ _ _ => True

/-- What a node demands of the edition and the flags. -/
def Node.Allowed (e : Edition) (flags : FlagSet) : Node → Prop
  | .term (.look _ .behind _ _) => .es2018 ≤ e
  | .term (.capture _ _ (some _) _) => .es2018 ≤ e
  | .term (.reference _ (.name _ _)) => .es2018 ≤ e
  | .term (.group _ (some m) _) => .es2025 ≤ e ∧ m.Apart
  | .term (.set x) => x.Allowed e flags
  | .charSet x => x.Allowed e flags
  | _ => True

/-- Below a class stand other classes only under the set grammar. -/
def Node.NestsClasses (flags : FlagSet) (n : Node) : Prop :=
  n.kind.isClass = true → ∀ c ∈ n.children, ∀ m ∈ c.descendants, m.kind.isClass = true →
    flags.unicodeSets = true

section Editions

variable {e : Edition} {flags : FlagSet}

/-- A feature is supported from the edition on that brought it. -/
theorem Edition.since_le {f : Feature} (h : e.supports f = true) : f.since ≤ e :=
  of_decide_eq_true h

/-- To resolve references takes nothing from a node and adds nothing that is asked for. -/
theorem Node.allowed_resolve {f : GroupName → List Nat} {n : Node} (h : n.Allowed e flags) :
    (n.resolve f).Allowed e flags := by
  cases n with
  | term x =>
    cases x with
    | look span direction negated qs => cases direction <;> exact h
    | group span m qs => cases m <;> exact h
    | capture span index name qs => cases name <;> exact h
    | reference span target => cases target <;> exact h
    | quantified span r x => trivial
    | _ => exact h
  | sequence q => cases q; trivial
  | _ => exact h

end Editions

/-! ## Properties

A property that was found in the tables of an edition is listed since that edition or an earlier
one. -/

namespace Property

variable {e : Edition} {p : Property} {name value : String}

/-- A property that is read with a value is listed with it. -/
theorem listed_of_ofPair? (h : ofPair? e name value = some p) : p.strings = false ∧ p.Listed e := by
  rw [ofPair?] at h
  split at h
  · next hvalue =>
    obtain rfl := Option.some.inj h
    exact ⟨rfl, rfl, hvalue⟩
  · cases h

/-- A property of strings is found only where these are allowed. -/
theorem listed_of_ofName? {allowed : Bool} (h : ofName? e allowed name = some p) :
    (p.strings = true → allowed = true) ∧ p.Listed e := by
  rw [ofName?] at h
  split at h
  · next hvalue =>
    obtain rfl := Option.some.inj h
    exact ⟨fun hs => absurd hs Bool.false_ne_true, rfl, hvalue⟩
  split at h
  · next hbinary =>
    obtain rfl := Option.some.inj h
    exact ⟨fun hs => absurd hs Bool.false_ne_true, hbinary⟩
  split at h
  · next hstrings =>
    obtain rfl := Option.some.inj h
    obtain ⟨hallowed, hstrings⟩ := (Bool.and_eq_true _ _).mp hstrings
    exact ⟨fun _ => hallowed, hstrings⟩
  · cases h

/-- Names that only later editions list are not listed before. -/
theorem since_le_of_listed {table : List (Edition × List String)} {since : Edition}
    (htable : ∀ row ∈ table, since ≤ row.1) (h : listed table e name = true) : since ≤ e := by
  rw [listed, List.any_eq_true] at h
  obtain ⟨row, hrow, h⟩ := h
  obtain ⟨hle, -⟩ := (Bool.and_eq_true _ _).mp h
  exact Nat.le_trans (htable row hrow) (of_decide_eq_true hle)

/-- Properties of strings are listed from ES2024 on. -/
theorem Listed.es2024_of_strings (h : p.Listed e) (hs : p.strings = true) : .es2024 ≤ e := by
  obtain ⟨key, value, strings⟩ := p
  obtain rfl : strings = true := hs
  cases value with
  | some value => cases h.1
  | none =>
    refine since_le_of_listed ?_ h
    rw [stringNames]
    exact List.forall_mem_singleton.mpr (Nat.le_refl _)

end Property

/-! ## Modifiers

No letter is switched twice, and none both on and off. -/

section Modifiers

variable {g : Grammar} {s t u : State} {f : ModifierFlags} {m : Modifiers}

/-- Letters that were read switch some flag. -/
theorem modifierFlags_switch (h : modifierFlags g s = .done f t) (hf : noLetters f = false) :
    ∃ has ∈ ModifierFlags.switches, has f = true := by
  rw [modifierFlags, here_bind, bind_eq_done] at h
  obtain ⟨letters, u, hletters, h⟩ := h
  obtain ⟨hr, hall⟩ := reads_of_chain_satisfy (chain_of_many hletters)
  cases hrepeat : firstRepeat [] 0 letters with
  | some pair =>
    simp only [hrepeat] at h
    exact absurd h failAt_ne_done
  | none =>
    simp only [hrepeat] at h
    rw [spanFrom_bind] at h
    obtain ⟨rfl, rfl⟩ := pure_eq_done.mp h
    cases letters with
    | nil =>
      rw [noLetters, Cursor.reads_nil.mp hr.cursor] at hf
      simp [Span.between] at hf
    | cons c cs =>
      have hc := hall c List.mem_cons_self
      simp only [isModifierLetter, CodePoint.isOneOf, List.any_cons, List.any_nil, Bool.or_false,
        Bool.or_eq_true, beq_iff_eq] at hc
      rcases hc with rfl | rfl | rfl
      · exact ⟨_, List.mem_cons_self, by simp⟩
      · exact ⟨_, List.mem_cons_of_mem _ List.mem_cons_self, by simp⟩
      · exact ⟨_, List.mem_cons_of_mem _ (List.mem_cons_of_mem _ List.mem_cons_self), by simp⟩

/-- Flags that do not clash are turned on or off, but not both. -/
theorem disjoint_of_clash? {add remove : ModifierFlags} (h : clash? add remove = none) :
    ∀ has ∈ ModifierFlags.switches, has add = true → has remove = false := by
  rw [clash?] at h
  split at h
  · cases h
  split at h
  · cases h
  split at h
  · cases h
  · intro has hmem hadd
    simp only [ModifierFlags.switches, List.mem_cons, List.not_mem_nil, or_false] at hmem
    rcases hmem with rfl | rfl | rfl <;> simp_all

/-- Modifiers with a colon behind them turn some flag on or off, and none both. -/
theorem modifiers_apart (h : modifiers g s = .done m t) (hcolon : t.Reads [':'] u) : m.Apart := by
  cases modifiers_given h with
  | add hadd hletters =>
    obtain ⟨has, hmem, hon⟩ := modifierFlags_switch hadd hletters
    exact ⟨fun _ _ _ => rfl, has, hmem, .inl hon⟩
  | remove hadd _ hremove hclash hletters =>
    refine ⟨disjoint_of_clash? hclash, ?_⟩
    rw [Cursor.peek_zero, hcolon.current_eq, beq_self_eq_true, Bool.and_true,
      Bool.and_eq_false_iff] at hletters
    rcases hletters with hletters | hletters
    · obtain ⟨has, hmem, hon⟩ := modifierFlags_switch hremove hletters
      exact ⟨has, hmem, .inr hon⟩
    · obtain ⟨has, hmem, hon⟩ := modifierFlags_switch hadd hletters
      exact ⟨has, hmem, .inl hon⟩

end Modifiers

/-! ## Nodes

Each of them looked at once, where it was given. -/

section Sets

variable {g : Grammar} {s t : State} {flags : FlagSet} {x : CharSet}

/-- An escape for a set is allowed where it can be read. -/
theorem ReadsSetEscape.allowed (hunicode : g.unicode = flags.unicodeMode)
    (hsets : g.sets = flags.unicodeSets) (h : ReadsSetEscape g s x t) :
    x.Allowed g.edition flags := by
  cases h with
  | mk h _ =>
    cases h with
    | letter h => trivial
    | @property c cs p negated hu hs _ _ hp _ =>
      have hlisted : (p.strings = true → g.sets = true) ∧ p.Listed g.edition := by
        rcases hp with ⟨name, value, hp⟩ | ⟨name, hp⟩
        · obtain ⟨hno, hp⟩ := Property.listed_of_ofPair? hp
          exact ⟨fun hyes => absurd (hno.symm.trans hyes) Bool.false_ne_true, hp⟩
        · exact Property.listed_of_ofName? hp
      exact ⟨hunicode ▸ hu, Edition.since_le hs, hlisted.2,
        fun hp => ⟨hsets ▸ hlisted.1 hp, hlisted.2.es2024_of_strings hp⟩⟩

/-- A class is allowed where it can be read. -/
theorem Derives.class_allowed (hsets : g.sets = flags.unicodeSets)
    (h : Derives g s (.charClass x) t) : x.Allowed g.edition flags := by
  cases h with
  | listing _ _ _ _ => exact hsets
  | expression hg _ _ _ _ _ => exact hsets.symm.trans hg

/-- A class is a node inside another class only under the set grammar. -/
theorem Given.sets_of_class (h : Given g s (.charSet x) t) (hx : x.kind.isClass = true) :
    g.sets = true := by
  cases h with
  | character h => cases hx
  | setEscape h =>
    cases h with
    | mk h _ => cases h <;> cases hx
  | range => cases hx
  | strings hg => exact hg
  | operation hg => exact hg
  | nested hg _ => exact hg

/-- A class between terms was given by the parser of classes. -/
theorem Given.charClass_of_term (h : Given g s (.term (.set x)) t) (hx : x.kind.isClass = true) :
    ∃ d, charClass d false g s = .done x t := by
  generalize hy : Term.set x = y at h
  have hkind : y.kind.isClass = true := hy ▸ hx
  cases h with
  | assertion h => rcases assertion_kind h with hk | hk | hk <;> rw [hk] at hkind <;> cases hkind
  | atom h =>
    cases h with
    | charClass h =>
      cases hy
      exact ⟨_, h⟩
    | setEscape h =>
      cases hy
      cases h with
      | mk h _ => cases h <;> cases hx
    | character h =>
      cases hy
      cases hx
    | group h => rcases group_kind h with hk | hk <;> rw [hk] at hkind <;> cases hkind
    | _ => cases hy
  | quantified _ _ _ _ => cases hy

end Sets

section Terms

variable {g : Grammar} {s t : State} {flags : FlagSet} {d : Nat} {x : Term}

theorem assertion_allowed (h : assertion (nestedAt d) g s = .done x t) :
    (Node.term x).Allowed g.edition flags := by
  rcases orElse_eq_done.mp h with h | ⟨-, h⟩
  · obtain ⟨_, _, rfl⟩ := edgeAssertion_shape h
    trivial
  rcases orElse_eq_done.mp h with h | ⟨-, h⟩
  · obtain ⟨_, _, rfl⟩ := wordBoundary_shape h
    trivial
  · have hderives := lookaround_derives (fun _ _ _ _ => nestedAt_derives) h
    obtain ⟨span, direction, negated, qs, rfl⟩ := lookaround_shape h
    cases direction with
    | ahead => trivial
    | behind =>
      cases hderives with
      | look hg _ _ _ => exact Edition.since_le (hg rfl)

/-- A group is allowed where it can be read: a name and modifiers demand their editions. -/
theorem group_allowed (h : group (nestedAt d) g s = .done x t) :
    (Node.term x).Allowed g.edition flags := by
  rcases group_shape h with ⟨span, m, qs, rfl⟩ | ⟨span, index, name, qs, rfl⟩
  · cases m with
    | none => trivial
    | some m =>
      obtain ⟨hg, u, v, w, y, mark, -, hm, hcolon, -, -⟩ := group_modifiers h
      exact ⟨Edition.since_le hg, modifiers_apart hm hcolon⟩
  · cases name with
    | none => trivial
    | some name =>
      cases group_derives (fun _ _ _ _ => nestedAt_derives) h with
      | namedCapture hg _ _ _ _ _ => exact Edition.since_le hg

end Terms

section Nodes

variable {o : Options} {flags : FlagSet} {slice : Slice} {n : Node}

/-- A value beyond the first plane is read only by code points. -/
theorem ReadsValue.value_allowed {named : Bool} {p : Place} {s t : State} {c : Character}
    (hs : slice.Holds flags.unicodeMode s.cursor) (hp : p = .sets → flags.unicodeMode = true)
    (hspan : c.span = .between s.cursor t.cursor)
    (h : ReadsValue (Pattern.grammarFor o flags named (slice.cursor flags.unicodeMode)) p s
      c.value t) :
    (CharSet.character c).Allowed o.edition flags := by
  intro hlarge
  obtain ⟨-, hdecodes⟩ := h.decodes_raw hs hp hspan
  cases hmode : flags.unicodeMode with
  | true => rfl
  | false =>
    rw [hmode] at hdecodes
    have hle := hdecodes.value_le
    omega

/-- A node that was given demands no more than there is, but for references by name. -/
theorem Node.GivenIn.allowed (h : n.GivenIn o flags slice)
    (href : ∀ span name indexes, n = .term (.reference span (.name name indexes)) →
      .es2018 ≤ o.edition) :
    n.Allowed o.edition flags := by
  obtain ⟨named, m, f, s, t, rfl, hs, h⟩ := h
  refine Node.allowed_resolve ?_
  cases h with
  | alternative _ _ => trivial
  | assertion h => exact assertion_allowed h
  | atom h =>
    cases h with
    | any _ => trivial
    -- the only demand that cannot be read off where the node was given
    | @reference span target _ _ =>
      cases target with
      | number k => trivial
      | name name indexes => exact href span name (f name) rfl
    | setEscape h => exact h.allowed rfl rfl
    | @character c _ h _ =>
      exact h.value_allowed (p := .term) (c := ⟨.between s.cursor t.cursor, c⟩) hs nofun rfl
    | charClass h => exact (charClass_derives h).class_allowed rfl
    | group h => exact group_allowed h
  | quantified _ _ _ _ => trivial
  | modifiers _ => trivial
  | modifierFlags _ => trivial
  | @character c _ h =>
    refine h.value_allowed (c := ⟨.between s.cursor t.cursor, c⟩) hs (fun hplace => ?_) rfl
    -- inside a class by ranges no value can be above what a unit holds unless by code points
    cases hsets : flags.unicodeSets with
    | true => exact FlagSet.unicodeMode_of_sets hsets
    | false =>
      rw [Grammar.classPlace_ranges hsets] at hplace
      cases hplace
  | setEscape h => exact h.allowed rfl rfl
  | range => trivial
  | strings hg => exact hg
  | string _ => trivial
  | operation hg => exact hg
  | nested _ h => exact h.class_allowed rfl

/-- A node that a parser gave nests classes only under the set grammar. -/
theorem Node.GivenIn.nestsClasses (h : n.GivenIn o flags slice) : n.NestsClasses flags := by
  obtain ⟨named, m, f, s, t, rfl, hs, h⟩ := h
  intro hn c hc d hd hclass
  cases m with
  | charSet x => exact h.sets_of_class hn
  | term x =>
    cases x with
    | set x =>
      obtain ⟨depth, h⟩ := h.charClass_of_term hn
      obtain ⟨u, v, -, -, hgiven⟩ := ((charClass_traced h).traced c hc).given d hd
      have hinside : d.insideClass :=
        insideClass_of_mem_descendants (insideClass_of_mem_children (n := .charSet x) rfl hc) hd
      cases d with
      | charSet y => exact hgiven.sets_of_class hclass
      | classString y => cases hclass
      | _ => cases hinside
    | reference span target => cases target <;> cases hn
    | _ => cases hn
  | sequence q => cases q; cases hn
  | _ => cases hn

end Nodes

/-! ## Patterns

A reference by name is allowed where it resolved, since then there is a group with a name, and for
that the demand was met. -/

section Patterns

variable {o : Options} {flags : FlagSet} {slice : Slice} {p : Pattern}

/-- A name that groups of a tree have stands in one of them. -/
theorem Node.named_of_indexesOf {n : Node} {name : GroupName} (h : n.indexesOf name ≠ []) :
    ∃ span index qs, .term (.capture span index (some name) qs) ∈ n.descendants := by
  obtain ⟨i, hi⟩ := List.exists_mem_of_ne_nil _ h
  obtain ⟨c, hc, -⟩ := List.mem_map.mp hi
  obtain ⟨hc, hname⟩ := List.mem_filter.mp hc
  obtain ⟨m, hm, hcapture⟩ := List.mem_filterMap.mp hc
  cases m with
  | term x =>
    cases x with
    | capture span index name' qs =>
      obtain rfl := Option.some.inj hcapture
      obtain rfl : name' = some name := eq_of_beq hname
      exact ⟨span, index, qs, hm⟩
    | _ => cases hcapture
  | _ => cases hcapture

/-- A reference by name stands only where groups can have names, since it means such a group. -/
theorem Pattern.named_of_read (h : read o flags slice = .ok p) {span : Span} {name : GroupName}
    {indexes : List Nat}
    (hn : Node.term (.reference span (.name name indexes)) ∈ (Node.pattern p).descendants) :
    .es2018 ≤ o.edition := by
  obtain ⟨named, scope, hpass⟩ := pass_of_read h
  obtain ⟨hindexes, -, hne⟩ := resolved_of_pass hpass span name indexes hn
  obtain ⟨span', index, qs, hcapture⟩ := Node.named_of_indexesOf (hindexes ▸ hne)
  rcases given_of_read h _ hcapture with heq | hgiven
  · cases heq
  · exact hgiven.allowed nofun

/-- A pattern holds only what its edition and its flags allow. -/
theorem constructs_only_where_allowed (o : Options) (choice : FlagChoice) (slice : Slice)
    (p : Pattern) (h : parsePattern o choice slice = .ok p) :
    ∃ flags, choice.resolve o.edition = .ok flags ∧ ∀ n ∈ (Node.pattern p).descendants,
      n.Allowed o.edition flags ∧ n.NestsClasses flags := by
  obtain ⟨flags, hflags, hread⟩ := parsePattern_eq_ok.mp h
  refine ⟨flags, hflags, fun n hn => ?_⟩
  rcases Pattern.given_of_read hread n hn with rfl | hgiven
  · exact ⟨trivial, nofun⟩
  · refine ⟨hgiven.allowed ?_, hgiven.nestsClasses⟩
    rintro span name indexes rfl
    exact Pattern.named_of_read hread hn

theorem constructs_only_where_allowed_by_newest_edition :
    ∃ p, parsePattern (.ofEdition .es2025 true) (.text ['v', 'g'])
        (.whole (.ofString "\\k<n>(?<=a)(?i-m:\\p{RGI_Emoji}|\\p{Lu})(?<n>[a&&[b]])\\u{1F600}")) =
          .ok p ∧
      ∃ flags, (FlagChoice.text ['v', 'g']).resolve .es2025 = .ok flags ∧
        ∀ n ∈ (Node.pattern p).descendants, n.Allowed .es2025 flags ∧ n.NestsClasses flags := by
  obtain ⟨p, hp⟩ : ∃ p, parsePattern (.ofEdition .es2025 true) (.text ['v', 'g'])
      (.whole (.ofString "\\k<n>(?<=a)(?i-m:\\p{RGI_Emoji}|\\p{Lu})(?<n>[a&&[b]])\\u{1F600}")) =
        .ok p :=
    Except.exists_eq_ok (by decide +kernel)
  exact ⟨p, hp, constructs_only_where_allowed (.ofEdition .es2025 true) _ _ p hp⟩

end Patterns

end EcmaPattern
