import EcmaPattern.Proofs.Extension.Terms
import EcmaPattern.Proofs.Runs

/-!
# Passes over texts that go on

Alternatives that are read to the end of a text are read in the text that goes on
(`Extension.disjunction_done`). With nothing put behind the text, this shows that the flags `u` and
`v` make no difference to a pattern without classes (`classes_alone_read_by_sets`).
-/

namespace EcmaPattern

open EcmaPattern.Parser EcmaPattern.Extension

/-! ## Runs beside each other

With nothing put behind the text, nothing hangs in it and no end is one at which the runs part. -/

theorem Cursor.extend_nil (c : Cursor) : c.extend [] = c := by
  rw [extend, List.append_nil]

namespace Extension

/-- The text ahead of a place, with more put behind it. -/
def goingOn (g : Grammar) (c : Cursor) (rest : Text)
    (parts : ∀ u ∈ rest.head?, u = 0x29 ∨ u = 0x7C) : Extension where
  left := g
  sets := g.sets
  widens := id
  rest := rest
  parts := parts
  stop := c.index + c.remaining

/-- The text ahead of a place, with its classes read by the set grammar. -/
def bySets (g : Grammar) (c : Cursor) : Extension where
  left := g
  sets := true
  widens := fun _ => rfl
  rest := []
  parts := nofun
  stop := c.index + c.remaining

variable {k : Extension}

theorem beside_start {c : Cursor} (hstop : k.stop = c.index + c.remaining)
    {scope scope' : GroupScope} (hrule : scope'.rule = .unchecked) (opened : Nat) :
    k.Beside ⟨c, scope, opened⟩ ⟨c.extend k.rest, scope', opened⟩ :=
  ⟨rfl, hstop.symm, rfl, hrule⟩

/-- Alternatives that are read to the end of the text are read in the text that goes on, unless a
bar comes next or one of their classes is read by another grammar. -/
theorem disjunction_done {depth : Nat} {s s' t : State} {qs : List Sequence} (hs : k.Beside s s')
    (h : disjunction depth k.left s = .done qs t) (hend : t.cursor.current = none)
    (hbar : k.rest.head? ≠ some 0x7C) (hclass : ∀ q ∈ qs, ¬ k.Differs (.sequence q)) :
    ∃ t', disjunction depth k.right s' = .done qs t' ∧ k.Beside t t' := by
  rcases Extends.done (disjunction_extends depth) hs trivial h with hlost | ⟨-, ht⟩
  · rw [Cursor.current_eq_none] at hend
    rcases hlost with (⟨-, hhangs⟩ | ⟨-, hnext⟩) | ⟨q, hq, hdiffers⟩
    · rw [hend] at hhangs
      cases hhangs
    · exact absurd hnext hbar
    · exact absurd hdiffers (hclass q hq)
  · exact ht

end Extension

/-! ## Classes by the set grammar

The `v` flag differs from the `u` flag in how classes are read and in nothing else, so the excuse of
the previous modules is all that can be different: that there is a class. -/

theorem Node.HoldsClass.resolve {n : Node} (h : n.HoldsClass) (f : GroupName → List Nat) :
    (n.resolve f).HoldsClass := by
  obtain ⟨m, hm, hkind⟩ := h
  refine ⟨m.resolve f, ?_, (m.kind_resolve f).trans hkind⟩
  rw [descendants_resolve]
  exact List.mem_map_of_mem hm

namespace Pattern

variable {rule : DuplicateRule} {o : Options} {c : Cursor} {p : Pattern} {scope : GroupScope}

/-- A pass that finds no class gives the same where classes are read by the set grammar. -/
theorem pass_bySets (h : pass rule o { unicode := true } true c = .ok (p, scope))
    (hclass : ¬ (Node.pattern p).HoldsClass) :
    ∃ scope', pass .unchecked o { unicodeSets := true } true c = .ok (p, scope') := by
  obtain ⟨qs, t, hqs, hend, hcaptures, hnames, rfl⟩ := run_of_pass h
  have hnone : ∀ q ∈ qs, ¬ (Node.sequence q).HoldsClass := by
    intro q hq hholds
    apply hclass
    have hpattern : (Node.pattern ⟨.between c t.cursor, qs⟩).HoldsClass :=
      hholds.of_child (by rw [Node.children_pattern]; exact List.mem_map_of_mem hq)
    exact Node.HoldsClass.resolve hpattern _
  let k := Extension.bySets (grammarFor o { unicode := true } true c) c
  have hstart : k.Beside ⟨c, .empty rule, 0⟩ ⟨c.extend k.rest, .empty .unchecked, 0⟩ :=
    beside_start rfl rfl 0
  rw [show c.extend k.rest = c from c.extend_nil] at hstart
  obtain ⟨t', hrun, ht⟩ := disjunction_done hstart hqs hend nofun
    fun q hq hdiffers => hnone q hq hdiffers.2
  have hcursor : t'.cursor = t.cursor := ht.cursor.trans (Cursor.extend_nil _)
  rw [← hcursor] at hend ⊢
  exact ⟨t'.scope, pass_of_run hrun hend rfl hcaptures hnames⟩

end Pattern

/-- Only classes are read differently under the flag `v` than under the flag `u`: from the edition
with named groups on, a pattern in which no class stands has the same tree under either. -/
theorem classes_alone_read_by_sets (o : Options) (slice : Slice) (p : Pattern)
    (hedition : .es2018 ≤ o.edition)
    (h : parsePattern o (.set { unicode := true }) slice = .ok p)
    (hclass : ∀ n ∈ (Node.pattern p).descendants, n.kind ≠ .characterClass) :
    parsePattern o (.set { unicodeSets := true }) slice = .ok p := by
  obtain ⟨flags, hflags, hread⟩ := parsePattern_eq_ok.mp h
  cases hflags
  obtain ⟨-, hread⟩ := Pattern.read_eq_ok.mp hread
  have hapart := Pattern.namesApart_of_readUnder hread
  -- with either flag one pass is made, and it has named references
  have hgroups : o.edition.supports .namedGroups = true := decide_eq_true hedition
  have halways : Pattern.alwaysNamedReferences o { unicode := true } = true := by
    simp [Pattern.alwaysNamedReferences, hgroups]
  have halways' : Pattern.alwaysNamedReferences o { unicodeSets := true } = true := by
    simp [Pattern.alwaysNamedReferences]
  obtain ⟨q, scope, hpass, hq⟩ := Pattern.readUnder_eq_ok.mp hread
  rw [halways] at hpass hq
  obtain rfl : q = p := hq
  obtain ⟨scope', hpass⟩ := Pattern.pass_bySets hpass fun hex => by
    obtain ⟨n, hn, hkind⟩ := hex
    exact hclass n hn hkind
  have hunchecked : Pattern.readUnder .unchecked o { unicodeSets := true } (slice.cursor true) =
      .ok q :=
    Pattern.readUnder_eq_ok.mpr ⟨q, scope', halways'.symm ▸ hpass, by rw [halways']; rfl⟩
  refine parsePattern_eq_ok.mpr ⟨_, rfl, Pattern.read_eq_ok.mpr ⟨rfl, ?_⟩⟩
  exact Pattern.readUnder_of_namesApart hunchecked hapart

/-- A property escape, a surrogate pair, and a name that stands twice. -/
theorem classes_alone_read_by_sets_with_names :
    ∃ p, parsePattern (.ofEdition .es2025 true) (.set { unicode := true })
        (.whole (.ofString "\\k<n>(?:(?<n>\\p{Lu}{2,}?)|(?<n>😀)|(?<!\\/))")) = .ok p ∧
      (∀ n ∈ (Node.pattern p).descendants, n.kind ≠ .characterClass) ∧
      parsePattern (.ofEdition .es2025 true) (.set { unicodeSets := true })
        (.whole (.ofString "\\k<n>(?:(?<n>\\p{Lu}{2,}?)|(?<n>😀)|(?<!\\/))")) = .ok p := by
  have hany : (parsePattern (.ofEdition .es2025 true) (.set { unicode := true })
      (.whole (.ofString "\\k<n>(?:(?<n>\\p{Lu}{2,}?)|(?<n>😀)|(?<!\\/))"))).toOption.any
        (fun p => (Node.pattern p).descendants.all fun n => n.kind ≠ .characterClass) = true := by
    decide +kernel
  obtain ⟨p, hp, htest⟩ := Except.exists_eq_ok_of_any hany
  have hclass : ∀ n ∈ (Node.pattern p).descendants, n.kind ≠ .characterClass := fun n hn =>
    of_decide_eq_true (List.all_eq_true.mp htest n hn)
  exact ⟨p, hp, hclass, classes_alone_read_by_sets _ _ p (by decide) hp hclass⟩

end EcmaPattern
