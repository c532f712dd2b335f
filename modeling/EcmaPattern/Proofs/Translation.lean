import EcmaPattern.Proofs.Pairing.Terms

/-!
# Translation

A text may stand at any offset of another. Where it stands changes the offsets of places, spans and
faults and nothing else: `Moves k f p q` says that `q`, from a state that lies `k` units further on,
does what `p` does, `k` units further on; `f` says what becomes of the value.

A run and the same run further on are whole, so disjunctions move (`disjunction_moves`). With them
whole patterns do, in one pass or two (`Pattern.readUnder_shift`).

Key lemmas:

* `disjunction_moves`, from the pairing of a run with the run further on;
* `Pattern.readUnder_shift`, for the one or two passes.
-/

namespace EcmaPattern

/-! ## Places and spans

To move a place is to add to its offset. What lies ahead of it stays. -/

def Cursor.shift (k : Nat) (c : Cursor) : Cursor := { c with index := k + c.index }

def Span.shift (k : Nat) (s : Span) : Span := ⟨k + s.start, k + s.stop, s.raw⟩

def Character.shift (k : Nat) (c : Character) : Character := ⟨c.span.shift k, c.value⟩

def State.shift (k : Nat) (s : State) : State := { s with cursor := s.cursor.shift k }

def Outcome.shift {α β : Type} (k : Nat) (f : α → β) : Outcome α → Outcome β
  | .done a t => .done (f a) (t.shift k)
  | .miss => .miss
  | .fault e => .fault (e.shift k)

namespace Cursor

variable (k : Nat) (c : Cursor)

theorem advance_shift : (c.shift k).advance = c.advance.shift k := by
  unfold advance shift
  cases c.ahead.uncons? c.paired with
  | none => rfl
  | some p => exact congrArg (Cursor.mk · p.2 c.paired) (Nat.add_assoc _ _ _)

/-- The text between two places does not depend on where counting begins. -/
theorem textTo_shift (stop : Nat) : (c.shift k).textTo (k + stop) = c.textTo stop := by
  rw [textTo, textTo, shift, Nat.add_sub_add_left]

end Cursor

/-! ## Sets and terms

To move a tree is to move every span in it. The recursion is that of the trees. -/

def ClassString.shift (k : Nat) (x : ClassString) : ClassString :=
  ⟨x.span.shift k, x.characters.map (Character.shift k)⟩

namespace CharSet

mutual

def shift (k : Nat) : CharSet → CharSet
  | character c => character (c.shift k)
  | escape s set negated => escape (s.shift k) set negated
  | property s p negated => property (s.shift k) p negated
  | range s first last => range (s.shift k) (first.shift k) (last.shift k)
  | strings s alternatives => strings (s.shift k) (alternatives.map (ClassString.shift k))
  | operation s op left right => operation (s.shift k) op (left.shift k) (right.shift k)
  | listing s negated sets elements => listing (s.shift k) negated sets (shiftAll k elements)
  | expression s negated contents => expression (s.shift k) negated (contents.shift k)

def shiftAll (k : Nat) : List CharSet → List CharSet
  | [] => []
  | x :: rest => x.shift k :: shiftAll k rest

end

variable (k : Nat)

theorem shiftAll_eq (xs : List CharSet) : shiftAll k xs = xs.map (shift k) := by
  induction xs with
  | nil => rw [shiftAll, List.map_nil]
  | cons x xs ih => rw [shiftAll, ih, List.map_cons]

end CharSet

def ModifierFlags.shift (k : Nat) (f : ModifierFlags) : ModifierFlags :=
  { f with span := f.span.shift k }

def Modifiers.shift (k : Nat) (m : Modifiers) : Modifiers :=
  ⟨m.span.shift k, m.add.shift k, m.remove.map (ModifierFlags.shift k)⟩

namespace Term

mutual

def shift (k : Nat) : Term → Term
  | set x => set (x.shift k)
  | any s => any (s.shift k)
  | edge s e => edge (s.shift k) e
  | wordBoundary s negated => wordBoundary (s.shift k) negated
  | look s direction negated alternatives =>
    look (s.shift k) direction negated (shiftAll k alternatives)
  | group s modifiers alternatives =>
    group (s.shift k) (modifiers.map (Modifiers.shift k)) (shiftAll k alternatives)
  | capture s index name alternatives =>
    capture (s.shift k) index name (shiftAll k alternatives)
  | reference s target => reference (s.shift k) target
  | quantified s repetition element => quantified (s.shift k) repetition (element.shift k)

def shiftTerms (k : Nat) : List Term → List Term
  | [] => []
  | t :: rest => t.shift k :: shiftTerms k rest

def shiftSequence (k : Nat) : Sequence → Sequence
  | .mk s elements => .mk (s.shift k) (shiftTerms k elements)

def shiftAll (k : Nat) : List Sequence → List Sequence
  | [] => []
  | s :: rest => shiftSequence k s :: shiftAll k rest

end

variable (k : Nat)

theorem shiftTerms_eq (ts : List Term) : shiftTerms k ts = ts.map (shift k) := by
  induction ts with
  | nil => rw [shiftTerms, List.map_nil]
  | cons t ts ih => rw [shiftTerms, ih, List.map_cons]

theorem shiftAll_eq (qs : List Sequence) : shiftAll k qs = qs.map (shiftSequence k) := by
  induction qs with
  | nil => rw [shiftAll, List.map_nil]
  | cons q qs ih => rw [shiftAll, ih, List.map_cons]

/-! ### Named references

Names do not move, and neither do the numbers of groups. -/

mutual

/-- Names do not depend on where counting begins. -/
theorem referredNames_shift : (t : Term) → (t.shift k).referredNames = t.referredNames
  | set _ => by simp [shift, referredNames]
  | any _ => by simp [shift, referredNames]
  | edge .. => by simp [shift, referredNames]
  | wordBoundary .. => by simp [shift, referredNames]
  | reference _ (.number _) => by simp [shift, referredNames]
  | reference _ (.name ..) => by simp [shift, referredNames]
  | look _ _ _ alternatives => by
    simp only [shift, referredNames, referredNamesOfAll_shift alternatives]
  | group _ _ alternatives => by
    simp only [shift, referredNames, referredNamesOfAll_shift alternatives]
  | capture _ _ _ alternatives => by
    simp only [shift, referredNames, referredNamesOfAll_shift alternatives]
  | quantified _ _ element => by
    simp only [shift, referredNames, referredNames_shift element]

theorem referredNamesOfTerms_shift : (ts : List Term) →
    referredNamesOfTerms (shiftTerms k ts) = referredNamesOfTerms ts
  | [] => by rw [shiftTerms]
  | t :: ts => by
    rw [shiftTerms, referredNamesOfTerms, referredNamesOfTerms, referredNames_shift t,
      referredNamesOfTerms_shift ts]

theorem referredNamesOfSequence_shift : (q : Sequence) →
    referredNamesOfSequence (shiftSequence k q) = referredNamesOfSequence q
  | .mk _ elements => by
    rw [shiftSequence, referredNamesOfSequence, referredNamesOfSequence,
      referredNamesOfTerms_shift elements]

theorem referredNamesOfAll_shift : (qs : List Sequence) →
    referredNamesOfAll (shiftAll k qs) = referredNamesOfAll qs
  | [] => by rw [shiftAll]
  | q :: qs => by
    rw [shiftAll, referredNamesOfAll, referredNamesOfAll, referredNamesOfSequence_shift q,
      referredNamesOfAll_shift qs]

end

mutual

/-- It does not matter whether references are resolved before spans are moved or after. -/
theorem resolve_shift (f : GroupName → List Nat) : (t : Term) →
    (t.shift k).resolve f = (t.resolve f).shift k
  | set _ => by simp [shift, resolve]
  | any _ => by simp [shift, resolve]
  | edge .. => by simp [shift, resolve]
  | wordBoundary .. => by simp [shift, resolve]
  | reference _ (.number _) => by simp [shift, resolve]
  | reference _ (.name ..) => by simp [shift, resolve]
  | look _ _ _ alternatives => by simp only [shift, resolve, resolveAll_shift f alternatives]
  | group _ _ alternatives => by simp only [shift, resolve, resolveAll_shift f alternatives]
  | capture _ _ _ alternatives => by simp only [shift, resolve, resolveAll_shift f alternatives]
  | quantified _ _ element => by simp only [shift, resolve, resolve_shift f element]

theorem resolveTerms_shift (f : GroupName → List Nat) : (ts : List Term) →
    resolveTerms f (shiftTerms k ts) = shiftTerms k (resolveTerms f ts)
  | [] => by rw [shiftTerms, resolveTerms, shiftTerms]
  | t :: ts => by
    rw [shiftTerms, resolveTerms, resolveTerms, shiftTerms, resolve_shift f t,
      resolveTerms_shift f ts]

theorem resolveSequence_shift (f : GroupName → List Nat) : (q : Sequence) →
    resolveSequence f (shiftSequence k q) = shiftSequence k (resolveSequence f q)
  | .mk _ elements => by
    rw [shiftSequence, resolveSequence, resolveSequence, shiftSequence,
      resolveTerms_shift f elements]

theorem resolveAll_shift (f : GroupName → List Nat) : (qs : List Sequence) →
    resolveAll f (shiftAll k qs) = shiftAll k (resolveAll f qs)
  | [] => by rw [shiftAll, resolveAll, shiftAll]
  | q :: qs => by
    rw [shiftAll, resolveAll, resolveAll, shiftAll, resolveSequence_shift f q,
      resolveAll_shift f qs]

end

end Term

def Pattern.shift (k : Nat) (p : Pattern) : Pattern :=
  ⟨p.span.shift k, Term.shiftAll k p.alternatives⟩

/-! ## Two runs, one further on

The pairing is whole: one grammar, the same scopes, and the same text ahead. -/

/-- A run, and one of the same parser from so many units further on. -/
def Pairing.translation (k : Nat) (g : Grammar) : Pairing where
  left := g
  right := g
  Beside s s' := s' = s.shift k
  Marks m m' := m' = m.shift k
  span := Span.shift k
  Parts _ := False
  Blames e e' := e' = e.shift k
  Excuses _ := False
  mayPart_of_parts := CodePoint.mayPart_of_false
  marks h := by rw [h]; rfl
  between := by
    rintro m _ s _ rfl rfl
    exact congrArg (Span.mk _ _) (m.textTo_shift k s.cursor.index)
  read := by
    rintro s _ t c rfl - hr
    obtain ⟨hc, rfl⟩ := State.reads_singleton.mp hr
    refine ⟨_, State.reads_singleton.mpr ⟨hc, rfl⟩, ?_⟩
    exact congrArg (State.mk · s.scope s.opened) (s.cursor.advance_shift k)
  stop := by
    rintro s _ c rfl h hc
    exact h c hc
  blames := by
    rintro m _ cause rfl -
    rfl
  blames_tooMany := by
    rintro s _ t _ cs rfl - rfl - -
    rfl

namespace Pairing

variable (k : Nat) (g : Grammar)

/-- A moved text is read in whole, under the same grammar. -/
theorem translation_whole : (translation k g).Whole where
  grammar := rfl
  not_parts _ := id
  remaining := by rintro s _ rfl; rfl
  scope := by rintro s _ rfl; rfl
  opened := by rintro s _ rfl; rfl
  withScope := by rintro s _ scope opened rfl; rfl

/-- The trees of the second run are those of the first, further on. -/
def translationTrees : (translation k g).Trees where
  character := Character.shift k
  string := ClassString.shift k
  set := CharSet.shift k
  flags := ModifierFlags.shift k
  modifiers := Modifiers.shift k
  term := Term.shift k
  sequence := Term.shiftSequence k
  isEmpty_span s := by
    rw [Bool.eq_iff_iff, beq_iff_eq, beq_iff_eq]
    exact Nat.add_left_cancel_iff
  character_mk _ _ := rfl
  string_mk _ _ := rfl
  set_character _ := by rw [CharSet.shift]
  set_escape _ _ _ := by rw [CharSet.shift]; rfl
  set_property _ _ _ := by rw [CharSet.shift]; rfl
  set_range _ _ _ := by rw [CharSet.shift]; rfl
  set_strings _ _ := by rw [CharSet.shift]; rfl
  set_operation _ _ _ _ := by rw [CharSet.shift]; rfl
  set_listing _ _ _ xs := by rw [CharSet.shift, CharSet.shiftAll_eq]; rfl
  set_expression _ _ _ := by rw [CharSet.shift]; rfl
  flags_mk _ _ _ _ := rfl
  modifiers_mk _ _ _ := rfl
  term_set _ := by rw [Term.shift]
  term_any _ := by rw [Term.shift]; rfl
  term_edge _ _ := by rw [Term.shift]; rfl
  term_wordBoundary _ _ := by rw [Term.shift]; rfl
  term_look _ _ _ _ := by rw [Term.shift, Term.shiftAll_eq]; rfl
  term_group _ _ _ := by rw [Term.shift, Term.shiftAll_eq]; rfl
  term_capture _ _ _ _ := by rw [Term.shift, Term.shiftAll_eq]; rfl
  term_reference _ _ := by rw [Term.shift]; rfl
  term_quantified _ _ _ := by rw [Term.shift]; rfl
  sequence_mk _ _ := by rw [Term.shiftSequence, Term.shiftTerms_eq]; rfl

end Pairing

namespace Parser

variable {α β : Type} {k : Nat}

/-- From a state so many units further on, the second parser does what the first one does, so many
units further on. -/
def Moves (k : Nat) (f : α → β) (p : Parser α) (q : Parser β) : Prop :=
  ∀ g s, q g (s.shift k) = (p g s).shift k f

/-- By every grammar, the two runs come to the same. -/
theorem moves_of_maps {f : α → β} {p : Parser α} {q : Parser β}
    (h : ∀ g, (Pairing.translation k g).Maps f p q) : Moves k f p q := by
  intro g s
  have hsame : (Pairing.translation k g).Outcomes (fun a b => f a = b) (p g s) (q g (s.shift k)) :=
    h g s _ rfl
  generalize p g s = o at hsame
  generalize q g (s.shift k) = o' at hsame
  cases hsame with
  | done hab ht =>
    cases hab
    cases ht
    rfl
  | miss => rfl
  | fault he =>
    cases he
    rfl
  | excused h => exact h.elim

/-- A disjunction in a moved text is the moved disjunction. -/
theorem disjunction_moves (depth : Nat) :
    Moves k (Term.shiftAll k) (disjunction depth) (disjunction depth) := by
  rw [funext (Term.shiftAll_eq k)]
  exact moves_of_maps fun g =>
    disjunction_maps (Pairing.translationTrees k g) (Pairing.translation_whole k g) depth

/-- What follows the alternatives of a pattern asks for no offsets, but for those of its faults. -/
theorem pattern_moves (depth : Nat) :
    Moves k (Pattern.shift k) (pattern depth) (pattern depth) := by
  -- resolving asks for names and indexes only, and these do not move
  have hresolved : ∀ p : Pattern,
      Moves k (Pattern.shift k) (resolved p) (resolved (p.shift k)) := by
    intro p g s
    have hnames : (p.shift k).referredNames = p.referredNames :=
      Term.referredNamesOfAll_shift k p.alternatives
    have hresolve : (p.shift k).resolve s.scope.indexes = (p.resolve s.scope.indexes).shift k :=
      congrArg (Pattern.mk (p.span.shift k)) (Term.resolveAll_shift k _ p.alternatives)
    have hscope : (s.shift k).scope = s.scope := rfl
    rw [resolved, resolved, hnames, hscope, hresolve]
    split <;> rfl
  intro g s
  rw [pattern, here_bind, here_bind, bind_apply, bind_apply, disjunction_moves depth g s]
  cases disjunction depth g s with
  | miss => rfl
  | fault e => rfl
  | done qs t =>
    have hcurrent : (t.shift k).cursor.current = t.cursor.current := rfl
    have hspan : Span.between (s.cursor.shift k) (t.cursor.shift k) =
        (Span.between s.cursor t.cursor).shift k :=
      (Pairing.translation k g).between rfl rfl
    simp only [Outcome.shift, bind_apply, endOfPattern, hcurrent]
    cases t.cursor.current with
    | some c => rfl
    | none =>
      show resolved ⟨.between (s.cursor.shift k) (t.cursor.shift k), Term.shiftAll k qs⟩ g
        (t.shift k) = _
      rw [hspan]
      exact hresolved ⟨.between s.cursor t.cursor, qs⟩ g t

end Parser

/-! ## Passes

The count of groups is made on the text ahead, so a pass further on counts the same. -/

namespace Pattern

variable (rule : DuplicateRule) (o : Options) (flags : FlagSet) (k : Nat) (c : Cursor)

/-- A pass over a moved text gives the moved pattern, or a fault at the moved offset. -/
theorem pass_shift (named : Bool) :
    pass rule o flags named (c.shift k) =
      ((pass rule o flags named c).map (Prod.map (shift k) id)).mapError (·.shift k) := by
  have hmoves := Parser.pattern_moves (k := k) o.maxDepth (grammarFor o flags named c)
    ⟨c, .empty rule, 0⟩
  have hgrammar : grammarFor o flags named (c.shift k) = grammarFor o flags named c := rfl
  have hstate : (⟨c.shift k, .empty rule, 0⟩ : State) = State.shift k ⟨c, .empty rule, 0⟩ := rfl
  rw [pass, pass, hgrammar, hstate, hmoves]
  cases Parser.pattern o.maxDepth (grammarFor o flags named c) ⟨c, .empty rule, 0⟩ <;> rfl

/-- A pattern that stands further on is read as the same pattern, further on. -/
theorem readUnder_shift :
    readUnder rule o flags (c.shift k) =
      ((readUnder rule o flags c).map (shift k)).mapError (·.shift k) := by
  rw [readUnder, readUnder, pass_shift]
  cases pass rule o flags (alwaysNamedReferences o flags) c with
  | error e => rfl
  | ok result =>
    obtain ⟨p, scope⟩ := result
    show (if !alwaysNamedReferences o flags && o.edition.supports .namedGroups && !scope.isEmpty
      then _ else _) = Except.mapError _ (Except.map _ (if _ then _ else _))
    split
    · rw [pass_shift]
      cases pass rule o flags true c <;> rfl
    · rfl

end Pattern

end EcmaPattern
