import EcmaPattern.Proofs.LongNumbers
import EcmaPattern.Proofs.Routines.Patterns
import EcmaPattern.Proofs.Traversal

/-!
# Backtracking and progress

A routine that is tried, such as the one for terms, leaves everything as it was if it misses, and
gets ahead if it does not; the node that it yields then ends where it has got to
(`routines_backtrack_and_progress`). Each routine has been shown to follow a parser and to return,
so what is added here is that the parser consumes something and that its nodes end where its reading
does. Since every loop and every descent consumes something, fuel for one more step than there are
units in the text is never used up: a pattern or a literal is read in full, or there is a fault. The
fault is a diagnostic, unless more digits have been read than are converted to a number
(`run_ends_at_long_number`).
-/

namespace EcmaPattern

/-! ## What parsers consume

To consume is to have moved on when done. A node that was read ends where the reading does. -/

section

variable {g : Grammar} {s t : State}

/-- A character takes up text and ends where the reading ends. -/
theorem ReadsCharacter.consumes {p : Place} {c : Character} (h : ReadsCharacter g p s c t) :
    t.cursor.remaining < s.cursor.remaining ∧ c.span.stop = t.cursor.index := by
  obtain ⟨cs, hne, hr⟩ := h.reads
  exact ⟨hr.cursor.remaining_lt hne, congrArg Span.stop h.span_eq⟩

theorem ReadsSetEscape.consumes {x : CharSet} (h : ReadsSetEscape g s x t) :
    t.cursor.remaining < s.cursor.remaining ∧ x.span.stop = t.cursor.index := by
  cases h with
  | mk h hr => exact ⟨hr.remaining_lt, congrArg Span.stop (h.span_eq _)⟩

end

namespace Parser

variable {α β : Type} {span? : α → Option Span} {span?' : β → Option Span} {p q : Parser α}
  {g : Grammar}

/-- Whatever the parser yields has been read from some text, and if it is a node, it ends where the
reading has ended. -/
def Consumes (span? : α → Option Span) (p : Parser α) (g : Grammar) : Prop :=
  ∀ s a t, p g s = .done a t → t.cursor.remaining < s.cursor.remaining ∧
    ∀ span, span? a = some span → span.stop = t.cursor.index

namespace Consumes

theorem of_progresses (h : Progresses p g) : Consumes (fun _ => none) p g :=
  fun s a t ha => ⟨h s a t ha, nofun⟩

theorem of_span {span : α → Span} (h : ∀ s a t, p g s = .done a t →
      t.cursor.remaining < s.cursor.remaining ∧ (span a).stop = t.cursor.index) :
    Consumes (fun a => some (span a)) p g := by
  intro s a t ha
  obtain ⟨hless, hstop⟩ := h s a t ha
  refine ⟨hless, fun x hx => ?_⟩
  obtain rfl := Option.some.inj hx
  exact hstop

/-- A parser whose terms can be derived consumes what they span. -/
theorem of_derives {p : Parser Term}
    (h : ∀ s e t, p g s = .done e t → Derives g s (.term e) t) :
    Consumes (fun e => some e.span) p g :=
  of_span fun s e t he =>
    ⟨(h s e t he).term_remaining_lt, congrArg Span.stop (h s e t he).term_span⟩

/-- A choice consumes if its parts do. -/
theorem orElse (hp : Consumes span? p g) (hq : Consumes span? q g) :
    Consumes span? (p <|> q) g := by
  intro s a t h
  rcases orElse_eq_done.mp h with h | ⟨-, h⟩
  · exact hp s a t h
  · exact hq s a t h

theorem map (hp : Consumes span? p g) {c : α → β} (hc : ∀ a, span?' (c a) = span? a) :
    Consumes span?' (c <$> p) g := by
  intro s b t h
  obtain ⟨a, ha, rfl⟩ := map_eq_done.mp h
  rw [hc]
  exact hp s a t ha

end Consumes

/-! ### Characters and classes

Each of them reads a first character. -/

theorem characterEscape_consumes (mark : Cursor) :
    Consumes (fun c => some c.span) (characterEscape mark) g := by
  refine .of_span fun s c t h => ?_
  obtain ⟨cs, hr, hcs, hspan⟩ := characterEscape_eq_done h
  exact ⟨hr.cursor.remaining_lt hcs.ne_nil, congrArg Span.stop hspan⟩

theorem classAtom_consumes : Consumes (fun x => some x.span) classAtom g := by
  refine .of_span fun s x t h => ?_
  rcases classAtom_eq_done h with ⟨c, rfl, hc⟩ | ⟨-, hx⟩
  · exact hc.consumes
  · exact hx.consumes

theorem classSetCharacter_consumes :
    Consumes (fun c => some c.span) classSetCharacter g :=
  .of_span fun _ _ _ h => (classSetCharacter_eq_done h).consumes

theorem classSetRange_consumes (first : Character) (mark : Cursor) :
    Consumes (fun x => some x.span) (classSetRange first mark) g := by
  refine .of_span fun s x t h => ?_
  obtain ⟨last, u, hdash, hlast, -, rfl⟩ := classSetRange_eq_done h
  exact ⟨hdash.remaining_lt_of_reaches (classSetCharacter_eq_done hlast).reaches, rfl⟩

theorem classStrings_consumes : Consumes (fun x => some x.span) classStrings g := by
  refine .of_span fun s x t h => ?_
  obtain ⟨y, ys, u, v, w, hopen, hy, hys, hclose, rfl⟩ := classStrings_eq_done h
  have hstrings := readsStrings_of_chain (classString_eq_done hy) hys
  exact ⟨hopen.remaining_lt_of_reaches (hstrings.reaches.trans hclose.cursor.reaches), rfl⟩

/-- A class consumes what it spans. -/
theorem charClass_consumes (depth : Nat) (nested : Bool) :
    Consumes (fun x => some x.span) (charClass depth nested) g := by
  refine .of_span fun s x t h => ?_
  have hclass := charClass_derives h
  refine ⟨hclass.class_remaining_lt, ?_⟩
  cases hclass <;> rfl

theorem escapedSet_consumes : Consumes (fun x => some x.span) escapedSet g :=
  .of_span fun _ _ _ h => (escapedSet_eq_done h).consumes

theorem classSetOperand_consumes (depth : Nat) :
    Consumes (fun x => some x.span) (classSetOperand (charClass depth true)) g :=
  (charClass_consumes depth true).orElse <| escapedSet_consumes.orElse <|
    classStrings_consumes.orElse <| classSetCharacter_consumes.map fun _ => rfl

/-! ### Atoms and terms

The kinds of atoms and assertions, one by one, and with them terms. -/

theorem plainCharacter_consumes (test : CodePoint → Bool) :
    Consumes (fun e => some e.span) (plainCharacter test) g := by
  refine .of_span fun s e t h => ?_
  rw [plainCharacter, here_bind, bind_eq_done] at h
  obtain ⟨c, u, hc, h⟩ := h
  obtain ⟨-, hr⟩ := satisfy_eq_done.mp hc
  obtain ⟨x, hx, rfl⟩ := map_eq_done.mp h
  obtain ⟨rfl, rfl⟩ := characterSetFrom_eq_done.mp hx
  exact ⟨hr.remaining_lt, rfl⟩

section

variable {depth : Nat}

theorem assertion_consumes :
    Consumes (fun e => some e.span) (assertion (nestedAt depth)) g :=
  .of_derives fun _ _ _ => assertion_derives fun _ _ _ _ => nestedAt_derives

theorem group_consumes : Consumes (fun e => some e.span) (group (nestedAt depth)) g :=
  .of_derives fun _ _ _ => group_derives fun _ _ _ _ => nestedAt_derives

/-- A term consumes what it spans. -/
theorem term_consumes :
    Consumes (fun e => some e.span) (term (charClass depth false) (nestedAt depth)) g :=
  .of_derives fun _ _ _ => term_derives_at

theorem escapedAtom_consumes : Consumes (fun e => some e.span) escapedAtom g :=
  .of_derives fun _ _ _ => escapedAtom_derives

theorem classTerm_consumes :
    Consumes (fun e => some e.span) (Term.set <$> charClass depth false) g :=
  (charClass_consumes depth false).map fun _ => rfl

/-- Under any grammar, also one for which it is not meant. -/
theorem atom_consumes :
    Consumes (fun e => some e.span) (atom (charClass depth false) (nestedAt depth)) g :=
  (Consumes.of_derives fun _ _ _ => anyCharacter_derives).orElse <| escapedAtom_consumes.orElse <|
    classTerm_consumes.orElse <| group_consumes.orElse <|
      plainCharacter_consumes _

theorem webAtom_consumes :
    Consumes (fun e => some e.span) (webAtom (charClass depth false) (nestedAt depth)) g :=
  (Consumes.of_derives fun _ _ _ => anyCharacter_derives).orElse <| escapedAtom_consumes.orElse <|
    (Consumes.of_derives fun _ _ _ => lonelyBackslash_derives).orElse <|
      classTerm_consumes.orElse <| group_consumes.orElse <|
        (Consumes.of_derives fun _ _ _ h => absurd h strayBounds_ne_done).orElse <|
          plainCharacter_consumes _

end

/-- A quantifier takes up text. -/
theorem quantifier_consumes (lenient : Bool) : Consumes (fun _ => none) (quantifier lenient) g := by
  refine .of_progresses fun s r t h => ?_
  obtain ⟨cs, hr, hcs⟩ := quantifier_eq_done h
  obtain ⟨c, cs, rfl⟩ := hcs.exists_cons
  exact hr.remaining_lt

end Parser

/-! ## Memories of a pass

Ready is the memory with which a pass begins, and all that can come from it by moves that routines
make. -/

/-- A memory as it can come up during a pass: the window stands in the part of the text that it is
over, no more groups and classes are open than may be, and there is fuel for that part. -/
structure Memory.Ready (m : Memory) (σ : Settings) : Prop where
  inText : m.window.slice.InText
  filled : m.window.Filled
  start_le : m.window.start ≤ m.window.index
  /-- A part that ends before it starts is empty. -/
  le_stop : m.window.index ≤ max m.window.start m.window.stop
  depth_le : m.depth ≤ σ.maxDepth
  fuel : m.window.stop - m.window.start < σ.fuel

namespace Memory.Ready

variable {σ : Settings} {m n : Memory} {names : List GroupName}

/-- A pass begins in such a memory. -/
theorem reset {slice : Slice} (h : slice.InText) (hfuel : slice.stop - slice.start < σ.fuel)
    (paired : Bool) (scope : GroupScope) (w : Window) :
    Ready ⟨w.reset slice.text slice.start slice.stop paired, scope, 0, 0, [], false⟩ σ :=
  ⟨h, rfl, Nat.le_refl _, Nat.le_max_left _ _, Nat.zero_le _, hfuel⟩

/-- The situation of the memory, with a bound for what lies ahead. -/
def situation (h : m.Ready σ) (room : Nat) : Situation where
  settings := σ
  slice := m.window.slice.ordered
  paired := m.window.paired
  depth := m.depth
  room := room
  valid := h.inText.ordered
  fuel := by
    rw [Slice.length_ordered]
    exact h.fuel

theorem holds (h : m.Ready σ) {fuel : Nat} (hfuel : m.window.stop - m.window.index ≤ fuel) :
    m.In (h.situation (fuel + 1)) := by
  have hwithin : m.window.Over m.window.slice.ordered m.window.paired :=
    ⟨rfl, rfl, h.start_le, h.le_stop, h.filled⟩
  have hremaining : m.window.index + m.window.cursor.remaining =
      max m.window.start m.window.stop := hwithin.remaining h.inText.ordered
  have hstart := h.start_le
  refine ⟨hwithin, rfl, ?_⟩
  show m.window.cursor.remaining < fuel + 1
  omega

/-- What has been read leads to another memory of the pass. -/
theorem moves (h : m.Ready σ) {room : Nat} (hm : m.In (h.situation room))
    (hn : m.Moves names n) : n.Ready σ := by
  have hin := hm.moves hn
  obtain ⟨hback, hfilled, -, hdepth, -⟩ := hn
  have htext : n.window.text = m.window.text := (congrArg Window.text hback :)
  have hstart : n.window.start = m.window.start := (congrArg Window.start hback :)
  have hstop : n.window.stop = m.window.stop := (congrArg Window.stop hback :)
  refine ⟨?_, hfilled, ?_, ?_, hdepth ▸ h.depth_le, ?_⟩
  · rw [Window.slice, htext, hstart, hstop]
    exact h.inText
  · rw [hstart]
    exact hin.within.start_le
  · rw [hstart, hstop]
    exact hin.within.le_stop
  · rw [hstart, hstop]
    exact h.fuel

end Memory.Ready

/-! ## Routines that are tried

The list of routines that the parser tries and takes back. For each of them the three statements are
read off the lemmas of the other modules. -/

/-- What comes of a routine that is tried. If it misses, nothing has changed but what is known of
the last assertion. If it has a value, it has got ahead and not beyond the end, in the same window
and at the same depth, and if the value has a span, that ends where the window stands. It does not
run out of fuel. -/
inductive Tries {α : Type} (σ : Settings) (span? : α → Option Span) (m : Memory) : Result α → Prop
  | done {a : α} {n : Memory} (hready : n.Ready σ)
      (hback : n.window.rewind m.window.index = m.window) (hdepth : n.depth = m.depth)
      (hindex : m.window.index < n.window.index) (hstop : n.window.index ≤ m.window.stop)
      (hspan : ∀ span, span? a = some span → span.stop = n.window.index) :
      Tries σ span? m (.done a n)
  | miss {n : Memory} (h : m.Same n) : Tries σ span? m (.miss n)
  | fault (f : Fault) : Tries σ span? m (.fault f)

/-- A routine that follows a parser which consumes something tries. -/
theorem Routine.Follows.tries {α : Type} {span? : α → Option Span} {σ : Settings} {m : Memory}
    {D : α → Memory → Prop} {M : Memory → Prop} {p : Parser α} {r : Routine α} {room : Nat}
    (hready : m.Ready σ) (hm : m.In (hready.situation room))
    (h : Follows (hready.situation room) D M m p r)
    (hD : ∀ a n, D a n → ∃ names, m.Moves names n) (hM : ∀ n, M n → m.Same n)
    (hp : p.Consumes span? σ.grammar) : Tries σ span? m (r σ m) := by
  have h : Matches D M (p σ.grammar m.state) (r σ m) := h hm
  generalize hx : p σ.grammar m.state = x at h
  generalize r σ m = y at h ⊢
  cases h with
  | @done a n hn =>
    obtain ⟨names, hn⟩ := hD a n hn
    obtain ⟨hless, hspan⟩ := hp _ _ _ hx
    have hless : n.window.cursor.remaining < m.window.cursor.remaining := hless
    have hremaining := hm.remaining
    have hremaining' := (hm.moves hn).remaining
    have hend : (hready.situation room).slice.stop = max m.window.start m.window.stop := rfl
    have hstart := hready.start_le
    exact .done (hready.moves hm hn) hn.back hn.depth (by omega) (by omega) hspan
  | miss hn => exact .miss (hM _ hn)
  | fault e => exact .fault e

namespace Routine

/-- The routines that are tried, as they run from a memory with so much fuel for what is inside
groups and classes, each with the span of its value if that is a node. An escape and the rest of a
range begin before the memory was reached. -/
inductive Tentative (fuel : Nat) (m : Memory) : {α : Type} → (α → Option Span) → Routine α → Prop
  | term : Tentative fuel m (fun e => some e.span)
      (term (charClass (fuel + 1) false) (nested (disjunction fuel)))
  | assertion : Tentative fuel m (fun e => some e.span) (assertion (nested (disjunction fuel)))
  | atom : Tentative fuel m (fun e => some e.span)
      (atom (charClass (fuel + 1) false) (nested (disjunction fuel)))
  | webAtom : Tentative fuel m (fun e => some e.span)
      (webAtom (charClass (fuel + 1) false) (nested (disjunction fuel)))
  | escapedAtom : Tentative fuel m (fun e => some e.span) escapedAtom
  | classAtom : Tentative fuel m (fun x => some x.span) classAtom
  | classSetOperand : Tentative fuel m (fun x => some x.span)
      (classSetOperand (charClass (fuel + 1) true))
  | classSetCharacter : Tentative fuel m (fun c => some c.span) classSetCharacter
  | classSetRange {first : Character} (hstart : m.window.start ≤ first.span.start)
      (hindex : first.span.start ≤ m.window.index) :
      Tentative fuel m (fun x => some x.span) (classSetRange first)
  | characterEscape {start : Nat} (hstart : m.window.start ≤ start)
      (hindex : start ≤ m.window.index) :
      Tentative fuel m (fun c => some c.span) (characterEscape start)
  | quantifier (lenient : Bool) : Tentative fuel m (fun _ => none) (quantifier lenient)
  | nameCharacter (test : CodePoint → Bool) : Tentative fuel m (fun _ => none) (nameCharacter test)

section

variable {α : Type} {span? : α → Option Span} {σ : Settings} {m : Memory} {p : Parser α}
  {r : Routine α} {room : Nat} {hready : m.Ready σ}

/-- A routine that does what a parser does either makes progress or goes back. -/
theorem Returns.tries (hm : m.In (hready.situation room))
    (h : Returns (hready.situation room) m p r) (hp : p.Consumes span? σ.grammar) :
    Tries σ span? m (r σ m) :=
  Follows.tries hready hm h (fun _ _ hn => ⟨_, hn.toMoves⟩) (fun _ hn => hn ▸ .refl m) hp

theorem Refers.tries {names : α → List GroupName} (hm : m.In (hready.situation room))
    (h : Refers (hready.situation room) names (· = m) m p r) (hp : p.Consumes span? σ.grammar) :
    Tries σ span? m (r σ m) :=
  Follows.tries hready hm h (fun _ _ hn => ⟨_, hn.toMoves⟩) (fun _ hn => hn ▸ .refl m) hp

/-- A place between the start of the part and the window. -/
theorem marks_before (h : m.Ready σ) {start : Nat} (hstart : m.window.start ≤ start)
    (hindex : start ≤ m.window.index) :
    (h.situation room).Marks (m.window.slice.ordered.cursorAt m.window.paired start) start :=
  ⟨rfl, hstart, Nat.le_trans hindex h.le_stop⟩

/-- Every tentative routine either makes progress or goes back. -/
theorem Tentative.tries {fuel : Nat} (h : m.Ready σ)
    (hfuel : m.window.stop - m.window.index ≤ fuel) (hr : Tentative fuel m span? r) :
    Tries σ span? m (r σ m) := by
  have hm := h.holds hfuel
  -- the levels that are left are what the parser is run with
  have hdepth : m.depth + (σ.maxDepth - m.depth) = σ.maxDepth := Nat.add_sub_cancel' h.depth_le
  have hclass (nested : Bool) (n : Memory) : Returns (h.situation (fuel + 1)) n
      (Parser.charClass (σ.maxDepth - m.depth) nested) (charClass (fuel + 1) nested) :=
    charClass_returns (Nat.le_refl _) hdepth nested
  have hinside : NestsIn (h.situation (fuel + 1)).closer (nestedAt (σ.maxDepth - m.depth))
      (nested (disjunction fuel)) :=
    nested_nestsIn disjunction_refers (Nat.le_refl _) hdepth
  cases hr with
  | term =>
    exact Follows.tries h hm (term_refers (hclass false) hinside) (fun _ _ hn => ⟨_, hn.toMoves⟩)
      (fun _ => id) Parser.term_consumes
  | assertion =>
    exact Follows.tries h hm (assertion_follows hinside) (fun _ _ hn => ⟨_, hn.1.toMoves⟩)
      (fun _ => id) Parser.assertion_consumes
  | atom => exact (atom_refers hinside (hclass false)).tries hm Parser.atom_consumes
  | webAtom => exact (webAtom_refers hinside (hclass false)).tries hm Parser.webAtom_consumes
  | escapedAtom => exact escapedAtom_refers.tries hm Parser.escapedAtom_consumes
  | classAtom => exact classAtom_returns.tries hm Parser.classAtom_consumes
  | classSetOperand =>
    exact (classSetOperand_returns (hclass true)).tries hm (Parser.classSetOperand_consumes _)
  | classSetCharacter =>
    exact classSetCharacter_returns.tries hm Parser.classSetCharacter_consumes
  | classSetRange hstart hindex =>
    exact (classSetRange_returns (marks_before h hstart hindex)).tries hm
      (Parser.classSetRange_consumes _ _)
  | characterEscape hstart hindex =>
    exact (characterEscape_returns (marks_before h hstart hindex)).tries hm
      (Parser.characterEscape_consumes _)
  | quantifier lenient => exact (quantifier_returns lenient).tries hm (Parser.quantifier_consumes _)
  | nameCharacter test =>
    exact (nameCharacter_returns test).tries hm
      (.of_progresses (Parser.progresses_nameCharacter test _))

end

/-- Wherever a routine of those that are tried is run, it leaves everything as it was or gets ahead,
never beyond the end, and a node ends where reading has ended. A whole run, from whatever memory
the last one has left, comes to the tree or to the fault of the text: it neither misses nor runs out
of fuel for one more step than there are units. A fault that is no diagnostic is a number of more
than 4300 digits, which stand right before its place. -/
theorem routines_backtrack_and_progress (o : Options) :
    (∀ {α : Type} {span? : α → Option Span} {r : Routine α} {fuel : Nat} {σ : Settings}
        {m : Memory}, m.Ready σ → m.window.stop - m.window.index ≤ fuel →
      Tentative fuel m span? r → Tries σ span? m (r σ m)) ∧
    (∀ {σ : Settings} {m : Memory}, σ.maxDepth = o.maxDepth →
      m.scope.rule = Pattern.duplicateRule o.edition →
      (∀ flags slice, slice.InText → slice.stop - slice.start < σ.fuel →
        Answers (fun p q _ => q = p) (Pattern.read o flags slice) (readPattern o flags slice σ m)) ∧
      (∀ slice, slice.InText → slice.stop - slice.start < σ.fuel →
        Answers (fun l l' _ => l' = l) (Literal.read o slice) (readLiteral o slice σ m)) ∧
      ∀ source flags, (Literal.join source flags).length < σ.fuel →
        Answers (fun l l' _ => l' = l)
          (Literal.readParts o (.whole (Literal.join source flags)) source.length)
          (readParts o source flags σ m)) ∧
    ∀ {f : Fault} {n : Nat}, f.cause = .tooManyDigits n →
      (∀ flags slice, Pattern.read o flags slice = .error f →
        f.IsOfLongNumber (slice.cursor flags.unicodeMode)) ∧
      (∀ slice, Literal.read o slice = .error f →
        ∃ length paired, f.IsOfLongNumber ((Literal.body slice length).cursor paired)) ∧
      ∀ source flags,
        Literal.readParts o (.whole (Literal.join source flags)) source.length = .error f →
        ∃ paired, f.IsOfLongNumber
          ((Literal.body (.whole (Literal.join source flags)) source.length).cursor paired) := by
  refine ⟨fun h hfuel hr => hr.tries h hfuel, fun hdepth hrule => ⟨?_, ?_, ?_⟩,
    fun hcause => ⟨?_, ?_, ?_⟩⟩
  · exact fun flags slice hslice hfuel => readPattern_answers hslice hfuel hdepth hrule
  · exact fun slice hslice hfuel => readLiteral_answers hslice hfuel hdepth hrule
  · exact fun source flags hfuel => readParts_answers hfuel hdepth hrule
  · exact fun flags slice h => Pattern.isOfLongNumber_of_read h hcause
  · exact fun slice h => Literal.isOfLongNumber_of_read h hcause
  · exact fun source flags h => Literal.isOfLongNumber_of_readParts h hcause

/-- A repeated reference at the start of a pattern, and the whole pattern; and bounds that are too
long. -/
theorem routines_backtrack_and_progress_reference :
    let o : Options := ⟨.es2025, false, 3, by decide⟩
    let slice : Slice := .whole (.ofString "\\k<n>{2}(?<n>a)")
    let σ : Settings := ⟨Pattern.grammarFor o {} true (slice.cursor false), o.maxDepth, 16⟩
    let m : Memory := ⟨Window.empty.reset slice.text slice.start slice.stop false,
      .empty (Pattern.duplicateRule o.edition), 0, 0, [], false⟩
    (m.Ready σ ∧
      Tries σ (fun e => some e.span) m
        (term (charClass 16 false) (nested (disjunction 15)) σ m) ∧
      Answers (fun p q _ => q = p) (Pattern.read o {} slice) (readPattern o {} slice σ m)) ∧
    ∃ f : Fault, f.IsOfLongNumber ⟨0, .ofCodePoints paddedBounds, false⟩ := by
  intro o slice σ m
  have hslice : slice.InText := (Slice.valid_whole _).inText
  have hready : m.Ready σ := .reset hslice (by decide) false _ Window.empty
  refine ⟨⟨hready, ?_, ?_⟩, ?_⟩
  · exact (routines_backtrack_and_progress o).1 hready (by decide) .term
  · exact ((routines_backtrack_and_progress o).2.1 rfl rfl).1 {} slice hslice (by decide)
  · obtain ⟨f, n, hf, -, hcause⟩ := Pattern.read_paddedBounds
    have hlong :=
      ((routines_backtrack_and_progress (.ofEdition .es2025 false)).2.2 hcause).1 {} _ hf
    rw [Slice.cursor_whole] at hlong
    exact ⟨f, hlong⟩

/-- Bounds of 4302 digits end a run with neither a tree nor a diagnostic. -/
theorem run_ends_at_long_number :
    ∃ n, parsePattern (.ofEdition .es2025 false) (.set {})
      (.whole (.ofCodePoints paddedBounds)) = .error (.tooManyDigits n) := by
  obtain ⟨f, n, hf, -, hcause⟩ := Pattern.read_paddedBounds
  refine ⟨n, Except.bind_eq_error.mpr (.inr ⟨{}, rfl, ?_⟩)⟩
  exact Except.mapError_eq_error.mpr ⟨f, hf, Failure.ofFault_eq_tooManyDigits.mpr hcause⟩

end Routine

end EcmaPattern
