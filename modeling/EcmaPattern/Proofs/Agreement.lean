import EcmaPattern.Proofs.Derivation
import EcmaPattern.Proofs.Pairing.Terms

/-!
# Grammars side by side

Two grammars are compared by running each parser under both. A `Comparison` says in what the
grammars may differ and, for each difference, which faults the first one may find where the second
reads on. Its two runs are those of a pairing (`Comparison.pairing`). `AgreesAt k p s` says that
they come to the same from a state: the parser does the same under both grammars, unless it finds
such a fault under the first.

So all that holds of runs side by side holds of parsers that agree, and a difference has to be
looked at only where the grammar is asked for it. Here this is put together for the combinators, for
numbers and quantifiers and for escaped characters.

Key lemmas:

* `Agrees.of_pairs` and `Agrees.pairs`, between agreement and pairs of runs;
* `AgreesAt.bind` and `AgreesAt.orElse`, for parsers that agree from a given state only;
* `escapedValue_agrees`, that an escape has the same value, where the excuse for a lone `\c` is not
  needed yet.
-/

namespace EcmaPattern

/-! ## Scopes under another rule

One of the differences between editions is the rule for names that stand twice. It is a field of the
scope, so the two runs have scopes that differ in it, and every change of a scope commutes with
that. -/

def GroupScope.underRule (s : GroupScope) (f : DuplicateRule → DuplicateRule) : GroupScope :=
  { s with rule := f s.rule }

namespace GroupScope

variable (s : GroupScope) (f : DuplicateRule → DuplicateRule)

theorem underRule_enterDisjunction :
    s.enterDisjunction.underRule f = (s.underRule f).enterDisjunction := rfl

theorem underRule_leaveDisjunction :
    s.leaveDisjunction.underRule f = (s.underRule f).leaveDisjunction := rfl

theorem underRule_followingAlternative :
    s.followingAlternative.underRule f = (s.underRule f).followingAlternative := by
  simp only [followingAlternative, enterAlternative, underRule]
  cases s.path.getLast? <;> rfl

end GroupScope

/-! ## Comparisons

The fields of a `Comparison` list the differences that occur in the development: strictness,
references by name, and edition, each with the places at which the first grammar may be at fault.
Everything else is required to be equal. -/

/-- The place is before a backslash and a `c` after which no Latin letter stands. -/
def Cursor.AtLoneControl (c : Cursor) : Prop :=
  c.current = some (.ofChar '\\') ∧ c.advance.current = some (.ofChar 'c') ∧
    ∀ d, c.advance.advance.current = some d → d.isLatinLetter = false

/-- The place is before a backslash and a `k`. -/
def Cursor.AtNameEscape (c : Cursor) : Prop :=
  c.current = some (.ofChar '\\') ∧ c.advance.current = some (.ofChar 'k')

/-- Two grammars, and the faults of the first that excuse it from agreeing with the second. -/
structure Comparison where
  left : Grammar
  right : Grammar
  /-- The scope of the second run that goes with a scope of the first. -/
  scope : GroupScope → GroupScope
  /-- The faults that excuse the first grammar, with the place before what is at fault. -/
  halts : Cursor → Fault → Prop
  unicode : right.unicode = left.unicode
  sets : right.sets = left.sets
  captures : right.captures = left.captures
  exact : right.exact = left.exact
  /-- The second edition may be later, if every fault of the first is excused. -/
  edition : right.edition = left.edition ∨ left.edition ≤ right.edition ∧ ∀ c f, halts c f
  /-- By code points, the first grammar may be the strict one, if a lone `\c` in a class is
  excused. -/
  strict : right.strict = left.strict ∨ left.strict = true ∧ left.unicode = true ∧
    (left.sets = false → ∀ c : Cursor, c.AtLoneControl → halts c ⟨.invalidEscape, c.advance.index⟩)
  /-- One of the grammars may take `\k` for a reference, if neither is the web grammar. -/
  names : right.namedReferences = left.namedReferences ∨ left.exact = true

/-- A grammar beside itself, with other scopes. -/
def Comparison.inScopes (g : Grammar) (f : GroupScope → GroupScope) : Comparison where
  left := g
  right := g
  scope := f
  halts _ _ := False
  unicode := rfl
  sets := rfl
  captures := rfl
  exact := rfl
  edition := .inl rfl
  strict := .inl rfl
  names := .inl rfl

/-- The scopes that go with each other change alike, and mean the same by a name. The first may
find more conflicts, if every fault is excused. -/
structure Comparison.MapsScopes (k : Comparison) : Prop where
  enterDisjunction : ∀ s, k.scope s.enterDisjunction = (k.scope s).enterDisjunction
  followingAlternative : ∀ s, k.scope s.followingAlternative = (k.scope s).followingAlternative
  leaveDisjunction : ∀ s, k.scope s.leaveDisjunction = (k.scope s).leaveDisjunction
  declare : ∀ s name index, k.scope (s.declare name index) = (k.scope s).declare name index
  declares : ∀ s, (k.scope s).declares = s.declares
  indexes : ∀ s, (k.scope s).indexes = s.indexes
  conflicts : ∀ s name, (k.scope s).conflicts name = s.conflicts name ∨
    s.conflicts name = true ∧ ∀ c f, k.halts c f

namespace Comparison

/-- Scopes that are not changed mean the same. -/
theorem MapsScopes.of_id {k : Comparison} (h : k.scope = id) : k.MapsScopes := by
  constructor <;> simp [h]

/-- Only the rule for names that stand twice differs. -/
theorem MapsScopes.of_underRule {k : Comparison} {f : DuplicateRule → DuplicateRule}
    (h : k.scope = (·.underRule f))
    (hconflicts : ∀ (s : GroupScope) name, (s.underRule f).conflicts name = s.conflicts name ∨
      s.conflicts name = true ∧ ∀ c f, k.halts c f) : k.MapsScopes where
  enterDisjunction s := by rw [h]; exact s.underRule_enterDisjunction f
  followingAlternative s := by rw [h]; exact s.underRule_followingAlternative f
  leaveDisjunction s := by rw [h]; exact s.underRule_leaveDisjunction f
  declare s name index := by rw [h]; rfl
  declares s := by rw [h]; rfl
  indexes s := by rw [h]; rfl
  conflicts := by rw [h]; exact hconflicts

variable (k : Comparison)

/-- From the place on, the fault is one that excuses the first grammar. -/
def Stops (c : Cursor) (f : Fault) : Prop := ∃ d, c.Reaches d ∧ k.halts d f

/-- Every fault excuses the first grammar. -/
def StopsAlways : Prop := ∀ c f, k.halts c f

/-- If only one of the grammars takes `\k` for a reference, it is the second, and the first is
excused at an escaped `k`. -/
def ExcusesNames : Prop :=
  k.right.namedReferences = k.left.namedReferences ∨
    k.left.namedReferences = false ∧ k.right.namedReferences = true ∧
      ∀ c : Cursor, c.AtNameEscape → k.halts c ⟨.invalidEscape, c.advance.index⟩

/-- The state of the second run that goes with a state of the first. -/
def across (s : State) : State := s.inScope k.scope

@[simp] theorem across_cursor (s : State) : (k.across s).cursor = s.cursor := rfl

/-- The outcome of the second run that goes with an outcome of the first. -/
def outcome {α : Type} : Outcome α → Outcome α
  | .done a t => .done a (k.across t)
  | .miss => .miss
  | .fault f => .fault f

variable {k}

/-- A fault that excuses from a later place excuses from an earlier one. -/
theorem Stops.of_reaches {c d : Cursor} {f : Fault} (hcd : c.Reaches d) (h : k.Stops d f) :
    k.Stops c f := by
  obtain ⟨e, hde, hf⟩ := h
  exact ⟨e, hcd.trans hde, hf⟩

theorem StopsAlways.stops (h : k.StopsAlways) (c : Cursor) (f : Fault) : k.Stops c f :=
  ⟨c, .refl c, h c f⟩

/-- A feature is in both editions or in neither, or else every fault of the first is excused. -/
theorem supports_cases (f : Feature) :
    k.right.edition.supports f = k.left.edition.supports f ∨
      k.left.edition.supports f = false ∧ k.right.edition.supports f = true ∧ k.StopsAlways := by
  rcases k.edition with heq | ⟨hle, hstops⟩
  · exact .inl (by rw [heq])
  cases hleft : k.left.edition.supports f with
  | true => exact .inl (Edition.supports_mono hle hleft)
  | false =>
    cases hright : k.right.edition.supports f with
    | true => exact .inr ⟨rfl, rfl, hstops⟩
    | false => exact .inl rfl

/-- By code points, or under the same rules, a backslash before any letter means the same. -/
theorem strict_or_unicode : k.right.strict = k.left.strict ∨ k.left.unicode = true :=
  k.strict.imp_right fun h => h.2.1

/-- The grammars let the same characters be escaped to stand for themselves. -/
theorem isIdentityEscape_eq : Parser.isIdentityEscape k.right = Parser.isIdentityEscape k.left := by
  funext c
  unfold Parser.isIdentityEscape
  rw [k.unicode]
  cases hu : k.left.unicode with
  | true => rfl
  | false =>
    have hstrict : k.right.strict = k.left.strict :=
      k.strict_or_unicode.resolve_right (by simp [hu])
    rw [hstrict]
    rcases k.names with hnames | hexact
    · rw [hnames]
    · obtain hs : k.left.strict = true := by simpa [Grammar.exact, hu] using hexact
      simp [hs]

end Comparison

/-- The two runs, among the places that can be read from a place. Which faults excuse the first run
depends on where it began. -/
def Comparison.pairing (k : Comparison) (b : Cursor) : Pairing where
  left := k.left
  right := k.right
  Beside s s' := b.Reaches s.cursor ∧ s' = k.across s
  Marks m m' := m' = m
  span := id
  Parts _ := False
  Blames e e' := e' = e
  Excuses := k.Stops b
  mayPart_of_parts := CodePoint.mayPart_of_false
  marks := by
    rintro s _ ⟨-, rfl⟩
    rfl
  between := by
    rintro m _ s _ rfl ⟨-, rfl⟩
    rfl
  read := by
    rintro s _ t c ⟨hb, rfl⟩ - hr
    obtain ⟨hc, rfl⟩ := State.reads_singleton.mp hr
    exact ⟨_, State.reads_singleton.mpr ⟨hc, rfl⟩, hb.trans hr.cursor.reaches, rfl⟩
  stop := by
    rintro s _ c ⟨-, rfl⟩ h hc
    exact h c hc
  blames := by
    rintro m _ cause rfl -
    rfl
  blames_tooMany := by
    rintro s _ t _ cs - - ⟨-, rfl⟩ - -
    rfl

namespace Comparison

variable (k : Comparison) (b : Cursor)

theorem alike : (k.pairing b).Alike :=
  ⟨k.unicode, k.strict.imp_right fun h => ⟨h.1, .inr h.2.1⟩⟩

theorem level : (k.pairing b).Level where
  not_parts _ := id
  remaining := by
    rintro s _ ⟨-, rfl⟩
    rfl

/-- Both runs take their spans from the same places, so their trees are the same. -/
abbrev trees : (k.pairing b).Trees := .same rfl

end Comparison

namespace Parser

/-- From the state, the parser does the same under both grammars of a comparison, unless it finds a
fault under the first that is excused. -/
def AgreesAt {α : Type} (k : Comparison) (p : Parser α) (s : State) : Prop :=
  (k.pairing s.cursor).Outcomes Eq (p k.left s) (p k.right (k.across s))

def Agrees {α : Type} (k : Comparison) (p : Parser α) : Prop := ∀ s, AgreesAt k p s

variable {α β : Type} {k : Comparison} {p q : Parser α} {f : α → Parser β} {s t : State}

namespace AgreesAt

/-- A fault that excuses the first run from a place on does so from any place before it. -/
theorem of_reaches (h : AgreesAt k p s) {b : Cursor} (hb : b.Reaches s.cursor) :
    (k.pairing b).Outcomes Eq (p k.left s) (p k.right (k.across s)) := by
  rw [AgreesAt] at h
  generalize p k.left s = o at h
  generalize p k.right (k.across s) = o' at h
  cases h with
  | done hab ht => exact .done hab ⟨hb.trans ht.1, ht.2⟩
  | miss => exact .miss
  | fault h => exact .fault h
  | excused h => exact .excused (h.of_reaches hb)

/-- What is done under the first grammar is done under the second. -/
theorem done (h : AgreesAt k p s) {a : α} (ha : p k.left s = .done a t) :
    p k.right (k.across s) = .done a (k.across t) := by
  rw [AgreesAt, ha] at h
  obtain ⟨_, _, hb, rfl, -, rfl⟩ := h.of_done
  exact hb

theorem reaches (h : AgreesAt k p s) {a : α} (ha : p k.left s = .done a t) :
    s.cursor.Reaches t.cursor := by
  rw [AgreesAt, ha] at h
  obtain ⟨_, _, -, -, hreach, -⟩ := h.of_done
  exact hreach

theorem miss (h : AgreesAt k p s) (hs : p k.left s = .miss) : p k.right (k.across s) = .miss := by
  rw [AgreesAt, hs] at h
  exact h.of_miss

/-- The outcomes under the two grammars are the same, or the first run is excused. -/
theorem agrees (h : AgreesAt k p s) : p k.right (k.across s) = k.outcome (p k.left s) ∨
    ∃ f, p k.left s = .fault f ∧ k.Stops s.cursor f := by
  rw [AgreesAt] at h
  generalize p k.left s = o at h
  generalize p k.right (k.across s) = o' at h
  cases h with
  | done hab ht => exact .inl (by rw [hab, ht.2]; rfl)
  | miss => exact .inl rfl
  | fault h => exact .inl (by rw [h]; rfl)
  | excused h => exact .inr ⟨_, rfl, h⟩

/-- To agree, a parser has to do the same under the second grammar as under the first. -/
theorem of_outcomes
    (hdone : ∀ a t, p k.left s = .done a t →
      s.cursor.Reaches t.cursor ∧ p k.right (k.across s) = .done a (k.across t))
    (hmiss : p k.left s = .miss → p k.right (k.across s) = .miss)
    (hfault : ∀ e, p k.left s = .fault e →
      p k.right (k.across s) = .fault e ∨ k.Stops s.cursor e) : AgreesAt k p s := by
  rw [AgreesAt]
  cases h : p k.left s with
  | done a t =>
    obtain ⟨hreach, hright⟩ := hdone a t h
    rw [hright]
    exact .done rfl ⟨hreach, rfl⟩
  | miss =>
    rw [hmiss h]
    exact .miss
  | fault e =>
    rcases hfault e h with hright | hstops
    · rw [hright]
      exact .fault rfl
    · exact .excused hstops

/-- Where the first grammar finds an excused fault, it does not matter what the second does. -/
theorem of_fault {e : Fault} (he : p k.left s = .fault e) (hstops : k.Stops s.cursor e) :
    AgreesAt k p s := by
  rw [AgreesAt, he]
  exact .excused hstops

/-- A parser that gives the same and reads nothing. -/
theorem of_answer {a : α} {scope : GroupScope} {opened : Nat}
    (hleft : p k.left s = .done a ⟨s.cursor, scope, opened⟩)
    (hright : p k.right (k.across s) = .done a ⟨s.cursor, k.scope scope, opened⟩) :
    AgreesAt k p s := by
  rw [AgreesAt, hleft, hright]
  exact Pairing.Outcomes.done rfl ⟨.refl s.cursor, rfl⟩

/-- Parsers that do the same from the state agree alike. -/
theorem congr (h : AgreesAt k p s) (hleft : q k.left s = p k.left s)
    (hright : q k.right (k.across s) = p k.right (k.across s)) : AgreesAt k q s := by
  rw [AgreesAt, hleft, hright]
  exact h

/-- What follows a parser needs to agree only where the parser leads. -/
theorem bind (hp : AgreesAt k p s)
    (hf : ∀ a t, p k.left s = .done a t → AgreesAt k (f a) t) : AgreesAt k (p >>= f) s := by
  refine Pairing.Outcomes.bind hp ?_
  rintro a t _ _ ha - rfl ⟨hreach, rfl⟩
  exact (hf a t ha).of_reaches hreach

/-- A second choice needs to agree only where the first one misses. -/
theorem orElse (hp : AgreesAt k p s) (hq : p k.left s = .miss → AgreesAt k q s) :
    AgreesAt k (p <|> q) s :=
  Pairing.Outcomes.orElse hp hq

theorem map {f : α → β} (hp : AgreesAt k p s) : AgreesAt k (f <$> p) s :=
  hp.bind (f := fun a => pure (f a)) fun _ _ _ => .of_answer rfl rfl

theorem attempt (hp : AgreesAt k p s) : AgreesAt k (attempt p) s := by
  refine Pairing.Outcomes.mono (Pairing.Outcomes.attempt ⟨.refl s.cursor, rfl⟩ hp) fun o o' ho => ?_
  cases ho with
  | some hab => exact congrArg some hab
  | none => rfl

/-- What is taken from the grammar must not differ. -/
theorem grammar_bind {f : Grammar → Parser α} (heq : f k.right = f k.left)
    (hf : AgreesAt k (f k.left) s) : AgreesAt k (grammar >>= f) s := by
  refine hf.congr rfl ?_
  rw [Parser.grammar_bind, heq]

/-- The editions must not differ in the feature. -/
theorem supports_bind {feature : Feature} {f : Bool → Parser α}
    (heq : k.right.edition.supports feature = k.left.edition.supports feature)
    (hf : AgreesAt k (f (k.left.edition.supports feature)) s) :
    AgreesAt k (supports feature >>= f) s := by
  refine hf.congr rfl ?_
  rw [Parser.supports_bind, heq]

end AgreesAt

/-! ## Combinators

A parser that agrees from every state is one that a comparison pairs with itself, from any place on.
So what holds of pairs of runs holds of parsers that agree. -/

namespace Agrees

/-- To agree is to go beside itself among the places that can be read from each place. -/
theorem of_pairs (h : ∀ b, (k.pairing b).Pairs Eq p p) : Agrees k p :=
  fun s => h s.cursor s _ ⟨.refl s.cursor, rfl⟩

/-- What agrees goes beside itself, from whatever place. -/
theorem pairs (h : Agrees k p) (b : Cursor) : (k.pairing b).Pairs Eq p p := by
  rintro s _ ⟨hb, rfl⟩
  exact (h s).of_reaches hb

/-- Parsers that agree agree in a row. -/
theorem bind (hp : Agrees k p) (hf : ∀ a, Agrees k (f a)) : Agrees k (p >>= f) :=
  fun s => (hp s).bind fun a t _ => hf a t

/-- Parsers that agree agree as a choice. -/
theorem orElse (hp : Agrees k p) (hq : Agrees k q) : Agrees k (p <|> q) :=
  fun s => (hp s).orElse fun _ => hq s

theorem map {f : α → β} (hp : Agrees k p) : Agrees k (f <$> p) := fun s => (hp s).map

theorem attempt (hp : Agrees k p) : Agrees k (attempt p) := fun s => (hp s).attempt

theorem grammar_bind {f : Grammar → Parser α} (heq : f k.right = f k.left)
    (hf : Agrees k (f k.left)) : Agrees k (grammar >>= f) :=
  fun s => .grammar_bind heq (hf s)

theorem supports_bind {feature : Feature} {f : Bool → Parser α}
    (heq : k.right.edition.supports feature = k.left.edition.supports feature)
    (hf : Agrees k (f (k.left.edition.supports feature))) : Agrees k (supports feature >>= f) :=
  fun s => .supports_bind heq (hf s)

/-- A repetition of a parser that agrees agrees. It is repeated as often in both runs. -/
theorem many (hp : Agrees k p) : Agrees k (many p) :=
  .of_pairs fun b => ((hp.pairs b).many_of_remaining (k.level b).remaining).mono fun _ _ h =>
    List.forall₂_eq_eq_eq ▸ h

theorem many1 (hp : Agrees k p) : Agrees k (many1 p) :=
  hp.bind fun _ => hp.many.bind fun _ => .of_pairs fun _ => .pure rfl

end Agrees

theorem pure_agrees (a : α) : Agrees k (pure a : Parser α) := .of_pairs fun _ => .pure rfl

theorem miss_agrees : Agrees k (miss : Parser α) := .of_pairs fun _ => .miss

theorem fail_agrees (cause : Cause) : Agrees k (fail cause : Parser α) := fun _ => .fault rfl

theorem failAt_agrees (cause : Cause) (index : Nat) : Agrees k (failAt cause index : Parser α) :=
  fun _ => .fault rfl

theorem require_agrees (b : Bool) : Agrees k (require b) := .of_pairs fun _ => require_pairs b

/-! ## Characters

Nothing that reads single characters asks for the grammar, so all of it agrees. -/

theorem here_agrees : Agrees k here := fun _ => .of_answer rfl rfl

theorem supports_agrees {feature : Feature}
    (h : k.right.edition.supports feature = k.left.edition.supports feature) :
    Agrees k (supports feature) := .of_pairs fun _ => supports_pairs h

theorem sees_agrees (n : Nat) (c : CodePoint) : Agrees k (sees n c) :=
  fun _ => .of_answer rfl rfl

theorem atEnd_agrees : Agrees k atEnd := .of_pairs fun b => (k.level b).atEnd

theorem spanFrom_agrees (mark : Cursor) : Agrees k (spanFrom mark) :=
  fun _ => .of_answer rfl rfl

theorem select_agrees (value? : CodePoint → Option α) : Agrees k (select value?) :=
  .of_pairs fun _ => select_pairs fun _ => False.elim

theorem satisfy_agrees (test : CodePoint → Bool) : Agrees k (satisfy test) :=
  .of_pairs fun b => (k.level b).satisfy test

theorem eat_agrees (c : CodePoint) : Agrees k (eat c) := .of_pairs fun b => (k.level b).eat c

/-- What follows a sign need agree only behind the sign. -/
theorem AgreesAt.eat_bind {c : CodePoint} {f : Unit → Parser β}
    (hf : ∀ t, s.Reads [c] t → AgreesAt k (f ()) t) : AgreesAt k (eat c >>= f) s :=
  (eat_agrees c s).bind fun _ t ht => hf t (eat_eq_done.mp ht)

theorem eats_agrees (c : CodePoint) : Agrees k (eats c) := .of_pairs fun b => (k.level b).eats c

theorem eatAll_agrees (cs : List Char) : Agrees k (eatAll cs) := by
  induction cs with
  | nil => exact pure_agrees ()
  | cons c cs ih =>
    rw [eatAll_cons]
    exact (eat_agrees c).bind fun _ => ih

/-- A change of scopes agrees if it goes with the change between the two runs. -/
theorem modifyScope_agrees {f : GroupScope → GroupScope}
    (hf : ∀ scope, k.scope (f scope) = f (k.scope scope)) : Agrees k (modifyScope f) := by
  refine fun s => .of_answer rfl ?_
  rw [hf]
  rfl

/-- A group that opens gets the same number in both runs. -/
theorem openCapture_agrees (hscopes : k.MapsScopes) (name : Option GroupName) :
    Agrees k (openCapture name) := by
  cases name with
  | none => exact fun _ => .of_answer rfl rfl
  | some n =>
    refine fun s => .of_answer rfl ?_
    rw [hscopes.declare]
    rfl

/-- A name has to conflict with the same scopes in both runs. -/
theorem conflicts_agrees {name : GroupName}
    (h : ∀ scope, (k.scope scope).conflicts name = scope.conflicts name) :
    Agrees k (conflicts name) :=
  fun s => .of_answer rfl (congrArg (Outcome.done · (k.across s)) (h s.scope))

/-! ## Numbers, quantifiers and escapes

Whether bounds that break off are a fault depends on the extensions, which both grammars have or
lack; the letters that may be escaped depend on strictness, which may differ only by code points,
where it makes no difference. -/

theorem fixedHex_agrees (length : Nat) : Agrees k (fixedHex length) :=
  .of_pairs fun _ => fixedHex_pairs length

theorem bracedBounds_agrees (lenient : Bool) : Agrees k (bracedBounds lenient) :=
  .of_pairs fun b => bracedBounds_pairs (k.alike b) lenient

theorem quantified_agrees (mark : Cursor) (e : Term) : Agrees k (quantified mark e) :=
  .of_pairs fun b => quantified_pairs rfl (k.alike b) rfl fun _ _ => rfl

/-- A fault that only exact grammars find. -/
theorem exact_fail_agrees (cause : Cause) :
    Agrees k (do require (← grammar).exact; fail cause : Parser α) :=
  .grammar_bind (by rw [k.exact]) ((require_agrees _).bind fun _ => fail_agrees cause)

/-- Unicode escapes agree if both grammars are equally strict, or all of the escapes are allowed. -/
theorem unicodeEscape_agrees {wide : Bool} (h : k.right.strict = k.left.strict ∨ wide = true) :
    Agrees k (unicodeEscape wide) := by
  refine .of_pairs fun _ => unicodeEscape_pairs (.inl ?_)
  show (k.right.strict || wide) = (k.left.strict || wide)
  rcases h with h | rfl
  · rw [h]
  · rw [Bool.or_true, Bool.or_true]

/-- What an escape stands for is the same under both grammars. -/
theorem escapedValue_agrees : Agrees k escapedValue := by
  have hidentity : Agrees k identityEscape :=
    .grammar_bind (by rw [k.isIdentityEscape_eq]) (satisfy_agrees _)
  exact .of_pairs fun b => escapedValue_pairs (k.alike b) k.exact (hidentity.pairs b)

theorem characterFrom_agrees (mark : Cursor) (v : CodePoint) : Agrees k (characterFrom mark v) :=
  (spanFrom_agrees mark).bind fun _ => pure_agrees _

theorem characterEscape_agrees (mark : Cursor) : Agrees k (characterEscape mark) :=
  escapedValue_agrees.bind fun _ => characterFrom_agrees mark _

theorem characterSetFrom_agrees (mark : Cursor) (v : CodePoint) :
    Agrees k (characterSetFrom mark v) :=
  (characterFrom_agrees mark v).map

end Parser

end EcmaPattern
