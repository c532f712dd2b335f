import EcmaPattern.Proofs.Agreement.References
import EcmaPattern.Proofs.Nesting

/-!
# Parsers with fewer levels

A parser for which groups and classes may nest less deeply is run beside one for which they may nest
more deeply. `LimitsAt` says that the first does what the second does, or else finds that something
nests too deeply: at the first place beneath its levels, if the second gives a tree. This is closed
under the combinators; what follows a part of a tree that is too deep must not miss, since the first
parser has broken off there. Here it is shown for classes (`charClass_limits`).

The difficulty is in what stands behind a part that nests too deeply. There the first parser has
broken off already, while the second one reads on and might miss; then the whole would be a fault on
one side and a miss on the other. So each parser that follows such a part is shown never to miss.

Key lemmas:

* `LimitsAt.followed`, for a part that may be too deep and what follows it;
* `AgreesAt.limits`, by which all that does not nest is taken over from agreement of a grammar with
  itself;
* `charClass_limits`, by induction on the levels of the second parser.
-/

namespace EcmaPattern

def Comparison.same (g : Grammar) : Comparison := .inScopes g id

/-- The scopes of the two runs are the same. -/
theorem Comparison.MapsScopes.same (g : Grammar) : (Comparison.same g).MapsScopes := .of_id rfl

namespace Parser

/-- From the state, the first parser does what the second does, and nothing of what that gives is
too `deep`; or it finds that something is, and the second parser does not miss. That takes so many
units that lie ahead. -/
def LimitsAt {α : Type} (g : Grammar) (units : Nat) (deep : α → List Nat) (p q : Parser α)
    (s : State) : Prop :=
  (p g s = q g s ∧ ∀ a t, q g s = .done a t → deep a = [] ∧ s.cursor.Reaches t.cursor) ∨
    ∃ i, p g s = .fault ⟨.nestedTooDeeply, i⟩ ∧ units ≤ s.cursor.remaining ∧ q g s ≠ .miss ∧
      ∀ a t, q g s = .done a t → (deep a).head? = some i

def Limits {α : Type} (g : Grammar) (units : Nat) (deep : α → List Nat) (p q : Parser α) : Prop :=
  ∀ s, LimitsAt g units deep p q s

variable {α β : Type} {g : Grammar} {units : Nat} {deep : α → List Nat} {deep' : β → List Nat}
  {p q p' q' : Parser α} {f f' : α → Parser β} {s : State}

/-- A parser that reads nothing that nests. -/
theorem AgreesAt.limits (h : AgreesAt (.same g) p s)
    (hdeep : ∀ a t, p g s = .done a t → deep a = []) : LimitsAt g units deep p p s :=
  .inl ⟨rfl, fun a t ha => ⟨hdeep a t ha, h.reaches ha⟩⟩

/-- A parser that does the same under both limits, and gives nothing that is too deep, limits
itself. -/
theorem Agrees.limits (h : Agrees (.same g) p)
    (hdeep : ∀ s a t, p g s = .done a t → deep a = []) : Limits g units deep p p :=
  fun s => (h s).limits fun a t ha => hdeep s a t ha

namespace LimitsAt

/-- What misses without the limit misses with it. -/
theorem miss (h : LimitsAt g units deep p q s) (hq : q g s = .miss) : p g s = .miss := by
  rcases h with ⟨heq, -⟩ | ⟨i, -, -, hmiss, -⟩
  · rw [heq, hq]
  · exact absurd hq hmiss

/-- What follows must not lose what is too deep and, if there is such, must not miss. -/
theorem bind (hp : LimitsAt g units deep p q s)
    (hf : ∀ a t, q g s = .done a t → deep a = [] → LimitsAt g units deep' (f a) (f' a) t)
    (hkept : ∀ a t b u, f' a g t = .done b u → deep a <+: deep' b)
    (hmiss : ∀ a, deep a ≠ [] → NeverMisses (f' a)) :
    LimitsAt g units deep' (p >>= f) (q >>= f') s := by
  rcases hp with ⟨heq, hnil⟩ | ⟨i, hi, hunits, hq, hhead⟩
  · rw [LimitsAt, bind_apply, bind_apply, heq]
    cases ha : q g s with
    | done a t =>
      obtain ⟨hdeep, hreach⟩ := hnil a t ha
      rcases hf a t ha hdeep with ⟨hsame, hnil'⟩ | ⟨i, hi, hunits, hq, hhead⟩
      · exact .inl ⟨hsame, fun b u h => (hnil' b u h).imp_right hreach.trans⟩
      · exact .inr ⟨i, hi, Nat.le_trans hunits hreach.remaining_le, hq, hhead⟩
    | miss => exact .inl ⟨rfl, nofun⟩
    | fault e => exact .inl ⟨rfl, nofun⟩
  · refine .inr ⟨i, by rw [bind_apply, hi], hunits, ?_, ?_⟩
    · intro h
      rcases bind_eq_miss.mp h with h | ⟨a, t, ha, h⟩
      · exact hq h
      · have hdeep := hhead a t ha
        exact hmiss a (by rintro hnil; rw [hnil] at hdeep; cases hdeep) g t h
    · intro b u h
      obtain ⟨a, t, ha, h⟩ := bind_eq_done.mp h
      obtain ⟨rest, hrest⟩ := hkept a t b u h
      rw [← hrest, List.head?_append, hhead a t ha]
      rfl

/-- The same, if what follows reads nothing that nests. -/
theorem followed (hp : LimitsAt g units deep p q s) (hf : ∀ a, Agrees (.same g) (f a))
    (hdeep : ∀ a t b u, f a g t = .done b u → deep' b = deep a) (hmiss : ∀ a, NeverMisses (f a)) :
    LimitsAt g units deep' (p >>= f) (q >>= f) s := by
  refine hp.bind ?_ ?_ fun a _ => hmiss a
  · intro a t _ hnil
    apply (hf a t).limits
    intro b u h
    rw [hdeep a t b u h, hnil]
  · intro a t b u h
    exact hdeep a t b u h ▸ List.prefix_rfl

section After

variable {γ : Type} {p : Parser γ} {f f' : γ → Parser β} {units' : Nat}

/-- What stands before may be anything that reads nothing that nests. -/
theorem after_of (hp : AgreesAt (.same g) p s)
    (hunits : ∀ c t, p g s = .done c t → units ≤ t.cursor.remaining → units' ≤ s.cursor.remaining)
    (hf : ∀ c t, p g s = .done c t → LimitsAt g units deep' (f c) (f' c) t) :
    LimitsAt g units' deep' (p >>= f) (p >>= f') s := by
  rw [LimitsAt, bind_apply, bind_apply]
  cases hc : p g s with
  | done c t =>
    rcases hf c t hc with ⟨hsame, hnil⟩ | ⟨i, hi, hle, hq, hhead⟩
    · exact .inl ⟨hsame, fun b u h => (hnil b u h).imp_right (hp.reaches hc).trans⟩
    · exact .inr ⟨i, hi, hunits c t hc hle, hq, hhead⟩
  | miss => exact .inl ⟨rfl, nofun⟩
  | fault e => exact .inl ⟨rfl, nofun⟩

/-- Behind a parser that does the same under both limits, the limit is what limits the rest. -/
theorem after (hp : AgreesAt (.same g) p s)
    (hf : ∀ c t, p g s = .done c t → LimitsAt g units deep' (f c) (f' c) t) :
    LimitsAt g units deep' (p >>= f) (p >>= f') s :=
  after_of hp (fun _ _ hc hle => Nat.le_trans hle (hp.reaches hc).remaining_le) hf

/-- What is read first counts as one of the units. -/
theorem after_reading (hp : AgreesAt (.same g) p s)
    (hlt : ∀ c t, p g s = .done c t → t.cursor.remaining < s.cursor.remaining)
    (hf : ∀ c t, p g s = .done c t → LimitsAt g units deep' (f c) (f' c) t) :
    LimitsAt g (units + 1) deep' (p >>= f) (p >>= f') s :=
  after_of hp (fun c t hc hle => Nat.lt_of_le_of_lt hle (hlt c t hc)) hf

end After

/-- The grammar is the same for both parsers. -/
theorem grammar_bind {f f' : Grammar → Parser α} (h : LimitsAt g units deep (f g) (f' g) s) :
    LimitsAt g units deep (grammar >>= f) (grammar >>= f') s := h

/-- A choice is limited if its parts are. -/
theorem orElse (hp : LimitsAt g units deep p q s)
    (hr : LimitsAt g units deep p' q' s) : LimitsAt g units deep (p <|> p') (q <|> q') s := by
  by_cases hq : q g s = .miss
  · rw [LimitsAt, orElse_of_miss hq, orElse_of_miss (hp.miss hq)]
    exact hr
  · have hfirst : ∀ {r r' : Parser α}, r g s = q g s → (r <|> r') g s = q g s := by
      intro r r' hr
      rw [orElse_apply, hr]
      split
      · contradiction
      · rfl
    rw [LimitsAt, hfirst (r := q) rfl]
    rcases hp with ⟨heq, hnil⟩ | ⟨i, hi, hrest⟩
    · exact .inl ⟨hfirst heq, hnil⟩
    · exact .inr ⟨i, by rw [orElse_apply, hi], hrest⟩

theorem map {f : α → β} (hp : LimitsAt g units deep p q s) (hf : ∀ a, deep' (f a) = deep a) :
    LimitsAt g units deep' (f <$> p) (f <$> q) s := by
  refine hp.followed (f := fun a => pure (f a)) (fun a => pure_agrees _) ?_
    fun a => neverMisses_pure _
  intro a t b u h
  obtain ⟨rfl, -⟩ := pure_eq_done.mp h
  exact hf a

/-- An attempt gives what is too deep if its parser does. -/
theorem attempt (hp : LimitsAt g units deep p q s) :
    LimitsAt g units (fun o : Option α => o.elim [] deep) (attempt p) (attempt q) s := by
  rcases hp with ⟨heq, hnil⟩ | ⟨i, hi, hunits, hq, hhead⟩
  · refine .inl ⟨by rw [Parser.attempt, Parser.attempt, heq], ?_⟩
    intro o t h
    rcases attempt_eq_done.mp h with ⟨a, rfl, ha⟩ | ⟨rfl, -, rfl⟩
    · exact hnil a t ha
    · exact ⟨rfl, .refl _⟩
  · refine .inr ⟨i, by rw [Parser.attempt, hi], hunits, attempt_ne_miss, ?_⟩
    intro o t h
    rcases attempt_eq_done.mp h with ⟨a, rfl, ha⟩ | ⟨-, ha, -⟩
    · exact hhead a t ha
    · exact absurd ha hq

end LimitsAt

namespace Limits

theorem orElse (hp : Limits g units deep p q) (hr : Limits g units deep p' q') :
    Limits g units deep (p <|> p') (q <|> q') := fun s => (hp s).orElse (hr s)

/-- Repetitions after a first one, which is given. -/
theorem cons {p q : Parser (List α)} (hp : Limits g units (List.flatMap deep) p q) {a : α}
    (ha : deep a = []) : Limits g units (List.flatMap deep) ((a :: ·) <$> p) ((a :: ·) <$> q) := by
  intro s
  apply (hp s).map
  intro as
  rw [List.flatMap_cons, ha, List.nil_append]

/-- A repetition meets the first of its runs that is too deep. -/
theorem upTo (hp : Limits g units deep p q) (count : Nat) :
    Limits g units (List.flatMap deep) (upTo p count) (upTo q count) := by
  induction count with
  | zero => exact (pure_agrees []).limits fun s as t h => by cases h; rfl
  | succ count ih =>
    intro s
    rw [upTo_succ_eq, upTo_succ_eq]
    refine (hp s).attempt.bind ?_ ?_ ?_
    · rintro (_ | a) t - hnil
      · exact (pure_agrees [] t).limits fun as u h => by cases h; rfl
      · exact ih.cons hnil t
    · rintro (_ | a) t as u h
      · exact List.nil_prefix
      · obtain ⟨bs, -, rfl⟩ := map_eq_done.mp h
        exact List.prefix_append _ _
    · rintro (_ | a) - g s h
      · cases h
      · exact neverMisses_upTo q count g s (map_eq_miss.mp h)

theorem many (hp : Limits g units deep p q) :
    Limits g units (List.flatMap deep) (many p) (many q) :=
  fun s => hp.upTo (s.cursor.remaining + 1) s

theorem many1 (hp : Limits g units deep p q) :
    Limits g units (List.flatMap deep) (many1 p) (many1 q) := by
  intro s
  refine (hp s).bind (fun a t _ ha => hp.many.cons ha t) ?_ ?_
  · intro a t as u h
    obtain ⟨bs, -, rfl⟩ := map_eq_done.mp h
    exact List.prefix_append _ _
  · intro a _ g t h
    exact neverMisses_many q g t (map_eq_miss.mp h)

end Limits

/-! ## Classes

A class is too deep if the levels are used up where it opens, and what is beneath the levels is a
list of elements, of which the first one decides. The contents of a class never miss, since a fault
is what is left when there is no operand; so behind a class that is too deep there is always a tree
or a fault. -/

section Classes

variable {levels : Nat} {inner inner' : Parser CharSet}

abbrev deepElement (levels : Nat) (x : CharSet) : List Nat := (Piece.element x).beneath levels

abbrev deepElements (levels : Nat) (xs : List CharSet) : List Nat :=
  (Piece.elements xs).beneath levels

/-- What is too deep in elements is too deep in one of them, in order. -/
theorem deepElements_eq_flatMap (xs : List CharSet) :
    deepElements levels xs = xs.flatMap (deepElement levels) := by
  induction xs with
  | nil => rfl
  | cons x xs ih => rw [deepElements, Piece.beneath_elements, List.flatMap_cons, ← ih]

theorem escapedSet_agrees : Agrees (.same g) escapedSet :=
  here_agrees.bind fun mark => (eat_agrees _).bind fun _ => setEscape_agrees rfl mark

/-- Elements that are no classes have none in them. -/
theorem deepElements_of_derives {t : State} {xs : List CharSet} (hg : g.sets = false)
    (h : Derives g s (.elements xs) t) : deepElements levels xs = [] := by
  induction xs generalizing s with
  | nil => rfl
  | cons x xs ih =>
    cases h with
    | consElement h hs =>
      rw [deepElements, Piece.beneath_elements, show Piece.beneath levels _ = [] from ih hs,
        List.append_nil]
      cases h with
      | character => exact Piece.beneath_character levels _
      | setEscape h =>
        cases h with
        | mk h _ => exact Piece.beneath_setSpelling levels _ h
      | range => exact Piece.beneath_range levels _ _ _
      | strings hsets => simp [hg] at hsets
      | operation hsets => simp [hg] at hsets
      | nested hsets => simp [hg] at hsets

/-- Quoted strings do not nest. -/
theorem deepElement_of_classStrings {x : CharSet} {t : State} (h : classStrings g s = .done x t) :
    deepElement levels x = [] := by
  obtain ⟨y, ys, _, _, _, -, -, -, -, rfl⟩ := classStrings_eq_done h
  exact Piece.beneath_strings levels _ _

theorem deepElement_of_classSetRange {c : Character} {mark : Cursor} {x : CharSet} {t : State}
    (h : classSetRange c mark g s = .done x t) : deepElement levels x = [] := by
  obtain ⟨d, u, -, -, -, rfl⟩ := classSetRange_eq_done h
  exact Piece.beneath_range levels _ _ _

/-- An operation has in it what its operands have. -/
theorem deepElement_foldl (op : SetOperation) (steps : List (Span × CharSet)) (first : CharSet) :
    deepElement levels
        (steps.foldl (fun left (span, right) => .operation span op left right) first) =
      deepElement levels first ++ steps.flatMap fun step => deepElement levels step.2 := by
  induction steps generalizing first with
  | nil => rw [List.foldl_nil, List.flatMap_nil, List.append_nil]
  | cons step steps ih =>
    rw [List.foldl_cons, ih, deepElement, Piece.beneath_operation, List.flatMap_cons,
      List.append_assoc]

section SetGrammar

variable (hinner : Limits g units (deepElement levels) inner inner')

include hinner

/-- An operand is limited if the classes inside are. -/
theorem classSetOperand_limits :
    Limits g units (deepElement levels) (classSetOperand inner) (classSetOperand inner') := by
  have hset : Limits g units (deepElement levels) escapedSet escapedSet := by
    apply escapedSet_agrees.limits
    intro s x t h
    cases escapedSet_eq_done h with
    | mk hcs _ => exact Piece.beneath_setSpelling levels _ hcs
  have hstrings : Limits g units (deepElement levels) classStrings classStrings := by
    apply classStrings_agrees.limits
    intro s x t h
    exact deepElement_of_classStrings h
  have hcharacter : Limits g units (deepElement levels) (CharSet.character <$> classSetCharacter)
      (CharSet.character <$> classSetCharacter) := by
    apply classSetCharacter_agrees.map.limits
    intro s x t h
    obtain ⟨c, -, rfl⟩ := map_eq_done.mp h
    exact Piece.beneath_character levels c
  exact hinner.orElse (hset.orElse (hstrings.orElse hcharacter))

theorem operationStep_limits (mark : Cursor) (op : SetOperation) :
    Limits g units (fun step => deepElement levels step.2) (operationStep inner mark op)
      (operationStep inner' mark op) := by
  have hright : Limits g units (fun step => deepElement levels step.2)
      (do let right ← classSetOperand inner <|> fail .invalidCharacterInClass
          return (← spanFrom mark, right) : Parser (Span × CharSet))
      (do let right ← classSetOperand inner' <|> fail .invalidCharacterInClass
          return (← spanFrom mark, right)) := by
    intro s
    have hfail : LimitsAt g units (deepElement levels) (fail .invalidCharacterInClass)
        (fail .invalidCharacterInClass) s :=
      (fail_agrees _ s).limits fun a t h => absurd h fail_ne_done
    refine ((classSetOperand_limits hinner s).orElse hfail).followed ?_ ?_ ?_
    · exact fun right => (spanFrom_agrees mark).bind fun _ => pure_agrees _
    · intro right t step u h
      rw [spanFrom_bind] at h
      obtain ⟨rfl, -⟩ := pure_eq_done.mp h
      rfl
    · exact fun right => (neverMisses_spanFrom mark).bind fun _ => neverMisses_pure _
  intro s
  refine .after (eatAll_agrees _ s) fun _ t _ => ?_
  cases op with
  | subtraction => exact hright t
  | intersection =>
    refine .after (sees_agrees 0 _ t) fun third u _ => ?_
    cases third with
    | true => exact (fail_agrees _ u).limits fun a v h => absurd h fail_ne_done
    | false => exact hright u

/-- A chain of operations is limited: its right sides are, and its first operand has passed. -/
theorem operationChain_limits (mark : Cursor) (op : SetOperation) {first : CharSet}
    (hfirst : deepElement levels first = []) :
    Limits g units (deepElements levels) (operationChain inner mark op first)
      (operationChain inner' mark op first) := by
  intro s
  refine ((operationStep_limits hinner mark op).many1 s).followed (fun steps => pure_agrees _) ?_
    fun steps => neverMisses_pure _
  intro steps t xs u h
  obtain ⟨rfl, -⟩ := pure_eq_done.mp h
  rw [deepElements, Piece.beneath_elements, Piece.beneath_noElement, List.append_nil]
  exact (deepElement_foldl op steps first).trans (by rw [hfirst, List.nil_append])

theorem unionItem_limits :
    Limits g units (deepElement levels) (unionItem inner) (unionItem inner') := by
  intro s
  refine .after (here_agrees s) fun mark t _ => .orElse ?_ (classSetOperand_limits hinner t)
  have hrange : ∀ c, Agrees (.same g) (classSetRange c mark <|> pure (.character c)) := fun c =>
    (classSetRange_agrees c mark).orElse (pure_agrees _)
  apply (classSetCharacter_agrees.bind hrange t).limits
  intro x u h
  obtain ⟨c, v, -, h⟩ := bind_eq_done.mp h
  rcases orElse_eq_done.mp h with h | ⟨-, h⟩
  · exact deepElement_of_classSetRange h
  · obtain ⟨rfl, -⟩ := pure_eq_done.mp h
    exact Piece.beneath_character levels c

/-- A union is limited, member by member. -/
theorem union_limits {first : CharSet} (hfirst : deepElement levels first = []) :
    Limits g units (deepElements levels) ((first :: ·) <$> many (unionItem inner))
      ((first :: ·) <$> many (unionItem inner')) := by
  rw [show deepElements levels = List.flatMap (deepElement levels) from
    funext deepElements_eq_flatMap]
  exact (unionItem_limits hinner).many.cons hfirst

/-- What goes on from a first operand is limited, if that operand has passed. -/
theorem classSetFrom_limits (mark : Cursor) {first : CharSet}
    (hfirst : deepElement levels first = []) :
    Limits g units (deepElements levels) (classSetFrom inner mark first)
      (classSetFrom inner' mark first) :=
  (operationChain_limits hinner mark .intersection hfirst).orElse
    ((operationChain_limits hinner mark .subtraction hfirst).orElse (union_limits hinner hfirst))

omit hinner in
/-- The contents begin with what is in their first operand. -/
theorem deepElement_prefix {mark : Cursor} {first : CharSet} {xs : List CharSet} {t : State}
    (h : classSetFrom inner mark first g s = .done xs t) :
    deepElement levels first <+: deepElements levels xs := by
  have hchain : ∀ {op}, operationChain inner mark op first g s = .done xs t →
      deepElement levels first <+: deepElements levels xs := by
    intro op h
    obtain ⟨steps, u, -, h⟩ := bind_eq_done.mp h
    obtain ⟨rfl, -⟩ := pure_eq_done.mp h
    rw [deepElements, Piece.beneath_elements, Piece.beneath_noElement, List.append_nil]
    exact ⟨_, (deepElement_foldl op steps first).symm⟩
  rcases orElse_eq_done.mp h with h | ⟨-, h⟩
  · exact hchain h
  rcases orElse_eq_done.mp h with h | ⟨-, h⟩
  · exact hchain h
  · obtain ⟨ys, -, rfl⟩ := map_eq_done.mp h
    rw [deepElements, Piece.beneath_elements]
    exact List.prefix_append _ _

theorem classSetExpression_limits :
    Limits g units (deepElements levels) (classSetExpression inner)
      (classSetExpression inner') := by
  intro s
  refine .after (here_agrees s) fun mark t _ => .after (classSetCharacter_agrees.attempt t) ?_
  rintro (_ | c) u -
  · refine (classSetOperand_limits hinner u).attempt.bind ?_ ?_ ?_
    · rintro (_ | x) v - hx
      · exact (classSetFault_agrees v).limits fun a w h => absurd h classSetFault_ne_done
      · exact classSetFrom_limits hinner mark hx v
    · rintro (_ | x) v xs w h
      · exact List.nil_prefix
      · exact deepElement_prefix h
    · rintro (_ | x) -
      · exact neverMisses_classSetFault
      · exact neverMisses_classSetFrom mark x
  · refine .after ((classSetRange_agrees c mark).attempt u) ?_
    rintro (_ | x) v h
    · exact classSetFrom_limits hinner mark (Piece.beneath_character levels c) v
    · rcases attempt_eq_done.mp h with ⟨y, heq, hy⟩ | ⟨heq, -⟩
      · cases heq
        exact union_limits hinner (deepElement_of_classSetRange hy) v
      · cases heq

end SetGrammar

/-- The contents of a class are limited if the classes inside are. -/
theorem classSetContents_limits (hinner : Limits g units (deepElement levels) inner inner') :
    Limits g units (deepElements levels) (classSetContents inner) (classSetContents inner') := by
  intro s
  refine .after (atEnd_agrees s) fun done t _ => .after (sees_agrees _ _ t) fun closes u _ => ?_
  split
  · exact (pure_agrees [] u).limits fun xs v h => by cases h; rfl
  · exact classSetExpression_limits hinner u

section EndOfClass

variable {mark : Cursor} {nested negated : Bool} {xs : List CharSet}

/-- How a class ends has nothing to do with the limit. -/
theorem endOfClass_agrees : Agrees (.same g) (endOfClass mark nested negated xs) := by
  refine (closeClass_agrees nested).bind fun _ => ?_
  split
  · exact fail_agrees _
  · exact classOf_agrees mark negated xs

/-- A class has one level more than what it contains. -/
theorem deepElement_of_endOfClass {x : CharSet} {t : State}
    (h : endOfClass mark nested negated xs g s = .done x t) :
    deepElement (levels + 1) x = deepElements levels xs := by
  obtain ⟨_, u, -, h⟩ := bind_eq_done.mp h
  split at h
  · exact absurd h fail_ne_done
  rw [classOf, grammar_bind, spanFrom_bind] at h
  split at h
  · split at h
    · obtain ⟨rfl, -⟩ := pure_eq_done.mp h
      rw [deepElements, Piece.beneath_elements, Piece.beneath_noElement, List.append_nil]
      exact Piece.beneath_expression _ _ _ _
    · obtain ⟨rfl, -⟩ := pure_eq_done.mp h
      exact Piece.beneath_listing _ _ _ _ _
  · obtain ⟨rfl, -⟩ := pure_eq_done.mp h
    exact Piece.beneath_listing _ _ _ _ _

end EndOfClass

/-- With one level more, a class is limited that is one level deeper. -/
theorem classBody_limits (hinner : Limits g units (deepElement levels) inner inner')
    (nested : Bool) :
    Limits g (units + 1) (deepElement (levels + 1)) (classBody inner nested)
      (classBody inner' nested) := by
  -- what the contents become does not depend on the levels
  have hclass : ∀ {contents contents' : Parser (List CharSet)},
      Limits g units (deepElements levels) contents contents' → ∀ mark negated,
      Limits g units (deepElement (levels + 1)) (contents >>= endOfClass mark nested negated)
        (contents' >>= endOfClass mark nested negated) := by
    intro contents contents' h mark negated s
    exact (h s).followed (fun xs => endOfClass_agrees)
      (fun xs t x u h => deepElement_of_endOfClass h) fun xs => neverMisses_endOfClass
  intro s
  refine .after (here_agrees s) fun mark t _ => ?_
  refine .after_reading (eat_agrees _ t) (fun _ u hu => (eat_eq_done.mp hu).remaining_lt) ?_
  intro _ u _
  refine .after (eats_agrees _ u) fun negated v _ => .grammar_bind ?_
  cases hsets : g.sets with
  | true => exact hclass (classSetContents_limits hinner) mark negated v
  | false =>
    refine hclass ((classRanges_agrees hsets).limits ?_) mark negated v
    intro s xs t h
    exact deepElements_of_derives hsets (classRanges_derives hsets h)

/-- Behind an opening bracket there is a class or a fault. -/
theorem classBody_ne_miss {nested : Bool} (h : s.cursor.current = some (.ofChar '[')) :
    classBody inner nested g s ≠ .miss := by
  rw [classBody, here_bind]
  intro hmiss
  rcases eat_bind_eq_miss.mp hmiss with hne | ⟨t, -, hmiss⟩
  · exact hne h
  · have hrest : NeverMisses (do
        let negated ← eats '^'
        let xs ← if (← grammar).sets then classSetContents inner else classRanges
        endOfClass s.cursor nested negated xs : Parser CharSet) := by
      refine NeverMisses.bind ?_ fun negated => neverMisses_grammar.bind fun g => ?_
      · exact (neverMisses_attempt _).bind fun _ => neverMisses_pure _
      · dsimp only
        split
        · exact neverMisses_classSetContents.bind fun xs => neverMisses_endOfClass
        · refine NeverMisses.bind ?_ fun xs => neverMisses_endOfClass
          exact fun g s h => neverMisses_many _ g s (map_eq_miss.mp h)
    exact hrest g t hmiss

/-- A class with fewer levels left for it. -/
theorem charClass_limits {levels' : Nat} (hle : levels ≤ levels') (nested : Bool) :
    Limits g (levels + 1) (deepElement levels) (charClass levels nested)
      (charClass levels' nested) := by
  induction levels generalizing levels' nested with
  | succ levels ih =>
    obtain ⟨levels', rfl⟩ := Nat.exists_eq_add_one_of_ne_zero (Nat.ne_zero_of_lt hle)
    exact classBody_limits (ih (Nat.le_of_succ_le_succ hle) true) nested
  | zero =>
    intro s
    -- with no levels left, the bracket itself is the first place that is too deep
    by_cases hc : s.cursor.current = some (.ofChar '[')
    · cases levels' with
      | zero =>
        refine .inl ⟨rfl, ?_⟩
        intro x t h
        rw [charClass, here_bind, eat_bind_eq_done] at h
        obtain ⟨u, -, h⟩ := h
        exact absurd h failAt_ne_done
      | succ levels' =>
        have hr : s.Reads ['['] { s with cursor := s.cursor.advance } :=
          State.reads_singleton.mpr ⟨hc, rfl⟩
        refine .inr ⟨s.cursor.index, ?_, ?_, classBody_ne_miss hc, ?_⟩
        · rw [charClass, here_bind, bind_of_done (eat_eq_done (x := ()).mpr hr)]
          rfl
        · exact Nat.lt_of_le_of_lt (Nat.zero_le _) hr.remaining_lt
        · intro x t h
          have hstart : deepElement 0 x = [s.cursor.index] := by
            cases charClass_derives h with
            | listing => exact Piece.beneath_listing _ _ _ _ _
            | expression => exact Piece.beneath_expression _ _ _ _
          rw [hstart]
          rfl
    · rw [LimitsAt, charClass_eq_miss hc, charClass_eq_miss hc]
      exact .inl ⟨rfl, fun _ _ h => by cases h⟩

end Classes

end Parser

end EcmaPattern
