import EcmaPattern.Grammar.Term
import EcmaPattern.Grammar.CharClass
import EcmaPattern.Proofs.Spelling

/-!
# Derivations

The grammar of patterns as a relation: `Derives g s x t` says that under the grammar `g` the part
`x` of a tree can be read from state `s` up to state `t`. There is one rule for each production, and
it says which text is read, which spans the nodes get, and how the scope of group names and the
count of groups change. What holds of every tree that is ever returned is proved by induction on
derivations.

The relation keeps apart what the recursive parsers mix: which text is read, which tree is made of
it, and how the state changes. Statements about answers are therefore proved by one induction over
derivations (`Derives.follows`, `Derives.tiled`, `Derives.scanned` and their like), with one case
for each production, and the parsers are needed only to know that what they read is derived
(`disjunction_derives`).
-/

namespace EcmaPattern

open EcmaPattern.Parser

/-! ## Characters and set escapes

What is below terms is read in one step, from the spellings. A `Place` tells whether a character
stands between terms or in a class, since that decides which characters may stand for themselves. -/

/-- Where a character stands: between terms, in a class, or in a class of the set grammar. -/
inductive Place where
  | term
  | ranges
  | sets
  deriving DecidableEq

def Place.allows (g : Grammar) : Place → CodePoint → Bool
  | term, c => if g.exact then !c.isSyntaxCharacter else !c.isReservedInWebGrammar
  | ranges, c => !c.isOneOf ['\\', ']']
  | sets, c => !c.isClassSetSyntax

def Grammar.classPlace (g : Grammar) : Place := if g.sets then .sets else .ranges

/-- A character as it is written. -/
inductive Spelling (g : Grammar) : Place → List CodePoint → CodePoint → Prop
  | plain {p : Place} {c : CodePoint} (h : p.allows g c) : Spelling g p [c] c
  | escaped {p : Place} {cs : List CodePoint} {v : CodePoint} (h : Escape g cs v) :
      Spelling g p (.ofChar '\\' :: cs) v
  | backspace {p : Place} (h : p ≠ .term) : Spelling g p ['\\', 'b'] (.ofNat 0x08)
  | hyphen (h : g.unicode = true) : Spelling g .ranges ['\\', '-'] '-'
  | letter {c : CodePoint} (hg : g.exact = false) (h : c.isDecimalDigit || c.isOneOf ['_']) :
      Spelling g .ranges ['\\', 'c', c] (.ofNat (c.val % 0x20))
  | punctuator {c : CodePoint} (h : c.isClassSetPunctuator) : Spelling g .sets ['\\', c] c

/-- A character that is read between two states. A backslash before a `c` can stand for itself. -/
inductive ReadsCharacter (g : Grammar) (p : Place) : State → Character → State → Prop
  | spelled {s t : State} {cs : List CodePoint} {v : CodePoint} (h : Spelling g p cs v)
      (hr : s.Reads cs t) : ReadsCharacter g p s ⟨.between s.cursor t.cursor, v⟩ t
  | backslash {s t : State} (hp : p ≠ .sets) (hr : s.Reads ['\\'] t)
      (hc : t.cursor.current = some (.ofChar 'c')) :
      ReadsCharacter g p s ⟨.between s.cursor t.cursor, '\\'⟩ t

/-- A set escape that is read between two states. -/
inductive ReadsSetEscape (g : Grammar) : State → CharSet → State → Prop
  | mk {s t : State} {cs : List CodePoint} {make : Span → CharSet} (h : SetSpelling g cs make)
      (hr : s.Reads (.ofChar '\\' :: cs) t) :
      ReadsSetEscape g s (make (.between s.cursor t.cursor)) t

/-- One of the strings of a `\q` escape. -/
inductive ReadsString (g : Grammar) : State → ClassString → State → Prop
  | mk {s t : State} {cs : List Character} (h : Chain (ReadsCharacter g .sets) s cs t) :
      ReadsString g s ⟨.between s.cursor t.cursor, cs⟩ t

/-- Strings of a `\q` escape, with bars between them. -/
inductive ReadsStrings (g : Grammar) : State → List ClassString → State → Prop
  | last {s t : State} {x : ClassString} (h : ReadsString g s x t) : ReadsStrings g s [x] t
  | cons {s t u v : State} {x : ClassString} {xs : List ClassString} (h : ReadsString g s x t)
      (hbar : t.Reads ['|'] u) (hxs : ReadsStrings g u xs v) : ReadsStrings g s (x :: xs) v

/-! ## Modifiers

Modifiers are no pieces of the recursion, for nothing can nest in them. -/

/-- A run of modifier letters. -/
inductive ReadsFlags : State → ModifierFlags → State → Prop
  | mk {s t : State} {letters : List CodePoint} {f : ModifierFlags}
      (h : ∀ c ∈ letters, isModifierLetter c) (hr : s.Reads letters t)
      (hspan : f.span = .between s.cursor t.cursor) : ReadsFlags s f t

/-- The modifiers of a group. -/
inductive ReadsModifiers : State → Modifiers → State → Prop
  | add {s t : State} {f : ModifierFlags} (h : ReadsFlags s f t) :
      ReadsModifiers s ⟨.between s.cursor t.cursor, f, none⟩ t
  | remove {s t u v : State} {f f' : ModifierFlags} (h : ReadsFlags s f t)
      (hr : t.Reads ['-'] u) (h' : ReadsFlags u f' v) :
      ReadsModifiers s ⟨.between s.cursor v.cursor, f, some f'⟩ v

/-! ## Classes, terms and alternatives

A `Piece` is any part of a tree that the recursion goes through: elements of classes, terms,
sequences, alternatives. `Derives` has one constructor for each production and each carries the
texts of its signs, so the span of a node is that from the first state to the last. -/

/-- A part of a tree. -/
inductive Piece where
  /-- An element of a class. -/
  | element (x : CharSet)
  /-- Elements of a class, one after the other. -/
  | elements (xs : List CharSet)
  /-- A class. -/
  | charClass (x : CharSet)
  | term (t : Term)
  /-- Terms, one after the other. -/
  | terms (ts : List Term)
  | sequence (q : Sequence)
  /-- Alternatives, with bars between them. -/
  | alternatives (qs : List Sequence)
  /-- Alternatives, in a scope of their own. -/
  | disjunction (qs : List Sequence)

def lookText : Direction → Bool → List CodePoint
  | .ahead, false => ['(', '?', '=']
  | .ahead, true => ['(', '?', '!']
  | .behind, false => ['(', '?', '<', '=']
  | .behind, true => ['(', '?', '<', '!']

def classText (negated : Bool) : List CodePoint := if negated then ['[', '^'] else ['[']

def edgeSign : Edge → CodePoint
  | .start => '^'
  | .stop => '$'

def boundaryLetter (negated : Bool) : CodePoint := if negated then 'B' else 'b'

/-- The number of the reference that a text begins with: the number after a backslash. -/
def escapedNumeral? : List CodePoint → Option Nat
  | c :: cs => if c = .ofChar '\\' then numeral? cs else none
  | [] => none

def State.inScope (s : State) (f : GroupScope → GroupScope) : State := { s with scope := f s.scope }

def State.openCapture (s : State) (name : Option GroupName) : State :=
  { s with
    opened := s.opened + 1
    scope := match name with
      | some n => s.scope.declare n (s.opened + 1)
      | none => s.scope }

/-- Under a grammar, a part of a tree is read between two states. -/
inductive Derives (g : Grammar) : State → Piece → State → Prop
  | character {s t : State} {c : Character} (h : ReadsCharacter g g.classPlace s c t) :
      Derives g s (.element (.character c)) t
  | setEscape {s t : State} {x : CharSet} (h : ReadsSetEscape g s x t) :
      Derives g s (.element x) t
  | range {s t u v : State} {c d : Character} (hc : ReadsCharacter g g.classPlace s c t)
      (hdash : t.Reads ['-'] u) (hd : ReadsCharacter g g.classPlace u d v)
      (hle : c.value ≤ d.value) :
      Derives g s (.element (.range (.between s.cursor v.cursor) c d)) v
  | strings {s t u v : State} {xs : List ClassString} (hg : g.sets = true)
      (hopen : s.Reads ['\\', 'q', '{'] t) (h : ReadsStrings g t xs u)
      (hclose : u.Reads ['}'] v) :
      Derives g s (.element (.strings (.between s.cursor v.cursor) xs)) v
  | operation {s t u v : State} {op : SetOperation} {x y : CharSet} (hg : g.sets = true)
      (hx : Derives g s (.element x) t)
      (hsign : t.Reads [.ofChar (operationSign op), .ofChar (operationSign op)] u)
      (hy : Derives g u (.element y) v) :
      Derives g s (.element (.operation (.between s.cursor v.cursor) op x y)) v
  | nested {s t : State} {x : CharSet} (hg : g.sets = true) (h : Derives g s (.charClass x) t) :
      Derives g s (.element x) t
  | noElement (s : State) : Derives g s (.elements []) s
  | consElement {s t u : State} {x : CharSet} {xs : List CharSet} (h : Derives g s (.element x) t)
      (hs : Derives g t (.elements xs) u) : Derives g s (.elements (x :: xs)) u
  | listing {s t u v : State} {negated : Bool} {xs : List CharSet}
      (hopen : s.Reads (classText negated) t) (h : Derives g t (.elements xs) u)
      (hclose : u.Reads [']'] v) (hn : (negated && xs.any CharSet.mayContainStrings) = false) :
      Derives g s (.charClass (.listing (.between s.cursor v.cursor) negated g.sets xs)) v
  | expression {s t u v : State} {negated : Bool} {x : CharSet} (hg : g.sets = true)
      (hopen : s.Reads (classText negated) t) (h : Derives g t (.element x) u)
      (hclose : u.Reads [']'] v) (hn : (negated && x.mayContainStrings) = false)
      (hx : x.isOperation) :
      Derives g s (.charClass (.expression (.between s.cursor v.cursor) negated x)) v
  | termCharacter {s t : State} {c : Character} (h : ReadsCharacter g .term s c t)
      (hn : ∀ n, escapedNumeral? s.cursor.characters = some n → g.captures < n) :
      Derives g s (.term (.set (.character c))) t
  | termEscape {s t : State} {x : CharSet} (h : ReadsSetEscape g s x t) :
      Derives g s (.term (.set x)) t
  | termClass {s t : State} {x : CharSet} (h : Derives g s (.charClass x) t) :
      Derives g s (.term (.set x)) t
  | any {s t : State} (h : s.Reads ['.'] t) :
      Derives g s (.term (.any (.between s.cursor t.cursor))) t
  | edge {s t : State} {e : Edge} (h : s.Reads [edgeSign e] t) :
      Derives g s (.term (.edge (.between s.cursor t.cursor) e)) t
  | wordBoundary {s t : State} {negated : Bool}
      (h : s.Reads [.ofChar '\\', boundaryLetter negated] t) :
      Derives g s (.term (.wordBoundary (.between s.cursor t.cursor) negated)) t
  | look {s t u v : State} {direction : Direction} {negated : Bool} {qs : List Sequence}
      (hg : direction = .behind → g.edition.supports .lookbehind)
      (hopen : s.Reads (lookText direction negated) t) (h : Derives g t (.disjunction qs) u)
      (hclose : u.Reads [')'] v) :
      Derives g s (.term (.look (.between s.cursor v.cursor) direction negated qs)) v
  | group {s t u v : State} {qs : List Sequence} (hopen : s.Reads ['(', '?', ':'] t)
      (h : Derives g t (.disjunction qs) u) (hclose : u.Reads [')'] v) :
      Derives g s (.term (.group (.between s.cursor v.cursor) none qs)) v
  | modifiedGroup {s t u v w x : State} {m : Modifiers} {qs : List Sequence}
      (hg : g.edition.supports .modifiers) (hopen : s.Reads ['(', '?'] t)
      (hm : ReadsModifiers t m u) (hcolon : u.Reads [':'] v) (h : Derives g v (.disjunction qs) w)
      (hclose : w.Reads [')'] x) :
      Derives g s (.term (.group (.between s.cursor x.cursor) (some m) qs)) x
  | capture {s t u v : State} {qs : List Sequence} (hopen : s.Reads ['('] t)
      (hnext : t.cursor.current ≠ some (.ofChar '?'))
      (h : Derives g (t.openCapture none) (.disjunction qs) u) (hclose : u.Reads [')'] v) :
      Derives g s (.term (.capture (.between s.cursor v.cursor) (s.opened + 1) none qs)) v
  | namedCapture {s t u v : State} {cs : List CodePoint} {name : GroupName} {qs : List Sequence}
      (hg : g.edition.supports .namedGroups) (hname : NameSpelling g cs name) (hne : name ≠ [])
      (hopen : s.Reads (.ofChar '(' :: .ofChar '?' :: .ofChar '<' :: (cs ++ [.ofChar '>'])) t)
      (h : Derives g (t.openCapture (some name)) (.disjunction qs) u) (hclose : u.Reads [')'] v) :
      Derives g s (.term (.capture (.between s.cursor v.cursor) (s.opened + 1) (some name) qs)) v
  | numbered {s t : State} {cs : List CodePoint} {n : Nat}
      (hn : escapedNumeral? s.cursor.characters = some n) (hle : n ≤ g.captures) (hne : cs ≠ [])
      (hcs : ∀ c ∈ cs, c.isDecimalDigit) (hr : s.Reads (.ofChar '\\' :: cs) t) :
      Derives g s (.term (.reference (.between s.cursor t.cursor) (.number n))) t
  | named {s t : State} {cs : List CodePoint} {name : GroupName} (hg : g.namedReferences = true)
      (hname : NameSpelling g cs name)
      (hr : s.Reads (.ofChar '\\' :: .ofChar 'k' :: .ofChar '<' :: (cs ++ [.ofChar '>'])) t) :
      Derives g s (.term (.reference (.between s.cursor t.cursor) (.name name []))) t
  | quantified {s t u : State} {cs : List CodePoint} {r : Repetition} {e : Term}
      (h : Derives g s (.term e) t) (hq : QuantifierSpelling cs r) (hr : t.Reads cs u) :
      Derives g s (.term (.quantified (.between s.cursor u.cursor) r e)) u
  | noTerm (s : State) : Derives g s (.terms []) s
  | consTerm {s t u : State} {e : Term} {es : List Term} (h : Derives g s (.term e) t)
      (hs : Derives g t (.terms es) u) : Derives g s (.terms (e :: es)) u
  | sequence {s t : State} {es : List Term} (h : Derives g s (.terms es) t) :
      Derives g s (.sequence (.mk (.between s.cursor t.cursor) es)) t
  | lastAlternative {s t : State} {q : Sequence} (h : Derives g s (.sequence q) t) :
      Derives g s (.alternatives [q]) t
  | consAlternative {s t u v : State} {q : Sequence} {qs : List Sequence}
      (h : Derives g s (.sequence q) t) (hbar : t.Reads ['|'] u)
      (hs : Derives g (u.inScope GroupScope.followingAlternative) (.alternatives qs) v) :
      Derives g s (.alternatives (q :: qs)) v
  | disjunction {s t : State} {qs : List Sequence}
      (h : Derives g (s.inScope GroupScope.enterDisjunction) (.alternatives qs) t) :
      Derives g s (.disjunction qs) (t.inScope GroupScope.leaveDisjunction)

/-! ## What is read

Whatever is derived gets forward, and terms span what they are read from. -/

section Reading

variable {g : Grammar} {p : Place} {s t : State}

/-- No character is written as nothing. -/
theorem Spelling.ne_nil {cs : List CodePoint} {v : CodePoint} (h : Spelling g p cs v) :
    cs ≠ [] := by
  cases h <;> exact List.cons_ne_nil _ _

theorem ReadsCharacter.reads {c : Character} (h : ReadsCharacter g p s c t) :
    ∃ cs, cs ≠ [] ∧ s.Reads cs t := by
  cases h with
  | spelled h hr => exact ⟨_, h.ne_nil, hr⟩
  | backslash _ hr _ => exact ⟨_, List.cons_ne_nil _ _, hr⟩

/-- A character spans what it is read from. -/
theorem ReadsCharacter.span_eq {c : Character} (h : ReadsCharacter g p s c t) :
    c.span = .between s.cursor t.cursor := by
  cases h <;> rfl

theorem ReadsCharacter.reaches {c : Character} (h : ReadsCharacter g p s c t) :
    s.cursor.Reaches t.cursor := by
  obtain ⟨cs, -, hr⟩ := h.reads
  exact hr.cursor.reaches

theorem ReadsSetEscape.reaches {x : CharSet} (h : ReadsSetEscape g s x t) :
    s.cursor.Reaches t.cursor := by
  cases h with
  | mk _ hr => exact hr.cursor.reaches

/-- If each step of a chain gets forward, so does the chain. -/
theorem Chain.reaches {α : Type} {step : State → α → State → Prop} {as : List α}
    (hstep : ∀ s a t, step s a t → s.cursor.Reaches t.cursor) (h : Chain step s as t) :
    s.cursor.Reaches t.cursor := by
  induction h with
  | nil s => exact .refl _
  | cons head _ ih => exact (hstep _ _ _ head).trans ih

theorem ReadsString.reaches {x : ClassString} (h : ReadsString g s x t) :
    s.cursor.Reaches t.cursor := by
  cases h with
  | mk h => exact h.reaches fun _ _ _ => ReadsCharacter.reaches

theorem ReadsStrings.reaches {xs : List ClassString} (h : ReadsStrings g s xs t) :
    s.cursor.Reaches t.cursor := by
  induction h with
  | last h => exact h.reaches
  | cons h hbar _ ih => exact h.reaches.trans (hbar.cursor.reaches.trans ih)

theorem ReadsFlags.reaches {f : ModifierFlags} (h : ReadsFlags s f t) :
    s.cursor.Reaches t.cursor := by
  cases h with
  | mk _ hr _ => exact hr.cursor.reaches

/-- Modifiers are written with letters and a hyphen. -/
theorem ReadsModifiers.reads {m : Modifiers} (h : ReadsModifiers s m t) :
    ∃ cs, s.Reads cs t ∧ ∀ c ∈ cs, isModifierLetter c ∨ c = .ofChar '-' := by
  cases h with
  | add h =>
    cases h with
    | mk hall hr _ => exact ⟨_, hr, fun c hc => .inl (hall c hc)⟩
  | remove h hr h' =>
    cases h with
    | mk hall hread _ =>
      cases h' with
      | mk hall' hread' _ =>
        refine ⟨_, hread.trans (hr.trans hread'), ?_⟩
        intro c hc
        rcases List.mem_append.mp hc with hc | hc
        · exact .inl (hall c hc)
        · rcases List.mem_cons.mp hc with rfl | hc
          · exact .inr rfl
          · exact .inl (hall' c hc)

theorem ReadsModifiers.reaches {m : Modifiers} (h : ReadsModifiers s m t) :
    s.cursor.Reaches t.cursor := by
  obtain ⟨cs, hr, -⟩ := h.reads
  exact hr.cursor.reaches

/-- The state after a part of a tree is reached from the state before it. -/
theorem Derives.reaches {x : Piece} (h : Derives g s x t) : s.cursor.Reaches t.cursor := by
  induction h with
  | character h => exact h.reaches
  | setEscape h => exact h.reaches
  | range hc hdash hd _ => exact hc.reaches.trans (hdash.cursor.reaches.trans hd.reaches)
  | strings _ hopen h hclose =>
    exact hopen.cursor.reaches.trans (h.reaches.trans hclose.cursor.reaches)
  | operation _ _ hsign _ ihx ihy => exact ihx.trans (hsign.cursor.reaches.trans ihy)
  | nested _ _ ih => exact ih
  | noElement s => exact .refl _
  | consElement _ _ ih ihs => exact ih.trans ihs
  | listing hopen _ hclose _ ih => exact hopen.cursor.reaches.trans (ih.trans hclose.cursor.reaches)
  | expression _ hopen _ hclose _ _ ih =>
    exact hopen.cursor.reaches.trans (ih.trans hclose.cursor.reaches)
  | termCharacter h _ => exact h.reaches
  | termEscape h => exact h.reaches
  | termClass _ ih => exact ih
  | any h => exact h.cursor.reaches
  | edge h => exact h.cursor.reaches
  | wordBoundary h => exact h.cursor.reaches
  | look _ hopen _ hclose ih => exact hopen.cursor.reaches.trans (ih.trans hclose.cursor.reaches)
  | group hopen _ hclose ih => exact hopen.cursor.reaches.trans (ih.trans hclose.cursor.reaches)
  | modifiedGroup _ hopen hm hcolon _ hclose ih =>
    exact hopen.cursor.reaches.trans
      (hm.reaches.trans (hcolon.cursor.reaches.trans (ih.trans hclose.cursor.reaches)))
  | capture hopen _ _ hclose ih => exact hopen.cursor.reaches.trans (ih.trans hclose.cursor.reaches)
  | namedCapture _ _ _ hopen _ hclose ih =>
    exact hopen.cursor.reaches.trans (ih.trans hclose.cursor.reaches)
  | numbered _ _ _ _ hr => exact hr.cursor.reaches
  | named _ _ hr => exact hr.cursor.reaches
  | quantified _ _ hr ih => exact ih.trans hr.cursor.reaches
  | noTerm s => exact .refl _
  | consTerm _ _ ih ihs => exact ih.trans ihs
  | sequence _ ih => exact ih
  | lastAlternative _ ih => exact ih
  | consAlternative _ hbar _ ih ihs => exact ih.trans (hbar.cursor.reaches.trans ihs)
  | disjunction _ ih => exact ih

/-- An escape for a set has the span it is given. -/
theorem SetSpelling.span_eq {cs : List CodePoint} {make : Span → CharSet}
    (h : SetSpelling g cs make) (span : Span) : (make span).span = span := by
  cases h <;> rfl

/-- A term spans what it is read from. -/
theorem Derives.term_span {e : Term} (h : Derives g s (.term e) t) :
    e.span = .between s.cursor t.cursor := by
  cases h with
  | termCharacter h _ => exact h.span_eq
  | termEscape h =>
    cases h with
    | mk h _ => exact h.span_eq _
  | termClass h => cases h <;> rfl
  | _ => rfl

/-! ## Progress

Terms and classes take up text. Alternatives need not. -/

theorem Cursor.Reaches.remaining_le {c d : Cursor} (h : c.Reaches d) :
    d.remaining ≤ c.remaining := by
  obtain ⟨cs, hr⟩ := h
  exact hr.remaining_le

/-- Less is left behind a character. -/
theorem State.Reads.remaining_lt {c : CodePoint} {cs : List CodePoint} (h : s.Reads (c :: cs) t) :
    t.cursor.remaining < s.cursor.remaining :=
  h.cursor.remaining_lt (List.cons_ne_nil c cs)

/-- Whatever is enclosed, its opening is read. -/
theorem State.Reads.remaining_lt_of_reaches {c : CodePoint} {cs : List CodePoint} {u : State}
    (h : s.Reads (c :: cs) t) (h' : t.cursor.Reaches u.cursor) :
    u.cursor.remaining < s.cursor.remaining := by
  have hle := h'.remaining_le
  have hlt := h.remaining_lt
  omega

theorem exists_classText (negated : Bool) : ∃ cs, classText negated = .ofChar '[' :: cs := by
  cases negated
  · exact ⟨_, rfl⟩
  · exact ⟨_, rfl⟩

/-- A class begins with a bracket. -/
theorem Derives.reads_class {x : CharSet} (h : Derives g s (.charClass x) t) :
    ∃ cs u, s.Reads (.ofChar '[' :: cs) u ∧ u.cursor.Reaches t.cursor := by
  cases h with
  | @listing _ _ _ _ negated _ hopen h hclose _ =>
    obtain ⟨cs, heq⟩ := exists_classText negated
    rw [heq] at hopen
    exact ⟨cs, _, hopen, h.reaches.trans hclose.cursor.reaches⟩
  | @expression _ _ _ _ negated _ _ hopen h hclose _ _ =>
    obtain ⟨cs, heq⟩ := exists_classText negated
    rw [heq] at hopen
    exact ⟨cs, _, hopen, h.reaches.trans hclose.cursor.reaches⟩

/-- A class begins with a bracket. -/
theorem Derives.current_of_charClass {x : CharSet} (h : Derives g s (.charClass x) t) :
    s.cursor.current = some (.ofChar '[') := by
  obtain ⟨cs, u, hr, -⟩ := h.reads_class
  exact hr.current_eq

theorem Derives.class_remaining_lt {x : CharSet} (h : Derives g s (.charClass x) t) :
    t.cursor.remaining < s.cursor.remaining := by
  obtain ⟨cs, u, hr, hreaches⟩ := h.reads_class
  exact hr.remaining_lt_of_reaches hreaches

/-- Every term is read from some text. -/
theorem Derives.term_remaining_lt {e : Term} (h : Derives g s (.term e) t) :
    t.cursor.remaining < s.cursor.remaining := by
  -- only a repetition has a term as its first part, so the induction is for that case
  generalize hx : Piece.term e = x at h
  induction h generalizing e with
  | termCharacter h _ =>
    obtain ⟨cs, hne, hr⟩ := h.reads
    exact hr.cursor.remaining_lt hne
  | termEscape h =>
    cases h with
    | mk _ hr => exact hr.remaining_lt
  | termClass h => exact h.class_remaining_lt
  | any h => exact h.remaining_lt
  | edge h => exact h.remaining_lt
  | wordBoundary h => exact h.remaining_lt
  | @look _ _ _ _ direction negated _ _ hopen h hclose =>
    have hreach := h.reaches.trans hclose.cursor.reaches
    cases direction <;> cases negated <;> exact hopen.remaining_lt_of_reaches hreach
  | group hopen h hclose =>
    exact hopen.remaining_lt_of_reaches (h.reaches.trans hclose.cursor.reaches)
  | modifiedGroup _ hopen hm hcolon h hclose =>
    exact hopen.remaining_lt_of_reaches (hm.reaches.trans (hcolon.cursor.reaches.trans
      (h.reaches.trans hclose.cursor.reaches)))
  | capture hopen _ h hclose =>
    exact hopen.remaining_lt_of_reaches (h.reaches.trans hclose.cursor.reaches)
  | namedCapture _ _ _ hopen h hclose =>
    exact hopen.remaining_lt_of_reaches (h.reaches.trans hclose.cursor.reaches)
  | numbered _ _ _ _ hr => exact hr.remaining_lt
  | named _ _ hr => exact hr.remaining_lt
  | quantified h _ hr ih =>
    have hle := hr.cursor.remaining_le
    have hlt := ih rfl
    omega
  | _ => cases hx

end Reading

end EcmaPattern
