import EcmaPattern.Proofs.Derivation

/-!
# Flat scans

Two questions about a pattern are answered before it is read: how many capturing groups it has, and
where it ends in a literal. Both are answered by a scan that knows of classes only whether it is
inside one, and the rules of the set grammar, in which classes nest, are unknown to it. A `FlatScan`
is such a scan. Main statement: it passes over the spellings of all things that are not terms
(`Unmarked`), and it comes out of a class where the class ends, whatever the grammar
(`Derives.passed`).

A flat scan is given by a function of whether it is inside a class and of the place, with what it
does at each sign as the fields of a structure. Two instances exist: the count of groups and the
search for the end of a literal. Both inherit `Derives.passed`.
-/

namespace EcmaPattern

open EcmaPattern.Parser

variable {g : Grammar} {s t : State}

/-! ## Characters without a sign

The signs of the scans are the backslash, brackets, the parenthesis and the slash. Text without
them, and text in which a backslash escapes them, is passed over. -/

def flatSigns : List CodePoint := ['\\', '[', ']', '(', '/']

/-- None of the characters is a sign, apart from those that a backslash escapes. -/
inductive Unmarked : List CodePoint → Prop
  | nil : Unmarked []
  | cons {c : CodePoint} {cs : List CodePoint} (hc : flatSigns.contains c = false)
      (tail : Unmarked cs) : Unmarked (c :: cs)
  | escaped (c : CodePoint) {cs : List CodePoint} (tail : Unmarked cs) :
      Unmarked (.ofChar '\\' :: c :: cs)

theorem Unmarked.single {c : CodePoint} (h : flatSigns.contains c = false) : Unmarked [c] :=
  .cons h .nil

/-- Characters without signs may be put one after the other. -/
theorem Unmarked.append {cs ds : List CodePoint} (h : Unmarked cs) (h' : Unmarked ds) :
    Unmarked (cs ++ ds) := by
  induction h with
  | nil => exact h'
  | cons hc _ ih => exact .cons hc ih
  | escaped c _ ih => exact .escaped c ih

/-- Characters none of which is a sign are unmarked. -/
theorem Unmarked.of_forall {cs : List CodePoint} (h : ∀ c ∈ cs, flatSigns.contains c = false) :
    Unmarked cs := by
  induction cs with
  | nil => exact .nil
  | cons c cs ih =>
    have hcs := ih fun d hd => h d (List.mem_cons_of_mem c hd)
    exact .cons (h c List.mem_cons_self) hcs

/-- A character that passes a test is no sign if no sign passes it. -/
theorem not_flatSign (test : CodePoint → Bool) {c : CodePoint} (h : test c = true)
    (htest : flatSigns.any test = false) : flatSigns.contains c = false := by
  rw [List.contains_eq_mem, decide_eq_false_iff_not]
  intro hc
  exact List.any_eq_false.mp htest c hc h

/-! ## Spellings

For each spelling in turn: whatever is written below terms holds no sign but escaped ones. Names and
numbers do not hold any. -/

/-- No digit is a sign. -/
theorem not_flatSign_of_digit {base : Nat} {c : CodePoint} (h : (c.digit? base).isSome) :
    flatSigns.contains c = false :=
  not_flatSign (·.hexValue?.isSome) (CodePoint.isSome_hexValue? h) rfl

theorem Unmarked.digits {base : Nat} {cs : List CodePoint}
    (h : ∀ c ∈ cs, (c.digit? base).isSome) : Unmarked cs :=
  .of_forall fun c hc => not_flatSign_of_digit (h c hc)

/-- The first of the digits is escaped, the others are no signs. -/
theorem Unmarked.escaped_digits {base : Nat} {cs : List CodePoint} (hne : cs ≠ [])
    (h : ∀ c ∈ cs, (c.digit? base).isSome) : Unmarked (.ofChar '\\' :: cs) := by
  cases cs with
  | nil => exact absurd rfl hne
  | cons c cs => exact .escaped c (.digits fun d hd => h d (List.mem_cons_of_mem c hd))

theorem Digits.unmarked {base : Nat} {cs : List CodePoint} {ds : List Nat}
    (h : Digits base cs ds) : Unmarked cs :=
  .digits fun _ hc => h.isSome_of_mem hc

/-- A Unicode escape holds no sign but its backslash. -/
theorem UnicodeEscape.unmarked {wide : Bool} {cs : List CodePoint} {v : CodePoint}
    (h : UnicodeEscape wide cs v) : Unmarked (.ofChar '\\' :: cs) := by
  cases h with
  | pair _ h₁ h₂ => exact .escaped 'u' (h₁.unmarked.append (.escaped 'u' h₂.unmarked))
  | fixed h => exact .escaped 'u' h.unmarked
  | braced _ h => exact .escaped 'u' (.cons rfl (h.unmarked.append (.single rfl)))

/-- A character escape holds no sign but its backslash and what that escapes. -/
theorem Escape.unmarked {cs : List CodePoint} {v : CodePoint} (h : Escape g cs v) :
    Unmarked (.ofChar '\\' :: cs) := by
  cases h with
  | control _ => exact .escaped _ .nil
  | letter h => exact .escaped 'c' (.single (not_flatSign CodePoint.isLatinLetter h rfl))
  | zero => exact .escaped _ .nil
  | hex h => exact .escaped 'x' h.unmarked
  | unicode h => exact h.unmarked
  | octal _ h hne =>
    refine .escaped_digits ?_ fun c hc => h.isSome_of_mem hc
    rintro rfl
    exact hne (List.length_eq_zero_iff.mp h.length_eq.symm)
  | identity _ => exact .escaped _ .nil

/-- An escape for a set holds no sign but its backslash. -/
theorem SetSpelling.unmarked {cs : List CodePoint} {make : Span → CharSet}
    (h : SetSpelling g cs make) : Unmarked (.ofChar '\\' :: cs) := by
  cases h with
  | letter _ => exact .escaped _ .nil
  | @property c cs _ _ _ _ _ hcs =>
    have hword : Unmarked cs := by
      refine .of_forall fun d hd => ?_
      rcases hcs d hd with hd | rfl
      · exact not_flatSign _ hd rfl
      · decide
    exact .escaped c (.cons rfl (hword.append (.single rfl)))

theorem NameCharacter.unmarked {cs : List CodePoint} {c : CodePoint} (h : NameCharacter g cs c)
    (hc : c.isIdentifierStart ∨ c.isIdentifierPart) : Unmarked cs := by
  cases h with
  | plain =>
    exact .single (not_flatSign CodePoint.isNameLike (CodePoint.isNameLike_of_identifier hc) rfl)
  | escaped h => exact h.unmarked
  | pair _ ha hb =>
    exact .cons (not_flatSign CodePoint.isLead ha rfl)
      (.single (not_flatSign CodePoint.isTrail hb rfl))

/-- A name holds no sign but the backslashes of its escapes. -/
theorem NameSpelling.unmarked {cs : List CodePoint} {name : GroupName}
    (h : NameSpelling g cs name) : Unmarked cs := by
  induction h with
  | nil => exact .nil
  | cons h hc _ ih => exact (h.unmarked hc).append ih

theorem BoundsSpelling.unmarked {cs : List CodePoint} {b : Bounds} (h : BoundsSpelling cs b) :
    Unmarked cs := by
  cases h with
  | star => exact .single rfl
  | plus => exact .single rfl
  | question => exact .single rfl
  | exactly h => exact .cons rfl (h.unmarked.append (.single rfl))
  | atLeast h => exact .cons rfl (h.unmarked.append (.cons rfl (.single rfl)))
  | between h h' =>
    exact .cons rfl (h.unmarked.append (.cons rfl (h'.unmarked.append (.single rfl))))

/-- A quantifier holds no sign. -/
theorem QuantifierSpelling.unmarked {cs : List CodePoint} {r : Repetition}
    (h : QuantifierSpelling cs r) : Unmarked cs := by
  cases h with
  | greedy h => exact h.unmarked
  | lazy h => exact h.unmarked.append (.single rfl)

/-- Modifiers are letters and a hyphen. -/
theorem ReadsModifiers.unmarked {m : Modifiers} (h : ReadsModifiers s m t) :
    ∃ cs, s.Reads cs t ∧ Unmarked cs ∧ ∀ c ∈ cs, isModifierLetter c ∨ c = .ofChar '-' := by
  obtain ⟨cs, hread, hcs⟩ := h.reads
  refine ⟨cs, hread, .of_forall fun c hc => ?_, hcs⟩
  rcases hcs c hc with hc | rfl
  · exact not_flatSign _ hc rfl
  · decide

/-- Only a character that stands for itself can be a sign. -/
theorem Spelling.unmarked {p : Place} {cs : List CodePoint} {v : CodePoint}
    (h : Spelling g p cs v) : Unmarked cs ∨ ∃ c, cs = [c] ∧ p.allows g c := by
  cases h with
  | plain h => exact .inr ⟨_, rfl, h⟩
  | escaped h => exact .inl h.unmarked
  | backspace _ => exact .inl (.escaped _ .nil)
  | hyphen _ => exact .inl (.escaped _ .nil)
  | letter _ h =>
    have hsign := not_flatSign (fun c => c.isDecimalDigit || c.isOneOf ['_']) h rfl
    exact .inl (.escaped 'c' (.single hsign))
  | punctuator _ => exact .inl (.escaped _ .nil)

/-! ## The scan in a class

In a class of the set grammar other classes may nest, and a flat scan that leaves the inner one
takes itself to be outside. `Piece.Passed` says how it may stand then; what matters is that it is
outside behind the last bracket. -/

/-- A scan that tells from a place, and from whether it is inside a class, what lies ahead. It goes
by signs alone: it passes over characters without one, a bracket puts it into a class or out of it,
and inside a class only a backslash and a closing bracket mean anything. -/
structure FlatScan {β : Type} (F : Bool → Cursor → β) : Prop where
  pass : ∀ {cs : List CodePoint} {c d : Cursor}, Unmarked cs → c.Reads cs d →
    ∀ inClass, F inClass c = F inClass d
  openClass : ∀ {c d : Cursor}, c.Reads ['['] d → ∀ inClass, F inClass c = F true d
  closeClass : ∀ {c d : Cursor}, c.Reads [']'] d → ∀ inClass, F inClass c = F false d
  inside : ∀ {ch : CodePoint} {c d : Cursor}, ch.isOneOf ['\\', ']'] = false → c.Reads [ch] d →
    F true c = F true d

/-- How a flat scan may stand towards classes where a character is read: outside of them between
terms, inside in a class. In a class of the set grammar it need not know. -/
def Place.ScannedAs : Place → Bool → Prop
  | term, inClass => inClass = false
  | ranges, inClass => inClass = true
  | sets, _ => True

theorem Grammar.scannedAs_classPlace {inClass : Bool} (h : g.sets = true ∨ inClass = true) :
    g.classPlace.ScannedAs inClass := by
  rw [Grammar.classPlace]
  split
  · trivial
  · next hg =>
    rcases h with h | h
    · exact absurd h hg
    · exact h

theorem Grammar.classPlace_ne_term (g : Grammar) : g.classPlace ≠ .term := by
  rw [Grammar.classPlace]
  split <;> nofun

section Passing

variable {β : Type} {F : Bool → Cursor → β} (hF : FlatScan F)

include hF

/-- A flat scan passes over characters without signs. -/
theorem FlatScan.reads {cs : List CodePoint} (h : Unmarked cs) (hr : s.Reads cs t)
    (inClass : Bool) : F inClass s.cursor = F inClass t.cursor :=
  hF.pass h hr.cursor inClass

/-- A flat scan passes over a character that may stand for itself, unless it is a slash that ends
something. -/
theorem FlatScan.allowed {p : Place} {c : CodePoint} {inClass : Bool} (h : p.allows g c)
    (hr : s.Reads [c] t) (hp : p.ScannedAs inClass)
    (hslash : p = .term → c = .ofChar '/' → F false s.cursor = F false t.cursor) :
    F inClass s.cursor = F inClass t.cursor := by
  cases hsign : flatSigns.contains c with
  | false => exact hF.reads (.single hsign) hr inClass
  | true =>
    -- the signs that may stand for themselves do not change how the scan stands
    cases p with
    | term =>
      obtain rfl : inClass = false := hp
      simp only [flatSigns, List.contains_eq_mem, decide_eq_true_eq, List.mem_cons,
        List.not_mem_nil, or_false] at hsign
      rw [Place.allows] at h
      rcases hsign with rfl | rfl | rfl | rfl | rfl
      · split at h <;> exact absurd h (by decide)
      · split at h <;> exact absurd h (by decide)
      · exact hF.closeClass hr.cursor false
      · split at h <;> exact absurd h (by decide)
      · exact hslash rfl rfl
    | ranges =>
      obtain rfl : inClass = true := hp
      rw [Place.allows, Bool.not_eq_true'] at h
      exact hF.inside h hr.cursor
    | sets =>
      rw [Place.allows] at h
      have hnone := not_flatSign (fun c => !c.isClassSetSyntax) h rfl
      rw [hsign] at hnone
      cases hnone

/-- A flat scan passes over a character, plain or escaped. -/
theorem ReadsCharacter.passed {p : Place} {c : Character} (h : ReadsCharacter g p s c t)
    {inClass : Bool} (hp : p.ScannedAs inClass)
    (hslash : p = .term → s.Reads ['/'] t → F false s.cursor = F false t.cursor) :
    F inClass s.cursor = F inClass t.cursor := by
  cases h with
  | spelled h hr =>
    rcases h.unmarked with hcs | ⟨c, rfl, hc⟩
    · exact hF.reads hcs hr inClass
    · refine hF.allowed hc hr hp ?_
      rintro hterm rfl
      exact hslash hterm hr
  | backslash _ hr hc =>
    -- the scan takes the `c` for escaped, but would pass over it anyway
    have hnext : t.cursor.Reads [.ofChar 'c'] t.cursor.advance :=
      Cursor.reads_singleton.mpr ⟨hc, rfl⟩
    have hescaped := hF.pass (.escaped 'c' .nil) (hr.cursor.trans hnext) inClass
    have hplain := hF.pass (.single rfl) hnext inClass
    exact hescaped.trans hplain.symm

/-- A flat scan passes over an escape for a set. -/
theorem ReadsSetEscape.passed {x : CharSet} (h : ReadsSetEscape g s x t) (inClass : Bool) :
    F inClass s.cursor = F inClass t.cursor := by
  cases h with
  | mk h hr => exact hF.reads h.unmarked hr inClass

theorem ReadsString.passed {x : ClassString} (h : ReadsString g s x t) (inClass : Bool) :
    F inClass s.cursor = F inClass t.cursor := by
  cases h with
  | mk h =>
    induction h with
    | nil s => rfl
    | cons head _ ih => exact (head.passed hF trivial nofun).trans ih

/-- A flat scan passes over quoted strings. They are no class, and hold no sign that is not escaped.
-/
theorem ReadsStrings.passed {xs : List ClassString} (h : ReadsStrings g s xs t) (inClass : Bool) :
    F inClass s.cursor = F inClass t.cursor := by
  induction h with
  | last h => exact h.passed hF inClass
  | cons h hbar _ ih =>
    exact (h.passed hF inClass).trans ((hF.reads (.single rfl) hbar inClass).trans ih)

end Passing

/-- How a flat scan stands behind a part of a class. In a class of the set grammar it may take
itself to be outside: after a class inside the class. -/
def Piece.Passed {β : Type} (F : Bool → Cursor → β) (g : Grammar) (s t : State) : Piece → Prop
  | element _ | elements _ =>
    ∀ inClass, g.sets = true ∨ inClass = true → ∃ inClass', (g.sets = true ∨ inClass' = true) ∧
      F inClass s.cursor = F inClass' t.cursor
  | charClass _ => ∀ inClass, F inClass s.cursor = F false t.cursor
  | _ => True

section Passing

variable {β : Type} {F : Bool → Cursor → β} (hF : FlatScan F)

include hF

/-- Within the brackets of a class. -/
theorem FlatScan.brackets {u v : State} {negated : Bool} (hopen : s.Reads (classText negated) t)
    (h : ∃ inClass', (g.sets = true ∨ inClass' = true) ∧ F true t.cursor = F inClass' u.cursor)
    (hclose : u.Reads [.ofChar ']'] v) (inClass : Bool) :
    F inClass s.cursor = F false v.cursor := by
  have hbracket : F inClass s.cursor = F true t.cursor := by
    cases negated with
    | false => exact hF.openClass hopen.cursor inClass
    | true =>
      obtain ⟨w, hw, hcaret⟩ := State.reads_cons.mp hopen
      exact (hF.openClass hw.cursor inClass).trans (hF.reads (.single rfl) hcaret true)
  obtain ⟨inClass', -, h⟩ := h
  exact hbracket.trans (h.trans (hF.closeClass hclose.cursor inClass'))

/-- A flat scan comes out of a class where the class ends. -/
theorem Derives.passed {x : Piece} (h : Derives g s x t) : x.Passed F g s t := by
  -- by induction on the derivation: inside a class it tells how the scan stands afterwards
  induction h with
  | character h =>
    intro inClass hclass
    have hplace := Grammar.scannedAs_classPlace hclass
    exact ⟨inClass, hclass, h.passed hF hplace fun h => absurd h g.classPlace_ne_term⟩
  | setEscape h =>
    intro inClass hclass
    exact ⟨inClass, hclass, h.passed hF inClass⟩
  | range hc hdash hd _ =>
    intro inClass hclass
    have hplace := Grammar.scannedAs_classPlace hclass
    have hfirst := hc.passed hF hplace fun h => absurd h g.classPlace_ne_term
    have hlast := hd.passed hF hplace fun h => absurd h g.classPlace_ne_term
    exact ⟨inClass, hclass, hfirst.trans ((hF.reads (.single rfl) hdash inClass).trans hlast)⟩
  | strings _ hopen h hclose =>
    intro inClass hclass
    have hquote := hF.reads (.escaped 'q' (.single rfl)) hopen inClass
    have hbrace := hF.reads (.single rfl) hclose inClass
    exact ⟨inClass, hclass, hquote.trans ((h.passed hF inClass).trans hbrace)⟩
  | @operation s t u v op x y _ _ hsign _ ihx ihy =>
    intro inClass hclass
    obtain ⟨inClass₁, hclass₁, hx⟩ := ihx inClass hclass
    obtain ⟨inClass₂, hclass₂, hy⟩ := ihy inClass₁ hclass₁
    have hunmarked : Unmarked [.ofChar (operationSign op), .ofChar (operationSign op)] := by
      cases op
      · exact .cons rfl (.single rfl)
      · exact .cons rfl (.single rfl)
    exact ⟨inClass₂, hclass₂, hx.trans ((hF.reads hunmarked hsign inClass₁).trans hy)⟩
  | nested hg _ ih =>
    -- behind the inner class the scan takes itself to be outside of all classes
    intro inClass _
    exact ⟨false, .inl hg, ih inClass⟩
  | noElement s =>
    intro inClass hclass
    exact ⟨inClass, hclass, rfl⟩
  | consElement _ _ ih ihs =>
    intro inClass hclass
    obtain ⟨inClass₁, hclass₁, hx⟩ := ih inClass hclass
    obtain ⟨inClass₂, hclass₂, hxs⟩ := ihs inClass₁ hclass₁
    exact ⟨inClass₂, hclass₂, hx.trans hxs⟩
  | listing hopen _ hclose _ ih => exact hF.brackets hopen (ih true (.inr rfl)) hclose
  | expression _ hopen _ hclose _ _ ih => exact hF.brackets hopen (ih true (.inr rfl)) hclose
  | _ => trivial

end Passing

end EcmaPattern
