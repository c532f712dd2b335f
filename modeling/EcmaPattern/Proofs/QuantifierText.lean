import EcmaPattern.Proofs.CharacterValues
import EcmaPattern.Proofs.Fragments.Constructs
import EcmaPattern.Proofs.Traces.Terms

/-!
# The text of quantifiers

What a quantifier says, read off its text alone: `Bounds.WrittenAs` and `Repetition.WrittenAs` give
the bounds that a text stands for, without regard to how it is parsed. The parser of quantifiers
reads just these texts. It is also run to find out that no quantifier stands in a place: neither
where a term begins (`term_begins`) nor where alternatives end (`noStrayQuantifier_ends`) could one
be read.

`bracedBounds` is compared with `Braces` in both directions: a text with braces that are bounds is
read as these bounds, and what is read as bounds is such a text. The second is easy. The first needs
that digits are taken to the last one, and that a number which is too long is a fault and not a
miss.
-/

namespace EcmaPattern

open EcmaPattern.Parser

variable {g : Grammar} {s t u v : State} {b c : Bounds} {cs : List CodePoint}

/-! ## Texts

Bounds in braces may have one number, one number and a comma, or two. Only digits, a comma and
braces occur, so such a text can be told from its first signs. -/

/-- Bounds between braces, as they are written: a number, one and a comma, or two with a comma
between them. Unlike by `BoundsSpelling`, a number has at least one digit, so that braces without
digits are none; it may begin with zeros. -/
inductive Braces : List CodePoint → Bounds → Prop
  | exactly {cs : List CodePoint} {n : Nat} (h : numberOf? 10 cs = some n) :
      Braces (.ofChar '{' :: (cs ++ [.ofChar '}'])) (n, some n)
  | atLeast {cs : List CodePoint} {n : Nat} (h : numberOf? 10 cs = some n) :
      Braces (.ofChar '{' :: (cs ++ [.ofChar ',', .ofChar '}'])) (n, none)
  | between {cs cs' : List CodePoint} {n n' : Nat} (h : numberOf? 10 cs = some n)
      (h' : numberOf? 10 cs' = some n') :
      Braces (.ofChar '{' :: (cs ++ .ofChar ',' :: (cs' ++ [.ofChar '}']))) (n, some n')

/-- The bounds of a quantifier, as they are written. -/
inductive Bounds.WrittenAs : Bounds → List CodePoint → Prop
  | star : WrittenAs (0, none) ['*']
  | plus : WrittenAs (1, none) ['+']
  | question : WrittenAs (0, some 1) ['?']
  | braces {b : Bounds} {cs : List CodePoint} (h : Braces cs b) : WrittenAs b cs

/-- A quantifier, as it is written: its bounds, and a question mark if the match is to be short. -/
def Repetition.WrittenAs (r : Repetition) (cs : List CodePoint) : Prop :=
  ∃ bounds, Bounds.WrittenAs (r.min, r.max) bounds ∧
    cs = bounds ++ if r.greedy then [] else [.ofChar '?']

def BeginsWithBraces (cs : List CodePoint) : Prop :=
  ∃ b bounds rest, Braces bounds b ∧ cs = bounds ++ rest

def BeginsWithQuantifier (cs : List CodePoint) : Prop :=
  ∃ b bounds rest, Bounds.WrittenAs b bounds ∧ cs = bounds ++ rest

theorem Braces.eq_cons (h : Braces cs b) : ∃ ds, cs = .ofChar '{' :: ds := by
  cases h <;> exact ⟨_, rfl⟩

theorem BeginsWithBraces.head (h : BeginsWithBraces cs) : cs.head? = some (.ofChar '{') := by
  obtain ⟨b, bounds, rest, hb, rfl⟩ := h
  obtain ⟨ds, rfl⟩ := hb.eq_cons
  rfl

/-- A quantifier is a sign or is written with braces. -/
theorem BeginsWithQuantifier.head (h : BeginsWithQuantifier cs) :
    (∃ d, cs.head? = some d ∧ d.isOneOf ['*', '+', '?'] = true) ∨ BeginsWithBraces cs := by
  obtain ⟨b, bounds, rest, hb, rfl⟩ := h
  cases hb with
  | star => exact .inl ⟨_, rfl, by decide⟩
  | plus => exact .inl ⟨_, rfl, by decide⟩
  | question => exact .inl ⟨_, rfl, by decide⟩
  | braces h => exact .inr ⟨b, bounds, rest, h, rfl⟩

/-- Where a sign is ahead that begins no quantifier, none stands. -/
theorem noQuantifier_of_current {d : CodePoint} (h : s.cursor.current = some d)
    (hd : d.isOneOf ['*', '+', '?', '{'] = false) :
    ¬ BeginsWithQuantifier s.cursor.characters := by
  rw [Cursor.current_eq_head?] at h
  intro hbegins
  rcases hbegins.head with ⟨e, he, hsign⟩ | hbraces
  · obtain rfl := Option.some.inj (h.symm.trans he)
    rw [CodePoint.isOneOf, List.any_eq_true] at hsign
    obtain ⟨k, hk, hsign⟩ := hsign
    exact absurd hsign (List.any_eq_false.mp hd k (List.mem_append_left ['{'] hk))
  · obtain rfl := Option.some.inj (h.symm.trans hbraces.head)
    exact absurd hd (by decide)

/-- A character that begins no quantifier shows that none stands there. -/
theorem State.Reads.noQuantifier {d : CodePoint} (h : s.Reads (d :: cs) t)
    (hd : d.isOneOf ['*', '+', '?', '{'] = false) :
    ¬ BeginsWithQuantifier s.cursor.characters :=
  noQuantifier_of_current h.current_eq hd

/-! ## Numbers

A run of digits has one value, whatever stands before it. -/

theorem number_reads {base n : Nat} (h : number base g s = .done n t) :
    ∃ cs, numberOf? base cs = some n ∧ s.Reads cs t := by
  obtain ⟨cs, ds, hr, hcs, hne, hn, -⟩ := number_eq_done h
  exact ⟨cs, numberOf?_eq_some.mpr ⟨ds, hcs, hne, hn⟩, hr⟩

/-- A sign that is no digit ends a number, and it is read unless it is too long. -/
theorem number_of_reads {base n : Nat} {d : CodePoint} {rest : List CodePoint}
    (h : numberOf? base cs = some n) (hr : s.Reads cs t) (hd : t.Reads (d :: rest) u)
    (hdigit : d.digit? base = none) :
    number base g s = .done n t ∨ ∃ e, number base g s = .fault e := by
  obtain ⟨ds, hds, hne, rfl⟩ := numberOf?_eq_some.mp h
  rw [number_of_digits hds hne hr (by rw [hd.current_eq]; exact hdigit)]
  split
  · exact .inr ⟨_, rfl⟩
  · exact .inl rfl

/-! ## Bounds

Both directions, for the braces and for the three signs. -/

/-- How bounds between braces end: unless they are looked at leniently, they must be in order. -/
theorem endOfBounds_eq_done_iff {lenient : Bool} :
    (do
      eat '}' <|> incompleteBounds lenient
      if !lenient && outOfOrder c then fail .quantifierOutOfOrder
      else return c : Parser Bounds) g s = .done b t ↔
    s.Reads [.ofChar '}'] t ∧ (!lenient && outOfOrder b) = false ∧ c = b := by
  rw [bind_eq_done]
  constructor
  · rintro ⟨_, w, hclose, h⟩
    split at h
    · exact absurd h fail_ne_done
    · next hordered =>
      obtain ⟨rfl, rfl⟩ := pure_eq_done.mp h
      exact ⟨eat_or_incomplete_eq_done.mp hclose, by simpa using hordered, rfl⟩
  · rintro ⟨hclose, hordered, rfl⟩
    refine ⟨(), t, eat_or_incomplete_eq_done.mpr hclose, ?_⟩
    rw [hordered]
    rfl

/-- Bounds that are read are written with at least one digit, and are in order unless that is not
asked for. -/
theorem bracedBounds_braces {lenient : Bool} (h : bracedBounds lenient g s = .done b t) :
    (!lenient && outOfOrder b) = false ∧ ∃ cs, Braces cs b ∧ s.Reads cs t := by
  rw [bracedBounds, eat_bind_eq_done] at h
  obtain ⟨u₁, hopen, h⟩ := h
  obtain ⟨least, u₂, hleast, h⟩ := bind_eq_done.mp h
  obtain ⟨cs, hcs, hr⟩ := number_reads (number_or_incomplete_eq_done.mp hleast)
  obtain ⟨comma, u₃, hcomma, h⟩ := bind_eq_done.mp h
  rcases eats_eq_done.mp hcomma with ⟨rfl, hread⟩ | ⟨rfl, -, rfl⟩
  · obtain ⟨greatest, u₄, hgreatest, h⟩ := bind_eq_done.mp h
    obtain ⟨hclose, hordered, rfl⟩ := endOfBounds_eq_done_iff.mp h
    rcases attempt_eq_done.mp hgreatest with ⟨n, rfl, hn⟩ | ⟨rfl, -, rfl⟩
    · obtain ⟨cs', hcs', hr'⟩ := number_reads hn
      exact ⟨hordered, _, .between hcs hcs',
        hopen.trans (hr.trans (hread.trans (hr'.trans hclose)))⟩
    · exact ⟨hordered, _, .atLeast hcs, hopen.trans (hr.trans (hread.trans hclose))⟩
  · obtain ⟨greatest, u₄, hgreatest, h⟩ := bind_eq_done.mp h
    obtain ⟨hclose, hordered, rfl⟩ := endOfBounds_eq_done_iff.mp h
    obtain ⟨rfl, rfl⟩ := pure_eq_done.mp hgreatest
    exact ⟨hordered, _, .exactly hcs, hopen.trans (hr.trans hclose)⟩

/-- A lenient reader finds bounds wherever they stand, in order or not, unless a number in them is
a fault. -/
theorem bracedBounds_of_braces (h : Braces cs b) (hr : s.Reads cs t) :
    bracedBounds true g s = .done b t ∨ ∃ e, bracedBounds true g s = .fault e := by
  have hclosing : ∀ {v : State}, v.Reads [.ofChar '}'] t →
      (do
        eat '}' <|> incompleteBounds true
        if !true && outOfOrder b then fail .quantifierOutOfOrder
        else return b : Parser Bounds) g v = .done b t :=
    fun hclose => endOfBounds_eq_done_iff.mpr ⟨hclose, rfl, rfl⟩
  cases h with
  -- a digit run is taken to its end, since a comma or a brace follows it
  | exactly h =>
    obtain ⟨u₁, hopen, hr⟩ := State.reads_cons.mp hr
    obtain ⟨u₂, hleast, hclose⟩ := State.reads_append.mp hr
    rw [bracedBounds, bind_of_done (eat_eq_done (x := ()).mpr hopen)]
    rcases number_of_reads (g := g) h hleast hclose (by decide) with hn | ⟨e, hn⟩
    · rw [bind_of_done (orElse_of_done hn),
        bind_of_done (eats_of_ne (by rw [hclose.current_eq]; decide))]
      exact .inl (hclosing hclose)
    · exact .inr ⟨e, bind_of_fault (orElse_of_fault hn)⟩
  | atLeast h =>
    obtain ⟨u₁, hopen, hr⟩ := State.reads_cons.mp hr
    obtain ⟨u₂, hleast, hend⟩ := State.reads_append.mp hr
    obtain ⟨u₃, hcomma, hclose⟩ := State.reads_cons.mp hend
    rw [bracedBounds, bind_of_done (eat_eq_done (x := ()).mpr hopen)]
    rcases number_of_reads (g := g) h hleast hend (by decide) with hn | ⟨e, hn⟩
    · have hgreatest : attempt (number 10) g u₃ = .done none u₃ := by
        refine attempt_of_miss (number_eq_miss.mpr ?_)
        rw [hclose.current_eq]
        decide
      rw [bind_of_done (orElse_of_done hn),
        bind_of_done (eats_eq_done.mpr (.inl ⟨rfl, hcomma⟩)), if_pos rfl, bind_of_done hgreatest]
      exact .inl (hclosing hclose)
    · exact .inr ⟨e, bind_of_fault (orElse_of_fault hn)⟩
  | between h h' =>
    obtain ⟨u₁, hopen, hr⟩ := State.reads_cons.mp hr
    obtain ⟨u₂, hleast, hend⟩ := State.reads_append.mp hr
    obtain ⟨u₃, hcomma, hr⟩ := State.reads_cons.mp hend
    obtain ⟨u₄, hmost, hclose⟩ := State.reads_append.mp hr
    rw [bracedBounds, bind_of_done (eat_eq_done (x := ()).mpr hopen)]
    rcases number_of_reads (g := g) h hleast hend (by decide) with hn | ⟨e, hn⟩
    · rw [bind_of_done (orElse_of_done hn),
        bind_of_done (eats_eq_done.mpr (.inl ⟨rfl, hcomma⟩)), if_pos rfl]
      rcases number_of_reads (g := g) h' hmost hclose (by decide) with hm | ⟨e, hm⟩
      · rw [bind_of_done (attempt_of_done hm)]
        exact .inl (hclosing hclose)
      · exact .inr ⟨e, bind_of_fault (attempt_of_fault hm)⟩
    · exact .inr ⟨e, bind_of_fault (orElse_of_fault hn)⟩

/-- The bounds of a quantifier are those that its text stands for. -/
theorem quantifierBounds_writtenAs {lenient : Bool}
    (h : quantifierBounds lenient g s = .done b t) :
    (!lenient && outOfOrder b) = false ∧ ∃ cs, Bounds.WrittenAs b cs ∧ s.Reads cs t := by
  rcases orElse_eq_done.mp h with h | ⟨-, h⟩
  · obtain ⟨u, hr, h⟩ := eat_bind_eq_done.mp h
    obtain ⟨rfl, rfl⟩ := pure_eq_done.mp h
    exact ⟨Bool.and_false _, _, .star, hr⟩
  rcases orElse_eq_done.mp h with h | ⟨-, h⟩
  · obtain ⟨u, hr, h⟩ := eat_bind_eq_done.mp h
    obtain ⟨rfl, rfl⟩ := pure_eq_done.mp h
    exact ⟨Bool.and_false _, _, .plus, hr⟩
  rcases orElse_eq_done.mp h with h | ⟨-, h⟩
  · obtain ⟨u, hr, h⟩ := eat_bind_eq_done.mp h
    obtain ⟨rfl, rfl⟩ := pure_eq_done.mp h
    exact ⟨Bool.and_false _, _, .question, hr⟩
  · obtain ⟨hordered, cs, hcs, hr⟩ := bracedBounds_braces h
    exact ⟨hordered, cs, .braces hcs, hr⟩

/-- The bounds of a quantifier are those that its text stands for, and they are in order. -/
theorem quantifier_writtenAs {r : Repetition} (h : quantifier false g s = .done r t) :
    outOfOrder (r.min, r.max) = false ∧ ∃ cs, r.WrittenAs cs ∧ s.Reads cs t := by
  rw [quantifier, bind_eq_done] at h
  obtain ⟨⟨least, greatest⟩, u, hb, h⟩ := h
  obtain ⟨hordered, cs, hcs, hr⟩ := quantifierBounds_writtenAs hb
  obtain ⟨short, v, hshort, h⟩ := bind_eq_done.mp h
  obtain ⟨rfl, rfl⟩ := pure_eq_done.mp h
  refine ⟨hordered, ?_⟩
  rcases eats_eq_done.mp hshort with ⟨rfl, hq⟩ | ⟨rfl, -, rfl⟩
  · exact ⟨_, ⟨cs, hcs, rfl⟩, hr.trans hq⟩
  · exact ⟨_, ⟨cs, hcs, rfl⟩, by simpa using hr⟩

/-! ## Places without quantifiers

Where the parser looked for a quantifier and found none, none is there to be read. -/

/-- Where bounds are looked for in vain, none stand. -/
theorem noBraces_of_bracedBounds (h : bracedBounds true g s = .miss) :
    ¬ BeginsWithBraces s.cursor.characters := by
  rintro ⟨b, bounds, rest, hb, heq⟩
  obtain ⟨d, hr⟩ := Cursor.reads_of_characters heq
  rcases bracedBounds_of_braces (g := g) hb (t := { s with cursor := d }) ⟨d, hr, rfl⟩ with
    hdone | ⟨e, hfault⟩
  · rw [hdone] at h
    cases h
  · rw [hfault] at h
    cases h

/-- Where stray bounds have been looked for in vain, no bounds stand. -/
theorem noBraces_of_strayBounds (h : strayBounds g s = .miss) :
    ¬ BeginsWithBraces s.cursor.characters := by
  rcases bind_eq_miss.mp h with h | ⟨_, _, -, h⟩
  · exact noBraces_of_bracedBounds h
  · cases h

/-- Where a quantifier is looked for in vain, none stands. -/
theorem noQuantifier_of_quantifier (h : quantifier true g s = .miss) :
    ¬ BeginsWithQuantifier s.cursor.characters := by
  have hbounds : quantifierBounds true g s = .miss := by
    rcases bind_eq_miss.mp h with h | ⟨_, _, -, h⟩
    · exact h
    -- the question mark after them is looked for, and need not stand there
    rcases bind_eq_miss.mp h with h | ⟨_, _, -, h⟩
    · rcases bind_eq_miss.mp h with h | ⟨_, _, -, h⟩
      · exact absurd h attempt_ne_miss
      · cases h
    · cases h
  have hsign : ∀ {d : CodePoint} {x : Bounds},
      (do eat d; return x : Parser Bounds) g s = .miss → s.cursor.characters.head? ≠ some d := by
    intro d x h
    rw [← Cursor.current_eq_head?]
    rcases eat_bind_eq_miss.mp h with hne | ⟨_, _, h⟩
    · exact hne
    · cases h
  obtain ⟨hstar, hbounds⟩ := orElse_eq_miss.mp hbounds
  obtain ⟨hplus, hbounds⟩ := orElse_eq_miss.mp hbounds
  obtain ⟨hquestion, hbounds⟩ := orElse_eq_miss.mp hbounds
  rintro ⟨b, bounds, rest, hb, heq⟩
  cases hb with
  | star => exact hsign hstar (by rw [heq]; rfl)
  | plus => exact hsign hplus (by rw [heq]; rfl)
  | question => exact hsign hquestion (by rw [heq]; rfl)
  | braces hb => exact noBraces_of_bracedBounds hbounds ⟨b, bounds, rest, hb, heq⟩

/-- Where all alternatives have been read, no quantifier stands. -/
theorem noStrayQuantifier_ends {x : Unit} (h : noStrayQuantifier g s = .done x t) :
    ¬ BeginsWithQuantifier s.cursor.characters := by
  rcases orElse_eq_done.mp h with h | ⟨h, -⟩
  · obtain ⟨_, _, -, h⟩ := bind_eq_done.mp h
    exact absurd h fail_ne_done
  · rcases bind_eq_miss.mp h with h | ⟨_, _, -, h⟩
    · exact noQuantifier_of_quantifier h
    · cases h

/-! ## Terms

No term begins with a text that is a quantifier, since each kind of term begins with another sign,
and a brace is taken as a character only if it does not begin bounds. -/

/-- A character stands for itself, or it begins with a backslash. -/
theorem ReadsValue.reads {p : Place} {x : CodePoint} (h : ReadsValue g p s x t) :
    ∃ cs, s.Reads cs t ∧
      (cs = [x] ∧ p.allows g x = true ∨ cs.head? = some (.ofChar '\\')) := by
  cases h with
  | plain h hr => exact ⟨_, hr, .inl ⟨rfl, h⟩⟩
  | escaped hslash _ h =>
    obtain ⟨cs, hr, -⟩ := escapedValue_eq_done h
    exact ⟨_, hslash.trans hr, .inr rfl⟩
  | backspace _ hr => exact ⟨_, hr, .inr rfl⟩
  | hyphen hr => exact ⟨_, hr, .inr rfl⟩
  | letter hr => exact ⟨_, hr, .inr rfl⟩
  | punctuator _ hr => exact ⟨_, hr, .inr rfl⟩
  | backslash hr => exact ⟨_, hr, .inr rfl⟩

/-- No sign of a quantifier stands for itself. -/
theorem Place.isOneOf_of_allows {x : CodePoint} (h : Place.term.allows g x = true) :
    x.isOneOf ['*', '+', '?'] = false := by
  rw [Bool.eq_false_iff]
  intro hsign
  simp only [CodePoint.isOneOf, List.any_cons, List.any_nil, Bool.or_false, Bool.or_eq_true,
    beq_iff_eq] at hsign
  rw [Place.allows] at h
  split at h <;> rcases hsign with rfl | rfl | rfl <;> exact absurd h (by decide)

/-- A character that stands for itself begins no bounds if these have been looked for. -/
theorem ReadsValue.begins {x : CodePoint} (h : ReadsValue g .term s x t)
    (hb : s.cursor.current = some (.ofChar '{') → strayBounds g s = .miss) :
    ¬ BeginsWithQuantifier s.cursor.characters := by
  obtain ⟨cs, hr, ⟨rfl, hallows⟩ | hslash⟩ := h.reads
  · intro hbegins
    have hcurrent := hr.current_eq
    rcases hbegins.head with ⟨d, hd, hsign⟩ | hbraces
    · rw [← Cursor.current_eq_head?, hcurrent] at hd
      rw [← Option.some.inj hd, Place.isOneOf_of_allows hallows] at hsign
      cases hsign
    · have hbrace := hbraces.head
      rw [← Cursor.current_eq_head?] at hbrace
      exact noBraces_of_strayBounds (hb hbrace) hbraces
  · obtain ⟨ds, rfl⟩ := List.head?_eq_some_iff.mp hslash
    exact hr.noQuantifier (by decide)

section Terms

variable {d : Nat} {e : Term}

theorem assertion_begins (h : assertion (nestedAt d) g s = .done e t) :
    ¬ BeginsWithQuantifier s.cursor.characters := by
  have hderives := assertion_derives (fun _ _ _ _ => nestedAt_derives) h
  rcases orElse_eq_done.mp h with h | ⟨-, h⟩
  · obtain ⟨span, edge, rfl⟩ := edgeAssertion_shape h
    cases hderives with
    | edge hr => cases edge <;> exact hr.noQuantifier (by decide)
  rcases orElse_eq_done.mp h with h | ⟨-, h⟩
  · obtain ⟨span, negated, rfl⟩ := wordBoundary_shape h
    cases hderives with
    | wordBoundary hr => exact hr.noQuantifier (by decide)
  · obtain ⟨span, direction, negated, qs, rfl⟩ := lookaround_shape h
    cases hderives with
    | look _ hr _ _ => cases direction <;> cases negated <;> exact hr.noQuantifier (by decide)

/-- An atom does not begin with a quantifier. -/
theorem ReadsAtom.begins (h : ReadsAtom g (Parser.charClass d false) (nestedAt d) s e t) :
    ¬ BeginsWithQuantifier s.cursor.characters := by
  cases h with
  | any hr => exact hr.noQuantifier (by decide)
  | reference h =>
    cases h with
    | numbered _ _ _ _ hr => exact hr.noQuantifier (by decide)
    | named _ _ hr => exact hr.noQuantifier (by decide)
  | setEscape h =>
    cases h with
    | mk _ hr => exact hr.noQuantifier (by decide)
  | character h hb => exact h.begins hb
  | charClass h =>
    exact noQuantifier_of_current (charClass_derives h).current_of_charClass (by decide)
  | group h =>
    rw [Parser.group, here_bind, eat_bind_eq_done] at h
    obtain ⟨u, hopen, -⟩ := h
    exact hopen.noQuantifier (by decide)

/-- Where a term begins, no quantifier stands. -/
theorem term_begins (h : term (charClass d false) (nestedAt d) g s = .done e t) :
    ¬ BeginsWithQuantifier s.cursor.characters := by
  cases term_reads h with
  | assertion h => exact assertion_begins h
  | quantifiedAssertion ha _ _ _ => exact assertion_begins ha
  | atom ha _ => exact ha.begins

/-! ## Alternatives

Behind each term of a sequence the quantifier was asked for, and behind the last one the end of the
alternative was. -/

/-- The end of one term is where the next begins, or where the terms end. -/
theorem terms_places {es : List Term}
    (h : Chain (fun s e t => term (charClass d false) (nestedAt d) g s = .done e t) s es t)
    (hend : ¬ BeginsWithQuantifier t.cursor.characters) :
    ¬ BeginsWithQuantifier s.cursor.characters ∧ ∀ e ∈ es, ∃ v : State,
      s.cursor.Reaches v.cursor ∧ v.cursor.index = e.span.stop ∧
        ¬ BeginsWithQuantifier v.cursor.characters := by
  induction h with
  | nil t => exact ⟨hend, List.forall_mem_nil _⟩
  | @cons s u t e es head _ ih =>
    obtain ⟨hnext, hrest⟩ := ih hend
    have hderives := term_derives (fun _ _ _ _ => nestedAt_derives) (fun _ _ _ => charClass_derives)
      head
    refine ⟨term_begins head, List.forall_mem_cons.mpr ⟨⟨u, hderives.reaches, ?_, hnext⟩, ?_⟩⟩
    · rw [hderives.term_span]
      rfl
    · intro e' he'
      obtain ⟨v, hv, hindex, hplace⟩ := hrest e' he'
      exact ⟨v, hderives.reaches.trans hv, hindex, hplace⟩

/-- Neither where an alternative begins nor behind one of its elements stands a quantifier. -/
theorem Given.alternative_places {q : Sequence} (h : Given g s (.sequence q) t) :
    ∀ i ∈ q.span.start :: q.elements.map (·.span.stop), ∃ v : State,
      s.cursor.Reaches v.cursor ∧ v.cursor.index = i ∧
        ¬ BeginsWithQuantifier v.cursor.characters := by
  cases h with
  | alternative h hend =>
    have hend : ¬ BeginsWithQuantifier t.cursor.characters := by
      rcases hend with hbar | ⟨x, u, hend⟩
      · exact noQuantifier_of_current hbar (by decide)
      · exact noStrayQuantifier_ends hend
    obtain ⟨es, hes, rfl⟩ := sequence_eq_done h
    obtain ⟨hstart, hplaces⟩ := terms_places (chain_of_many hes) hend
    refine List.forall_mem_cons.mpr ⟨⟨s, .refl _, rfl, hstart⟩, fun i hi => ?_⟩
    obtain ⟨e, he, rfl⟩ := List.mem_map.mp hi
    exact hplaces e he

end Terms

end EcmaPattern
