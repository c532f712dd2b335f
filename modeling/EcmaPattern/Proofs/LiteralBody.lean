import EcmaPattern.Proofs.Captures
import EcmaPattern.Proofs.FlatScan
import EcmaPattern.Proofs.Tiling

/-!
# Where the pattern of a literal ends

The pattern of a literal ends at the first slash that is neither escaped nor in a class, as a flat
scan over its units tells: before the flags are known, and without the grammar that they select. The
scan agrees with the grammar (`Derives.passed_between_terms`), so a literal is read as the pattern
and the flags that it joins, and the other way around, as long as no slash stands between terms.

Both directions are needed: what is joined from a pattern and flags is split where it was joined,
and what is split at a slash is joined from its parts. The scan is given once as the function that
the reader runs (`bodyLength`) and once as a function to what lies behind the slash (`afterBody`),
which is a flat scan.
-/

namespace EcmaPattern

open EcmaPattern.Parser

variable {g : Grammar} {s t : State}

/-! ## The scan

A step of the scan tells how it stands behind a unit. `bodyLength_eq_ok_iff` relates the two
functions, the ends of lines apart. -/

namespace Literal

/-- How the scan for the end of a pattern stands behind a unit: whether it is in a class, and
whether the next unit is escaped. It stops at a slash that ends the pattern. -/
def scanStep (inClass escaped : Bool) (c : CodePoint) : Option (Bool × Bool) :=
  if escaped then some (inClass, false)
  else if c == .ofChar '\\' then some (inClass, true)
  else if c == .ofChar '[' then some (true, false)
  else if c == .ofChar ']' then some (false, false)
  else if c == .ofChar '/' && !inClass then none
  else some (inClass, false)

/-- What follows the slash at which the scan stops. Unlike `bodyLength` it passes over the ends of
lines. -/
def afterBody (inClass escaped : Bool) : Text → Option Text
  | [] => none
  | u :: rest =>
    match scanStep inClass escaped (.ofUnit u) with
    | some (inClass', escaped') => afterBody inClass' escaped' rest
    | none => some rest

/-- One step of the scan, unit by unit. -/
theorem bodyLength_cons (inClass escaped : Bool) (u : CodeUnit) (rest : Text) (position : Nat) :
    bodyLength inClass escaped (u :: rest) position =
      if (CodePoint.ofUnit u).isLineTerminator then
        .error (if inClass then .unterminatedClass else .unterminatedLiteral, position)
      else
        match scanStep inClass escaped (.ofUnit u) with
        | some (inClass', escaped') => bodyLength inClass' escaped' rest (position + 1)
        | none => .ok position := by
  rw [bodyLength, scanStep]
  grind

/-- The scan fails only at the end of a line or of the text, inside a class or outside. -/
theorem cause_of_bodyLength {inClass escaped : Bool} {text : Text} {position k : Nat}
    {cause : Cause} (h : bodyLength inClass escaped text position = .error (cause, k)) :
    cause = .unterminatedClass ∨ cause = .unterminatedLiteral := by
  have hend : ∀ inClass : Bool, (if inClass then .unterminatedClass else .unterminatedLiteral) =
      cause → cause = .unterminatedClass ∨ cause = .unterminatedLiteral := by
    rintro (_ | _) rfl
    · exact .inr rfl
    · exact .inl rfl
  induction text generalizing inClass escaped position with
  | nil =>
    rw [bodyLength] at h
    cases h
    exact hend inClass rfl
  | cons u rest ih =>
    rw [bodyLength_cons] at h
    split at h
    · cases h
      exact hend inClass rfl
    · split at h
      · exact ih h
      · cases h

/-- Where the scan does not stop, it goes on in the way that its step says. -/
theorem afterBody_of_scanStep {inClass escaped inClass' escaped' : Bool} {u : CodeUnit}
    (h : scanStep inClass escaped (.ofUnit u) = some (inClass', escaped')) (rest : Text) :
    afterBody inClass escaped (u :: rest) = afterBody inClass' escaped' rest := by
  rw [afterBody, h]

theorem length_lt_of_afterBody {inClass escaped : Bool} {text rest : Text}
    (h : afterBody inClass escaped text = some rest) : rest.length < text.length := by
  induction text generalizing inClass escaped with
  | nil => cases h
  | cons u text ih =>
    rw [afterBody] at h
    split at h
    · exact Nat.lt_succ_of_lt (ih h)
    · cases h
      exact Nat.lt_succ_self _

/-- The scan stops only at a slash. -/
theorem eq_slash_of_scanStep {inClass escaped : Bool} {u : CodeUnit}
    (h : scanStep inClass escaped (.ofUnit u) = none) : u = 0x2F := by
  refine CodePoint.eq_slash_of_ofUnit ?_
  rw [scanStep] at h
  grind

/-- A pattern is all that lies before the slash at which the scan stops, if it has no line end. -/
theorem bodyLength_eq_ok_iff {inClass escaped : Bool} {text : Text} {position n : Nat} :
    bodyLength inClass escaped text position = .ok n ↔
      ∃ body rest, text = body ++ 0x2F :: rest ∧ n = position + body.length ∧
        (∀ u ∈ body, (CodePoint.ofUnit u).isLineTerminator = false) ∧
        afterBody inClass escaped text = some rest := by
  induction text generalizing inClass escaped position with
  | nil =>
    constructor
    · intro h
      simp [bodyLength] at h
    · rintro ⟨body, rest, htext, -⟩
      simp at htext
  | cons u text ih =>
    rw [bodyLength_cons, afterBody]
    cases hstep : scanStep inClass escaped (.ofUnit u) with
    | none =>
      obtain rfl := eq_slash_of_scanStep hstep
      have hline : (CodePoint.ofUnit 0x2F).isLineTerminator = false := by decide
      rw [hline, if_neg Bool.false_ne_true]
      constructor
      · rintro ⟨⟩
        exact ⟨[], text, rfl, rfl, List.forall_mem_nil _, rfl⟩
      · rintro ⟨body, rest, htext, rfl, -, hrest⟩
        obtain rfl := Option.some.inj hrest
        obtain rfl : body = [] := by
          have := congrArg List.length htext
          simp only [List.length_cons, List.length_append] at this
          exact List.length_eq_zero_iff.mp (by omega)
        rfl
    | some state =>
      obtain ⟨inClass', escaped'⟩ := state
      simp only
      constructor
      · intro h
        split at h
        · cases h
        · next hline =>
          obtain ⟨body, rest, rfl, rfl, hbody, hrest⟩ := ih.mp h
          refine ⟨u :: body, rest, rfl, ?_, ?_, hrest⟩
          · rw [List.length_cons]
            omega
          · intro v hv
            rcases List.mem_cons.mp hv with rfl | hv
            · exact Bool.eq_false_iff.mpr hline
            · exact hbody v hv
      · rintro ⟨body, rest, htext, rfl, hbody, hrest⟩
        cases body with
        | nil =>
          -- the scan has passed the first slash, so less is left behind it
          obtain ⟨-, rfl⟩ := List.cons.inj htext
          exact absurd (length_lt_of_afterBody hrest) (Nat.lt_irrefl _)
        | cons v body =>
          obtain ⟨rfl, rfl⟩ := List.cons.inj htext
          rw [hbody u List.mem_cons_self, if_neg Bool.false_ne_true]
          refine ih.mpr ⟨body, rest, rfl, ?_, ?_, hrest⟩
          · rw [List.length_cons]
            omega
          · intro v hv
            exact hbody v (List.mem_cons_of_mem u hv)

/-! ## The scan is flat

What a step does at each sign, for characters that are one unit or two. Units of a pair are no
signs. -/

/-- The scan passes over units that are no signs. -/
theorem scanStep_of_not_flatSign {c : CodePoint} (h : flatSigns.contains c = false)
    (inClass : Bool) : scanStep inClass false c = some (inClass, false) := by
  simp only [flatSigns, List.contains_cons, List.contains_nil, Bool.or_false,
    Bool.or_eq_false_iff] at h
  obtain ⟨hslash, hopen, hclose, -, hend⟩ := h
  rw [scanStep, hslash, hopen, hclose, hend]
  simp

/-- The unit of a code point, or its two, which are surrogates. -/
theorem encode_cases (c : CodePoint) :
    (∃ u, c.encode = [u] ∧ CodePoint.ofUnit u = c) ∨
      ∃ u v, c.encode = [u, v] ∧ (CodePoint.ofUnit u).isLead ∧ (CodePoint.ofUnit v).isTrail := by
  have hc := c.isLt
  rw [CodePoint.encode]
  split
  · next h =>
    refine .inl ⟨_, rfl, Fin.ext ?_⟩
    rw [CodePoint.val_ofUnit, UInt16.toNat_ofNat', Nat.mod_eq_of_lt (by omega)]
  · next h =>
    refine .inr ⟨_, _, rfl, ?_, ?_⟩
    · rw [CodePoint.isLead_iff, CodePoint.val_ofUnit, UInt16.toNat_ofNat',
        Nat.mod_eq_of_lt (by omega)]
      omega
    · rw [CodePoint.isTrail_iff, CodePoint.val_ofUnit, UInt16.toNat_ofNat',
        Nat.mod_eq_of_lt (by omega)]
      omega

/-- Behind a code point the scan stands as it does behind its first unit, since a second one is no
sign. -/
theorem afterBody_encode {inClass escaped inClass' : Bool} {c : CodePoint}
    (hstep : ∀ d : CodePoint, d = c ∨ d.isLead = true →
      scanStep inClass escaped d = some (inClass', false)) (rest : Text) :
    afterBody inClass escaped (c.encode ++ rest) = afterBody inClass' false rest := by
  rcases encode_cases c with ⟨u, hu, rfl⟩ | ⟨u, v, huv, hlead, htrail⟩
  · rw [hu, List.singleton_append, afterBody_of_scanStep (hstep _ (.inl rfl))]
  · have hv := scanStep_of_not_flatSign (not_flatSign CodePoint.isTrail htrail rfl) inClass'
    rw [huv, List.cons_append, List.singleton_append, afterBody_of_scanStep (hstep _ (.inr hlead)),
      afterBody_of_scanStep hv]

theorem afterBody_backslash (inClass : Bool) (rest : Text) :
    afterBody inClass false ((CodePoint.ofChar '\\').encode ++ rest) =
      afterBody inClass true rest := rfl

/-- The scan passes over characters without signs. -/
theorem afterBody_unmarked {cs : List CodePoint} (h : Unmarked cs) (inClass : Bool)
    (rest : Text) :
    afterBody inClass false (Text.ofCodePoints cs ++ rest) = afterBody inClass false rest := by
  induction h with
  | nil => rfl
  | @cons c cs hc _ ih =>
    rw [Text.ofCodePoints, List.flatMap_cons, List.append_assoc, afterBody_encode ?_]
    · exact ih
    · rintro d (rfl | hd)
      · exact scanStep_of_not_flatSign hc inClass
      · exact scanStep_of_not_flatSign (not_flatSign CodePoint.isLead hd rfl) inClass
  | @escaped c cs _ ih =>
    rw [Text.ofCodePoints, List.flatMap_cons, List.append_assoc, afterBody_backslash,
      List.flatMap_cons, List.append_assoc, afterBody_encode fun _ _ => rfl]
    exact ih

/-- Inside a class the scan looks out only for a backslash and a closing bracket. -/
theorem scanStep_inside {c : CodePoint} (h : c.isOneOf ['\\', ']'] = false) :
    scanStep true false c = some (true, false) := by
  simp only [CodePoint.isOneOf, List.any_cons, List.any_nil, Bool.or_false,
    Bool.or_eq_false_iff] at h
  rw [BEq.comm, BEq.comm (a := CodePoint.ofChar ']')] at h
  rw [scanStep, h.1, h.2]
  simp

/-- The scan for the end of a pattern is a flat scan. -/
theorem flatScan_afterBody (tail : Text) :
    FlatScan fun inClass c => afterBody inClass false (c.ahead ++ tail) where
  pass := by
    intro cs c d hcs hr inClass
    rw [hr.ahead, List.append_assoc]
    exact afterBody_unmarked hcs inClass _
  openClass := by
    intro c d hr inClass
    rw [hr.ahead]
    rfl
  closeClass := by
    intro c d hr inClass
    rw [hr.ahead]
    rfl
  inside := by
    intro ch c d hch hr
    rw [hr.ahead, List.append_assoc, Text.ofCodePoints, List.flatMap_singleton]
    refine afterBody_encode ?_ _
    rintro e (rfl | he)
    · exact scanStep_inside hch
    · exact scanStep_of_not_flatSign (not_flatSign CodePoint.isLead he rfl) true

/-- Unlike that for groups, the scan does not look out for parentheses. -/
theorem afterBody_parenthesis {tail : Text} {c d : Cursor} (h : c.Reads [.ofChar '('] d) :
    afterBody false false (c.ahead ++ tail) = afterBody false false (d.ahead ++ tail) := by
  rw [h.ahead]
  rfl

end Literal

/-! ## The scan between terms

Outside classes a slash ends the scan. A pattern in which none stands as a character between terms
is passed over from its first state to its last. -/

def Node.isSlash : Node → Bool
  | term (.set (.character c)) => c.span.raw == Text.ofString "/"
  | _ => false

/-- A node is a slash if it is a character whose text is one. -/
theorem Node.isSlash_iff {n : Node} :
    n.isSlash = true ↔ ∃ c, n = term (.set (.character c)) ∧ c.span.raw = Text.ofString "/" := by
  unfold isSlash
  split
  · simp
  · next hne => simpa using fun c hc => absurd hc (hne c)

def Piece.Slashless (x : Piece) : Prop :=
  ∀ n ∈ x.nodes, ∀ m ∈ n.descendants, m.isSlash = false

/-- A part of what has no slash between its terms has none. -/
theorem Piece.Slashless.inner {x y : Piece} {n : Node} (h : x.Slashless) (hn : n ∈ x.nodes)
    (hy : ∀ m ∈ y.nodes, m ∈ n.children) : y.Slashless := by
  intro m hm
  exact (Node.forall_descendants.mp (h n hn)).2 m (hy m hm)

theorem Piece.Slashless.of_children {x : Piece} {e : Term} (h : (Piece.term e).Slashless)
    (he : (Node.term e).children = x.nodes) : x.Slashless :=
  h.inner List.mem_cons_self fun _ hm => he ▸ hm

/-- The opening of a lookaround is a parenthesis and characters without signs. -/
theorem exists_lookText (direction : Direction) (negated : Bool) :
    ∃ cs, lookText direction negated = .ofChar '(' :: cs ∧ Unmarked cs := by
  cases direction <;> cases negated
  · exact ⟨_, rfl, .cons rfl (.single rfl)⟩
  · exact ⟨_, rfl, .cons rfl (.single rfl)⟩
  · exact ⟨_, rfl, .cons rfl (.cons rfl (.single rfl))⟩
  · exact ⟨_, rfl, .cons rfl (.cons rfl (.single rfl))⟩

section BetweenTerms

variable {β : Type} {F : Bool → Cursor → β} (hF : FlatScan F)
  (hparen : ∀ {c d : Cursor}, c.Reads ['('] d → F false c = F false d)

include hF hparen

theorem FlatScan.opening {cs : List CodePoint} (h : s.Reads (.ofChar '(' :: cs) t)
    (hcs : Unmarked cs) : F false s.cursor = F false t.cursor := by
  obtain ⟨u, hu, h⟩ := State.reads_cons.mp h
  exact (hparen hu.cursor).trans (hF.reads hcs h false)

/-- A flat scan that does not look out for parentheses passes over terms, except for slashes. -/
theorem Derives.passed_between_terms {x : Piece} (h : Derives g s x t)
    (hx : x.insideClass = false) (hslash : x.Slashless) : F false s.cursor = F false t.cursor := by
  have hclose : ∀ {s t : State}, s.Reads [.ofChar ')'] t → F false s.cursor = F false t.cursor :=
    fun h => hF.reads (.single rfl) h false
  -- by induction on the derivation; classes are passed by every flat scan
  induction h with
  | @termCharacter s t c h _ =>
    refine h.passed hF rfl fun _ hr => ?_
    have hraw : (Node.term (.set (.character c))).isSlash = true := by
      rw [Node.isSlash, h.span_eq, Span.between, hr.cursor.textTo]
      exact beq_self_eq_true _
    have hno := hslash _ List.mem_cons_self _ (Node.descendants_eq _ ▸ List.mem_cons_self)
    rw [hraw] at hno
    cases hno
  | termEscape h => exact h.passed hF false
  | termClass h _ => exact h.passed hF false
  | any h => exact hF.reads (.single rfl) h false
  | @edge s t e h =>
    have hsign : flatSigns.contains (edgeSign e) = false := by cases e <;> rfl
    exact hF.reads (.single hsign) h false
  | wordBoundary h => exact hF.reads (.escaped _ .nil) h false
  | numbered _ _ hne hcs hr => exact hF.reads (.escaped_digits hne hcs) hr false
  | named _ hname hr =>
    exact hF.reads (.escaped 'k' (.cons rfl (hname.unmarked.append (.single rfl)))) hr false
  | @look s t u v direction negated qs _ hopen _ hend ih =>
    obtain ⟨cs, hcs, hunmarked⟩ := exists_lookText direction negated
    have hinner := ih rfl (hslash.of_children (Node.children_look ..))
    exact (hF.opening hparen (hcs ▸ hopen) hunmarked).trans (hinner.trans (hclose hend))
  | group hopen _ hend ih =>
    have hopen := hF.opening hparen hopen (.cons rfl (.single rfl))
    have hinner := ih rfl (hslash.of_children (Node.children_group_none ..))
    exact hopen.trans (hinner.trans (hclose hend))
  | modifiedGroup _ hopen hm hcolon _ hend ih =>
    obtain ⟨cs, hread, hcs, -⟩ := hm.unmarked
    have hopen := hF.opening hparen (hopen.trans (hread.trans hcolon))
      (.cons rfl (hcs.append (.single rfl)))
    have hinner := ih rfl <| hslash.inner List.mem_cons_self fun n hn => by
      rw [Node.children_group_some]
      exact List.mem_cons_of_mem _ hn
    exact hopen.trans (hinner.trans (hclose hend))
  | capture hopen _ _ hend ih =>
    have hinner := ih rfl (hslash.of_children (Node.children_capture ..))
    exact (hparen hopen.cursor).trans (hinner.trans (hclose hend))
  | namedCapture _ hname _ hopen _ hend ih =>
    have hopen := hF.opening hparen hopen
      (.cons rfl (.cons rfl (hname.unmarked.append (.single rfl))))
    have hinner := ih rfl (hslash.of_children (Node.children_capture ..))
    exact hopen.trans (hinner.trans (hclose hend))
  | quantified _ hq hr ih =>
    have hinner := ih rfl (hslash.of_children (Node.children_quantified ..))
    exact hinner.trans (hF.reads hq.unmarked hr false)
  | noTerm s => rfl
  | consTerm _ _ ih ihs =>
    have hfirst := ih rfl fun n hn => by
      rw [List.mem_singleton.mp hn]
      exact hslash _ List.mem_cons_self
    exact hfirst.trans (ihs rfl fun n hn => hslash n (List.mem_cons_of_mem _ hn))
  | sequence _ ih =>
    refine ih rfl (hslash.inner List.mem_cons_self fun n hn => ?_)
    rw [Node.children_sequence]
    exact hn
  | lastAlternative _ ih => exact ih rfl hslash
  | consAlternative _ hbar _ ih ihs =>
    have hfirst := ih rfl fun n hn => by
      rw [List.mem_singleton.mp hn]
      exact hslash _ List.mem_cons_self
    have hrest := ihs rfl fun n hn => hslash n (List.mem_cons_of_mem _ hn)
    exact hfirst.trans ((hF.reads (.single rfl) hbar false).trans hrest)
  | disjunction _ ih => exact ih rfl hslash
  | _ => cases hx

end BetweenTerms

/-! ## The first character of a pattern

A star behind the first slash would open a comment. No pattern begins with one, since it would be a
quantifier without a term. -/

/-- Between terms a character stands for itself or begins with a backslash. -/
theorem ReadsCharacter.current {c : Character} (h : ReadsCharacter g .term s c t) :
    ∃ d, s.cursor.current = some d ∧ (d = .ofChar '\\' ∨ Place.term.allows g d) := by
  cases h with
  | spelled h hr =>
    cases h with
    | plain h => exact ⟨_, hr.current_eq, .inr h⟩
    | escaped h => exact ⟨_, hr.current_eq, .inl rfl⟩
    | backspace h => exact absurd rfl h
  | backslash _ hr _ => exact ⟨_, hr.current_eq, .inl rfl⟩

/-- No term begins with a star. -/
theorem Derives.current_ne_star {x : Piece} {e : Term} (h : Derives g s x t) (hx : x = .term e) :
    s.cursor.current ≠ some (.ofChar '*') := by
  have hne : ∀ {c : CodePoint} {cs : List CodePoint} {s t : State}, s.Reads (c :: cs) t →
      c ≠ .ofChar '*' → s.cursor.current ≠ some (.ofChar '*') := by
    intro c cs s t hr hc hstar
    exact hc (Option.some.inj (hr.current_eq.symm.trans hstar))
  -- by induction on the derivation, since a quantified term begins with its element
  induction h generalizing e with
  | termCharacter h _ =>
    obtain ⟨d, hd, hallows⟩ := h.current
    rw [hd]
    rintro ⟨⟩
    rcases hallows with hallows | hallows
    · exact absurd hallows (by decide)
    · rw [Place.allows] at hallows
      split at hallows <;> exact absurd hallows (by decide)
  | termEscape h =>
    cases h with
    | mk _ hr => exact hne hr (by decide)
  | termClass h _ =>
    rw [h.current_of_charClass]
    decide
  | any h => exact hne h (by decide)
  | @edge _ _ edge h => cases edge <;> exact hne h (by decide)
  | wordBoundary h => exact hne h (by decide)
  | @look _ _ _ _ direction negated _ _ hopen =>
    obtain ⟨cs, hcs, -⟩ := exists_lookText direction negated
    exact hne (hcs ▸ hopen) (by decide)
  | group hopen => exact hne hopen (by decide)
  | modifiedGroup _ hopen => exact hne hopen (by decide)
  | capture hopen => exact hne hopen (by decide)
  | namedCapture _ _ _ hopen => exact hne hopen (by decide)
  | numbered _ _ _ _ hr => exact hne hr (by decide)
  | named _ _ hr => exact hne hr (by decide)
  | quantified _ _ _ ih => exact ih rfl
  | _ => cases hx

/-- Before a star, an alternative is empty. -/
theorem Derives.eq_of_star {q : Sequence} (h : Derives g s (.sequence q) t)
    (hstar : s.cursor.current = some (.ofChar '*')) : t = s := by
  cases h with
  | sequence h =>
    cases h with
    | noTerm => rfl
    | consTerm h _ => exact absurd hstar (h.current_ne_star rfl)

/-- Where a star lies ahead no alternatives can be read up to the end. -/
theorem Derives.current_of_star {qs : List Sequence} (h : Derives g s (.disjunction qs) t)
    (hstar : s.cursor.current = some (.ofChar '*')) : t.cursor.current ≠ none := by
  cases h with
  | disjunction h =>
    cases h with
    | lastAlternative h =>
      rw [h.eq_of_star hstar]
      show s.cursor.current ≠ none
      rw [hstar]
      nofun
    | consAlternative h hbar _ =>
      have hcurrent := hbar.current_eq
      rw [h.eq_of_star hstar] at hcurrent
      have hcurrent : s.cursor.current = some (.ofChar '|') := hcurrent
      rw [hstar] at hcurrent
      exact absurd hcurrent (by decide)

theorem Cursor.current_of_star {c : Cursor} {rest : Text} (h : c.ahead = 0x2A :: rest) :
    c.current = some (.ofChar '*') := by
  have hlead : (CodePoint.ofUnit 0x2A).isLead = false := by decide
  rw [current, h]
  cases rest with
  | nil => rfl
  | cons v rest =>
    rw [Text.uncons?, Text.isPair, hlead, Bool.false_and, Bool.and_false, if_neg Bool.false_ne_true]
    rfl

/-! ## Literals and their parts

The two directions, for requests, and a case with slashes in a class and behind a backslash. -/

/-- Resolving references makes no slash and takes none away. -/
theorem Node.isSlash_resolve (f : GroupName → List Nat) (n : Node) :
    (n.resolve f).isSlash = n.isSlash := by
  cases n with
  | term e =>
    cases e with
    | reference span target => cases target <;> simp [resolve, Term.resolve, isSlash]
    | _ => simp [resolve, Term.resolve, isSlash]
  | _ => rfl

/-- A pattern that has been read without a slash between its terms is what the scan takes for the
pattern when a slash follows it, and it does not begin with a star. -/
theorem Pattern.afterBody_of_read {o : Options} {flags : FlagSet} {slice : Slice} {p : Pattern}
    (h : Pattern.read o flags slice = .ok p)
    (hslash : ∀ n ∈ (Node.pattern p).descendants, n.isSlash = false) :
    slice.content.head? ≠ some 0x2A ∧
      ∀ tail, Literal.afterBody false false (slice.content ++ 0x2F :: tail) = some tail := by
  obtain ⟨named, scope, hpass⟩ := Pattern.pass_of_read h
  obtain ⟨qs, t, hqs, hnone, -, rfl⟩ := Pattern.derives_of_pass hpass
  refine ⟨?_, ?_⟩
  · intro hstar
    obtain ⟨rest, hrest⟩ := List.head?_eq_some_iff.mp hstar
    exact hqs.current_of_star (Cursor.current_of_star hrest) hnone
  · intro tail
    have hslashless : (Piece.disjunction qs).Slashless := by
      intro n hn m hm
      have hmem : m ∈ (Node.pattern
          ⟨.between (slice.cursor flags.unicodeMode) t.cursor, qs⟩).descendants := by
        rw [Node.descendants_eq, Node.children_pattern]
        exact List.mem_cons_of_mem _ (List.mem_flatMap.mpr ⟨n, hn, hm⟩)
      rw [← Node.isSlash_resolve scope.indexes]
      apply hslash
      show m.resolve scope.indexes ∈ ((Node.pattern ⟨_, qs⟩).resolve scope.indexes).descendants
      rw [Node.descendants_resolve]
      exact List.mem_map_of_mem hmem
    have hscan := hqs.passed_between_terms (Literal.flatScan_afterBody (0x2F :: tail))
      Literal.afterBody_parenthesis rfl hslashless
    rw [Cursor.current_eq_none.mp hnone] at hscan
    exact hscan

namespace Literal

/-- A slash or a star right after the first slash would begin a comment. -/
theorem isOneOf_slash_star {u : CodeUnit} :
    (CodePoint.ofUnit u).isOneOf ['/', '*'] = true ↔ u = 0x2F ∨ u = 0x2A := by
  rw [CodePoint.isOneOf_iff]
  constructor
  · rintro ⟨d, hd, hval⟩
    rcases List.mem_cons.mp hd with rfl | hd
    · exact .inl (UInt16.toNat_inj.mp hval.symm)
    · obtain rfl := List.mem_singleton.mp hd
      exact .inr (UInt16.toNat_inj.mp hval.symm)
  · rintro (rfl | rfl)
    · exact ⟨'/', List.mem_cons_self, rfl⟩
    · exact ⟨'*', List.mem_cons_of_mem _ List.mem_cons_self, rfl⟩

/-- The length of a literal's pattern is found exactly if the literal joins a pattern and flags, the
pattern is neither empty nor the beginning of a comment and has no line end, and the scan stops
behind it. -/
theorem patternLength_eq_ok_iff {slice : Slice} {n : Nat} :
    patternLength slice = .ok n ↔
      ∃ body rest, slice.content = join body rest ∧ n = body.length ∧ body ≠ [] ∧
        body.head? ≠ some 0x2A ∧
        (∀ u ∈ body, (CodePoint.ofUnit u).isLineTerminator = false) ∧
        afterBody false false (body ++ 0x2F :: rest) = some rest := by
  have hslash : (CodePoint.ofUnit 0x2F == .ofChar '/') = true := by decide
  constructor
  · intro h
    rw [patternLength] at h
    cases hcontent : slice.content with
    | nil => simp [hcontent] at h
    | cons u text =>
      simp only [hcontent] at h
      split at h
      · next hu =>
        obtain rfl := CodePoint.eq_slash_of_ofUnit (eq_of_beq hu)
        split at h
        · cases h
        · next hhead =>
          obtain ⟨body, rest, rfl, rfl, hline, hafter⟩ :=
            bodyLength_eq_ok_iff.mp (Except.mapError_eq_ok.mp h)
          refine ⟨body, rest, (join_eq body rest).symm, Nat.zero_add _, ?_, ?_, hline, hafter⟩
          · rintro rfl
            cases hhead
          · intro hstar
            rw [List.head?_append, hstar] at hhead
            cases hhead
      · cases h
  · rintro ⟨body, rest, hcontent, rfl, hne, hstar, hline, hafter⟩
    -- the body is not empty, so its first unit is that of the text
    have hhead : ((body ++ 0x2F :: rest).head?.filter fun v =>
        (CodePoint.ofUnit v).isOneOf ['/', '*']) = none := by
      cases body with
      | nil => exact absurd rfl hne
      | cons v body =>
        rw [List.cons_append, List.head?_cons, Option.filter_eq_none_iff]
        rintro _ ⟨⟩ hv
        rcases isOneOf_slash_star.mp hv with rfl | rfl
        · -- the scan would stop at once, and more than the flags would be left
          have hlen : (body ++ 0x2F :: rest).length = rest.length :=
            congrArg List.length (Option.some.inj hafter)
          rw [List.length_append, List.length_cons] at hlen
          omega
        · exact hstar rfl
    have hlength : bodyLength false false (body ++ 0x2F :: rest) 0 = .ok body.length :=
      bodyLength_eq_ok_iff.mpr ⟨body, rest, rfl, (Nat.zero_add _).symm, hline, hafter⟩
    rw [patternLength, hcontent, join_eq]
    simp only [hslash, hhead, hlength, if_true]
    rfl

end Literal

/-- The pattern of a literal that is put together has the text it was put together from. -/
theorem Literal.raw_of_readParts {o : Options} {source flags : Text} {l : Literal}
    (h : readParts o (.whole (join source flags)) source.length = .ok l) :
    l.pattern.span.raw = source ∧ l.flags.span.raw = flags := by
  obtain ⟨-, hpattern, -⟩ :=
    tiled_of_readParts (Slice.valid_whole _) (delimited_join source flags) h
  obtain ⟨set, -, hflags, -, -⟩ := readParts_eq_ok.mp h
  simp only [Slice.whole, Nat.zero_add] at hpattern hflags
  rw [hpattern, hflags]
  exact ⟨content_source source flags, content_flags source flags⟩

/-- Reading a literal finds where its pattern ends as reading the pattern does. A literal that is
read is its pattern and its flags, joined by slashes; the pattern is not empty and has no line end,
and the two are read, as parts, as the same tree. The other way around, parts that are read are
read, joined, as the same tree, if the pattern is not empty, has no line end, and no term of it is
a slash. -/
theorem literals_split_where_joined (o : Options) :
    (∀ text l, parseLiteral o (.whole text) = .ok l →
      text = Literal.join l.pattern.span.raw l.flags.span.raw ∧ l.pattern.span.raw ≠ [] ∧
        (∀ u ∈ l.pattern.span.raw, (CodePoint.ofUnit u).isLineTerminator = false) ∧
        parseParts o l.pattern.span.raw l.flags.span.raw = .ok l) ∧
    ∀ source flags l, parseParts o source flags = .ok l → source ≠ [] →
      (∀ u ∈ source, (CodePoint.ofUnit u).isLineTerminator = false) →
      (∀ c, .term (.set (.character c)) ∈ (Node.literal l).descendants →
        c.span.raw ≠ .ofString "/") →
      parseLiteral o (.whole (Literal.join source flags)) = .ok l := by
  refine ⟨?_, ?_⟩
  · intro text l h
    obtain ⟨length, hlength, hread⟩ := parseLiteral_eq_ok.mp h
    obtain ⟨body, rest, hcontent, rfl, hne, -, hline, -⟩ :=
      Literal.patternLength_eq_ok_iff.mp hlength
    obtain rfl : text = Literal.join body rest := by
      rwa [Slice.content_whole] at hcontent
    obtain ⟨hpattern, hflags⟩ := Literal.raw_of_readParts hread
    rw [hpattern, hflags]
    exact ⟨rfl, hne, hline, parseParts_eq_ok.mpr hread⟩
  · intro source flags l h hne hline hslash
    have hread := parseParts_eq_ok.mp h
    refine parseLiteral_eq_ok.mpr ⟨source.length, ?_, hread⟩
    obtain ⟨set, -, -, hpattern, -⟩ := Literal.readParts_eq_ok.mp hread
    simp only [Slice.whole, Nat.zero_add] at hpattern
    -- a slash outside of classes would be a character of the tree that is written as one
    have hslashless : ∀ n ∈ (Node.pattern l.pattern).descendants, n.isSlash = false := by
      intro n hn
      rw [Bool.eq_false_iff]
      intro hn'
      obtain ⟨c, rfl, hc⟩ := Node.isSlash_iff.mp hn'
      refine hslash c ?_ hc
      rw [Node.descendants_eq, Node.children_literal, List.flatMap_cons]
      exact List.mem_cons_of_mem _ (List.mem_append_left _ hn)
    obtain ⟨hstar, hafter⟩ := Pattern.afterBody_of_read hpattern hslashless
    rw [Literal.content_source] at hstar hafter
    exact Literal.patternLength_eq_ok_iff.mpr
      ⟨source, flags, Slice.content_whole _, rfl, hne, hstar, hline, hafter flags⟩

theorem literals_split_where_joined_at_classes :
    ∃ l, parseParts (.ofEdition .es2025 false) (.ofString "[[/]\\/(\\])") (.ofString "g") = .ok l ∧
      parseLiteral (.ofEdition .es2025 false) (.whole (.ofString "/[[/]\\/(\\])/g")) = .ok l ∧
      .ofString "/[[/]\\/(\\])/g" = Literal.join l.pattern.span.raw l.flags.span.raw := by
  obtain ⟨l, hl, htest⟩ : ∃ l,
      parseParts (.ofEdition .es2025 false) (.ofString "[[/]\\/(\\])") (.ofString "g") = .ok l ∧
        (Node.literal l).descendants.all (fun n => !n.isSlash) = true :=
    Except.exists_eq_ok_of_any (by decide +kernel)
  have hjoin : Literal.join (.ofString "[[/]\\/(\\])") (.ofString "g") =
      .ofString "/[[/]\\/(\\])/g" := by
    decide +kernel
  have hslash : ∀ c, .term (.set (.character c)) ∈ (Node.literal l).descendants →
      c.span.raw ≠ .ofString "/" := by
    intro c hc hraw
    have hno := List.all_eq_true.mp htest _ hc
    rw [Node.isSlash_iff.mpr ⟨c, rfl, hraw⟩] at hno
    cases hno
  have hline : (Text.ofString "[[/]\\/(\\])").all
      (fun u => !(CodePoint.ofUnit u).isLineTerminator) = true := by
    decide +kernel
  have hliteral := (literals_split_where_joined _).2 _ _ l hl (by decide +kernel)
    (fun u hu => by simpa using List.all_eq_true.mp hline u hu) hslash
  rw [hjoin] at hliteral
  exact ⟨l, hl, hliteral, ((literals_split_where_joined _).1 _ l hliteral).1⟩

end EcmaPattern
