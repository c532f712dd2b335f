import EcmaPattern.Proofs.Captures
import EcmaPattern.Proofs.FlatScan

/-!
# The scan for capturing groups

Before a pattern is read its capturing groups are counted by a scan that knows only escapes, classes
and parentheses. The scan counts the groups that are then read (`Derives.scanned`): it passes over
everything else without a change. So a reference by number is read exactly where the number is that
of a group.

Key lemmas:

* `Derives.scanned`: along every derivation the scan counts the groups that are read;
* `Derives.refersByNumber`: a term is a reference by number exactly if a numeral not above the count
  follows its backslash;
* `Pattern.captures_of_pass`, from which the statement about answers follows.
-/

namespace EcmaPattern

open EcmaPattern.Parser

variable {g : Grammar} {s t : State}

/-! ## Characters that the scan passes over

Between terms the scan looks for parentheses besides the signs of a flat scan. What holds neither is
passed over without a change to the count. -/

/-- The scan passes over the characters without a change. -/
def Inert (cs : List CodePoint) : Prop :=
  ∀ inClass rest, countCaptures inClass false (cs ++ rest) = countCaptures inClass false rest

def scanSigns : List CodePoint := ['\\', '[', ']', '(']

theorem Inert.nil : Inert [] := fun _ _ => rfl

/-- What the scan passes over may be put one after the other. -/
theorem Inert.append {cs ds : List CodePoint} (h : Inert cs) (h' : Inert ds) :
    Inert (cs ++ ds) := by
  intro inClass rest
  rw [List.append_assoc, h, h']

theorem Inert.single {c : CodePoint} (h : scanSigns.contains c = false) : Inert [c] := by
  intro inClass rest
  simp only [scanSigns, List.contains_cons, List.contains_nil, Bool.or_false,
    Bool.or_eq_false_iff] at h
  obtain ⟨hslash, hopen, hclose, hparen⟩ := h
  rw [List.singleton_append, countCaptures, hslash, hopen, hclose, hparen]
  simp

/-- The scan passes over whatever a backslash escapes. -/
theorem Inert.escaped (c : CodePoint) : Inert ['\\', c] := by
  intro inClass rest
  show countCaptures inClass false (.ofChar '\\' :: c :: rest) = _
  rw [countCaptures, if_neg Bool.false_ne_true, if_pos (beq_self_eq_true _), countCaptures,
    if_pos rfl]

/-- The scan for groups does not look out for slashes. -/
theorem scanSigns_of_flatSigns {c : CodePoint} (h : flatSigns.contains c = false) :
    scanSigns.contains c = false := by
  simp only [flatSigns, scanSigns, List.contains_cons, List.contains_nil, Bool.or_false,
    Bool.or_eq_false_iff] at h ⊢
  exact ⟨h.1, h.2.1, h.2.2.1, h.2.2.2.1⟩

theorem Unmarked.inert {cs : List CodePoint} (h : Unmarked cs) : Inert cs := by
  induction h with
  | nil => exact .nil
  | cons hc _ ih => exact (Inert.single (scanSigns_of_flatSigns hc)).append ih
  | escaped c _ ih => exact (Inert.escaped c).append ih

theorem Inert.scan {cs : List CodePoint} (h : Inert cs) (hr : s.Reads cs t) (inClass : Bool) :
    countCaptures inClass false s.cursor.characters =
      countCaptures inClass false t.cursor.characters := by
  rw [hr.cursor.characters]
  exact h inClass _

/-- Inside a class the scan does not look out for parentheses. -/
theorem countCaptures_inside {c : CodePoint} (h : c.isOneOf ['\\', ']'] = false)
    (rest : List CodePoint) :
    countCaptures true false (c :: rest) = countCaptures true false rest := by
  simp only [CodePoint.isOneOf, List.any_cons, List.any_nil, Bool.or_false,
    Bool.or_eq_false_iff] at h
  rw [BEq.comm, BEq.comm (a := CodePoint.ofChar ']')] at h
  rw [countCaptures, h.1, h.2]
  simp

/-- The count of capturing groups goes by signs alone. -/
theorem flatScan_countCaptures :
    FlatScan fun inClass c => countCaptures inClass false c.characters where
  pass := by
    intro cs c d hcs hr inClass
    rw [hr.characters]
    exact hcs.inert inClass _
  openClass := by
    intro c d hr inClass
    rw [hr.characters]
    rfl
  closeClass := by
    intro c d hr inClass
    rw [hr.characters]
    rfl
  inside := by
    intro ch c d hch hr
    rw [hr.characters]
    exact countCaptures_inside hch _

/-- Between terms the scan passes over every character, also over a slash. -/
theorem ReadsCharacter.scan {c : Character} (h : ReadsCharacter g .term s c t) :
    countCaptures false false s.cursor.characters =
      countCaptures false false t.cursor.characters := by
  have hslash : Inert [.ofChar '/'] := .single rfl
  exact h.passed flatScan_countCaptures rfl fun _ hr => hslash.scan hr false

/-! ## Parentheses

A parenthesis is judged by the two or three characters behind it. -/

/-- Outside classes, a parenthesis is counted if it opens a capturing group. -/
theorem countCaptures_parenthesis (rest : List CodePoint) :
    countCaptures false false (.ofChar '(' :: rest) =
      (if opensCapture rest then 1 else 0) + countCaptures false false rest := by
  have hslash : (CodePoint.ofChar '(' == .ofChar '\\') = false := by decide
  have hopen : (CodePoint.ofChar '(' == .ofChar '[') = false := by decide
  have hclose : (CodePoint.ofChar '(' == .ofChar ']') = false := by decide
  rw [countCaptures]
  simp only [hslash, hopen, hclose, beq_self_eq_true, Bool.false_eq_true, if_false, Bool.not_false,
    Bool.true_and]
  split
  · rw [Nat.add_comm]
  · rw [Nat.zero_add]

theorem opensCapture_of_ne {rest : List CodePoint} (h : rest.head? ≠ some (.ofChar '?')) :
    opensCapture rest = true := by
  cases rest with
  | nil => rfl
  | cons c rest =>
    have hc : c ≠ .ofChar '?' := by
      rintro rfl
      exact h rfl
    simp [opensCapture, hc]

theorem opensCapture_question {c : CodePoint} (h : c ≠ .ofChar '<') (rest : List CodePoint) :
    opensCapture (.ofChar '?' :: c :: rest) = false := by
  simp [opensCapture, h]

/-- A name begins with neither of the signs of a lookbehind. -/
theorem NameSpelling.opens {cs : List CodePoint} {name : GroupName}
    (h : NameSpelling g cs name) (hne : name ≠ []) (rest : List CodePoint) :
    opensCapture (.ofChar '?' :: .ofChar '<' :: (cs ++ rest)) = true := by
  have hhead : ∀ {c : CodePoint} {rest : List CodePoint}, c.isOneOf ['=', '!'] = false →
      opensCapture (.ofChar '?' :: .ofChar '<' :: c :: rest) = true := by
    intro c rest hc
    simp [opensCapture, hc]
  cases h with
  | nil => exact absurd rfl hne
  | cons h hc tail =>
    cases h with
    | plain =>
      exact hhead (CodePoint.isOneOf_eq_false CodePoint.isNameLike
        (CodePoint.isNameLike_of_identifier hc) rfl)
    | escaped h => exact hhead rfl
    | pair _ ha hb => exact hhead (CodePoint.isOneOf_eq_false CodePoint.isLead ha rfl)

/-! ## The scan along a derivation

One case for each production. Classes are passed over as a flat scan passes over them; groups add
one, if they capture. -/

/-- What the scan finds between two states. In a class of the set grammar it may take itself to be
outside: after a class inside the class. -/
def Piece.Scanned (g : Grammar) (s t : State) : Piece → Prop
  | element _ | elements _ =>
    ∀ inClass, g.sets = true ∨ inClass = true → ∃ inClass', (g.sets = true ∨ inClass' = true) ∧
      countCaptures inClass false s.cursor.characters =
        countCaptures inClass' false t.cursor.characters
  | charClass _ =>
    ∀ inClass, countCaptures inClass false s.cursor.characters =
      countCaptures false false t.cursor.characters
  | x =>
    countCaptures false false s.cursor.characters =
      x.captures.length + countCaptures false false t.cursor.characters

/-- Behind an opening parenthesis that opens no group to count. -/
theorem scan_parenthesis (cs : List CodePoint) {rest : List CodePoint}
    (hopens : opensCapture (cs ++ rest) = false) (hcs : Unmarked cs) :
    countCaptures false false (.ofChar '(' :: (cs ++ rest)) = countCaptures false false rest := by
  rw [countCaptures_parenthesis, hopens, if_neg Bool.false_ne_true, Nat.zero_add, hcs.inert]

/-- Behind an opening parenthesis that opens a group to count. -/
theorem scan_capture (cs : List CodePoint) {rest : List CodePoint}
    (hopens : opensCapture (cs ++ rest) = true) (hcs : Unmarked cs) :
    countCaptures false false (.ofChar '(' :: (cs ++ rest)) =
      1 + countCaptures false false rest := by
  rw [countCaptures_parenthesis, hopens, if_pos rfl, hcs.inert]

/-- The opening of a lookaround is not counted, although it may hold a `<`. -/
theorem scan_lookText (direction : Direction) (negated : Bool) (rest : List CodePoint) :
    countCaptures false false (lookText direction negated ++ rest) =
      countCaptures false false rest := by
  cases direction <;> cases negated
  · exact scan_parenthesis [.ofChar '?', .ofChar '='] rfl (.cons rfl (.single rfl))
  · exact scan_parenthesis [.ofChar '?', .ofChar '!'] rfl (.cons rfl (.single rfl))
  · exact scan_parenthesis [.ofChar '?', .ofChar '<', .ofChar '='] rfl
      (.cons rfl (.cons rfl (.single rfl)))
  · exact scan_parenthesis [.ofChar '?', .ofChar '<', .ofChar '!'] rfl
      (.cons rfl (.cons rfl (.single rfl)))

/-- Behind the modifiers of a group, which is none to count. -/
theorem ReadsModifiers.scan {u v : State} {m : Modifiers}
    (hopen : s.Reads [.ofChar '(', .ofChar '?'] t) (h : ReadsModifiers t m u)
    (hcolon : u.Reads [.ofChar ':'] v) :
    countCaptures false false s.cursor.characters =
      countCaptures false false v.cursor.characters := by
  obtain ⟨cs, hread, hletters, hcs⟩ := h.unmarked
  have hunmarked : Unmarked (.ofChar '?' :: (cs ++ [.ofChar ':'])) :=
    .cons rfl (hletters.append (.single rfl))
  -- what follows the question mark is a letter, a hyphen or the colon, so it opens no name
  have hopens : opensCapture (.ofChar '?' :: (cs ++ [.ofChar ':']) ++ v.cursor.characters) =
      false := by
    cases cs with
    | nil => exact opensCapture_question (by decide) _
    | cons c cs =>
      refine opensCapture_question ?_ _
      rintro rfl
      rcases hcs _ List.mem_cons_self with hc | hc
      · exact absurd hc (by decide)
      · exact absurd hc (by decide)
  have hchars : s.cursor.characters =
      .ofChar '(' :: (.ofChar '?' :: (cs ++ [.ofChar ':']) ++ v.cursor.characters) := by
    rw [(hopen.trans (hread.trans hcolon)).cursor.characters]
    rfl
  rw [hchars, scan_parenthesis _ hopens hunmarked]

/-- Behind the name of a group, which is one to count. -/
theorem NameSpelling.scan {cs : List CodePoint} {name : GroupName} (h : NameSpelling g cs name)
    (hne : name ≠ [])
    (hopen : s.Reads (.ofChar '(' :: .ofChar '?' :: .ofChar '<' :: (cs ++ [.ofChar '>'])) t) :
    countCaptures false false s.cursor.characters =
      1 + countCaptures false false t.cursor.characters := by
  have hunmarked : Unmarked (.ofChar '?' :: .ofChar '<' :: (cs ++ [.ofChar '>'])) :=
    .cons rfl (.cons rfl (h.unmarked.append (.single rfl)))
  have hopens : opensCapture
      (.ofChar '?' :: .ofChar '<' :: (cs ++ [.ofChar '>']) ++ t.cursor.characters) = true := by
    have := h.opens hne ([.ofChar '>'] ++ t.cursor.characters)
    rwa [← List.append_assoc] at this
  rw [hopen.cursor.characters]
  exact scan_capture _ hopens hunmarked

/-- A term without capturing groups, which the scan passes over. -/
theorem Piece.scanned_of_nil {e : Term} (h : (Piece.term e).captures = [])
    (hscan : countCaptures false false s.cursor.characters =
      countCaptures false false t.cursor.characters) :
    (Piece.term e).Scanned g s t := by
  show _ = (Piece.term e).captures.length + _
  rw [h, List.length_nil, Nat.zero_add]
  exact hscan

/-- A capturing group, which the scan counts, and then those in it. -/
theorem Piece.scanned_capture {u v : State} {span : Span} {index : Nat} {name : Option GroupName}
    {qs : List Sequence}
    (hopen : countCaptures false false s.cursor.characters =
      1 + countCaptures false false t.cursor.characters)
    (h : (disjunction qs).Scanned g t u)
    (hclose : countCaptures false false u.cursor.characters =
      countCaptures false false v.cursor.characters) :
    (Piece.term (.capture span index name qs)).Scanned g s v := by
  have h : countCaptures false false t.cursor.characters =
    (disjunction qs).captures.length + countCaptures false false u.cursor.characters := h
  show _ = (Piece.term (.capture span index name qs)).captures.length + _
  rw [captures_capture, List.length_cons, hopen, h, hclose]
  omega

/-- The scan counts the capturing groups that are read. -/
theorem Derives.scanned {x : Piece} (h : Derives g s x t) : x.Scanned g s t := by
  have hself := h
  have hscan : ∀ {cs : List CodePoint} {s t : State}, Unmarked cs → s.Reads cs t →
      countCaptures false false s.cursor.characters =
        countCaptures false false t.cursor.characters :=
    fun hcs hr => hcs.inert.scan hr false
  have hparen : ∀ {s t : State}, s.Reads [.ofChar ')'] t →
      countCaptures false false s.cursor.characters =
        countCaptures false false t.cursor.characters :=
    hscan (.single rfl)
  -- by induction on the derivation; the cases in a class are those of any flat scan and come last
  induction h with
  | termCharacter h _ => exact Piece.scanned_of_nil (Piece.captures_set _) h.scan
  | termEscape h =>
    exact Piece.scanned_of_nil (Piece.captures_set _) (h.passed flatScan_countCaptures false)
  | termClass h _ =>
    exact Piece.scanned_of_nil (Piece.captures_set _) (h.passed flatScan_countCaptures false)
  | any h => exact Piece.scanned_of_nil (Piece.captures_leaf rfl rfl) (hscan (.single rfl) h)
  | @edge s t e h =>
    have hsign : flatSigns.contains (edgeSign e) = false := by cases e <;> rfl
    exact Piece.scanned_of_nil (Piece.captures_leaf rfl rfl) (hscan (.single hsign) h)
  | wordBoundary h =>
    exact Piece.scanned_of_nil (Piece.captures_leaf rfl rfl) (hscan (.escaped _ .nil) h)
  | numbered _ _ hne hcs hr =>
    exact Piece.scanned_of_nil (Piece.captures_leaf rfl rfl) (hscan (.escaped_digits hne hcs) hr)
  | @named s t cs _ _ hname hr =>
    have hunmarked : Unmarked (.ofChar '<' :: (cs ++ [.ofChar '>'])) :=
      .cons rfl (hname.unmarked.append (.single rfl))
    exact Piece.scanned_of_nil (Piece.captures_leaf rfl rfl) (hscan (.escaped 'k' hunmarked) hr)
  | look _ hopen h hclose ih =>
    show _ = (Piece.term _).captures.length + _
    rw [Piece.captures_look, hopen.cursor.characters, scan_lookText, ih h, hparen hclose]
  | group hopen h hclose ih =>
    show _ = (Piece.term _).captures.length + _
    rw [Piece.captures_group, hopen.cursor.characters]
    refine (scan_parenthesis [.ofChar '?', .ofChar ':'] rfl (.cons rfl (.single rfl))).trans ?_
    rw [ih h, hparen hclose]
  | modifiedGroup _ hopen hm hcolon h hclose ih =>
    show _ = (Piece.term _).captures.length + _
    rw [Piece.captures_group, hm.scan hopen hcolon, ih h, hparen hclose]
  | @capture s t u v qs hopen hnext h hclose ih =>
    have hopens : opensCapture ([] ++ t.cursor.characters) = true := by
      refine opensCapture_of_ne ?_
      rw [List.nil_append, ← Cursor.current_eq_head?]
      exact hnext
    refine Piece.scanned_capture ?_ (ih h) (hparen hclose)
    rw [hopen.cursor.characters]
    exact scan_capture [] hopens .nil
  | namedCapture _ hname hne hopen h hclose ih =>
    exact Piece.scanned_capture (hname.scan hne hopen) (ih h) (hparen hclose)
  | quantified h hq hr ih =>
    show _ = (Piece.term _).captures.length + _
    rw [Piece.captures_quantified, ih h, hscan hq.unmarked hr]
  | noTerm s =>
    show _ = (Piece.terms _).captures.length + _
    rw [Piece.captures_noTerm, List.length_nil, Nat.zero_add]
  | consTerm h hs ih ihs =>
    show _ = (Piece.terms _).captures.length + _
    rw [Piece.captures_terms, List.length_append, ih h, ihs hs, Nat.add_assoc]
  | sequence h ih =>
    show _ = (Piece.sequence _).captures.length + _
    rw [Piece.captures_sequence]
    exact ih h
  | lastAlternative h ih =>
    show _ = (Piece.alternatives _).captures.length + _
    rw [Piece.captures_lastAlternative]
    exact ih h
  | @consAlternative s t u v q qs h hbar hs ih ihs =>
    have ihs : countCaptures false false u.cursor.characters = _ := ihs hs
    show _ = (Piece.alternatives _).captures.length + _
    rw [Piece.captures_alternatives, List.length_append, ih h, hscan (.single rfl) hbar, ihs,
      Nat.add_assoc]
  | disjunction h ih => exact ih h
  | _ => exact hself.passed flatScan_countCaptures

/-! ## References by number

A numeral behind a backslash is read as a reference if it is not above the number of groups, and
otherwise as something else or as a fault. The other direction needs that nothing else that is read
begins with such a numeral. -/

/-- Every number that a reference has is that of one of so many groups, and where a number stands
after a backslash, outside of classes, it is a reference if there are that many groups. -/
structure Node.RefersByNumber (slice : Slice) (paired : Bool) (groups : Nat) (n : Node) : Prop where
  bounds : ∀ span k, n = .term (.reference span (.number k)) → 1 ≤ k ∧ k ≤ groups
  reads : ∀ e, n = .term e → e.kind ≠ .quantifier →
    ∀ k, escapedNumeral? (slice.cursorAt paired e.span.start).characters = some k →
      ((∃ span, e = .reference span (.number k)) ↔ k ≤ groups)

/-- A number is no smaller than what its first digits stand for. -/
theorem ofDigits_foldl_le (base n : Nat) (ds : List Nat) (hbase : 1 ≤ base) :
    n ≤ ds.foldl (fun n d => n * base + d) n := by
  induction ds generalizing n with
  | nil => exact Nat.le_refl n
  | cons d ds ih =>
    calc n ≤ n * base := Nat.le_mul_of_pos_right n hbase
      _ ≤ n * base + d := Nat.le_add_right _ _
      _ ≤ _ := ih _

/-- A number that does not begin with a zero is not zero. -/
theorem one_le_of_numeral? {cs : List CodePoint} {n : Nat} (h : numeral? cs = some n) : 1 ≤ n := by
  rw [numeral?] at h
  split at h
  · cases h
  · cases h
  · next d ds hne _ =>
    cases h
    have hd : 1 ≤ d := Nat.one_le_iff_ne_zero.mpr hne
    have hle := ofDigits_foldl_le 10 d ds (by decide)
    rw [ofDigits, List.foldl_cons, Nat.zero_mul, Nat.zero_add]
    omega

/-- Groups are counted from one, and no reference is to the group nought. -/
theorem one_le_of_escapedNumeral? {cs : List CodePoint} {n : Nat}
    (h : escapedNumeral? cs = some n) : 1 ≤ n := by
  cases cs with
  | nil => cases h
  | cons c cs =>
    rw [escapedNumeral?] at h
    split at h
    · exact one_le_of_numeral? h
    · cases h

theorem escapedNumeral?_of_reads {cs : List CodePoint} {c : CodePoint}
    (h : s.Reads (c :: cs) t) (hc : (c == .ofChar '\\') = false) :
    escapedNumeral? s.cursor.characters = none := by
  rw [h.cursor.characters, List.cons_append, escapedNumeral?, if_neg (beq_eq_false_iff_ne.mp hc)]

theorem escapedNumeral?_of_escape {cs : List CodePoint} {c : CodePoint}
    (h : s.Reads (.ofChar '\\' :: c :: cs) t) (hc : c.digit? 10 = none) :
    escapedNumeral? s.cursor.characters = none := by
  rw [h.cursor.characters, List.cons_append, List.cons_append, escapedNumeral?, if_pos rfl,
    numeral?_eq_none hc]

/-- An escape for a set is no reference. -/
theorem SetSpelling.escapedNumeral? {cs : List CodePoint} {make : Span → CharSet}
    (h : SetSpelling g cs make) (hr : s.Reads (.ofChar '\\' :: cs) t) :
    escapedNumeral? s.cursor.characters = none := by
  cases h with
  | @letter c set negated hc =>
    refine escapedNumeral?_of_escape hr ?_
    grind [escapeSet?, CodePoint.digit?, CodePoint.hexValue?, CodePoint.ofChar]
  | @property c cs p negated _ _ hc =>
    refine escapedNumeral?_of_escape hr ?_
    grind [propertyLetter?, CodePoint.digit?, CodePoint.hexValue?, CodePoint.ofChar]

/-- A term that is no repetition is a reference by number exactly if it is written as one and there
are enough groups. -/
theorem Derives.isNumberedReference {e : Term} {k : Nat} (h : Derives g s (.term e) t)
    (he : e.kind ≠ .quantifier) (hk : EcmaPattern.escapedNumeral? s.cursor.characters = some k) :
    (∃ span, e = .reference span (.number k)) ↔ k ≤ g.captures := by
  have hnone : EcmaPattern.escapedNumeral? s.cursor.characters ≠ none := by
    rw [hk]
    nofun
  -- apart from references, only a character can begin with a backslash and a number
  cases h with
  | termCharacter _ hn =>
    have hlt := hn k hk
    constructor
    · rintro ⟨span, h⟩
      cases h
    · omega
  | termEscape h =>
    cases h with
    | mk h hr => exact absurd (h.escapedNumeral? hr) hnone
  | termClass h =>
    obtain ⟨cs, u, hr, -⟩ := h.reads_class
    exact absurd (escapedNumeral?_of_reads hr rfl) hnone
  | any h => exact absurd (escapedNumeral?_of_reads h rfl) hnone
  | @edge _ _ edge h =>
    cases edge <;> exact absurd (escapedNumeral?_of_reads h rfl) hnone
  | @wordBoundary _ _ negated h =>
    cases negated <;> exact absurd (escapedNumeral?_of_escape h rfl) hnone
  | @look _ _ _ _ direction negated _ _ hopen =>
    cases direction <;> cases negated <;>
      exact absurd (escapedNumeral?_of_reads hopen rfl) hnone
  | group hopen => exact absurd (escapedNumeral?_of_reads hopen rfl) hnone
  | modifiedGroup _ hopen => exact absurd (escapedNumeral?_of_reads hopen rfl) hnone
  | capture hopen => exact absurd (escapedNumeral?_of_reads hopen rfl) hnone
  | namedCapture _ _ _ hopen => exact absurd (escapedNumeral?_of_reads hopen rfl) hnone
  | numbered hn hle =>
    rw [hn] at hk
    cases hk
    exact ⟨fun _ => hle, fun _ => ⟨_, rfl⟩⟩
  | named _ _ hr => exact absurd (escapedNumeral?_of_escape hr rfl) hnone
  | quantified => exact absurd rfl he

/-- A term refers by number if a numeral follows its backslash, and then not above the number of
groups. -/
theorem Derives.refersByNumber {slice : Slice} {paired : Bool} {e : Term}
    (hs : slice.Holds paired s.cursor) (h : Derives g s (.term e) t) :
    (Node.term e).RefersByNumber slice paired g.captures := by
  refine ⟨?_, ?_⟩
  · intro span k hk
    cases hk
    cases h with
    | numbered hn hle => exact ⟨one_le_of_escapedNumeral? hn, hle⟩
  · intro e' he hkind k hk
    cases he
    have hstart : e.span.start = s.cursor.index := by
      rw [h.term_span]
      rfl
    rw [hstart, ← hs.eq_cursorAt] at hk
    exact h.isNumberedReference hkind hk

theorem Node.eq_reference {n : Node} (hkind : n.kind = .reference) :
    ∃ span target, n = .term (.reference span target) := by
  cases n with
  | term e =>
    cases e with
    | reference span target => exact ⟨span, target, rfl⟩
    | set x => cases x with
      | operation _ op => cases op <;> cases hkind
      | _ => cases hkind
    | _ => cases hkind
  | charSet x => cases x with
    | operation _ op => cases op <;> cases hkind
    | _ => cases hkind
  | _ => cases hkind

/-- A reference whose field is a number is a reference by number. -/
theorem Node.eq_number_of_fields {n : Node} {k : Nat} (hkind : n.kind = .reference)
    (href : n.fields.lookup "ref" = some (.value (.number k))) :
    ∃ span, n = .term (.reference span (.number k)) := by
  obtain ⟨span, target, rfl⟩ := Node.eq_reference hkind
  cases target with
  | number m =>
    cases href
    exact ⟨span, rfl⟩
  | name name indexes => cases href

section Resolved

variable (f : GroupName → List Nat)

theorem Term.resolve_eq_number {e : Term} {span : Span} {k : Nat} :
    e.resolve f = .reference span (.number k) ↔ e = .reference span (.number k) := by
  cases e with
  | reference span' target => cases target <;> simp [resolve]
  | _ => simp [resolve]

/-- References by number are resolved as they are read. -/
theorem Node.RefersByNumber.resolve {slice : Slice} {paired : Bool} {groups : Nat} {n : Node}
    (h : n.RefersByNumber slice paired groups) :
    (n.resolve f).RefersByNumber slice paired groups := by
  cases n with
  | term e =>
    refine ⟨?_, ?_⟩
    · intro span k hk
      have he : e.resolve f = .reference span (.number k) := Node.term.inj hk
      rw [Term.resolve_eq_number] at he
      exact h.bounds span k (by rw [he])
    · intro e' he hkind k hk
      obtain rfl : e.resolve f = e' := Node.term.inj he
      rw [Term.kind_resolve] at hkind
      rw [Term.span_resolve] at hk
      simp only [Term.resolve_eq_number]
      exact h.reads e rfl hkind k hk
  | _ => exact ⟨nofun, nofun⟩

end Resolved

/-! ## Answers

The main statement for requests of every kind, and a case of it. -/

/-- The pass that a pattern comes from has read it with the scanned number of groups. -/
theorem Pattern.captures_of_pass {rule : DuplicateRule} {o : Options} {flags : FlagSet}
    {named : Bool} {slice : Slice} {paired : Bool} {p : Pattern} {scope : GroupScope}
    (h : pass rule o flags named (slice.cursor paired) = .ok (p, scope)) :
    countCaptures false false (slice.content.characters paired) =
        (Node.pattern p).captures.length ∧
      (Node.pattern p).captures.map Capture.index =
        List.range' 1 (Node.pattern p).captures.length ∧
      ((Node.pattern p).captures.map Capture.start).Pairwise (· < ·) ∧
      ∀ n ∈ (Node.pattern p).descendants,
        n.RefersByNumber slice paired (Node.pattern p).captures.length := by
  have hrefers := forall_nodes_of_pass (P := fun n => n.RefersByNumber slice paired
      (countCaptures false false (slice.content.characters paired)))
    (fun s e t hs he => he.refersByNumber hs)
    (fun n hn => ⟨fun span k hk => absurd hk (hn _), fun e he => absurd he (hn e)⟩)
    (fun f n hn => hn.resolve f) h
  obtain ⟨qs, t, hqs, hnone, -, rfl⟩ := derives_of_pass h
  have hnumbered := hqs.captures_numbered
  have hscan : countCaptures false false (slice.content.characters paired) =
      (Piece.disjunction qs).captures.length := by
    have hscanned : countCaptures false false (slice.cursor paired).characters =
        (Piece.disjunction qs).captures.length +
          countCaptures false false t.cursor.characters := hqs.scanned
    rw [Cursor.characters_eq_nil hnone] at hscanned
    exact hscanned
  -- the grammar was given the number that the scan had found
  rw [hscan] at hrefers
  rw [captures_resolve]
  exact ⟨hscan, hnumbered.indexes, hnumbered.starts, hrefers⟩

/-- The number of capturing groups that is counted before a pattern is read is the number of those
that its tree has. In the order in which they start, they are numbered from one on. A reference by
number refers to one of them, and outside of classes a number after a backslash, all its digits
taken together, is such a reference exactly if there are that many groups. -/
theorem captures_counted_before_reading {o : Options} {choice : FlagChoice} {slice : Slice}
    {p : Pattern} (h : parsePattern o choice slice = .ok p) :
    ∃ flags, choice.resolve o.edition = .ok flags ∧
      countCaptures false false (slice.content.characters flags.unicodeMode) =
        (Node.pattern p).captures.length ∧
      (Node.pattern p).captures.map Capture.index =
        List.range' 1 (Node.pattern p).captures.length ∧
      ((Node.pattern p).captures.map Capture.start).Pairwise (· < ·) ∧
      (∀ n ∈ (Node.pattern p).descendants, ∀ k, n.kind = .reference →
        n.fields.lookup "ref" = some (.value (.number k)) →
        1 ≤ k ∧ k ≤ (Node.pattern p).captures.length ∧
          n.fields.lookup "resolved" = some (.value (.numbers [k]))) ∧
      ∀ e, .term e ∈ (Node.pattern p).descendants → e.kind ≠ .quantifier →
        ∀ k, escapedNumeral? (slice.cursorAt flags.unicodeMode e.span.start).characters = some k →
          ((∃ span, e = .reference span (.number k)) ↔ k ≤ (Node.pattern p).captures.length) := by
  obtain ⟨flags, hflags, hread⟩ := parsePattern_eq_ok.mp h
  obtain ⟨named, scope, hpass⟩ := Pattern.pass_of_read hread
  obtain ⟨hcount, hindexes, hstarts, hrefers⟩ := Pattern.captures_of_pass hpass
  refine ⟨flags, hflags, hcount, hindexes, hstarts, ?_, ?_⟩
  · intro n hn k hkind href
    obtain ⟨span, rfl⟩ := Node.eq_number_of_fields hkind href
    obtain ⟨hone, hle⟩ := (hrefers _ hn).bounds span k rfl
    exact ⟨hone, hle, rfl⟩
  · intro e he hkind k hk
    exact (hrefers _ he).reads e rfl hkind k hk

theorem captures_counted_before_reading_in_classes :
    ∃ p, parsePattern (.ofEdition .es2025 false) (.set {})
        (.whole (.ofString "(?<=\\()([(\\]\\[]|](\\2))\\18\\3\\1{2}")) = .ok p ∧
      (Node.pattern p).captures.map Capture.index = [1, 2] := by
  obtain ⟨p, hp⟩ : ∃ p, parsePattern (.ofEdition .es2025 false) (.set {})
      (.whole (.ofString "(?<=\\()([(\\]\\[]|](\\2))\\18\\3\\1{2}")) = .ok p :=
    Except.exists_eq_ok (by decide +kernel)
  obtain ⟨flags, hflags, hcount, hindexes, -⟩ := captures_counted_before_reading hp
  cases hflags
  have htwo : countCaptures false false
      ((Slice.whole (.ofString "(?<=\\()([(\\]\\[]|](\\2))\\18\\3\\1{2}")).content.characters
        false) = 2 := by
    decide +kernel
  refine ⟨p, hp, ?_⟩
  rw [hindexes, ← hcount]
  exact congrArg (List.range' 1) htwo

end EcmaPattern
