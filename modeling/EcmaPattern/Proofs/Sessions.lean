import EcmaPattern.Proofs.Captures
import EcmaPattern.Proofs.Passes

/-!
# Sessions

A call in the registers of a parser gives what the request asks for, whatever the registers held
before. The registers that a call reads are set in it first: those that say what is read when it
begins, the modes and the reader when a pattern begins, and the counters and the names when a pass
over the pattern begins. So no answer in a session depends on the calls before it, even if some of
them were broken off.

Sessions are state transformers over registers that survive a call, as they do if a call is broken
off. What a call leaves behind is therefore arbitrary (`residue`), and the statement is that it does
not matter.
-/

namespace EcmaPattern

open EcmaPattern.Parser

/-! ## What a call gives

`Gives x r a P` says that the session `x` in the registers `r` gives `a`, and leaves registers of
which `P` holds if it succeeds. It is closed under the combinators, so a session is taken apart as
it is written. -/

namespace Session

variable {α β : Type} {residue : Registers → Registers} {r : Registers}

/-- A session runs its first part and, if that succeeds, goes on with the registers it left. -/
theorem run_bind (x : Session α) (f : α → Session β) (r : Registers) :
    (x >>= f).run.run r =
      match x.run.run r with
      | (.ok v, r') => (f v).run.run r'
      | (.error d, r') => (.error d, r') := by
  show (match x.run.run r with | (a, r') => (ExceptT.bindCont f a).run r') = _
  obtain ⟨_ | _, _⟩ := x.run.run r <;> rfl

/-- In the registers `r` the call has the result `a` and, if that is a value, leaves registers that
have a property. -/
structure Gives (x : Session α) (r : Registers) (a : Except Failure α)
    (leaves : α → Registers → Prop) : Prop where
  result : (x.run.run r).1 = a
  left : ∀ v, a = .ok v → leaves v (x.run.run r).2

variable {a : Except Failure α} {b : α → Except Failure β} {P P' : α → Registers → Prop}
  {Q : β → Registers → Prop} {x : Session α} {f : α → Session β}

/-- What two sessions in a row give is what their two answers give in a row. -/
theorem Gives.bind (hx : Gives x r a P) (hf : ∀ v r', a = .ok v → P v r' → Gives (f v) r' (b v) Q) :
    Gives (x >>= f) r (a >>= b) Q := by
  obtain ⟨rfl, hleft⟩ := hx
  rcases h : x.run.run r with ⟨d | v, r'⟩
  · refine ⟨?_, nofun⟩
    rw [run_bind, h]
    rfl
  · rw [h] at hleft hf
    obtain ⟨hresult, hleft⟩ := hf v r' rfl (hleft v rfl)
    constructor
    · rw [run_bind, h]
      exact hresult
    · rw [run_bind, h]
      exact hleft

theorem Gives.bind_ok {v : α} {b : Except Failure β} (hx : Gives x r (.ok v) P)
    (hf : ∀ r', P v r' → Gives (f v) r' b Q) : Gives (x >>= f) r b Q := by
  refine hx.bind (b := fun _ => b) fun v' r' hv => ?_
  obtain rfl : v = v' := Except.ok.inj hv
  exact hf r'

/-- If the first part of a session fails, the rest is not run. -/
theorem Gives.bind_error {d : Failure} (hx : Gives x r (.error d) P) :
    Gives (x >>= f) r (.error d) Q :=
  hx.bind (b := fun _ => .error d) nofun

theorem Gives.mono (hx : Gives x r a P) (h : ∀ v r', P v r' → P' v r') : Gives x r a P' :=
  ⟨hx.result, fun v hv => h v _ (hx.left v hv)⟩

theorem gives_pure (v : α) : Gives (pure v) r (.ok v) fun _ r' => r' = r := ⟨rfl, fun _ _ => rfl⟩

theorem Gives.map (hx : Gives x r a P) (f : α → β) :
    Gives (f <$> x) r (f <$> a) fun _ _ => True := by
  rw [map_eq_pure_bind, map_eq_pure_bind]
  exact hx.bind fun v r' _ _ => (gives_pure (f v)).mono fun _ _ _ => trivial

theorem gives_get_bind {f : Registers → Session β} {b : Except Failure β}
    (h : Gives (f r) r b Q) : Gives (get >>= f) r b Q := ⟨h.result, h.left⟩

/-- To change a register is to go on with the changed registers. -/
theorem gives_modify_bind {g : Registers → Registers} {f : Unit → Session β}
    {b : Except Failure β} (h : Gives (f ()) (g r) b Q) : Gives (modify g >>= f) r b Q :=
  ⟨h.result, h.left⟩

theorem gives_lift (a : Except Failure α) : Gives (liftM a) r a fun _ r' => r' = r :=
  ⟨rfl, fun _ _ => rfl⟩

/-- A fault is reported against the source that the registers hold. -/
theorem gives_raise (f : Fault) : Gives (raise residue f) r (.error (.ofFault r.source f)) P :=
  ⟨rfl, nofun⟩

theorem gives_check (a : Except Fault α) :
    Gives (check residue a) r (a.mapError (.ofFault r.source)) fun _ r' => r' = r := by
  cases a with
  | ok v => exact gives_pure v
  | error f => exact gives_raise f

variable {o : Options} {p : Parser α}

/-- A parser is run under the grammar and from the state that the registers stand for. -/
theorem run_parse (p : Parser α) :
    (parse o residue p).run.run r =
      match p (r.grammar o) r.state with
      | .done v s => (.ok v, r.moveTo s)
      | .miss => (.error (.ofFault r.source ⟨.emptyLiteral, r.reader.cursor.index⟩), residue r)
      | .fault f => (.error (.ofFault r.source f), residue r) := by
  show StateT.run (ExceptT.run (match p (r.grammar o) r.state with
    | .done a s => _
    | .miss => _
    | .fault f => _)) r = _
  cases p (r.grammar o) r.state <;> rfl

theorem gives_parse_of_done {v : α} {s : State} (h : p (r.grammar o) r.state = .done v s) :
    Gives (parse o residue p) r (.ok v) fun _ r' => r' = r.moveTo s := by
  constructor
  · rw [run_parse, h]
  · intro _ _
    rw [run_parse, h]

theorem gives_parse_bind_of_fault {e : Fault} (h : p (r.grammar o) r.state = .fault e) :
    Gives (parse o residue p >>= f) r (.error (.ofFault r.source e)) Q := by
  have hrun : (parse o residue p >>= f).run.run r =
      (.error (.ofFault r.source e), residue r) := by
    rw [run_bind, run_parse, h]
  refine ⟨?_, nofun⟩
  rw [hrun]

end Session

/-! ## One pass

At the start of a pass the counters are cleared and the scope emptied, so the parser runs from a
state that depends on the pattern alone. -/

section Pass

variable {g : Grammar} {s t : State}

theorem GroupScope.followingAlternative_rule (scope : GroupScope) :
    scope.followingAlternative.rule = scope.rule := by
  rw [followingAlternative]
  split
  · rfl
  · rw [enterAlternative]
    split <;> rfl

theorem State.openCapture_rule (s : State) (name : Option GroupName) :
    (s.openCapture name).scope.rule = s.scope.rule := by
  cases name <;> rfl

/-- Readings keep the rule for names that stand twice. -/
theorem State.Keeps.rule (h : s.Keeps t) : t.scope.rule = s.scope.rule :=
  congrArg GroupScope.rule h.scope

/-- What is read does not touch the rule for names that stand twice. -/
theorem Derives.rule {x : Piece} (h : Derives g s x t) : t.scope.rule = s.scope.rule := by
  have hself := h
  induction h with
  | termCharacter h _ => exact h.keeps.rule
  | termEscape h =>
    cases h with
    | mk _ hr => exact hr.keeps.rule
  | termClass h _ => exact (h.keeps rfl).rule
  | any hr | edge hr | wordBoundary hr | numbered _ _ _ _ hr | named _ _ hr => exact hr.keeps.rule
  | look _ hopen h hclose ih | group hopen h hclose ih =>
    exact hclose.keeps.rule.trans ((ih h).trans hopen.keeps.rule)
  | modifiedGroup _ hopen hm hcolon h hclose ih =>
    obtain ⟨cs, hread, -⟩ := hm.reads
    exact hclose.keeps.rule.trans ((ih h).trans (hopen.trans (hread.trans hcolon)).keeps.rule)
  | capture hopen _ h hclose ih | namedCapture _ _ _ hopen h hclose ih =>
    exact hclose.keeps.rule.trans
      ((ih h).trans ((State.openCapture_rule _ _).trans hopen.keeps.rule))
  | quantified h _ hr ih => exact hr.keeps.rule.trans (ih h)
  | noTerm s => rfl
  | consTerm h hs ih ihs => exact (ihs hs).trans (ih h)
  | sequence h ih | lastAlternative h ih => exact ih h
  | consAlternative h hbar hs ih ihs =>
    exact (ihs hs).trans ((GroupScope.followingAlternative_rule _).trans
      (hbar.keeps.rule.trans (ih h)))
  | disjunction h ih => exact ih h
  | _ => exact (hself.keeps rfl).rule

end Pass

/-- The registers are set for a pass over what lies ahead of a cursor. -/
structure Registers.ReadyFor (r : Registers) (rule : DuplicateRule) (flags : FlagSet)
    (named : Bool) (c : Cursor) : Prop where
  unicode : r.unicode = flags.unicodeMode
  sets : r.sets = flags.unicodeSets
  namedReferences : r.namedReferences = named
  rule : r.scope.rule = rule
  cursor : r.reader.cursor = c

/-- What a pass keeps of what the registers said before it. -/
structure Registers.Continues (r r' : Registers) : Prop where
  source : r'.source = r.source
  slice : r'.reader.slice = r.reader.slice
  paired : r'.reader.cursor.paired = r.reader.cursor.paired
  unicode : r'.unicode = r.unicode
  sets : r'.sets = r.sets
  namedReferences : r'.namedReferences = r.namedReferences
  rule : r'.scope.rule = r.scope.rule

/-- After a pass, the registers can be set for another one over the same text. -/
theorem Registers.ReadyFor.again {r r' : Registers} {rule : DuplicateRule} {flags : FlagSet}
    {named : Bool} {c : Cursor} (h : r.ReadyFor rule flags named c) (hcontinues : r.Continues r')
    (start : Nat) (hc : r.reader.slice.cursorAt c.paired start = c) :
    (r'.beginAgain start).ReadyFor rule flags true c where
  unicode := hcontinues.unicode.trans h.unicode
  sets := hcontinues.sets.trans h.sets
  namedReferences := rfl
  rule := hcontinues.rule.trans h.rule
  cursor := by
    show r'.reader.slice.cursorAt r'.reader.cursor.paired start = c
    rw [hcontinues.slice, hcontinues.paired, h.cursor, hc]

namespace Session

variable {o : Options} {r : Registers} {flags : FlagSet} {rule : DuplicateRule} {named : Bool}
  {c : Cursor}

open Pattern in
/-- A pass in the registers gives what the pass gives that begins with no names and with all
counters at zero. -/
theorem consumePattern_gives (residue : Registers → Registers)
    (hr : r.ReadyFor rule flags named c) :
    Gives (consumePattern o residue) r
      ((Prod.fst <$> pass rule o flags named c).mapError (.ofFault r.source))
      fun p r' => pass rule o flags named c = .ok (p, r'.scope) ∧ r.Continues r' := by
  obtain ⟨hunicode, hsets, rfl, rfl, rfl⟩ := hr
  have hgrammar : r.beginPass.grammar o =
      grammarFor o flags r.namedReferences r.reader.cursor := by
    rw [grammarFor, ← hunicode, ← hsets]
    rfl
  refine gives_modify_bind (gives_get_bind (gives_get_bind ?_))
  cases hd : disjunction o.maxDepth (r.beginPass.grammar o) r.beginPass.state with
  | miss => exact absurd hd (disjunction_neverMisses _ _ _)
  | fault f =>
    rw [pass_of_disjunction_fault (hgrammar ▸ hd)]
    exact gives_parse_bind_of_fault hd
  | done qs t =>
    have hderives := disjunction_derives hd
    obtain ⟨cs, hreads⟩ := hderives.reaches
    refine (gives_parse_of_done hd).bind_ok ?_
    rintro _ rfl
    refine gives_modify_bind ?_
    cases hend : endOfPattern (r.beginPass.grammar o) t with
    | miss => exact absurd hend (endOfPattern_neverMisses _ _)
    | fault f =>
      rw [pass_of_endOfPattern_fault (hgrammar ▸ hd) (hgrammar ▸ hend)]
      exact gives_parse_bind_of_fault hend
    | done x u =>
      obtain ⟨hnone, rfl⟩ := endOfPattern_eq_done.mp hend
      rw [pass_of_disjunction_done (hgrammar ▸ hd) hnone]
      refine (gives_parse_of_done hend).bind_ok ?_
      rintro _ rfl
      refine gives_get_bind ?_
      -- no name is pending but those that this pass has referred to
      show Gives (if (Term.referredNamesOfAll qs).all t.scope.declares then _ else _) _ _ _
      split
      · refine (gives_parse_of_done (p := spanFrom r.reader.cursor) rfl).bind_ok ?_
        rintro _ rfl
        refine ⟨rfl, ?_⟩
        intro v hv
        cases hv
        exact ⟨rfl, rfl, rfl, hreads.paired, rfl, rfl, rfl, hderives.rule⟩
      · exact gives_raise _

end Session

/-! ## Patterns, flags and literals

Each part of a call reads registers that were set in the same call. Which text a diagnostic quotes
depends on the kind of request, which is one of them. -/

namespace Session

variable {o : Options} {residue : Registers → Registers} {r : Registers} {flags : FlagSet}
  {start stop : Nat}

open Pattern in
/-- A pattern is read in one pass or two, and the second finds nothing of the first. -/
theorem readPattern_gives_of_compatible (hflags : (flags.unicode && flags.unicodeSets) = false)
    (hrule : r.scope.rule = duplicateRule o.edition) :
    Gives (readPattern o residue start stop flags) r
      ((readUnder (duplicateRule o.edition) o flags
        ((r.part start stop).cursor flags.unicodeMode)).mapError
          (.ofFault (r.beginPattern o flags start stop).source))
      fun _ r' => r'.reader.slice.text = r.reader.slice.text := by
  -- the registers are overwritten before they are read, whatever was left in them
  have hready : (r.beginPattern o flags start stop).ReadyFor (duplicateRule o.edition) flags
      (alwaysNamedReferences o flags) ((r.part start stop).cursor flags.unicodeMode) :=
    ⟨rfl, rfl, rfl, hrule, rfl⟩
  have hfirst := consumePattern_gives (o := o) residue hready
  rw [readPattern, hflags]
  refine gives_modify_bind ?_
  cases hpass : pass (duplicateRule o.edition) o flags (alwaysNamedReferences o flags)
      ((r.part start stop).cursor flags.unicodeMode) with
  | error f =>
    rw [hpass] at hfirst
    rw [readUnder_of_pass_error hpass]
    exact hfirst.bind_error
  | ok result =>
    obtain ⟨p, scope⟩ := result
    rw [hpass] at hfirst
    rw [readUnder_of_pass_ok hpass]
    refine hfirst.bind_ok ?_
    rintro r' ⟨hscope, hcontinues⟩
    obtain rfl : scope = r'.scope := (Prod.mk.inj (Except.ok.inj hscope)).2
    have hnamed : r'.namedReferences = alwaysNamedReferences o flags := hcontinues.namedReferences
    have htext : r'.reader.slice.text = r.reader.slice.text := by
      rw [hcontinues.slice]
      rfl
    refine gives_get_bind ?_
    rw [hnamed]
    split
    -- the second pass begins with what the first one has left, cleared again
    · refine gives_modify_bind ?_
      rw [← hcontinues.source]
      refine (consumePattern_gives residue (hready.again hcontinues start rfl)).mono ?_
      rintro v r'' ⟨-, hagain⟩
      rw [hagain.slice]
      exact htext
    · refine (gives_pure p).mono ?_
      rintro v _ rfl
      exact htext

/-- The text that a diagnostic about a pattern quotes. Flags that conflict do not say how the
pattern is read. -/
def patternQuote (o : Options) (flags : FlagSet) (start stop : Nat) (r : Registers) : Option Text :=
  if flags.unicode && flags.unicodeSets then r.source
  else (r.beginPattern o flags start stop).source

/-- A session reads a pattern as a function of the slice and the flags, whatever else is in the
registers. -/
theorem readPattern_gives (hrule : r.scope.rule = Pattern.duplicateRule o.edition) :
    Gives (readPattern o residue start stop flags) r
      ((Pattern.read o flags (r.part start stop)).mapError
        (.ofFault (patternQuote o flags start stop r)))
      fun _ r' => r'.reader.slice.text = r.reader.slice.text := by
  rw [Pattern.read, patternQuote]
  cases hflags : flags.unicode && flags.unicodeSets with
  | true =>
    rw [readPattern, hflags]
    exact gives_raise _
  | false => exact readPattern_gives_of_compatible hflags hrule

/-- A session reads flags as a function of the slice, and leaves the registers as they are. -/
theorem readFlags_gives :
    Gives (readFlags o residue start stop) r
      ((Flags.read o.edition (r.part start stop)).mapError (.ofFault r.source))
      fun _ r' => r' = r :=
  gives_get_bind (gives_check _)

theorem patternQuote_literal (hkind : r.kind = .literal) :
    patternQuote o flags start stop r = r.source := by
  rw [patternQuote]
  split
  · rfl
  · have hbegin : (r.beginPattern o flags start stop).kind = .literal := hkind
    rw [Registers.source, Registers.source, hbegin, hkind]
    rfl

/-- A session reads a literal as a function of the slice. -/
theorem readLiteral_gives {length : Nat} (hkind : r.kind = .literal)
    (hrule : r.scope.rule = Pattern.duplicateRule o.edition) :
    Gives (readLiteral o residue start stop (start + length + 2)) r
      ((Literal.readParts o (r.part start stop) length).mapError (.ofFault r.source))
      fun _ _ => True := by
  rw [Literal.readParts, Except.mapError_bind]
  refine readFlags_gives.bind ?_
  rintro flags r - rfl
  rw [Except.mapError_bind, ← patternQuote_literal hkind]
  refine (readPattern_gives hrule).bind ?_
  rintro p r' - htext
  refine gives_get_bind ?_
  have hpart : r'.part start stop = r.part start stop := by
    rw [Registers.part, htext]
    rfl
  rw [hpart]
  exact (gives_pure _).mono fun _ _ _ => trivial

end Session

/-! ## Requests

A request sets the registers it needs and then reads its parts. -/

section Requests

variable {o : Options} {residue : Registers → Registers} {r : Registers} {slice : Slice}

open Session

theorem patternQuote_begin (flags : FlagSet) :
    patternQuote o flags slice.start slice.stop (r.begin o.edition .pattern slice) =
      some (patternSource slice flags) := by
  obtain ⟨_, _, _, _, _, unicode, sets, _⟩ := flags
  cases unicode <;> cases sets <;> rfl

/-- A call has the answer that its request has. -/
theorem Request.call_gives (q : Request) :
    Gives (q.call o residue) r (q.answer o) fun _ _ => True := by
  cases q with
  | literal slice =>
    refine gives_modify_bind (gives_get_bind ?_)
    rw [Request.answer, parseLiteral, Literal.read, Except.mapError_bind, map_bind]
    refine (gives_check _).bind ?_
    rintro length _ - rfl
    exact gives_modify_bind ((readLiteral_gives rfl rfl).map Node.literal)
  | parts source flagText =>
    have hstart : source.length + 2 = 0 + source.length + 2 := by omega
    rw [Request.answer, parseParts, Request.call, hstart]
    exact gives_modify_bind ((readLiteral_gives rfl rfl).map Node.literal)
  | pattern choice slice =>
    rw [Request.answer, parsePattern, map_bind]
    refine (gives_lift _).bind ?_
    rintro flags _ - rfl
    rw [← patternQuote_begin]
    exact gives_modify_bind ((readPattern_gives rfl).map Node.pattern)
  | flags slice => exact gives_modify_bind (readFlags_gives.map Node.flags)

end Requests

/-! ## Sessions

Whatever the calls before it, a call gives the answer to its request; by induction on the list of
requests. -/

/-- The answers in a session are those to the requests, whatever was in the registers at first. -/
theorem Session.answers_eq_map (o : Options) (residue : Registers → Registers) (r : Registers)
    (requests : List Request) :
    Session.answers o residue r requests = requests.map (Request.answer o) := by
  -- each request is answered in some registers, and it does not matter in which
  induction requests generalizing r with
  | nil => rfl
  | cons q rest ih =>
    have hstep : Session.answers o residue r (q :: rest) =
        ((q.call o residue).run.run r).1 ::
          Session.answers o residue ((q.call o residue).run.run r).2 rest := rfl
    rw [hstep, (Request.call_gives q).result, ih, List.map_cons]

/-- Each answer in a session is the answer of a new parser to the same request, whatever was in the
registers at first and whatever broken-off calls leave in them; and that is what the request asks
for. -/
theorem sessions_answer_as_new_parsers (o : Options) (residue : Registers → Registers)
    (r : Registers) (requests : List Request) :
    (Session.answers o residue r requests =
      requests.map fun q => ((q.call o residue).run.run (.fresh o.edition)).1) ∧
    ∀ q : Request, ((q.call o residue).run.run (.fresh o.edition)).1 = q.answer o := by
  have hfresh : ∀ q : Request, ((q.call o residue).run.run (.fresh o.edition)).1 = q.answer o :=
    fun q => (Request.call_gives q).result
  refine ⟨?_, hfresh⟩
  rw [Session.answers_eq_map]
  exact List.map_congr_left fun q _ => (hfresh q).symm

end EcmaPattern
