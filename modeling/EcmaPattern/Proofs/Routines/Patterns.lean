import EcmaPattern.Proofs.LiteralBody
import EcmaPattern.Proofs.Routines.Terms
import EcmaPattern.Proofs.Sessions
import EcmaPattern.Routine.Pattern

/-!
# Routines for patterns and literals

Whatever a memory is left with by the run before, reading a pattern or a literal in it comes to the
tree or the fault that the function of the text gives (`readPattern_answers`,
`readLiteral_answers`, `readParts_answers`). A second pass begins where the first one began, since
going back over what has been read restores the window. The loops over single characters, for the
number of groups and for the end of a literal's body, are compared with the functions on the text
ahead; the others run inside the pattern, where the routines follow their parsers.
-/

namespace EcmaPattern

/-- The kind of a group can be told from the next three characters. -/
theorem opensCapture_eq (cs : List CodePoint) :
    opensCapture cs =
      if cs[0]? == some (.ofChar '?') then
        cs[1]? == some (.ofChar '<') && !(cs[2]? == some (.ofChar '=')) &&
          !(cs[2]? == some (.ofChar '!'))
      else true := by
  rcases cs with _ | ⟨a, _ | ⟨b, _ | ⟨d, rest⟩⟩⟩ <;>
    simp [opensCapture, CodePoint.isOneOf, Bool.and_assoc, Bool.beq_comm (b := CodePoint.ofChar _)]

namespace Routine

variable {k : Situation} {m : Memory}

/-! ## Counting groups

The loop and the function count the same parentheses, one character at a time. -/

theorem peek_bind {β : Type} (hm : m.In k) {i : Nat} (hi : i < 4)
    (q : Option CodePoint → Routine β) :
    (peek i >>= q) k.settings m = q (m.window.cursor.peek i) k.settings m := by
  rw [← hm.within.filled.peek_eq hi]
  rfl

/-- The routine sees what opens a capturing group by the four characters it may look at. -/
theorem seesCapture_eq (hm : m.In k) {c : CodePoint} {rest : List CodePoint}
    (h : m.window.cursor.characters = c :: rest) :
    seesCapture k.settings m = .done (opensCapture rest) m := by
  have hsees {i : Nat} (hi : i < 3) (d : CodePoint) (f : Bool → Routine Bool) :
      (sees (i + 1) d >>= f) k.settings m = f (rest[i]? == some d) k.settings m := by
    rw [← List.getElem?_cons_succ (a := c), ← h, ← Cursor.peek_eq]
    exact peek_bind hm (by omega) fun o => f (o == some d)
  rw [seesCapture, hsees (by decide), opensCapture_eq]
  split
  · rw [hsees (by decide), hsees (by decide), hsees (by decide)]
    rfl
  · rfl

/-- The loop counts what the function on the characters ahead counts. -/
theorem countCapturesFor_done {fuel : Nat} (hm : m.In k)
    (hfuel : m.window.cursor.remaining < fuel) (inClass escaped : Bool) (count : Nat) :
    ∃ n, countCapturesFor fuel inClass escaped count k.settings m =
        .done (count + EcmaPattern.countCaptures inClass escaped m.window.cursor.characters) n ∧
      m.Ahead n := by
  induction fuel generalizing m inClass escaped count with
  | zero => omega
  | succ fuel ih =>
    rw [countCapturesFor, peek_bind hm (by decide), Cursor.peek_zero]
    cases hcurrent : m.window.cursor.current with
    | none =>
      rw [Cursor.characters_eq_nil hcurrent]
      exact ⟨m, rfl, .refl hm.within.filled⟩
    | some c =>
      have hchars := Cursor.characters_eq_cons hcurrent
      rw [← hm.within.filled.cursor_advance] at hchars
      have hahead := hm.ahead_advance
      have hless := hm.remaining_advance hcurrent
      -- one character further on, with whatever has been counted
      have hnext (inClass escaped : Bool) (count : Nat) : ∃ n,
          countCapturesFor fuel inClass escaped count k.settings
              { m with window := m.window.advance } =
            .done (count + EcmaPattern.countCaptures inClass escaped
              m.window.advance.cursor.characters) n ∧ m.Ahead n := by
        obtain ⟨n, hn, hahead'⟩ := ih (m := { m with window := m.window.advance })
          (hm.ahead hahead) (by simp only; omega) inClass escaped count
        exact ⟨n, hn, hahead.trans hahead'⟩
      -- the loop looks behind the parenthesis before it advances, the function after it
      have hstep (f : Bool → Routine Nat) :
          (seesCapture >>= fun captures => advance >>= fun _ => f captures) k.settings m =
            f (opensCapture m.window.advance.cursor.characters) k.settings
              { m with window := m.window.advance } := by
        rw [bind_apply, seesCapture_eq hm hchars]
        rfl
      dsimp only
      rw [hchars, hstep, EcmaPattern.countCaptures]
      split
      · exact hnext _ _ _
      split
      · exact hnext _ _ _
      split
      · exact hnext _ _ _
      split
      · exact hnext _ _ _
      split
      · rw [← Nat.add_assoc, Nat.add_right_comm]
        exact hnext _ _ _
      · exact hnext _ _ _

/-- The loop that counts groups gives what the count over characters gives, and goes back to where
it began. -/
theorem countCaptures_eq (hm : m.In k) :
    countCaptures k.settings m =
      .done (EcmaPattern.countCaptures false false m.window.cursor.characters) m := by
  obtain ⟨n, hcount, hn⟩ := countCapturesFor_done hm hm.remaining_lt_fuel false false 0
  rw [Nat.zero_add] at hcount
  have hback : { n with window := n.window.rewind m.window.index } = m := hn.keeps
  show (countCapturesFor k.settings.fuel false false 0 >>= fun count =>
    rewind m.window.index >>= fun _ => pure count) k.settings m = _
  rw [bind_apply, hcount]
  show Result.done _ { n with window := n.window.rewind m.window.index } = _
  rw [hback]

/-! ## Patterns

Alternatives and then the end, or the fault for what stands there. -/

theorem endOfPattern_completes : Completes k m Parser.endOfPattern endOfPattern := by
  refine .peek (by decide) fun hm => ?_
  rw [Cursor.peek_zero, Parser.endOfPattern, Memory.state_cursor]
  cases m.window.cursor.current with
  | none => exact .done (.refl hm.within.filled)
  | some c =>
    dsimp only
    split
    · exact .fault _
    · split
      · exact .fault _
      · split
        · exact .fault _
        · exact .fault _

/-- A whole pattern, from a memory in which nothing has been read. No name is pending but those that
the pattern refers to. -/
theorem pattern_follows {depth : Nat} (hfuel : k.room ≤ k.settings.fuel)
    (hdepth : k.depth + depth = k.settings.maxDepth) (hpending : m.pending = []) :
    Follows k (fun _ n => ∃ names, m.Moves names n) (fun _ => False) m (Parser.pattern depth)
      pattern := by
  refine .mark fun hmark => .settings <| Follows.bind (disjunction_refers hfuel hdepth)
    fun qs n hm _ hn => ?_
  refine endOfPattern_completes.bind_follows (fun _ o ho => ?_) (hm.moves hn.toMoves)
  refine (spanFrom_completes hmark).bind_follows fun span u hu _ => ?_
  have hmoves := (hn.toMoves.trans ho.toMoves).trans hu.toMoves
  have hnames : u.pending = (Pattern.mk span qs).referredNames := by
    rw [hmoves.pending, hpending, List.nil_append, List.append_nil, List.append_nil]
    rfl
  rw [Parser.resolved, resolved, hnames]
  show Matches _ _ (if (Pattern.mk span qs).referredNames.all u.scope.declares then _ else _) _
  split
  · exact .done ⟨_, hmoves⟩
  · exact .fault _

/-! ## What a function gives

A routine that runs from any memory is compared with the value of a function of the text. Nothing is
said of the memory behind it. -/

/-- A routine comes to what a function gives, and stands to it as described where it is done. -/
inductive Answers {α β : Type} (R : α → β → Memory → Prop) : Except Fault α → Result β → Prop
  | ok {a : α} {b : β} {n : Memory} (h : R a b n) : Answers R (.ok a) (.done b n)
  | error (f : Fault) : Answers R (.error f) (.fault f)

section

variable {α β α' β' : Type} {R : α → β → Memory → Prop} {R' : α' → β' → Memory → Prop}
  {σ : Settings} {x : Except Fault α} {r : Routine β} {f : α → Except Fault α'}
  {q : β → Routine β'}

/-- Routines in a row answer what two calls in a row do. -/
theorem Answers.bind (h : Answers R x (r σ m))
    (hfq : ∀ a b n, x = .ok a → R a b n → Answers R' (f a) (q b σ n)) :
    Answers R' (x >>= f) ((r >>= q) σ m) := by
  rw [bind_apply]
  generalize r σ m = y at h ⊢
  cases h with
  | ok h => exact hfq _ _ _ rfl h
  | error e => exact .error e

theorem Answers.mono {S : α → β → Memory → Prop} {y : Result β} (h : Answers R x y)
    (hR : ∀ a b n, R a b n → S a b n) : Answers S x y := by
  cases h with
  | ok h => exact .ok (hR _ _ _ h)
  | error e => exact .error e

/-- What the function still does with its value, the routine has done already. -/
theorem Answers.bind_pure {y : Result β} {g : α → β} (h : Answers R x y)
    (hR : ∀ a b n, R a b n → b = g a) :
    Answers (fun a b _ => b = a) (x >>= fun a => pure (g a)) y := by
  cases h with
  | ok h => exact .ok (hR _ _ _ h)
  | error e => exact .error e

end

/-! ## Passes

The second pass is made by the same routine in a memory that has been reset. -/

/-- A pass counts the capturing groups and then reads the pattern under a grammar that knows how
many there are. Going back leads to where it began. -/
theorem pass_answers {o : Options} {slice : Slice} {σ : Settings} (hv : slice.Valid)
    (hfuel : slice.stop - slice.start < σ.fuel) (hdepth : σ.maxDepth = o.maxDepth)
    (flags : FlagSet) (named : Bool) {paired : Bool} (hm : m.window.Over slice paired) :
    Answers (fun x p n => p = x.1 ∧ n.scope = x.2 ∧ n.window.rewind m.window.index = m.window)
      (Pattern.pass m.scope.rule o flags named m.window.cursor)
      (pass (grammarBefore o flags named) σ m) := by
  let settings := { σ with grammar := Pattern.grammarFor o flags named m.window.cursor }
  -- what a run before has left is cleared, but for the rule
  let cleared := { m with scope := m.scope.clear, opened := 0, depth := 0, pending := [] }
  have hroom : m.window.cursor.remaining < σ.fuel := by
    have hremaining := hm.remaining hv
    have hstart := hm.start_le
    omega
  have hcount := countCaptures_eq (k := ⟨σ, slice, paired, m.depth, σ.fuel, hv, hfuel⟩)
    ⟨hm, rfl, hroom⟩
  have hpass : pass (grammarBefore o flags named) σ m = pattern settings cleared := by
    rw [pass, bind_apply, hcount]
    rfl
  have hpattern : Matches (fun _ n => ∃ names, cleared.Moves names n) (fun _ => False)
      (Parser.pattern o.maxDepth settings.grammar ⟨m.window.cursor, .empty m.scope.rule, 0⟩)
      (pattern settings cleared) :=
    pattern_follows (k := ⟨settings, slice, paired, 0, σ.fuel, hv, hfuel⟩) (Nat.le_refl _)
      ((Nat.zero_add _).trans hdepth.symm) rfl ⟨hm, rfl, hroom⟩
  rw [hpass, Pattern.pass]
  -- only the outcomes matter from here on
  generalize Parser.pattern o.maxDepth _ _ = x at hpattern ⊢
  generalize pattern settings cleared = y at hpattern ⊢
  cases hpattern with
  | done hn =>
    obtain ⟨names, hn⟩ := hn
    exact .ok ⟨rfl, rfl, hn.back⟩
  | miss hn => exact hn.elim
  | fault e => exact .error e

/-- A pattern is read in one pass or two, and the second begins where the first began. -/
theorem readPattern_answers {o : Options} {flags : FlagSet} {slice : Slice} {σ : Settings}
    (hslice : slice.InText) (hfuel : slice.stop - slice.start < σ.fuel)
    (hdepth : σ.maxDepth = o.maxDepth) (hrule : m.scope.rule = Pattern.duplicateRule o.edition) :
    Answers (fun p q _ => q = p) (Pattern.read o flags slice) (readPattern o flags slice σ m) := by
  let window := m.window.reset slice.text slice.start slice.stop flags.unicodeMode
  have hwithin : window.Over slice.ordered flags.unicodeMode := .reset _ _ _
  rw [← slice.length_ordered] at hfuel
  rw [Pattern.read, readPattern, ← hrule]
  split
  · exact .error _
  · show Answers _ _ ((pass _ >>= _) _ { m with window })
    refine Answers.bind
      (pass_answers (m := { m with window }) hslice.ordered hfuel hdepth _ _ hwithin) ?_
    rintro ⟨p, scope⟩ _ n hpass ⟨rfl, hscope, hback⟩
    -- a pass leaves the rule as it is, so the second one follows the same
    have hscoperule : n.scope.rule = m.scope.rule := by
      obtain ⟨qs, t, hqs, -, ht, -⟩ := Pattern.derives_of_pass hpass
      rw [hscope, ← ht]
      exact hqs.rule
    -- going back restores the window with which the first pass began
    have hback : { n with window := n.window.rewind slice.start } = { n with window } :=
      congrArg (fun window => { n with window }) hback
    show Answers _ (if _ && !scope.isEmpty then _ else _)
      ((if _ && !n.scope.isEmpty then _ else _ : Routine _) _ _)
    rw [hscope]
    split
    · show Answers _ _ (pass _ σ { n with window := n.window.rewind slice.start })
      rw [hback, ← hscoperule]
      have hagain := pass_answers (m := { n with window }) hslice.ordered hfuel hdepth flags true
        hwithin
      exact hagain.bind_pure fun _ _ _ h => h.1
    · exact .ok rfl

/-! ## The body of a literal

A loop over single units that remembers whether it is inside a class. -/

/-- The next unit is the next character where pairs are not joined. -/
theorem unit_ahead (hm : m.In k) (hpaired : k.paired = false) {u : CodeUnit} {rest : Text}
    (h : m.window.cursor.ahead = u :: rest) :
    m.window.cursor.current = some (.ofUnit u) ∧ m.window.advance.cursor.ahead = rest ∧
      m.window.advance.index = m.window.index + 1 := by
  have huncons : m.window.cursor.ahead.uncons? m.window.cursor.paired = some (.ofUnit u, rest) := by
    have hcursor : m.window.cursor.paired = false := by
      rw [hm.within.cursor_eq]
      exact hpaired
    rw [h, hcursor, Text.uncons?_false]
  have hcurrent : m.window.cursor.current = some (.ofUnit u) := by
    rw [Cursor.current, huncons]
    rfl
  refine ⟨hcurrent, ?_, ?_⟩
  · rw [hm.within.filled.cursor_advance, Cursor.advance, huncons]
  · have hsmall := u.toNat_lt
    rw [hm.index_advance hcurrent, CodePoint.width,
      if_neg (by simp only [CodePoint.ofUnit]; omega)]

theorem eat_of_current (hm : m.In k) {c : CodePoint} (hc : m.window.cursor.current = some c) :
    eat c k.settings m = .done () { m with window := m.window.advance } := by
  have hc : m.window.cursor.eat? [c] = some m.window.cursor.advance := if_pos hc
  rw [eat, hm.within.filled.eat_eq (by simp), hc, hm.within.filled.advance_eq]

theorem eat_of_ne (hm : m.In k) {c : CodePoint} (hc : m.window.cursor.current ≠ some c) :
    eat c k.settings m = .miss m := by
  have hc : m.window.cursor.eat? [c] = none := if_neg hc
  rw [eat, hm.within.filled.eat_eq (by simp), hc]

/-- One step of the loop is one step of the scan. -/
theorem bodyFor_step {start : Nat} (fuel : Nat) (inClass escaped : Bool) {c : CodePoint}
    (hm : m.In k) (hc : m.window.cursor.current = some c) (hline : c.isLineTerminator = false)
    (hstar : m.window.index = start → c ≠ .ofChar '*') :
    bodyFor start (fuel + 1) inClass escaped k.settings m =
      match Literal.scanStep inClass escaped c with
      | some (inClass', escaped') =>
        bodyFor start fuel inClass' escaped' k.settings { m with window := m.window.advance }
      | none => .done () m := by
  have hstar : (c == .ofChar '*' && m.window.index == start) = false := by
    rw [Bool.and_eq_false_imp, beq_iff_eq, beq_eq_false_iff_ne]
    exact fun hc hindex => hstar hindex hc
  rw [bodyFor, peek_bind hm (by decide), Cursor.peek_zero, hc, Option.filter_some, hline,
    Bool.not_false, if_pos rfl, Literal.scanStep]
  dsimp only
  split
  · rfl
  split
  · rfl
  split
  · rfl
  split
  · rfl
  show (if _ || c == .ofChar '*' && m.window.index == start then _ else _ : Routine Unit) _ _ = _
  rw [hstar, Bool.or_false]
  split
  · rfl
  · rfl

/-- The place of a fault in a body that starts at the given offset. -/
def bodyFault (start : Nat) : Cause × Nat → Fault := fun (cause, position) =>
  ⟨cause, start + position⟩

/-- The loop comes to the length that the scan finds, and stops before the slash. -/
theorem bodyFor_answers {start fuel : Nat} (hpaired : k.paired = false) (hm : m.In k)
    (hfuel : m.window.cursor.remaining < fuel) (hstart : start ≤ m.window.index)
    (hstar : m.window.index = start → m.window.cursor.current ≠ some (.ofChar '*'))
    (inClass escaped : Bool) :
    Answers (fun length _ n => m.Ahead n ∧ n.window.index = start + length ∧
        n.window.cursor.current = some (.ofChar '/'))
      ((Literal.bodyLength inClass escaped m.window.cursor.ahead
        (m.window.index - start)).mapError (bodyFault start))
      (bodyFor start fuel inClass escaped k.settings m) := by
  induction fuel generalizing m inClass escaped with
  | zero => omega
  | succ fuel ih =>
    have hindex : start + (m.window.index - start) = m.window.index := Nat.add_sub_cancel' hstart
    -- the end of the text and the end of a line are the same to the scan
    have hend {o : Option CodePoint} (ho : o.filter (!·.isLineTerminator) = none)
        (hcurrent : m.window.cursor.current = o) :
        bodyFor start (fuel + 1) inClass escaped k.settings m =
          .fault (bodyFault start (if inClass then .unterminatedClass else .unterminatedLiteral,
            m.window.index - start)) := by
      rw [bodyFor, peek_bind hm (by decide), Cursor.peek_zero, hcurrent, ho, bodyFault, hindex]
      rfl
    cases hahead : m.window.cursor.ahead with
    | nil =>
      rw [hend rfl (Cursor.current_eq_none.mpr hahead), Literal.bodyLength]
      exact .error _
    | cons u rest =>
      obtain ⟨hcurrent, hrest, hnext⟩ := unit_ahead hm hpaired hahead
      rw [Literal.bodyLength_cons]
      cases hline : (CodePoint.ofUnit u).isLineTerminator with
      | true =>
        rw [hend (by rw [Option.filter_some, hline]; rfl) hcurrent]
        exact .error _
      | false =>
        have hstep := bodyFor_step fuel inClass escaped hm hcurrent hline
          fun h hc => hstar h (hc ▸ hcurrent)
        rw [hstep, if_neg Bool.false_ne_true]
        -- otherwise the loop and the function take the same step
        cases hscan : Literal.scanStep inClass escaped (.ofUnit u) with
        | none =>
          obtain rfl := Literal.eq_slash_of_scanStep hscan
          exact .ok ⟨.refl hm.within.filled, hindex.symm, hcurrent⟩
        | some step =>
          obtain ⟨inClass', escaped'⟩ := step
          have hahead := hm.ahead_advance
          have hless := hm.remaining_advance hcurrent
          have hgo := ih (m := { m with window := m.window.advance }) (hm.ahead hahead)
            (by simp only; omega) (by simp only; omega)
            (fun h => by simp only at h; omega) inClass' escaped'
          rw [hrest, hnext, Nat.sub_add_comm hstart] at hgo
          exact hgo.mono fun _ _ _ h => ⟨hahead.trans h.1, h.2⟩

/-- A slash or a star at the start ends the body at once, and then there is none. -/
theorem body_eq_miss (hm : m.In k) {c : CodePoint} (hc : m.window.cursor.current = some c)
    (hsign : c = .ofChar '/' ∨ c = .ofChar '*') : body k.settings m = .miss m := by
  have hfuel := hm.remaining_lt_fuel
  obtain ⟨fuel, hfuel⟩ : ∃ fuel, k.settings.fuel = fuel + 1 := ⟨k.settings.fuel - 1, by omega⟩
  have hfor : bodyFor m.window.index (fuel + 1) false false k.settings m = .done () m := by
    rw [bodyFor, peek_bind hm (by decide), Cursor.peek_zero, hc]
    rcases hsign with rfl | rfl
    · rfl
    · show (if m.window.index == m.window.index then _ else _ : Routine Unit) _ _ = _
      rw [beq_self_eq_true, if_pos rfl]
      rfl
  show ((bodyFor m.window.index k.settings.fuel false false >>= fun _ => index >>= fun i =>
    require (i != m.window.index)) k.settings m) = _
  rw [hfuel, bind_apply, hfor]
  show require (m.window.index != m.window.index) k.settings m = _
  rw [bne_self_eq_false]
  rfl

/-- The loop over the body of a literal stops where the scan does. -/
theorem body_answers (hpaired : k.paired = false) (hm : m.In k)
    (hslash : m.window.cursor.current ≠ some (.ofChar '/'))
    (hstar : m.window.cursor.current ≠ some (.ofChar '*')) :
    Answers (fun length _ n => m.Ahead n ∧ n.window.index = m.window.index + length ∧
        n.window.cursor.current = some (.ofChar '/'))
      ((Literal.bodyLength false false m.window.cursor.ahead 0).mapError
        (bodyFault m.window.index))
      (body k.settings m) := by
  have hfor := bodyFor_answers hpaired hm hm.remaining_lt_fuel (Nat.le_refl _) (fun _ => hstar)
    false false
  rw [Nat.sub_self] at hfor
  show Answers _ _ ((bodyFor m.window.index k.settings.fuel false false >>= fun _ => index >>=
    fun i => require (i != m.window.index)) k.settings m)
  rw [bind_apply]
  generalize (Literal.bodyLength false false m.window.cursor.ahead 0).mapError _ = x at hfor ⊢
  generalize bodyFor m.window.index k.settings.fuel false false k.settings m = y at hfor ⊢
  cases hfor with
  | error e => exact .error e
  | @ok length _ n h =>
    obtain ⟨hahead, hindex, hcurrent⟩ := h
    -- where nothing has been read, the slash would be the first character
    have hne : n.window.index ≠ m.window.index := by
      intro heq
      have hwindow : n.window = m.window := by
        rw [← hahead.back, ← heq, hahead.filled.rewind_index]
      exact hslash (hwindow ▸ hcurrent)
    show Answers _ _ (require (n.window.index != m.window.index) k.settings n)
    rw [bne_iff_ne.mpr hne]
    exact .ok ⟨hahead, hindex, hcurrent⟩

/-- Where a character has been refused, it is the fault. -/
theorem literalFault_eq (hm : m.In k) (hlt : k.slice.start < k.slice.stop) {c : CodePoint}
    (hc : m.window.cursor.current = some c) :
    (literalFault k.slice : Routine Nat) k.settings m =
      .fault ⟨.unexpectedCharacter c, m.window.index⟩ := by
  rw [literalFault, if_neg (by omega), peek_bind hm (by decide), Cursor.peek_zero, hc]
  rfl

/-- From behind the first slash on, the offset of the flags is found behind the second. -/
theorem closing_answers (hpaired : k.paired = false) (hm : m.In k)
    (hlt : k.slice.start < k.slice.stop) :
    Answers (fun length start n => start = m.window.index + length + 1 ∧ m.Ahead n)
      (match m.window.cursor.ahead.head?.filter
          fun v => (CodePoint.ofUnit v).isOneOf ['/', '*'] with
        -- an empty body or a star: the routine misses and reports what stands there
        | some v => .error ⟨.unexpectedCharacter (.ofUnit v), m.window.index⟩
        | none => (Literal.bodyLength false false m.window.cursor.ahead 0).mapError
          (bodyFault m.window.index))
      (((do body; eat '/'; index) <|> literalFault k.slice : Routine Nat) k.settings m) := by
  have hunit {u : CodeUnit} (hu : m.window.cursor.ahead.head? = some u) :
      m.window.cursor.current = some (.ofUnit u) := by
    obtain ⟨rest, hrest⟩ := List.head?_eq_some_iff.mp hu
    exact (unit_ahead hm hpaired hrest).1
  rw [orElse_apply, bind_apply]
  cases hhead : m.window.cursor.ahead.head?.filter _ with
  | some v =>
    obtain ⟨hv, hsign⟩ := Option.filter_eq_some_iff.mp hhead
    have hsign : CodePoint.ofUnit v = .ofChar '/' ∨ CodePoint.ofUnit v = .ofChar '*' := by
      rcases Literal.isOneOf_slash_star.mp hsign with rfl | rfl
      · exact .inl rfl
      · exact .inr rfl
    rw [body_eq_miss hm (hunit hv) hsign]
    dsimp only
    rw [literalFault_eq hm hlt (hunit hv)]
    exact .error _
  | none =>
    -- neither sign stands here, so the body is not empty
    have hne {c : CodePoint} (hsign : c.isOneOf ['/', '*'] = true) :
        m.window.cursor.current ≠ some c := by
      intro hc
      cases hu : m.window.cursor.ahead.head? with
      | none =>
        rw [Cursor.current_eq_none.mpr (List.head?_eq_none_iff.mp hu)] at hc
        cases hc
      | some u =>
        rw [hunit hu] at hc
        rw [hu, Option.filter_some, Option.some.inj hc, if_pos hsign] at hhead
        cases hhead
    have hbody := body_answers hpaired hm (hne (by decide)) (hne (by decide))
    dsimp only
    generalize (Literal.bodyLength false false m.window.cursor.ahead 0).mapError _ = x at hbody ⊢
    generalize body k.settings m = y at hbody ⊢
    cases hbody with
    | error e => exact .error e
    | @ok length _ n h =>
      obtain ⟨hahead, hindex, hcurrent⟩ := h
      have hn := hm.ahead hahead
      dsimp only
      rw [bind_apply, eat_of_current hn hcurrent]
      refine .ok ⟨?_, hahead.trans hn.ahead_advance⟩
      show n.window.advance.index = _
      rw [hn.index_advance hcurrent, hindex]
      rfl

/-- From the start of a slice, the offset of the flags is found behind the pattern. -/
theorem flagsStart_answers (hpaired : k.paired = false) (hm : m.In k)
    (hstart : m.window.index = k.slice.start) :
    Answers (fun length start n => start = k.slice.start + length + 2 ∧ m.Ahead n)
      (Literal.patternLength k.slice)
      (((do eat '/'; body; eat '/'; index) <|> literalFault k.slice : Routine Nat)
        k.settings m) := by
  have hcontent : m.window.cursor.ahead = k.slice.content := by
    rw [hm.within.cursor_eq, hstart]
    rfl
  have hremaining := hm.remaining
  rw [Cursor.remaining, hcontent, hstart] at hremaining
  rw [Literal.patternLength]
  -- an empty slice, one that begins with a slash, and any other
  cases hc : k.slice.content with
  | nil =>
    rw [hc] at hcontent hremaining
    have hstop : k.slice.stop ≤ k.slice.start := Nat.le_of_eq hremaining.symm
    have hnone : m.window.cursor.current = none := Cursor.current_eq_none.mpr hcontent
    rw [orElse_apply, bind_apply, eat_of_ne hm (by rw [hnone]; exact (Option.some_ne_none _).symm),
      literalFault]
    dsimp only
    rw [if_pos hstop, ← hstart]
    exact .error _
  | cons u rest =>
    rw [hc] at hcontent hremaining
    rw [List.length_cons] at hremaining
    obtain ⟨hcurrent, hrest, hnext⟩ := unit_ahead hm hpaired hcontent
    have hahead := hm.ahead_advance
    have hin := hm.ahead hahead
    dsimp only
    split
    · next hslash =>
      have hclosing := closing_answers hpaired hin (by omega)
      simp only [hrest, hnext, hstart] at hclosing
      rw [orElse_apply, bind_apply, eat_of_current hm (eq_of_beq hslash ▸ hcurrent)]
      exact hclosing.mono fun length start o h => ⟨by omega, hahead.trans h.2⟩
    · next hslash =>
      have hne : m.window.cursor.current ≠ some (.ofChar '/') := by
        rw [hcurrent]
        exact fun h => hslash (beq_iff_eq.mpr (Option.some.inj h))
      rw [orElse_apply, bind_apply, eat_of_ne hm hne]
      dsimp only
      rw [literalFault_eq hm (by omega) hcurrent, hstart]
      exact .error _

/-! ## Literals

The body is found first, then the flags are read and then the pattern, as the function does. -/

theorem check_answers {α : Type} (x : Except Fault α) (σ : Settings) (m : Memory) :
    Answers (fun a b n => b = a ∧ n = m) x (check x σ m) := by
  cases x with
  | ok a => exact .ok ⟨rfl, rfl⟩
  | error e => exact .error e

theorem patternLength_ordered (slice : Slice) :
    Literal.patternLength slice.ordered = Literal.patternLength slice := by
  rw [Literal.patternLength, Literal.patternLength, slice.content_ordered]
  rfl

/-- What is wrong with a slice that ends before it starts is what is wrong with an empty one. -/
theorem literalFault_ordered {α : Type} (slice : Slice) :
    (literalFault slice.ordered : Routine α) = literalFault slice := by
  have hiff : slice.ordered.stop ≤ slice.ordered.start ↔ slice.stop ≤ slice.start := by
    show max slice.start slice.stop ≤ slice.start ↔ _
    omega
  rw [literalFault, literalFault]
  simp only [hiff]

section

variable {o : Options} {slice : Slice} {σ : Settings} (hslice : slice.InText)
  (hfuel : slice.stop - slice.start < σ.fuel) (hdepth : σ.maxDepth = o.maxDepth)
  (hrule : m.scope.rule = Pattern.duplicateRule o.edition)

include hslice hfuel hdepth hrule

/-- The routine reads flags and pattern as the call does. -/
theorem finishLiteral_answers {length : Nat} (h : slice.start + length + 2 ≤ slice.stop) :
    Answers (fun l l' _ => l' = l) (Literal.readParts o slice length)
      (finishLiteral o slice (slice.start + length + 2) σ m) := by
  have hlength := hslice.stop_le_length
  refine (check_answers _ σ m).bind ?_
  rintro flags _ _ - ⟨rfl, rfl⟩
  refine Answers.bind (readPattern_answers ?_ ?_ hdepth hrule) ?_
  · exact ⟨by simp only; omega, by simp only; omega⟩
  · simp only
    omega
  · rintro p _ n - rfl
    exact .ok rfl

/-- The routine for literals answers what the call does. -/
theorem readLiteral_answers :
    Answers (fun l l' _ => l' = l) (Literal.read o slice) (readLiteral o slice σ m) := by
  let window := m.window.reset slice.text slice.start slice.stop false
  have hwithin : window.Over slice.ordered false := .reset _ _ _
  have hfuel' := slice.length_ordered ▸ hfuel
  have hremaining : window.cursor.remaining < σ.fuel := by
    have hremaining := hwithin.remaining hslice.ordered
    have hstart := hwithin.start_le
    omega
  have hfirst := flagsStart_answers
    (k := ⟨σ, slice.ordered, false, m.depth, σ.fuel, hslice.ordered, hfuel'⟩)
    (m := { m with window }) rfl ⟨hwithin, rfl, hremaining⟩ rfl
  rw [patternLength_ordered, literalFault_ordered] at hfirst
  show Answers _ (Literal.patternLength slice >>= _)
    ((((do eat '/'; body; eat '/'; index) <|> literalFault slice : Routine Nat) >>= _) σ
      { m with window })
  refine Answers.bind hfirst ?_
  rintro length _ n hlength ⟨rfl, hn⟩
  have hclosing := (Literal.delimited_of_patternLength hlength).le_stop
  exact finishLiteral_answers hslice hfuel hdepth (hn.scope ▸ hrule) hclosing

end

theorem readParts_answers {o : Options} {source flags : Text} {σ : Settings}
    (hfuel : (Literal.join source flags).length < σ.fuel) (hdepth : σ.maxDepth = o.maxDepth)
    (hrule : m.scope.rule = Pattern.duplicateRule o.edition) :
    Answers (fun l l' _ => l' = l)
      (Literal.readParts o (.whole (Literal.join source flags)) source.length)
      (readParts o source flags σ m) := by
  let slice := Slice.whole (Literal.join source flags)
  let window := m.window.reset slice.text slice.start slice.stop false
  have hlength : 0 + source.length + 2 = source.length + 2 := by omega
  have hfinish := finishLiteral_answers (m := { m with window }) (Slice.valid_whole _).inText
    (show slice.stop - slice.start < σ.fuel from hfuel) hdepth hrule
    (Literal.delimited_join source flags).le_stop
  show Answers _ _ (finishLiteral o slice (source.length + 2) σ { m with window })
  rw [← hlength]
  exact hfinish

end Routine

end EcmaPattern
