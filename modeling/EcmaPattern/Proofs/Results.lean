import EcmaPattern.Parse

/-!
# Results of calls

A call has a value or an error. On the way to its caller an error is reworded: a fault becomes a
diagnostic, or the bare failure of a number that is too long.
-/

namespace EcmaPattern

/-! ## Values and errors

How `Except` is taken apart, in the same manner as parsers are. The lemmas that start from `isOk` or
from a Boolean test are for runs on fixed inputs, which can be evaluated. -/

theorem Except.mapError_eq_ok {ε ε' α : Type} {f : ε → ε'} {x : Except ε α} {a : α} :
    x.mapError f = .ok a ↔ x = .ok a := by
  cases x with
  | error e => exact ⟨nofun, nofun⟩
  | ok b =>
    show (Except.ok b : Except ε' α) = .ok a ↔ _
    rw [Except.ok.injEq, Except.ok.injEq]

theorem Except.bind_eq_ok {ε α β : Type} {x : Except ε α} {f : α → Except ε β} {b : β} :
    (x >>= f) = .ok b ↔ ∃ a, x = .ok a ∧ f a = .ok b := by
  cases x with
  | error e => simp [bind, Except.bind]
  | ok a => simp [bind, Except.bind]

theorem Except.map_eq_ok {ε α β : Type} {f : α → β} {x : Except ε α} {b : β} :
    f <$> x = .ok b ↔ ∃ a, x = .ok a ∧ f a = b := by
  cases x with
  | error e => simp [Functor.map, Except.map]
  | ok a => simp [Functor.map, Except.map]

/-- Errors can be changed step by step or at the end. -/
theorem Except.mapError_bind {ε ε' α β : Type} (x : Except ε α) (f : α → Except ε β) (g : ε → ε') :
    (x >>= f).mapError g = x.mapError g >>= fun a => (f a).mapError g := by
  cases x <;> rfl

/-- A call that can be evaluated to a value has one. -/
theorem Except.exists_eq_ok {ε α : Type} {x : Except ε α} (h : x.isOk = true) :
    ∃ a, x = .ok a := by
  cases x with
  | error e => cases h
  | ok a => exact ⟨a, rfl⟩

theorem Except.ne_error_of_isOk {ε α : Type} {x : Except ε α} {e : ε} (h : x.isOk = true) :
    x ≠ .error e := by
  rintro rfl
  cases h

theorem Except.not_exists_ok_of_error {ε α : Type} {e : ε} :
    ¬ ∃ a : α, (Except.error e : Except ε α) = .ok a := by
  rintro ⟨a, ⟨⟩⟩

/-- A call that can be evaluated has a value that passes a test. -/
theorem Except.exists_eq_ok_of_any {ε α : Type} {x : Except ε α} {test : α → Bool}
    (h : x.toOption.any test = true) : ∃ a, x = .ok a ∧ test a = true := by
  cases x with
  | error e => cases h
  | ok a => exact ⟨a, rfl, h⟩

theorem Except.mapError_eq_error {ε ε' α : Type} {f : ε → ε'} {x : Except ε α} {e' : ε'} :
    x.mapError f = .error e' ↔ ∃ e, x = .error e ∧ f e = e' := by
  cases x with
  | error e =>
    show (Except.error (f e) : Except ε' α) = .error e' ↔ _
    simp
  | ok a => exact ⟨nofun, nofun⟩

/-- Two calls in a row end in an error of the first or of the second. -/
theorem Except.bind_eq_error {ε α β : Type} {x : Except ε α} {f : α → Except ε β} {e : ε} :
    (x >>= f) = .error e ↔ x = .error e ∨ ∃ a, x = .ok a ∧ f a = .error e := by
  cases x with
  | error e' => simp [bind, Except.bind]
  | ok a => simp [bind, Except.bind]

theorem Except.exists_eq_error {ε α : Type} {x : Except ε α} (h : x.isOk = false) :
    ∃ e, x = .error e := by
  cases x with
  | error e => exact ⟨e, rfl⟩
  | ok a => cases h

/-! ## What becomes of a fault

A fault is reported as a diagnostic, with one exception: that a number is too long is reported
without one. `Failure.eq_of_ofFault` and `Failure.ofFault_eq_tooManyDigits` tell the two apart. -/

/-- A diagnostic of a fault says what was found. -/
theorem Failure.eq_of_ofFault {source : Option Text} {f : Fault} {d : Diagnostic}
    (h : ofFault source f = .diagnostic d) : Diagnostic.ofFault source f = d := by
  rw [ofFault] at h
  split at h
  · cases h
  · cases h
    rfl

/-- Only a number that is too long makes a call end without a diagnostic. -/
theorem Failure.ofFault_eq_tooManyDigits {source : Option Text} {f : Fault} {n : Nat} :
    ofFault source f = .tooManyDigits n ↔ f.cause = .tooManyDigits n := by
  rw [ofFault]
  split
  · next hcause => simp [hcause]
  · next hne => exact ⟨nofun, fun h => absurd h (hne n)⟩

/-- Whatever becomes of a fault, the words for it are those of its cause. -/
theorem Failure.message_ofFault (source : Option Text) (f : Fault) :
    (ofFault source f).message = f.cause.message := by
  rw [ofFault]
  split
  · next hcause => rw [hcause]; rfl
  · rfl

def Except.isDiagnostic {α : Type} : Except Failure α → Bool
  | .error (.diagnostic _) => true
  | _ => false

theorem Except.exists_eq_diagnostic {α : Type} {x : Except Failure α}
    (h : Except.isDiagnostic x = true) : ∃ d, x = .error (.diagnostic d) := by
  match x with
  | .error (.diagnostic d) => exact ⟨d, rfl⟩
  | .error (.tooManyDigits _) => cases h
  | .ok _ => cases h

end EcmaPattern
