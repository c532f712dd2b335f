import Mathlib.Data.List.Nodup
import Mathlib.Data.Nat.Find
import EcmaPattern.Proofs.Results

/-!
# Texts of flags

Flags are read from left to right. What decides about a letter is the letters before it: those that
have been seen, with their positions, are the prefix that has been read (`Recorded`), so a letter
that stood before is told from one that is unknown, and the first of either kind is reported. Only a
text without any is looked over for `u` and `v` together. Main statement: `flags_read_exactly`.
-/

namespace EcmaPattern

/-! ## Letters

Which letters an edition has, and the first position of a text at which a letter is refused. -/

namespace Flag

theorem ofLetter?_letter (f : Flag) : ofLetter? (.ofChar f.letter) = some f := by
  cases f <;> decide

/-- Only its own letter stands for a flag. -/
theorem eq_of_ofLetter? {c : CodePoint} {f : Flag} (h : ofLetter? c = some f) :
    c = .ofChar f.letter := by
  rw [ofLetter?] at h
  have hletter := List.find?_some h
  exact (eq_of_beq hletter).symm

theorem eq_of_letter {f f' : Flag} (h : CodePoint.ofChar f.letter = .ofChar f'.letter) :
    f = f' := by
  have hf := ofLetter?_letter f
  rw [h, ofLetter?_letter] at hf
  exact (Option.some.inj hf).symm

theorem encode_letter (f : Flag) : (CodePoint.ofChar f.letter).encode.length = 1 := by
  cases f <;> decide

end Flag

/-- The letter is that of a flag, and the edition has the flag. -/
def Edition.HasLetter (e : Edition) (c : CodePoint) : Prop :=
  ∃ f : Flag, c = .ofChar f.letter ∧ f.availableIn e = true

/-- The letter at the position is unknown to the edition, or it stood before. -/
def Edition.RefusesAt (e : Edition) (cs : List CodePoint) (k : Nat) : Prop :=
  ∃ c, cs[k]? = some c ∧ (c ∈ cs.take k ∨ ¬ e.HasLetter c)

/-- Letters of flags that the edition has, each of them once. -/
structure Edition.Admits (e : Edition) (cs : List CodePoint) : Prop where
  nodup : cs.Nodup
  hasLetter : ∀ c ∈ cs, e.HasLetter c

namespace Edition

variable {e : Edition} {cs ds : List CodePoint}

theorem Admits.append_left (h : e.Admits (cs ++ ds)) : e.Admits cs :=
  ⟨List.Nodup.of_append_left h.nodup, fun c hc => h.hasLetter c (List.mem_append_left ds hc)⟩

/-- In which order the letters stand does not matter. -/
theorem Admits.perm (h : e.Admits cs) (hp : ds.Perm cs) : e.Admits ds :=
  ⟨hp.nodup_iff.mpr h.nodup, fun c hc => h.hasLetter c (hp.mem_iff.mp hc)⟩

/-- Letters of flags are one unit each. -/
theorem Admits.length_ofCodePoints (h : e.Admits cs) :
    (Text.ofCodePoints cs).length = cs.length := by
  induction cs with
  | nil => rfl
  | cons c cs ih =>
    obtain ⟨f, rfl, -⟩ := h.hasLetter c List.mem_cons_self
    have hcs : e.Admits cs := ⟨h.nodup.of_cons, fun d hd => h.hasLetter d (.tail _ hd)⟩
    have hlength : (Text.ofCodePoints (.ofChar f.letter :: cs)).length =
        (CodePoint.ofChar f.letter).encode.length + (Text.ofCodePoints cs).length :=
      List.length_append
    rw [hlength, f.encode_letter, ih hcs, List.length_cons, Nat.add_comm]

/-- Letters are admitted as far as none of them is refused. -/
theorem admits_take {k : Nat} (hk : k ≤ cs.length) :
    e.Admits (cs.take k) ↔ ∀ j < k, ¬ e.RefusesAt cs j := by
  induction k with
  | zero => exact ⟨fun _ _ hj => absurd hj (Nat.not_lt_zero _), fun _ => ⟨List.nodup_nil, nofun⟩⟩
  | succ k ih =>
    have ih := ih (Nat.le_of_succ_le hk)
    -- the longer prefix has one letter more, and it decides the last index
    have htake : cs.take (k + 1) = cs.take k ++ [cs[k]] := List.take_succ_eq_append_getElem hk
    have hget : cs[k]? = some cs[k] := List.getElem?_eq_getElem hk
    constructor
    · intro h j hj
      rw [htake] at h
      rcases Nat.lt_succ_iff_lt_or_eq.mp hj with hj | rfl
      · exact ih.mp h.append_left j hj
      · rintro ⟨c, hc, hrefused⟩
        obtain rfl : cs[j] = c := Option.some.inj (hget.symm.trans hc)
        rcases hrefused with hmem | hletter
        · exact (List.nodup_append.mp h.nodup).2.2 _ hmem _ (List.mem_singleton.mpr rfl) rfl
        · exact hletter (h.hasLetter _ (List.mem_append_right _ (List.mem_singleton.mpr rfl)))
    · intro h
      have hbefore := ih.mpr fun j hj => h j (Nat.lt_succ_of_lt hj)
      have hlast := h k (Nat.lt_succ_self k)
      have hnew : cs[k] ∉ cs.take k := fun hmem => hlast ⟨_, hget, .inl hmem⟩
      have hletter : e.HasLetter cs[k] := by
        by_contra hno
        exact hlast ⟨_, hget, .inr hno⟩
      rw [htake]
      refine ⟨List.Nodup.append hbefore.nodup (List.nodup_singleton _) ?_, fun c hc => ?_⟩
      · rintro c hc hc'
        exact hnew (List.mem_singleton.mp hc' ▸ hc)
      · rcases List.mem_append.mp hc with hc | hc
        · exact hbefore.hasLetter c hc
        · rw [List.mem_singleton.mp hc]
          exact hletter

/-- Letters are admitted if none of them is refused where it stands. -/
theorem admits_iff : e.Admits cs ↔ ∀ k, ¬ e.RefusesAt cs k := by
  have htake := admits_take (e := e) (Nat.le_refl cs.length)
  rw [List.take_length] at htake
  rw [htake]
  constructor
  · rintro h k ⟨c, hc, hrefused⟩
    exact h k (List.getElem?_eq_some_iff.mp hc).1 ⟨c, hc, hrefused⟩
  · exact fun h k _ => h k

/-- If letters are not admitted, there is a first one that is refused. -/
theorem exists_first_refused (h : ¬ e.Admits cs) :
    ∃ k, e.RefusesAt cs k ∧ e.Admits (cs.take k) := by
  classical
  rw [admits_iff] at h
  push Not at h
  have hleast : ∀ j < Nat.find h, ¬ e.RefusesAt cs j := fun j hj => Nat.find_min h hj
  obtain ⟨c, hc, -⟩ := id (Nat.find_spec h)
  exact ⟨Nat.find h, Nat.find_spec h,
    (admits_take (Nat.le_of_lt (List.getElem?_eq_some_iff.mp hc).1)).mpr hleast⟩

end Edition

/-! ## One letter

The set of flags is a list of letters with positions, so what has been seen can be read off it. -/

namespace FlagSet

variable {e : Edition} {cs before mid : List CodePoint} {seen : List (Flag × Nat)}

/-- What has been seen is the letters that were read, each at its position. -/
structure Recorded (before : List CodePoint) (seen : List (Flag × Nat)) : Prop where
  letters : seen.map (fun x => CodePoint.ofChar x.1.letter) = before
  offsets : seen.map (·.2) = List.range before.length

theorem recorded_nil : Recorded [] [] := ⟨rfl, rfl⟩

/-- A flag has been seen if its letter has been read. -/
theorem Recorded.mem_iff (h : Recorded before seen) {f : Flag} :
    seen.any (·.1 == f) = true ↔ .ofChar f.letter ∈ before := by
  rw [← h.letters, List.any_eq_true, List.mem_map]
  constructor
  · rintro ⟨x, hx, heq⟩
    exact ⟨x, hx, by rw [eq_of_beq heq]⟩
  · rintro ⟨x, hx, heq⟩
    exact ⟨x, hx, beq_iff_eq.mpr (Flag.eq_of_letter heq)⟩

/-- The offset of a flag that was seen is that of its letter. -/
theorem Recorded.getElem?_of_offset? (h : Recorded before seen) {f : Flag} {n : Nat}
    (hn : offset? seen f = some n) : before[n]? = some (.ofChar f.letter) := by
  obtain ⟨l, r, hsplit, -⟩ := List.lookup_eq_some_iff.mp hn
  have hletter := congrArg (·[l.length]?) h.letters
  have hoffset := congrArg (·[l.length]?) h.offsets
  simp only [hsplit, List.map_append, List.map_cons] at hletter hoffset
  rw [List.getElem?_append_right (by simp), List.length_map, Nat.sub_self,
    List.getElem?_cons_zero] at hletter hoffset
  obtain ⟨hlt, heq⟩ := List.getElem?_eq_some_iff.mp hoffset.symm
  rw [List.getElem_range] at heq
  rw [← heq, ← hletter]

theorem Recorded.offset?_eq_none (h : Recorded before seen) {f : Flag} :
    offset? seen f = none ↔ .ofChar f.letter ∉ before := by
  rw [offset?, List.lookup_eq_none_iff, ← h.mem_iff, List.any_eq_true]
  constructor
  · rintro hall ⟨x, hx, heq⟩
    have hne := hall x hx
    rw [eq_of_beq heq] at hne
    simp at hne
  · intro hno x hx
    rw [bne_iff_ne, ne_eq]
    rintro rfl
    exact hno ⟨x, hx, beq_self_eq_true _⟩

/-- A letter of a flag that has not been seen goes to those that have. -/
theorem collect_admitted (h : Recorded before seen) {f : Flag} (hnew : .ofChar f.letter ∉ before)
    (hf : f.availableIn e = true) (rest : List CodePoint) :
    collect e seen before.length (.ofChar f.letter :: rest) =
      collect e (seen ++ [(f, before.length)]) (before.length + 1) rest := by
  rw [collect]
  simp only [Flag.ofLetter?_letter]
  rw [if_neg fun hany => hnew (h.mem_iff.mp hany), if_pos hf]

/-- A flag is recorded at the position of its letter. -/
theorem Recorded.snoc (h : Recorded before seen) (f : Flag) :
    Recorded (before ++ [.ofChar f.letter]) (seen ++ [(f, before.length)]) := by
  constructor
  · rw [List.map_append, h.letters]
    rfl
  · rw [List.map_append, h.offsets, List.length_append]
    exact List.range_succ.symm

/-- A letter that is refused ends the reading: it stood before, or else it is unknown. -/
theorem collect_refused (h : Recorded before seen) {c : CodePoint}
    (hc : c ∈ before ∨ ¬ e.HasLetter c) (rest : List CodePoint) :
    c ∈ before ∧
        collect e seen before.length (c :: rest) = .error ⟨.duplicatedFlag c, before.length⟩ ∨
      c ∉ before ∧
        collect e seen before.length (c :: rest) = .error ⟨.invalidFlag c, before.length⟩ := by
  rw [collect]
  cases hf : Flag.ofLetter? c with
  | none =>
    have hnew : c ∉ before := by
      rw [← h.letters, List.mem_map]
      rintro ⟨x, -, rfl⟩
      rw [Flag.ofLetter?_letter] at hf
      cases hf
    exact .inr ⟨hnew, rfl⟩
  | some f =>
    obtain rfl := Flag.eq_of_ofLetter? hf
    dsimp only
    by_cases hmem : .ofChar f.letter ∈ before
    · rw [if_pos (h.mem_iff.mpr hmem)]
      exact .inl ⟨hmem, rfl⟩
    · have hunavailable : ¬ f.availableIn e = true := by
        intro havailable
        exact (hc.resolve_left hmem) ⟨f, rfl, havailable⟩
      rw [if_neg fun hany => hmem (h.mem_iff.mp hany), if_neg hunavailable]
      exact .inr ⟨hmem, rfl⟩

/-! ## All letters

By induction on the text, with what has been recorded as the invariant. -/

/-- Letters that are admitted are read one after the other. -/
theorem collect_append (h : Recorded before seen) (hadmits : e.Admits (before ++ mid)) :
    ∃ seen', Recorded (before ++ mid) seen' ∧ ∀ rest,
      collect e seen before.length (mid ++ rest) = collect e seen' (before ++ mid).length rest := by
  induction mid generalizing before seen with
  | nil =>
    rw [List.append_nil]
    exact ⟨seen, h, fun _ => rfl⟩
  | cons c mid ih =>
    have hsplit : before ++ c :: mid = (before ++ [c]) ++ mid := by
      rw [List.append_assoc, List.singleton_append]
    obtain ⟨f, rfl, hf⟩ := hadmits.hasLetter c (List.mem_append_right _ List.mem_cons_self)
    have hnew : CodePoint.ofChar f.letter ∉ before := fun hmem =>
      (List.nodup_append.mp hadmits.nodup).2.2 _ hmem _ List.mem_cons_self rfl
    rw [hsplit] at hadmits ⊢
    obtain ⟨seen', hrecorded, hrun⟩ := ih (h.snoc f) hadmits
    refine ⟨seen', hrecorded, fun rest => ?_⟩
    rw [List.cons_append, collect_admitted h hnew hf, ← hrun, List.length_append]
    rfl

/-- Letters that are admitted are all read. -/
theorem collect_of_admits (h : e.Admits cs) : ∃ seen, Recorded cs seen ∧
    collect e [] 0 cs = .ok seen := by
  obtain ⟨seen, hrecorded, hrun⟩ := collect_append recorded_nil h
  refine ⟨seen, hrecorded, ?_⟩
  have hend := hrun []
  rwa [List.append_nil] at hend

/-- The first letter that is refused is the fault. -/
theorem collect_of_refusesAt {k : Nat} {c : CodePoint} (hc : cs[k]? = some c)
    (hrefused : c ∈ cs.take k ∨ ¬ e.HasLetter c) (hadmits : e.Admits (cs.take k)) :
    c ∈ cs.take k ∧ collect e [] 0 cs = .error ⟨.duplicatedFlag c, k⟩ ∨
      c ∉ cs.take k ∧ collect e [] 0 cs = .error ⟨.invalidFlag c, k⟩ := by
  obtain ⟨hk, rfl⟩ := List.getElem?_eq_some_iff.mp hc
  obtain ⟨seen, hrecorded, hrun⟩ := collect_append recorded_nil hadmits
  have hlength : (cs.take k).length = k := List.length_take_of_le (Nat.le_of_lt hk)
  have hsplit : cs = cs.take k ++ cs[k] :: cs.drop (k + 1) := by
    rw [← List.drop_eq_getElem_cons hk, List.take_append_drop]
  have hrun := hrun (cs[k] :: cs.drop (k + 1))
  rw [← hsplit, List.nil_append] at hrun
  have hstop := collect_refused hrecorded hrefused (cs.drop (k + 1))
  rw [List.nil_append, hlength] at hstop
  rw [hlength] at hrun
  rw [← hrun] at hstop
  exact hstop

/-! ## Sets of flags

The flags that are told are those whose letters stand in the text. -/

def has (s : FlagSet) : Flag → Bool
  | .indices => s.indices
  | .global => s.global
  | .ignoreCase => s.ignoreCase
  | .multiline => s.multiline
  | .dotAll => s.dotAll
  | .unicode => s.unicode
  | .unicodeSets => s.unicodeSets
  | .sticky => s.sticky

theorem has_ofList (fs : List Flag) (f : Flag) : (ofList fs).has f = fs.contains f := by
  cases f <;> rfl

/-- A set of flags is known by which flags it has. -/
theorem ext_has {s s' : FlagSet} (h : ∀ f, s.has f = s'.has f) : s = s' := by
  obtain ⟨a, b, c, d, e, f, g, i⟩ := s
  have h₁ := h .indices
  have h₂ := h .global
  have h₃ := h .ignoreCase
  have h₄ := h .multiline
  have h₅ := h .dotAll
  have h₆ := h .unicode
  have h₇ := h .unicodeSets
  have h₈ := h .sticky
  simp only [has] at h₁ h₂ h₃ h₄ h₅ h₆ h₇ h₈
  subst h₁ h₂ h₃ h₄ h₅ h₆ h₇ h₈
  rfl

/-- The set that is read has the flags whose letters were read. -/
theorem Recorded.has_ofList (h : Recorded before seen) (f : Flag) :
    (ofList (seen.map (·.1))).has f = true ↔ .ofChar f.letter ∈ before := by
  rw [FlagSet.has_ofList, ← h.mem_iff, List.contains_iff_mem, List.mem_map, List.any_eq_true]
  simp only [beq_iff_eq]

end FlagSet

/-! ## Answers -/

/-- What is wrong with letters, where, and how it is reported. The first letter that stood before or
is unknown comes before all else; only without one is it looked for `u` and `v` together. -/
inductive FlagFault (e : Edition) (cs : List CodePoint) : Nat → Text → Prop
  | duplicated {k : Nat} {c : CodePoint} (hfirst : ∀ j < k, ¬ e.RefusesAt cs j)
      (hc : cs[k]? = some c) (hseen : c ∈ cs.take k) :
      FlagFault e cs k (Cause.naming "Duplicated flag" c)
  | invalid {k : Nat} {c : CodePoint} (hfirst : ∀ j < k, ¬ e.RefusesAt cs j)
      (hc : cs[k]? = some c) (hnew : c ∉ cs.take k) (hunknown : ¬ e.HasLetter c) :
      FlagFault e cs k (Cause.naming "Invalid flag" c)
  | conflict {i j : Nat} (hall : ∀ k, ¬ e.RefusesAt cs k) (hu : cs[i]? = some (.ofChar 'u'))
      (hv : cs[j]? = some (.ofChar 'v')) :
      FlagFault e cs (max i j) (.ofString "Invalid regular expression flags")

namespace FlagFault

variable {e : Edition} {cs : List CodePoint} {k : Nat} {message : Text}

/-- Before the letter that is at fault, all is well. -/
theorem admits_take (h : FlagFault e cs k message) : k ≤ cs.length ∧ e.Admits (cs.take k) := by
  have hle : ∀ {i : Nat} {c : CodePoint}, cs[i]? = some c → i ≤ cs.length := fun hc =>
    Nat.le_of_lt (List.getElem?_eq_some_iff.mp hc).1
  cases h with
  | duplicated hfirst hc => exact ⟨hle hc, (Edition.admits_take (hle hc)).mpr hfirst⟩
  | invalid hfirst hc => exact ⟨hle hc, (Edition.admits_take (hle hc)).mpr hfirst⟩
  | conflict hall hu hv =>
    have hmax := Nat.max_le.mpr ⟨hle hu, hle hv⟩
    exact ⟨hmax, (Edition.admits_take hmax).mpr fun k _ => hall k⟩

/-- The letters before a fault are one unit each, so that its position is an offset. -/
theorem length_take (h : FlagFault e cs k message) :
    (Text.ofCodePoints (cs.take k)).length = k := by
  obtain ⟨hle, hadmits⟩ := h.admits_take
  rw [hadmits.length_ofCodePoints, List.length_take_of_le hle]

theorem not_admits (h : FlagFault e cs k message)
    (hno : ¬ (.ofChar 'u' ∈ cs ∧ .ofChar 'v' ∈ cs)) : ¬ e.Admits cs := by
  intro hadmits
  have hall := Edition.admits_iff.mp hadmits
  cases h with
  | duplicated _ hc hseen => exact hall k ⟨_, hc, .inl hseen⟩
  | invalid _ hc _ hunknown => exact hall k ⟨_, hc, .inr hunknown⟩
  | conflict _ hu hv => exact hno ⟨List.mem_of_getElem? hu, List.mem_of_getElem? hv⟩

end FlagFault

/-! ## Causes of faults

A fault of flags has one of three causes, and none of them is a cause that patterns have. -/

/-- Whether it is about flags. A letter can stand twice in modifiers, too. -/
def Cause.isOfFlags : Cause → Bool
  | .conflictingFlags | .invalidFlag _ | .duplicatedFlag _ => true
  | _ => false

theorem FlagSet.cause_of_collect {e : Edition} {seen : List (Flag × Nat)} {index : Nat}
    {cs : List CodePoint} {f : Fault} (h : collect e seen index cs = .error f) :
    f.cause.isOfFlags = true := by
  induction cs generalizing seen index with
  | nil => cases h
  | cons c rest ih =>
    rw [collect] at h
    split at h
    · cases h
      rfl
    · split at h
      · cases h
        rfl
      · split at h
        · exact ih h
        · cases h
          rfl

/-- What is wrong with flags is about flags. -/
theorem FlagSet.cause_of_read {e : Edition} {letters : List CodePoint} {f : Fault}
    (h : read e letters = .error f) : f.cause.isOfFlags = true := by
  rw [read, Except.bind_eq_error] at h
  rcases h with h | ⟨seen, -, h⟩
  · exact cause_of_collect h
  · split at h
    · cases h
      rfl
    · cases h

/-! ## Answers -/

section Answers

variable {e : Edition} {offset : Int} {source : Option Text} {cs : List CodePoint}
  {seen : List (Flag × Nat)}

/-- Letters that are not admitted are reported as a fault of flags. -/
theorem readFlags_of_refused (h : ¬ e.Admits cs) :
    ∃ k message, FlagFault e cs k message ∧
      readFlags e offset source cs = .error ⟨false, message, offset + k, source⟩ := by
  obtain ⟨k, ⟨c, hc, hrefused⟩, hadmits⟩ := Edition.exists_first_refused h
  have hk := Nat.le_of_lt (List.getElem?_eq_some_iff.mp hc).1
  have hfirst := (Edition.admits_take hk).mp hadmits
  rcases FlagSet.collect_of_refusesAt hc hrefused hadmits with ⟨hseen, hread⟩ | ⟨hseen, hread⟩
  · refine ⟨k, _, .duplicated hfirst hc hseen, ?_⟩
    rw [readFlags, FlagSet.read, hread]
    rfl
  · refine ⟨k, _, .invalid hfirst hc hseen (hrefused.resolve_left hseen), ?_⟩
    rw [readFlags, FlagSet.read, hread]
    rfl

/-- Once the letters have been read, only `u` and `v` are looked for. -/
theorem readFlags_of_collect (offset : Int) (source : Option Text)
    (h : FlagSet.collect e [] 0 cs = .ok seen) :
    readFlags e offset source cs =
      match FlagSet.offset? seen .unicode, FlagSet.offset? seen .unicodeSets with
      | some u, some v => .error ⟨false, .ofString "Invalid regular expression flags",
          offset + (max u v : Nat), source⟩
      | _, _ => .ok (.ofList (seen.map (·.1))) := by
  rw [readFlags, FlagSet.read, h]
  show (match FlagSet.offset? seen .unicode, FlagSet.offset? seen .unicodeSets with
    | some u, some v => throw ⟨.conflictingFlags, max u v⟩
    | _, _ => return FlagSet.ofList (seen.map (·.1)) : Except Fault FlagSet).mapError _ = _
  cases FlagSet.offset? seen .unicode with
  | none => rfl
  | some u => cases FlagSet.offset? seen .unicodeSets <;> rfl

/-- Letters are answered with their flags, or with what is wrong with them. -/
theorem readFlags_cases (e : Edition) (offset : Int) (source : Option Text) (cs : List CodePoint) :
    (∃ set, e.Admits cs ∧ ¬ (.ofChar 'u' ∈ cs ∧ .ofChar 'v' ∈ cs) ∧
      (∀ f, set.has f = true ↔ .ofChar f.letter ∈ cs) ∧
      readFlags e offset source cs = .ok set) ∨
    ∃ k message, FlagFault e cs k message ∧
      readFlags e offset source cs = .error ⟨false, message, offset + k, source⟩ := by
  by_cases hadmits : e.Admits cs
  · obtain ⟨seen, hrecorded, hseen⟩ := FlagSet.collect_of_admits hadmits
    have hread := readFlags_of_collect offset source hseen
    cases hu : FlagSet.offset? seen .unicode with
    | none =>
      rw [hu] at hread
      refine .inl ⟨_, hadmits, ?_, hrecorded.has_ofList, hread⟩
      exact fun h => hrecorded.offset?_eq_none.mp hu h.1
    | some i =>
      cases hv : FlagSet.offset? seen .unicodeSets with
      | none =>
        rw [hu, hv] at hread
        refine .inl ⟨_, hadmits, ?_, hrecorded.has_ofList, hread⟩
        exact fun h => hrecorded.offset?_eq_none.mp hv h.2
      | some j =>
        rw [hu, hv] at hread
        exact .inr ⟨max i j, _, .conflict (Edition.admits_iff.mp hadmits)
          (hrecorded.getElem?_of_offset? hu) (hrecorded.getElem?_of_offset? hv), hread⟩
  · exact .inr (readFlags_of_refused hadmits)

end Answers

/-- Flags are read if no letter stands twice, the edition has each of them, and `u` and `v` do not
stand together. They are then those of the letters, in whatever order these stand. Otherwise what
is wrong with the letters is reported, at an offset that counts from the given one. -/
theorem flags_read_exactly (e : Edition) (offset : Int) (source : Option Text)
    (cs : List CodePoint) :
    ((readFlags e offset source cs).isOk = true ↔
      cs.Nodup ∧ (∀ c ∈ cs, e.HasLetter c) ∧ ¬ (.ofChar 'u' ∈ cs ∧ .ofChar 'v' ∈ cs)) ∧
    (∀ set, readFlags e offset source cs = .ok set →
      (∀ f, set.has f = true ↔ .ofChar f.letter ∈ cs) ∧
      ∀ offset' source' cs', cs'.Perm cs → readFlags e offset' source' cs' = .ok set) ∧
    ∀ d, readFlags e offset source cs = .error d →
      d.source = source ∧ d.nesting = false ∧
        ∃ k : Nat, d.index = offset + k ∧ FlagFault e cs k d.message ∧
          (Text.ofCodePoints (cs.take k)).length = k := by
  refine ⟨?_, ?_, ?_⟩
  · rcases readFlags_cases e offset source cs with ⟨set, hadmits, hno, -, h⟩ | ⟨k, m, hfault, h⟩
    · rw [h]
      exact ⟨fun _ => ⟨hadmits.nodup, hadmits.hasLetter, hno⟩, fun _ => rfl⟩
    · rw [h]
      exact ⟨nofun, fun ⟨hnodup, hletter, hno⟩ =>
        absurd ⟨hnodup, hletter⟩ (hfault.not_admits hno)⟩
  · intro set hset
    rcases readFlags_cases e offset source cs with ⟨set', hadmits, hno, hhas, h⟩ | ⟨k, m, -, h⟩
    · obtain rfl : set' = set := Except.ok.inj (h.symm.trans hset)
      refine ⟨hhas, fun offset' source' cs' hperm => ?_⟩
      -- the same letters in another order cannot be refused, since what refuses them is not
      -- admitted
      rcases readFlags_cases e offset' source' cs' with ⟨set, -, -, hhas', h'⟩ | ⟨k, m, hfault, -⟩
      · have heq : set = set' := FlagSet.ext_has fun f => by
          rw [Bool.eq_iff_iff, hhas, hhas', hperm.mem_iff]
        rw [h', heq]
      · rw [← hperm.mem_iff, ← hperm.mem_iff] at hno
        exact absurd (hadmits.perm hperm) (hfault.not_admits hno)
    · rw [h] at hset
      cases hset
  · intro d hd
    rcases readFlags_cases e offset source cs with ⟨set, -, -, -, h⟩ | ⟨k, m, hfault, h⟩
    · rw [h] at hd
      cases hd
    · obtain rfl := Except.error.inj (h.symm.trans hd)
      exact ⟨rfl, rfl, k, rfl, hfault, hfault.length_take⟩

/-- In the second list, the halves of a pair stand for themselves. -/
theorem flags_read_exactly_in_any_order :
    (∃ set, readFlags .es2024 0 none ['g', 'i', 'v'] = .ok set ∧ set.has .unicodeSets = true ∧
      readFlags .es2024 (-7) (some []) ['v', 'g', 'i'] = .ok set) ∧
    (∃ d, readFlags .es2025 (-5) (some []) ['g', .ofUnit 0xD83D, .ofUnit 0xDE00] = .error d ∧
      d.source = some [] ∧ ∃ k : Nat, d.index = -5 + k ∧
        FlagFault .es2025 ['g', .ofUnit 0xD83D, .ofUnit 0xDE00] k d.message) ∧
    ∃ d, readFlags .es2025 3 none ['g', 'v', 'u'] = .error d ∧
      ∃ k : Nat, d.index = 3 + k ∧ FlagFault .es2025 ['g', 'v', 'u'] k d.message := by
  refine ⟨?_, ?_, ?_⟩
  · obtain ⟨set, hset⟩ : ∃ set, readFlags .es2024 0 none ['g', 'i', 'v'] = .ok set := ⟨_, rfl⟩
    obtain ⟨hhas, hperm⟩ := (flags_read_exactly .es2024 0 none ['g', 'i', 'v']).2.1 set hset
    exact ⟨set, hset, (hhas .unicodeSets).mpr (by decide), hperm (-7) (some []) _ (by decide)⟩
  · obtain ⟨d, hd⟩ : ∃ d, readFlags .es2025 (-5) (some [])
        ['g', .ofUnit 0xD83D, .ofUnit 0xDE00] = .error d := ⟨_, rfl⟩
    obtain ⟨hsource, -, k, hk, hfault, -⟩ :=
      (flags_read_exactly .es2025 (-5) (some []) ['g', .ofUnit 0xD83D, .ofUnit 0xDE00]).2.2 d hd
    exact ⟨d, hd, hsource, k, hk, hfault⟩
  · obtain ⟨d, hd⟩ : ∃ d, readFlags .es2025 3 none ['g', 'v', 'u'] = .error d := ⟨_, rfl⟩
    obtain ⟨-, -, k, hk, hfault, -⟩ :=
      (flags_read_exactly .es2025 3 none ['g', 'v', 'u']).2.2 d hd
    exact ⟨d, hd, k, hk, hfault⟩

end EcmaPattern
