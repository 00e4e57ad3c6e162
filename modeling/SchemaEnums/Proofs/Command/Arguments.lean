import SchemaEnums.Command.Arguments
import SchemaEnums.Proofs.Outcome

/-!
# Command — Arguments

The flag `--check` says the same wherever it is read: arguments that do not raise it are read alike
with it before them (`Arguments.read_check`), and with it behind them, unless two hyphens that stand
alone have ended the options (`Arguments.read_check_last`).

Nothing that is read lowers the flag, and nothing but the flag itself looks at it; so each step of
the reading `Ignores` it.
-/

namespace SchemaEnums.Command
namespace Reading

/-- The reading with the flag raised. -/
def checked (r : Reading) : Reading := { r with check := true }

/-- The step does not look at the flag: it goes alike with the flag raised, unless it raises it. -/
def Ignores (f : Reading → Except Refusal Reading) : Prop :=
  ∀ ⦃r r' : Reading⦄, f r = .ok r' →
    r'.check = true ∨ r'.check = r.check ∧ f r.checked = .ok r'.checked

variable {f g : Reading → Except Refusal Reading}

theorem Ignores.bind (hf : Ignores f) (hg : Ignores g) : Ignores fun r => f r >>= g := by
  intro r r' h
  obtain ⟨r₁, h₁, h₂⟩ := bind_eq_ok_iff.mp h
  rcases hf h₁ with hraised | ⟨hcheck, hok⟩
  · rcases hg h₂ with h | ⟨h, -⟩
    · exact .inl h
    · exact .inl (h.trans hraised)
  · rcases hg h₂ with h | ⟨h, hok'⟩
    · exact .inl h
    · exact .inr ⟨h.trans hcheck, bind_eq_ok_iff.mpr ⟨_, hok, hok'⟩⟩

theorem ignores_ok : Ignores .ok := fun _ _ h => by
  cases h
  exact .inr ⟨rfl, rfl⟩

theorem ignores_error (e : Refusal) : Ignores fun _ => .error e := fun _ _ h => nomatch h

theorem take_ignores (slot : Slot) (value : String) : Ignores (·.take slot value) := by
  intro r r' h
  right
  cases slot with
  | schema =>
      by_cases hv : (value == "") = true
      · simp only [take, hv, if_true, reduceCtorEq] at h
      · simp only [take, hv, Bool.false_eq_true, if_false, Except.ok.injEq] at h ⊢
        subst h
        exact ⟨rfl, rfl⟩
  | output =>
      by_cases ho : r.output.isSome = true
      · simp only [take, ho, if_true, reduceCtorEq] at h
      · by_cases hv : (value == "") = true
        · simp only [take, ho, hv, Bool.false_eq_true, if_false, if_true, reduceCtorEq] at h
        · have ho' : r.checked.output.isSome ≠ true := ho
          simp only [take, ho, ho', hv, Bool.false_eq_true, if_false, Except.ok.injEq] at h ⊢
          subst h
          exact ⟨rfl, rfl⟩
  | emit =>
      simp only [take] at h ⊢
      split at h
      case h_1 cs hcs =>
        cases h
        exact ⟨rfl, rfl⟩
      case h_2 => cases h

theorem settle_ignores : Ignores settle := by
  intro r r' h
  have hpending : r.checked.pending = r.pending := rfl
  rw [settle] at h ⊢
  rw [hpending]
  split at h
  case h_1 => cases h; exact .inr ⟨rfl, rfl⟩
  case h_2 => cases h
  case h_3 slot v _ => exact take_ignores slot v h

theorem raise_ignores (flag : Flag) : Ignores (·.raise flag) := by
  refine settle_ignores.bind fun r r' h => ?_
  cases flag with
  | print =>
      by_cases hp : r.print = true
      · simp only [hp, if_true, reduceCtorEq] at h
      · have hp' : r.checked.print ≠ true := hp
        simp only [hp, hp', Bool.false_eq_true, if_false, Except.ok.injEq] at h ⊢
        subst h
        exact .inr ⟨rfl, rfl⟩
  | strict =>
      by_cases hs : r.strict = true
      · simp only [hs, if_true, reduceCtorEq] at h
      · have hs' : r.checked.strict ≠ true := hs
        simp only [hs, hs', Bool.false_eq_true, if_false, Except.ok.injEq] at h ⊢
        subst h
        exact .inr ⟨rfl, rfl⟩
  | check =>
      left
      by_cases hc : r.check = true
      · simp only [hc, if_true, reduceCtorEq] at h
      · simp only [hc, Bool.false_eq_true, if_false, Except.ok.injEq] at h
        rw [← h]
  | help => cases h
  | version => cases h

theorem begin_ignores (slot : Slot) (value : Option String) : Ignores (·.begin slot value) := by
  refine settle_ignores.bind ?_
  cases value with
  | some v => exact take_ignores slot v
  | none => exact fun r r' h => by cases h; exact .inr ⟨rfl, rfl⟩

theorem position_ignores (value : String) : Ignores (·.position value) := by
  intro r r' h
  have hnamed : r.checked.named = r.named := rfl
  simp only [position] at h ⊢
  rw [hnamed]
  by_cases hn : r.named = true
  · simp only [hn, if_true, reduceCtorEq] at h
  · simp only [hn, Bool.false_eq_true, if_false] at h ⊢
    exact settle_ignores.bind
      (g := fun r => .ok { r with pending := some (.schema, some value), named := true })
      (fun r r' h => by cases h; exact .inr ⟨rfl, rfl⟩) h

theorem long_ignores (text : List Char) : Ignores (·.long text) := by
  simp only [long]
  split
  case h_1 => exact ignores_error _
  case h_2 slot _ => exact begin_ignores slot _
  case h_3 flag _ _ => exact raise_ignores flag
  case h_4 => exact ignores_error _

theorem short_ignores : ∀ text : List Char, Ignores (·.short text)
  | []        => ignores_ok
  | c :: rest => by
      simp only [short]
      split
      case h_1 => exact ignores_error _
      case h_2 => exact settle_ignores.bind (ignores_error _)
      case h_3 flag _ _ => exact (raise_ignores flag).bind (short_ignores rest)
      case h_4 slot _ => exact begin_ignores slot _

theorem next_ignores (trailing : Bool) (argument : String) : Ignores (·.next trailing argument) := by
  intro r r' h
  have hpending : r.checked.pending = r.pending := rfl
  simp only [next] at h ⊢
  rw [hpending]
  split at h
  case h_1 text htext => exact long_ignores text h
  case h_2 c text _ htext => exact short_ignores (c :: text) h
  case h_3 =>
    split at h
    case h_1 =>
      cases h
      exact .inr ⟨rfl, rfl⟩
    case h_2 => exact position_ignores argument h
  case h_4 => exact position_ignores argument h

theorem all_ignores : ∀ (arguments : List String) (trailing : Bool),
    Ignores (·.all trailing arguments)
  | [],      _        => ignores_ok
  | a :: as, trailing => by
      simp only [all]
      split
      case isTrue => exact all_ignores as true
      case isFalse => exact (next_ignores trailing a).bind (all_ignores as trailing)

theorem all_append : ∀ {as : List String} (bs : List String) (r : Reading), "--" ∉ as →
    r.all false (as ++ bs) = r.all false as >>= fun r => r.all false bs
  | [],      _,  _, _ => rfl
  | a :: as, bs, r, h => by
      rw [List.mem_cons, not_or] at h
      have hdashes : (a == "--") = false := by simpa using Ne.symm h.1
      simp only [List.cons_append, all, hdashes, Bool.and_false, Bool.false_eq_true, if_false]
      cases r.next false a with
      | error e => rfl
      | ok r' => exact all_append bs r' h.2

theorem next_check (r : Reading) : r.next false "--check" = r.raise .check := rfl

theorem pending_of_settle {r r' : Reading} (h : r.settle = .ok r') : r'.pending = none := by
  rw [settle] at h
  split at h
  case h_1 hnone => cases h; exact hnone
  case h_2 => cases h
  case h_3 slot v _ =>
    cases slot with
    | schema =>
        simp only [take] at h
        split at h
        case isTrue => cases h
        case isFalse => cases h; rfl
    | output =>
        simp only [take] at h
        split at h
        case isTrue => cases h
        case isFalse =>
          split at h
          case isTrue => cases h
          case isFalse => cases h; rfl
    | emit =>
        simp only [take] at h
        split at h
        case h_1 => cases h; rfl
        case h_2 => cases h

/-- What has been read, when all arguments have been looked at. -/
def result (r : Reading) : Except Refusal Arguments :=
  match r.schema with
  | none        => .error (.misuse .missingArgument)
  | some schema =>
    if r.check && r.output.isNone then .error (.misuse .missingArgument)
    else if r.output.isNone && !r.print then .error .noTarget
    else .ok ⟨schema, r.output, r.print, r.strict, r.check, r.emit⟩

/-- Raising the flag asks for an output. -/
theorem result_checked {r : Reading} {a : Arguments} (h : r.result = .ok a)
    (ho : a.output.isSome = true) :
    r.check = a.check ∧ r.checked.result = .ok { a with check := true } := by
  rw [result] at h
  split at h
  case h_1 => cases h
  case h_2 schema hschema =>
    split at h
    case isTrue => cases h
    case isFalse =>
      split at h
      case isTrue => cases h
      case isFalse =>
        cases h
        have ho₁ : r.output.isNone = false := by simpa using ho
        have ho' : r.checked.output.isNone = false := ho₁
        have hschema' : r.checked.schema = some schema := hschema
        refine ⟨rfl, ?_⟩
        simp only [result, hschema', ho', Bool.and_false, Bool.false_and, Bool.false_eq_true,
          if_false]
        rfl

end Reading

open Reading

theorem Arguments.read_eq (as : List String) :
    Arguments.read as = (start.all false as >>= settle) >>= result := by
  rw [Arguments.read]
  cases start.all false as <;> rfl

/-- **The flag may stand before the arguments.** -/
theorem Arguments.read_check {as : List String} {a : Arguments} (h : Arguments.read as = .ok a)
    (ho : a.output.isSome = true) (hcheck : a.check = false) :
    Arguments.read ("--check" :: as) = .ok { a with check := true } := by
  rw [Arguments.read_eq] at h ⊢
  obtain ⟨r, hr, hresult⟩ := bind_eq_ok_iff.mp h
  obtain ⟨hr', hchecked⟩ := result_checked hresult ho
  rcases ((all_ignores as false).bind settle_ignores) hr with hraised | ⟨-, hok⟩
  · rw [hr', hcheck] at hraised
    cases hraised
  · exact bind_eq_ok_iff.mpr ⟨_, hok, hchecked⟩

/-- **The flag may stand behind the arguments**, where options are still read. -/
theorem Arguments.read_check_last {as : List String} {a : Arguments}
    (h : Arguments.read as = .ok a) (ho : a.output.isSome = true) (hcheck : a.check = false)
    (hdashes : "--" ∉ as) : Arguments.read (as ++ ["--check"]) = .ok { a with check := true } := by
  rw [Arguments.read_eq] at h ⊢
  obtain ⟨r, hr, hresult⟩ := bind_eq_ok_iff.mp h
  obtain ⟨hr', hchecked⟩ := result_checked hresult ho
  obtain ⟨r₁, hall, hsettle⟩ := bind_eq_ok_iff.mp hr
  have hraise : r₁.raise .check = .ok r.checked := by
    refine bind_eq_ok_iff.mpr ⟨r, hsettle, ?_⟩
    simp only [hr', hcheck, Bool.false_eq_true, if_false]
    rfl
  have hlast : start.all false (as ++ ["--check"]) = .ok r.checked := by
    rw [all_append _ _ hdashes, hall]
    show r₁.next false "--check" >>= _ = _
    rw [next_check, hraise]
    rfl
  have hpending : r.pending = none := pending_of_settle hsettle
  have hpending' : r.checked.pending = none := hpending
  have hagain : r.checked.settle = .ok r.checked := by simp only [settle, hpending']
  refine bind_eq_ok_iff.mpr ⟨r.checked, ?_, hchecked⟩
  rw [hlast]
  exact hagain

end SchemaEnums.Command
