import SchemaEnums.Output.Write
import SchemaEnums.Proofs.Files.Moments

/-!
# Output — Write

What is left on the disk when the text could not be put in place.

The text is put in place in three steps, and each of them ends the work when it fails
(`replace_cases`); nothing is taken back.  So directories around the path may have been made
(`MadeDirectories`), and the temporary file stands with the text in it where it could not be
renamed, or with a beginning of the text where the system has stopped its writing
(`replace_failed`).
-/

namespace SchemaEnums.Output
open Files

/-! ### Directories -/

/-- The path itself, or the path of a directory around it. -/
inductive Above : String → String → Prop where
  | self (path : String) : Above path path
  | parent {q parent path : String} (h : Path.parent? path = some parent) (above : Above q parent) :
      Above q path

/-- The path of a directory around a path. -/
def Around (q path : String) : Prop := ∃ parent, Path.parent? path = some parent ∧ Above q parent

/-- Nothing has changed, but that directories have been made where nothing was, and paths with `P`
lead to them. -/
def MadeDirectories (directory : Location) (P : String → Prop) (d d' : Disk) : Prop :=
  ∀ l, d'.get? l = d.get? l ∨
    d.get? l = none ∧ d'.get? l = some .directory ∧ ∃ q, P q ∧ d'.locate directory q = .ok l

variable {directory : Location} {P Q : String → Prop} {d d₁ d₂ d₃ : Disk}

theorem MadeDirectories.refl (directory : Location) (P : String → Prop) (d : Disk) :
    MadeDirectories directory P d d := fun _ => .inl rfl

theorem MadeDirectories.imp (h : MadeDirectories directory P d₁ d₂) (hPQ : ∀ q, P q → Q q) :
    MadeDirectories directory Q d₁ d₂ := fun l =>
  (h l).imp id fun ⟨h₁, h₂, q, hq, hl⟩ => ⟨h₁, h₂, q, hPQ q hq, hl⟩

theorem MadeDirectories.grows (h : MadeDirectories directory P d₁ d₂) : d₁.Grows d₂ := by
  constructor
  · intro l hl
    rcases h l with heq | ⟨hnone, -⟩
    · rwa [heq]
    · rw [hnone] at hl
      cases hl
  · intro l hl
    rcases h l with heq | ⟨hnone, -⟩
    · rwa [heq]
    · rw [hnone] at hl
      cases hl

theorem MadeDirectories.trans (h₁ : MadeDirectories directory P d₁ d₂)
    (h₂ : MadeDirectories directory P d₂ d₃) : MadeDirectories directory P d₁ d₃ := by
  intro l
  rcases h₁ l with heq₁ | ⟨hnone, hdir, q, hq, hl⟩
  · rw [← heq₁]
    exact h₂ l
  · exact .inr ⟨hnone, h₂.grows.directory l hdir, q, hq, Disk.locate_mono h₂.grows hl⟩

theorem ensureDirectory_through (directory : Location) (path : String) (p : Progress) :
    Progress.Through (MadeDirectories directory (Above · path) p.disk) p
      (p.ensureDirectory directory path).1 := by
  have hstep : (p.ensureDirectory directory path).1 =
      (p.step (p.disk.create directory path)).1 := by
    rw [Progress.ensureDirectory]
    split
    case h_1 h => rw [h]
    case h_2 => rfl
  rw [hstep]
  generalize hr : p.step (p.disk.create directory path) = r
  cases Progress.step_ends hr with
  | refused e => exact .refl (.refl directory _ p.disk)
  | begun hc =>
      obtain ⟨_, hc', -⟩ := Disk.create_eq_ok hc
      cases hc'
  | made hc =>
      obtain ⟨l, rfl, hl, hnone, hlocate⟩ := Disk.create_eq_ok hc
      refine Progress.through_make fun d' hd => ?_
      rcases seen_one hd with rfl | rfl | ⟨_, _, _, hc', -⟩
      · exact .refl directory _ p.disk
      · intro m
        by_cases hm : m = l
        · subst hm
          refine .inr ⟨hnone, ?_, path, .self path, hlocate⟩
          rw [Change.apply, Disk.get?_put _ hl, if_pos rfl]
        · left
          rw [Change.apply, Disk.get?_put _ hl, if_neg hm]
      · cases hc'

/-- What has been made on the way adds up. -/
theorem MadeDirectories.through {p p₁ p₂ : Progress}
    (h₁ : Progress.Through (MadeDirectories directory P p.disk) p p₁)
    (h₂ : Progress.Through (MadeDirectories directory P p₁.disk) p₁ p₂) :
    Progress.Through (MadeDirectories directory P p.disk) p p₂ :=
  h₁.trans (h₂.imp fun _ hd => h₁.last.trans hd)

theorem ensureWithin_through (directory : Location) : ∀ (n : Nat) (path : String) (p : Progress),
    Progress.Through (MadeDirectories directory (Above · path) p.disk) p
      (p.ensureWithin directory n path).1
  | 0,     path, p => .refl (.refl directory _ p.disk)
  | n + 1, path, p => by
      rw [Progress.ensureWithin]
      split
      case isTrue => exact .refl (.refl directory _ p.disk)
      case isFalse =>
        have hfirst := ensureDirectory_through directory path p
        split
        case h_1 p₁ hp₁ =>
          rw [hp₁] at hfirst
          split
          case h_1 => exact hfirst
          case h_2 parent hparent =>
            have hparents := ensureWithin_through directory n parent p₁
            -- what has been made around the parent has been made around the path
            have houter := hparents.imp fun d h => h.imp fun q hq => Above.parent hparent hq
            split
            case h_1 p₂ hp₂ =>
              rw [hp₂] at houter
              exact MadeDirectories.through (MadeDirectories.through hfirst houter)
                (ensureDirectory_through directory path p₂)
            case h_2 p₂ e hp₂ =>
              rw [hp₂] at houter
              exact MadeDirectories.through hfirst houter
        case h_2 => exact hfirst

/-- Making the directories around a path, nothing else is made on the way. -/
theorem makeParents_through (directory : Location) (path : String) (p : Progress) :
    Progress.Through (MadeDirectories directory (Around · path) p.disk) p
      (makeParents directory path p).1 := by
  rw [makeParents]
  split
  case h_1 => exact .refl (.refl directory _ p.disk)
  case h_2 parent hparent =>
    exact (ensureWithin_through directory _ parent p).imp fun d h =>
      h.imp fun q hq => ⟨parent, hparent, hq⟩

theorem makeParents_made (directory : Location) (path : String) (p : Progress) :
    MadeDirectories directory (Around · path) p.disk (makeParents directory path p).1.disk :=
  (makeParents_through directory path p).last

theorem makeParents_failed {directory : Location} {path : String} {p p' : Progress} {f : Failure}
    (h : makeParents directory path p = (p', some f)) : ∃ parent e, f = .directory parent e := by
  rw [makeParents] at h
  split at h
  case h_1 => cases h
  case h_2 parent hparent =>
    obtain ⟨e, -, rfl⟩ := Option.map_eq_some_iff.mp (Prod.mk.inj h).2
    exact ⟨parent, e, rfl⟩

/-! ### The three steps -/

/-- What is not renamed stays as it is. -/
theorem rename_failed {p p' : Progress} {source target : String} {e : Problem}
    (h : p.step (p.disk.rename directory source target) = (p', some e)) : p' = p := by
  cases Progress.step_ends h with
  | refused => rfl
  | begun hc =>
      obtain ⟨_, _, _, _, -, -, -, hmove, -⟩ := Disk.rename_place hc
      cases hmove

/-- How putting a text in place can end: one of the three steps fails, or none. -/
inductive Replacing (directory : Location) (path text : String) (p : Progress) :
    Progress × Option Failure → Prop where
  | unparented {p₁ : Progress} {parent : String} {e : Problem}
      (parents : makeParents directory path p = (p₁, some (.directory parent e))) :
      Replacing directory path text p (p₁, some (.directory parent e))
  | unwritten {p₁ p₂ : Progress} {e : Problem}
      (parents : makeParents directory path p = (p₁, none))
      (write : p₁.step (p₁.disk.write directory (Path.temporary path) text.toUTF8) = (p₂, some e)) :
      Replacing directory path text p (p₂, some (.write (Path.temporary path) e))
  | unrenamed {p₁ p₂ p₃ : Progress} {e : Problem}
      (parents : makeParents directory path p = (p₁, none))
      (write : p₁.step (p₁.disk.write directory (Path.temporary path) text.toUTF8) = (p₂, none))
      (rename : p₂.step (p₂.disk.rename directory (Path.temporary path) path) = (p₃, some e)) :
      Replacing directory path text p (p₃, some (.rename (Path.temporary path) path e))
  | done {p₁ p₂ p₃ : Progress}
      (parents : makeParents directory path p = (p₁, none))
      (write : p₁.step (p₁.disk.write directory (Path.temporary path) text.toUTF8) = (p₂, none))
      (rename : p₂.step (p₂.disk.rename directory (Path.temporary path) path) = (p₃, none)) :
      Replacing directory path text p (p₃, none)

theorem replace_cases {path text : String} {p : Progress} {r : Progress × Option Failure}
    (h : replace directory path text p = r) : Replacing directory path text p r := by
  subst h
  rw [replace]
  cases hparents : makeParents directory path p with
  | mk p₁ failure =>
      cases failure with
      | some f =>
          obtain ⟨parent, e, rfl⟩ := makeParents_failed hparents
          exact .unparented hparents
      | none =>
          cases hwrite : p₁.step (p₁.disk.write directory (Path.temporary path) text.toUTF8) with
          | mk p₂ problem =>
              cases problem with
              | some e => simpa only [hwrite] using .unwritten hparents hwrite
              | none =>
                  cases hrename : p₂.step (p₂.disk.rename directory (Path.temporary path) path) with
                  | mk p₃ problem =>
                      cases problem with
                      | some e =>
                          simpa only [hwrite, hrename] using .unrenamed hparents hwrite hrename
                      | none => simpa only [hwrite, hrename] using .done hparents hwrite hrename

/-- What a failed step has left under the temporary path: the whole text, if the file could not be
renamed, and a beginning of it, if it could not be written to the end. -/
inductive Leftover (path text : String) : Failure → ByteArray → Prop where
  | whole (e : Problem) : Leftover path text (.rename (Path.temporary path) path e) text.toUTF8
  | beginning (e : Problem) (n : Nat) :
      Leftover path text (.write (Path.temporary path) e) (text.toUTF8.extract 0 n)

/-- What a failed step has left at the place `l`: what was there, a directory around the path where
nothing was, or the temporary file where no directory was. -/
inductive Left (directory : Location) (path text : String) (f : Failure) (d d' : Disk)
    (l : Location) : Prop where
  | same (h : d'.get? l = d.get? l)
  | directory {q : String} (before : d.get? l = none) (h : d'.get? l = some .directory)
      (around : Around q path) (place : d'.locate directory q = .ok l)
  | temporary {content : ByteArray} (before : d.get? l ≠ some .directory)
      (h : d'.get? l = some (.file content)) (left : Leftover path text f content)
      (place : d'.locate directory (Path.temporary path) = .ok l)

section Left

variable {path text : String} {f : Failure}

theorem MadeDirectories.left (h : MadeDirectories directory (Around · path) d d₁) (l : Location) :
    Left directory path text f d d₁ l := by
  rcases h l with heq | ⟨hnone, hdir, q, hq, hql⟩
  · exact .same heq
  · exact .directory hnone hdir hq hql

/-- Once directories have been made and the temporary file has been begun, nothing else differs. -/
theorem temporary_left {written : ByteArray} {c : Change}
    (hmade : MadeDirectories directory (Around · path) d d₁)
    (hwrite : d₁.write directory (Path.temporary path) text.toUTF8 = .ok c)
    (hleft : Leftover path text f written) :
    ∃ t, c = .writeFile t text.toUTF8 ∧
      ∀ l, Left directory path text f d (d₁.put t (.file written)) l := by
  obtain ⟨t, rfl, ht, hdir, hlocate⟩ := Disk.write_eq_ok hwrite
  refine ⟨t, rfl, fun l => ?_⟩
  -- the temporary file takes no directory's place, so paths lead where they led
  have hgrows : d₁.Grows (d₁.put t (.file written)) := Disk.grows_put ht fun h => absurd h hdir
  have hget := Disk.get?_put d₁ ht (.file written) l
  by_cases hl : l = t
  · subst hl
    rw [if_pos rfl] at hget
    exact .temporary (fun h => hdir (hmade.grows.directory l h)) hget hleft (hlocate written)
  · rw [if_neg hl] at hget
    rcases hmade l with heq | ⟨hnone, hnew, q, hq, hql⟩
    · exact .same (hget.trans heq)
    · exact .directory hnone (hget.trans hnew) hq (Disk.locate_mono hgrows hql)

/-- **A failed step takes nothing back.** -/
theorem replace_failed {p p' : Progress} (h : replace directory path text p = (p', some f))
    (l : Location) : Left directory path text f p.disk p'.disk l := by
  have hmade := makeParents_made directory path p
  cases replace_cases h with
  | unparented parents =>
      rw [parents] at hmade
      exact hmade.left l
  | unwritten parents write =>
      rw [parents] at hmade
      cases Progress.step_ends write with
      | refused => exact hmade.left l
      | begun hw n =>
          obtain ⟨t, hc, hleft⟩ := temporary_left hmade hw (.beginning _ n)
          cases hc
          exact hleft l
  | unrenamed parents write rename =>
      rw [parents] at hmade
      obtain ⟨c, hw, rfl⟩ := Progress.step_made write
      obtain rfl := rename_failed rename
      obtain ⟨t, rfl, hleft⟩ := temporary_left hmade hw (.whole _)
      exact hleft l

end Left

/-- A text that was put in place has gone through all three steps. -/
theorem replace_steps {path text : String} {p p' : Progress}
    (h : replace directory path text p = (p', none)) :
    ∃ p₁ c c', makeParents directory path p = (p₁, none) ∧
      p₁.disk.write directory (Path.temporary path) text.toUTF8 = .ok c ∧
      (c.apply p₁.disk).rename directory (Path.temporary path) path = .ok c' ∧
      p'.disk = c'.apply (c.apply p₁.disk) := by
  cases replace_cases h with
  | done parents write rename =>
      obtain ⟨c, hw, rfl⟩ := Progress.step_made write
      obtain ⟨c', hr, rfl⟩ := Progress.step_made rename
      exact ⟨_, c, c', parents, hw, hr, rfl⟩

/-- A failed step is no staleness. -/
theorem replace_not_stale {path text stale : String} {p p' : Progress} :
    replace directory path text p ≠ (p', some (.stale stale)) :=
  fun h => nomatch replace_cases h

/-! ### The whole -/

section Put

variable {path text : String} {stops : Stops}

theorem isCurrent_iff :
    isCurrent d directory path text = true ↔ d.readText directory path = .ok text := by
  rw [isCurrent]
  cases d.readText directory path <;> simp

/-- Where the path reads as the text there is nothing to do, in either mode. -/
theorem put_of_current (h : d.readText directory path = .ok text) (check : Bool) :
    put directory path text check d stops = ⟨.start d stops, .ok .unchanged⟩ := by
  rw [put, if_pos (isCurrent_iff.mpr h)]

/-- Where it does not, a check fails. -/
theorem put_of_stale (h : d.readText directory path ≠ .ok text) :
    put directory path text true d stops = ⟨.start d stops, .error (.stale path)⟩ := by
  rw [put, if_neg fun hcurrent => h (isCurrent_iff.mp hcurrent), if_pos rfl]

/-- And a write does the three steps. -/
theorem put_of_replace {p : Progress} {failure : Option Failure}
    (h : d.readText directory path ≠ .ok text)
    (hreplace : replace directory path text (.start d stops) = (p, failure)) :
    put directory path text false d stops = ⟨p, failure.elim (.ok .written) .error⟩ := by
  rw [put, if_neg fun hcurrent => h (isCurrent_iff.mp hcurrent), if_neg Bool.false_ne_true,
    hreplace]
  cases failure <;> rfl

/-- Where a text was put in place, it was there already or has replaced what was. -/
theorem put_succeeded {done : Outcome}
    (h : (put directory path text false d stops).result = .ok done) :
    d.readText directory path = .ok text ∧
        (put directory path text false d stops).progress.disk = d ∨
      replace directory path text (.start d stops) =
        ((put directory path text false d stops).progress, none) := by
  by_cases hcurrent : d.readText directory path = .ok text
  · exact .inl ⟨hcurrent, by rw [put_of_current hcurrent]; rfl⟩
  · cases hreplace : replace directory path text (.start d stops) with
    | mk p failure =>
        rw [put_of_replace hcurrent hreplace] at h ⊢
        cases failure with
        | none => exact .inr rfl
        | some f => cases h

/-- Putting a text in place fails as stale, and then nothing has been done, or in one of the three
steps. -/
theorem put_failed {check : Bool} {f : Failure}
    (h : (put directory path text check d stops).result = .error f) :
    f = .stale path ∧ (put directory path text check d stops).progress.disk = d ∨
      check = false ∧ replace directory path text (.start d stops) =
        ((put directory path text check d stops).progress, some f) := by
  by_cases hcurrent : d.readText directory path = .ok text
  · rw [put_of_current hcurrent] at h
    cases h
  · cases check with
    | true =>
        rw [put_of_stale hcurrent] at h ⊢
        cases h
        exact .inl ⟨rfl, rfl⟩
    | false =>
        cases hreplace : replace directory path text (.start d stops) with
        | mk p failure =>
            rw [put_of_replace hcurrent hreplace] at h ⊢
            cases failure with
            | none => cases h
            | some g =>
                cases h
                exact .inr ⟨rfl, rfl⟩

end Put

end SchemaEnums.Output
