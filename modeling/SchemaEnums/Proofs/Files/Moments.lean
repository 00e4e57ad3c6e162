import SchemaEnums.Proofs.Files.Disk

/-!
# Files — Moments

What a disk looks like while changes are made one after another.  Between two changes it is as the
first has left it; while a file is written, it holds a beginning of its content (`Seen`).  A piece
of work leads `Through` disks with a property if each disk that is seen on the way has it.

A step of the work makes one change, or none; or the system stops it, and then it may have written
the beginning of a file (`Progress.step_ends`).
-/

namespace SchemaEnums.Files

/-- The disk after some changes. -/
def Disk.after (d : Disk) (cs : List Change) : Disk := cs.foldl Change.apply d

/-- A disk that is seen while changes are made one after another. -/
inductive Seen : Disk → List Change → Disk → Prop where
  | now {d : Disk} {cs : List Change} : Seen d cs d
  /-- A file that is being written holds a beginning of its content. -/
  | writing {d : Disk} {l : Location} {content : ByteArray} {cs : List Change} (k : Nat) :
      Seen d (.writeFile l content :: cs) (d.put l (.file (content.extract 0 k)))
  | later {d d' : Disk} {c : Change} {cs : List Change} (h : Seen (c.apply d) cs d') :
      Seen d (c :: cs) d'

theorem seen_nil {d d' : Disk} (h : Seen d [] d') : d' = d := by
  cases h
  rfl

/-- While one change is made, the disk is as before or after it, or a file is being written. -/
theorem seen_one {d d' : Disk} {c : Change} (h : Seen d [c] d') :
    d' = d ∨ d' = c.apply d ∨ ∃ l content k, c = .writeFile l content ∧
      d' = d.put l (.file (content.extract 0 k)) := by
  cases h with
  | now => exact .inl rfl
  | writing k => exact .inr (.inr ⟨_, _, k, rfl, rfl⟩)
  | later h => exact .inr (.inl (seen_nil h))

theorem seen_after (d : Disk) (cs : List Change) : Seen d cs (d.after cs) := by
  induction cs generalizing d with
  | nil => exact .now
  | cons c cs ih => exact .later (ih (c.apply d))

theorem Seen.split {d d' : Disk} {cs cs' : List Change} (h : Seen d (cs ++ cs') d') :
    Seen d cs d' ∨ Seen (d.after cs) cs' d' := by
  induction cs generalizing d with
  | nil => exact .inr h
  | cons c cs ih =>
      cases h with
      | now => exact .inl .now
      | writing k => exact .inl (.writing k)
      | later h => exact (ih h).imp .later id

namespace Progress

variable {Q R : Disk → Prop} {p p₁ p' : Progress}

/-- The way from one state of work to another leads through disks with `Q` only. -/
def Through (Q : Disk → Prop) (p p' : Progress) : Prop :=
  ∃ cs, p'.changes = p.changes ++ cs ∧ p'.disk = p.disk.after cs ∧
    ∀ d', Seen p.disk cs d' → Q d'

theorem Through.refl (h : Q p.disk) : Through Q p p :=
  ⟨[], (List.append_nil _).symm, rfl, fun _ hd => seen_nil hd ▸ h⟩

theorem Through.trans (h₁ : Through Q p p₁) (h₂ : Through Q p₁ p') : Through Q p p' := by
  obtain ⟨cs₁, hchanges₁, hdisk₁, hseen₁⟩ := h₁
  obtain ⟨cs₂, hchanges₂, hdisk₂, hseen₂⟩ := h₂
  rw [hdisk₁] at hdisk₂ hseen₂
  refine ⟨cs₁ ++ cs₂, ?_, ?_, fun d' hd => ?_⟩
  · rw [hchanges₂, hchanges₁, List.append_assoc]
  · rw [hdisk₂, Disk.after, Disk.after, Disk.after, List.foldl_append]
  · exact hd.split.elim (hseen₁ d') (hseen₂ d')

theorem Through.imp (h : Through Q p p') (hQR : ∀ d, Q d → R d) : Through R p p' := by
  obtain ⟨cs, hchanges, hdisk, hseen⟩ := h
  exact ⟨cs, hchanges, hdisk, fun d' hd => hQR d' (hseen d' hd)⟩

theorem Through.last (h : Through Q p p') : Q p'.disk := by
  obtain ⟨cs, -, hdisk, hseen⟩ := h
  rw [hdisk]
  exact hseen _ (seen_after p.disk cs)

/-- One change leads through the disks that are seen while it is made. -/
theorem through_make {c : Change} (h : ∀ d', Seen p.disk [c] d' → Q d') : Through Q p (p.make c) :=
  ⟨[c], rfl, rfl, h⟩

/-- How a step can end. -/
inductive Ends (p : Progress) (change : Except Problem Change) :
    Progress × Option Problem → Prop where
  | made {c : Change} (h : change = .ok c) : Ends p change (p.make c, none)
  | refused (e : Problem) : Ends p change (p, some e)
  /-- The system has stopped the writing of a file. -/
  | begun {l : Location} {content : ByteArray} (h : change = .ok (.writeFile l content)) (n : Nat)
      (e : Problem) : Ends p change (p.make (.writeFile l (content.extract 0 n)), some e)

theorem step_ends {change : Except Problem Change} {r : Progress × Option Problem}
    (h : p.step change = r) : p.Ends change r := by
  subst h
  cases change with
  | error e => exact .refused e
  | ok c =>
      simp only [step]
      cases p.stops p.changes c with
      | none => exact .made rfl
      | some stop =>
          obtain ⟨e, written⟩ := stop
          cases c with
          | makeDirectory l => exact .refused e
          | moveFile source target => exact .refused e
          | writeFile l content =>
              cases written with
              | none => exact .refused e
              | some n => exact .begun rfl n e

/-- A step without a problem has made its change. -/
theorem step_made {change : Except Problem Change} (h : p.step change = (p', none)) :
    ∃ c, change = .ok c ∧ p' = p.make c := by
  cases step_ends h with
  | made hc => exact ⟨_, hc, rfl⟩

end Progress

end SchemaEnums.Files
