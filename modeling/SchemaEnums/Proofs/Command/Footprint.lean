import SchemaEnums.Proofs.Command.Run
import SchemaEnums.Proofs.Output.Footprint

/-!
# Command — Footprint

Which places of the disk a successful run touches: its output, directories around that, and the
file beside it that bears its name with `.tmp` at the end.  Such a file is overwritten and moved
away even if it was there before the run and is none of the program's
(`successful_run_loses_neighbour`); all else stays as it was (`successful_run_leaves`).
-/

namespace SchemaEnums.Command
open Files Output

variable {s : Setting} {d : Disk} {stops : Stops}

/-! ### Runs that succeed -/

/-- A run that succeeds has put the text for its arguments in place. -/
theorem run_succeeded {arguments : List String} {a : Arguments} {path : String}
    (ha : Arguments.read arguments = .ok a) (ho : a.output = some path)
    (h : (run s arguments d stops).result = .ok ()) :
    ∃ text done, textFor s a d = .ok text ∧
      (put s.directory path text a.check d stops).result = .ok done ∧
      (run s arguments d stops).progress =
        (put s.directory path text a.check d stops).progress := by
  cases htext : textFor s a d with
  | error e =>
      rw [(run_of_no_text ha htext).1] at h
      cases h
  | ok text =>
      obtain ⟨hresult, hprogress⟩ := run_of_text ha htext
      rw [hresult] at h
      cases hr : (put s.directory path text a.check d stops).result with
      | error f => simp only [deliver, ho, hr, reduceCtorEq] at h
      | ok done =>
          exact ⟨text, done, rfl, hr, hprogress.trans (by simp only [deliver, ho, hr])⟩

/-! ### What they leave -/

/-- **What a successful run leaves.**  The output holds the generated text.  What was there before
is there as it was, but for the output and the file beside it under the output's name with `.tmp`
at the end; and what is new is the output or a directory around it. -/
theorem successful_run_leaves (s : Setting) (arguments : List String) (d : Disk) (stops : Stops)
    (a : Arguments) (path : String) (ha : Arguments.read arguments = .ok a)
    (ho : a.output = some path) (hcheck : a.check = false)
    (h : (run s arguments d stops).result = .ok ()) :
    ∃ m n text, textFor s a d = .ok text ∧
      (run s arguments d stops).progress.disk.locate s.directory path = .ok (m ++ [n]) ∧
      (run s arguments d stops).progress.disk.get? (m ++ [n]) = some (.file text.toUTF8) ∧
      (∀ l e, d.get? l = some e → e = .directory ∨ l ≠ m ++ [n] ∧ l ≠ m ++ [n ++ ".tmp"] →
        (run s arguments d stops).progress.disk.get? l = some e) ∧
      ∀ l, d.get? l = none → (run s arguments d stops).progress.disk.get? l ≠ none →
        l = m ++ [n] ∨ (run s arguments d stops).progress.disk.get? l = some .directory ∧
          ∃ q, Around q path ∧
            (run s arguments d stops).progress.disk.locate s.directory q = .ok l := by
  obtain ⟨text, done, htext, hput, hprogress⟩ := run_succeeded ha ho h
  rw [hcheck] at hput hprogress
  rw [hprogress]
  rcases put_succeeded hput with ⟨hcurrent, hdisk⟩ | hreplace
  · -- the output was current and nothing was written
    rw [hdisk]
    obtain ⟨l, hlocate, hget⟩ := Disk.readText_eq_ok_iff.mp hcurrent
    have hne : l ≠ [] := by
      rintro rfl
      cases hget
    rw [← List.dropLast_concat_getLast hne] at hlocate hget
    exact ⟨_, _, text, htext, hlocate, hget, fun l e hl _ => hl, fun l hl hl' => absurd hl hl'⟩
  · -- the three places the text went through are the only ones that differ
    obtain ⟨m, n, hf⟩ := replace_footprint hreplace
    refine ⟨m, n, text, htext, hf.leads, hf.output, fun l e hl hother => ?_, fun l hl hl' => ?_⟩
    · have hne : l ≠ m ++ [n] ∧ l ≠ m ++ [n ++ ".tmp"] := by
        rcases hother with rfl | hne
        · exact ⟨fun h => hf.files.1 (h ▸ hl), fun h => hf.files.2 (h ▸ hl)⟩
        · exact hne
      rcases hf.elsewhere l hne.1 hne.2 with heq | ⟨hnone, -⟩
      · exact heq.trans hl
      · have hnone' : d.get? l = none := hnone
        rw [hl] at hnone'
        cases hnone'
    · by_cases hout : l = m ++ [n]
      · exact .inl hout
      · have htmp : l ≠ m ++ [n ++ ".tmp"] := fun h => hl' (h ▸ hf.temporary)
        rcases hf.elsewhere l hout htmp with heq | ⟨-, hdir, haround⟩
        · exact absurd (heq.trans hl) hl'
        · exact .inr ⟨hdir, haround⟩

/-- A disk with a file that bears the output's name with `.tmp` at the end. -/
def neighbourDisk : Disk := ⟨[(["o.tmp"], .file "mine".toUTF8)]⟩

/-- A file of that kind beside another directory's output stays. -/
theorem successful_run_leaves_neighbour :
    (run ⟨[], false⟩ ["m", "-o", "new/o"] neighbourDisk).progress.disk.get? ["o.tmp"] =
      some (.file "mine".toUTF8) := by
  obtain ⟨m, n, text, -, hlocate, -, hkept, -⟩ := successful_run_leaves ⟨[], false⟩
    ["m", "-o", "new/o"] neighbourDisk .none ⟨"m", some "new/o", false, false, false, []⟩ "new/o"
    rfl rfl rfl rfl
  have hplace : (run ⟨[], false⟩ ["m", "-o", "new/o"] neighbourDisk).progress.disk.locate []
      "new/o" = .ok (["new"] ++ ["o"]) := rfl
  obtain ⟨rfl, hn⟩ := List.append_inj' (Except.ok.inj (hplace.symm.trans hlocate)) rfl
  obtain rfl := List.singleton_inj.mp hn
  exact hkept ["o.tmp"] (.file "mine".toUTF8) rfl (.inr ⟨by decide, by decide⟩)

/-- A run that succeeds can lose a file that is not its output. -/
theorem successful_run_loses_neighbour :
    ¬ ∀ (s : Setting) (arguments : List String) (d : Disk) (a : Arguments) (path : String),
      Arguments.read arguments = .ok a → a.output = some path → a.check = false →
      (run s arguments d).result = .ok () →
        (∀ l e, d.get? l = some e →
          (run s arguments d).progress.disk.locate s.directory path ≠ .ok l →
            (run s arguments d).progress.disk.get? l = some e) ∧
        ∀ l, d.get? l = none → (run s arguments d).progress.disk.get? l ≠ none →
          (run s arguments d).progress.disk.locate s.directory path = .ok l ∨
            ∃ q, Around q path ∧
              (run s arguments d).progress.disk.locate s.directory q = .ok l := by
  intro h
  have hkept := (h ⟨[], false⟩ ["m", "-o", "o"] neighbourDisk
    ⟨"m", some "o", false, false, false, []⟩ "o" rfl rfl rfl rfl).1 ["o.tmp"]
    (.file "mine".toUTF8) rfl
  have hgone : ((run ⟨[], false⟩ ["m", "-o", "o"] neighbourDisk).progress.disk.get?
      ["o.tmp"]).isSome = false := by decide +kernel
  have hplace : (run ⟨[], false⟩ ["m", "-o", "o"] neighbourDisk).progress.disk.locate [] "o" =
      .ok ["o"] := rfl
  have hother : (Except.ok ["o"] : Except Problem Location) ≠ .ok ["o.tmp"] := by simp
  rw [hkept (by rw [hplace]; exact hother)] at hgone
  cases hgone

end SchemaEnums.Command
