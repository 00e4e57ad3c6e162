import SchemaEnums.Proofs.Output.Footprint

/-!
# Output — Modes

Checking a file and writing it are two answers to one question: whether the file reads as the text.

A check never changes the disk and passes exactly where a write would find nothing to do.  Where
there is something to do and it succeeds, the path reads as the text afterwards and its temporary
path leads to nothing, so whoever looks again, checking or writing, finds the text in place
(`modes_agree`).  That holds of any path on any disk: the path may lead through directories that
are only made on the way, and up again by two dots.
-/

namespace SchemaEnums.Output
open Files

variable {directory : Location} {path text : String} {d : Disk} {stops : Stops}

theorem put_check_progress (directory : Location) (path text : String) (d : Disk) (stops : Stops) :
    (put directory path text true d stops).progress = .start d stops := by
  by_cases h : d.readText directory path = .ok text
  · rw [put_of_current h]
  · rw [put_of_stale h]

theorem put_check_passes_iff :
    (∃ outcome, (put directory path text true d stops).result = .ok outcome) ↔
      d.readText directory path = .ok text := by
  by_cases h : d.readText directory path = .ok text
  · exact iff_of_true ⟨.unchanged, by rw [put_of_current h]⟩ h
  · refine iff_of_false (fun ⟨outcome, hpasses⟩ => ?_) h
    rw [put_of_stale h] at hpasses
    cases hpasses

/-- A write finds nothing to do exactly where the path reads as the text. -/
theorem put_unchanged_iff : (put directory path text false d stops).result = .ok .unchanged ↔
    d.readText directory path = .ok text := by
  refine ⟨fun hunchanged => ?_, fun h => by rw [put_of_current h]⟩
  by_contra h
  cases hreplace : replace directory path text (.start d stops) with
  | mk p failure =>
      rw [put_of_replace h hreplace] at hunchanged
      cases failure <;> cases hunchanged

/-- A text that was written has replaced what was under the path. -/
theorem replace_of_written (h : (put directory path text false d stops).result = .ok .written) :
    replace directory path text (.start d stops) =
      ((put directory path text false d stops).progress, none) := by
  rcases put_succeeded h with ⟨hcurrent, -⟩ | hreplace
  · rw [put_of_current hcurrent] at h
    cases h
  · exact hreplace

/-- **A text that was written** is what the path reads as, and its temporary file is gone. -/
theorem written_in_place (h : (put directory path text false d stops).result = .ok .written) :
    (put directory path text false d stops).progress.disk.readText directory path = .ok text ∧
      (put directory path text false d stops).progress.disk.entry directory (Path.temporary path) =
        .error .notFound := by
  have hreplace := replace_of_written h
  obtain ⟨m, n, hf⟩ := replace_footprint hreplace
  exact ⟨Disk.readText_eq_ok_iff.mpr ⟨_, hf.leads, hf.output⟩, temporary_gone hreplace⟩

/-- **Writing and checking agree.**  A check changes nothing, and it passes exactly if the path
reads as the text, which is exactly if a write leaves it unchanged and so does nothing at all.
After a text was written the path reads as it, the temporary file is gone, and writing or checking
again finds nothing to do.  That is so whatever the system stops, the first time and the next. -/
theorem modes_agree (directory : Location) (path text : String) (d : Disk) (stops : Stops) :
    (put directory path text true d stops).progress = .start d stops ∧
    ((∃ outcome, (put directory path text true d stops).result = .ok outcome) ↔
      d.readText directory path = .ok text) ∧
    ((put directory path text false d stops).result = .ok .unchanged ↔
      d.readText directory path = .ok text) ∧
    ((put directory path text false d stops).result = .ok .unchanged →
      (put directory path text false d stops).progress = .start d stops) ∧
    ∀ d', (put directory path text false d stops).result = .ok .written →
      (put directory path text false d stops).progress.disk = d' →
        d'.readText directory path = .ok text ∧
        d'.entry directory (Path.temporary path) = .error .notFound ∧
        ∀ check stops', put directory path text check d' stops' =
          ⟨.start d' stops', .ok .unchanged⟩ := by
  refine ⟨put_check_progress .., put_check_passes_iff, put_unchanged_iff, fun h => ?_, ?_⟩
  · rw [put_of_current (put_unchanged_iff.mp h)]
  · rintro d' h rfl
    obtain ⟨hread, hgone⟩ := written_in_place h
    exact ⟨hread, hgone, fun check _ => put_of_current hread check⟩

/-- A text that is written beside a directory that is only made for its path. -/
theorem modes_agree_upwards :
    (put [] "a/../b/o" "x" false .empty).result = .ok .written ∧
    (put [] "a/../b/o" "x" false .empty).progress.disk.readText [] "a/../b/o" = .ok "x" ∧
    (put [] "a/../b/o" "x" true (put [] "a/../b/o" "x" false .empty).progress.disk).result =
      .ok .unchanged := by
  have hwritten : (put [] "a/../b/o" "x" false .empty).result = .ok .written := rfl
  obtain ⟨hread, -, hagain⟩ :=
    (modes_agree [] "a/../b/o" "x" .empty .none).2.2.2.2 _ hwritten rfl
  exact ⟨hwritten, hread, by rw [hagain true]⟩

end SchemaEnums.Output
