import SchemaEnums.Proofs.Files.Place
import SchemaEnums.Proofs.Output.Footprint

/-!
# Output — Moments

What a reader of the output finds while the text is put in place.

Directories around a path that leads downwards do not change what it gives, and neither does the
temporary file, whole or not: it stands beside the path and never on the way to it
(`temporary_place`).  So whenever the path is read, it gives what it gave or the whole new text, and
if the system stops the work on the way, what it gave (`output_whole_at_every_moment`).
-/

namespace SchemaEnums.Output
open Files

variable {directory : Location} {d d' : Disk} {path : String}

/-! ### Around the path -/

/-- What is above a path has a part of its steps. -/
theorem Above.steps {q : String} (h : Above q path) : q = "" ∨
    Path.steps q <+: Path.steps path ∧ Path.isAbsolute q = Path.isAbsolute path ∧
      ∀ n ∈ Path.names q, n ∈ Path.names path := by
  induction h with
  | self => exact .inr ⟨List.prefix_rfl, rfl, fun _ => id⟩
  | parent hparent above ih =>
      rcases ih with hq | ⟨hsteps, habsolute, hnames⟩
      · exact .inl hq
      · rcases Path.parent?_cases hparent with rfl | ⟨n, hpath, habsolute', hnames'⟩
        · -- nothing is above the path without names
          cases above with
          | self => exact .inl rfl
          | parent h => cases h
        · right
          refine ⟨hsteps.trans ?_, habsolute.trans habsolute', fun m hm => hnames' m (hnames m hm)⟩
          rw [hpath]
          exact List.prefix_append _ _

/-- What is around a path has fewer steps. -/
theorem Around.place_ne {q : String} (h : Around q path) (directory : Location) (hq : q ≠ "") :
    Disk.place directory q ≠ Disk.place directory path ∧
      ∀ n ∈ Path.names q, n ∈ Path.names path := by
  obtain ⟨parent, hparent, above⟩ := h
  rcases Path.parent?_cases hparent with rfl | ⟨n, hpath, habsolute', hnames'⟩
  · cases above with
    | self => exact absurd rfl hq
    | parent h => cases h
  · rcases above.steps with hempty | ⟨hsteps, habsolute, hnames⟩
    · exact absurd hempty hq
    · refine ⟨fun heq => ?_, fun m hm => hnames' m (hnames m hm)⟩
      rw [Disk.place, Disk.place, Disk.origin, Disk.origin, habsolute, habsolute',
        List.append_cancel_left_eq, hpath] at heq
      have hlength := hsteps.length_le
      rw [heq, List.length_append, List.length_singleton] at hlength
      omega

/-- Directories made around a path that leads downwards stand before its place. -/
theorem MadeDirectories.before (h : MadeDirectories directory (Around · path) d d')
    (hpath : Path.Descends path) : Disk.MadeBefore (Disk.place directory path) d d' := by
  intro k _
  refine (h k).imp id fun ⟨hnone, hdir, q, hq, hlocate⟩ => ⟨hnone, hdir, ?_⟩
  have hne : q ≠ "" := by
    rintro rfl
    cases hlocate
  obtain ⟨hplace, hnames⟩ := hq.place_ne directory hne
  rw [Disk.locate_place (fun hdots => hpath (hnames _ hdots)) hlocate]
  exact hplace

/-- They do not change what the path leads to. -/
theorem MadeDirectories.entry_eq (h : MadeDirectories directory (Around · path) d d')
    (tree : d.IsTree) (hpath : Path.Descends path) :
    d'.entry directory path = d.entry directory path :=
  (h.before hpath).entry_eq tree hpath

/-! ### Beside the path -/

/-- The names of a path up to the last that says something, or to the only one. -/
theorem exists_last (path : String) : ∃ ns n trail, Path.names path = ns ++ n :: trail ∧
    Path.trimmed (Path.names path) = ns ++ [n] ∧ ∀ m ∈ trail, Path.isTrivial m = true := by
  obtain ⟨trail, htrail, htrivial⟩ := Path.exists_trail (Path.names path)
  rcases List.eq_nil_or_concat' (Path.trimmed (Path.names path)) with hnil | ⟨ns, n, hns⟩
  · obtain ⟨x, xs, hx⟩ := List.exists_cons_of_ne_nil (Path.split_ne_nil path.toList)
    rw [Path.names, hx] at hnil
    cases hnil
  · exact ⟨ns, n, trail, by rw [hns, List.append_assoc] at htrail; exact htrail, hns, htrivial⟩

theorem origin_temporary {n n' : String} {ns trail : List String}
    (h : Path.names path = ns ++ n :: trail) (hn : Path.IsFileName n)
    (h' : Path.names (Path.temporary path) = ns ++ [n']) :
    Disk.origin directory (Path.temporary path) = Disk.origin directory path := by
  rw [Disk.origin, Disk.origin]
  cases ns with
  | nil =>
      have hpath : Path.isAbsolute path = false := by
        rw [← Bool.not_eq_true, Path.isAbsolute_iff, h]
        rintro ⟨_, _, heq⟩
        rw [(List.cons.inj heq).1] at hn
        exact absurd hn (by decide)
      rw [Path.not_isAbsolute h', hpath]
  | cons m ns =>
      obtain ⟨x, xs, hx⟩ : ∃ x xs, ns ++ n :: trail = x :: xs :=
        List.exists_cons_of_ne_nil (by simp)
      obtain ⟨y, ys, hy⟩ : ∃ y ys, ns ++ [n'] = y :: ys := List.exists_cons_of_ne_nil (by simp)
      rw [List.cons_append, hx] at h
      rw [List.cons_append, hy] at h'
      rw [Path.isAbsolute_eq h' h]

/-- **The temporary file stands beside the path**, where that has a file name. -/
theorem temporary_place {content : ByteArray} {c : Change} (hpath : Path.Descends path)
    (hw : d.write directory (Path.temporary path) content = .ok c) :
    ∃ m n, c = .writeFile (m ++ [n ++ ".tmp"]) content ∧
      d.get? (m ++ [n ++ ".tmp"]) ≠ some .directory ∧ Disk.place directory path = m ++ [n] := by
  obtain ⟨ns, n, trail, hnames, htrimmed, htrivial⟩ := exists_last path
  by_cases hn : Path.IsFileName n
  · rcases Path.names_temporary hnames hn htrivial with htemporary | hdots
    · obtain ⟨m, rfl, hfollow, hdir, -, hfile⟩ := Disk.write_place htemporary hw
      have hns : ".." ∉ ns := fun h => hpath (by rw [hnames]; exact List.mem_append_left _ h)
      rw [origin_temporary hnames hn htemporary] at hfollow
      refine ⟨m, n, rfl, hfile, ?_⟩
      rw [Disk.follow_place hns hfollow, Disk.place, Path.steps, hnames, Path.stepsOf_append,
        Path.stepsOf_cons hn.not_isTrivial, Path.stepsOf_eq_nil htrivial, List.append_assoc]
    · exact absurd (write_isFileName hw hdots) (by decide)
  · -- a path without a file name is its own temporary path, and nothing is written to it
    have hnone : Path.fileName? path = none := by
      rw [Path.fileName?, htrimmed, List.getLast?_concat]
      simpa [Path.IsFileName] using hn
    rw [Path.temporary_of_no_fileName hnone] at hw
    rcases List.eq_nil_or_concat' trail with rfl | ⟨trail, x, rfl⟩
    · exact absurd (write_isFileName hw hnames) hn
    · have hx := write_isFileName hw (hnames.trans (by simp : _ = (ns ++ n :: trail) ++ [x]))
      rw [Path.IsFileName, htrivial x (by simp)] at hx
      cases hx

/-! ### At every moment -/

/-- What a path leads to is untouched by a file beside it and by directories around it. -/
theorem entry_put_beside {m : Location} {n : String} {content : ByteArray} {d₁ : Disk}
    (tree : d.IsTree) (hpath : Path.Descends path)
    (hmade : MadeDirectories directory (Around · path) d d₁)
    (hplace : Disk.place directory path = m ++ [n]) :
    (d₁.put (m ++ [n ++ ".tmp"]) (.file content)).entry directory path =
      d.entry directory path := by
  have hbefore : Disk.MadeBefore (Disk.place directory path) d
      (d₁.put (m ++ [n ++ ".tmp"]) (.file content)) := by
    intro k hk
    have hne : k ≠ m ++ [n ++ ".tmp"] := by
      rintro rfl
      rw [hplace] at hk
      exact tmp_ne m n (hk.eq_of_length (by simp))
    rw [Disk.get?_put _ (by simp), if_neg hne]
    exact hmade.before hpath k hk
  exact hbefore.entry_eq tree hpath

/-- The path gives what it gave before, or the whole text. -/
def OldOrNew (directory : Location) (path text : String) (d d' : Disk) : Prop :=
  d'.entry directory path = d.entry directory path ∨
    d'.entry directory path = .ok (.file text.toUTF8)

/-- While the temporary file is written, the path gives what it gave before. -/
theorem temporary_through {text : String} {p p₁ : Progress} {c : Change} (tree : p.disk.IsTree)
    (hpath : Path.Descends path)
    (hparents : Progress.Through (MadeDirectories directory (Around · path) p.disk) p p₁)
    (hw : p₁.disk.write directory (Path.temporary path) text.toUTF8 = .ok c) :
    ∃ t, c = .writeFile t text.toUTF8 ∧ ∀ content, Progress.Through
      (fun d' => d'.entry directory path = p.disk.entry directory path) p
      (p₁.make (.writeFile t content)) := by
  obtain ⟨m, n, rfl, -, hplace⟩ := temporary_place hpath hw
  have hbeside : ∀ content, (p₁.disk.put (m ++ [n ++ ".tmp"]) (.file content)).entry
      directory path = p.disk.entry directory path := fun content =>
    entry_put_beside tree hpath hparents.last hplace
  refine ⟨_, rfl, fun content => (hparents.imp fun d' hd => hd.entry_eq tree hpath).trans
    (Progress.through_make fun d' hd => ?_)⟩
  -- whatever part of the content the temporary file holds
  rcases seen_one hd with rfl | rfl | ⟨l, _, k, hc, rfl⟩
  · exact hparents.last.entry_eq tree hpath
  · exact hbeside _
  · cases hc
    exact hbeside _

/-- **Putting a text in place** leads through disks on which the path gives what it gave before, or
the whole text; and if it fails, it ends on one where the path gives what it gave before. -/
theorem replace_through {text : String} {p p' : Progress} {f : Option Failure}
    (tree : p.disk.IsTree) (hpath : Path.Descends path)
    (h : replace directory path text p = (p', f)) :
    Progress.Through (OldOrNew directory path text p.disk) p p' ∧
      (f ≠ none → p'.disk.entry directory path = p.disk.entry directory path) := by
  have hparents := makeParents_through directory path p
  have hfailed : ∀ {p₁}, Progress.Through
      (fun d' => d'.entry directory path = p.disk.entry directory path) p p₁ →
      Progress.Through (OldOrNew directory path text p.disk) p p₁ ∧
        (f ≠ none → p₁.disk.entry directory path = p.disk.entry directory path) := fun hold =>
    ⟨hold.imp fun _ => .inl, fun _ => hold.last⟩
  have hmade := hparents.imp fun d' hd => hd.entry_eq tree hpath
  cases replace_cases h with
  | unparented parents =>
      rw [parents] at hmade
      exact hfailed hmade
  | unwritten parents write =>
      rw [parents] at hparents hmade
      cases Progress.step_ends write with
      | refused => exact hfailed hmade
      | begun hw n =>
          obtain ⟨t, hc, hwrite⟩ := temporary_through tree hpath hparents hw
          cases hc
          exact hfailed (hwrite _)
  | unrenamed parents write rename =>
      rw [parents] at hparents
      obtain ⟨c, hw, rfl⟩ := Progress.step_made write
      obtain rfl := rename_failed rename
      obtain ⟨t, rfl, hwrite⟩ := temporary_through tree hpath hparents hw
      exact hfailed (hwrite _)
  | done parents write rename =>
      rw [parents] at hparents
      obtain ⟨c, hw, rfl⟩ := Progress.step_made write
      obtain ⟨c', hr, rfl⟩ := Progress.step_made rename
      obtain ⟨t, rfl, hwrite⟩ := temporary_through tree hpath hparents hw
      refine ⟨((hwrite _).imp fun _ => .inl).trans (Progress.through_make fun d' hd => ?_),
        fun h => absurd rfl h⟩
      rcases seen_one hd with rfl | rfl | ⟨l, content, k, rfl, -⟩
      · exact .inl (hwrite _).last
      · obtain ⟨m, n, hf⟩ := replace_footprint h
        exact .inr (Disk.entry_eq_ok_iff.mpr ⟨_, hf.leads, hf.output⟩)
      · obtain ⟨_, _, _, _, -, -, -, hmove, -⟩ := Disk.rename_place hr
        cases hmove

/-- **The old text survives until the new one is whole.**  At every moment while a text is put under
a path that leads downwards, each directory around it and each part of the temporary file included,
the path gives what it gave before, or the whole new text; and if the text could not be put in
place, the path gives what it gave before.  Whatever the system stops on the way, that is so. -/
theorem output_whole_at_every_moment (directory : Location) (path text : String) (d : Disk)
    (stops : Stops) (tree : d.IsTree) (hpath : Path.Descends path) :
    (put directory path text false d stops).progress.disk =
        d.after (put directory path text false d stops).progress.changes ∧
      (∀ d', Seen d (put directory path text false d stops).progress.changes d' →
        d'.entry directory path = d.entry directory path ∨
          d'.entry directory path = .ok (.file text.toUTF8) ∧
            d'.readText directory path = .ok text) ∧
      ∀ f, (put directory path text false d stops).result = .error f →
        (put directory path text false d stops).progress.disk.entry directory path =
          d.entry directory path := by
  by_cases hcurrent : d.readText directory path = .ok text
  · rw [put_of_current hcurrent]
    refine ⟨rfl, fun d' hd => .inl ?_, fun f h => by cases h⟩
    rw [seen_nil hd]
  · cases hreplace : replace directory path text (.start d stops) with
    | mk p failure =>
        obtain ⟨⟨cs, hchanges, hdisk, hseen⟩, hfailed⟩ := replace_through tree hpath hreplace
        have hcs : p.changes = cs := hchanges
        rw [put_of_replace hcurrent hreplace, hcs]
        refine ⟨hdisk, fun d' hd => (hseen d' hd).imp id fun hnew =>
          ⟨hnew, Disk.readText_of_entry hnew⟩, fun g h => hfailed ?_⟩
        rintro rfl
        cases h

/-- A disk with a directory and an output that is out of date. -/
def staleDisk : Disk := ⟨[(["out", "o"], .file "old".toUTF8), (["out"], .directory)]⟩

theorem staleDisk_isTree : staleDisk.IsTree :=
  Disk.isTree_of_entries (List.forall_mem_cons.mpr ⟨rfl, List.forall_mem_singleton.mpr rfl⟩)

/-- While an output that is out of date is replaced, it reads as before or as the new text. -/
theorem output_whole_at_every_moment_stale :
    staleDisk.IsTree ∧ Path.Descends "out//o" ∧
      ∀ d', Seen staleDisk (put [] "out//o" "new" false staleDisk).progress.changes d' →
        d'.entry [] "out//o" = .ok (.file "old".toUTF8) ∨
          d'.readText [] "out//o" = .ok "new" :=
  ⟨staleDisk_isTree, by decide, fun d' hd =>
    ((output_whole_at_every_moment [] "out//o" "new" staleDisk .none staleDisk_isTree
      (by decide)).2.1 d' hd).imp id And.right⟩

end SchemaEnums.Output
