import SchemaEnums.Proofs.Output.Write

/-!
# Output — Footprint

Which places of the disk differ after a text was put under a path.

The text goes to the path with `.tmp` at its end first, and that file then takes the path's place;
whatever file stood there before is lost.  So there are three places that may differ
(`replace_footprint`): the path's own, directories around it, and the one beside it under the
temporary name, where nothing is left.
-/

namespace SchemaEnums.Output
open Files

variable {directory : Location} {d : Disk}

/-! ### The two paths -/

/-- The last of the names that a file is written under. -/
theorem write_isFileName {content : ByteArray} {c : Change} {path n : String} {ns : List String}
    (hw : d.write directory path content = .ok c) (hnames : Path.names path = ns ++ [n]) :
    Path.IsFileName n := by
  obtain ⟨-, -, -, -, hn, -⟩ := Disk.write_place hnames hw
  exact hn

/-- **The temporary path** of a path that a text was put under is that path with `.tmp` at its end;
otherwise the temporary file could not have been written, or not given the path's name. -/
theorem names_of_steps {path : String} {content : ByteArray} {c c' : Change}
    (hw : d.write directory (Path.temporary path) content = .ok c)
    (hr : (c.apply d).rename directory (Path.temporary path) path = .ok c') :
    ∃ ns n, Path.names path = ns ++ [n] ∧ Path.IsFileName n ∧
      Path.temporary path = path ++ ".tmp" ∧ Path.names (Path.temporary path) = ns ++ [n ++ ".tmp"] ∧
      Path.IsFileName (n ++ ".tmp") := by
  obtain ⟨-, ns, n, -, -, hnames, hn, -⟩ := Disk.rename_place hr
  rcases Path.temporary_cases hnames hn with htemporary | hdots
  · have hnames' : Path.names (Path.temporary path) = ns ++ [n ++ ".tmp"] := by
      rw [htemporary, Path.names_append hnames (by decide)]
    exact ⟨ns, n, hnames, hn, htemporary, hnames', write_isFileName hw hnames'⟩
  · exact absurd (write_isFileName hw hdots) (by decide)

/-- The path and the path with something at its end begin at one place. -/
theorem origin_append {path : String} (h : path ≠ "") (suffix : String) :
    Disk.origin directory (path ++ suffix) = Disk.origin directory path := by
  rw [Disk.origin, Disk.origin, Path.isAbsolute, Path.isAbsolute, String.toList_append]
  cases hpath : path.toList with
  | nil => exact absurd (String.toList_injective hpath) h
  | cons x rest => rfl

/-- The file `n` in the directory `m` was replaced by way of its temporary file. -/
structure Replaced (m : Location) (n text : String) (d d' : Disk) : Prop where
  output    : d.get? (m ++ [n]) ≠ some .directory
  temporary : d.get? (m ++ [n ++ ".tmp"]) ≠ some .directory
  get?      : ∀ l, d'.get? l =
    if l = m ++ [n] then some (.file text.toUTF8)
    else if l = m ++ [n ++ ".tmp"] then none else d.get? l

theorem Replaced.keeps_directory {m : Location} {n text : String} {d d' : Disk}
    (h : Replaced m n text d d') (l : Location) (hl : d.get? l = some .directory) :
    d'.get? l = some .directory := by
  rw [h.get?, if_neg, if_neg, hl]
  · rintro rfl
    exact h.temporary hl
  · rintro rfl
    exact h.output hl

theorem tmp_ne (m : Location) (n : String) : m ++ [n ++ ".tmp"] ≠ m ++ [n] := by
  intro h
  have hlength := congrArg String.length (List.singleton_inj.mp (List.append_cancel_left h))
  rw [String.length_append] at hlength
  exact absurd (Nat.add_eq_left.mp hlength) (by decide)

/-- A file is written and then moved to the place beside it. -/
theorem replaced_of_changes {d : Disk} {m : Location} {n text : String}
    (htemporary : d.get? (m ++ [n ++ ".tmp"]) ≠ some .directory)
    (houtput : ((Change.writeFile (m ++ [n ++ ".tmp"]) text.toUTF8).apply d).get? (m ++ [n]) ≠
      some .directory) :
    Replaced m n text d ((Change.moveFile (m ++ [n ++ ".tmp"]) (m ++ [n])).apply
      ((Change.writeFile (m ++ [n ++ ".tmp"]) text.toUTF8).apply d)) := by
  have hwritten := Disk.get?_put d (l := m ++ [n ++ ".tmp"]) (by simp) (.file text.toUTF8)
  refine ⟨?_, htemporary, fun l => ?_⟩
  · rwa [Change.apply, hwritten, if_neg (tmp_ne m n).symm] at houtput
  · have hsource := hwritten (m ++ [n ++ ".tmp"])
    rw [if_pos rfl] at hsource
    rw [Change.apply, Change.apply, hsource]
    dsimp only
    rw [Disk.get?_put _ (by simp), Disk.get?_erase _ (by simp), hwritten]
    by_cases hl : l = m ++ [n ++ ".tmp"]
    · simp only [if_pos hl]
    · simp only [if_neg hl]

/-- Writing the temporary file and giving it the path's name. -/
theorem replaced_of_steps {d : Disk} {path text : String} {c c' : Change}
    (hw : d.write directory (Path.temporary path) text.toUTF8 = .ok c)
    (hr : (c.apply d).rename directory (Path.temporary path) path = .ok c') :
    ∃ m n, Replaced m n text d (c'.apply (c.apply d)) ∧
      (c'.apply (c.apply d)).locate directory path = .ok (m ++ [n]) := by
  obtain ⟨ns, n, hnames, hn, htemporary, hnames', -⟩ := names_of_steps hw hr
  obtain ⟨old, ns', n', m, hold, hsplit, -, rfl, hfollow, -, hfile⟩ := Disk.rename_place hr
  obtain ⟨rfl, hlast⟩ := List.append_inj' (hnames.symm.trans hsplit) rfl
  obtain rfl := List.singleton_inj.mp hlast
  obtain ⟨m', rfl, hfollow', hdir, -, hfile'⟩ := Disk.write_place hnames' hw
  obtain ⟨t, hc, -, -, hlocate⟩ := Disk.write_eq_ok hw
  obtain ⟨rfl, -⟩ := Change.writeFile.inj hc
  obtain rfl : m' ++ [n ++ ".tmp"] = old := Except.ok.inj ((hlocate _).symm.trans hold)
  rw [htemporary, origin_append (hn.path_ne_empty hnames)] at hfollow'
  -- both names stand in the directory that the names before them lead to
  have hgrows : d.Grows ((Change.writeFile (m' ++ [n ++ ".tmp"]) text.toUTF8).apply d) :=
    Disk.grows_put (by simp) fun h => absurd h hfile'
  obtain rfl : m' = m := by
    rw [Disk.follow_mono hgrows hfollow'] at hfollow
    exact Except.ok.inj hfollow
  have hreplaced := replaced_of_changes hfile' hfile
  refine ⟨m', n, hreplaced, Disk.locate_concat hnames hn
    (Disk.follow_directory hreplaced.keeps_directory hfollow' hdir)
    (hreplaced.keeps_directory m' hdir) ?_⟩
  rw [hreplaced.get?, if_pos rfl]
  rfl

/-- What putting a text under a path by way of its temporary file touches: the file `n` in the
directory `m`, the one beside it under the temporary name, and directories around the path. -/
structure Footprint (directory : Location) (path text : String) (m : Location) (n : String)
    (d d' : Disk) : Prop where
  leads      : d'.locate directory path = .ok (m ++ [n])
  output     : d'.get? (m ++ [n]) = some (.file text.toUTF8)
  /-- Neither of the two files has taken the place of a directory. -/
  files      : d.get? (m ++ [n]) ≠ some .directory ∧ d.get? (m ++ [n ++ ".tmp"]) ≠ some .directory
  temporary  : d'.get? (m ++ [n ++ ".tmp"]) = none
  elsewhere  : ∀ l, l ≠ m ++ [n] → l ≠ m ++ [n ++ ".tmp"] →
    d'.get? l = d.get? l ∨ d.get? l = none ∧ d'.get? l = some .directory ∧
      ∃ q, Around q path ∧ d'.locate directory q = .ok l

/-- **A text is put in place within its footprint.** -/
theorem replace_footprint {path text : String} {p p' : Progress}
    (h : replace directory path text p = (p', none)) :
    ∃ m n, Footprint directory path text m n p.disk p'.disk := by
  have hmade := makeParents_made directory path p
  obtain ⟨p₁, c, c', hp₁, hw, hr, hp'⟩ := replace_steps h
  rw [hp₁] at hmade
  obtain ⟨m, n, hreplaced, hleads⟩ := replaced_of_steps hw hr
  rw [← hp'] at hreplaced hleads
  have hget := hreplaced.get?
  have hnew : ∀ l, p₁.disk.get? l ≠ some .directory → p.disk.get? l ≠ some .directory :=
    fun l hl hold => hl (hmade.grows.directory l hold)
  refine ⟨m, n, hleads, ?_, ⟨hnew _ hreplaced.output, hnew _ hreplaced.temporary⟩, ?_,
    fun l hout htmp => ?_⟩
  · rw [hget, if_pos rfl]
  · rw [hget, if_neg (tmp_ne m n), if_pos rfl]
  · have hl := hget l
    rw [if_neg hout, if_neg htmp] at hl
    rcases hmade l with heq | ⟨hnone, hdir, q, hq, hql⟩
    · exact .inl (hl.trans heq)
    · exact .inr ⟨hnone, hl.trans hdir, q, hq,
        Disk.locate_directory hreplaced.keeps_directory hql hdir⟩

/-- The temporary file is gone, and nothing else has come under its path. -/
theorem temporary_gone {path text : String} {p p' : Progress}
    (h : replace directory path text p = (p', none)) :
    p'.disk.entry directory (Path.temporary path) = .error .notFound := by
  obtain ⟨p₁, c, c', -, hw, hr, -⟩ := replace_steps h
  obtain ⟨ns, n, hnames, hn, htemporary, hnames', hn'⟩ := names_of_steps hw hr
  obtain ⟨m, n', hf⟩ := replace_footprint h
  obtain ⟨m', heq, hfollow, hdir⟩ := Disk.eq_concat_of_locate hnames hn hf.leads
  obtain ⟨rfl, hlast⟩ := List.append_inj' heq rfl
  obtain rfl := List.singleton_inj.mp hlast
  rw [← origin_append (hn.path_ne_empty hnames) ".tmp", ← htemporary] at hfollow
  rw [Disk.entry, Disk.locate_missing hnames' hn' hfollow hdir hf.temporary]
  rfl

end SchemaEnums.Output
