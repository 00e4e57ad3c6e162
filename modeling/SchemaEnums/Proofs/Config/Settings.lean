import SchemaEnums.Config.Resolve
import SchemaEnums.Proofs.Outcome

/-!
# Config — Settings

The options that a file of settings gives: each option has the value that the settings give to its
name, and where they do not name it, that of `Options.default` (`ofSettings?_follows`).  So nothing
of `Options.fallback`, which holds where there is no such file, is in them.
-/

namespace SchemaEnums.Config
open Layout Data

variable {α : Type} {n : Notation α} {o o' : Options} {settings : List (String × α)}

/-! ### Values of options -/

/-- The value of an option. -/
inductive OptionValue where
  | flag    (value : Bool)
  | size    (value : Nat)
  | comma   (value : TrailingComma)
  | lineEnd (value : EndOfLine)
deriving DecidableEq

/-- The value of the option of a name. -/
def valueOf? (o : Options) : String → Option OptionValue
  | "singleQuote"    => some (.flag o.singleQuote)
  | "tabWidth"       => some (.size o.tabWidth)
  | "useTabs"        => some (.flag o.useTabs)
  | "semi"           => some (.flag o.semi)
  | "trailingComma"  => some (.comma o.trailingComma)
  | "bracketSpacing" => some (.flag o.bracketSpacing)
  | "printWidth"     => some (.size o.printWidth)
  | "endOfLine"      => some (.lineEnd o.endOfLine)
  | _                => none

/-- What a value of the notation is for the option of a name. -/
def Notation.value? (n : Notation α) (value : α) : String → Option OptionValue
  | "singleQuote"    => (n.bool? value).map .flag
  | "tabWidth"       => (n.size? value).map .size
  | "useTabs"        => (n.bool? value).map .flag
  | "semi"           => (n.bool? value).map .flag
  | "trailingComma"  => ((n.word? value).bind TrailingComma.ofWord?).map .comma
  | "bracketSpacing" => (n.bool? value).map .flag
  | "printWidth"     => (n.size? value).map .size
  | "endOfLine"      => ((n.word? value).bind EndOfLine.ofWord?).map .lineEnd
  | _                => none

/-- The options say what the settings say, and by default what these leave open. -/
def Follows (n : Notation α) (settings : List (String × α)) (o : Options) : Prop :=
  ∀ name ∈ optionNames, valueOf? o name = match settings.lookup name with
    | some value => n.value? value name
    | none       => valueOf? .default name

/-! ### Assigning -/

/-- **Assigning** gives one option its value and leaves all others alone. -/
theorem valueOf?_assign {name other : String} {value : α} (h : assign n o name value = some o')
    (hother : other ∈ optionNames) :
    valueOf? o' other = if other = name then n.value? value other else valueOf? o other := by
  simp only [optionNames, List.mem_cons, List.not_mem_nil, or_false] at hother
  simp only [assign] at h
  split at h
  case h_9 =>
    cases h
    rw [if_neg]
    rintro rfl
    simp_all
  all_goals
    obtain ⟨x, hx, rfl⟩ := Option.map_eq_some_iff.mp h
    rcases hother with rfl | rfl | rfl | rfl | rfl | rfl | rfl | rfl <;>
      simp [valueOf?, Notation.value?, hx]

/-- Settings are assigned one after another; a name that comes once has its value in the end. -/
theorem valueOf?_foldlM {name : String} (hname : name ∈ optionNames)
    (hnodup : ((settings.map (·.1)).filter optionNames.contains).Nodup)
    (h : settings.foldlM (fun o (name, value) => assign n o name value) o = some o') :
    valueOf? o' name = match settings.lookup name with
      | some value => n.value? value name
      | none       => valueOf? o name := by
  induction settings generalizing o with
  | nil =>
      cases h
      rfl
  | cons s settings ih =>
      obtain ⟨key, value⟩ := s
      rw [List.foldlM_cons] at h
      obtain ⟨o₁, hassign, hlast⟩ := Option.bind_eq_some_iff.mp h
      have hvalue := valueOf?_assign hassign hname
      rw [List.map_cons, List.filter_cons] at hnodup
      by_cases hkey : name = key
      · subst hkey
        rw [if_pos (by simpa using hname), List.nodup_cons, List.mem_filter] at hnodup
        -- the name does not come again, so its value is not overwritten
        have hlater : settings.lookup name = none := by
          rw [List.lookup_eq_none_iff]
          intro s hs
          rw [bne_iff_ne]
          rintro rfl
          exact hnodup.1 ⟨List.mem_map.mpr ⟨s, hs, rfl⟩, by simpa using hname⟩
        rw [ih hnodup.2 hlast, hlater, List.lookup_cons_self]
        exact hvalue.trans (if_pos rfl)
      · have hrest : ((settings.map (·.1)).filter optionNames.contains).Nodup := by
          split at hnodup
          · exact (List.nodup_cons.mp hnodup).2
          · exact hnodup
        rw [ih hrest hlast, List.lookup_cons, beq_eq_false_iff_ne.mpr hkey, hvalue, if_neg hkey]

/-! ### Documents -/

theorem length_eraseDups_le (l : List String) : l.eraseDups.length ≤ l.length := by
  induction hn : l.length using Nat.strongRecOn generalizing l with
  | ind n ih =>
      cases l with
      | nil => exact Nat.zero_le _
      | cons a l =>
          have hfilter := List.length_filter_le (fun b => !b == a) l
          rw [List.length_cons] at hn
          have hle := ih _ (by omega) (l.filter fun b => !b == a) rfl
          rw [List.eraseDups_cons, List.length_cons]
          omega

/-- A list that loses nothing when repetitions are erased has none. -/
theorem nodup_of_eraseDups : ∀ {l : List String}, l.eraseDups.length = l.length → l.Nodup
  | [],     _ => List.nodup_nil
  | a :: l, h => by
      rw [List.eraseDups_cons, List.length_cons, List.length_cons] at h
      have hle := length_eraseDups_le (l.filter fun b => !b == a)
      have hfilter := List.length_filter_le (fun b => !b == a) l
      have hall : l.filter (fun b => !b == a) = l :=
        List.filter_sublist.eq_of_length (by omega)
      rw [hall] at h
      refine List.nodup_cons.mpr ⟨fun ha => ?_, nodup_of_eraseDups (by omega)⟩
      simpa using List.filter_eq_self.mp hall a ha

/-- **Options are those of the settings, and of the defaults where these are silent.** -/
theorem ofSettings?_follows (h : ofSettings? n settings = some o) : Follows n settings o := by
  rw [ofSettings?] at h
  split at h
  case isTrue => cases h
  case isFalse hlength =>
    intro name hname
    exact valueOf?_foldlM hname (nodup_of_eraseDups (by simpa using hlength)) h

theorem follows_of_bind {settings? : Option (List (String × α))}
    (h : settings?.bind (ofSettings? n) = some o) :
    ∃ settings, settings? = some settings ∧ Follows n settings o := by
  obtain ⟨settings, hsettings, h⟩ := Option.bind_eq_some_iff.mp h
  exact ⟨settings, hsettings, ofSettings?_follows h⟩

/-! ### Files -/

/-- The names of files that are read as YAML. -/
def yamlNames : List String := [".prettierrc", ".prettierrc.yaml", ".prettierrc.yml"]

/-- The text of a file of that name says these options: they follow the settings in it. -/
inductive Readers.Says (r : Readers) : (name text : String) → Options → Prop where
  | package {text : String} {j v : Json} {settings : List (String × Json)} {o : Options}
      (hread : r.package text = some j) (hv : j.get? "prettier" = some v)
      (hsettings : jsonSettings? (asData v) = some settings)
      (h : Follows jsonNotation settings o) : Says r "package.json" text o
  | json {text : String} {j : Json} {settings : List (String × Json)} {o : Options}
      (hread : r.json text = some j) (hsettings : jsonSettings? j = some settings)
      (h : Follows jsonNotation settings o) : Says r ".prettierrc.json" text o
  | blank {name text : String} (hname : name ∈ yamlNames) (h : Text.allBlank text = true) :
      Says r name text .default
  | yaml {name text : String} {document : Option Yaml.Node}
      {settings : List (String × Yaml.Node)} {o : Options} (hname : name ∈ yamlNames)
      (hread : r.yaml text = some document) (hsettings : yamlSettings? document = some settings)
      (h : Follows (yamlNotation (document.getD .empty)) settings o) : Says r name text o
  | toml {text : String} {t : Toml.Table} {o : Options} (hread : r.toml text = some t)
      (h : Follows tomlNotation t.entries o) : Says r ".prettierrc.toml" text o

theorem required_eq_ok {dialect : Dialect} {options? : Option Options} {o : Options}
    (h : required dialect options? = .ok (some o)) : options? = some o := by
  cases options? with
  | none => cases h
  | some o => cases h; rfl

theorem Readers.says_of_yaml {r : Readers} {name text : String} (hname : name ∈ yamlNames)
    (h : r.formats.yaml text = some o) : r.Says name text o := by
  simp only [formats] at h
  split at h
  case isTrue hblank =>
    cases h
    exact .blank hname hblank
  case isFalse =>
    obtain ⟨document, hread, h⟩ := Option.bind_eq_some_iff.mp h
    obtain ⟨settings, hsettings, hfollows⟩ := follows_of_bind h
    exact .yaml hname hread hsettings hfollows

theorem Readers.says_of_package {r : Readers} {text : String}
    (h : r.formats.package text = .ok (some o)) : r.Says "package.json" text o := by
  simp only [formats] at h
  split at h
  case h_1 => cases h
  case h_2 j hread =>
    split at h
    case h_1 => cases h
    case h_2 => cases h
    case h_3 v hv =>
      split at h
      case h_1 o' ho =>
        cases h
        obtain ⟨settings, hsettings, hfollows⟩ := follows_of_bind ho
        exact .package hread hv hsettings hfollows
      case h_2 => cases h

/-- **The options read from a file are those it says.** -/
theorem Readers.says_of_read {r : Readers} {name text : String}
    (h : r.formats.read name text = .ok (some o)) : r.Says name text o := by
  simp only [Formats.read] at h
  split at h
  case h_1 => exact says_of_package h
  case h_2 =>
    obtain ⟨j, hread, h⟩ := Option.bind_eq_some_iff.mp (required_eq_ok h)
    obtain ⟨settings, hsettings, hfollows⟩ := follows_of_bind h
    exact .json hread hsettings hfollows
  case h_3 => exact says_of_yaml (by decide) (required_eq_ok h)
  case h_4 => exact says_of_yaml (by decide) (required_eq_ok h)
  case h_5 => exact says_of_yaml (by decide) (required_eq_ok h)
  case h_6 =>
    obtain ⟨t, hread, h⟩ := Option.bind_eq_some_iff.mp (required_eq_ok h)
    exact .toml hread (ofSettings?_follows h)
  case h_7 => cases h

end SchemaEnums.Config
