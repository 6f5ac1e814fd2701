import ClassicAsp.Config.Discovery
import ClassicAsp.Proofs.Ancestors

/-! # Layers of settings

The settings files for a path count in an order: first the one in the home directory, then those
in the directories above the path, from the outermost one on. Each setting has the value that the
last of these files gives it, and files that cannot be read or are malformed do not count. -/

namespace ClassicAsp

/-! ## Finding the files -/

namespace Settings

variable {place : Place} {path : String} {found : List String}

theorem parts_join_fileName (dir : String) :
    Path.parts (Path.join dir fileName) = Path.parts dir ++ [fileName] :=
  Path.parts_join dir (by decide) (by decide)

/-- Files in directories that enclose one another are at different paths. -/
theorem parts_join_ne_of_encloses {outer inner : String} (h : Path.Encloses outer inner) :
    Path.parts (Path.join outer fileName) ≠ Path.parts (Path.join inner fileName) := by
  rw [parts_join_fileName, parts_join_fileName]
  exact fun he => h.2 (List.append_cancel_right he)

/-- Is the path different from all that are found? -/
def isNew (found : List String) (path : String) : Bool :=
  found.all fun f => Path.parts f != Path.parts path

theorem addPath_eq (found : List String) (path : String) :
    addPath found path = found ++ if isNew found path then [path] else [] := by
  have hany : (found.any fun f => Path.parts f == Path.parts path) = !isNew found path := by
    simp [isNew, List.not_all_eq_any_not, bne]
  rw [addPath, hany]
  cases isNew found path <;> simp

/-- Paths that differ from one another are added unless they were found before. -/
theorem foldl_addPath {candidates : List String}
    (h : candidates.Pairwise fun a b => Path.parts a ≠ Path.parts b) :
    candidates.foldl addPath found = found ++ candidates.filter (isNew found) := by
  induction candidates generalizing found with
  | nil => simp
  | cons candidate candidates ih =>
      obtain ⟨hfirst, hrest⟩ := List.pairwise_cons.mp h
      have hnew : candidates.filter (isNew (addPath found candidate)) =
          candidates.filter (isNew found) := by
        refine List.filter_congr fun other hother => ?_
        have hne := hfirst other hother
        rw [addPath_eq, isNew, List.all_append]
        split <;> simp [isNew, hne]
      rw [List.foldl_cons, ih hrest, hnew, addPath_eq, List.append_assoc, List.filter_cons]
      cases isNew found candidate <;> rfl

/-- The settings file in the home directory, if there is one. -/
def homeFile? (place : Place) : Option String :=
  (place.home.map (Path.join · fileName)).filter place.isFile

/-- The directories whose settings files count after that of the home directory. -/
structure Layers (place : Place) (path : String) (dirs : List String) : Prop where
  /-- They are those from where the search starts upward that hold a settings file, other than
  the one in the home directory. -/
  mem_iff : ∀ dir, dir ∈ dirs ↔
    (∃ start, startDirectory? place path = some start ∧ Path.Above start dir) ∧
    place.isFile (Path.join dir fileName) = true ∧
    ∀ home, homeFile? place = some home →
      Path.parts home ≠ Path.parts (Path.join dir fileName)
  outermost_first : dirs.Pairwise Path.Encloses

/-- The directories from where the search starts upward, the outermost one first. -/
def searched (place : Place) (path : String) : List String :=
  (((startDirectory? place path).map Path.ancestors).getD []).reverse

theorem mem_searched_iff (dir : String) : dir ∈ searched place path ↔
    ∃ start, startDirectory? place path = some start ∧ Path.Above start dir := by
  rw [searched, List.mem_reverse]
  cases startDirectory? place path with
  | none => simp
  | some start => simp [Path.mem_ancestors_iff]

theorem pairwise_searched (place : Place) (path : String) :
    (searched place path).Pairwise Path.Encloses := by
  rw [searched]
  cases startDirectory? place path with
  | none => exact .nil
  | some start => exact Path.pairwise_encloses_ancestors start

/-- Does the directory hold a settings file, other than the one in the home directory? -/
def isLayer (place : Place) (dir : String) : Bool :=
  place.isFile (Path.join dir fileName) &&
    isNew (homeFile? place).toList (Path.join dir fileName)

theorem pairwise_candidates {dirs : List String} (h : dirs.Pairwise Path.Encloses) :
    (dirs.map (Path.join · fileName)).Pairwise fun a b => Path.parts a ≠ Path.parts b :=
  List.pairwise_map.mpr (h.imp parts_join_ne_of_encloses)

theorem discover_eq (place : Place) (path : String) :
    discover place path = (homeFile? place).toList ++
      ((searched place path).filter (isLayer place)).map (Path.join · fileName) := by
  have hhome : (place.home.map (Path.join · fileName)).toList.filter place.isFile =
      (homeFile? place).toList := by
    rw [homeFile?, Option.toList_filter]
  have hfiles : ((searched place path).map (Path.join · fileName)).filter place.isFile =
      ((searched place path).filter (place.isFile <| Path.join · fileName)).map
        (Path.join · fileName) := List.filter_map
  have hdistinct := pairwise_candidates
    ((pairwise_searched place path).filter (place.isFile <| Path.join · fileName))
  rw [discover, hhome]
  change List.foldl addPath _ (List.filter _ ((searched place path).map (Path.join · fileName))) = _
  rw [hfiles, foldl_addPath hdistinct, List.filter_map, List.filter_filter]
  congr 3
  funext dir
  exact Bool.and_comm _ _

theorem layers_searched (place : Place) (path : String) :
    Layers place path ((searched place path).filter (isLayer place)) where
  mem_iff dir := by
    rw [List.mem_filter, mem_searched_iff, isLayer, Bool.and_eq_true, isNew, List.all_eq_true]
    simp
  outermost_first := (pairwise_searched place path).filter _

theorem Layers.pairwise_files {dirs : List String} (h : Layers place path dirs) :
    ((homeFile? place).toList ++ dirs.map (Path.join · fileName)).Pairwise
      fun a b => Path.parts a ≠ Path.parts b := by
  refine List.pairwise_append.mpr ⟨?_, pairwise_candidates h.outermost_first, ?_⟩
  · cases homeFile? place <;> simp
  · intro home hhome file hfile
    obtain ⟨dir, hdir, rfl⟩ := List.mem_map.mp hfile
    exact ((h.mem_iff dir).mp hdir).2.2 home (Option.mem_toList.mp hhome)

/-! ## Reading a file -/

/-- The settings in a file that can be read as text and is well formed. -/
def inFile? (place : Place) (file : String) : Option Settings :=
  match place.files.readText place.cwd file with
  | .ok text => (place.settings text).toOption
  | .error _ => none

theorem toOption_load (place : Place) (file : String) :
    (load place file).toOption = inFile? place file := by
  rw [load, inFile?]
  cases place.files.readText place.cwd file with
  | error e => rfl
  | ok text => cases h : place.settings text <;> simp [h, Except.toOption]

end Settings

/-! ## Settings one by one -/

namespace Config

theorem mergeOrWarn_fst (place : Place) (state : Config × List String) (file : String) :
    (mergeOrWarn place state file).1 = (state.1.merge place file).2 := by
  rw [mergeOrWarn, merge]
  cases Settings.load place file <;> rfl

theorem merge_cases (c : Config) (place : Place) (file : String) :
    (∃ s, Settings.inFile? place file = some s ∧ c.merge place file = (.ok (), c.apply s)) ∨
      ∃ e, Settings.inFile? place file = none ∧ c.merge place file = (.error e, c) := by
  rw [← Settings.toOption_load, merge]
  cases Settings.load place file with
  | error e => exact .inr ⟨e, rfl, rfl⟩
  | ok s => exact .inl ⟨s, rfl, rfl⟩

/-- One of the settings, by the type of its values. -/
inductive Field : Type → Type where
  | indent : Field Nat
  | imposeIndent : Field Bool
  | imposeCase : Field Bool
  | imposeWhitespace : Field Bool
  | blankLines : Field Bool
  | tablePath : Field (Option String)
  | cacheSeconds : Field Nat
  | maxLoopIterations : Field Nat
  | maxLines : Field Nat
  | maxTokenLength : Field Nat
  | maxTextLength : Field Nat
  | maxNestingDepth : Field Nat

namespace Field

variable {α : Type} {place : Place}

/-- The value of a setting. -/
def get : Field α → Config → α
  | .indent, c => c.indent
  | .imposeIndent, c => c.imposeIndent
  | .imposeCase, c => c.imposeCase
  | .imposeWhitespace, c => c.imposeWhitespace
  | .blankLines, c => c.blankLines
  | .tablePath, c => c.tablePath
  | .cacheSeconds, c => c.cacheSeconds
  | .maxLoopIterations, c => c.limits.maxLoopIterations
  | .maxLines, c => c.limits.maxLines
  | .maxTokenLength, c => c.limits.maxTokenLength
  | .maxTextLength, c => c.limits.maxTextLength
  | .maxNestingDepth, c => c.limits.maxNestingDepth

/-- The value that a file's settings give. A file names a table but cannot take one away. -/
def given? : Field α → Settings → Option α
  | .indent, s => s.indent
  | .imposeIndent, s => s.imposeIndent
  | .imposeCase, s => s.imposeCase
  | .imposeWhitespace, s => s.imposeWhitespace
  | .blankLines, s => s.blankLines
  | .tablePath, s => s.tablePath.map some
  | .cacheSeconds, s => s.cacheSeconds
  | .maxLoopIterations, s => s.maxLoopIterations
  | .maxLines, s => s.maxLines
  | .maxTokenLength, s => s.maxTokenLength
  | .maxTextLength, s => s.maxTextLength
  | .maxNestingDepth, s => s.maxNestingDepth

theorem get_apply (f : Field α) (c : Config) (s : Settings) :
    f.get (c.apply s) = (f.given? s).getD (f.get c) := by
  cases f with
  | tablePath =>
      rw [get, apply, given?]
      cases s.tablePath <;> rfl
  | _ => rfl

/-- The value that a file gives. -/
def inFile? (f : Field α) (place : Place) (file : String) : Option α :=
  (Settings.inFile? place file).bind f.given?

/-- One file changes the settings that it gives and leaves the others alone. -/
theorem get_merge (f : Field α) (c : Config) (place : Place) (file : String) :
    f.get (c.merge place file).2 = (f.inFile? place file).getD (f.get c) := by
  rcases merge_cases c place file with ⟨s, hs, hmerge⟩ | ⟨e, hs, hmerge⟩
  · rw [hmerge, inFile?, hs]
    exact f.get_apply c s
  · rw [hmerge, inFile?, hs]
    rfl

/-- Of many files, the last one that gives a setting counts. -/
theorem get_foldl_mergeOrWarn (f : Field α) (place : Place) (files : List String)
    (state : Config × List String) :
    f.get (files.foldl (mergeOrWarn place) state).1 =
      (files.filterMap (f.inFile? place)).getLast?.getD (f.get state.1) := by
  induction files generalizing state with
  | nil => rfl
  | cons file files ih =>
      rw [List.foldl_cons, ih, mergeOrWarn_fst, get_merge]
      cases h : f.inFile? place file with
      | none => rw [List.filterMap_cons_none h, Option.getD_none]
      | some value =>
          rw [List.filterMap_cons_some h, List.getLast?_cons, Option.getD_some, Option.getD_some]

end Field

attribute [ext] Limits Config

/-- There are no settings besides these. -/
theorem eq_of_get {c d : Config} (h : ∀ {α : Type} (f : Field α), f.get c = f.get d) : c = d := by
  have hlimits : c.limits = d.limits :=
    Limits.ext (h .maxLoopIterations) (h .maxLines) (h .maxTokenLength) (h .maxTextLength)
      (h .maxNestingDepth)
  exact Config.ext (h .indent) (h .imposeIndent) (h .imposeCase) (h .imposeWhitespace)
    (h .blankLines) (h .tablePath) (h .cacheSeconds) hlimits

theorem discovered_eq_iff (place : Place) (path : String) (config : Config) :
    (discovered place path).1 = config ↔ ∀ {α : Type} (f : Field α), f.get config =
      ((Settings.discover place path).filterMap (f.inFile? place)).getLast?.getD (f.get {}) := by
  constructor
  · rintro rfl α f
    exact f.get_foldl_mergeOrWarn place _ _
  · intro h
    refine eq_of_get fun f => ?_
    rw [h f]
    exact f.get_foldl_mergeOrWarn place _ _

theorem merge_ok_iff (config : Config) (place : Place) (file : String) :
    (config.merge place file).1 = .ok () ↔ (Settings.inFile? place file).isSome := by
  rcases config.merge_cases place file with ⟨s, hs, hmerge⟩ | ⟨e, hs, hmerge⟩
  · simp [hs, hmerge]
  · simp [hs, hmerge]

theorem merge_of_error (config : Config) (place : Place) (file : String)
    (h : (config.merge place file).1 ≠ .ok ()) : (config.merge place file).2 = config := by
  rcases config.merge_cases place file with ⟨s, hs, hmerge⟩ | ⟨e, hs, hmerge⟩
  · exact absurd (by rw [hmerge]) h
  · rw [hmerge]

/-- The settings files for a path are listed once each: first the one in the home directory, which
the environment names in one of two ways, then those in the directories from the outermost one
down to where the search starts. The settings for the path are those where each has the value in
the last of these files that can be read, is well formed and gives it, or else its default. One
file that is merged changes just the settings that it gives, and none if that fails. -/
theorem last_file_counts (files : FileTree) (cwd : List String) (home profile : Option String)
    (path : String) :
    let place : Place := { files, cwd, home := Place.homeOf? home profile }
    let found := Settings.discover place path
    (∃ dirs, Settings.Layers place path dirs ∧
      found = (Settings.homeFile? place).toList ++ dirs.map (Path.join · Settings.fileName)) ∧
    (found.Pairwise fun a b => Path.parts a ≠ Path.parts b) ∧
    (∀ config : Config, (discovered place path).1 = config ↔ ∀ {α : Type} (f : Field α),
      f.get config = (found.filterMap (f.inFile? place)).getLast?.getD (f.get {})) ∧
    ∀ (config : Config) (file : String),
      ((config.merge place file).1 = .ok () ↔ (Settings.inFile? place file).isSome) ∧
      ((config.merge place file).1 ≠ .ok () → (config.merge place file).2 = config) ∧
      ∀ {α : Type} (f : Field α), f.get (config.merge place file).2 =
        (f.inFile? place file).getD (f.get config) := by
  intro place found
  have hlayers := Settings.layers_searched place path
  have hfound := Settings.discover_eq place path
  refine ⟨⟨_, hlayers, hfound⟩, ?distinct, discovered_eq_iff place path, ?merge⟩
  case distinct =>
    have hdistinct := hlayers.pairwise_files
    rwa [← hfound] at hdistinct
  case merge =>
    intro config file
    exact ⟨config.merge_ok_iff place file, config.merge_of_error place file,
      fun f => f.get_merge config place file⟩

-- The home directory is above the path and keeps its place in front; a malformed file is listed
-- but gives nothing.
example :
    let place : Place := {
      files := [
        (["aspfmt.toml"], .file "impose_case = false".toUTF8),
        (["home", "aspfmt.toml"], .file "indent = 2".toUTF8),
        (["home", "site", "aspfmt.toml"], .file "indent = ".toUTF8)]
      home := Place.homeOf? none (some "/home/") }
    Settings.discover place "/home/site" =
        ["/home/aspfmt.toml", "/aspfmt.toml", "/home/site/aspfmt.toml"] ∧
      (discovered place "/home/site").1 = { indent := 2, imposeCase := false } := by
  decide +kernel

end Config

end ClassicAsp
