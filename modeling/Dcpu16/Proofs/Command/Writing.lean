import Dcpu16.Command.Disk
import Dcpu16.Proofs.Except
import Mathlib.Data.List.Infix
import Mathlib.Data.List.SplitBy

/-!
# Writing to a disk

Contents that have been written to a path are found there, and nothing else has changed: no other
file and no directory.  A path leads through directories only, so that the directories on the way
to a new file have been there before it.  Main statement: `Disk.wrote_of_write`.
-/

namespace Dcpu16.Command

/-- The name behind the last slash is the last component of a path. -/
theorem Path.components_eq {path : String} {directory name : List Char}
    (hpath : path.toList = directory ++ name) (hdirectory : ∀ c ∈ directory.getLast?, c = '/')
    (hname : '/' ∉ name) (hne : name ≠ []) :
    components path = components (String.ofList directory) ++ [String.ofList name] := by
  have hslash : ∀ c ∈ name, (c == '/') = false := fun c hc ↦ by
    simpa using ne_of_mem_of_not_mem hc hname
  have hrun : name.IsChain fun c d ↦ ((c == '/') == (d == '/')) = true := by
    refine (List.pairwise_of_forall_mem_list fun c hc d hd ↦ ?_).isChain
    rw [hslash c hc, hslash d hd, BEq.rfl]
  have hcut : ∀ c ∈ directory.getLast?, ∀ d ∈ name.head?,
      ((c == '/') == (d == '/')) = false := by
    intro c hc d hd
    rw [hdirectory c hc, hslash d (List.mem_of_mem_head? hd)]
    rfl
  have hkept : [name].filter (fun run ↦ run.head? != some '/') = [name] := by
    obtain ⟨c, rest, rfl⟩ := List.exists_cons_of_ne_nil hne
    simpa using hslash c List.mem_cons_self
  rw [components, components, hpath, String.toList_ofList, List.splitBy_append hcut,
    List.splitBy_of_isChain hne hrun, List.filter_append, List.map_append, hkept]
  rfl

namespace Disk

/-- How a disk differs from what it was before contents were written to a path. -/
structure Wrote (old : Disk) (path : String) (contents : ByteArray) (new : Disk) : Prop where
  /-- The path leads where it led before, and there the contents are. -/
  holds : ∃ place, old.locate path = .ok place ∧ new.locate path = .ok place ∧
    new.contents? place = some contents
  /-- Elsewhere there are the same files with the same contents. -/
  others : ∀ place, old.locate path ≠ .ok place → new.contents? place = old.contents? place
  directories : ∀ place, new.isDirectory place = old.isDirectory place
  home : new.home = old.home

variable {disk old new : Disk} {place target : Place} {path : String} {contents : ByteArray}

/-! ## Directories -/

/-- A directory is one that is listed or the way to something that is there. -/
theorem isDirectory_iff : disk.isDirectory place = true ↔
    place <+: disk.home ∨ (∃ directory ∈ disk.directories, place <+: directory) ∨
      ∃ file ∈ disk.files.map Prod.fst, place <+: file ∧ place ≠ file := by
  simp [isDirectory, or_assoc]

theorem isDirectory_nil (disk : Disk) : disk.isDirectory [] = true :=
  isDirectory_iff.mpr (.inl List.nil_prefix)

theorem isDirectory_home (disk : Disk) : disk.isDirectory disk.home = true :=
  isDirectory_iff.mpr (.inl (List.prefix_refl _))

/-- What leads to a directory is a directory. -/
theorem isDirectory_above (h : disk.isDirectory target = true) (hp : place <+: target) :
    disk.isDirectory place = true := by
  rw [isDirectory_iff] at h ⊢
  rcases h with hhome | ⟨directory, hmem, hdirectory⟩ | ⟨file, hmem, hfile, hne⟩
  · exact .inl (hp.trans hhome)
  · exact .inr (.inl ⟨directory, hmem, hp.trans hdirectory⟩)
  · refine .inr (.inr ⟨file, hmem, hp.trans hfile, ?_⟩)
    rintro rfl
    exact hne (hfile.eq_of_length_le hp.length_le)

/-! ## Where a path leads -/

/-- From a directory one comes to a directory, or else to an entry of one. -/
theorem isDirectory_of_walk {names : List String} (hplace : disk.isDirectory place = true)
    (h : disk.walk place names = .ok target) :
    disk.isDirectory target = true ∨
      ∃ directory name, target = directory ++ [name] ∧ disk.isDirectory directory = true := by
  fun_induction walk disk place names with
  | case1 place =>
      cases h
      exact .inl hplace
  | case2 place rest ih => exact ih hplace h
  | case3 place rest hdot ih =>
      exact ih (isDirectory_above hplace (List.dropLast_prefix _)) h
  | case4 place name rest hdot hdots hlast =>
      cases h
      exact .inr ⟨place, name, rfl, hplace⟩
  | case5 place name rest hdot hdots hlast hdirectory ih => exact ih hdirectory h
  | case6 => cases h
  | case7 => cases h

/-- If the last name is `.` or `..`, then one comes to a directory. -/
theorem isDirectory_of_walk_dots {names : List String} {name : String}
    (hname : name = "." ∨ name = "..") (hplace : disk.isDirectory place = true)
    (h : disk.walk place (names ++ [name]) = .ok target) : disk.isDirectory target = true := by
  induction names generalizing place with
  | nil =>
      rcases hname with rfl | rfl
      · cases h
        exact hplace
      · cases h
        exact isDirectory_above hplace (List.dropLast_prefix _)
  | cons first names ih =>
      rw [List.cons_append, walk] at h
      split at h
      · exact ih hplace h
      · split at h
        · exact ih (isDirectory_above hplace (List.dropLast_prefix _)) h
        · rw [if_neg (by simp)] at h
          split at h
          · next hdirectory => exact ih hdirectory h
          · split at h <;> cases h

/-- Where a path leads depends on the directories only, as long as it leads somewhere. -/
theorem walk_of_isDirectory {names : List String}
    (hd : ∀ place, new.isDirectory place = old.isDirectory place)
    (h : old.walk place names = .ok target) : new.walk place names = .ok target := by
  fun_induction walk old place names with
  | case1 => rwa [walk]
  | case2 place rest ih => rw [walk, if_pos rfl, ih h]
  | case3 place rest hdot ih => rw [walk, if_neg hdot, if_pos rfl, ih h]
  | case4 place name rest hdot hdots hlast => rw [walk, if_neg hdot, if_neg hdots, if_pos hlast, h]
  | case5 place name rest hdot hdots hlast hdirectory ih =>
      rw [walk, if_neg hdot, if_neg hdots, if_neg hlast, hd, if_pos hdirectory, ih h]
  | case6 => cases h
  | case7 => cases h

/-- A path that leads somewhere starts at a directory. -/
theorem walk_of_locate (h : disk.locate path = .ok target) :
    ∃ start, disk.isDirectory start = true ∧
      disk.walk start (Path.components path) = .ok target := by
  rw [locate] at h
  split at h
  · cases h
  · refine ⟨_, ?_, h⟩
    split
    · exact isDirectory_nil disk
    · exact isDirectory_home disk

theorem isDirectory_of_locate (h : disk.locate path = .ok target) :
    disk.isDirectory target = true ∨
      ∃ directory name, target = directory ++ [name] ∧ disk.isDirectory directory = true := by
  obtain ⟨start, hstart, hwalk⟩ := walk_of_locate h
  exact isDirectory_of_walk hstart hwalk

/-- A path that ends in `.` or `..` leads to a directory, if anywhere. -/
theorem isDirectory_of_locate_dots {directory name : List Char}
    (hpath : path.toList = directory ++ name) (hdirectory : ∀ c ∈ directory.getLast?, c = '/')
    (hname : name = ['.'] ∨ name = ['.', '.']) (h : disk.locate path = .ok target) :
    disk.isDirectory target = true := by
  obtain ⟨start, hstart, hwalk⟩ := walk_of_locate h
  have hcomponents : Path.components path =
      Path.components (String.ofList directory) ++ [String.ofList name] := by
    refine Path.components_eq hpath hdirectory ?_ ?_ <;> rcases hname with rfl | rfl <;> decide
  have hdots : String.ofList name = "." ∨ String.ofList name = ".." := by
    rcases hname with rfl | rfl
    · exact .inl rfl
    · exact .inr rfl
  rw [hcomponents] at hwalk
  exact isDirectory_of_walk_dots hdots hstart hwalk

/-- Where a path leads depends on the directories only. -/
theorem locate_of_isDirectory (hhome : new.home = old.home)
    (hd : ∀ place, new.isDirectory place = old.isDirectory place)
    (h : old.locate path = .ok target) : new.locate path = .ok target := by
  rw [locate] at h ⊢
  split at h
  · cases h
  · next hempty => rw [if_neg hempty, hhome, walk_of_isDirectory hd h]

/-! ## Putting a file in its place -/

theorem isSome_contents? :
    (disk.contents? place).isSome = true ↔ place ∈ disk.files.map Prod.fst := by
  simp [contents?]

/-- Contents that are put at a place are there, and those at other places stay. -/
theorem contents?_put (disk : Disk) (place other : Place) (contents : ByteArray) :
    (disk.put place contents).contents? other =
      if other = place then some contents else disk.contents? other := by
  rw [put]
  split
  · next hsome =>
    -- Files keep their places, so that the search ends at the same file as before.
    have hfst : ∀ file : Place × ByteArray,
        ((if file.1 == place then (place, contents) else file).1 == other) = (file.1 == other) := by
      grind
    simp only [contents?, List.find?_map, Function.comp_def, hfst]
    cases hfind : disk.files.find? fun file ↦ file.1 == other with
    | none =>
        rw [if_neg]
        · rfl
        · rintro rfl
          rw [contents?, hfind] at hsome
          cases hsome
    | some file =>
        have hother : file.1 = other := by simpa using List.find?_some hfind
        rw [Option.map_some, Option.map_some, Option.map_some, hother]
        split <;> simp_all
  · next hnone =>
    by_cases hother : other = place
    · subst hother
      have hfind : disk.files.find? (fun file ↦ file.1 == other) = none := by
        rw [Option.not_isSome_iff_eq_none] at hnone
        exact Option.map_eq_none_iff.mp hnone
      simp [contents?, hfind]
    · simp [contents?, hother, Ne.symm hother]

theorem home_put (disk : Disk) (place : Place) (contents : ByteArray) :
    (disk.put place contents).home = disk.home := by
  rw [put]
  split <;> rfl

theorem directories_put (disk : Disk) (place : Place) (contents : ByteArray) :
    (disk.put place contents).directories = disk.directories := by
  rw [put]
  split <;> rfl

theorem mem_map_fst_put (disk : Disk) (place other : Place) (contents : ByteArray) :
    other ∈ (disk.put place contents).files.map Prod.fst ↔
      other = place ∨ other ∈ disk.files.map Prod.fst := by
  rw [← isSome_contents?, contents?_put, ← isSome_contents?]
  split
  · next hother => exact iff_of_true rfl (.inl hother)
  · next hother => rw [or_iff_right hother]

/-- No directory comes into being with an entry of one. -/
theorem isDirectory_put {directory : Place} (hdirectory : disk.isDirectory directory = true)
    (name : String) (contents : ByteArray) (other : Place) :
    (disk.put (directory ++ [name]) contents).isDirectory other = disk.isDirectory other := by
  rw [Bool.eq_iff_iff, isDirectory_iff, isDirectory_iff, home_put, directories_put]
  constructor
  · rintro (hhome | hgiven | ⟨file, hmem, hbegins, hne⟩)
    · exact .inl hhome
    · exact .inr (.inl hgiven)
    · rcases (mem_map_fst_put _ _ _ _).mp hmem with rfl | hold
      · rcases List.prefix_concat_iff.mp hbegins with heq | hbegins
        · exact absurd heq hne
        · exact isDirectory_iff.mp (isDirectory_above hdirectory hbegins)
      · exact .inr (.inr ⟨file, hold, hbegins, hne⟩)
  · rintro (hhome | hgiven | ⟨file, hmem, hfile⟩)
    · exact .inl hhome
    · exact .inr (.inl hgiven)
    · exact .inr (.inr ⟨file, (mem_map_fst_put _ _ _ _).mpr (.inr hmem), hfile⟩)

/-! ## Reading and writing -/

/-- A path that can be read leads to something that is no directory, and ends in no slash. -/
theorem read_eq_ok (h : disk.read path = .ok contents) :
    Path.endsInSlash path = false ∧
      ∃ place, disk.locate path = .ok place ∧ disk.isDirectory place = false := by
  rw [read] at h
  split at h
  · cases h
  · obtain ⟨place, hplace, h⟩ := Except.bind_eq_ok.mp h
    dsimp only at h
    split at h
    · cases h
    · next hfile =>
      split at h
      · cases h
      · split at h
        · cases h
        · next hslash =>
          exact ⟨Bool.eq_false_iff.mpr hslash, place, hplace, Bool.eq_false_iff.mpr hfile⟩

/-- A file that is written is put where its path leads, and nothing else happens. -/
theorem write_eq_ok (h : disk.write path contents = .ok new) :
    ∃ place, disk.locate path = .ok place ∧ disk.isDirectory place = false ∧
      new = disk.put place contents := by
  rw [write] at h
  split at h
  · cases h
  · obtain ⟨place, hplace, h⟩ := Except.bind_eq_ok.mp h
    dsimp only at h
    split at h
    · cases h
    · next hfile =>
      cases h
      exact ⟨place, hplace, Bool.eq_false_iff.mpr fun hd ↦ hfile (.inl hd), rfl⟩

/-- Writing puts the contents where the path leads and changes nothing else. -/
theorem wrote_of_write (h : old.write path contents = .ok new) : old.Wrote path contents new := by
  obtain ⟨place, hplace, hfile, rfl⟩ := write_eq_ok h
  have hentry : ∃ directory name, place = directory ++ [name] ∧
      old.isDirectory directory = true := by
    refine (isDirectory_of_locate hplace).resolve_left fun hdirectory ↦ ?_
    rw [hdirectory] at hfile
    cases hfile
  obtain ⟨directory, name, rfl, hdirectory⟩ := hentry
  have hdirectories := isDirectory_put hdirectory name contents
  have hhome := home_put old (directory ++ [name]) contents
  refine ⟨⟨_, hplace, locate_of_isDirectory hhome hdirectories hplace, ?_⟩, ?_, hdirectories, hhome⟩
  · rw [contents?_put, if_pos rfl]
  · intro other hother
    rw [contents?_put, if_neg]
    rintro rfl
    exact hother hplace

end Disk

end Dcpu16.Command
