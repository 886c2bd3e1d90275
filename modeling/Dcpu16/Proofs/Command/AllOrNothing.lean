import Dcpu16.Command.Run
import Dcpu16.Proofs.Assembly.Summary
import Dcpu16.Proofs.Command.Writing
import Mathlib.Data.List.TakeWhile

/-!
# All or nothing

A run of the command ends in one of two ways.  If the source file is a text without errors and the
output file can be written, then this file holds the image and all else on the disk is as it was.
Otherwise the disk has not changed at all, and the exit status tells.  If it is the text that has
errors, then each of them is told, and how many there are.

If no output file is asked for, then it is the one beside the source file with another extension.
There is none beside a file like `..a`: what is left of this name without its extension is the
directory above, and a directory takes neither an extension nor an image.  Main statement:
`run_all_or_nothing`.
-/

namespace Dcpu16.Command

namespace Path

/-! ## Extensions -/

/-- The parts of a path that names a file: the way to it, the stem and the extension, if there is
one. -/
structure Parts (path : String) (directory stem : List Char) (extension? : Option (List Char)) :
    Prop where
  toList : path.toList = directory ++ (stem ++ extension?.elim [] ('.' :: ·))
  directory : ∀ c ∈ directory.getLast?, c = '/'
  slash : '/' ∉ stem ++ extension?.elim [] ('.' :: ·)
  dot : '.' ∉ extension?.elim stem.tail id
  file : isDirectoryName (stem ++ extension?.elim [] ('.' :: ·)) = false
  stem : stem ≠ []

theorem splitLast_append_eq {x : Char} {xs ys : List Char} (hxs : ∀ c ∈ xs.getLast?, c = x)
    (hys : x ∉ ys) : splitLast (· == x) (xs ++ ys) = (xs, ys) := by
  have hfst : (splitLast (· == x) (xs ++ ys)).1 = xs := by
    have hys' : ∀ c ∈ ys.reverse, (!c == x) = true := by
      intro c hc
      have hne : c ≠ x := fun h ↦ hys (h ▸ List.mem_reverse.mp hc)
      simpa using hne
    rw [splitLast, List.reverse_append, List.dropWhile_append_of_pos hys']
    rcases xs.eq_nil_or_concat with rfl | ⟨front, c, rfl⟩
    · rfl
    · have hc : c = x := hxs c (by simp)
      simp [hc]
  have happend := splitLast_append (· == x) (xs ++ ys)
  rw [hfst] at happend
  exact Prod.ext hfst (List.append_cancel_left happend)

/-- What is cut off has no more of the characters that it is cut at. -/
theorem splitLast_spec (x : Char) (cs : List Char) :
    (∀ c ∈ (splitLast (· == x) cs).1.getLast?, c = x) ∧ x ∉ (splitLast (· == x) cs).2 := by
  constructor
  · intro c hc
    have hhead := List.head?_dropWhile_not (fun c ↦ !c == x) cs.reverse
    rw [splitLast, List.getLast?_reverse] at hc
    rw [hc] at hhead
    simpa using hhead
  · intro hmem
    rw [splitLast, List.mem_reverse] at hmem
    simpa using List.mem_takeWhile_imp hmem

/-- A dot at the start of a name starts no extension. -/
theorem stem_of_notMem_tail {name : List Char} (h : '.' ∉ name.tail) :
    cutExtension name = name ∧ stem name = name := by
  cases name with
  | nil => exact ⟨rfl, rfl⟩
  | cons c rest =>
      by_cases hc : c = '.'
      · have hsplit : splitLast (· == '.') (c :: rest) = (['.'], rest) := by
          have hlast : ∀ c ∈ ['.'].getLast?, c = '.' := by simp
          rw [hc]
          exact splitLast_append_eq hlast h
        rw [cutExtension, stem, hsplit]
        exact ⟨rfl, rfl⟩
      · have hsplit : splitLast (· == '.') (c :: rest) = ([], c :: rest) := by
          have hnone : ∀ c ∈ ([] : List Char).getLast?, c = '.' := by simp
          refine splitLast_append_eq hnone fun hmem ↦ ?_
          rcases List.mem_cons.mp hmem with heq | hmem
          · exact hc heq.symm
          · exact h hmem
        rw [cutExtension, stem, hsplit]
        exact ⟨rfl, rfl⟩

/-- A file name that is not only an extension is cut at its last dot. -/
theorem stem_of_extension {name old : List Char} (hname : name ≠ []) (h : '.' ∉ old) :
    cutExtension (name ++ '.' :: old) = name ++ ['.'] ∧ stem (name ++ '.' :: old) = name := by
  have hsplit : splitLast (· == '.') (name ++ '.' :: old) = (name ++ ['.'], old) := by
    rw [List.append_cons]
    exact splitLast_append_eq (by simp) h
  rw [cutExtension, stem, hsplit]
  simp [hname]

/-- A path that does not end in a directory has its parts. -/
theorem exists_parts {path : String} {directory name : List Char}
    (hpath : splitLast (· == '/') path.toList = (directory, name))
    (hfile : isDirectoryName name = false) :
    ∃ stem extension?, Parts path directory stem extension? := by
  obtain ⟨hdirectory, hslash⟩ := splitLast_spec '/' path.toList
  have htoList := splitLast_append (· == '/') path.toList
  rw [hpath] at hdirectory hslash htoList
  obtain ⟨hlast, hdot⟩ := splitLast_spec '.' name
  have hname := splitLast_append (· == '.') name
  generalize splitLast (· == '.') name = pieces at hlast hdot hname
  obtain ⟨front, old⟩ := pieces
  have hne : name ≠ [] := fun h ↦ by simp [h, isDirectoryName] at hfile
  have hwhole (h : '.' ∉ name.tail) : Parts path directory name none :=
    ⟨by simp [htoList], hdirectory, by simpa using hslash, h, by simpa using hfile, hne⟩
  -- The last dot starts an extension, unless there is none or it is the first character.
  rcases front.eq_nil_or_concat with rfl | ⟨stem, c, rfl⟩
  · subst hname
    exact ⟨_, none, hwhole fun h ↦ hdot (List.mem_of_mem_tail h)⟩
  · obtain rfl : c = '.' := hlast c (by simp)
    subst hname
    rw [List.concat_append] at hfile htoList hslash hwhole
    by_cases hstem : stem = []
    · subst hstem
      exact ⟨_, none, hwhole hdot⟩
    · exact ⟨stem, some old, htoList.symm, hdirectory, hslash, hdot, hfile, hstem⟩

/-- The extension of a path is replaced by another. -/
theorem withExtension_of_parts {path : String} {directory stem : List Char}
    {extension? : Option (List Char)} (h : Parts path directory stem extension?)
    (hstem : stem ≠ ['.']) (extension : String) :
    withExtension path extension = String.ofList (directory ++ stem) ++ "." ++ extension := by
  have hsplit := splitLast_append_eq h.directory h.slash
  have hdot := h.dot
  rw [withExtension, h.toList, hsplit]
  cases extension? with
  | none =>
      obtain ⟨hcut, hstem⟩ := stem_of_notMem_tail hdot
      have hfile : isDirectoryName stem = false := by simpa using h.file
      simp [hcut, hstem, hfile]
  | some old =>
      have hold : '.' ∉ old := hdot
      obtain ⟨hcut, hstem'⟩ := stem_of_extension h.stem hold
      have hfile : isDirectoryName (stem ++ ['.']) = false := by
        simpa [isDirectoryName, h.stem, List.append_eq_cons_iff] using hstem
      simp [hcut, hstem', hfile]

/-- If a dot is all that is left of a name, then no extension is put behind it. -/
theorem withExtension_of_dot {path : String} {directory : List Char}
    {extension? : Option (List Char)} (h : Parts path directory ['.'] extension?)
    (extension : String) :
    withExtension path extension = String.ofList (directory ++ ['.', '.']) := by
  have hsplit := splitLast_append_eq h.directory h.slash
  have hdot := h.dot
  cases extension? with
  | none => exact nomatch h.file
  | some old =>
      have hold : '.' ∉ old := hdot
      obtain ⟨hcut, -⟩ := stem_of_extension h.stem hold
      rw [withExtension, h.toList, hsplit]
      dsimp only [Option.elim]
      rw [hcut]
      rfl

end Path

/-- Whether the source file is a text that is assembled to a report. -/
def Assembles (options : Options) (disk : Disk) (report : Report) : Prop :=
  ∃ contents source, disk.read options.input = .ok contents ∧
    String.fromUTF8? contents = some source ∧ assemble source = .ok report

/-- Whether nothing stands in the way of an image. -/
structure Ready (options : Options) (disk : Disk) (report : Report) : Prop where
  assembles : Assembles options disk report
  clean : ∀ issue ∈ report.issues, issue.severity ≠ .error
  writable : ∃ disk', disk.write options.outputPath (imageContents report.output) = .ok disk'

variable {options : Options} {disk : Disk} {report : Report}

/-! ## What is read and assembled -/

theorem textOf_eq_ok {contents : ByteArray} {source : String} :
    textOf contents = .ok source ↔ String.fromUTF8? contents = some source := by
  rw [textOf]
  split <;> simp_all

/-- A source is assembled if its file can be read and holds text. -/
theorem assembles_iff : Assembles options disk report ↔
    ∃ source, disk.read options.input >>= textOf = .ok source ∧ assemble source = .ok report := by
  constructor
  · rintro ⟨contents, source, hread, htext, hreport⟩
    exact ⟨source, Except.bind_eq_ok.mpr ⟨contents, hread, textOf_eq_ok.mpr htext⟩, hreport⟩
  · rintro ⟨source, hsource, hreport⟩
    obtain ⟨contents, hread, htext⟩ := Except.bind_eq_ok.mp hsource
    exact ⟨contents, source, hread, textOf_eq_ok.mp htext, hreport⟩

/-- What a run comes to before it writes depends on the report on the source file. -/
theorem ofInput_of_assembles (h : Assembles options disk report) :
    Draft.ofInput options (disk.read options.input >>= textOf) = Draft.ofReport options report := by
  obtain ⟨source, hsource, hreport⟩ := assembles_iff.mp h
  rw [hsource, Draft.ofInput, hreport]

theorem image?_ofReport (options : Options) (report : Report) :
    (Draft.ofReport options report).image? = report.image? := by
  rw [Draft.ofReport]
  split
  · next h => rw [h]
  · next h => rw [h]

/-- There is something to write only if the source file was assembled. -/
theorem assembles_of_image? {image : Array UInt16}
    (h : (Draft.ofInput options (disk.read options.input >>= textOf)).image? = some image) :
    ∃ report, Assembles options disk report ∧ report.image? = some image := by
  cases hsource : disk.read options.input >>= textOf with
  | error e =>
      rw [hsource] at h
      cases h
  | ok source =>
      rw [hsource, Draft.ofInput] at h
      cases hreport : assemble source with
      | error e =>
          rw [hreport] at h
          cases h
      | ok report =>
          rw [hreport, image?_ofReport] at h
          exact ⟨report, assembles_iff.mpr ⟨source, hsource, hreport⟩, h⟩

/-! ## How a run ends -/

/-- A run without an image writes nothing. -/
theorem run_of_none
    (h : (Draft.ofInput options (disk.read options.input >>= textOf)).image? = none) :
    run options disk =
      ((Draft.ofInput options (disk.read options.input >>= textOf)).stop, disk) := by
  rw [run, h]

/-- A run with an image that can be written ends well and writes just this image. -/
theorem run_of_ready (h : Ready options disk report) :
    (run options disk).1.exit = 0 ∧
      disk.write options.outputPath (imageContents report.output) = .ok (run options disk).2 := by
  obtain ⟨disk', hwrite⟩ := h.writable
  have himage := Report.image?_eq_some_iff.mpr ⟨h.clean, rfl⟩
  rw [run, ofInput_of_assembles h.assembles]
  simp only [image?_ofReport, himage, hwrite, Draft.conclude, and_self]

/-- A run either has nothing in its way or does nothing. -/
theorem ready_or_stopped (options : Options) (disk : Disk) :
    (∃ report, Ready options disk report) ∨
      (run options disk).1.exit = 1 ∧ (run options disk).2 = disk := by
  rw [run]
  split
  · exact .inr ⟨rfl, rfl⟩
  · next image himage =>
    split
    · exact .inr ⟨rfl, rfl⟩
    · next disk' hwrite =>
      obtain ⟨report, hassembles, himage⟩ := assembles_of_image? himage
      obtain ⟨hclean, rfl⟩ := Report.image?_eq_some_iff.mp himage
      exact .inl ⟨report, hassembles, hclean, disk', hwrite⟩

/-- A file that can be read has a name with a stem. -/
theorem exists_parts_of_read {contents : ByteArray} (h : disk.read options.input = .ok contents) :
    ∃ directory stem extension?, Path.Parts options.input directory stem extension? := by
  obtain ⟨hslash, place, hplace, hfile⟩ := Disk.read_eq_ok h
  obtain ⟨hdirectory, -⟩ := Path.splitLast_spec '/' options.input.toList
  have htoList := Path.splitLast_append (· == '/') options.input.toList
  cases hsplit : Path.splitLast (· == '/') options.input.toList with
  | mk directory name =>
  rw [hsplit] at hdirectory htoList
  refine ⟨directory, Path.exists_parts hsplit ?_⟩
  by_contra hname
  have hname : name = [] ∨ name = ['.'] ∨ name = ['.', '.'] := by
    rw [Bool.not_eq_false, Path.isDirectoryName] at hname
    simpa [or_assoc] using hname
  rcases hname with rfl | hdots
  · rcases directory.eq_nil_or_concat with rfl | ⟨front, c, rfl⟩
    · have hempty : options.input.isEmpty := by
        rw [String.isEmpty_iff, ← String.toList_eq_nil_iff, ← htoList, List.append_nil]
      rw [Disk.locate, if_pos hempty] at hplace
      cases hplace
    · obtain rfl : c = '/' := hdirectory c (by simp)
      rw [Path.endsInSlash, ← htoList] at hslash
      simp at hslash
  · rw [Disk.isDirectory_of_locate_dots htoList.symm hdirectory hdots hplace] at hfile
    cases hfile

/-- There is no output file beside a source file whose name without its extension is a dot. -/
theorem stopped_of_dot (houtput : options.output? = none) {directory : List Char}
    {extension? : Option (List Char)}
    (hparts : Path.Parts options.input directory ['.'] extension?) :
    options.outputPath = String.ofList (directory ++ ['.', '.']) ∧
      (run options disk).1.exit = 1 ∧ (run options disk).2 = disk := by
  have hpath : options.outputPath = String.ofList (directory ++ ['.', '.']) := by
    rw [Options.outputPath, houtput, Option.getD_none, Path.withExtension_of_dot hparts]
  refine ⟨hpath, (ready_or_stopped options disk).resolve_left ?_⟩
  rintro ⟨report, hready⟩
  obtain ⟨disk', hwrite⟩ := hready.writable
  obtain ⟨place, hplace, hfile, -⟩ := Disk.write_eq_ok hwrite
  have htoList : options.outputPath.toList = directory ++ ['.', '.'] := by
    rw [hpath, String.toList_ofList]
  have hdots := Disk.isDirectory_of_locate_dots htoList hparts.directory (.inr rfl) hplace
  rw [hdots] at hfile
  cases hfile

/-! ## What is told -/

/-- The journal tells no errors. -/
theorem upTo_error_journal (events : List Event) :
    Record.upTo .error (events.map Event.record) = [] := by
  rw [Record.upTo, List.filter_eq_nil_iff]
  intro r hr
  obtain ⟨event, -, rfl⟩ := List.mem_map.mp hr
  cases event <;> exact Bool.false_ne_true

/-- Of the issues the errors are told as such. -/
theorem upTo_error_issues (issues : List Issue) :
    Record.upTo .error (issues.map issueRecord) =
      (issues.filter Issue.isError).map fun issue ↦ ⟨.error, issue.located⟩ := by
  induction issues with
  | nil => rfl
  | cons issue issues ih =>
      obtain ⟨line, severity, message⟩ := issue
      cases severity with
      | error => exact congrArg _ ih
      | warning => exact ih

/-- How a run tells that the source file has errors. -/
theorem records_of_errors (h : Assembles options disk report) (himage : report.image? = none) :
    ∃ before, Record.upTo options.level (run options disk).1.records = before ++
        [⟨.error, "Stopped assembly due to " ++ toString report.errorCount ++ " error(s)."⟩] ∧
      Record.upTo .error before =
        (report.issues.filter Issue.isError).map fun issue ↦ ⟨.error, issue.located⟩ := by
  have hnone : (Draft.ofReport options report).image? = none := by rw [image?_ofReport, himage]
  rw [← ofInput_of_assembles h] at hnone
  have hlast : ∀ message : String, Record.upTo options.level [⟨.error, message⟩] =
      [⟨.error, message⟩] := fun message ↦ by simp [Record.upTo]
  have hjournal : Record.upTo .error
      (options.record :: report.journal.toList.map Event.record) = [] := upTo_error_journal _
  rw [run_of_none hnone, ofInput_of_assembles h, Draft.stop, Draft.ofReport, himage]
  dsimp only
  rw [Record.upTo_append, hlast]
  refine ⟨_, rfl, ?_⟩
  rw [Record.upTo_upTo (Nat.zero_le _), Record.upTo_append, upTo_error_issues, hjournal,
    List.nil_append]

/-! ## The result -/

/-- A run from `disk` to `disk'` writes the image of the source file as a whole, or not at all. -/
structure AllOrNothing (options : Options) (disk : Disk) (outcome : Outcome) (disk' : Disk) :
    Prop where
  /-- The output file is the one that was asked for, -/
  asked : ∀ path, options.output? = some path → options.outputPath = path
  /-- or else the one beside the source file with another extension. -/
  beside : options.output? = none → ∀ directory stem extension?,
    Path.Parts options.input directory stem extension? → stem ≠ ['.'] →
      options.outputPath = String.ofList (directory ++ stem) ++ ".bin"
  /-- There is no such file if a dot is left of the name: that would be the directory above. -/
  above : options.output? = none → ∀ directory extension?,
    Path.Parts options.input directory ['.'] extension? →
      options.outputPath = String.ofList (directory ++ ['.', '.']) ∧
        outcome.exit = 1 ∧ disk' = disk
  /-- There is no other name of a file that can be read. -/
  named : ∀ contents, disk.read options.input = .ok contents →
    ∃ directory stem extension?, Path.Parts options.input directory stem extension?
  /-- A text is always assembled. -/
  assembles : ∀ contents source, disk.read options.input = .ok contents →
    String.fromUTF8? contents = some source → ∃ report, assemble source = .ok report
  /-- If all went well, then the image is in the output file and nothing else has changed. -/
  written : ∀ report, Ready options disk report → outcome.exit = 0 ∧
    ∃ image, report.image? = some image ∧
      disk.Wrote options.outputPath (imageContents image) disk'
  /-- Otherwise nothing has. -/
  untouched : (∀ report, ¬Ready options disk report) → outcome.exit = 1 ∧ disk' = disk
  /-- Errors of the text are told in their order, and last their number. -/
  told : ∀ report, Assembles options disk report →
    (∃ issue ∈ report.issues, issue.severity = .error) →
    ∃ before, Record.upTo options.level outcome.records = before ++
        [⟨.error, "Stopped assembly due to "
          ++ toString (report.issues.filter Issue.isError).length ++ " error(s)."⟩] ∧
      Record.upTo .error before = (report.issues.filter Issue.isError).map fun issue ↦
        ⟨.error, "line " ++ toString (issue.line + 1) ++ ": " ++ issue.message⟩

/-- A run writes all of the image and nothing else, or it writes nothing. -/
theorem run_all_or_nothing (options : Options) (disk : Disk) :
    AllOrNothing options disk (run options disk).1 (run options disk).2 where
  asked path houtput := by rw [Options.outputPath, houtput, Option.getD_some]
  beside houtput directory stem extension? hparts hstem := by
    rw [Options.outputPath, houtput, Option.getD_none, Path.withExtension_of_parts hparts hstem,
      String.append_assoc]
    rfl
  above houtput _ _ hparts := stopped_of_dot houtput hparts
  named _ hread := exists_parts_of_read hread
  assembles _ source _ _ := ⟨_, Outline.assemble_eq source⟩
  written report hready := by
    obtain ⟨hexit, hwrite⟩ := run_of_ready hready
    exact ⟨hexit, _, Report.image?_eq_some_iff.mpr ⟨hready.clean, rfl⟩, Disk.wrote_of_write hwrite⟩
  untouched hready :=
    (ready_or_stopped options disk).resolve_left fun ⟨report, h⟩ ↦ hready report h
  told report hassembles := by
    rintro ⟨issue, hmem, herror⟩
    have himage : report.image? = none := by
      refine Option.eq_none_iff_forall_ne_some.mpr fun image h ↦ ?_
      exact (Report.image?_eq_some_iff.mp h).1 issue hmem herror
    obtain ⟨before, hrecords, herrors⟩ := records_of_errors hassembles himage
    rw [Report.errorCount, List.countP_eq_length_filter] at hrecords
    exact ⟨before, hrecords, herrors⟩

theorem run_all_or_nothing_image :
    ∃ disk : Disk, disk.contents? ["a.dasm"] = some "set a, 1".toUTF8 ∧
      (run { input := "a.dasm" } disk).1.exit = 0 ∧
      (run { input := "a.dasm" } disk).2.contents? ["a.bin"] = some (imageContents #[0x8401]) ∧
      (run { input := "a.dasm" } disk).2.contents? ["a.dasm"] = some "set a, 1".toUTF8 := by
  refine ⟨{ files := [(["a.dasm"], "set a, 1".toUTF8)] }, rfl, ?_⟩
  have hassembles : Assembles { input := "a.dasm" } { files := [(["a.dasm"], "set a, 1".toUTF8)] }
      (Outline.report (Text.lines "set a, 1")) :=
    ⟨_, "set a, 1", rfl, dif_pos "set a, 1".isValidUTF8, Outline.assemble_eq _⟩
  have himage : (Outline.report (Text.lines "set a, 1")).image? = some #[0x8401] := by
    decide +kernel
  have hready := Ready.mk hassembles (Report.image?_eq_some_iff.mp himage).1 ⟨_, rfl⟩
  have hplace : Disk.locate { files := [(["a.dasm"], "set a, 1".toUTF8)] }
      (Options.outputPath { input := "a.dasm" }) = .ok ["a.bin"] := by rfl
  obtain ⟨hexit, image, heq, hwrote⟩ := (run_all_or_nothing _ _).written _ hready
  obtain ⟨place, hlocate, -, hholds⟩ := hwrote.holds
  cases heq.symm.trans himage
  cases hplace.symm.trans hlocate
  exact ⟨hexit, hholds, hwrote.others ["a.dasm"] (by rw [hplace]; simp)⟩

/-- The image is not always written beside the source file: that of `..a` is not, even where `..bin`
can be written. -/
theorem not_forall_written_beside :
    ¬∀ (options : Options) (disk : Disk) (report : Report) (directory stem : List Char)
      (extension? : Option (List Char)), options.output? = none →
      Path.Parts options.input directory stem extension? → Assembles options disk report →
      (∀ issue ∈ report.issues, issue.severity ≠ .error) →
      (∃ disk', disk.write (String.ofList (directory ++ stem) ++ ".bin")
        (imageContents report.output) = .ok disk') →
      (run options disk).1.exit = 0 := by
  intro h
  have hparts : Path.Parts (Options.input { input := "..a" }) [] ['.'] (some ['a']) :=
    ⟨rfl, by simp, by decide, by decide, rfl, by decide⟩
  have hassembles : Assembles { input := "..a" } { files := [(["..a"], "dat 7".toUTF8)] }
      (Outline.report (Text.lines "dat 7")) :=
    ⟨_, "dat 7", rfl, dif_pos "dat 7".isValidUTF8, Outline.assemble_eq _⟩
  have himage : (Outline.report (Text.lines "dat 7")).image? = some #[7] := by decide +kernel
  have hexit := h { input := "..a" } _ _ _ _ _ rfl hparts hassembles
    (Report.image?_eq_some_iff.mp himage).1 ⟨_, rfl⟩
  obtain ⟨-, hstopped, -⟩ := stopped_of_dot rfl hparts
  cases hexit.symm.trans hstopped

end Dcpu16.Command
