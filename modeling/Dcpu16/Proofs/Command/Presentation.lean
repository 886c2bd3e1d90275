import Dcpu16.Command.Run

/-!
# Presentation

Whether there is a listing, whether there is a hex dump and how many messages are shown does not
matter for the files and the exit status of a run.  Two runs with the same source and output file
are followed side by side: what they have come to before they write is `Draft.Alike`, and from then
on they do the same.  The only message that tells how much is shown is the first one.  It is shown
only where no more can be asked for, so that more messages are never other ones.  Main statement:
`run_presents`.
-/

namespace Dcpu16.Command

/-- Whether two options ask for the same to be printed. -/
structure Options.SamePrint (options options' : Options) : Prop where
  listing : options.listing = options'.listing
  hexDump : options.hexDump = options'.hexDump

/-- What two runs on a disk have in common that differ in their presentation only. -/
structure Presents (options options' : Options) (result result' : Outcome × Disk) : Prop where
  exit : result.1.exit = result'.1.exit
  files : result.2 = result'.2
  /-- What is printed depends on what is asked for and on nothing else. -/
  stdout : options.SamePrint options' → result.1.stdout = result'.1.stdout
  /-- One who asks for more messages gets all that others get. -/
  stderr : options.SamePrint options' → options.verbosity ≤ options'.verbosity →
    (Record.upTo options.level result.1.records).Sublist
      (Record.upTo options'.level result'.1.records)

variable {options options' : Options}

/-! ## Messages -/

namespace Options

theorem rank_level (options : Options) : options.level.rank = min options.verbosity 3 := by
  rw [level]
  match options.verbosity with
  | 0 | 1 | 2 => rfl
  | n + 3 => exact (Nat.min_eq_right (Nat.le_add_left 3 n)).symm

/-- The options are told only where nothing is left to ask for. -/
theorem shownAt_record_iff :
    options.level.shownAt options.record.level = true ↔ 3 ≤ options.verbosity := by
  show decide (3 ≤ options.level.rank) = true ↔ _
  rw [decide_eq_true_iff, rank_level]
  omega

theorem level_of_le (h : 3 ≤ options.verbosity) : options.level = .debug := by
  obtain ⟨n, hn⟩ := Nat.exists_eq_add_of_le' h
  rw [level, hn]
  rfl

/-- What is shown of a run depends on its level and not on how the level was asked for. -/
theorem record_congr (hinput : options.input = options'.input)
    (houtput : options.output? = options'.output?) (hprint : options.SamePrint options')
    (hlevel : options.level = options'.level) : options.record = options'.record := by
  rw [record, record, hinput, houtput, hprint.listing, hprint.hexDump, hlevel]

end Options

/-- A higher level shows what a lower one does, and more in between. -/
theorem upTo_sublist_upTo {threshold threshold' : Level} (h : threshold.rank ≤ threshold'.rank)
    (records : List Record) :
    (Record.upTo threshold records).Sublist (Record.upTo threshold' records) := by
  rw [← Record.upTo_upTo h]
  exact List.filter_sublist

/-- With more messages there are the same ones and others between them. -/
theorem upTo_record_sublist (hinput : options.input = options'.input)
    (houtput : options.output? = options'.output?) (hprint : options.SamePrint options')
    (hverbosity : options.verbosity ≤ options'.verbosity) (rest : List Record) :
    (Record.upTo options.level (options.record :: rest)).Sublist
      (Record.upTo options'.level (options'.record :: rest)) := by
  by_cases hshown : 3 ≤ options.verbosity
  -- Where the first message is shown, both runs are at the last level and it is the same.
  · have hlevel : options.level = options'.level := by
      rw [Options.level_of_le hshown, Options.level_of_le (Nat.le_trans hshown hverbosity)]
    have hrecord := Options.record_congr hinput houtput hprint hlevel
    exact hlevel ▸ hrecord ▸ List.Sublist.refl _
  · have hrank : options.level.rank ≤ options'.level.rank := by
      rw [Options.rank_level, Options.rank_level]
      omega
    have hdrop : Record.upTo options.level (options.record :: rest) =
        Record.upTo options.level rest :=
      List.filter_cons_of_neg fun h ↦ hshown (Options.shownAt_record_iff.mp h)
    rw [hdrop]
    exact (upTo_sublist_upTo hrank rest).trans ((List.sublist_cons_self _ _).filter _)

/-! ## Two runs side by side -/

/-- What two runs have in common before they write. -/
structure Draft.Alike (options options' : Options) (draft draft' : Draft) : Prop where
  image? : draft.image? = draft'.image?
  stdout : options.SamePrint options' → draft.stdout = draft'.stdout
  records : ∃ rest, draft.records = options.record :: rest ∧
    draft'.records = options'.record :: rest

/-- What two runs have in common in the end. -/
structure Outcome.Alike (options options' : Options) (outcome outcome' : Outcome) : Prop where
  exit : outcome.exit = outcome'.exit
  stdout : options.SamePrint options' → outcome.stdout = outcome'.stdout
  records : ∃ rest, outcome.records = options.record :: rest ∧
    outcome'.records = options'.record :: rest

theorem alike_ofReport (options options' : Options) (report : Report) :
    Draft.Alike options options' (Draft.ofReport options report)
      (Draft.ofReport options' report) := by
  rw [Draft.ofReport, Draft.ofReport]
  cases report.image? with
  | none => exact ⟨rfl, fun h ↦ by rw [h.listing], _, rfl, rfl⟩
  | some image => exact ⟨rfl, fun h ↦ by rw [h.listing, h.hexDump], _, rfl, rfl⟩

/-- Drafts of one input are alike under options that name the same input. -/
theorem alike_ofInput (hinput : options.input = options'.input)
    (input : Except FileError String) :
    Draft.Alike options options' (Draft.ofInput options input) (Draft.ofInput options' input) := by
  cases input with
  | error e =>
      rw [Draft.ofInput, Draft.ofInput, hinput]
      exact ⟨rfl, fun _ ↦ rfl, _, rfl, rfl⟩
  | ok source =>
      rw [Draft.ofInput, Draft.ofInput]
      cases assemble source with
      | error e => exact ⟨rfl, fun _ ↦ rfl, _, rfl, rfl⟩
      | ok report => exact alike_ofReport options options' report

section Outcome

variable {draft draft' : Draft}

theorem Draft.Alike.stop (h : Draft.Alike options options' draft draft') :
    Outcome.Alike options options' draft.stop draft'.stop :=
  ⟨rfl, h.stdout, h.records⟩

theorem Draft.Alike.conclude (h : Draft.Alike options options' draft draft')
    (hpath : options.outputPath = options'.outputPath) (image : Array UInt16)
    (written : Except FileError Unit) :
    Outcome.Alike options options' (draft.conclude options image written)
      (draft'.conclude options' image written) := by
  obtain ⟨rest, hrecords, hrecords'⟩ := h.records
  cases written with
  | error e =>
      rw [Draft.conclude, Draft.conclude, hrecords, hrecords', hpath]
      exact ⟨rfl, h.stdout, _, rfl, rfl⟩
  | ok _ =>
      rw [Draft.conclude, Draft.conclude, hrecords, hrecords', hpath]
      exact ⟨rfl, h.stdout, _, rfl, rfl⟩

end Outcome

/-- Two runs that read and write the same files write the same. -/
theorem alike_run (hinput : options.input = options'.input)
    (houtput : options.output? = options'.output?) (disk : Disk) :
    Outcome.Alike options options' (run options disk).1 (run options' disk).1 ∧
      (run options disk).2 = (run options' disk).2 := by
  have hpath : options.outputPath = options'.outputPath := by
    rw [Options.outputPath, Options.outputPath, hinput, houtput]
  have hdraft := alike_ofInput hinput (disk.read options'.input >>= textOf)
  simp only [run, hinput, hpath, hdraft.image?]
  split
  · exact ⟨hdraft.stop, rfl⟩
  · next image _ =>
    split
    · next e _ => exact ⟨hdraft.conclude hpath image (.error e), rfl⟩
    · exact ⟨hdraft.conclude hpath image (.ok ()), rfl⟩

/-! ## The result -/

/-- Options that differ in the presentation only have the same result. -/
theorem run_presents (options options' : Options) (disk : Disk)
    (hinput : options.input = options'.input) (houtput : options.output? = options'.output?) :
    Presents options options' (run options disk) (run options' disk) := by
  obtain ⟨halike, hfiles⟩ := alike_run hinput houtput disk
  obtain ⟨rest, hrecords, hrecords'⟩ := halike.records
  refine ⟨halike.exit, hfiles, halike.stdout, fun hprint hverbosity ↦ ?_⟩
  rw [hrecords, hrecords']
  exact upTo_record_sublist hinput houtput hprint hverbosity rest

theorem run_presents_louder :
    ∃ quiet loud, Options.ofArguments ["-x", "a.dasm"] = .ok quiet ∧
      Options.ofArguments ["a.dasm", "-vxv"] = .ok loud ∧
      quiet.SamePrint loud ∧ quiet.verbosity = 0 ∧ loud.verbosity = 2 ∧
      Presents quiet loud (run quiet { files := [(["a.dasm"], ":spare set a, 1".toUTF8)] })
        (run loud { files := [(["a.dasm"], ":spare set a, 1".toUTF8)] }) := by
  have hquiet : Options.ofArguments ["-x", "a.dasm"] =
      .ok { input := "a.dasm", hexDump := true } := by cbv
  have hloud : Options.ofArguments ["a.dasm", "-vxv"] =
      .ok { input := "a.dasm", verbosity := 2, hexDump := true } := by cbv
  exact ⟨_, _, hquiet, hloud, ⟨rfl, rfl⟩, rfl, rfl, run_presents _ _ _ rfl rfl⟩

end Dcpu16.Command
