import Dcpu16.Assembly.Listing
import Dcpu16.Proofs.Assembly.Diagnostics
import Dcpu16.Proofs.Assembly.TwoPass

/-!
# Closing an image

Labels without address are counted twice: by the names that give an error, and by the builder when
it is finished.  The two counts agree, so that nothing is lost where the complaint of the builder is
passed over, and the builder has nothing else to complain about, except a line that marks a label
at an address which does not fit in a word.  Where there is an image there was no complaint, and
every label in it has become an address.  Main statement: `Diagnostics.assemble_closes`.
-/

namespace Dcpu16

namespace Assembly

/-- How many of the issues say that a label has no address. -/
def complaints (a : Assembly) (issues : List Issue) : Nat :=
  issues.countP fun issue ↦ issue ∈ a.symbols.toList.map fun symbol ↦ .unmarked symbol.name

/-- What becomes of a cell: its constant part, with the address of its label if it has one. -/
def Fills (a : Assembly) (cell : Cell String) (word : UInt16) : Prop :=
  match cell.label? with
  | none => word = cell.base
  | some name => ∃ symbol address, a.find? name = some symbol ∧
      a.builder.address? symbol.label = .ok (some address) ∧ word = cell.base + address

end Assembly

namespace Outline

variable {o : Outline}

/-! ## Complaints -/

/-- The names that give an error are as many as the labels without address. -/
theorem complaints_symbolIssues (o : Outline) :
    o.assembly.complaints (o.labels.filterMap o.symbolIssue?) = o.unmarkedCount := by
  rw [Assembly.complaints, List.countP_filterMap, Sketch.unmarkedCount]
  refine List.countP_congr fun name hn ↦ ?_
  have hsymbol : Issue.unmarked name ∈ o.assembly.symbols.toList.map fun symbol ↦
      Issue.unmarked symbol.name := List.mem_map.mpr ⟨o.symbol name, List.mem_map_of_mem hn, rfl⟩
  -- A warning is no complaint, whatever it says.
  have hwarning : ∀ line x, Issue.unused line x ∉ o.assembly.symbols.toList.map fun symbol ↦
      Issue.unmarked symbol.name := by
    intro line x h
    obtain ⟨symbol, -, heq⟩ := List.mem_map.mp h
    have hseverity : Severity.error = .warning := congrArg Issue.severity heq
    cases hseverity
  cases ha : o.address? name with
  | none =>
      rw [symbolIssue?_of_none ha]
      exact iff_of_true (decide_eq_true hsymbol) rfl
  | some address =>
      rw [symbolIssue?_of_some ha]
      split
      · exact iff_of_false (fun h ↦ hwarning _ name (of_decide_eq_true h)) Bool.false_ne_true
      · exact iff_of_false Bool.false_ne_true Bool.false_ne_true

/-- The only complaint at the end is about labels without an address, and it gives their number. -/
theorem fst_finish (ho : o.Valid) :
    o.assembly.builder.finish.1 =
      if o.unmarkedCount = 0 then .ok () else .error (.unmarkedLabels o.unmarkedCount) := by
  rw [assembly, Sketch.finish_builder ho.toValid ho.unfinished]

/-- The words at the end are the values of the cells, also if there is a complaint. -/
theorem words_finish (ho : o.Valid) :
    o.assembly.builder.finish.2.words = (o.cells.map (Cell.value o.word?)).toArray := by
  rw [assembly, Sketch.finish_builder ho.toValid ho.unfinished]
  rfl

/-- The only fault that the builder finds with a line is an address that does not fit in a word. -/
theorem addressOverflow_of_addLine {index : Nat} {line : Line} {e : BuildError}
    (h : (o.addLine index line).1 = .error (.build e)) :
    ∃ address, 0xFFFF < address ∧ e = .addressOverflow address := by
  obtain ⟨marked, met, hr, -⟩ := rejects_of_addLine (Prod.ext h rfl)
  cases hr with
  | refused _ _ hrefused =>
      cases hrefused with
      | overflow _ _ hsize => exact ⟨_, hsize, rfl⟩

/-! ## Lines in the image -/

/-- A line takes nothing back of what was written. -/
theorem cells_prefix_addLine (o : Outline) (index : Nat) (line : Line) :
    o.cells <+: (o.addLine index line).2.cells := by
  cases h : (o.addLine index line).1 with
  | ok _ =>
      obtain ⟨hm, statement?, hbody⟩ := addLine_eq_ok_iff.mp h
      rw [addLine_of_canMark hm, hbody]
      cases statement? with
      | none => exact List.prefix_refl _
      | some statement => exact List.prefix_append _ _
  | error e =>
      have hadd : o.addLine index line = (.error e, (o.addLine index line).2) := Prod.ext h rfl
      obtain ⟨marked, met, -, ho'⟩ := rejects_of_addLine hadd
      rw [ho']
      exact List.prefix_refl _

theorem length_cells_le_step (o : Outline) (line : String × Nat) :
    o.cells.length ≤ (o.step line).cells.length := by
  obtain ⟨journal, hstep⟩ := step_eq o line
  rw [hstep]
  exact (cells_prefix_addLine o line.2 (Line.ofString line.1)).length_le

theorem length_cells_le_foldl (o : Outline) (lines : List (String × Nat)) :
    o.cells.length ≤ (lines.foldl step o).cells.length := by
  induction lines generalizing o with
  | nil => exact Nat.le_refl _
  | cons line lines ih => exact Nat.le_trans (length_cells_le_step o line) (ih _)

theorem length_stops (o : Outline) (lines : List (String × Nat)) :
    (o.stops lines).length = lines.length := by
  induction lines generalizing o with
  | nil => rfl
  | cons line lines ih => rw [stops, List.length_cons, ih, List.length_cons]

/-- A line stops behind where it starts, and within the words of all lines. -/
theorem stops_le (o : Outline) (lines : List (String × Nat)) :
    ∀ span ∈ (o.cells.length :: o.stops lines).zip (o.stops lines),
      span.1 ≤ span.2 ∧ span.2 ≤ (lines.foldl step o).cells.length := by
  induction lines generalizing o with
  | nil => exact fun span h ↦ absurd h List.not_mem_nil
  | cons line lines ih =>
      intro span h
      rw [stops, List.zip_cons_cons, List.mem_cons] at h
      rcases h with rfl | h
      · exact ⟨length_cells_le_step o line, length_cells_le_foldl _ lines⟩
      · exact ih _ span h

/-- If every name is marked, then every cell becomes what it says. -/
theorem fills_value (ho : o.Valid) (h : ∀ name ∈ o.labels, o.address? name ≠ none)
    {cell : Cell String} (hc : cell ∈ o.cells) : o.assembly.Fills cell (cell.value o.word?) := by
  rw [Assembly.Fills]
  split
  · next hl => rw [Cell.value, hl, Option.bind_none]
  · next name hl =>
    have hn := ho.mentioned hc hl
    obtain ⟨address, ha⟩ := Option.ne_none_iff_exists'.mp (h name hn)
    have hw : o.word? name = some address.toUInt16 := by rw [Sketch.word?, ha, Option.map_some]
    refine ⟨o.symbol name, address.toUInt16, ?_, ?_, ?_⟩
    · rw [find?_assembly, if_pos hn]
    · rw [address?_symbol hn, hw]
    · rw [Cell.value, hl, Option.bind_some, hw]

end Outline

namespace Diagnostics

def cells (lines : List String) : List (Cell String) :=
  lines.flatMap fun text ↦ (TwoPass.statement? (Line.ofString text)).elim [] Statement.cells

/-- How the assembly of lines ends in a report. -/
structure Closes (lines : List String) (a : Assembly) (report : Report) : Prop where
  /-- The names have been looked through, and finishing the builder only says again how many of them
  have no address. -/
  complaints : ∃ issues, a.symbolIssues = .ok issues ∧
    report.issues = lines.zipIdx.filterMap (lineIssue? lines) ++ issues ∧
    a.builder.finish.1 = if a.complaints issues = 0 then .ok ()
      else .error (.unmarkedLabels (a.complaints issues))
  /-- The builder has nothing against a line but an address that does not fit in a word. -/
  overflow : ∀ line ∈ lines.zipIdx, ∀ e, outcome lines line = .error (.build e) →
    ∃ address, 0xFFFF < address ∧ e = .addressOverflow address
  /-- Each line has its part of the output, so that there is a listing. -/
  length_spans : report.spans.length = lines.length
  spans_le : ∀ span ∈ report.spans, span.1 ≤ span.2 ∧ span.2 ≤ report.output.size
  /-- An image is that of a builder which was finished without complaint, -/
  finished : ∀ image, report.image? = some image →
    a.builder.finish.1 = .ok () ∧ image = a.builder.finish.2.words
  /-- and each word of it is what has become of a cell. -/
  filled : ∀ image, report.image? = some image → List.Forall₂ a.Fills (cells lines) image.toList

/-- Assembling a text always gives a report, and the complaint that is passed over on the way hides
nothing. -/
theorem assemble_closes (source : String) :
    ∃ report, assemble source = .ok report ∧
      Closes (Text.lines source) (Progress.ofLines (Text.lines source)).assembly report := by
  refine ⟨_, Outline.assemble_eq source, ?_⟩
  generalize Text.lines source = lines
  have ho := Outline.valid_ofLines lines
  rw [Outline.progress_ofLines]
  exact {
    complaints := by
      refine ⟨_, Outline.symbolIssues_assembly _, ?_, ?_⟩
      · rw [← lineIssues_eq]
        rfl
      · rw [Outline.complaints_symbolIssues, Outline.fst_finish ho]
    overflow line _ e he := by
      rw [outcome_eq] at he
      exact Outline.addressOverflow_of_addLine he
    length_spans := by
      rw [Report.spans, List.length_zip, List.length_cons, Nat.min_eq_right (Nat.le_succ _)]
      exact (Outline.length_stops {} lines.zipIdx).trans List.length_zipIdx
    spans_le := by
      have hsize : (Outline.report lines).output.size = (Outline.ofLines lines).cells.length := by
        simp [Outline.report]
      rw [hsize]
      exact Outline.stops_le {} lines.zipIdx
    finished image himage := by
      obtain ⟨⟨-, hmarked⟩, rfl⟩ := (Outline.image?_report lines image).mp himage
      rw [Outline.fst_finish ho, if_pos (Sketch.unmarkedCount_eq_zero.mpr hmarked),
        Outline.words_finish ho]
      exact ⟨rfl, rfl⟩
    filled image himage := by
      obtain ⟨⟨hlines, hmarked⟩, rfl⟩ := (Outline.image?_report lines image).mp himage
      -- No line was rejected, so that the cells are those of all lines.
      obtain ⟨hissues, hkeeps⟩ := TwoPass.lineIssues_eq_nil lines
      have hcells : cells lines = (Outline.ofLines lines).cells := by
        rw [(hkeeps (hissues.mp hlines)).cells, List.flatMap_map]
        rfl
      rw [hcells, List.forall₂_map_right_iff, List.forall₂_same]
      exact fun cell hc ↦ Outline.fills_value ho hmarked hc }

end Diagnostics

end Dcpu16
