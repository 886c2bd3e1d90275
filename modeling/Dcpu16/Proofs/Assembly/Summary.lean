import Dcpu16.Proofs.Assembly.Outline

/-!
# The report on a text

Assembling a text always gives a report, and all of it can be read off outlines: the issues of the
lines and the addresses at which they stop from the outlines on the way, the issues of the names,
the output and the journal from the outline of the whole text.  Main statement:
`Outline.assemble_eq`.
-/

namespace Dcpu16

/-- There is an image if and only if no issue is an error, and then it is the output. -/
theorem Report.image?_eq_some_iff {report : Report} {image : Array UInt16} :
    report.image? = some image ↔
      (∀ issue ∈ report.issues, issue.severity ≠ .error) ∧ report.output = image := by
  have hclean : report.hasErrors = false ↔ ∀ issue ∈ report.issues, issue.severity ≠ .error := by
    simp [Report.hasErrors, Issue.isError]
  rw [Report.image?, ← hclean]
  cases report.hasErrors <;> simp

namespace Outline

/-! ## Lines -/

def lineIssue? (o : Outline) (line : String × Nat) : Option Issue :=
  match (o.addLine line.2 (Line.ofString line.1)).1 with
  | .ok _ => none
  | .error e => some ⟨line.2, .error, e.message⟩

def lineIssues (o : Outline) : List (String × Nat) → List Issue
  | [] => []
  | line :: lines => (o.lineIssue? line).toList ++ (o.step line).lineIssues lines

/-- The addresses at which lines stop that are read one after the other. -/
def stops (o : Outline) : List (String × Nat) → List Nat
  | [] => []
  | line :: lines => (o.step line).cells.length :: (o.step line).stops lines

/-- Adding a line is a step of the outline, with a stop and perhaps an issue. -/
theorem addLine_eq {o : Outline} (ho : o.Valid) (stops : Array Nat) (issues : Array Issue)
    (line : String × Nat) :
    (Progress.mk o.assembly stops issues).addLine line =
      ⟨(o.step line).assembly, stops.push (o.step line).cells.length,
        issues ++ (o.lineIssue? line).toList.toArray⟩ := by
  have hrun := run_addLine ho line.2 (Line.ofString line.1)
  simp only [Progress.addLine, hrun, step, lineIssue?]
  generalize o.addLine line.2 (Line.ofString line.1) = result
  obtain ⟨r, o'⟩ := result
  cases r with
  | ok _ => simp
  | error e =>
      have hnote : (o'.assembly.builder.note (.rejected line.2 e.message)).words.size =
          o'.cells.length := o'.size_words_assembly
      simp only [hnote]
      rfl

theorem foldl_addLine_eq {o : Outline} (ho : o.Valid) (stops : Array Nat) (issues : Array Issue)
    (lines : List (String × Nat)) :
    lines.foldl Progress.addLine ⟨o.assembly, stops, issues⟩ =
      ⟨(lines.foldl step o).assembly, stops ++ (o.stops lines).toArray,
        issues ++ (o.lineIssues lines).toArray⟩ := by
  induction lines generalizing o stops issues with
  | nil => simp [Outline.stops, lineIssues]
  | cons line lines ih =>
      rw [List.foldl_cons, addLine_eq ho, ih (ho.step line)]
      simp [Outline.stops, lineIssues, ← List.append_toArray]

/-- What is kept while a text is read can be told from its outline. -/
theorem progress_ofLines (lines : List String) :
    Progress.ofLines lines =
      ⟨(ofLines lines).assembly, (stops {} lines.zipIdx).toArray,
        (lineIssues {} lines.zipIdx).toArray⟩ := by
  have h := foldl_addLine_eq .empty #[] #[] lines.zipIdx
  rw [Array.empty_append, Array.empty_append] at h
  exact h

/-- A line has no issue if and only if it is accepted. -/
theorem lineIssue?_eq_none {o : Outline} {line : String × Nat} :
    o.lineIssue? line = none ↔ (o.addLine line.2 (Line.ofString line.1)).1 = .ok () := by
  unfold lineIssue?
  split
  · next h => simp [h]
  · next h => simp [h]

theorem lineIssues_append (o : Outline) (lines : List (String × Nat)) (line : String × Nat) :
    o.lineIssues (lines ++ [line]) =
      o.lineIssues lines ++ ((lines.foldl step o).lineIssue? line).toList := by
  induction lines generalizing o with
  | nil => simp [lineIssues]
  | cons l lines ih => simp [lineIssues, ih]

/-- What is wrong with a line is an error. -/
theorem isError_of_mem_lineIssues {o : Outline} {lines : List (String × Nat)} {issue : Issue}
    (h : issue ∈ o.lineIssues lines) : issue.isError := by
  induction lines generalizing o with
  | nil => exact absurd h List.not_mem_nil
  | cons line lines ih =>
      rw [lineIssues, List.mem_append, Option.mem_toList, lineIssue?] at h
      rcases h with h | h
      · split at h
        · exact nomatch h
        · exact Option.some.inj h ▸ rfl
      · exact ih h

/-! ## Names -/

/-- What there is to say about a name in the end. -/
def symbolIssue? (o : Outline) (name : String) : Option Issue :=
  match o.address? name with
  | none => some ⟨0, .error, "Label '" ++ name ++ "' didn't mark any position."⟩
  | some _ =>
    if o.cells.countP (fun cell ↦ cell.label? = some name) = 0 then
      some ⟨(o.line? name).getD 0, .warning, "Label '" ++ name ++ "' doesn't have any references."⟩
    else none

theorem issue?_symbol {o : Outline} {name : String} (h : name ∈ o.labels) :
    (o.symbol name).issue? o.assembly.builder = .ok (o.symbolIssue? name) := by
  have ha : o.assembly.builder.address? (o.symbol name).label = .ok (o.word? name) :=
    Sketch.address?_builder h 0 o.journal
  have hc : o.assembly.builder.referenceCount (o.symbol name).label =
      .ok (o.cells.countP fun cell ↦ cell.label? = some name) :=
    Sketch.referenceCount_builder h 0 o.journal
  rw [Symbol.issue?, ha, symbolIssue?, Sketch.word?]
  cases o.address? name with
  | none => rfl
  | some address =>
      simp only [hc, Option.map_some, bind, Except.bind]
      split <;> rfl

/-- The issues about names come in the order in which the names were met. -/
theorem symbolIssues_assembly (o : Outline) :
    o.assembly.symbolIssues = .ok (o.labels.filterMap o.symbolIssue?) := by
  have hmap : ∀ names : List String, (∀ name ∈ names, name ∈ o.labels) →
      (names.map o.symbol).mapM (fun symbol ↦ symbol.issue? o.assembly.builder) =
        .ok (names.map o.symbolIssue?) := by
    intro names
    induction names with
    | nil => exact fun _ ↦ rfl
    | cons name names ih =>
        intro h
        rw [List.map_cons, List.mapM_cons, issue?_symbol (h name List.mem_cons_self),
          ih fun x hx ↦ h x (List.mem_cons_of_mem _ hx)]
        rfl
  have hsymbols : o.assembly.symbols.toList = o.labels.map o.symbol := rfl
  rw [Assembly.symbolIssues, hsymbols, hmap o.labels fun _ h ↦ h]
  change Except.ok (List.filterMap id (o.labels.map o.symbolIssue?)) = _
  rw [List.filterMap_map]
  rfl

/-! ## The end -/

def report (lines : List String) : Report :=
  let o := ofLines lines
  let issues := lineIssues {} lines.zipIdx ++ o.labels.filterMap o.symbolIssue?
  let errors := issues.countP Issue.isError
  { lines
    stops := stops {} lines.zipIdx
    issues
    output := (o.cells.map (Cell.value o.word?)).toArray
    journal := (o.journal ++ (o.labels.flatMap o.patches).toArray).push
      (.assembled lines.length o.cells.length errors (issues.length - errors)) }

/-- There is an image if and only if no line is rejected and every name is marked. -/
theorem image?_report (lines : List String) (image : Array UInt16) :
    (report lines).image? = some image ↔
      (lineIssues {} lines.zipIdx = [] ∧
        ∀ name ∈ (ofLines lines).labels, (ofLines lines).address? name ≠ none) ∧
      image = ((ofLines lines).cells.map (Cell.value (ofLines lines).word?)).toArray := by
  have herrors : (report lines).hasErrors = false ↔ lineIssues {} lines.zipIdx = [] ∧
      ∀ name ∈ (ofLines lines).labels, (ofLines lines).address? name ≠ none := by
    rw [Report.hasErrors, report, List.any_append, Bool.or_eq_false_iff, List.any_eq_false,
      List.any_eq_false]
    refine and_congr ⟨fun h ↦ ?_, fun h ↦ ?_⟩ ?_
    · exact List.eq_nil_iff_forall_not_mem.mpr fun issue hi ↦
        h issue hi (isError_of_mem_lineIssues hi)
    · simp [h]
    · simp only [List.mem_filterMap, forall_exists_index, and_imp]
      refine ⟨fun h name hn ha ↦ ?_, fun h issue name hn hi ↦ ?_⟩
      · exact h _ name hn (by rw [symbolIssue?, ha]) rfl
      · obtain ⟨address, ha⟩ := Option.ne_none_iff_exists'.mp (h name hn)
        rw [symbolIssue?, ha] at hi
        simp only at hi
        split at hi
        · rw [← Option.some.inj hi]
          exact Bool.false_ne_true
        · exact nomatch hi
  rw [← herrors, Report.image?]
  cases (report lines).hasErrors
  · simp [report, eq_comm]
  · simp

/-- An outline can be finished: labels that are not marked are no reason not to. -/
theorem close_builder {o : Outline} (ho : o.Valid) :
    o.assembly.builder.close =
      .ok ({ o.toSketch with finished := true }.builder 0
        (o.journal ++ (o.labels.flatMap o.patches).toArray)) := by
  have h := Sketch.finish_builder ho.toValid ho.unfinished 0 o.journal
  rw [Builder.close, assembly, h]
  by_cases hcount : o.unmarkedCount = 0
  · rw [if_pos hcount]
  · rw [if_neg hcount]
    rfl

/-- Assembling a text gives the report on its lines. -/
theorem assemble_eq (source : String) :
    assemble source = .ok (report (Text.lines source)) := by
  have ho := valid_ofLines (Text.lines source)
  have hissues := symbolIssues_assembly (ofLines (Text.lines source))
  have hclose := close_builder ho
  rw [assemble, progress_ofLines]
  simp only [hissues, hclose, bind, Except.bind, pure, Except.pure, Except.ok.injEq,
    Sketch.size_words_builder, report]
  rfl

end Outline

end Dcpu16
