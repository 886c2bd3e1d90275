import Dcpu16.Proofs.Assembly.Rejection

/-!
# Diagnostics

What is said about a text can be told from what becomes of its lines, without the table of names
and the counts that an assembly keeps.  A line looks names up one after the other: those that it
marks, up to the first that is refused, and those that it mentions, up to its fault.  Each name that
was looked up gives at most one issue, in the order in which names were looked up first: an error if
no line marks it, and a warning on the line that marks it if no line that is accepted mentions it.
Before these come the errors of the lines that are rejected.  Main statement:
`Diagnostics.assemble_issues`.
-/

namespace Dcpu16

/-! ## What a line looks up -/

/-- The labels that a line mentions behind those that it defines, up to its fault if it has one. -/
def Line.mentioned (line : Line) : List String :=
  match line.body with
  | .ok none => []
  | .ok (some statement) => statement.labels
  | .error fault => fault.mentioned

namespace Assembly

/-- Those of the names that are marked one after the other, up to the first that is refused. -/
def marked (a : Assembly) (index : Nat) : List String → List String
  | [] => []
  | name :: names =>
    match (Assembly.mark index name).run.run a with
    | (.ok _, a) => name :: a.marked index names
    | (.error _, _) => []

/-- What a line looks up: its marks up to the first that is refused, and what it mentions if there
is no such mark. -/
def lookups (a : Assembly) (index : Nat) (line : Line) : List String :=
  line.marks.take ((a.marked index line.marks).length + 1) ++
    if a.marked index line.marks = line.marks then line.mentioned else []

end Assembly

namespace Issue

def unmarked (name : String) : Issue :=
  ⟨0, .error, "Label '" ++ name ++ "' didn't mark any position."⟩

/-- A label that a line marks and that nothing refers to. -/
def unused (line : Nat) (name : String) : Issue :=
  ⟨line, .warning, "Label '" ++ name ++ "' doesn't have any references."⟩

end Issue

namespace Diagnostics

variable (lines : List String)

def before (index : Nat) : Assembly := (Progress.ofLines (lines.take index)).assembly

def outcome (line : String × Nat) : Except LineError Unit :=
  ((Assembly.addLine line.2 (Line.ofString line.1)).run.run (before lines line.2)).1

def lineIssue? (line : String × Nat) : Option Issue :=
  match outcome lines line with
  | .ok _ => none
  | .error e => some ⟨line.2, .error, e.message⟩

/-- All names that are looked up, in the order in which they are looked up first. -/
def names : List String :=
  (lines.zipIdx.flatMap fun line ↦
    (before lines line.2).lookups line.2 (Line.ofString line.1)).eraseDups

/-- The indices of the lines that mark a name, each as often as it does. -/
def definedOn (name : String) : List Nat :=
  lines.zipIdx.flatMap fun line ↦ List.replicate
    (((before lines line.2).marked line.2 (Line.ofString line.1).marks).count name) line.2

/-- A line that is accepted mentions a name. -/
def IsReferred (name : String) : Prop :=
  ∃ line ∈ lines.zipIdx, outcome lines line = .ok () ∧ name ∈ (Line.ofString line.1).mentioned

instance (name : String) : Decidable (IsReferred lines name) :=
  inferInstanceAs (Decidable (∃ line ∈ lines.zipIdx, _))

/-- A name is complained about if no line marks it, and else on its line if nothing refers to it. -/
def nameIssue? (name : String) : Option Issue :=
  match definedOn lines name with
  | [] => some (.unmarked name)
  | index :: _ => if IsReferred lines name then none else some (.unused index name)

end Diagnostics

/-! ## Names in the order of their first use -/

/-- Adding names one after the other leaves each of them where it came up first. -/
theorem Outline.foldl_addName_eraseDups (known names : List String) :
    names.foldl Outline.addName known.eraseDups = (known ++ names).eraseDups := by
  induction names generalizing known with
  | nil => rw [List.append_nil, List.foldl_nil]
  | cons name names ih =>
      have hadd : Outline.addName known.eraseDups name = (known ++ [name]).eraseDups := by
        rw [List.eraseDups_append, Outline.addName]
        by_cases h : name ∈ known
        · simp [h, List.removeAll]
        · simp [h, List.removeAll, List.eraseDups_cons]
      rw [List.foldl_cons, hadd, ih, List.append_assoc, List.singleton_append]

namespace Outline

variable {o : Outline}

/-! ## What a line does to an outline -/

theorem Valid.setMarks (ho : o.Valid) {names : List String} (h : o.CanMark names) (line : Nat) :
    (o.setMarks line names).Valid := by
  have hv := ho.markAll line names
  rwa [markAll_of_canMark h] at hv

/-- Names that can be marked are marked, and then it goes on. -/
theorem marked_append (ho : o.Valid) {done : List String} (h : o.CanMark done) (index : Nat)
    (names : List String) :
    o.assembly.marked index (done ++ names) =
      done ++ (o.setMarks index done).assembly.marked index names := by
  induction done generalizing o with
  | nil => rw [setMarks_nil, List.nil_append, List.nil_append]
  | cons name done ih =>
      obtain ⟨hname, hdone⟩ := (canMark_append o index [name] done).mp h
      rw [List.cons_append, Assembly.marked, run_mark ho, hname.setMarks_eq_mark index]
      simp only
      rw [ih (ho.setMarks hname index) hdone, setMarks_setMarks, List.singleton_append,
        List.cons_append]

theorem marked_of_canMark (ho : o.Valid) {names : List String} (h : o.CanMark names)
    (index : Nat) : o.assembly.marked index names = names := by
  have happend := marked_append ho h index []
  rwa [List.append_nil, Assembly.marked, List.append_nil] at happend

/-- The names behind one that is refused are not marked. -/
theorem marked_of_refused (ho : o.Valid) {done rest : List String} {name : String}
    {e : LineError} (hd : o.CanMark done) (h : o.Refused done name e) (index : Nat) :
    o.assembly.marked index (done ++ name :: rest) = done := by
  rw [marked_append ho hd, Assembly.marked, run_mark (ho.setMarks hd index), h.mark_eq index,
    List.append_nil]

theorem lookups_of_canMark (ho : o.Valid) {line : Line} (h : o.CanMark line.marks)
    (index : Nat) : o.assembly.lookups index line = line.marks ++ line.mentioned := by
  rw [Assembly.lookups, marked_of_canMark ho h, if_pos rfl,
    List.take_of_length_le (Nat.le_succ _)]

/-- A line with a mark that is refused looks up nothing behind it. -/
theorem lookups_of_refused (ho : o.Valid) {line : Line} {done rest : List String} {name : String}
    {e : LineError} (hmarks : line.marks = done ++ name :: rest) (hd : o.CanMark done)
    (h : o.Refused done name e) (index : Nat) :
    o.assembly.lookups index line = done ++ [name] := by
  have hne : done ≠ done ++ name :: rest := fun heq ↦ by
    have := congrArg List.length heq
    simp at this
  rw [Assembly.lookups, hmarks, marked_of_refused ho hd h, if_neg hne, List.append_nil,
    List.take_length_add_append, List.take_succ_cons, List.take_zero]

/-- What a line adds to an outline. -/
structure Adds (o : Outline) (index : Nat) (line : Line) (o' : Outline) : Prop where
  labels : o'.labels = (o.assembly.lookups index line).foldl addName o.labels
  /-- It marks names that were not marked, each of them once, -/
  nodup : (o.assembly.marked index line.marks).Nodup
  unmarked : ∀ name ∈ o.assembly.marked index line.marks, o.line? name = none
  line? (name : String) : o'.line? name =
    if name ∈ o.assembly.marked index line.marks then some index else o.line? name
  /-- and it refers to what it mentions if it is accepted. -/
  refers (name : String) : (∃ cell ∈ o'.cells, cell.label? = some name) ↔
    (∃ cell ∈ o.cells, cell.label? = some name) ∨
      (o.addLine index line).1 = .ok () ∧ name ∈ line.mentioned

/-- A name is without a line if and only if it is without an address. -/
theorem line?_eq_none_iff (ho : o.Valid) (name : String) :
    o.line? name = none ↔ o.address? name = none := by
  rw [← Option.isNone_iff_eq_none, ← Option.isNone_iff_eq_none, ← Option.not_isSome, ho.line,
    Option.not_isSome]

theorem address?_symbol {name : String} (h : name ∈ o.labels) :
    o.assembly.builder.address? (o.symbol name).label = .ok (o.word? name) :=
  Sketch.address?_builder h 0 o.journal

theorem symbolIssue?_of_none {name : String} (h : o.address? name = none) :
    o.symbolIssue? name = some (.unmarked name) := by
  rw [symbolIssue?, h]
  rfl

/-- A name that is marked gives a warning if and only if no cell refers to it. -/
theorem symbolIssue?_of_some {name : String} {address : Nat} (h : o.address? name = some address) :
    o.symbolIssue? name =
      if o.cells.countP (fun cell ↦ cell.label? = some name) = 0 then
        some (.unused ((o.line? name).getD 0) name)
      else none := by
  rw [symbolIssue?, h]
  rfl

/-- The step lemma for a line that is accepted. -/
theorem adds_of_ok (ho : o.Valid) {index : Nat} {line : Line}
    (h : (o.addLine index line).1 = .ok ()) : o.Adds index line (o.addLine index line).2 := by
  obtain ⟨hm, statement?, hbody⟩ := addLine_eq_ok_iff.mp h
  have hmentioned : (o.addLine index line).2.labels =
      line.mentioned.foldl addName (line.marks.foldl addName o.labels) ∧
      (o.addLine index line).2.line? = (o.setMarks index line.marks).line? ∧
      (o.addLine index line).2.cells = o.cells ++ statement?.elim [] Statement.cells ∧
      line.mentioned = statement?.elim [] Statement.labels := by
    rw [addLine_of_canMark hm, Line.mentioned, hbody]
    cases statement? with
    | none => exact ⟨rfl, rfl, (List.append_nil _).symm, rfl⟩
    | some statement => exact ⟨rfl, rfl, rfl, rfl⟩
  obtain ⟨hlabels, hline, hcells, hmentions⟩ := hmentioned
  exact {
    labels := by rw [hlabels, lookups_of_canMark ho hm, List.foldl_append]
    nodup := by
      rw [marked_of_canMark ho hm]
      exact hm.nodup
    unmarked := by
      rw [marked_of_canMark ho hm]
      exact fun name hn ↦ (line?_eq_none_iff ho name).mpr (hm.unmarked name hn)
    line? name := by
      rw [hline, marked_of_canMark ho hm]
      rfl
    refers name := by
      have hstatement : (∃ cell ∈ statement?.elim [] Statement.cells, cell.label? = some name) ↔
          name ∈ line.mentioned := by
        rw [hmentions]
        cases statement? with
        | none => simp
        | some statement => simp [Statement.labels_eq]
      simp only [hcells, List.mem_append, or_and_right, exists_or, hstatement, h, true_and] }

/-- The step lemma for a line that is rejected, by a mark or by a fault. -/
theorem adds_of_error (ho : o.Valid) {index : Nat} {line : Line} {e : LineError}
    (h : (o.addLine index line).1 = .error e) :
    o.Adds index line (o.addLine index line).2 := by
  have hadd : o.addLine index line = (.error e, (o.addLine index line).2) := Prod.ext h rfl
  obtain ⟨marked, met, hr, ho'⟩ := rejects_of_addLine hadd
  have hm := hr.canMark
  have hlookups : o.assembly.marked index line.marks = marked ∧
      o.assembly.lookups index line = marked ++ met := by
    cases hr with
    | refused hmarks hd hrefused =>
        refine ⟨?_, lookups_of_refused ho hmarks hd hrefused index⟩
        rw [hmarks, marked_of_refused ho hd hrefused]
    | unreadable hd hbody =>
        refine ⟨marked_of_canMark ho hd index, ?_⟩
        rw [lookups_of_canMark ho hd, Line.mentioned, hbody]
  exact {
    labels := by
      rw [ho', hlookups.2, List.foldl_append]
      rfl
    nodup := by
      rw [hlookups.1]
      exact hm.nodup
    unmarked := by
      rw [hlookups.1]
      exact fun name hn ↦ (line?_eq_none_iff ho name).mpr (hm.unmarked name hn)
    line? name := by
      rw [ho', hlookups.1]
      rfl
    refers name := by
      have hcells : (o.addLine index line).2.cells = o.cells := by
        rw [ho']
        rfl
      simp [hcells, h] }

theorem adds_addLine (ho : o.Valid) (index : Nat) (line : Line) :
    o.Adds index line (o.addLine index line).2 := by
  cases h : (o.addLine index line).1 with
  | ok _ => exact adds_of_ok ho h
  | error e => exact adds_of_error ho h

/-- The note about a rejected line in the journal changes nothing else. -/
theorem step_eq (o : Outline) (line : String × Nat) :
    ∃ journal, o.step line = { (o.addLine line.2 (Line.ofString line.1)).2 with journal } := by
  rw [step]
  generalize o.addLine line.2 (Line.ofString line.1) = result
  obtain ⟨r, o'⟩ := result
  cases r with
  | ok _ => exact ⟨o'.journal, rfl⟩
  | error e => exact ⟨_, rfl⟩

theorem adds_step (ho : o.Valid) (line : String × Nat) :
    o.Adds line.2 (Line.ofString line.1) (o.step line) := by
  have h := adds_addLine ho line.2 (Line.ofString line.1)
  obtain ⟨journal, hstep⟩ := step_eq o line
  rw [hstep]
  exact ⟨h.labels, h.nodup, h.unmarked, h.line?, h.refers⟩

end Outline

namespace Diagnostics

open Outline

/-! ## Lines one after the other -/

section Append

variable (lines : List String) (text : String)

theorem zipIdx_append_singleton :
    (lines ++ [text]).zipIdx = lines.zipIdx ++ [(text, lines.length)] := by
  simp [List.zipIdx_append]

theorem before_append {index : Nat} (h : index ≤ lines.length) :
    before (lines ++ [text]) index = before lines index := by
  rw [before, List.take_append_of_le_length h, before]

theorem before_length : before lines lines.length = (ofLines lines).assembly := by
  rw [before, List.take_length, progress_ofLines]

theorem lt_of_mem_zipIdx {line : String × Nat} (h : line ∈ lines.zipIdx) :
    line.2 < lines.length := (List.mem_zipIdx' h).1

/-- What becomes of a line does not depend on the lines behind it. -/
theorem outcome_append {line : String × Nat} (h : line ∈ lines.zipIdx) :
    outcome (lines ++ [text]) line = outcome lines line := by
  rw [outcome, before_append lines text (Nat.le_of_lt (lt_of_mem_zipIdx lines h)), outcome]

/-- The outcome of a line is that of the outline of the lines before it. -/
theorem outcome_eq (line : String × Nat) :
    outcome lines line =
      ((ofLines (lines.take line.2)).addLine line.2 (Line.ofString line.1)).1 := by
  rw [outcome, before, progress_ofLines, run_addLine (valid_ofLines _)]

theorem outcome_last :
    outcome (lines ++ [text]) (text, lines.length) =
      ((ofLines lines).addLine lines.length (Line.ofString text)).1 := by
  rw [outcome_eq, List.take_left]

end Append

/-- An outline that has kept what is said about names. -/
structure Keeps (o : Outline) (lines : List String) : Prop where
  labels : o.labels = names lines
  line? (name : String) : o.line? name = (definedOn lines name).head?
  /-- No name is marked twice. -/
  once (name : String) : (definedOn lines name).length ≤ 1
  refers (name : String) : (∃ cell ∈ o.cells, cell.label? = some name) ↔ IsReferred lines name

section Append

variable (lines : List String) (text : String)

/-- What lines give together, each after those before it. -/
theorem flatMap_before_append {α : Type} (f : Assembly → String × Nat → List α) :
    ((lines ++ [text]).zipIdx.flatMap fun line ↦ f (before (lines ++ [text]) line.2) line) =
      (lines.zipIdx.flatMap fun line ↦ f (before lines line.2) line) ++
        f (ofLines lines).assembly (text, lines.length) := by
  have hbefore : ∀ line ∈ lines.zipIdx,
      f (before (lines ++ [text]) line.2) line = f (before lines line.2) line := by
    intro line hl
    rw [before_append lines text (Nat.le_of_lt (lt_of_mem_zipIdx lines hl))]
  rw [zipIdx_append_singleton, List.flatMap_append, List.flatMap_singleton,
    before_append lines text (Nat.le_refl _), before_length, List.flatMap_def,
    List.map_congr_left hbefore, ← List.flatMap_def]

/-- The last line looks names up behind all those of the lines before it. -/
theorem names_append :
    names (lines ++ [text]) = ((ofLines lines).assembly.lookups lines.length
      (Line.ofString text)).foldl addName (names lines) := by
  have h := flatMap_before_append lines text fun a line ↦
    a.lookups line.2 (Line.ofString line.1)
  rw [names, names, foldl_addName_eraseDups, h]

/-- The last line marks a name as often as it is among the marks that are accepted. -/
theorem definedOn_append (name : String) :
    definedOn (lines ++ [text]) name = definedOn lines name ++ List.replicate
      (((ofLines lines).assembly.marked lines.length (Line.ofString text).marks).count name)
      lines.length :=
  flatMap_before_append lines text fun a line ↦
    List.replicate ((a.marked line.2 (Line.ofString line.1).marks).count name) line.2

theorem isReferred_append (name : String) :
    IsReferred (lines ++ [text]) name ↔ IsReferred lines name ∨
      ((ofLines lines).addLine lines.length (Line.ofString text)).1 = .ok () ∧
        name ∈ (Line.ofString text).mentioned := by
  unfold IsReferred
  rw [zipIdx_append_singleton]
  simp only [List.mem_append, List.mem_singleton, or_and_right, exists_or, exists_eq_left,
    outcome_last]
  refine or_congr (exists_congr fun line ↦ and_congr_right fun hl ↦ ?_) Iff.rfl
  rw [outcome_append lines text hl]

end Append

/-- The run lemma: the outline of a text keeps what the diagnostics are told from. -/
theorem keeps_ofLines (lines : List String) : Keeps (ofLines lines) lines := by
  induction lines using List.reverseRecOn with
  | nil =>
      exact ⟨rfl, fun _ ↦ rfl, fun _ ↦ Nat.zero_le 1, fun _ ↦ by simp [ofLines, IsReferred]⟩
  | append_singleton lines text ih =>
      have h := adds_step (valid_ofLines lines) (text, lines.length)
      rw [← ofLines_append] at h
      -- A name that the last line marks was marked by none before.
      have hfirst : ∀ name ∈ (ofLines lines).assembly.marked lines.length
          (Line.ofString text).marks, definedOn lines name = [] := fun name hn ↦ by
        rw [← List.head?_eq_none_iff, ← ih.line?]
        exact h.unmarked name hn
      have hlast : ∀ name, definedOn (lines ++ [text]) name =
          if name ∈ (ofLines lines).assembly.marked lines.length (Line.ofString text).marks
          then [lines.length] else definedOn lines name := fun name ↦ by
        rw [definedOn_append, h.nodup.count]
        split
        · next hn => rw [hfirst name hn]; rfl
        · exact List.append_nil _
      exact {
        labels := by rw [h.labels, names_append, ih.labels]
        line? name := by
          rw [h.line?, hlast, apply_ite List.head?, ih.line?]
          rfl
        once name := by
          rw [hlast]
          split
          · exact Nat.le_refl 1
          · exact ih.once name
        refers name := by rw [h.refers, isReferred_append, ih.refers] }

/-- The errors of lines that the report collects are those that the outcomes give. -/
theorem lineIssues_eq (lines : List String) :
    lineIssues {} lines.zipIdx = lines.zipIdx.filterMap (lineIssue? lines) := by
  induction lines using List.reverseRecOn with
  | nil => rfl
  | append_singleton lines text ih =>
      have hlast : (ofLines lines).lineIssue? (text, lines.length) =
          lineIssue? (lines ++ [text]) (text, lines.length) := by
        rw [lineIssue?, outcome_last]
        rfl
      have hbefore : ∀ line ∈ lines.zipIdx,
          lineIssue? (lines ++ [text]) line = lineIssue? lines line := fun line hl ↦ by
        rw [lineIssue?, outcome_append lines text hl, lineIssue?]
      rw [zipIdx_append_singleton, lineIssues_append, List.filterMap_append,
        List.filterMap_congr hbefore, ← ih]
      change _ ++ ((ofLines lines).lineIssue? (text, lines.length)).toList = _
      rw [hlast]
      cases h : lineIssue? (lines ++ [text]) (text, lines.length) <;> simp [h]

section Names

variable {o : Outline} {lines : List String}

/-- A name has no address if and only if no line marks it. -/
theorem Keeps.address?_eq_none (h : Keeps o lines) (ho : o.Valid) (name : String) :
    o.address? name = none ↔ definedOn lines name = [] := by
  rw [← line?_eq_none_iff ho, h.line?, List.head?_eq_none_iff]

/-- What the table says about a name is what its lines say. -/
theorem Keeps.symbolIssue?_eq (h : Keeps o lines) (ho : o.Valid) (name : String) :
    o.symbolIssue? name = nameIssue? lines name := by
  have hcount : o.cells.countP (fun cell ↦ cell.label? = some name) = 0 ↔
      ¬IsReferred lines name := by
    rw [← h.refers, List.countP_eq_zero]
    simp
  rw [nameIssue?]
  cases hd : definedOn lines name with
  | nil => exact symbolIssue?_of_none ((h.address?_eq_none ho name).mpr hd)
  | cons index rest =>
      have hne : o.address? name ≠ none := fun ha ↦
        nomatch ((h.address?_eq_none ho name).mp ha).symm.trans hd
      obtain ⟨address, ha⟩ := Option.ne_none_iff_exists'.mp hne
      rw [symbolIssue?_of_some ha, h.line?, hd]
      simp only [hcount, List.head?_cons, Option.getD_some, ite_not]

theorem lt_of_mem_definedOn {name : String} {index : Nat} (h : index ∈ definedOn lines name) :
    index < lines.length := by
  obtain ⟨line, hl, hindex⟩ := List.mem_flatMap.mp h
  exact (List.mem_replicate.mp hindex).2 ▸ lt_of_mem_zipIdx lines hl

theorem line_lt_of_nameIssue? {name : String} (hn : name ∈ names lines) {issue : Issue}
    (h : nameIssue? lines name = some issue) : issue.line < lines.length := by
  rw [nameIssue?] at h
  split at h
  · -- A name was looked up, so that there is a line.
    obtain ⟨line, hl, -⟩ := List.mem_flatMap.mp (List.mem_eraseDups.mp hn)
    rw [← Option.some.inj h]
    exact Nat.zero_lt_of_lt (lt_of_mem_zipIdx lines hl)
  · next index rest hd =>
    split at h
    · exact nomatch h
    · rw [← Option.some.inj h]
      exact lt_of_mem_definedOn (hd ▸ List.mem_cons_self)

theorem line_of_lineIssue? {line : String × Nat} {issue : Issue}
    (h : lineIssue? lines line = some issue) : issue.line = line.2 := by
  rw [lineIssue?] at h
  split at h
  · exact nomatch h
  · rw [← Option.some.inj h]

/-- A label that has an address has the line that marks it. -/
theorem Keeps.exists_line (h : Keeps o lines) (ho : o.Valid) {name : String} (hn : name ∈ o.labels)
    {address : UInt16}
    (ha : o.assembly.builder.address? (o.symbol name).label = .ok (some address)) :
    ∃ index ∈ definedOn lines name, (o.symbol name).line? = some index := by
  have hne : o.address? name ≠ none := by
    intro hnone
    rw [address?_symbol hn, Sketch.word?, hnone] at ha
    cases ha
  have hdefined : definedOn lines name ≠ [] := fun hd ↦ hne ((h.address?_eq_none ho name).mpr hd)
  obtain ⟨index, rest, hd⟩ := List.exists_cons_of_ne_nil hdefined
  refine ⟨index, hd ▸ List.mem_cons_self, ?_⟩
  change o.line? name = some index
  rw [h.line?, hd, List.head?_cons]

end Names

/-- What a report says about lines can be told from what becomes of them. -/
structure Diagnoses (lines : List String) (report : Report) : Prop where
  /-- The errors of the lines that are rejected come first, and then what there is to say about the
  names that were looked up, in the order in which they were looked up first. -/
  issues : report.issues =
    lines.zipIdx.filterMap (lineIssue? lines) ++ (names lines).filterMap (nameIssue? lines)
  nodup : (names lines).Nodup
  /-- No name is marked twice. -/
  once : ∀ name, (definedOn lines name).length ≤ 1
  line_lt : ∀ issue ∈ report.issues, issue.line < lines.length
  /-- A label that has an address has the line that marks it. -/
  marked : ∀ symbol ∈ (Progress.ofLines lines).assembly.symbols, ∀ address,
    (Progress.ofLines lines).assembly.builder.address? symbol.label = .ok (some address) →
      ∃ index ∈ definedOn lines symbol.name, symbol.line? = some index
  image : report.image?.isSome ↔ ∀ issue ∈ report.issues, issue.severity ≠ .error

/-- Assembling a text gives a report whose issues can be told from what becomes of its lines. -/
theorem assemble_issues (source : String) :
    ∃ report, assemble source = .ok report ∧ Diagnoses (Text.lines source) report := by
  refine ⟨_, Outline.assemble_eq source, ?_⟩
  generalize Text.lines source = lines
  have ho := valid_ofLines lines
  have h := keeps_ofLines lines
  have hissues : (Outline.report lines).issues = lines.zipIdx.filterMap (lineIssue? lines) ++
      (names lines).filterMap (nameIssue? lines) := by
    rw [← lineIssues_eq, ← h.labels, ← List.filterMap_congr fun name _ ↦ h.symbolIssue?_eq ho name]
    rfl
  exact {
    issues := hissues
    nodup := h.labels ▸ ho.nodup
    once := h.once
    line_lt issue hi := by
      rw [hissues, List.mem_append, List.mem_filterMap, List.mem_filterMap] at hi
      rcases hi with ⟨line, hl, hi⟩ | ⟨name, hn, hi⟩
      · exact line_of_lineIssue? hi ▸ lt_of_mem_zipIdx lines hl
      · exact line_lt_of_nameIssue? hn hi
    marked symbol hs address ha := by
      rw [progress_ofLines] at hs ha
      obtain ⟨name, hn, rfl⟩ := List.mem_map.mp (List.mem_toArray.mp hs)
      exact h.exists_line ho hn ha
    image := by simp [Option.isSome_iff_exists, Report.image?_eq_some_iff] }

end Diagnostics

end Dcpu16
