import Dcpu16.Proofs.Assembly.Partition
import Dcpu16.Proofs.Text.Hex

/-!
# What the log tells

The records of instructions are written before the words that they tell of are final, and those of
patches one by one while the image is finished.  They are true of the output all the same: the first
word of an instruction depends on no label, so that it is never patched, and a word that depends on
a label depends on one label only, so that it is patched once.  Main statement:
`Journal.assemble_truthful`, where the records are read from their texts.

One line adds to the journal what `Outline.events` says (`Outline.journal_step`), and
`Outline.Tells` is what holds of the journal after any number of lines.
-/

namespace Dcpu16

/-! ## Records -/

namespace Record

/-- The address and the word that a record tells whose message starts in a given way: the address
stands behind that up to a given character, and the word is in the last four characters. -/
def told? (start : String) (stop : Char) (record : Record) : Option (Nat × Nat) :=
  if record.level = .trace ∧ start.toList <+: record.message.toList then do
    let rest := record.message.toList.drop start.toList.length
    let address ← Text.readHex? (rest.takeWhile (· != stop))
    let word ← Text.readHex? (rest.drop (rest.length - 4))
    return (address, word)
  else none

def instruction? : Record → Option (Nat × Nat) := told? "0x" ':'

def patch? : Record → Option (Nat × Nat) := told? "patch 0x" ' '

/-- Only records of the level `trace` tell about words. -/
theorem told?_of_level {record : Record} (h : record.level ≠ .trace) (start : String)
    (stop : Char) : record.told? start stop = none :=
  if_neg fun htrace ↦ h htrace.1

/-- Address and word can be read back from a message that has them in its two hexadecimal fields. -/
theorem told?_of_toList {start message : String} {stop : Char}
    (hstop : Text.hexValue? stop = none) {address : Nat} {word : UInt16} (middle : List Char)
    (h : message.toList = start.toList ++ ((Text.hex 4 address).toList ++
      (stop :: middle ++ (Text.hex 4 word.toNat).toList))) :
    told? start stop ⟨.trace, message⟩ = some (address, word.toNat) := by
  have haddress : ∀ c ∈ (Text.hex 4 address).toList, (c != stop) = true := by
    intro c hc
    refine bne_iff_ne.2 ?_
    rintro rfl
    exact Text.notMem_hex hstop _ _ hc
  have hword : (Text.hex 4 word.toNat).toList.length = 4 := Text.length_hex word.toNat_lt
  rw [told?, if_pos ⟨rfl, h ▸ List.prefix_append _ _⟩]
  simp only [h, List.drop_left]
  rw [List.takeWhile_append_of_pos haddress, List.cons_append, List.takeWhile_cons_of_neg (by simp),
    List.append_nil, (Text.isNumeral_hex (by decide) address).value, ← List.cons_append,
    ← List.append_assoc, List.length_append, hword, Nat.add_sub_cancel, List.drop_left,
    (Text.isNumeral_hex (by decide) word.toNat).value]
  rfl

end Record

namespace Event

def instruction? : Event → Option (Nat × Nat)
  | .instruction address _ word => some (address, word.toNat)
  | _ => none

def patch? : Event → Option (Nat × Nat)
  | .patch address word => some (address, word.toNat)
  | _ => none

theorem instruction?_record (event : Event) : event.record.instruction? = event.instruction? := by
  cases event with
  | instruction address op word =>
      refine Record.told?_of_toList (by decide) (' ' :: op.text.toList ++ " => 0x".toList) ?_
      simp
  | patch address word => exact if_neg (by simp [record])
  | rejected line message => exact Record.told?_of_level Level.noConfusion _ _
  | assembled lines words errors warnings => exact Record.told?_of_level Level.noConfusion _ _

theorem patch?_record (event : Event) : event.record.patch? = event.patch? := by
  cases event with
  | instruction address op word => exact if_neg (by simp [record])
  | patch address word =>
      refine Record.told?_of_toList (by decide) "<= 0x".toList ?_
      simp
  | rejected line message => exact Record.told?_of_level Level.noConfusion _ _
  | assembled lines words errors warnings => exact Record.told?_of_level Level.noConfusion _ _

end Event

def Report.log (report : Report) : List Record :=
  Record.upTo .trace (report.journal.toList.map Event.record)

theorem Report.log_eq (report : Report) :
    report.log = report.journal.toList.map Event.record :=
  List.filter_eq_self.mpr fun record _ ↦ by cases hlevel : record.level <;> rfl

theorem Report.filterMap_instruction?_log (report : Report) :
    report.log.filterMap Record.instruction? =
      report.journal.toList.filterMap Event.instruction? := by
  rw [log_eq, List.filterMap_map]
  exact List.filterMap_congr fun event _ ↦ event.instruction?_record

theorem Report.filterMap_patch?_log (report : Report) :
    report.log.filterMap Record.patch? = report.journal.toList.filterMap Event.patch? := by
  rw [log_eq, List.filterMap_map]
  exact List.filterMap_congr fun event _ ↦ event.patch?_record

/-! ## Specification -/

namespace Journal

open Diagnostics

/-- The statement of a line, if the line is accepted. -/
def accepted? (a : Assembly) (line : String × Nat) : Option (Statement String) :=
  match ((Assembly.addLine line.2 (Line.ofString line.1)).run.run a).1 with
  | .ok _ => TwoPass.statement? (Line.ofString line.1)
  | .error _ => none

/-- The address and the first word of the instruction of a line. -/
def instructionOn? (a : Assembly) (line : String × Nat) : Option (Nat × Nat) :=
  match accepted? a line with
  | some (.instruction i) => some (a.builder.words.size, i.word.toNat)
  | _ => none

/-- The addresses of the words of a line that depend on a label. -/
def referencesOn (a : Assembly) (name : String) (line : String × Nat) : List Nat :=
  let cells := (accepted? a line).elim [] Statement.cells
  ((cells.zipIdx a.builder.words.size).filter fun c ↦ c.1.label? = some name).map Prod.snd

/-- The addresses of the words of all lines that depend on a label. -/
def references (lines : List String) (name : String) : List Nat :=
  lines.zipIdx.flatMap fun line ↦ referencesOn (before lines line.2) name line

/-- The log of a report is true of its output: `slots` are the labels in the order in which they
were defined, as they are before the image is finished. -/
structure Truthful (lines : List String) (slots : List Slot) (report : Report) : Prop where
  /-- There is one record for each line that is accepted and holds an instruction, -/
  instructions : report.log.filterMap Record.instruction? =
    lines.zipIdx.filterMap fun line ↦ instructionOn? (before lines line.2) line
  /-- one behind the other, -/
  ascending : ((report.log.filterMap Record.instruction?).map Prod.fst).Pairwise (· < ·)
  /-- and it tells the word that is in the output. -/
  written : ∀ told ∈ report.log.filterMap Record.instruction?,
    report.output[told.1]?.map UInt16.toNat = some told.2
  /-- There is one record for each reference of each label that is marked, -/
  patches : (report.log.filterMap Record.patch?).map Prod.fst =
    (slots.filter fun slot ↦ slot.address?.isSome).flatMap fun slot ↦ slot.sites.toList
  /-- the references of a label being the words of the text that depend on it, -/
  sites : slots.map (fun slot ↦ slot.sites.toList) = (names lines).map (references lines)
  /-- no word being patched twice, -/
  nodup : ((report.log.filterMap Record.patch?).map Prod.fst).Nodup
  /-- nor the first word of an instruction, -/
  disjoint : ((report.log.filterMap Record.instruction?).map Prod.fst).Disjoint
    ((report.log.filterMap Record.patch?).map Prod.fst)
  /-- and it tells the word that is in the output. -/
  patched : ∀ told ∈ report.log.filterMap Record.patch?,
    report.output[told.1]?.map UInt16.toNat = some told.2
  /-- The last record counts the lines, the words and the issues. -/
  summary : report.log.getLast? = some (Event.assembled lines.length report.output.size
    (report.issues.countP fun issue ↦ issue.severity = .error)
    (report.issues.countP fun issue ↦ issue.severity = .warning)).record

end Journal

namespace Outline

open Journal

variable {o : Outline}

/-! ## Lines -/

def events (o : Outline) (line : String × Nat) : List Event :=
  match (o.addLine line.2 (Line.ofString line.1)).1, TwoPass.statement? (Line.ofString line.1) with
  | .ok _, some (.instruction i) => [.instruction o.cells.length i.opCode i.word]
  | .ok _, _ => []
  | .error e, _ => [.rejected line.2 e.message]

/-- A line adds its own events behind those before. -/
theorem journal_step (o : Outline) (line : String × Nat) :
    (o.step line).journal.toList = o.journal.toList ++ o.events line := by
  rw [step, events]
  cases h : (o.addLine line.2 (Line.ofString line.1)).1 with
  | ok _ =>
      obtain ⟨hm, statement?, hbody⟩ := addLine_eq_ok_iff.mp h
      rw [addLine_of_canMark hm, TwoPass.statement?, hbody]
      rcases statement? with _ | (i | items)
      · exact (List.append_nil _).symm
      · exact Array.toList_push
      · exact (List.append_nil _).symm
  | error e =>
      have hadd : o.addLine line.2 (Line.ofString line.1) =
          (.error e, (o.addLine line.2 (Line.ofString line.1)).2) := Prod.ext h rfl
      obtain ⟨marked, met, -, ho'⟩ := rejects_of_addLine hadd
      rw [hadd, ho']
      exact Array.toList_push

theorem accepted?_assembly (ho : o.Valid) (line : String × Nat) :
    accepted? o.assembly line =
      match (o.addLine line.2 (Line.ofString line.1)).1 with
      | .ok _ => TwoPass.statement? (Line.ofString line.1)
      | .error _ => none := by
  rw [accepted?, run_addLine ho]

theorem written_eq (ho : o.Valid) (line : String × Nat) :
    o.written line = (accepted? o.assembly line).elim [] Statement.cells := by
  rw [accepted?_assembly ho, written]
  cases (o.addLine line.2 (Line.ofString line.1)).1 <;> rfl

/-- A line tells of at most one instruction, at the position where it starts. -/
theorem filterMap_instruction?_events (ho : o.Valid) (line : String × Nat) :
    (o.events line).filterMap Event.instruction? = (instructionOn? o.assembly line).toList := by
  rw [instructionOn?, accepted?_assembly ho, size_words_assembly, events]
  cases (o.addLine line.2 (Line.ofString line.1)).1 with
  | error e => rfl
  | ok _ => rcases TwoPass.statement? (Line.ofString line.1) with _ | (i | items) <;> rfl

/-- No line tells of a patch: patches come at the end. -/
theorem filterMap_patch?_events (line : String × Nat) :
    (o.events line).filterMap Event.patch? = [] := by
  rw [events]
  split <;> rfl

/-- What holds of the journal while lines are read. -/
structure Tells (o : Outline) : Prop where
  ascending : ((o.journal.toList.filterMap Event.instruction?).map Prod.fst).Pairwise (· < ·)
  /-- The first words of instructions depend on no label. -/
  written : ∀ told ∈ o.journal.toList.filterMap Event.instruction?,
    ∃ word, o.cells[told.1]? = some ⟨word, none⟩ ∧ word.toNat = told.2
  unpatched : o.journal.toList.filterMap Event.patch? = []

/-- The instructions that were told of start inside the output. -/
theorem Tells.lt_length (h : o.Tells) {address : Nat}
    (ha : address ∈ (o.journal.toList.filterMap Event.instruction?).map Prod.fst) :
    address < o.cells.length := by
  obtain ⟨told, htold, rfl⟩ := List.mem_map.mp ha
  obtain ⟨word, hword, -⟩ := h.written told htold
  exact (List.getElem?_eq_some_iff.mp hword).1

/-- The instruction of a line starts where the line does. -/
theorem written_of_instructionOn? (ho : o.Valid) {line : String × Nat} {told : Nat × Nat}
    (h : instructionOn? o.assembly line = some told) :
    told.1 = o.cells.length ∧ ∃ word rest, o.written line = ⟨word, none⟩ :: rest ∧
      word.toNat = told.2 := by
  rw [instructionOn?, size_words_assembly] at h
  split at h
  · next i hi =>
    obtain rfl := Option.some.inj h
    refine ⟨rfl, i.word, i.operands.filterMap Operand.trailing?, ?_, rfl⟩
    rw [written_eq ho, hi]
    rfl
  · cases h

/-- The step lemma of the journal: a new instruction starts behind all earlier ones and is told with
its first word. -/
theorem Tells.step (ho : o.Valid) (h : o.Tells) (line : String × Nat) : (o.step line).Tells := by
  have hinstructions : (o.step line).journal.toList.filterMap Event.instruction? =
      o.journal.toList.filterMap Event.instruction? ++
        (instructionOn? o.assembly line).toList := by
    rw [journal_step, List.filterMap_append, filterMap_instruction?_events ho]
  refine ⟨?_, ?_, ?_⟩
  · rw [hinstructions, List.map_append, List.pairwise_append]
    refine ⟨h.ascending, ?_, ?_⟩
    · cases instructionOn? o.assembly line <;> simp
    · intro address ha address' ha'
      obtain ⟨told, htold, rfl⟩ := List.mem_map.mp ha'
      rw [(written_of_instructionOn? ho (Option.mem_toList.mp htold)).1]
      exact h.lt_length ha
  · intro told htold
    rw [hinstructions, List.mem_append, Option.mem_toList] at htold
    rw [cells_step]
    rcases htold with htold | htold
    · obtain ⟨word, hword, htoNat⟩ := h.written told htold
      have hlt := (List.getElem?_eq_some_iff.mp hword).1
      exact ⟨word, (List.getElem?_append_left hlt).trans hword, htoNat⟩
    · obtain ⟨hstart, word, rest, hwritten, htoNat⟩ := written_of_instructionOn? ho htold
      refine ⟨word, ?_, htoNat⟩
      rw [hstart, hwritten, List.getElem?_append_right (Nat.le_refl _), Nat.sub_self]
      rfl
  · rw [journal_step, List.filterMap_append, h.unpatched, filterMap_patch?_events]
    rfl

theorem tells_ofLines (lines : List String) : (ofLines lines).Tells := by
  induction lines using List.reverseRecOn with
  | nil => exact ⟨List.Pairwise.nil, fun _ h ↦ absurd h List.not_mem_nil, rfl⟩
  | append_singleton lines text ih =>
      rw [ofLines_append]
      exact ih.step (valid_ofLines lines) _

/-! ## References -/

/-- A line adds the places of its own references to those of a name. -/
theorem sites_step (ho : o.Valid) (line : String × Nat) (name : String) :
    (o.step line).sites name = o.sites name ++ referencesOn o.assembly name line := by
  rw [Sketch.sites, cells_step, List.zipIdx_append, List.filter_append, List.map_append,
    referencesOn, size_words_assembly, ← written_eq ho, Nat.zero_add]
  rfl

/-- The places that refer to a name are those of the accepted lines, in their order. -/
theorem sites_ofLines (lines : List String) (name : String) :
    (ofLines lines).sites name = references lines name := by
  induction lines using List.reverseRecOn with
  | nil => rfl
  | append_singleton lines text ih =>
      rw [ofLines_append, sites_step (valid_ofLines lines), ih]
      exact (Diagnostics.flatMap_before_append lines text fun a line ↦
        referencesOn a name line).symm

/-- The instructions in the journal are those of the accepted lines, in their order. -/
theorem instructions_ofLines (lines : List String) :
    (ofLines lines).journal.toList.filterMap Event.instruction? =
      lines.zipIdx.filterMap fun line ↦ instructionOn? (Diagnostics.before lines line.2) line := by
  induction lines using List.reverseRecOn with
  | nil => rfl
  | append_singleton lines text ih =>
      rw [ofLines_append, journal_step, List.filterMap_append,
        filterMap_instruction?_events (valid_ofLines lines), ih,
        List.filterMap_eq_flatMap_toList _ lines.zipIdx, List.filterMap_eq_flatMap_toList]
      exact (Diagnostics.flatMap_before_append lines text fun a line ↦
        (instructionOn? a line).toList).symm

/-! ## The end -/

/-- The words of a label that are patched are its references if it is marked. -/
theorem map_patches (o : Outline) (name : String) :
    ((o.patches name).filterMap Event.patch?).map Prod.fst =
      if (o.word? name).isSome then o.sites name else [] := by
  rw [Sketch.patches]
  cases o.word? name with
  | none => rfl
  | some address =>
      have hsite : ∀ i ∈ o.sites name,
          ((o.cells[i]?.map fun cell ↦ Event.patch i (cell.base + address)).bind
            Event.patch?).map Prod.fst = some i := by
        intro i hi
        obtain ⟨cell, hcell, -⟩ := Sketch.mem_sites.mp hi
        rw [hcell]
        rfl
      rw [List.filterMap_filterMap, List.map_filterMap, List.filterMap_congr hsite,
        List.filterMap_some]
      rfl

/-- A patch leaves the value of the cell. -/
theorem value_of_mem_patches {name : String} {told : Nat × Nat}
    (h : told ∈ (o.patches name).filterMap Event.patch?) :
    ∃ cell, o.cells[told.1]? = some cell ∧ cell.label? = some name ∧
      (cell.value o.word?).toNat = told.2 := by
  obtain ⟨event, hevent, htold⟩ := List.mem_filterMap.mp h
  rw [Sketch.patches] at hevent
  cases hword : o.word? name with
  | none =>
      rw [hword] at hevent
      exact absurd hevent List.not_mem_nil
  | some address =>
      rw [hword] at hevent
      obtain ⟨i, hi, hpatch⟩ := List.mem_filterMap.mp hevent
      obtain ⟨cell, hcell, hlabel⟩ := Sketch.mem_sites.mp hi
      rw [hcell] at hpatch
      obtain rfl := Option.some.inj hpatch
      obtain rfl := Option.some.inj htold
      refine ⟨cell, hcell, hlabel, ?_⟩
      rw [Cell.value, hlabel, Option.bind_some, hword]

theorem filterMap_instruction?_patches (o : Outline) (name : String) :
    (o.patches name).filterMap Event.instruction? = [] := by
  rw [Sketch.patches, List.filterMap_eq_nil_iff]
  split
  · exact fun _ h ↦ absurd h List.not_mem_nil
  · intro event hevent
    obtain ⟨i, -, hi⟩ := List.mem_filterMap.mp hevent
    obtain ⟨cell, -, rfl⟩ := Option.map_eq_some_iff.mp hi
    rfl

/-- The journal of a report is that of its lines, then the patches name by name, and last the
summary. -/
theorem journal_report (lines : List String) :
    (report lines).journal.toList = (ofLines lines).journal.toList ++
      (ofLines lines).labels.flatMap (ofLines lines).patches ++
        [.assembled lines.length (ofLines lines).cells.length
          ((report lines).issues.countP Issue.isError)
          ((report lines).issues.length - (report lines).issues.countP Issue.isError)] := by
  rw [report, Array.toList_push, Array.toList_append]

theorem filterMap_journal_report (lines : List String) {α : Type} (f : Event → Option α)
    (hsummary : ∀ m n k l, f (.assembled m n k l) = none) :
    (report lines).journal.toList.filterMap f =
      (ofLines lines).journal.toList.filterMap f ++
        (ofLines lines).labels.flatMap fun name ↦ ((ofLines lines).patches name).filterMap f := by
  rw [journal_report, List.filterMap_append, List.filterMap_append, List.filterMap_flatMap,
    List.filterMap_cons_none (hsummary ..), List.filterMap_nil, List.append_nil]

theorem instructions_report (lines : List String) :
    (report lines).log.filterMap Record.instruction? =
      (ofLines lines).journal.toList.filterMap Event.instruction? := by
  rw [Report.filterMap_instruction?_log, filterMap_journal_report lines _ fun _ _ _ _ ↦ rfl]
  simp [filterMap_instruction?_patches]

theorem patches_report (lines : List String) :
    (report lines).log.filterMap Record.patch? = (ofLines lines).labels.flatMap
      fun name ↦ ((ofLines lines).patches name).filterMap Event.patch? := by
  rw [Report.filterMap_patch?_log, filterMap_journal_report lines _ fun _ _ _ _ ↦ rfl,
    (tells_ofLines lines).unpatched, List.nil_append]

/-- A word of the output is the value of its cell under the final addresses. -/
theorem getElem?_output_report {lines : List String} {i : Nat} {cell : Cell String}
    (h : (ofLines lines).cells[i]? = some cell) :
    (report lines).output[i]? = some (cell.value (ofLines lines).word?) := by
  rw [report, List.getElem?_toArray, List.getElem?_map, h]
  rfl

/-- A word that is patched depends on the label that it is patched for. -/
theorem exists_of_mem_patches_report {lines : List String} {told : Nat × Nat}
    (h : told ∈ (report lines).log.filterMap Record.patch?) :
    ∃ cell, (ofLines lines).cells[told.1]? = some cell ∧ cell.label? ≠ none ∧
      (cell.value (ofLines lines).word?).toNat = told.2 := by
  rw [patches_report, List.mem_flatMap] at h
  obtain ⟨name, -, hname⟩ := h
  obtain ⟨cell, hcell, hlabel, hvalue⟩ := value_of_mem_patches hname
  exact ⟨cell, hcell, hlabel ▸ Option.some_ne_none name, hvalue⟩

/-- The patches that are told of are at the references of the names with an address. -/
theorem map_patches_report (lines : List String) :
    ((report lines).log.filterMap Record.patch?).map Prod.fst =
      ((ofLines lines).labels.filter fun name ↦ ((ofLines lines).word? name).isSome).flatMap
        (ofLines lines).sites := by
  rw [patches_report, List.map_flatMap]
  simp only [map_patches]
  induction (ofLines lines).labels with
  | nil => rfl
  | cons name names ih =>
      rw [List.flatMap_cons, ih, List.filter_cons]
      split <;> rfl

/-- No cell depends on two labels, so that none is a reference twice. -/
theorem nodup_flatMap_sites (ho : o.Valid) {names : List String} (h : names.Sublist o.labels) :
    (names.flatMap o.sites).Nodup := by
  refine List.nodup_flatMap.mpr ⟨fun name _ ↦ o.nodup_sites name, ?_⟩
  refine (ho.nodup.sublist h).imp fun {name name'} hne ↦ ?_
  intro i hi hi'
  obtain ⟨cell, hcell, hlabel⟩ := Sketch.mem_sites.mp hi
  obtain ⟨cell', hcell', hlabel'⟩ := Sketch.mem_sites.mp hi'
  obtain rfl := Option.some.inj (hcell.symm.trans hcell')
  exact hne (Option.some.inj (hlabel.symm.trans hlabel'))

end Outline

namespace Journal

open Outline

/-- The error count and the rest of the issues are the two severities. -/
theorem length_sub_countP_isError (issues : List Issue) :
    issues.length - issues.countP Issue.isError =
      issues.countP fun issue ↦ issue.severity = .warning := by
  have hwarning : ∀ issue ∈ issues,
      (decide ¬issue.isError = true) = decide (issue.severity = .warning) := by
    intro issue _
    rw [Issue.isError]
    cases issue.severity <;> rfl
  rw [List.length_eq_countP_add_countP Issue.isError, Nat.add_sub_cancel_left]
  exact List.countP_congr fun issue h ↦ by rw [hwarning issue h]

/-- What the log of a source text tells is true of its output. -/
theorem assemble_truthful (source : String) :
    ∃ report, assemble source = .ok report ∧
      Truthful (Text.lines source)
        (Progress.ofLines (Text.lines source)).assembly.builder.slots.toList report := by
  refine ⟨_, Outline.assemble_eq source, ?_⟩
  generalize Text.lines source = lines
  have ho := valid_ofLines lines
  have htells := tells_ofLines lines
  have hslots : (Progress.ofLines lines).assembly.builder.slots.toList =
      (ofLines lines).labels.map (ofLines lines).slot := by
    rw [progress_ofLines]
    rfl
  rw [hslots]
  have hinstructions := instructions_report lines
  exact {
    instructions := by rw [hinstructions, instructions_ofLines]
    ascending := by
      rw [hinstructions]
      exact htells.ascending
    written := by
      rw [hinstructions]
      intro told htold
      obtain ⟨word, hword, htoNat⟩ := htells.written told htold
      rw [getElem?_output_report hword, Cell.value_const, Option.map_some, htoNat]
    patches := by
      rw [map_patches_report, List.filter_map, List.flatMap_map]
      rfl
    sites := by
      rw [← (Diagnostics.keeps_ofLines lines).labels, List.map_map]
      exact List.map_congr_left fun name _ ↦ sites_ofLines lines name
    nodup := by
      rw [map_patches_report]
      exact nodup_flatMap_sites ho List.filter_sublist
    disjoint := by
      intro address hinstruction hpatch
      rw [hinstructions] at hinstruction
      obtain ⟨told, htold, rfl⟩ := List.mem_map.mp hinstruction
      obtain ⟨told', htold', heq⟩ := List.mem_map.mp hpatch
      obtain ⟨word, hword, -⟩ := htells.written told htold
      obtain ⟨cell, hcell, hlabel, -⟩ := exists_of_mem_patches_report htold'
      rw [heq, hword] at hcell
      obtain rfl := Option.some.inj hcell
      exact hlabel rfl
    patched told htold := by
      obtain ⟨cell, hcell, -, hvalue⟩ := exists_of_mem_patches_report htold
      rw [getElem?_output_report hcell, Option.map_some, hvalue]
    summary := by
      rw [Report.log_eq, journal_report, List.map_append, List.map_singleton,
        List.getLast?_concat, Listing.size_output_report, length_sub_countP_isError]
      rfl }

end Journal

end Dcpu16
