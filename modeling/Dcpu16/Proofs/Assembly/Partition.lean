import Dcpu16.Proofs.Assembly.Growth
import Mathlib.Data.List.Chain

/-!
# The listing of a text

A listing is cut out of the output after all addresses have been added, at the places where the
lines started and stopped while they were assembled.  This is sound because a line that is rejected
writes nothing, because finishing an image changes no length, and because the labels of a line are
marked before it writes.  Main statement: `Listing.assemble_partitions`, by which the parts of the
lines make up the output, and each label has the address at which its line starts.

The induction is on the lines, from the outline before them; `Listing.entries` is the listing in the
form that goes with it.
-/

namespace Dcpu16

namespace ListingEntry

def offset (entry : ListingEntry) : Nat := 2 * entry.start

def bytes (entry : ListingEntry) : List UInt8 := Image.bytes entry.words

theorem flatMap_bytes (entries : List ListingEntry) :
    entries.flatMap bytes = Image.bytes (entries.flatMap words) :=
  List.flatMap_assoc.symm

end ListingEntry

namespace Listing

/-- How a report on lines lists them, where `a` is their assembly before it is finished. -/
structure Partitions (lines : List String) (a : Assembly) (report : Report) : Prop where
  /-- There is one entry for each line, in order. -/
  indexed : report.listing.map (fun entry ↦ (entry.text, entry.index)) = lines.zipIdx
  first : ∀ entry ∈ report.listing.head?, entry.offset = 0
  /-- A line starts where the one before it ends. -/
  next : report.listing.IsChain fun entry entry' ↦
    entry'.offset = entry.offset + entry.bytes.length
  even : ∀ entry ∈ report.listing, 2 ∣ entry.offset
  /-- No line is cut from where there is no output. -/
  within : ∀ span ∈ report.spans, span.1 ≤ span.2 ∧ span.2 ≤ report.output.size
  /-- Together the lines are the output, -/
  output : report.listing.flatMap ListingEntry.bytes = Image.bytes report.output.toList
  /-- which is the image if there is one. -/
  image : ∀ image, report.image? = some image → image = report.output
  /-- A line that is rejected has no bytes, -/
  rejected : ∀ entry ∈ report.listing, ∀ e,
    Diagnostics.outcome lines (entry.text, entry.index) = .error e → entry.bytes = []
  /-- nor has one that is blank or has only labels, -/
  bare : ∀ entry ∈ report.listing, ∀ marks : List String,
    Token.Reads entry.text.toList (marks.flatMap fun name ↦ [.colon, .ident name]) →
      entry.bytes = []
  /-- and any other has as many as its statement. -/
  accepted : ∀ entry ∈ report.listing,
    Diagnostics.outcome lines (entry.text, entry.index) = .ok () →
      entry.bytes.length = 2 * TwoPass.lineSize (Line.ofString entry.text)
  /-- A label that is marked on a line has the address at which the line starts, and this is what
  is added at all its references. -/
  label : ∀ entry ∈ report.listing, ∀ name,
    entry.index ∈ Diagnostics.definedOn lines name →
      entry.offset / 2 ≤ 0xFFFF ∧ ∃ symbol slot, a.find? name = some symbol ∧
        a.builder.slot? symbol.label = some slot ∧
        slot.address? = some (entry.offset / 2).toUInt16 ∧
        ∀ site ∈ slot.sites, ∃ word, a.builder.words[site]? = some word ∧
          report.output[site]? = some (word + (entry.offset / 2).toUInt16)

/-! ## Cutting at stops -/

/-- The entries of lines, the first of which starts at an address. -/
def entries (output : Array UInt16) (start : Nat) :
    List (String × Nat) → List Nat → List ListingEntry
  | line :: lines, stop :: stops =>
    ⟨line.2, line.1, start, (output.extract start stop).toList⟩ :: entries output stop lines stops
  | _, _ => []

/-- The listing cuts the output at the stops. -/
theorem listing_eq (report : Report) :
    report.listing = entries report.output 0 report.lines.zipIdx report.stops := by
  unfold Report.listing Report.spans
  generalize report.lines.zipIdx = lines
  generalize report.stops = stops
  generalize 0 = start
  induction lines generalizing start stops with
  | nil => cases stops <;> rfl
  | cons line lines ih =>
      cases stops with
      | nil => rfl
      | cons stop stops =>
          rw [entries, ← ih]
          rfl

/-- Addresses that lie behind each other and in the output. -/
def Ascending (size start : Nat) (stops : List Nat) : Prop :=
  ∀ span ∈ (start :: stops).zip stops, span.1 ≤ span.2 ∧ span.2 ≤ size

theorem ascending_cons {size start stop : Nat} {stops : List Nat}
    (h : Ascending size start (stop :: stops)) :
    start ≤ stop ∧ stop ≤ size ∧ Ascending size stop stops := by
  obtain ⟨hstart, hstop⟩ := h (start, stop) List.mem_cons_self
  refine ⟨hstart, hstop, ?_⟩
  intro span hspan
  exact h span (List.mem_cons_of_mem _ hspan)

section Entries

variable {output : Array UInt16} {lines : List (String × Nat)} {stops : List Nat} {start : Nat}

theorem length_extract {stop : Nat} (h : stop ≤ output.size) :
    (output.extract start stop).toList.length = stop - start := by
  rw [Array.length_toList, Array.size_extract, Nat.min_eq_left h]

theorem map_entries (h : lines.length = stops.length) :
    (entries output start lines stops).map (fun entry ↦ (entry.text, entry.index)) = lines := by
  induction lines generalizing start stops with
  | nil => rfl
  | cons line lines ih =>
      cases stops with
      | nil => exact absurd h (by simp)
      | cons stop stops => rw [entries, List.map_cons, ih (Nat.succ.inj h)]

theorem start_of_head? {entry : ListingEntry}
    (h : entry ∈ (entries output start lines stops).head?) : entry.start = start := by
  cases lines with
  | nil => exact nomatch h
  | cons line lines =>
      cases stops with
      | nil => exact nomatch h
      | cons stop stops =>
          obtain rfl := Option.some.inj h
          rfl

/-- If the stops ascend in the output, every entry ends where the next one starts. -/
theorem isChain_entries (h : Ascending output.size start stops) :
    (entries output start lines stops).IsChain fun entry entry' ↦
      entry'.start = entry.start + entry.words.length := by
  induction lines generalizing start stops with
  | nil => exact .nil
  | cons line lines ih =>
      cases stops with
      | nil => exact .nil
      | cons stop stops =>
          obtain ⟨hstart, hstop, hrest⟩ := ascending_cons h
          rw [entries, List.isChain_cons]
          refine ⟨?_, ih hrest⟩
          intro entry' hentry
          rw [start_of_head? hentry, length_extract hstop]
          exact (Nat.add_sub_cancel' hstart).symm

end Entries

end Listing

namespace Outline

open Listing

/-! ## Lines and their words -/

section Entries

variable {output : Array UInt16} {lines : List (String × Nat)}

/-- From any line on, the words of the lines are the rest of the output. -/
theorem flatMap_words_entries (o : Outline)
    (h : output.size = (lines.foldl step o).cells.length) :
    (entries output o.cells.length lines (o.stops lines)).flatMap ListingEntry.words =
      output.toList.drop o.cells.length := by
  induction lines generalizing o with
  | nil =>
      have hlength : output.toList.length ≤ o.cells.length := Nat.le_of_eq h
      rw [List.drop_of_length_le hlength]
      rfl
  | cons line lines ih =>
      have hle := length_cells_le_step o line
      rw [stops, entries, List.flatMap_cons, ih _ h]
      show (output.extract _ _).toList ++ _ = _
      rw [Array.toList_extract, List.extract_eq_take_drop, ← Nat.sub_add_cancel hle,
        Nat.add_sub_cancel, Nat.add_comm, ← List.drop_drop, List.take_append_drop]

/-- An entry tells of a line, which starts where the outline before it ends. -/
theorem exists_of_mem_entries (o : Outline) {entry : ListingEntry}
    (h : entry ∈ entries output o.cells.length lines (o.stops lines)) :
    ∃ before later, lines = before ++ (entry.text, entry.index) :: later ∧
      entry.start = (before.foldl step o).cells.length ∧
      entry.words = (output.extract entry.start
        ((before.foldl step o).step (entry.text, entry.index)).cells.length).toList := by
  induction lines generalizing o with
  | nil => exact absurd h List.not_mem_nil
  | cons line lines ih =>
      rw [stops, entries, List.mem_cons] at h
      rcases h with rfl | h
      · exact ⟨[], lines, rfl, rfl, rfl⟩
      · obtain ⟨before, later, rfl, hstart, hwords⟩ := ih _ h
        exact ⟨line :: before, later, rfl, hstart, hwords⟩

end Entries

end Outline

namespace Listing

open Outline Diagnostics

/-- A label has the address at which the line that marks it starts. -/
theorem address?_of_mem_definedOn {lines : List String} {name : String} {index : Nat}
    (h : index ∈ definedOn lines name) :
    (ofLines lines).address? name = some (ofLines (lines.take index)).cells.length := by
  induction lines using List.reverseRecOn with
  | nil => exact absurd h List.not_mem_nil
  | append_singleton lines text ih =>
      have ho := valid_ofLines lines
      have hadds := adds_step ho (text, lines.length)
      rw [ofLines_append, address?_step ho]
      rw [definedOn_append, List.mem_append] at h
      rcases h with h | h
      · have hlt := lt_of_mem_definedOn h
        -- The last line does not mark a name that is marked already.
        have hnot : name ∉ (ofLines lines).assembly.marked lines.length
            (Line.ofString text).marks := by
          intro hn
          have hnone := (line?_eq_none_iff ho name).mp (hadds.unmarked name hn)
          rw [ih h] at hnone
          cases hnone
        rw [if_neg hnot, ih h, List.take_append_of_le_length (Nat.le_of_lt hlt)]
      · obtain ⟨hcount, rfl⟩ := List.mem_replicate.mp h
        have hmem := List.count_pos_iff.mp (Nat.pos_of_ne_zero hcount)
        rw [if_pos hmem, List.take_left]

theorem size_output_report (lines : List String) :
    (Outline.report lines).output.size = (ofLines lines).cells.length := by
  simp [Outline.report]

/-- The lines in front of a line are those with a smaller index. -/
theorem eq_of_zipIdx_eq {lines : List String} {before later : List (String × Nat)} {text : String}
    {index : Nat} (h : lines.zipIdx = before ++ (text, index) :: later) :
    before = (lines.take index).zipIdx ∧ lines[index]? = some text := by
  have hget : lines.zipIdx[before.length]? = some (text, index) := by
    rw [h, List.getElem?_append_right (Nat.le_refl _), Nat.sub_self, List.getElem?_cons_zero]
  rw [List.getElem?_zipIdx, Option.map_eq_some_iff] at hget
  obtain ⟨text', htext, heq⟩ := hget
  obtain ⟨rfl, hindex⟩ := Prod.mk.inj heq
  obtain rfl : before.length = index := by omega
  refine ⟨?_, htext⟩
  have hlength : ((lines.take before.length).zipIdx).length = before.length := by
    have hlt := (List.getElem?_eq_some_iff.mp htext).1
    rw [List.length_zipIdx, List.length_take, Nat.min_eq_left (Nat.le_of_lt hlt)]
  have hsplit := h
  rw [← List.take_append_drop before.length lines, List.zipIdx_append] at hsplit
  exact (List.append_inj hsplit hlength).1.symm

/-- A line in the listing starts where the lines before it stop, and has the words that it
writes. -/
theorem entry_of_mem_listing {lines : List String} {entry : ListingEntry}
    (h : entry ∈ (Outline.report lines).listing) :
    entry.start = (ofLines (lines.take entry.index)).cells.length ∧
      entry.words.length =
        ((ofLines (lines.take entry.index)).written (entry.text, entry.index)).length := by
  rw [listing_eq] at h
  obtain ⟨before, later, hlines, hstart, hwords⟩ := exists_of_mem_entries {} h
  obtain ⟨hbefore, -⟩ := eq_of_zipIdx_eq hlines
  have hofLines : before.foldl step {} = ofLines (lines.take entry.index) := by
    rw [hbefore]
    rfl
  rw [hofLines] at hstart hwords
  refine ⟨hstart, ?_⟩
  have hstop : ((ofLines (lines.take entry.index)).step (entry.text, entry.index)).cells.length ≤
      (Outline.report lines).output.size := by
    have hall : ofLines lines = later.foldl step
        ((ofLines (lines.take entry.index)).step (entry.text, entry.index)) := by
      show lines.zipIdx.foldl step {} = _
      rw [← hofLines, ← List.foldl_cons, ← List.foldl_append]
      exact congrArg _ hlines
    rw [size_output_report, hall]
    exact length_cells_le_foldl _ later
  rw [hwords, length_extract hstop, cells_step, List.length_append, hstart, Nat.add_sub_cancel_left]

theorem length_stops_report (lines : List String) :
    lines.zipIdx.length = (Outline.report lines).stops.length :=
  (length_stops {} lines.zipIdx).symm

/-- What becomes of the references to a label that is marked. -/
theorem references_of_address? {lines : List String} {name : String} {address : Nat}
    (h : (ofLines lines).address? name = some address) :
    ∃ symbol slot, (ofLines lines).assembly.find? name = some symbol ∧
      (ofLines lines).assembly.builder.slot? symbol.label = some slot ∧
      slot.address? = some address.toUInt16 ∧
      ∀ site ∈ slot.sites, ∃ word, (ofLines lines).assembly.builder.words[site]? = some word ∧
        (Outline.report lines).output[site]? = some (word + address.toUInt16) := by
  have ho := valid_ofLines lines
  have hn := ho.marked h
  have hword : (ofLines lines).word? name = some address.toUInt16 := by
    rw [Sketch.word?, h, Option.map_some]
  have hfind : (ofLines lines).assembly.find? name = some ((ofLines lines).symbol name) := by
    rw [find?_assembly, if_pos hn]
  refine ⟨_, (ofLines lines).slot name, hfind, Sketch.slot?_builder hn 0 _, hword, ?_⟩
  · intro site hsite
    obtain ⟨cell, hcell, hlabel⟩ := Sketch.mem_sites.mp (List.mem_toArray.mp hsite)
    refine ⟨cell.base, ?_, ?_⟩
    · show (ofLines lines).words.toArray[site]? = _
      rw [Sketch.words_of_unfinished ho.unfinished, List.getElem?_toArray, List.getElem?_map, hcell,
        Option.map_some]
    · show ((ofLines lines).cells.map _).toArray[site]? = _
      rw [List.getElem?_toArray, List.getElem?_map, hcell, Option.map_some, Cell.value, hlabel,
        Option.bind_some, hword]

/-- A line whose tokens are labels with their colons has no statement. -/
theorem statement?_of_reads {text : String} {marks : List String}
    (h : Token.Reads text.toList (marks.flatMap fun name ↦ [.colon, .ident name])) :
    TwoPass.statement? (Line.ofString text) = none := by
  have hparse : ∀ before, (Line.parseFrom before
      ((marks.flatMap fun name ↦ [Token.colon, .ident name]).map .ok)).body = .ok none := by
    clear h
    induction marks with
    | nil => exact fun before ↦ rfl
    | cons name marks ih => exact fun before ↦ ih (name :: before)
  rw [TwoPass.statement?, Line.ofString, Token.scan_eq_iff.mpr h, Line.ofLexemes, hparse []]

/-- Assembling a text always gives a report, whose listing has one part of the output for each
line.  The listing is read off the report and has no influence on it. -/
theorem assemble_partitions (source : String) :
    ∃ report, assemble source = .ok report ∧
      Partitions (Text.lines source) (Progress.ofLines (Text.lines source)).assembly report := by
  refine ⟨_, Outline.assemble_eq source, ?_⟩
  generalize Text.lines source = lines
  rw [progress_ofLines]
  have hascending :
      Ascending (Outline.report lines).output.size 0 (Outline.report lines).stops := by
    rw [size_output_report]
    exact stops_le {} lines.zipIdx
  have hempty : ∀ entry ∈ (Outline.report lines).listing,
      (ofLines (lines.take entry.index)).written (entry.text, entry.index) = [] →
        entry.bytes = [] := by
    intro entry hentry hwritten
    have hlength := (entry_of_mem_listing hentry).2
    rw [hwritten] at hlength
    rw [ListingEntry.bytes, List.length_eq_zero_iff.mp hlength]
    rfl
  exact {
    indexed := by
      rw [listing_eq]
      exact map_entries (length_stops_report lines)
    first entry hentry := by
      rw [listing_eq] at hentry
      rw [ListingEntry.offset, start_of_head? hentry]
    next := by
      have hchain : (entries (Outline.report lines).output 0 lines.zipIdx
          (Outline.report lines).stops).IsChain fun entry entry' ↦
            entry'.start = entry.start + entry.words.length := isChain_entries hascending
      rw [listing_eq]
      refine hchain.imp ?_
      intro entry entry' hnext
      rw [ListingEntry.offset, ListingEntry.offset, ListingEntry.bytes, Image.length_bytes, hnext,
        Nat.mul_add]
    even entry _ := Nat.dvd_mul_right 2 entry.start
    within := hascending
    output := by
      have hwords := flatMap_words_entries {} (size_output_report lines)
      rw [listing_eq, ListingEntry.flatMap_bytes]
      exact congrArg Image.bytes hwords
    image image himage := ((Outline.image?_report lines image).mp himage).2
    rejected entry hentry e he := by
      apply hempty entry hentry
      rw [outcome_eq] at he
      rw [written, he]
    bare entry hentry marks hreads := by
      apply hempty entry hentry
      rw [written, statement?_of_reads hreads]
      split <;> rfl
    accepted entry hentry hok := by
      rw [outcome_eq] at hok
      rw [ListingEntry.bytes, Image.length_bytes, (entry_of_mem_listing hentry).2, written, hok,
        TwoPass.lineSize]
      cases TwoPass.statement? (Line.ofString entry.text) with
      | none => rfl
      | some statement => exact congrArg _ (TwoPass.length_cells statement)
    label entry hentry name hdefined := by
      have haddress := address?_of_mem_definedOn hdefined
      have hstart : entry.offset / 2 = (ofLines (lines.take entry.index)).cells.length := by
        rw [ListingEntry.offset, Nat.mul_div_cancel_left _ Nat.two_pos,
          (entry_of_mem_listing hentry).1]
      rw [hstart]
      exact ⟨(valid_ofLines lines).fits haddress, references_of_address? haddress⟩ }

end Listing

end Dcpu16
