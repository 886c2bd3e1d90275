import Dcpu16.Proofs.Assembly.Data
import Dcpu16.Proofs.Assembly.Substitution
import Dcpu16.Proofs.Line.Recasing

/-!
# Keywords in any case, labels in their own

A source that has an image keeps it, and its issues too, whatever the case in which the letters of
its keywords are written.  Names of labels are told apart by the case of their letters: the table of
names has an entry for each spelling, and a word that refers to a label is given the address of the
line that marks the label in the same spelling.  Main statement: `Recasing.assemble_recased`.
-/

namespace Dcpu16

theorem Assembly.mem_of_mem_marked {a : Assembly} {index : Nat} {names : List String}
    {name : String} (h : name ∈ a.marked index names) : name ∈ names := by
  induction names generalizing a with
  | nil => exact h
  | cons name' names ih =>
      rw [Assembly.marked] at h
      split at h
      · rcases List.mem_cons.mp h with rfl | h
        · exact List.mem_cons_self
        · exact List.mem_cons_of_mem _ (ih h)
      · exact absurd h List.not_mem_nil

namespace Recasing

open Outline Diagnostics

/-- A source is another one with letters of keywords in another case. -/
def RecasedSource (source source' : String) : Prop :=
  List.Forall₂ (fun text text' ↦ Recased .start text.toList text'.toList)
    (Text.lines source) (Text.lines source')

/-- How labels are told apart in a source with these lines, where `a` is their assembly before it is
finished. -/
structure Exact (lines : List String) (a : Assembly) (report : Report) : Prop where
  /-- The table has the names that the lines look up, as they are spelled there, -/
  found : ∀ name, (a.find? name).isSome ↔ name ∈ names lines
  named : ∀ name symbol, a.find? name = some symbol → symbol.name = name
  /-- and names that differ have labels that differ. -/
  distinct : ∀ name name' symbol symbol', a.find? name = some symbol →
    a.find? name' = some symbol' → name ≠ name' → symbol.label ≠ symbol'.label
  /-- A line defines a name by a mark that is spelled just so, -/
  spelled : ∀ name, ∀ index ∈ definedOn lines name,
    ∃ text, lines[index]? = some text ∧ name ∈ (Line.ofString text).marks
  /-- which it does for every name if there is an image. -/
  defined : report.image?.isSome → ∀ name ∈ names lines,
    ∃ entry ∈ report.listing, entry.index ∈ definedOn lines name
  /-- A word that depends on a name is given the address of the line that defines this name. -/
  patched : ∀ entry ∈ report.listing, outcome lines (entry.text, entry.index) = .ok () →
    ∀ statement, TwoPass.statement? (Line.ofString entry.text) = some statement →
    ∀ (k : Nat) (base : UInt16) (name : String), statement.cells[k]? = some ⟨base, some name⟩ →
    ∀ entry' ∈ report.listing, entry'.index ∈ definedOn lines name →
      entry.words[k]? = some (base + entry'.start.toUInt16)

/-! ## Keywords -/

/-- Each line of a source that has an image can be read, and so it is read as before. -/
theorem ofString_of_recasedSource {lines lines' : List String}
    (haccepted : lineIssues {} lines.zipIdx = [])
    (h : List.Forall₂ (fun text text' ↦ Recased .start text.toList text'.toList) lines lines') :
    List.Forall₂ (fun text text' ↦ Line.ofString text = Line.ofString text') lines lines' := by
  have hreadable := names_of_accepted haccepted
  refine List.forall₂_iff_get.mpr ⟨h.length_eq, fun i hi hi' ↦ ?_⟩
  obtain ⟨⟨statement?, hbody⟩, -⟩ := hreadable _ (List.get_mem lines ⟨i, hi⟩)
  exact (ofString_of_recased (h.get hi hi') hbody).symm

/-! ## Labels -/

variable {lines : List String} {name : String}

/-- A line that defines a name spells it exactly so. -/
theorem spelled_of_mem_definedOn {index : Nat} (h : index ∈ definedOn lines name) :
    ∃ text, lines[index]? = some text ∧ name ∈ (Line.ofString text).marks := by
  obtain ⟨line, hline, hindex⟩ := List.mem_flatMap.mp h
  obtain ⟨hcount, rfl⟩ := List.mem_replicate.mp hindex
  have hmarked := List.count_pos_iff.mp (Nat.pos_of_ne_zero hcount)
  exact ⟨line.1, List.mem_zipIdx_iff_getElem?.mp hline, Assembly.mem_of_mem_marked hmarked⟩

/-- A cell that depends on a name has the address of the line that defines it. -/
theorem words_of_definedOn {entry entry' : ListingEntry}
    (hentry : entry ∈ (report lines).listing) (hentry' : entry' ∈ (report lines).listing)
    (hok : outcome lines (entry.text, entry.index) = .ok ()) {statement : Statement String}
    (hstatement : TwoPass.statement? (Line.ofString entry.text) = some statement) {k : Nat}
    {base : UInt16} (hcell : statement.cells[k]? = some ⟨base, some name⟩)
    (hdefined : entry'.index ∈ definedOn lines name) :
    entry.words[k]? = some (base + entry'.start.toUInt16) := by
  have hwritten : (ofLines (lines.take entry.index)).written (entry.text, entry.index) =
      statement.cells := by
    rw [outcome_eq] at hok
    rw [written, hok, hstatement]
    rfl
  have hword : (ofLines lines).word? name = some entry'.start.toUInt16 := by
    rw [Sketch.word?, Listing.address?_of_mem_definedOn hdefined,
      (Listing.entry_of_mem_listing hentry').1]
    rfl
  rw [Listing.words_of_mem_listing hentry, hwritten, List.getElem?_map, hcell, Option.map_some,
    Cell.value, Option.bind_some, hword]

theorem find?_eq_some {symbol : Symbol} (h : (ofLines lines).assembly.find? name = some symbol) :
    name ∈ (ofLines lines).labels ∧ symbol = (ofLines lines).symbol name := by
  rw [find?_assembly] at h
  split at h
  · next hn => exact ⟨hn, (Option.some.inj h).symm⟩
  · cases h

/-- Names are told apart by their exact spelling in every report. -/
theorem exact_report (lines : List String) :
    Exact lines (Progress.ofLines lines).assembly (report lines) := by
  have hlabels := (keeps_ofLines lines).labels
  rw [progress_ofLines]
  exact {
    found name := by
      rw [find?_assembly, ← hlabels]
      split <;> simp_all
    named name symbol h := by
      rw [(find?_eq_some h).2]
      rfl
    distinct name name' symbol symbol' h h' hne heq := by
      obtain ⟨hn, rfl⟩ := find?_eq_some h
      obtain ⟨-, rfl⟩ := find?_eq_some h'
      -- the handle of a name is its place among the names
      exact hne ((List.idxOf_inj hn).mp (congrArg Label.index heq))
    spelled _ _ := spelled_of_mem_definedOn
    defined himage name hn := by
      obtain ⟨image, himage⟩ := Option.isSome_iff_exists.mp himage
      obtain ⟨⟨haccepted, hmarked⟩, -⟩ := (image?_report lines image).mp himage
      obtain ⟨entry, hentry, hdefined, -⟩ := Data.exists_entry ⟨haccepted, hmarked⟩ (hlabels ▸ hn)
      exact ⟨entry, hentry, hdefined⟩
    patched entry hentry hok statement hstatement k base name hcell entry' hentry' hdefined :=
      words_of_definedOn hentry hentry' hok hstatement hcell hdefined }

/-- With its keywords in other cases a source without errors has the same image and the same issues,
and in every source labels are told apart by their spelling. -/
theorem assemble_recased :
    (∀ (source source' : String) (r : Report) (image : Array UInt16), assemble source = .ok r →
      r.image? = some image → RecasedSource source source' →
      ∃ r', assemble source' = .ok r' ∧ r'.image? = some image ∧ r'.issues = r.issues) ∧
    ∀ source : String, ∃ r, assemble source = .ok r ∧
      Exact (Text.lines source) (Progress.ofLines (Text.lines source)).assembly r := by
  constructor
  · intro source source' r image hr himage h
    obtain ⟨rfl, hclean, -⟩ := clean_of_assemble hr himage
    have hread := ofString_of_recasedSource hclean.accepted h
    obtain ⟨r, hr', hrecased, -⟩ := Substitution.assemble_eq (.of_forall₂ hread)
    obtain rfl := Except.ok.inj (hr.symm.trans hr')
    exact ⟨_, hrecased, himage, rfl⟩
  · intro source
    exact ⟨_, Outline.assemble_eq source, exact_report _⟩

/-- A command and registers in another case, beside two labels that differ in case. -/
theorem assemble_recased_labels :
    (∃ r', assemble "SeT A, l\n:l ADD [B+L], 1\n:L" = .ok r' ∧
      r'.image? = some #[0x7C01, 2, 0x8512, 4] ∧
      r'.issues = (Outline.report (Text.lines "set a, l\n:l add [b+L], 1\n:L")).issues) ∧
    ∃ r, assemble "set a, l\n:l add [b+L], 1\n:L" = .ok r ∧
      Exact (Text.lines "set a, l\n:l add [b+L], 1\n:L")
        (Progress.ofLines (Text.lines "set a, l\n:l add [b+L], 1\n:L")).assembly r := by
  have hnone : ∀ b ∈ ([] : List Char), Text.isBlank b := List.forall_mem_nil _
  have hblank : ∀ b ∈ [' '], Text.isBlank b := List.forall_mem_singleton.mpr (by decide)
  -- Each side is lowered by itself: to compare the two as they stand takes long.
  have hset : "SeT".toLower = "set".toLower :=
    .trans (b := "set") (by decide +kernel) (by decide +kernel)
  have hadd : "ADD".toLower = "add".toLower :=
    .trans (b := "add") (by decide +kernel) (by decide +kernel)
  have ha : "A".toLower = "a".toLower :=
    .trans (b := "a") (by decide +kernel) (by decide +kernel)
  have hb : "B".toLower = "b".toLower :=
    .trans (b := "b") (by decide +kernel) (by decide +kernel)
  have hregister : Recased .operands " a, l".toList " A, l".toList :=
    @Recased.keyword .operands "a" "A" [' '] ", l".toList ", l".toList hblank
      (by decide +kernel) (by decide +kernel) ha (.rest _ _)
  have hfirst : Recased .start "set a, l".toList "SeT A, l".toList :=
    @Recased.keyword .start "set" "SeT" [] " a, l".toList " A, l".toList hnone
      (by decide +kernel) rfl hset hregister
  have hterm : Recased .operands "b+L], 1".toList "B+L], 1".toList :=
    @Recased.keyword .operands "b" "B" [] "+L], 1".toList "+L], 1".toList hnone
      (by decide +kernel) (by decide +kernel) hb (.rest _ _)
  have hsum : Recased .operands " [b+L], 1".toList " [B+L], 1".toList :=
    @Recased.token .operands .openBracket [' ', '['] "b+L], 1".toList "B+L], 1".toList
      (by decide +kernel) hterm
  have hcommand : Recased .start " add [b+L], 1".toList " ADD [B+L], 1".toList :=
    @Recased.keyword .start "add" "ADD" [' '] " [b+L], 1".toList " [B+L], 1".toList hblank
      (by decide +kernel) rfl hadd hsum
  have hname : Recased .mark "l add [b+L], 1".toList "l ADD [B+L], 1".toList :=
    @Recased.token .mark (.ident "l") ['l'] " add [b+L], 1".toList " ADD [B+L], 1".toList
      (by decide +kernel) hcommand
  have hsecond : Recased .start ":l add [b+L], 1".toList ":l ADD [B+L], 1".toList :=
    @Recased.token .start .colon [':'] "l add [b+L], 1".toList "l ADD [B+L], 1".toList
      (by decide +kernel) hname
  have himage : (Outline.report (Text.lines "set a, l\n:l add [b+L], 1\n:L")).image? =
      some #[0x7C01, 2, 0x8512, 4] := by decide +kernel
  have hlines : Text.lines "set a, l\n:l add [b+L], 1\n:L" =
      ["set a, l", ":l add [b+L], 1", ":L"] := by decide +kernel
  have hlines' : Text.lines "SeT A, l\n:l ADD [B+L], 1\n:L" =
      ["SeT A, l", ":l ADD [B+L], 1", ":L"] := by decide +kernel
  have hsource : RecasedSource "set a, l\n:l add [b+L], 1\n:L" "SeT A, l\n:l ADD [B+L], 1\n:L" := by
    rw [RecasedSource, hlines, hlines']
    exact .cons hfirst (.cons hsecond (.cons (.rest _ _) .nil))
  exact ⟨assemble_recased.1 _ _ _ _ (Outline.assemble_eq _) himage hsource, assemble_recased.2 _⟩

end Recasing

end Dcpu16
