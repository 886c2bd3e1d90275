import Dcpu16.Proofs.Assembly.Partition
import Dcpu16.Proofs.Assembly.Renaming
import Dcpu16.Proofs.Line.Data
import Dcpu16.Proofs.Text.Utf16

/-!
# Data in images

The words of a line of data are those of its items, in their order and with nothing between them,
wherever the line stands in a text that has an image.  On its own a line of data without labels is a
text without issues, whose image is just these words.  As every string can be written on a line,
every string can be stored in an image and be read back from it.  Main statement:
`Data.assemble_data`.
-/

namespace Dcpu16

namespace Text

theorem lines_of_notMem {s : String} (hne : s.toList ≠ []) (h : '\n' ∉ s.toList) :
    lines s = [s] := by
  have hpieces := (Cut.last h hne).pieces_flatten
  rw [List.flatten_singleton] at hpieces
  rw [lines, hpieces, List.map_singleton, chomp_of_notMem h, String.ofList_toList]

end Text

namespace Outline

/-- Whatever lines follow, the cells stay what they are. -/
theorem cells_prefix_foldl (o : Outline) (lines : List (String × Nat)) :
    o.cells <+: (lines.foldl step o).cells := by
  induction lines generalizing o with
  | nil => exact List.prefix_refl _
  | cons line lines ih =>
      have hstep : o.cells <+: (o.step line).cells := by
        rw [cells_step]
        exact List.prefix_append _ _
      exact hstep.trans (ih (o.step line))

end Outline

namespace Listing

open Outline

variable {lines : List String} {entry : ListingEntry}

theorem map_listing (lines : List String) :
    (Outline.report lines).listing.map (fun entry ↦ (entry.text, entry.index)) = lines.zipIdx := by
  rw [listing_eq]
  exact map_entries (length_stops_report lines)

theorem mem_zipIdx_of_mem_listing (h : entry ∈ (Outline.report lines).listing) :
    (entry.text, entry.index) ∈ lines.zipIdx := by
  rw [← map_listing]
  exact List.mem_map_of_mem h

/-- Every line has its entry. -/
theorem exists_mem_listing {index : Nat} (h : index < lines.length) :
    ∃ entry ∈ (Outline.report lines).listing, entry.index = index := by
  have hmem : (lines[index], index) ∈ lines.zipIdx :=
    List.mem_zipIdx_iff_getElem?.mpr (List.getElem?_eq_getElem h)
  rw [← map_listing] at hmem
  obtain ⟨entry, hentry, heq⟩ := List.mem_map.mp hmem
  exact ⟨entry, hentry, (Prod.mk.inj heq).2⟩

/-- The cells that a line writes come behind those of the lines before it. -/
theorem cells_of_mem_listing (h : entry ∈ (Outline.report lines).listing) :
    (ofLines (lines.take entry.index)).cells ++
      (ofLines (lines.take entry.index)).written (entry.text, entry.index) <+:
        (ofLines lines).cells := by
  obtain ⟨before, later, hlines⟩ := List.append_of_mem (mem_zipIdx_of_mem_listing h)
  obtain ⟨hbefore, -⟩ := eq_of_zipIdx_eq hlines
  have hall : ofLines lines = later.foldl step
      ((ofLines (lines.take entry.index)).step (entry.text, entry.index)) := by
    rw [ofLines, hlines, List.foldl_append, List.foldl_cons, hbefore]
    rfl
  rw [hall, ← cells_step]
  exact cells_prefix_foldl _ later

/-- The words of a line in the listing are those that its cells hold in the end. -/
theorem words_of_mem_listing (h : entry ∈ (Outline.report lines).listing) :
    entry.words = ((ofLines (lines.take entry.index)).written (entry.text, entry.index)).map
      (Cell.value (ofLines lines).word?) := by
  obtain ⟨rest, hrest⟩ := cells_of_mem_listing h
  rw [listing_eq] at h
  obtain ⟨before, later, hlines, hstart, hwords⟩ := exists_of_mem_entries {} h
  obtain ⟨hbefore, -⟩ := eq_of_zipIdx_eq hlines
  have hofLines : before.foldl step {} = ofLines (lines.take entry.index) := by
    rw [hbefore]
    rfl
  rw [hofLines] at hstart hwords
  rw [hwords, cells_step, hstart, List.length_append]
  show (((ofLines lines).cells.map _).toArray.extract _ _).toList = _
  rw [← hrest, List.append_assoc, List.map_append, List.map_append]
  simp [List.extract_eq_take_drop]

end Listing

namespace Data

open Outline Diagnostics Listing
open Grammar (IsData)

variable {t : Token} {ts tokens : List Token} {items : List (Item String)} {text : String}

/-! ## One line -/

theorem words_of_isConstant (h : isConstant t) (address address' : String → UInt16) :
    words address t = words address' t := by
  cases t with
  | number | char | text => rfl
  | _ => cases h

theorem isItem_of_isConstant (h : isConstant t) : Grammar.isItem t := by
  cases t with
  | number | char | text => rfl
  | _ => cases h

theorem labels_of_isConstant (hread : Read ts items) (h : ∀ t ∈ ts, isConstant t) :
    items.filterMap Item.label? = [] := by
  induction hread with
  | nil => rfl
  | @cons t item ts items hitem _ ih =>
      obtain ⟨ht, hts⟩ := List.forall_mem_cons.mp h
      have hlabel : item.label? = none := by
        cases t with
        | number | char | text =>
            obtain rfl := Option.some.inj hitem
            rfl
        | _ => cases ht
      rw [List.filterMap_cons_none hlabel, ih hts]

/-- The outline of one line of data holds its cells. -/
theorem ofLines_data (h : Line.ofString text = ⟨[], .ok (some (.data items))⟩) :
    ofLines [text] = ({} : Outline).emit (.data items) := by
  show step {} (text, 0) = _
  rw [step, h, addLine_of_canMark (CanMark.nil _), setMarks_nil]
  rfl

/-- A line of data that depends on no labels makes a text of its own. -/
theorem report_data (hline : Line.ofString text = ⟨[], .ok (some (.data items))⟩)
    (hread : Read ts items) (h : ∀ t ∈ ts, isConstant t) (address : String → UInt16) :
    (report [text]).issues = [] ∧
      (report [text]).image? = some (ts.flatMap (words address)).toArray := by
  have hof := ofLines_data hline
  have hnames : (ofLines [text]).labels = [] := by
    rw [hof]
    show (items.filterMap Item.label?).foldl addName [] = []
    rw [labels_of_isConstant hread h]
    rfl
  have hok : (({} : Outline).addLine 0 (Line.ofString text)).1 = .ok () := by
    rw [hline]
    exact addLine_eq_ok_iff.mpr ⟨CanMark.nil _, _, rfl⟩
  have hclean : Clean [text] := by
    refine ⟨?_, ?_⟩
    · show (({} : Outline).lineIssue? (text, 0)).toList ++ [] = []
      rw [lineIssue?_eq_none.mpr hok]
      rfl
    · rw [hnames]
      exact fun name hn ↦ absurd hn List.not_mem_nil
  constructor
  · show lineIssues {} [text].zipIdx ++ (ofLines [text]).labels.filterMap _ = []
    rw [hclean.accepted, hnames]
    rfl
  · have hcells : (ofLines [text]).cells = items.flatMap Item.cells := by
      rw [hof]
      rfl
    rw [hclean.image?, hcells, flatMap_words _ hread]
    exact congrArg (fun ws : List UInt16 ↦ some ws.toArray)
      (List.flatMap_congr fun t ht ↦ words_of_isConstant (h t ht) _ address)

theorem ne_nil_of_reads {cs : List Char} (h : Token.Reads cs (t :: ts)) : cs ≠ [] := by
  rintro rfl
  cases h with
  | token hread _ => cases hread

/-- A text that is one line of constants is assembled to their words without any issue. -/
theorem assemble_constants {source command : String} (hnewline : '\n' ∉ source.toList)
    (hreads : Token.Reads source.toList (.ident command :: tokens))
    (hcommand : command.toLower = "dat") (hdata : IsData ts tokens)
    (h : ∀ t ∈ ts, isConstant t) :
    ∃ r, assemble source = .ok r ∧ r.issues = [] ∧
      ∀ address, r.image? = some (ts.flatMap (words address)).toArray := by
  obtain ⟨items, hread⟩ := exists_read fun t ht ↦ isItem_of_isConstant (h t ht)
  have hline : Line.ofString source = ⟨[], .ok (some (.data items))⟩ :=
    ofString_data hreads hcommand hdata hread
  refine ⟨_, Outline.assemble_eq source, ?_⟩
  rw [Text.lines_of_notMem (ne_nil_of_reads hreads) hnewline]
  exact ⟨(report_data hline hread h fun _ ↦ 0).1,
    fun address ↦ (report_data hline hread h address).2⟩

/-! ## Lines of a text -/

/-- What a label adds to a cell is the address at which a line starts that marks it. -/
theorem exists_entry {lines : List String} (hclean : Clean lines) {name : String}
    (h : name ∈ (ofLines lines).labels) :
    ∃ entry ∈ (report lines).listing, entry.index ∈ definedOn lines name ∧
      ((ofLines lines).word? name).getD 0 = entry.start.toUInt16 := by
  have hdefined : definedOn lines name ≠ [] := by
    intro hnil
    have hnone := (keeps_ofLines lines).address?_eq_none (valid_ofLines lines) name
    exact hclean.marked name h (hnone.mpr hnil)
  obtain ⟨index, hindex⟩ := List.exists_mem_of_ne_nil _ hdefined
  obtain ⟨entry, hentry, rfl⟩ := exists_mem_listing (lt_of_mem_definedOn hindex)
  refine ⟨entry, hentry, hindex, ?_⟩
  rw [Sketch.word?, address?_of_mem_definedOn hindex, (entry_of_mem_listing hentry).1]
  rfl

/-- A text with an image has accepted all its lines. -/
theorem addLine_of_clean {lines : List String} (hclean : Clean lines) {entry : ListingEntry}
    (h : entry ∈ (report lines).listing) :
    ((ofLines (lines.take entry.index)).addLine entry.index (Line.ofString entry.text)).1 =
      .ok () := by
  have haccepted := hclean.accepted
  rw [Diagnostics.lineIssues_eq, List.filterMap_eq_nil_iff] at haccepted
  have hnone := haccepted _ (mem_zipIdx_of_mem_listing h)
  rw [Diagnostics.lineIssue?, outcome_eq] at hnone
  split at hnone
  · next hok => exact hok
  · cases hnone

/-- A name among the items is the label of one of their cells. -/
theorem mem_labels_of_read (hread : Read ts items) {name : String} (h : .ident name ∈ ts) :
    ∃ cell ∈ items.flatMap Item.cells, cell.label? = some name := by
  induction hread with
  | nil => exact absurd h List.not_mem_nil
  | @cons t item ts items hitem _ ih =>
      rw [List.flatMap_cons]
      rcases List.mem_cons.mp h with rfl | h
      · obtain rfl := eq_address_of_ofToken? hitem
        exact ⟨⟨0, some name⟩, List.mem_append_left _ List.mem_cons_self, rfl⟩
      · obtain ⟨cell, hcell, hlabel⟩ := ih h
        exact ⟨cell, List.mem_append_right _ hcell, hlabel⟩

/-- The words that are listed for a line of data are those of its items, under the final addresses.
-/
theorem words_of_data {lines : List String} (hclean : Clean lines) {entry : ListingEntry}
    (hentry : entry ∈ (report lines).listing) {marks : List String}
    (hline : Line.ofString entry.text = ⟨marks, .ok (some (.data items))⟩) (hread : Read ts items) :
    ∃ address : String → UInt16, (∀ name, .ident name ∈ ts → ∃ entry' ∈ (report lines).listing,
      entry'.index ∈ definedOn lines name ∧ address name = entry'.start.toUInt16) ∧
      entry.words = ts.flatMap (words address) := by
  have hwritten : (ofLines (lines.take entry.index)).written (entry.text, entry.index) =
      items.flatMap Item.cells := by
    rw [written, addLine_of_clean hclean hentry, hline]
    rfl
  refine ⟨fun name ↦ ((ofLines lines).word? name).getD 0, fun name hname ↦ ?_, ?_⟩
  · obtain ⟨cell, hcell, hlabel⟩ := mem_labels_of_read hread hname
    have hmem : cell ∈ (ofLines lines).cells :=
      (cells_of_mem_listing hentry).subset (List.mem_append_right _ (hwritten ▸ hcell))
    exact exists_entry hclean ((valid_ofLines lines).mentioned hmem hlabel)
  · rw [words_of_mem_listing hentry, hwritten, flatMap_words _ hread]

/-- Every string can be written on a line of data, and then it is stored as UTF-16 and nothing else
is, so that it can be read back.  A line of data that depends on no labels has the words of its
items one behind the other for its image, and so has any line of data in a text with an image, where
a name stands for the address at which its label was marked. -/
theorem assemble_data :
    (∀ s : String, ∃ parts, List.Forall₂ Spelled s.toList parts) ∧
    (∀ (s : String) (parts : List (List Char)), List.Forall₂ Spelled s.toList parts →
      ∃ r image, assemble (stringLine parts) = .ok r ∧ r.issues = [] ∧ r.image? = some image ∧
        image.toList = Text.units s ∧ Text.decode image.toList = some s.toList) ∧
    (∀ (source command : String) (items tokens : List Token), '\n' ∉ source.toList →
      Token.Reads source.toList (.ident command :: tokens) → command.toLower = "dat" →
      IsData items tokens → (∀ item ∈ items, isConstant item) →
      ∃ r, assemble source = .ok r ∧ r.issues = [] ∧
        ∀ address, r.image? = some (items.flatMap (words address)).toArray) ∧
    ∀ (source : String) (r : Report) (image : Array UInt16), assemble source = .ok r →
      r.image? = some image → ∀ entry ∈ r.listing,
      ∀ (marks : List String) (command : String) (items tokens : List Token),
      Token.Reads entry.text.toList (Line.markTokens marks ++ .ident command :: tokens) →
      command.toLower = "dat" → IsData items tokens → (∀ item ∈ items, Grammar.isItem item) →
      ∃ address : String → UInt16,
        (∀ name, .ident name ∈ items → ∃ entry' ∈ r.listing,
          entry'.index ∈ definedOn (Text.lines source) name ∧
            address name = entry'.start.toUInt16) ∧
        entry.words = items.flatMap (words address) := by
  refine ⟨fun s ↦ exists_spelled s.toList, ?_, ?_, ?_⟩
  · intro s parts hparts
    have hconstant : ∀ t ∈ [Token.text s], isConstant t := List.forall_mem_singleton.mpr rfl
    obtain ⟨r, hr, hissues, himage⟩ := assemble_constants (newline_notMem_stringLine hparts)
      (reads_string hparts) (by decide +kernel) (.inl rfl) hconstant
    have hunits : [Token.text s].flatMap (words fun _ ↦ 0) = Text.units s := List.append_nil _
    refine ⟨r, _, hr, hissues, himage fun _ ↦ 0, hunits, ?_⟩
    exact Text.decode_eq_some_iff.mpr hunits
  · intro source command items tokens hnewline hreads hcommand hdata hconstant
    exact assemble_constants hnewline hreads hcommand hdata hconstant
  · intro source r image hr himage entry hentry marks command items tokens hreads hcommand hdata
      hitems
    obtain ⟨rfl, hclean, -⟩ := clean_of_assemble hr himage
    obtain ⟨read, hread⟩ := exists_read hitems
    exact words_of_data hclean hentry (ofString_data hreads hcommand hdata hread) hread

/-- A quote, a line feed and a character above `0xFFFF`; items of every kind with a comma behind
them; and a label among the items of the line that marks it. -/
theorem assemble_data_mixed :
    (∃ r image, assemble "dat \"\\\"\\n😀\"" = .ok r ∧ r.issues = [] ∧ r.image? = some image ∧
      image.toList = [0x22, 0x0A, 0xD83D, 0xDE00] ∧
        Text.decode image.toList = some ['"', '\n', '😀']) ∧
    (∃ r, assemble "DAT 1, \"bc\", 'd'," = .ok r ∧ r.issues = [] ∧
      r.image? = some #[1, 0x62, 0x63, 0x64]) ∧
    ∃ r, assemble "dat 5\n:l dat 2, l" = .ok r ∧ ∃ entry ∈ r.listing, ∃ address : String → UInt16,
      entry.words = [2, address "l"] := by
  refine ⟨?_, ?_, ?_⟩
  · have hparts : List.Forall₂ Spelled "\"\n😀".toList [['\\', '"'], ['\\', 'n'], ['😀']] :=
      .cons (.escape (by decide)) (.cons (.escape (by decide)) (.cons (.plain (by decide)) .nil))
    obtain ⟨r, image, hr, hissues, himage, hunits, hdecode⟩ := assemble_data.2.1 _ _ hparts
    exact ⟨r, image, hr, hissues, himage, hunits, hdecode⟩
  · have hreads : Token.Reads "DAT 1, \"bc\", 'd',".toList
        [.ident "DAT", .number 1, .comma, .text "bc", .comma, .char 0x64, .comma] :=
      Token.scan_eq_iff.mp (by decide +kernel)
    obtain ⟨r, hr, hissues, himage⟩ := assemble_data.2.2.1 _ _ [.number 1, .text "bc", .char 0x64]
      _ (by decide) hreads (by decide +kernel) (.inr ⟨by simp, rfl⟩) (by decide)
    exact ⟨r, hr, hissues, himage fun _ ↦ 0⟩
  · have hreads : Token.Reads ":l dat 2, l".toList
        (Line.markTokens ["l"] ++ .ident "dat" :: [.number 2, .comma, .ident "l"]) :=
      Token.scan_eq_iff.mp (by decide +kernel)
    have hr := Outline.assemble_eq "dat 5\n:l dat 2, l"
    have hlisting : (Outline.report (Text.lines "dat 5\n:l dat 2, l")).listing =
        [⟨0, "dat 5", 0, [5]⟩, ⟨1, ":l dat 2, l", 1, [2, 1]⟩] := by decide +kernel
    have hentry : ⟨1, ":l dat 2, l", 1, [2, 1]⟩ ∈
        (Outline.report (Text.lines "dat 5\n:l dat 2, l")).listing :=
      hlisting ▸ List.mem_cons_of_mem _ List.mem_cons_self
    have hlabel : Grammar.isItem (.ident "l") := by decide +kernel
    obtain ⟨address, -, hwords⟩ := assemble_data.2.2.2 _ _ #[5, 2, 1] hr (by decide +kernel) _
      hentry ["l"] "dat" [.number 2, .ident "l"] _ hreads (by decide +kernel) (.inl rfl)
      (List.forall_mem_cons.mpr ⟨rfl, List.forall_mem_singleton.mpr hlabel⟩)
    exact ⟨_, hr, _, hentry, address, hwords⟩

end Data

end Dcpu16
