import Dcpu16.Image
import Dcpu16.Proofs.Assembly.Marking
import Dcpu16.Proofs.Assembly.Summary
import Mathlib.Algebra.Ring.Nat

/-!
# Assembling in two passes

The textbook way to assemble a text has two passes over its lines.  The first one only counts: each
line has a number of words that can be told from the line alone, and a label that is defined on a
line gets the number of words of all lines before it as its address.  The second pass knows all
addresses and writes each line at once, with nothing to be filled in later.

Nothing here mentions builders, so that this is a second definition of what a text means.  Main
statement: `TwoPass.assemble_eq_output`, by which assembling a text gives an image exactly if the
text is well formed, namely what the two passes give.
-/

namespace Dcpu16.TwoPass

/-! ## The first pass -/

/-- The number of words of an operand behind the instruction word.  A label always takes one,
however small its address will be. -/
def operandSize : Operand String → Nat
  | .register _ | .indirect _ | .special _ => 0
  | .indexed _ _ | .absolute _ => 1
  | .literal ⟨base, none⟩ => if base.toNat ≤ 0x1F then 0 else 1
  | .literal ⟨_, some _⟩ => 1

/-- The number of UTF-16 units of a character. -/
def charSize (c : Char) : Nat := if c.toNat ≤ 0xFFFF then 1 else 2

def itemSize : Item String → Nat
  | .word _ | .address _ => 1
  | .text s => (s.toList.map charSize).sum

def statementSize : Statement String → Nat
  | .instruction (.basic _ a b) => 1 + operandSize a + operandSize b
  | .instruction (.extended _ a) => 1 + operandSize a
  | .data items => (items.map itemSize).sum

def statement? (line : Line) : Option (Statement String) :=
  match line.body with
  | .ok statement? => statement?
  | .error _ => none

def lineSize (line : Line) : Nat := (statement? line).elim 0 statementSize

/-- The labels that lines define, each with the number of words of all lines before its own. -/
def definitions (lines : List Line) : List (String × Nat) :=
  lines.zipIdx.flatMap fun (line, i) ↦
    line.marks.map fun name ↦ (name, ((lines.take i).map lineSize).sum)

def operandMention? : Operand String → Option String
  | .register _ | .indirect _ | .special _ => none
  | .indexed _ cell | .absolute cell | .literal cell => cell.label?

def mentions : Statement String → List String
  | .instruction (.basic _ a b) => (operandMention? a).toList ++ (operandMention? b).toList
  | .instruction (.extended _ a) => (operandMention? a).toList
  | .data items => items.filterMap Item.label?

/-- Lines that the first pass has no objection to. -/
structure Placeable (lines : List Line) : Prop where
  /-- Every line can be read. -/
  readable : ∀ line ∈ lines, ∃ statement?, line.body = .ok statement?
  /-- No label is defined twice. -/
  nodup : ((definitions lines).map Prod.fst).Nodup
  /-- Every label has an address that fits in a word. -/
  fits : ∀ definition ∈ definitions lines, definition.2 ≤ 0xFFFF

/-- Lines that mean an image. -/
structure WellFormed (lines : List Line) : Prop extends Placeable lines where
  /-- Every label that is mentioned is defined. -/
  defined : ∀ line ∈ lines, ∀ statement ∈ statement? line, ∀ name ∈ mentions statement,
    name ∈ (definitions lines).map Prod.fst

/-! ## The second pass -/

section Encoding

variable (address : String → Nat)

/-- The value of a word that may depend on a label. -/
def cellCode (cell : Cell String) : Nat :=
  match cell.label? with
  | none => cell.base.toNat
  | some name => (cell.base.toNat + address name) % 0x10000

/-- The field of an operand and the words behind the instruction word. -/
def operandCode : Operand String → Nat × List Nat
  | .register r => (r.code, [])
  | .indirect r => (0x08 + r.code, [])
  | .indexed r cell => (0x10 + r.code, [cellCode address cell])
  | .special s => (s.field, [])
  | .absolute cell => (0x1E, [cellCode address cell])
  | .literal ⟨base, none⟩ =>
    if base.toNat ≤ 0x1F then (0x20 + base.toNat, []) else (0x1F, [base.toNat])
  | .literal ⟨base, some name⟩ => (0x1F, [cellCode address ⟨base, some name⟩])

def instructionCode : Instruction String → List Nat
  | .basic op a b =>
    let (fieldA, wordsA) := operandCode address a
    let (fieldB, wordsB) := operandCode address b
    (op.code + 0x10 * fieldA + 0x400 * fieldB) :: wordsA ++ wordsB
  | .extended number a =>
    let (field, words) := operandCode address a
    (0x10 * number.val + 0x400 * field) :: words

def itemCode : Item String → List Nat
  | .word w => [w.toNat]
  | .text s => (Text.units s).map UInt16.toNat
  | .address name => [cellCode address ⟨0, some name⟩]

def statementCode : Statement String → List Nat
  | .instruction i => instructionCode address i
  | .data items => items.flatMap (itemCode address)

def lineCode (line : Line) : List Nat := (statement? line).elim [] (statementCode address)

end Encoding

/-- The bytes of a word, the more significant one first. -/
def wordBytes (w : Nat) : List UInt8 := [(w / 0x100).toUInt8, (w % 0x100).toUInt8]

def address (lines : List Line) (name : String) : Nat := ((definitions lines).lookup name).getD 0

/-- The bytes that the second pass writes. -/
def output (lines : List Line) : List UInt8 :=
  (lines.flatMap (lineCode (address lines))).flatMap wordBytes

/-! ## Sizes, mentions and words of statements -/

/-- An operand has as many words behind the instruction as its size says. -/
theorem length_trailing? (operand : Operand String) :
    operand.trailing?.toList.length = operandSize operand := by
  cases operand with
  | literal cell =>
      obtain ⟨base, label?⟩ := cell
      cases label? with
      | none =>
          by_cases h : base.toNat ≤ 0x1F <;> simp [Operand.trailing?, Cell.isShort, operandSize, h]
      | some name => simp [Operand.trailing?, Cell.isShort, operandSize]
  | _ => rfl

theorem cells_basic (op : BasicOp) (a b : Operand String) :
    (Instruction.basic op a b).cells =
      ⟨(Instruction.basic op a b).word, none⟩ :: a.trailing?.toList ++ b.trailing?.toList := by
  cases ha : a.trailing? <;> cases hb : b.trailing? <;>
    simp [Instruction.cells, Instruction.operands, ha, hb]

theorem cells_extended (number : Fin 64) (a : Operand String) :
    (Instruction.extended number a).cells =
      ⟨(Instruction.extended number a).word, none⟩ :: a.trailing?.toList := by
  cases ha : a.trailing? <;> simp [Instruction.cells, Instruction.operands, ha]

/-- A string has one unit for each character, or two outside the basic plane. -/
theorem length_units (s : String) : (Text.units s).length = (s.toList.map charSize).sum := by
  have hchar : ∀ c, (Text.unitsOfChar c).length = charSize c := by
    intro c
    unfold Text.unitsOfChar charSize
    split <;> rfl
  simp [Text.units, List.length_flatMap, hchar]

/-- The number of words of a statement does not depend on where labels stand. -/
theorem length_cells (statement : Statement String) :
    statement.cells.length = statementSize statement := by
  rcases statement with (⟨op, a, b⟩ | ⟨number, a⟩) | items
  · simp only [Statement.cells, cells_basic, List.cons_append, List.length_cons,
      List.length_append, length_trailing?, statementSize]
    omega
  · simp only [Statement.cells, cells_extended, List.length_cons, length_trailing?, statementSize]
    omega
  · have hitem : ∀ item : Item String, item.cells.length = itemSize item := by
      intro item
      cases item with
      | text s => simp [Item.cells, itemSize, length_units]
      | _ => rfl
    simp [Statement.cells, statementSize, List.length_flatMap, hitem]

/-- The labels that a statement mentions are those that it looks up. -/
theorem mentions_eq (statement : Statement String) : mentions statement = statement.labels := by
  have hoperand : ∀ operand : Operand String, operandMention? operand = operand.label? := by
    intro operand
    cases operand with
    | literal cell => exact (Operand.label?_literal cell).symm
    | _ => rfl
  rcases statement with (⟨op, a, b⟩ | ⟨number, a⟩) | items
  · rw [mentions, hoperand, hoperand, ← Instruction.labels_basic op]
    rfl
  · rw [mentions, hoperand, ← Instruction.labels_extended number]
    rfl
  · rfl

section Encoding

variable {address : String → Nat} {word? : String → Option UInt16}

theorem toNat_value {cell : Cell String}
    (h : ∀ name ∈ cell.label?, word? name = some (address name).toUInt16) :
    (cell.value word?).toNat = cellCode address cell := by
  obtain ⟨base, label?⟩ := cell
  cases label? with
  | none => rfl
  | some name => simp [Cell.value, cellCode, h name rfl]

theorem operandCode_eq {operand : Operand String}
    (h : ∀ name ∈ operand.label?, word? name = some (address name).toUInt16) :
    operandCode address operand =
      (operand.field, operand.trailing?.toList.map fun cell ↦ (cell.value word?).toNat) := by
  cases operand with
  | register r => rfl
  | indirect r => rfl
  | special s => rfl
  | indexed r cell =>
      rw [Operand.label?_indexed] at h
      simp [operandCode, Operand.field, Operand.trailing?, toNat_value h]
  | absolute cell =>
      rw [Operand.label?_absolute] at h
      simp [operandCode, Operand.field, Operand.trailing?, toNat_value h]
  | literal cell =>
      rw [Operand.label?_literal] at h
      obtain ⟨base, label?⟩ := cell
      cases label? with
      | none =>
          by_cases hb : base.toNat ≤ 0x1F <;>
            simp [operandCode, Operand.field, Operand.trailing?, Cell.isShort, hb]
      | some name =>
          simp [operandCode, Operand.field, Operand.trailing?, Cell.isShort, toNat_value h]

/-- The words of an instruction, computed with numbers. -/
theorem instructionCode_eq {i : Instruction String}
    (h : ∀ name ∈ i.labels, word? name = some (address name).toUInt16) :
    instructionCode address i = i.cells.map fun cell ↦ (cell.value word?).toNat := by
  have hoperand : ∀ operand ∈ i.operands, operandCode address operand =
      (operand.field, operand.trailing?.toList.map fun cell ↦ (cell.value word?).toNat) :=
    fun operand ho ↦ operandCode_eq fun name hn ↦ h name (List.mem_filterMap.mpr ⟨operand, ho, hn⟩)
  cases i with
  | basic op a b =>
      have ha := hoperand a (by simp [Instruction.operands])
      have hb := hoperand b (by simp [Instruction.operands])
      simp [instructionCode, cells_basic, ha, hb, Instruction.toNat_word_basic]
  | extended number a =>
      have ha := hoperand a (by simp [Instruction.operands])
      simp [instructionCode, cells_extended, ha, Instruction.toNat_word_extended]

/-- The words of a statement are those of its cells once the addresses are known. -/
theorem statementCode_eq {statement : Statement String}
    (h : ∀ name ∈ mentions statement, word? name = some (address name).toUInt16) :
    statementCode address statement =
      statement.cells.map fun cell ↦ (cell.value word?).toNat := by
  rw [mentions_eq] at h
  cases statement with
  | instruction i => exact instructionCode_eq h
  | data items =>
      have hitem : ∀ item ∈ items, itemCode address item =
          item.cells.map fun cell ↦ (cell.value word?).toNat := by
        intro item hi
        cases item with
        | word w => rfl
        | text s => simp [itemCode, Item.cells, Function.comp_def]
        | address name =>
            have hname := h name (List.mem_filterMap.mpr ⟨_, hi, rfl⟩)
            have hcell : ((Cell.mk 0 (some name)).value word?).toNat =
                cellCode address ⟨0, some name⟩ := toNat_value (by simpa using hname)
            simp [itemCode, Item.cells, hcell]
      simp only [statementCode, Statement.cells, List.map_flatMap]
      rw [List.flatMap_def, List.flatMap_def, List.map_congr_left hitem]

end Encoding

theorem wordBytes_toNat (w : UInt16) : wordBytes w.toNat = Image.wordBytes w := by
  have := w.toNat_lt
  simp only [wordBytes, Image.wordBytes, List.cons.injEq, and_true]
  constructor
  · apply UInt8.toNat_inj.mp
    simp [Nat.shiftRight_eq_div_pow]
  · apply UInt8.toNat_inj.mp
    simp

/-! ## Adding a line -/

theorem definitions_append (lines : List Line) (line : Line) :
    definitions (lines ++ [line]) =
      definitions lines ++ line.marks.map fun name ↦ (name, (lines.map lineSize).sum) := by
  have htake : ∀ entry ∈ lines.zipIdx, (lines ++ [line]).take entry.2 = lines.take entry.2 := by
    intro entry he
    have hlt := (List.mem_zipIdx' he).1
    rw [List.take_append_of_le_length (Nat.le_of_lt hlt)]
  have hbefore : (lines.zipIdx.flatMap fun (l, i) ↦
      l.marks.map fun name ↦ (name, (((lines ++ [line]).take i).map lineSize).sum)) =
        definitions lines := by
    rw [definitions, List.flatMap_def, List.flatMap_def]
    refine congrArg List.flatten (List.map_congr_left fun entry he ↦ ?_)
    simp only [htake entry he]
  rw [definitions, List.zipIdx_append, List.flatMap_append, hbefore]
  simp

theorem map_fst_definitions_append (lines : List Line) (line : Line) :
    (definitions (lines ++ [line])).map Prod.fst =
      (definitions lines).map Prod.fst ++ line.marks := by
  rw [definitions_append, List.map_append, List.map_map]
  exact congrArg _ (List.map_id _)

theorem lookup_map_const (names : List String) (a : Nat) (name : String) :
    (names.map fun x ↦ (x, a)).lookup name = if name ∈ names then some a else none := by
  induction names with
  | nil => rfl
  | cons x names ih =>
      rw [List.map_cons, List.lookup_cons]
      by_cases hx : name = x
      · simp [hx]
      · have hbeq : (name == x) = false := beq_eq_false_iff_ne.mpr hx
        simp [hbeq, hx, ih]

/-- What a line must satisfy for the first pass to accept it behind others. -/
structure Extends (lines : List Line) (line : Line) : Prop where
  readable : ∃ statement?, line.body = .ok statement?
  nodup : line.marks.Nodup
  undefined : ∀ name ∈ line.marks, name ∉ (definitions lines).map Prod.fst
  fits : line.marks ≠ [] → (lines.map lineSize).sum ≤ 0xFFFF

theorem placeable_nil : Placeable [] where
  readable _ h := absurd h List.not_mem_nil
  nodup := List.nodup_nil
  fits _ h := absurd h List.not_mem_nil

/-- Lines are placeable if those before the last are and the last one extends them. -/
theorem placeable_append {lines : List Line} {line : Line} :
    Placeable (lines ++ [line]) ↔ Placeable lines ∧ Extends lines line := by
  have hnames := map_fst_definitions_append lines line
  constructor
  · rintro ⟨hread, hnodup, hfits⟩
    rw [hnames, List.nodup_append] at hnodup
    rw [definitions_append] at hfits
    obtain ⟨hbefore, hmarks, hdisjoint⟩ := hnodup
    refine ⟨⟨?_, hbefore, ?_⟩, ⟨?_, hmarks, ?_, ?_⟩⟩
    · exact fun l hl ↦ hread l (List.mem_append_left _ hl)
    · exact fun d hd ↦ hfits d (List.mem_append_left _ hd)
    · exact hread line (List.mem_append_right _ (List.mem_singleton_self line))
    · exact fun name hn hd ↦ hdisjoint name hd name hn rfl
    · intro hne
      obtain ⟨name, hn⟩ := List.exists_mem_of_ne_nil _ hne
      exact hfits _ (List.mem_append_right _ (List.mem_map.mpr ⟨name, hn, rfl⟩))
  · rintro ⟨⟨hread, hnodup, hfits⟩, hline⟩
    refine ⟨?_, ?_, ?_⟩
    · intro l hl
      rcases List.mem_append.mp hl with hl | hl
      · exact hread l hl
      · exact List.mem_singleton.mp hl ▸ hline.readable
    · rw [hnames, List.nodup_append]
      refine ⟨hnodup, hline.nodup, ?_⟩
      rintro x hx y hy rfl
      exact hline.undefined x hy hx
    · intro d hd
      rw [definitions_append] at hd
      rcases List.mem_append.mp hd with hd | hd
      · exact hfits d hd
      · obtain ⟨name, hn, rfl⟩ := List.mem_map.mp hd
        exact hline.fits (List.ne_nil_of_mem hn)

/-! ## Outlines of placeable lines -/

/-- An outline that has kept what lines say. -/
structure Keeps (o : Outline) (lines : List Line) : Prop where
  cells : o.cells = lines.flatMap fun line ↦ (statement? line).elim [] Statement.cells
  address? (name : String) : o.address? name = (definitions lines).lookup name
  labels (name : String) : name ∈ o.labels ↔ name ∈ (definitions lines).map Prod.fst ∨
    ∃ line ∈ lines, ∃ statement ∈ statement? line, name ∈ mentions statement

theorem keeps_nil : Keeps {} [] where
  cells := rfl
  address? _ := rfl
  labels name := by simp [definitions]

theorem Keeps.length_cells {o : Outline} {lines : List Line} (h : Keeps o lines) :
    o.cells.length = (lines.map lineSize).sum := by
  have hline : ∀ line : Line,
      ((statement? line).elim [] Statement.cells).length = lineSize line := by
    intro line
    rw [lineSize]
    cases statement? line with
    | none => rfl
    | some statement => exact TwoPass.length_cells statement
  simp only [h.cells, List.length_flatMap, hline]

theorem Keeps.address?_eq_none {o : Outline} {lines : List Line} (h : Keeps o lines)
    {name : String} : o.address? name = none ↔ name ∉ (definitions lines).map Prod.fst := by
  rw [h.address?, List.lookup_eq_none_iff, List.mem_map]
  constructor
  · rintro hlookup ⟨d, hd, rfl⟩
    exact bne_iff_ne.mp (hlookup d hd) rfl
  · exact fun hmem d hd ↦ bne_iff_ne.mpr fun he ↦ hmem ⟨d, hd, he.symm⟩

/-- A line is accepted behind others by the one pass exactly if it is by the first of the two. -/
theorem Keeps.addLine_eq_ok {o : Outline} {lines : List Line} (h : Keeps o lines) (index : Nat)
    (line : Line) : (o.addLine index line).1 = .ok () ↔ Extends lines line := by
  rw [Outline.addLine_eq_ok_iff]
  constructor
  · rintro ⟨hmarks, hread⟩
    refine ⟨hread, hmarks.nodup, ?_, ?_⟩
    · exact fun name hn ↦ h.address?_eq_none.mp (hmarks.unmarked name hn)
    · exact fun hne ↦ h.length_cells ▸ hmarks.fits hne
  · rintro ⟨hread, hnodup, hundefined, hfits⟩
    refine ⟨⟨hnodup, ?_, ?_⟩, hread⟩
    · exact fun name hn ↦ h.address?_eq_none.mpr (hundefined name hn)
    · exact fun hne ↦ h.length_cells ▸ hfits hne

/-- Marks give labels the addresses of the first pass. -/
theorem Keeps.setMarks {o : Outline} {lines : List Line} (h : Keeps o lines) {line : Line}
    (hline : Extends lines line) (index : Nat) (name : String) :
    (o.setMarks index line.marks).address? name =
      (definitions (lines ++ [line])).lookup name := by
  rw [definitions_append, List.lookup_append, lookup_map_const, ← h.address?, ← h.length_cells]
  change (if name ∈ line.marks then some o.cells.length else o.address? name) = _
  by_cases hn : name ∈ line.marks
  · simp [hn, h.address?_eq_none.mpr (hline.undefined name hn)]
  · simp [hn]

/-- A line that is accepted is kept. -/
theorem Keeps.addLine {o : Outline} {lines : List Line} (h : Keeps o lines) {line : Line}
    (hline : Extends lines line) (index : Nat) :
    Keeps (o.addLine index line).2 (lines ++ [line]) := by
  have hmarks := (Outline.addLine_eq_ok_iff.mp ((h.addLine_eq_ok index line).mpr hline)).1
  have hlabels : ∀ name, name ∈ (o.setMarks index line.marks).labels ↔
      (name ∈ (definitions (lines ++ [line])).map Prod.fst ∨
        ∃ line ∈ lines, ∃ statement ∈ statement? line, name ∈ mentions statement) := by
    intro name
    rw [Outline.mem_labels_setMarks, h.labels, map_fst_definitions_append, List.mem_append,
      or_right_comm]
  obtain ⟨body, hbody⟩ := hline.readable
  have hstatement : statement? line = body := by rw [statement?, hbody]
  have hcells : (o.setMarks index line.marks).cells = o.cells := rfl
  rw [Outline.addLine_of_canMark hmarks, hbody]
  cases body with
  | none =>
      refine ⟨?_, h.setMarks hline index, fun name ↦ ?_⟩
      · simp [Outline.addBody, hstatement, hcells, ← h.cells]
      · rw [Outline.addBody, hlabels]
        simp [hstatement]
  | some statement =>
      refine ⟨?_, h.setMarks hline index, fun name ↦ ?_⟩
      · simp [Outline.addBody, Outline.emit, hstatement, hcells, ← h.cells]
      · have hmem : name ∈ ((o.setMarks index line.marks).emit statement).labels ↔ _ :=
          Outline.mem_labels_meetAll
        rw [Outline.addBody, hmem, hlabels, ← mentions_eq]
        simp [hstatement, or_assoc, or_and_right, exists_or]

/-- The step lemma: a line that the first pass accepts is kept. -/
theorem Keeps.step {o : Outline} {lines : List Line} (h : Keeps o lines) {text : String}
    (hline : Extends lines (Line.ofString text)) (index : Nat) :
    Keeps (o.step (text, index)) (lines ++ [Line.ofString text]) := by
  have hok := (h.addLine_eq_ok index (Line.ofString text)).mpr hline
  have hkeeps := h.addLine hline index
  rw [Outline.step]
  generalize o.addLine index (Line.ofString text) = result at hok hkeeps
  obtain ⟨r, o'⟩ := result
  obtain rfl : r = .ok () := hok
  exact hkeeps

/-- The one pass rejects no line exactly if the first of the two has no objection, and then it keeps
what the lines say. -/
theorem lineIssues_eq_nil (lines : List String) :
    (Outline.lineIssues {} lines.zipIdx = [] ↔ Placeable (lines.map Line.ofString)) ∧
      (Placeable (lines.map Line.ofString) →
        Keeps (Outline.ofLines lines) (lines.map Line.ofString)) := by
  -- Lines are taken from the end: one is accepted or not by the outline of all those before it.
  induction lines using List.reverseRecOn with
  | nil => exact ⟨⟨fun _ ↦ placeable_nil, fun _ ↦ rfl⟩, fun _ ↦ keeps_nil⟩
  | append_singleton lines text ih =>
      obtain ⟨hissues, hkeeps⟩ := ih
      have hzip : (lines ++ [text]).zipIdx = lines.zipIdx ++ [(text, lines.length)] := by
        simp [List.zipIdx_append]
      rw [List.map_append, List.map_singleton, placeable_append, hzip, Outline.lineIssues_append,
        List.append_eq_nil_iff, hissues, Option.toList_eq_nil_iff, Outline.lineIssue?_eq_none]
      refine ⟨and_congr_right fun hc ↦ (hkeeps hc).addLine_eq_ok _ _, ?_⟩
      rintro ⟨hc, hline⟩
      rw [Outline.ofLines_append]
      exact (hkeeps hc).step hline _

/-! ## Both ways give the same image -/

/-- A name has the address that the first pass gives to it. -/
theorem Keeps.word?_eq {o : Outline} {lines : List Line} (h : Keeps o lines) {name : String}
    (hn : name ∈ (definitions lines).map Prod.fst) :
    o.word? name = some (address lines name).toUInt16 := by
  have hne : o.address? name ≠ none := fun ha ↦ h.address?_eq_none.mp ha hn
  obtain ⟨a, ha⟩ := Option.ne_none_iff_exists'.mp hne
  rw [Sketch.word?, ha, address, ← h.address?, ha]
  rfl

/-- If all labels are defined, the values of the cells are the output of the second pass. -/
theorem Keeps.bytes_eq {o : Outline} {lines : List Line} (h : Keeps o lines)
    (hdefined : ∀ line ∈ lines, ∀ statement ∈ statement? line, ∀ name ∈ mentions statement,
      name ∈ (definitions lines).map Prod.fst) :
    Image.bytes (o.cells.map (Cell.value o.word?)) = output lines := by
  have hline : ∀ line ∈ lines, (lineCode (address lines) line).flatMap wordBytes =
      Image.bytes (((statement? line).elim [] Statement.cells).map (Cell.value o.word?)) := by
    intro line hl
    have hdefined := hdefined line hl
    rw [lineCode]
    cases hs : statement? line with
    | none => rfl
    | some statement =>
        have hcode := statementCode_eq fun name hn ↦ h.word?_eq (hdefined statement hs name hn)
        simp only [Option.elim_some, hcode, Image.bytes, List.flatMap_map, wordBytes_toNat]
  rw [output, h.cells, List.flatMap_assoc, Image.bytes, List.map_flatMap, List.flatMap_assoc]
  rw [List.flatMap_def, List.flatMap_def, List.map_congr_left hline]
  rfl

/-- Assembling a text never fails as such, and it gives an image exactly if the text is well formed,
namely what the two passes give. -/
theorem assemble_eq_output (source : String) :
    ∃ report, assemble source = .ok report ∧
      ∀ image : List UInt8,
        report.image?.map (fun words ↦ Image.bytes words.toList) = some image ↔
          WellFormed ((Text.lines source).map Line.ofString) ∧
            image = output ((Text.lines source).map Line.ofString) := by
  refine ⟨_, Outline.assemble_eq source, fun image ↦ ?_⟩
  obtain ⟨hissues, hkeeps⟩ := lineIssues_eq_nil (Text.lines source)
  generalize (Text.lines source).map Line.ofString = lines at hissues hkeeps ⊢
  generalize Text.lines source = texts at hissues hkeeps ⊢
  have hmarked : Placeable lines →
      ((∀ name ∈ (Outline.ofLines texts).labels, (Outline.ofLines texts).address? name ≠ none) ↔
        ∀ line ∈ lines, ∀ statement ∈ statement? line, ∀ name ∈ mentions statement,
          name ∈ (definitions lines).map Prod.fst) := by
    intro hc
    have h := hkeeps hc
    simp only [h.labels, Ne, h.address?_eq_none, not_not]
    constructor
    · exact fun hall line hl statement hs name hn ↦ hall name (.inr ⟨line, hl, statement, hs, hn⟩)
    · rintro hall name (hn | ⟨line, hl, statement, hs, hn⟩)
      · exact hn
      · exact hall line hl statement hs name hn
  have hwell : WellFormed lines ↔ Outline.lineIssues {} texts.zipIdx = [] ∧
      ∀ name ∈ (Outline.ofLines texts).labels, (Outline.ofLines texts).address? name ≠ none := by
    rw [hissues]
    constructor
    · exact fun hw ↦ ⟨hw.toPlaceable, (hmarked hw.toPlaceable).mpr hw.defined⟩
    · exact fun ⟨hc, hall⟩ ↦ ⟨hc, (hmarked hc).mp hall⟩
  simp only [Option.map_eq_some_iff, Outline.image?_report, ← hwell]
  constructor
  · rintro ⟨words, ⟨hw, rfl⟩, rfl⟩
    exact ⟨hw, (hkeeps hw.toPlaceable).bytes_eq hw.defined⟩
  · rintro ⟨hw, rfl⟩
    exact ⟨_, ⟨hw, rfl⟩, (hkeeps hw.toPlaceable).bytes_eq hw.defined⟩

end Dcpu16.TwoPass
