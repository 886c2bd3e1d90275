import Dcpu16.Line

/-!
# Relabelling

The type of the labels is a parameter of cells, operands, instructions, items and statements, and
`map` replaces each label by its image under a function.  Nothing that is decided before labels are
known depends on them: the field of an operand, the first word of an instruction and the number of
cells stay as they are, and the cells and the labels are relabelled one by one.

What a relabelling does to an instruction depends only on the labels that the instruction mentions
(`Instruction.map_congr`).
-/

namespace Dcpu16

variable {L M : Type}

/-! ## Cells -/

namespace Cell

def map (f : L → M) (cell : Cell L) : Cell M := ⟨cell.base, cell.label?.map f⟩

@[simp] theorem base_map (f : L → M) (cell : Cell L) : (cell.map f).base = cell.base := rfl

@[simp] theorem label?_map (f : L → M) (cell : Cell L) :
    (cell.map f).label? = cell.label?.map f := rfl

@[simp] theorem isShort_map (f : L → M) (cell : Cell L) : (cell.map f).isShort = cell.isShort := by
  rw [isShort, label?_map, Option.isNone_map]
  rfl

/-- A value that fits into an operand field depends on no label. -/
theorem label?_eq_none_of_isShort {cell : Cell L} (h : cell.isShort) : cell.label? = none := by
  simp only [isShort, Bool.and_eq_true, Option.isNone_iff_eq_none] at h
  exact h.1

theorem map_congr {f g : L → M} {cell : Cell L} (h : ∀ l ∈ cell.label?, f l = g l) :
    cell.map f = cell.map g := by
  unfold map
  rw [Option.map_congr h]

@[simp] theorem map_id (cell : Cell L) : cell.map id = cell := by
  simp [map]

end Cell

/-! ## Operands -/

namespace Operand

def map (f : L → M) : Operand L → Operand M
  | .register r => .register r
  | .indirect r => .indirect r
  | .indexed r cell => .indexed r (cell.map f)
  | .special s => .special s
  | .absolute cell => .absolute (cell.map f)
  | .literal cell => .literal (cell.map f)

@[simp] theorem label?_indexed (r : Register) (cell : Cell L) :
    (indexed r cell).label? = cell.label? := rfl

@[simp] theorem label?_absolute (cell : Cell L) : (absolute cell).label? = cell.label? := rfl

/-- A literal that is packed into the field has no label to lose. -/
@[simp] theorem label?_literal (cell : Cell L) : (literal cell).label? = cell.label? := by
  simp only [label?, trailing?]
  split
  · next h => rw [Cell.label?_eq_none_of_isShort h]; rfl
  · rfl

@[simp] theorem field_map (f : L → M) (operand : Operand L) :
    (operand.map f).field = operand.field := by
  cases operand <;> simp [map, field]

@[simp] theorem trailing?_map (f : L → M) (operand : Operand L) :
    (operand.map f).trailing? = operand.trailing?.map (Cell.map f) := by
  cases operand with
  | literal cell =>
      simp only [map, trailing?, Cell.isShort_map]
      split <;> rfl
  | _ => rfl

@[simp] theorem label?_map (f : L → M) (operand : Operand L) :
    (operand.map f).label? = operand.label?.map f := by
  cases operand <;> simp [map] <;> rfl

theorem map_congr {f g : L → M} {operand : Operand L} (h : ∀ l ∈ operand.label?, f l = g l) :
    operand.map f = operand.map g := by
  cases operand with
  | register r => rfl
  | indirect r => rfl
  | special s => rfl
  | indexed r cell =>
      rw [label?_indexed] at h
      rw [map, map, Cell.map_congr h]
  | absolute cell =>
      rw [label?_absolute] at h
      rw [map, map, Cell.map_congr h]
  | literal cell =>
      rw [label?_literal] at h
      rw [map, map, Cell.map_congr h]

@[simp] theorem map_id (operand : Operand L) : operand.map id = operand := by
  cases operand <;> simp [map]

end Operand

/-! ## Instructions -/

namespace Instruction

def map (f : L → M) : Instruction L → Instruction M
  | .basic op a b => .basic op (a.map f) (b.map f)
  | .extended number a => .extended number (a.map f)

@[simp] theorem opCode_map (f : L → M) (i : Instruction L) : (i.map f).opCode = i.opCode := by
  cases i <;> rfl

@[simp] theorem word_map (f : L → M) (i : Instruction L) : (i.map f).word = i.word := by
  cases i <;> simp [map, word]

theorem operands_map (f : L → M) (i : Instruction L) :
    (i.map f).operands = i.operands.map (Operand.map f) := by
  cases i <;> rfl

@[simp] theorem cells_map (f : L → M) (i : Instruction L) :
    (i.map f).cells = i.cells.map (Cell.map f) := by
  rw [cells, cells, word_map, operands_map, List.filterMap_map, List.map_cons, List.map_filterMap]
  exact congrArg (_ :: i.operands.filterMap ·) (funext fun operand ↦ operand.trailing?_map f)

@[simp] theorem labels_map (f : L → M) (i : Instruction L) :
    (i.map f).labels = i.labels.map f := by
  rw [labels, labels, operands_map, List.filterMap_map, List.map_filterMap]
  exact congrArg (i.operands.filterMap ·) (funext fun operand ↦ operand.label?_map f)

theorem map_congr {f g : L → M} {i : Instruction L} (h : ∀ l ∈ i.labels, f l = g l) :
    i.map f = i.map g := by
  have key : ∀ operand ∈ i.operands, operand.map f = operand.map g := fun operand ho =>
    Operand.map_congr fun l hl => h l (List.mem_filterMap.mpr ⟨operand, ho, hl⟩)
  cases i with
  | basic op a b => rw [map, map, key a (by simp [operands]), key b (by simp [operands])]
  | extended number a => rw [map, map, key a (by simp [operands])]

/-- A relabelling that leaves the labels of an instruction alone leaves the instruction alone. -/
theorem map_eq_self {f : L → L} {i : Instruction L} (h : ∀ l ∈ i.labels, f l = l) :
    i.map f = i := by
  rw [map_congr (g := id) h]
  cases i <;> simp [map]

theorem labels_basic (op : BasicOp) (a b : Operand L) :
    (basic op a b).labels = a.label?.toList ++ b.label?.toList := by
  cases ha : a.label? <;> cases hb : b.label? <;> simp [labels, operands, ha, hb]

theorem labels_extended (number : Fin 64) (a : Operand L) :
    (extended number a).labels = a.label?.toList := by
  cases ha : a.label? <;> simp [labels, operands, ha]

/-- The labels of an instruction are those of its cells. -/
theorem labels_eq (i : Instruction L) : i.labels = i.cells.filterMap Cell.label? := by
  simp only [labels, cells, List.filterMap_cons, List.filterMap_filterMap]
  rfl

end Instruction

/-! ## Items -/

namespace Item

def map (f : L → M) : Item L → Item M
  | .word w => .word w
  | .text s => .text s
  | .address l => .address (f l)

@[simp] theorem cells_map (f : L → M) (item : Item L) :
    (item.map f).cells = item.cells.map (Cell.map f) := by
  cases item <;> simp [map, cells, Cell.map]

@[simp] theorem label?_map (f : L → M) (item : Item L) :
    (item.map f).label? = item.label?.map f := by
  cases item <;> rfl

@[simp] theorem map_id (item : Item L) : item.map id = item := by
  cases item <;> rfl

/-- The label of an item is that of its cells. -/
theorem label?_toList (item : Item L) : item.label?.toList = item.cells.filterMap Cell.label? := by
  cases item <;> simp [label?, cells, List.filterMap_map]

end Item

/-! ## Statements -/

namespace Statement

def map (f : L → M) : Statement L → Statement M
  | .instruction i => .instruction (i.map f)
  | .data items => .data (items.map (Item.map f))

@[simp] theorem cells_map (f : L → M) (statement : Statement L) :
    (statement.map f).cells = statement.cells.map (Cell.map f) := by
  cases statement with
  | instruction i => exact i.cells_map f
  | data items => simp [map, cells, List.flatMap_map, List.map_flatMap]

@[simp] theorem labels_map (f : L → M) (statement : Statement L) :
    (statement.map f).labels = statement.labels.map f := by
  cases statement with
  | instruction i => exact i.labels_map f
  | data items =>
      rw [map, labels, labels, List.filterMap_map, List.map_filterMap]
      exact congrArg (items.filterMap ·) (funext fun item ↦ item.label?_map f)

@[simp] theorem map_id (statement : Statement L) : statement.map id = statement := by
  cases statement with
  | instruction i => exact congrArg _ (Instruction.map_eq_self fun _ _ ↦ rfl)
  | data items =>
      have hitems : items.map (Item.map id) = items.map id :=
        List.map_congr_left fun item _ ↦ item.map_id
      rw [map, hitems, List.map_id]

/-- The labels of a statement are those of its cells. -/
theorem labels_eq (statement : Statement L) :
    statement.labels = statement.cells.filterMap Cell.label? := by
  cases statement with
  | instruction i => exact i.labels_eq
  | data items =>
      simp only [labels, cells]
      induction items with
      | nil => rfl
      | cons item items ih =>
          rw [List.flatMap_cons, List.filterMap_append, ← ih, ← item.label?_toList]
          cases h : item.label? <;> simp [h]

end Statement

/-! ## Lines -/

namespace Line

/-- Replaces the labels of a line.  A fault stays as it is. -/
def map (f : String → String) (line : Line) : Line where
  marks := line.marks.map f
  body := line.body.map (Option.map (Statement.map f))

@[simp] theorem map_id (line : Line) : line.map id = line := by
  obtain ⟨marks, body⟩ := line
  rcases body with fault | _ | statement
  · simp [map, Except.map]
  · simp [map, Except.map]
  · simp [map, Except.map]

end Line

end Dcpu16
