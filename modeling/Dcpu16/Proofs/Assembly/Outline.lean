import Dcpu16.Assembly.Report
import Dcpu16.Proofs.Builder.Patching

/-!
# Outlines of assemblies

An outline is a sketch whose labels are the names that were met, with the line that marks each of
them.  As for builders, `Outline.assembly` is the assembly that an outline stands for, and each
action of a line on an assembly is an action on outlines: `Outline.meet` for a name that is met,
`Outline.mark` for a label in front of a statement, `Outline.emit` for a statement.  Main statement:
`Outline.run_addLine`, by which a line does to the assembly of an outline what `Outline.addLine`
says.

No error of a builder but `addressOverflow` can come up, because the handles that an assembly uses
are those of its own builder.
-/

namespace Dcpu16

/-! ## Actions of a line -/

namespace LineM

variable {α β : Type} {x : LineM α} {a a' : Assembly}

/-- An action that succeeds hands its value and its assembly to the next. -/
theorem run_bind_ok {v : α} (h : x.run.run a = (.ok v, a')) (f : α → LineM β) :
    (x >>= f).run.run a = (f v).run.run a' := by
  rw [ExceptT.run_bind, StateT.run_bind, h]
  rfl

/-- An action that fails is the end of the line, whatever stands behind it. -/
theorem run_bind_error {e : LineError} (h : x.run.run a = (.error e, a')) (f : α → LineM β) :
    (x >>= f).run.run a = (.error e, a') := by
  rw [ExceptT.run_bind, StateT.run_bind, h]
  rfl

variable {f : Builder → Except BuildError α × Builder} {b : Builder}

/-- What a builder does for a line leaves the symbols alone. -/
theorem run_build_ok {v : α} (h : f a.builder = (.ok v, b)) :
    (Assembly.build f).run.run a = (.ok v, ⟨b, a.symbols⟩) := by
  change ((f a.builder).1.mapError _, Assembly.mk (f a.builder).2 a.symbols) = _
  rw [h]
  rfl

/-- A request that the builder refuses ends the line with the error of the builder. -/
theorem run_build_error {e : BuildError} (h : f a.builder = (.error e, b)) :
    (Assembly.build f).run.run a = (.error (.build e), ⟨b, a.symbols⟩) := by
  change ((f a.builder).1.mapError _, Assembly.mk (f a.builder).2 a.symbols) = _
  rw [h]
  rfl

end LineM

/-- An assembly without the ways of keeping it: a sketch whose labels are names, and the line that
marks each of them. -/
structure Outline extends Sketch String where
  /-- The index of the line that marks a label. -/
  line? : String → Option Nat := fun _ ↦ none
  /-- What has happened. -/
  journal : Array Event := #[]

namespace Outline

/-! ## The assembly of an outline -/

/-- What the assembly knows about a name. -/
def symbol (o : Outline) (name : String) : Symbol := ⟨name, o.handle 0 name, o.line? name⟩

def assembly (o : Outline) : Assembly where
  builder := o.builder 0 o.journal
  symbols := (o.labels.map o.symbol).toArray

/-- What holds of every outline that comes about by reading lines. -/
structure Valid (o : Outline) : Prop extends o.toSketch.Valid where
  unfinished : o.finished = false
  /-- A label has a line if and only if it has an address. -/
  line (name : String) : (o.line? name).isSome = (o.address? name).isSome

theorem Valid.empty : ({} : Outline).Valid where
  toValid := .empty
  unfinished := rfl
  line _ := rfl

theorem Valid.line?_eq_none {o : Outline} (ho : o.Valid) {name : String} (h : name ∉ o.labels) :
    o.line? name = none := by
  rw [← Option.isNone_iff_eq_none, ← Option.not_isSome, ho.line, Option.not_isSome,
    Option.isNone_iff_eq_none, Option.eq_none_iff_forall_not_mem]
  exact fun address ha ↦ h (ho.marked ha)

@[simp] theorem size_words_assembly (o : Outline) :
    o.assembly.builder.words.size = o.cells.length := o.size_words_builder 0 o.journal

theorem names_assembly (o : Outline) : o.assembly.symbols.toList.map Symbol.name = o.labels := by
  simp [assembly, symbol, Function.comp_def]

theorem getElem?_symbols_assembly (o : Outline) (i : Nat) :
    o.assembly.symbols[i]? = o.labels[i]?.map o.symbol := by
  simp [assembly]

theorem getElem?_slots_assembly (o : Outline) (i : Nat) :
    o.assembly.builder.slots[i]? = o.labels[i]?.map o.slot := by
  simp [assembly, Sketch.builder]

/-- The search for a symbol finds exactly the names that were met. -/
theorem find?_assembly (o : Outline) (name : String) :
    o.assembly.find? name = if name ∈ o.labels then some (o.symbol name) else none := by
  have hfind : o.labels.find? (fun x ↦ x == name) =
      if name ∈ o.labels then some name else none := by
    induction o.labels with
    | nil => simp
    | cons x xs ih =>
        rw [List.find?_cons]
        by_cases hx : x = name
        · subst hx
          simp
        · have hxn : (x == name) = false := beq_eq_false_iff_ne.mpr hx
          simp [hxn, ih, Ne.symm hx]
  simp only [Assembly.find?, assembly, List.find?_toArray, List.find?_map, Function.comp_def,
    symbol, hfind]
  split <;> rfl

/-! ## Names -/

/-- Adds a name behind others unless it is among them. -/
def addName (names : List String) (name : String) : List String :=
  if name ∈ names then names else names ++ [name]

/-- The outline after names were met one after the other. -/
def meetAll (o : Outline) (names : List String) : Outline :=
  { o with labels := names.foldl addName o.labels }

def meet (o : Outline) (name : String) : Outline := o.meetAll [name]

theorem meetAll_meetAll (o : Outline) (names names' : List String) :
    (o.meetAll names).meetAll names' = o.meetAll (names ++ names') := by
  simp [meetAll]

theorem meet_of_mem {o : Outline} {name : String} (h : name ∈ o.labels) : o.meet name = o := by
  simp [meet, meetAll, addName, h]

/-- Meeting a new name defines a label for it. -/
theorem meet_of_notMem {o : Outline} {name : String} (h : name ∉ o.labels) :
    o.meet name = { o with toSketch := o.define name } := by
  simp [meet, meetAll, addName, h, Sketch.define]

theorem mem_addName {names : List String} {name x : String} :
    x ∈ addName names name ↔ x ∈ names ∨ x = name := by
  unfold addName
  split
  · next h => exact ⟨Or.inl, fun hx ↦ hx.elim id fun hx ↦ hx ▸ h⟩
  · simp

theorem mem_labels_meetAll {o : Outline} {names : List String} {x : String} :
    x ∈ (o.meetAll names).labels ↔ x ∈ o.labels ∨ x ∈ names := by
  simp only [meetAll]
  induction names generalizing o with
  | nil => simp
  | cons name names ih =>
      have h := ih (o := { o with labels := addName o.labels name })
      rw [List.foldl_cons, h, mem_addName, List.mem_cons, or_assoc]

/-- Labels are only added at the end. -/
theorem labels_prefix_meetAll (o : Outline) (names : List String) :
    o.labels <+: (o.meetAll names).labels := by
  induction names generalizing o with
  | nil => exact List.prefix_refl _
  | cons name names ih =>
      have hadd : o.labels <+: addName o.labels name := by
        unfold addName
        split
        · exact List.prefix_refl _
        · exact List.prefix_append _ _
      exact hadd.trans (ih { o with labels := addName o.labels name })

/-- The handle of a name stays the same when further names are met. -/
theorem handle_meetAll {o : Outline} (names : List String) {name : String}
    (hn : name ∈ o.labels) : (o.meetAll names).handle 0 name = o.handle 0 name :=
  Sketch.handle_of_prefix (labels_prefix_meetAll o names) hn 0

theorem Valid.meet {o : Outline} (ho : o.Valid) (name : String) : (o.meet name).Valid := by
  by_cases h : name ∈ o.labels
  · rwa [meet_of_mem h]
  · rw [meet_of_notMem h]
    exact ⟨ho.toValid.define h, ho.unfinished, ho.line⟩

theorem Valid.meetAll {o : Outline} (ho : o.Valid) (names : List String) :
    (o.meetAll names).Valid := by
  induction names generalizing o with
  | nil => exact ho
  | cons name names ih => exact ih (ho.meet name)

/-- The action `Assembly.intern` meets a name and returns its handle. -/
theorem run_intern {o : Outline} (ho : o.Valid) (name : String) :
    (Assembly.intern name).run.run o.assembly =
      (.ok ((o.meet name).handle 0 name), (o.meet name).assembly) := by
  change Assembly.intern name o.assembly = _
  by_cases h : name ∈ o.labels
  · rw [meet_of_mem h, Assembly.intern, find?_assembly, if_pos h]
    rfl
  · have hdefine := Sketch.define_builder ho.toValid ho.unfinished h 0 o.journal
    have hsymbols : ((o.labels ++ [name]).map (o.meet name).symbol) =
        o.labels.map o.symbol ++ [⟨name, (o.meet name).handle 0 name, none⟩] := by
      rw [List.map_append, List.map_singleton]
      congr 1
      · refine List.map_congr_left fun x hx ↦ ?_
        rw [symbol, symbol, meet, handle_meetAll [name] hx]
        rfl
      · rw [symbol, meet_of_notMem h]
        simp only [ho.line?_eq_none h]
    rw [Assembly.intern, find?_assembly, if_neg h]
    simp only [assembly, hdefine]
    rw [meet_of_notMem h] at hsymbols ⊢
    simp only [Sketch.define] at hsymbols ⊢
    rw [hsymbols]
    simp

theorem run_meet {o : Outline} (ho : o.Valid) (names : List String) :
    (Assembly.meet names).run.run o.assembly = (.ok (), (o.meetAll names).assembly) := by
  induction names generalizing o with
  | nil => rfl
  | cons name names ih =>
      have hintern : (do let _ ← Assembly.intern name : LineM PUnit).run.run o.assembly =
          (.ok (), (o.meet name).assembly) := by
        rw [LineM.run_bind_ok (run_intern ho name)]
        rfl
      exact (LineM.run_bind_ok hintern fun _ ↦ Assembly.meet names).trans (ih (ho.meet name))

/-! ## Marks -/

/-- The outline after a name was given the next address, on a line. -/
def setMark (o : Outline) (line : Nat) (name : String) : Outline :=
  { o with
    toSketch := o.toSketch.mark name
    line? := Function.update o.line? name (some line) }

def mark (o : Outline) (line : Nat) (name : String) : Except LineError Unit × Outline :=
  if (o.address? name).isSome then (.error (.labelAlreadyMarked name), o.meet name)
  else if 0xFFFF < o.cells.length then
    (.error (.build (.addressOverflow o.cells.length)), o.meet name)
  else (.ok (), (o.meet name).setMark line name)

/-- Marks names one after the other up to the first that is refused. -/
def markAll (o : Outline) (line : Nat) : List String → Except LineError Unit × Outline
  | [] => (.ok (), o)
  | name :: names =>
    match o.mark line name with
    | (.ok _, o) => o.markAll line names
    | (.error e, o) => (.error e, o)

theorem mem_labels_meet_self (o : Outline) (name : String) : name ∈ (o.meet name).labels :=
  mem_labels_meetAll.mpr (.inr (List.mem_singleton_self name))

theorem Valid.setMark {o : Outline} (ho : o.Valid) {name : String} (hn : name ∈ o.labels)
    (h : o.cells.length ≤ 0xFFFF) (line : Nat) : (o.setMark line name).Valid where
  toValid := ho.toValid.mark hn h
  unfinished := ho.unfinished
  line := by
    intro x
    by_cases hx : x = name
    · subst hx
      simp [Outline.setMark, Sketch.mark]
    · simpa [Outline.setMark, Sketch.mark, hx] using ho.line x

theorem Valid.mark {o : Outline} (ho : o.Valid) (line : Nat) (name : String) :
    (o.mark line name).2.Valid := by
  unfold Outline.mark
  split
  · exact ho.meet name
  · split
    · exact ho.meet name
    · next h =>
      exact (ho.meet name).setMark (mem_labels_meet_self o name) (Nat.le_of_not_gt h) line

theorem Valid.markAll {o : Outline} (ho : o.Valid) (line : Nat) (names : List String) :
    (o.markAll line names).2.Valid := by
  induction names generalizing o with
  | nil => exact ho
  | cons name names ih =>
      have h := ho.mark line name
      rw [Outline.markAll]
      generalize o.mark line name = result at h
      obtain ⟨r, o'⟩ := result
      cases r with
      | ok _ => exact ih h
      | error e => exact h

/-- The line of a mark is noted in the symbol of its name and nowhere else. -/
theorem run_setLine {o : Outline} (ho : o.Valid) (line : Nat) (name : String) :
    (Assembly.setLine (o.handle 0 name) line).run.run
        ⟨(o.toSketch.mark name).builder 0 o.journal, o.assembly.symbols⟩ =
      (.ok (), (o.setMark line name).assembly) := by
  have hsymbols : o.assembly.symbols.modify (o.labels.idxOf name)
      (fun symbol ↦ { symbol with line? := some line }) =
        (o.setMark line name).assembly.symbols := by
    refine (Sketch.modify_map_idxOf ho.nodup name o.symbol _).trans ?_
    refine congrArg List.toArray (List.map_congr_left fun x _ ↦ ?_)
    by_cases hx : x = name
    · subst hx
      simp [symbol, setMark, Sketch.handle, Sketch.mark]
    · simp [symbol, setMark, Sketch.handle, Sketch.mark, hx]
  change (Except.ok (), Assembly.mk _ (o.assembly.symbols.modify (o.labels.idxOf name) _)) = _
  rw [hsymbols]
  rfl

/-- Marking a name in an assembly is marking it in its outline. -/
theorem run_mark {o : Outline} (ho : o.Valid) (line : Nat) (name : String) :
    (Assembly.mark line name).run.run o.assembly =
      ((o.mark line name).1, (o.mark line name).2.assembly) := by
  have hv := ho.meet name
  have hmem := mem_labels_meet_self o name
  have haddress : (Assembly.build fun b ↦ (b.address? ((o.meet name).handle 0 name), b)).run.run
      (o.meet name).assembly = (.ok (o.word? name), (o.meet name).assembly) :=
    LineM.run_build_ok (Prod.ext (Sketch.address?_builder hmem 0 o.journal) rfl)
  have hword : (o.word? name).isSome = (o.address? name).isSome := Option.isSome_map
  rw [Assembly.mark, LineM.run_bind_ok (run_intern ho name), LineM.run_bind_ok haddress, mark]
  cases ha : o.address? name with
  | some address =>
      rw [ha, Option.isSome_some] at hword
      simp only [hword, Option.isSome_some, ↓reduceIte]
      rfl
  | none =>
      rw [ha, Option.isSome_none] at hword
      simp only [hword, Option.isSome_none, Bool.false_eq_true, ↓reduceIte]
      by_cases hsize : 0xFFFF < o.cells.length
      · rw [if_pos hsize]
        exact LineM.run_bind_error (LineM.run_build_error
          (Sketch.mark_builder_of_overflow hv.unfinished hmem ha hsize 0 o.journal)) _
      · rw [if_neg hsize]
        have hmark := Sketch.mark_builder hv.toValid hv.unfinished hmem ha
          (Nat.le_of_not_gt hsize) 0 o.journal
        exact (LineM.run_bind_ok (LineM.run_build_ok hmark) _).trans (run_setLine hv line name)

/-- The labels in front of a statement are marked one after the other, up to the first that is
refused. -/
theorem run_markAll {o : Outline} (ho : o.Valid) (line : Nat) (names : List String) :
    (names.forM (Assembly.mark line)).run.run o.assembly =
      ((o.markAll line names).1, (o.markAll line names).2.assembly) := by
  induction names generalizing o with
  | nil => rfl
  | cons name names ih =>
      have hrun := run_mark ho line name
      have hv := ho.mark line name
      rw [markAll]
      generalize o.mark line name = result at hrun hv
      obtain ⟨r, o'⟩ := result
      cases r with
      | ok _ => exact (LineM.run_bind_ok hrun fun _ ↦ names.forM (Assembly.mark line)).trans (ih hv)
      | error e => exact LineM.run_bind_error hrun fun _ ↦ names.forM (Assembly.mark line)

/-! ## Statements -/

/-- An action that meets names and then has a value which depends on their handles. -/
structure Resolves {α : Type} (x : LineM α) (names : List String) (value : (String → Label) → α) :
    Prop where
  /-- The value depends on no other handles. -/
  congr {f g : String → Label} : (∀ name ∈ names, f name = g name) → value f = value g
  run {o : Outline} : o.Valid → x.run.run o.assembly =
    (.ok (value ((o.meetAll names).handle 0)), (o.meetAll names).assembly)

namespace Resolves

variable {α β : Type}

theorem pure (v : α) : Resolves (Pure.pure v) [] fun _ ↦ v where
  congr _ := rfl
  run _ := rfl

theorem intern (name : String) : Resolves (Assembly.intern name) [name] fun f ↦ f name where
  congr h := h name (List.mem_singleton_self name)
  run ho := run_intern ho name

/-- What comes later may meet more names, which does not change the handles met before. -/
theorem bind {x : LineM α} {k : α → LineM β} {names names' : List String}
    {value : (String → Label) → α} {value' : α → (String → Label) → β}
    (hx : Resolves x names value) (hk : ∀ v, Resolves (k v) names' (value' v)) :
    Resolves (x >>= k) (names ++ names') fun f ↦ value' (value f) f where
  congr := by
    intro f g h
    have hvalue : value f = value g := hx.congr fun n hn ↦ h n (List.mem_append_left _ hn)
    rw [hvalue]
    exact (hk _).congr fun n hn ↦ h n (List.mem_append_right _ hn)
  run := by
    intro o ho
    have hvalue : value ((o.meetAll names).handle 0) =
        value (((o.meetAll names).meetAll names').handle 0) :=
      hx.congr fun n hn ↦ (handle_meetAll names' (mem_labels_meetAll.mpr (.inr hn))).symm
    rw [LineM.run_bind_ok (hx.run ho), (hk _).run (ho.meetAll names), hvalue, meetAll_meetAll]

/-- An action whose value is changed afterwards. -/
theorem map {x : LineM α} {names : List String} {value : (String → Label) → α}
    (hx : Resolves x names value) (g : α → β) :
    Resolves (x >>= fun v ↦ Pure.pure (g v)) names fun f ↦ g (value f) := by
  have h := hx.bind fun v ↦ pure (g v)
  rwa [List.append_nil] at h

theorem cell (cell : Cell String) :
    Resolves (cell.mapM Assembly.intern) cell.label?.toList fun f ↦ cell.map f := by
  obtain ⟨base, label?⟩ := cell
  cases label? with
  | none => exact pure _
  | some l => exact (intern l).map fun label ↦ Cell.mk base (some label)

theorem operand (operand : Operand String) :
    Resolves (operand.mapM Assembly.intern) operand.label?.toList fun f ↦ operand.map f := by
  cases operand with
  | register r => exact pure _
  | indirect r => exact pure _
  | special s => exact pure _
  | indexed r c => exact (cell c).map _
  | absolute c => exact (cell c).map _
  | literal c =>
      rw [Operand.label?_literal]
      exact (cell c).map _

/-- An instruction looks up the labels of its operands, the target first. -/
theorem instruction (i : Instruction String) :
    Resolves (i.mapM Assembly.intern) i.labels fun f ↦ i.map f := by
  cases i with
  | basic op a b =>
      rw [Instruction.labels_basic]
      exact (operand a).bind fun a' ↦ (operand b).map fun b' ↦ Instruction.basic op a' b'
  | extended number a =>
      rw [Instruction.labels_extended]
      exact (operand a).map fun a' ↦ Instruction.extended number a'

theorem item (item : Item String) :
    Resolves (item.mapM Assembly.intern) item.label?.toList fun f ↦ item.map f := by
  cases item with
  | word w => exact pure _
  | text s => exact pure _
  | address l => exact (intern l).map _

theorem items (items : List (Item String)) :
    Resolves (items.mapM (Item.mapM Assembly.intern)) (items.filterMap Item.label?)
      fun f ↦ items.map (Item.map f) := by
  induction items with
  | nil => exact pure _
  | cons i items ih =>
      have hlabels : (i :: items).filterMap Item.label? =
          i.label?.toList ++ items.filterMap Item.label? := by
        cases hi : i.label? <;> simp [hi]
      rw [hlabels, List.mapM_cons]
      exact (item i).bind fun i' ↦ ih.map fun items' ↦ i' :: items'

/-- A statement looks up its labels in the order in which they are written. -/
theorem statement (statement : Statement String) :
    Resolves (statement.mapM Assembly.intern) statement.labels fun f ↦ statement.map f := by
  cases statement with
  | instruction i => exact (instruction i).map _
  | data is => exact (items is).map _

end Resolves

/-- The journal after a statement was written: it tells of instructions only. -/
def journalAfter (o : Outline) : Statement String → Array Event
  | .instruction i => o.journal.push (.instruction o.cells.length i.opCode i.word)
  | .data _ => o.journal

def emit (o : Outline) (statement : Statement String) : Outline :=
  { o.meetAll statement.labels with
    cells := o.cells ++ statement.cells
    journal := o.journalAfter statement }

/-- A cell refers only to names that the statement has met, so the builder accepts every cell. -/
theorem mem_labels_of_mem_cells (o : Outline) (statement : Statement String) :
    ∀ cell ∈ statement.cells, ∀ l, cell.label? = some l → l ∈ (o.meetAll statement.labels).labels :=
  fun cell hc _ hl ↦ mem_labels_meetAll.mpr
    (.inr (statement.labels_eq ▸ List.mem_filterMap.mpr ⟨cell, hc, hl⟩))

theorem Valid.emit {o : Outline} (ho : o.Valid) (statement : Statement String) :
    (o.emit statement).Valid where
  toValid := (ho.meetAll statement.labels).toValid.write (mem_labels_of_mem_cells o statement)
  unfinished := ho.unfinished
  line := ho.line

/-- Emitting a statement meets its labels and then appends its cells, and it never fails. -/
theorem run_emit {o : Outline} (ho : o.Valid) (statement : Statement String) :
    (Assembly.emit statement).run.run o.assembly = (.ok (), (o.emit statement).assembly) := by
  have hv := ho.meetAll statement.labels
  have hcells := mem_labels_of_mem_cells o statement
  rw [Assembly.emit, LineM.run_bind_ok ((Resolves.statement statement).run ho)]
  cases statement with
  | instruction i =>
      have h := Sketch.emit_builder hv.toValid hv.unfinished (i := i)
        (fun _ hl ↦ mem_labels_meetAll.mpr (.inr hl)) 0 o.journal
      exact LineM.run_build_ok h
  | data items =>
      have h := Sketch.emitCells_builder hv.toValid hv.unfinished hcells 0 o.journal
      rw [← Statement.cells_map] at h
      exact LineM.run_build_ok h

/-! ## Lines -/

/-- What a line does to an outline behind its marks. -/
def addBody (o : Outline) :
    Except Fault (Option (Statement String)) → Except LineError Unit × Outline
  | .ok none => (.ok (), o)
  | .ok (some statement) => (.ok (), o.emit statement)
  | .error fault => (.error (.parse fault.cause), o.meetAll fault.mentioned)

def addLine (o : Outline) (index : Nat) (line : Line) : Except LineError Unit × Outline :=
  match o.markAll index line.marks with
  | (.ok _, o) => o.addBody line.body
  | (.error e, o) => (.error e, o)

theorem Valid.addBody {o : Outline} (ho : o.Valid)
    (body : Except Fault (Option (Statement String))) : (o.addBody body).2.Valid := by
  rcases body with fault | _ | statement
  · exact ho.meetAll fault.mentioned
  · exact ho
  · exact ho.emit statement

/-- No line takes an outline out of the valid ones, accepted or not. -/
theorem Valid.addLine {o : Outline} (ho : o.Valid) (index : Nat) (line : Line) :
    (o.addLine index line).2.Valid := by
  have h := ho.markAll index line.marks
  rw [Outline.addLine]
  generalize o.markAll index line.marks = result at h
  obtain ⟨r, o'⟩ := result
  cases r with
  | ok _ => exact h.addBody line.body
  | error e => exact h

/-- A line does to the assembly of an outline what it does to the outline. -/
theorem run_addLine {o : Outline} (ho : o.Valid) (index : Nat) (line : Line) :
    (Assembly.addLine index line).run.run o.assembly =
      ((o.addLine index line).1, (o.addLine index line).2.assembly) := by
  have hrun := run_markAll ho index line.marks
  have hv := ho.markAll index line.marks
  rw [addLine]
  generalize o.markAll index line.marks = result at hrun hv
  obtain ⟨r, o'⟩ := result
  cases r with
  | error e => exact LineM.run_bind_error hrun _
  | ok _ =>
      rw [Assembly.addLine, LineM.run_bind_ok hrun]
      rcases line.body with fault | _ | statement
      · exact LineM.run_bind_ok (run_meet hv fault.mentioned) _
      · rfl
      · exact run_emit hv statement

/-! ## Texts -/

/-- The outline after a line was read, where a line that is rejected is told of in the journal. -/
def step (o : Outline) (line : String × Nat) : Outline :=
  match o.addLine line.2 (Line.ofString line.1) with
  | (.ok _, o) => o
  | (.error e, o) => { o with journal := o.journal.push (.rejected line.2 e.message) }

/-- The outline after lines were read one after the other. -/
def ofLines (lines : List String) : Outline := lines.zipIdx.foldl step {}

/-- The outline of a text follows from the outline of the lines before the last one. -/
theorem ofLines_append (lines : List String) (line : String) :
    ofLines (lines ++ [line]) = (ofLines lines).step (line, lines.length) := by
  simp [ofLines, List.zipIdx_append]

theorem Valid.step {o : Outline} (ho : o.Valid) (line : String × Nat) : (o.step line).Valid := by
  have h := ho.addLine line.2 (Line.ofString line.1)
  rw [Outline.step]
  generalize o.addLine line.2 (Line.ofString line.1) = result at h
  obtain ⟨r, o'⟩ := result
  cases r with
  | ok _ => exact h
  | error e => exact ⟨h.toValid, h.unfinished, h.line⟩

/-- Every outline that comes about by reading lines is valid. -/
theorem valid_ofLines (lines : List String) : (ofLines lines).Valid := by
  have hvalid : ({} : Outline).Valid := .empty
  unfold ofLines
  generalize ({} : Outline) = o at hvalid
  induction lines.zipIdx generalizing o with
  | nil => exact hvalid
  | cons line lines ih => exact ih _ (hvalid.step line)

end Outline

end Dcpu16
