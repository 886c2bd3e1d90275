import Dcpu16.Builder
import Dcpu16.Proofs.Relabel
import Mathlib.Data.List.Nodup
import Mathlib.Logic.Function.Basic

/-!
# Sketches of images

A sketch says what a builder was asked to write, and nothing about how it keeps it: the labels in
the order of their definition, the cells in the order of writing, and the address of each label that
is marked.  `Sketch.builder` is the builder that a sketch stands for.  It has no freedom left but
its identity and its journal, so that each operation is described by an equation between the
builders of two sketches: `Sketch.define_builder`, `Sketch.mark_builder`, `Sketch.emit_builder`,
`Sketch.emitCells_builder`.

The type `L` of the labels is a parameter.  In a session the labels of a sketch are handles; while a
text is assembled they are names, and `Sketch.handle` is what the builder calls them.
-/

namespace Dcpu16

/-- What a builder was asked to write. -/
structure Sketch (L : Type) where
  /-- The labels in the order of their definition. -/
  labels : List L := []
  /-- The cells in the order of writing. -/
  cells : List (Cell L) := []
  /-- The address of a label, once it is marked. -/
  address? : L → Option Nat := fun _ ↦ none
  /-- Whether the addresses have been added to the cells. -/
  finished : Bool := false

namespace Sketch

variable {L : Type}

/-! ## Labels and cells -/

def word? (s : Sketch L) (l : L) : Option UInt16 := (s.address? l).map Nat.toUInt16

def words (s : Sketch L) : List UInt16 :=
  if s.finished then s.cells.map (Cell.value s.word?) else s.cells.map Cell.base

def define (s : Sketch L) (l : L) : Sketch L := { s with labels := s.labels ++ [l] }

def mark [DecidableEq L] (s : Sketch L) (l : L) : Sketch L :=
  { s with address? := Function.update s.address? l (some s.cells.length) }

def write (s : Sketch L) (cells : List (Cell L)) : Sketch L :=
  { s with cells := s.cells ++ cells }

/-- What holds of every sketch that comes about by defining labels, marking them and writing
cells. -/
structure Valid (s : Sketch L) : Prop where
  /-- No label is defined twice. -/
  nodup : s.labels.Nodup
  /-- Cells depend on labels that are defined. -/
  mentioned {cell : Cell L} {l : L} : cell ∈ s.cells → cell.label? = some l → l ∈ s.labels
  /-- Labels that are marked are defined. -/
  marked {l : L} {address : Nat} : s.address? l = some address → l ∈ s.labels
  /-- Addresses fit in a word. -/
  fits {l : L} {address : Nat} : s.address? l = some address → address ≤ 0xFFFF

@[simp] theorem length_words (s : Sketch L) : s.words.length = s.cells.length := by
  unfold words
  split <;> simp

/-- Before a builder is finished, its words are the constant parts of the cells. -/
theorem words_of_unfinished {s : Sketch L} (h : s.finished = false) :
    s.words = s.cells.map Cell.base := by
  simp [words, h]

@[simp] theorem write_nil (s : Sketch L) : s.write [] = s := by
  simp [write]

@[simp] theorem write_write (s : Sketch L) (cells cells' : List (Cell L)) :
    (s.write cells).write cells' = s.write (cells ++ cells') := by
  simp [write]

theorem Valid.empty : ({} : Sketch L).Valid where
  nodup := List.nodup_nil
  mentioned h := absurd h List.not_mem_nil
  marked h := nomatch h
  fits h := nomatch h

theorem Valid.define {s : Sketch L} (hs : s.Valid) {l : L} (hl : l ∉ s.labels) :
    (s.define l).Valid where
  nodup := by
    change (s.labels ++ [l]).Nodup
    rw [← List.concat_eq_append]
    exact List.Nodup.concat hl hs.nodup
  mentioned hc hcl := List.mem_append_left _ (hs.mentioned hc hcl)
  marked ha := List.mem_append_left _ (hs.marked ha)
  fits := hs.fits

/-- A label may be marked where the position is an address. -/
theorem Valid.mark [DecidableEq L] {s : Sketch L} (hs : s.Valid) {l : L} (hl : l ∈ s.labels)
    (h : s.cells.length ≤ 0xFFFF) : (s.mark l).Valid where
  nodup := hs.nodup
  mentioned := hs.mentioned
  marked := by
    intro l' address ha
    by_cases hll : l' = l
    · exact hll ▸ hl
    · exact hs.marked ((Function.update_of_ne hll _ _).symm.trans ha)
  fits := by
    intro l' address ha
    by_cases hll : l' = l
    · subst hll
      have := (Function.update_self l' _ _).symm.trans ha
      exact Option.some.inj this ▸ h
    · exact hs.fits ((Function.update_of_ne hll _ _).symm.trans ha)

/-- Cells may be written if their labels are defined. -/
theorem Valid.write {s : Sketch L} (hs : s.Valid) {cells : List (Cell L)}
    (h : ∀ cell ∈ cells, ∀ l, cell.label? = some l → l ∈ s.labels) : (s.write cells).Valid where
  nodup := hs.nodup
  mentioned := by
    intro cell l hc hcl
    rcases List.mem_append.mp hc with hc | hc
    · exact hs.mentioned hc hcl
    · exact h cell hc l hcl
  marked := hs.marked
  fits := hs.fits

/-- What is not defined has no address. -/
theorem Valid.word?_eq_none {s : Sketch L} (hs : s.Valid) {l : L} (hl : l ∉ s.labels) :
    s.word? l = none := by
  unfold word?
  rw [Option.map_eq_none_iff, Option.eq_none_iff_forall_not_mem]
  exact fun address ha ↦ hl (hs.marked ha)

variable [DecidableEq L]

/-! ## The builder of a sketch -/

/-- The addresses of the cells that depend on a label. -/
def sites (s : Sketch L) (l : L) : List Nat :=
  (s.cells.zipIdx.filter fun c ↦ c.1.label? = some l).map Prod.snd

/-- What the builder knows about a label. -/
def slot (s : Sketch L) (l : L) : Slot := ⟨s.word? l, (s.sites l).toArray⟩

def builder (s : Sketch L) (id : UInt32) (journal : Array Event) : Builder where
  id := id
  words := s.words.toArray
  slots := (s.labels.map s.slot).toArray
  finished := s.finished
  journal := journal

/-- What the builder calls a label. -/
def handle (s : Sketch L) (id : UInt32) (l : L) : Label := ⟨id, s.labels.idxOf l⟩

@[simp] theorem finished_builder (s : Sketch L) (id : UInt32) (journal : Array Event) :
    (s.builder id journal).finished = s.finished := rfl

@[simp] theorem toList_words_builder (s : Sketch L) (id : UInt32) (journal : Array Event) :
    (s.builder id journal).words.toList = s.words := rfl

@[simp] theorem size_words_builder (s : Sketch L) (id : UInt32) (journal : Array Event) :
    (s.builder id journal).words.size = s.cells.length := by
  simp [builder]

/-- The sites of a label are where the cells that depend on it stand. -/
theorem mem_sites {s : Sketch L} {l : L} {i : Nat} :
    i ∈ s.sites l ↔ ∃ cell, s.cells[i]? = some cell ∧ cell.label? = some l := by
  simp only [sites, List.mem_map, List.mem_filter, decide_eq_true_eq, Prod.exists,
    List.mk_mem_zipIdx_iff_getElem?]
  constructor
  · rintro ⟨cell, _, ⟨hc, hl⟩, rfl⟩
    exact ⟨cell, hc, hl⟩
  · rintro ⟨cell, hc, hl⟩
    exact ⟨cell, i, ⟨hc, hl⟩, rfl⟩

/-- No site is kept twice. -/
theorem nodup_sites (s : Sketch L) (l : L) : (s.sites l).Nodup := by
  unfold sites
  refine List.Nodup.sublist (List.filter_sublist.map Prod.snd) ?_
  rw [List.zipIdx_map_snd]
  exact List.nodup_range'

/-- There are as many sites as cells that depend on the label. -/
theorem length_sites (s : Sketch L) (l : L) :
    (s.sites l).length = s.cells.countP fun cell ↦ cell.label? = some l := by
  unfold sites
  rw [List.length_map, ← List.countP_eq_length_filter]
  conv_rhs => rw [← List.zipIdx_map_fst 0 s.cells, List.countP_map]
  rfl

/-- A label that is not defined has left no trace. -/
theorem Valid.slot_eq {s : Sketch L} (hs : s.Valid) {l : L} (hl : l ∉ s.labels) :
    s.slot l = {} := by
  have hsites : s.sites l = [] := by
    rw [List.eq_nil_iff_forall_not_mem]
    intro i hi
    obtain ⟨cell, hc, hcl⟩ := mem_sites.mp hi
    exact hl (hs.mentioned (List.mem_of_getElem? hc) hcl)
  rw [slot, hs.word?_eq_none hl, hsites]

/-! ## Looking labels up -/

/-- The handle of a label stays what it is when labels are added. -/
theorem handle_of_prefix {s s' : Sketch L} (h : s.labels <+: s'.labels) {l : L} (hl : l ∈ s.labels)
    (id : UInt32) : s'.handle id l = s.handle id l := by
  obtain ⟨added, h⟩ := h
  rw [handle, handle, ← h, List.idxOf_append, if_pos hl]

/-- The builder of a sketch keeps the slot of a label at its handle. -/
theorem slot?_builder {s : Sketch L} {l : L} (hl : l ∈ s.labels) (id : UInt32)
    (journal : Array Event) :
    (s.builder id journal).slot? (s.handle id l) = some (s.slot l) := by
  have hlt := List.idxOf_lt_length_of_mem hl
  simp only [Builder.slot?, handle, builder, ↓reduceIte, List.getElem?_toArray, List.getElem?_map,
    List.getElem?_eq_getElem hlt, Option.map_some]
  rw [List.getElem_idxOf]

theorem owns_builder {s : Sketch L} {l : L} (hl : l ∈ s.labels) (id : UInt32)
    (journal : Array Event) : (s.builder id journal).owns (s.handle id l) := by
  rw [Builder.owns, slot?_builder hl]
  rfl

/-- Asked for the address of a label, the builder says what the sketch does. -/
theorem address?_builder {s : Sketch L} {l : L} (hl : l ∈ s.labels) (id : UInt32)
    (journal : Array Event) :
    (s.builder id journal).address? (s.handle id l) = .ok (s.word? l) := by
  rw [Builder.address?, slot?_builder hl]
  rfl

/-- The references of a label are the cells that depend on it. -/
theorem referenceCount_builder {s : Sketch L} {l : L} (hl : l ∈ s.labels) (id : UInt32)
    (journal : Array Event) :
    (s.builder id journal).referenceCount (s.handle id l) =
      .ok (s.cells.countP fun cell ↦ cell.label? = some l) := by
  rw [Builder.referenceCount, slot?_builder hl, ← length_sites]
  rfl

/-! ## Defining and marking labels -/

/-- Changing the entry of one label in a table changes no other, as no label is there twice. -/
theorem modify_map_idxOf {α : Type} {labels : List L} (h : labels.Nodup) (l : L) (g : L → α)
    (f : α → α) :
    (labels.map g).toArray.modify (labels.idxOf l) f =
      (labels.map fun x ↦ if x = l then f (g x) else g x).toArray := by
  rw [List.modify_toArray]
  congr 1
  refine List.ext_getElem? fun i ↦ ?_
  rw [List.getElem?_modify, List.getElem?_map, List.getElem?_map, Option.map_eq_map, Option.map_map]
  refine Option.map_congr fun x hx ↦ ?_
  obtain ⟨hi, rfl⟩ := List.getElem?_eq_some_iff.mp hx
  have hidx : labels.idxOf l = i ↔ labels[i] = l := by
    constructor
    · rintro rfl
      exact List.getElem_idxOf hi
    · rintro rfl
      exact h.idxOf_getElem i hi
  simp only [Function.comp_apply, hidx]

/-- A builder that is not finished defines a label behind the others. -/
theorem define_builder {s : Sketch L} (hs : s.Valid) (hf : s.finished = false) {l : L}
    (hl : l ∉ s.labels) (id : UInt32) (journal : Array Event) :
    (s.builder id journal).define =
      (.ok ((s.define l).handle id l), (s.define l).builder id journal) := by
  have hidx : (s.labels ++ [l]).idxOf l = s.labels.length := by
    rw [List.idxOf_append, if_neg hl, List.idxOf_cons_self, Nat.zero_add]
  have hslots : (s.define l).slot = s.slot := rfl
  have hwords : (s.define l).words = s.words := rfl
  simp only [Builder.define, finished_builder, hf, Bool.false_eq_true, ↓reduceIte, handle,
    Prod.mk.injEq, Except.ok.injEq, Label.mk.injEq]
  refine ⟨⟨rfl, ?_⟩, ?_⟩
  · simp [builder, define, hidx]
  · rw [builder, builder, hslots, hwords]
    simp [define, hs.slot_eq hl, hf]

/-- A label without an address is marked where the image ends, if that is an address. -/
theorem mark_builder {s : Sketch L} (hs : s.Valid) (hf : s.finished = false) {l : L}
    (hl : l ∈ s.labels) (ha : s.address? l = none) (hsize : s.cells.length ≤ 0xFFFF) (id : UInt32)
    (journal : Array Event) :
    (s.builder id journal).mark (s.handle id l) = (.ok (), (s.mark l).builder id journal) := by
  have hw : s.word? l = none := by rw [word?, ha]; rfl
  have hslot : (s.mark l).slot = fun x ↦
      if x = l then { s.slot x with address? := some s.cells.length.toUInt16 } else s.slot x := by
    funext x
    by_cases hx : x = l
    · subst hx
      simp [slot, word?, mark, sites]
    · simp [slot, word?, mark, sites, hx]
  have hwords : (s.mark l).words = s.words := by
    rw [words_of_unfinished hf, words_of_unfinished (by exact hf)]
    rfl
  rw [Builder.mark, finished_builder, hf, slot?_builder hl]
  simp only [Bool.false_eq_true, ↓reduceIte, slot, hw, Option.isSome_none, size_words_builder,
    if_neg (Nat.not_lt.mpr hsize)]
  congr 1
  rw [Builder.modifySlot, builder, builder, hslot, hwords]
  simp only [handle]
  rw [modify_map_idxOf hs.nodup]
  rfl

/-- A label is not marked twice. -/
theorem mark_builder_of_marked {s : Sketch L} (hf : s.finished = false) {l : L}
    (hl : l ∈ s.labels) {address : Nat} (ha : s.address? l = some address) (id : UInt32)
    (journal : Array Event) :
    (s.builder id journal).mark (s.handle id l) =
      (.error .alreadyMarked, s.builder id journal) := by
  rw [Builder.mark, finished_builder, hf, slot?_builder hl]
  simp [slot, word?, ha]

/-- Behind the last address nothing can be marked. -/
theorem mark_builder_of_overflow {s : Sketch L} (hf : s.finished = false) {l : L}
    (hl : l ∈ s.labels) (ha : s.address? l = none) (hsize : 0xFFFF < s.cells.length) (id : UInt32)
    (journal : Array Event) :
    (s.builder id journal).mark (s.handle id l) =
      (.error (.addressOverflow s.cells.length), s.builder id journal) := by
  rw [Builder.mark, finished_builder, hf, slot?_builder hl]
  simp [slot, word?, ha, hsize]

/-! ## Writing cells -/

theorem sites_write (s : Sketch L) (cell : Cell L) (l : L) :
    (s.write [cell]).sites l =
      s.sites l ++ if cell.label? = some l then [s.cells.length] else [] := by
  simp only [sites, write, List.zipIdx_append, List.filter_append, List.map_append]
  congr 1
  split <;> simp_all

theorem write_builder {s : Sketch L} (hs : s.Valid) (hf : s.finished = false) (cell : Cell L)
    (id : UInt32) (journal : Array Event) :
    (s.builder id journal).write (cell.map (s.handle id)) =
      (s.write [cell]).builder id journal := by
  have hwords : (s.write [cell]).words = s.words ++ [cell.base] := by
    rw [words_of_unfinished hf, words_of_unfinished (by exact hf)]
    simp [write]
  cases hc : cell.label? with
  | none =>
      have hslot : (s.write [cell]).slot = s.slot := by
        funext x
        rw [slot, sites_write, hc]
        simp [slot, word?, write]
      rw [builder, builder, hslot, hwords]
      simp [Builder.write, hc, write]
  | some l =>
      have hslot : (s.write [cell]).slot = fun x ↦
          if x = l then { s.slot x with sites := (s.slot x).sites.push s.cells.length }
          else s.slot x := by
        funext x
        rw [slot, sites_write, hc]
        by_cases hx : x = l
        · subst hx
          simp [slot, word?, write]
        · simp [slot, word?, write, hx, Ne.symm hx]
      rw [builder, builder, hslot, hwords]
      simp only [Builder.write, Cell.label?_map, hc, Option.map_some, Builder.modifySlot, handle]
      rw [modify_map_idxOf hs.nodup]
      simp [write]

/-- Writing cells one after the other is writing them in the sketch at once. -/
theorem foldl_write_builder {s : Sketch L} (hs : s.Valid) (hf : s.finished = false)
    (cells : List (Cell L)) (h : ∀ cell ∈ cells, ∀ l, cell.label? = some l → l ∈ s.labels)
    (id : UInt32) (journal : Array Event) :
    (cells.map (Cell.map (s.handle id))).foldl Builder.write (s.builder id journal) =
      (s.write cells).builder id journal := by
  induction cells generalizing s with
  | nil => simp [write]
  | cons cell cells ih =>
      have hv : (s.write [cell]).Valid := hs.write fun c hc ↦
        h c (List.mem_singleton.mp hc ▸ List.mem_cons_self)
      rw [List.map_cons, List.foldl_cons, write_builder hs hf]
      have := ih hv hf fun c hc ↦ h c (List.mem_cons_of_mem _ hc)
      rwa [write_write, List.singleton_append] at this

/-- An instruction with labels of the sketch is accepted, told of in the journal and written. -/
theorem emit_builder {s : Sketch L} (hs : s.Valid) (hf : s.finished = false) {i : Instruction L}
    (h : ∀ l ∈ i.labels, l ∈ s.labels) (id : UInt32) (journal : Array Event) :
    (s.builder id journal).emit (i.map (s.handle id)) =
      (.ok (), (s.write i.cells).builder id
        (journal.push (.instruction s.cells.length i.opCode i.word))) := by
  have howns : (i.map (s.handle id)).labels.all (s.builder id journal).owns := by
    rw [Instruction.labels_map, List.all_map, List.all_eq_true]
    exact fun l hl ↦ owns_builder (h l hl) id journal
  have hcells : ∀ cell ∈ i.cells, ∀ l, cell.label? = some l → l ∈ s.labels := fun cell hc l hl ↦
    h l (i.labels_eq ▸ List.mem_filterMap.mpr ⟨cell, hc, hl⟩)
  rw [Builder.emit, finished_builder, hf, if_neg Bool.false_ne_true, if_pos howns,
    Instruction.cells_map, size_words_builder, Instruction.opCode_map, Instruction.word_map]
  exact congrArg (Prod.mk _) (foldl_write_builder hs hf i.cells hcells id _)

theorem emitCell_builder {s : Sketch L} (hs : s.Valid) (hf : s.finished = false) {cell : Cell L}
    (h : ∀ l, cell.label? = some l → l ∈ s.labels) (id : UInt32) (journal : Array Event) :
    (s.builder id journal).emitCell (cell.map (s.handle id)) =
      (.ok (), (s.write [cell]).builder id journal) := by
  have howns : (cell.map (s.handle id)).label?.all (s.builder id journal).owns := by
    rw [Cell.label?_map, Option.all_map, Option.all_eq_true]
    exact fun l hl ↦ owns_builder (h l hl) id journal
  rw [Builder.emitCell, finished_builder, hf, if_neg Bool.false_ne_true, if_pos howns,
    write_builder hs hf]

/-- Data with labels of the sketch is accepted and written. -/
theorem emitCells_builder {s : Sketch L} (hs : s.Valid) (hf : s.finished = false)
    {cells : List (Cell L)} (h : ∀ cell ∈ cells, ∀ l, cell.label? = some l → l ∈ s.labels)
    (id : UInt32) (journal : Array Event) :
    (s.builder id journal).emitCells (cells.map (Cell.map (s.handle id))) =
      (.ok (), (s.write cells).builder id journal) := by
  induction cells generalizing s with
  | nil => simp [Builder.emitCells]
  | cons cell cells ih =>
      have hc := h cell List.mem_cons_self
      have hv : (s.write [cell]).Valid := hs.write fun c hm ↦ List.mem_singleton.mp hm ▸ hc
      rw [List.map_cons, Builder.emitCells, emitCell_builder hs hf hc]
      have := ih hv hf fun c hm ↦ h c (List.mem_cons_of_mem _ hm)
      rwa [write_write, List.singleton_append] at this

end Sketch

end Dcpu16
