import Dcpu16.Builder.Session
import Dcpu16.Proofs.Relabel

/-!
# Builders in the same state

What a builder answers depends on its words, its slots and whether it is finished, and on a label
only in two respects: whether the label is its own, and at which place.  So two builders in the same
state give the same answers to requests whose labels mean the same to both, and are in the same
state afterwards (`Builder.Agrees.answer`).  A label of another builder is refused wherever it
stands in a request, unless the builder refuses the request before it looks at labels
(`Builder.answer_of_foreign`).
-/

namespace Dcpu16

variable {L M : Type}

/-! ## Requests and replies under a relabelling -/

namespace Request

def map (f : L → M) : Request L → Request M
  | .define => .define
  | .mark l => .mark (f l)
  | .address l => .address (f l)
  | .referenceCount l => .referenceCount (f l)
  | .basic op a b => .basic op (a.map f) (b.map f)
  | .extended op a => .extended op (a.map f)
  | .word w count => .word w count
  | .addressWord l => .addressWord (f l)
  | .finish => .finish

def labels : Request L → List L
  | .mark l | .address l | .referenceCount l | .addressWord l => [l]
  | .basic _ a b => a.label?.toList ++ b.label?.toList
  | .extended _ a => a.label?.toList
  | .define | .word _ _ | .finish => []

end Request

def Reply.map (f : L → M) : Reply L → Reply M
  | .done => .done
  | .label l => .label (f l)
  | .address address? => .address address?
  | .count n => .count n

/-- The labels that were defined: one or none. -/
def Reply.defined : Except BuildError (Reply L) → List L
  | .ok (.label l) => [l]
  | _ => []

namespace Reply

variable {reply : Except BuildError (Reply L)}

theorem defined_map (f : L → M) : defined (reply.map (Reply.map f)) = (defined reply).map f := by
  rcases reply with e | (_ | l | _ | _) <;> rfl

/-- An answer defines at most one label. -/
theorem length_defined_le (reply : Except BuildError (Reply L)) : (defined reply).length ≤ 1 := by
  rcases reply with e | (_ | l | _ | _) <;> simp [defined]

theorem map_map {N : Type} (f : L → M) (g : M → N) :
    (reply.map (Reply.map f)).map (Reply.map g) = reply.map (Reply.map (g ∘ f)) := by
  rcases reply with e | (_ | l | _ | _) <;> rfl

/-- Only the label that was defined counts when a reply is relabelled. -/
theorem map_congr {f g : L → M} (h : ∀ l ∈ defined reply, f l = g l) :
    reply.map (Reply.map f) = reply.map (Reply.map g) := by
  rcases reply with e | (_ | l | _ | _)
  · rfl
  · rfl
  · show Except.ok (Reply.label (f l)) = Except.ok (Reply.label (g l))
    rw [h l List.mem_cons_self]
  · rfl
  · rfl

end Reply

/-! ## Labels that may be missing -/

section Missing

variable {f : L → Option M} {g : L → M}

theorem Cell.mapM_eq_some {cell : Cell L} (h : ∀ l ∈ cell.label?, f l = some (g l)) :
    cell.mapM f = some (cell.map g) := by
  obtain ⟨base, label?⟩ := cell
  cases label? with
  | none => rfl
  | some l => simp [Cell.mapM, Cell.map, h l rfl]

theorem Cell.mapM_eq_none {cell : Cell L} {l : L} (hl : cell.label? = some l) (h : f l = none) :
    cell.mapM f = none := by
  simp [Cell.mapM, hl, h]

theorem Operand.mapM_eq_some {operand : Operand L} (h : ∀ l ∈ operand.label?, f l = some (g l)) :
    operand.mapM f = some (operand.map g) := by
  cases operand with
  | register r => rfl
  | indirect r => rfl
  | special s => rfl
  | indexed r cell => rw [Operand.mapM, Cell.mapM_eq_some h]; rfl
  | absolute cell => rw [Operand.mapM, Cell.mapM_eq_some h]; rfl
  | literal cell =>
      rw [Operand.label?_literal] at h
      rw [Operand.mapM, Cell.mapM_eq_some h]
      rfl

theorem Operand.mapM_eq_none {operand : Operand L} {l : L} (hl : operand.label? = some l)
    (h : f l = none) : operand.mapM f = none := by
  cases operand with
  | register r => exact nomatch hl
  | indirect r => exact nomatch hl
  | special s => exact nomatch hl
  | indexed r cell => rw [Operand.mapM, Cell.mapM_eq_none hl h]; rfl
  | absolute cell => rw [Operand.mapM, Cell.mapM_eq_none hl h]; rfl
  | literal cell =>
      rw [Operand.label?_literal] at hl
      rw [Operand.mapM, Cell.mapM_eq_none hl h]
      rfl

/-- A request can be relabelled if all its labels can. -/
theorem Request.mapM_eq_some {request : Request L} (h : ∀ l ∈ request.labels, f l = some (g l)) :
    request.mapM f = some (request.map g) := by
  cases request with
  | define => rfl
  | word w count => rfl
  | finish => rfl
  | mark l => rw [Request.mapM, h l List.mem_cons_self]; rfl
  | address l => rw [Request.mapM, h l List.mem_cons_self]; rfl
  | referenceCount l => rw [Request.mapM, h l List.mem_cons_self]; rfl
  | addressWord l => rw [Request.mapM, h l List.mem_cons_self]; rfl
  | basic op a b =>
      rw [Request.mapM,
        Operand.mapM_eq_some fun l hl ↦ h l (List.mem_append_left _ (Option.mem_toList.mpr hl)),
        Operand.mapM_eq_some fun l hl ↦ h l (List.mem_append_right _ (Option.mem_toList.mpr hl))]
      rfl
  | extended op a =>
      rw [Request.mapM, Operand.mapM_eq_some fun l hl ↦ h l (Option.mem_toList.mpr hl)]
      rfl

/-- A request is not made if one of its labels is missing. -/
theorem Request.mapM_eq_none {request : Request L} {l : L} (hl : l ∈ request.labels)
    (h : f l = none) : request.mapM f = none := by
  cases request with
  | define => exact absurd hl List.not_mem_nil
  | word w count => exact absurd hl List.not_mem_nil
  | finish => exact absurd hl List.not_mem_nil
  | mark l => obtain rfl := List.mem_singleton.mp hl; rw [Request.mapM, h]; rfl
  | address l => obtain rfl := List.mem_singleton.mp hl; rw [Request.mapM, h]; rfl
  | referenceCount l => obtain rfl := List.mem_singleton.mp hl; rw [Request.mapM, h]; rfl
  | addressWord l => obtain rfl := List.mem_singleton.mp hl; rw [Request.mapM, h]; rfl
  | extended op a => rw [Request.mapM, Operand.mapM_eq_none (Option.mem_toList.mp hl) h]; rfl
  | basic op a b =>
      rw [Request.mapM]
      rcases List.mem_append.mp hl with hl | hl
      · rw [Operand.mapM_eq_none (Option.mem_toList.mp hl) h]
        rfl
      · rw [Operand.mapM_eq_none (Option.mem_toList.mp hl) h]
        cases a.mapM f <;> rfl

/-- A request that is made has all its labels. -/
theorem Request.eq_map_of_mapM {request : Request L} {r : Request M} (default : M)
    (h : request.mapM f = some r) :
    (∀ l ∈ request.labels, (f l).isSome) ∧ r = request.map fun l ↦ (f l).getD default := by
  have hsome : ∀ l ∈ request.labels, (f l).isSome := by
    intro l hl
    rw [Option.isSome_iff_ne_none]
    intro hnone
    rw [Request.mapM_eq_none hl hnone] at h
    exact nomatch h
  refine ⟨hsome, ?_⟩
  have hmap : request.mapM f = some (request.map fun l ↦ (f l).getD default) := by
    apply Request.mapM_eq_some
    intro l hl
    obtain ⟨x, hx⟩ := Option.isSome_iff_exists.mp (hsome l hl)
    rw [hx, Option.getD_some]
  exact Option.some.inj (h.symm.trans hmap)

end Missing

/-- Only the labels of a request count when it is relabelled. -/
theorem Request.map_congr {request : Request L} {f g : L → M}
    (h : ∀ l ∈ request.labels, f l = g l) : request.map f = request.map g := by
  have hmap : request.mapM (fun l ↦ some (f l)) = some (request.map g) :=
    Request.mapM_eq_some fun l hl ↦ congrArg some (h l hl)
  exact Option.some.inj ((Request.mapM_eq_some fun _ _ ↦ rfl).symm.trans hmap)

namespace Builder

/-! ## The same state -/

/-- Two builders in the same state, whatever their identities. -/
structure Agrees (b b' : Builder) : Prop where
  words : b.words = b'.words
  slots : b.slots = b'.slots
  finished : b.finished = b'.finished

/-- Two labels that mean the same to two builders: the same place in each, or nothing to either. -/
inductive Alike (b b' : Builder) : Label → Label → Prop
  | own (index : Nat) : Alike b b' ⟨b.id, index⟩ ⟨b'.id, index⟩
  | foreign {l l' : Label} : l.owner ≠ b.id → l'.owner ≠ b'.id → Alike b b' l l'

variable {b b' : Builder}

section Labels

variable {l l' : Label}

/-- A builder knows nothing about a label of another one, whatever its place. -/
theorem slot?_of_foreign (h : l.owner ≠ b.id) : b.slot? l = none := if_neg h

/-- Labels that mean the same have the same slot. -/
theorem Agrees.slot?_eq (h : b.Agrees b') (hl : Alike b b' l l') : b.slot? l = b'.slot? l' := by
  cases hl with
  | own index =>
      rw [slot?, slot?, if_pos rfl, if_pos rfl, h.slots]
  | foreign hne hne' => rw [slot?_of_foreign hne, slot?_of_foreign hne']

/-- Labels that mean the same are owned by both builders or by neither. -/
theorem Agrees.owns_eq (h : b.Agrees b') (hl : Alike b b' l l') : b.owns l = b'.owns l' := by
  rw [owns, owns, h.slot?_eq hl]

/-- A label that a builder knows is its own. -/
theorem Alike.index_eq (hl : Alike b b' l l') (h : b.owns l) : l.index = l'.index := by
  cases hl with
  | own index => rfl
  | foreign hne _ =>
      rw [owns, slot?_of_foreign hne] at h
      exact absurd h Bool.false_ne_true

theorem Agrees.modifySlot (h : b.Agrees b') (hi : l.index = l'.index) (f : Slot → Slot) :
    (b.modifySlot l f).Agrees (b'.modifySlot l' f) where
  words := h.words
  slots := by
    show b.slots.modify l.index f = b'.slots.modify l'.index f
    rw [h.slots, hi]
  finished := h.finished

/-- Marking is answered alike, and leaves the builders in the same state. -/
theorem Agrees.mark (h : b.Agrees b') (hl : Alike b b' l l') :
    (b.mark l).1 = (b'.mark l').1 ∧ (b.mark l).2.Agrees (b'.mark l').2 := by
  rw [Builder.mark, Builder.mark, h.finished, h.words, ← h.slot?_eq hl]
  split
  · exact ⟨rfl, h⟩
  · cases hs : b.slot? l with
    | none => exact ⟨rfl, h⟩
    | some slot =>
        simp only
        split
        · exact ⟨rfl, h⟩
        · split
          · exact ⟨rfl, h⟩
          · have hi : l.index = l'.index := hl.index_eq (by rw [owns, hs]; rfl)
            exact ⟨rfl, h.modifySlot hi _⟩

end Labels

/-! ## Words -/

section Words

variable {f f' : L → Label}

/-- Writing looks at the place of a label only. -/
theorem Agrees.write (h : b.Agrees b') {cell : Cell L}
    (hi : ∀ l ∈ cell.label?, (f l).index = (f' l).index) :
    (b.write (cell.map f)).Agrees (b'.write (cell.map f')) := by
  have hpush : Agrees { b with words := b.words.push cell.base }
      { b' with words := b'.words.push cell.base } :=
    ⟨congrArg (·.push cell.base) h.words, h.slots, h.finished⟩
  rw [Builder.write, Builder.write, Cell.label?_map, Cell.label?_map, h.words]
  cases hl : cell.label? with
  | none => exact h.words ▸ hpush
  | some l => exact h.words ▸ hpush.modifySlot (hi l hl) _

theorem Agrees.foldl_write (h : b.Agrees b') {cells : List (Cell L)}
    (hi : ∀ cell ∈ cells, ∀ l ∈ cell.label?, (f l).index = (f' l).index) :
    ((cells.map (Cell.map f)).foldl Builder.write b).Agrees
      ((cells.map (Cell.map f')).foldl Builder.write b') := by
  induction cells generalizing b b' with
  | nil => exact h
  | cons cell cells ih =>
      exact ih (h.write (hi cell List.mem_cons_self))
        fun c hc ↦ hi c (List.mem_cons_of_mem _ hc)

theorem Agrees.emitCell (h : b.Agrees b') {cell : Cell L}
    (hl : ∀ l ∈ cell.label?, Alike b b' (f l) (f' l)) :
    (b.emitCell (cell.map f)).1 = (b'.emitCell (cell.map f')).1 ∧
      (b.emitCell (cell.map f)).2.Agrees (b'.emitCell (cell.map f')).2 := by
  have howns : (cell.map f).label?.all b.owns = (cell.map f').label?.all b'.owns := by
    rw [Cell.label?_map, Cell.label?_map]
    cases hc : cell.label? with
    | none => rfl
    | some l => exact h.owns_eq (hl l hc)
  rw [Builder.emitCell, Builder.emitCell, h.finished, ← howns]
  split
  · exact ⟨rfl, h⟩
  · split
    · next hall =>
      refine ⟨rfl, h.write ?_⟩
      intro l hc
      rw [Cell.label?_map, hc] at hall
      exact (hl l hc).index_eq hall
    · exact ⟨rfl, h⟩

/-- Words without labels mean the same to everyone. -/
theorem Agrees.emitCells (h : b.Agrees b') (w : UInt16) (count : Nat) :
    (b.emitCells (List.replicate count ⟨w, none⟩)).1 =
        (b'.emitCells (List.replicate count ⟨w, none⟩)).1 ∧
      (b.emitCells (List.replicate count ⟨w, none⟩)).2.Agrees
        (b'.emitCells (List.replicate count ⟨w, none⟩)).2 := by
  induction count generalizing b b' with
  | zero => exact ⟨rfl, h⟩
  | succ count ih =>
      have hfst : (b.emitCell ⟨w, none⟩).1 = (b'.emitCell ⟨w, none⟩).1 ∧
          (b.emitCell ⟨w, none⟩).2.Agrees (b'.emitCell ⟨w, none⟩).2 := by
        have hcell : ∀ l : Label, l ∈ (Cell.mk w none : Cell Label).label? → Alike b b' l l :=
          fun l hl ↦ nomatch hl
        exact h.emitCell hcell
      rw [List.replicate_succ, Builder.emitCells, Builder.emitCells]
      revert hfst
      generalize b.emitCell ⟨w, none⟩ = result
      generalize b'.emitCell ⟨w, none⟩ = result'
      obtain ⟨r, c⟩ := result
      obtain ⟨r', c'⟩ := result'
      rintro ⟨rfl, hc⟩
      cases r with
      | ok _ => exact ih hc
      | error e => exact ⟨rfl, hc⟩

theorem Agrees.emit (h : b.Agrees b') {i : Instruction L}
    (hl : ∀ l ∈ i.labels, Alike b b' (f l) (f' l)) :
    (b.emit (i.map f)).1 = (b'.emit (i.map f')).1 ∧
      (b.emit (i.map f)).2.Agrees (b'.emit (i.map f')).2 := by
  have howns : (i.map f).labels.all b.owns = (i.map f').labels.all b'.owns := by
    rw [Instruction.labels_map, Instruction.labels_map, List.all_map, List.all_map,
      Bool.eq_iff_iff, List.all_eq_true, List.all_eq_true]
    refine forall₂_congr fun l hm ↦ ?_
    rw [Function.comp_apply, Function.comp_apply, h.owns_eq (hl l hm)]
  rw [Builder.emit, Builder.emit, h.finished, ← howns]
  split
  · exact ⟨rfl, h⟩
  · split
    · next hall =>
      have hnote : ∀ event event', (b.note event).Agrees (b'.note event') := fun _ _ ↦
        ⟨h.words, h.slots, h.finished⟩
      rw [Instruction.cells_map, Instruction.cells_map]
      refine ⟨rfl, (hnote _ _).foldl_write ?_⟩
      intro cell hc l hcl
      have hm : l ∈ i.labels := by
        rw [i.labels_eq]
        exact List.mem_filterMap.mpr ⟨cell, hc, hcl⟩
      rw [Instruction.labels_map, List.all_map, List.all_eq_true] at hall
      exact (hl l hm).index_eq (hall l hm)
    · exact ⟨rfl, h⟩

/-- Basic instructions are answered alike, also where the operation has the wrong arity. -/
theorem Agrees.emitBasic (h : b.Agrees b') {op : OpCode} {left right : Operand L}
    (hl : ∀ l ∈ left.label?.toList ++ right.label?.toList, Alike b b' (f l) (f' l)) :
    (b.emitBasic op (left.map f) (right.map f)).1 =
        (b'.emitBasic op (left.map f') (right.map f')).1 ∧
      (b.emitBasic op (left.map f) (right.map f)).2.Agrees
        (b'.emitBasic op (left.map f') (right.map f')).2 := by
  cases op with
  | basic op =>
      rw [← Instruction.labels_basic op] at hl
      exact h.emit hl
  | extended number =>
      rw [Builder.emitBasic, Builder.emitBasic, h.finished]
      exact ⟨rfl, h⟩

theorem Agrees.emitExtended (h : b.Agrees b') {op : OpCode} {operand : Operand L}
    (hl : ∀ l ∈ operand.label?.toList, Alike b b' (f l) (f' l)) :
    (b.emitExtended op (operand.map f)).1 = (b'.emitExtended op (operand.map f')).1 ∧
      (b.emitExtended op (operand.map f)).2.Agrees (b'.emitExtended op (operand.map f')).2 := by
  cases op with
  | extended number =>
      rw [← Instruction.labels_extended number] at hl
      exact h.emit hl
  | basic op =>
      rw [Builder.emitExtended, Builder.emitExtended, h.finished]
      exact ⟨rfl, h⟩

end Words

/-! ## The end -/

theorem Agrees.patch (h : b.Agrees b') (address : UInt16) (site : Nat) :
    (b.patch address site).Agrees (b'.patch address site) := by
  rw [Builder.patch, Builder.patch, ← h.words]
  split
  · exact h
  · exact ⟨rfl, h.slots, h.finished⟩

theorem Agrees.patchSlot (h : b.Agrees b') (slot : Slot) :
    (b.patchSlot slot).Agrees (b'.patchSlot slot) := by
  rw [Builder.patchSlot, Builder.patchSlot]
  split
  · exact h
  · next address _ =>
    rw [← Array.foldl_toList, ← Array.foldl_toList]
    induction slot.sites.toList generalizing b b' with
    | nil => exact h
    | cons site sites ih => exact ih (h.patch address site)

/-- Finishing is answered alike and patches the same words. -/
theorem Agrees.finish (h : b.Agrees b') :
    b.finish.1 = b'.finish.1 ∧ b.finish.2.Agrees b'.finish.2 := by
  have hslots : ∀ (slots : List Slot) {c c' : Builder}, c.Agrees c' →
      (slots.foldl Builder.patchSlot c).Agrees (slots.foldl Builder.patchSlot c') := by
    intro slots
    induction slots with
    | nil => exact fun hc ↦ hc
    | cons slot slots ih => exact fun hc ↦ ih (hc.patchSlot slot)
  rw [Builder.finish, Builder.finish, h.finished, unmarkedCount, unmarkedCount, h.slots]
  split
  · exact ⟨rfl, h⟩
  · refine ⟨rfl, ?_⟩
    show (b'.slots.foldl Builder.patchSlot _).Agrees (b'.slots.foldl Builder.patchSlot _)
    rw [← Array.foldl_toList, ← Array.foldl_toList]
    exact hslots _ ⟨h.words, rfl, rfl⟩

/-! ## Answers -/

/-- Builders in the same state give the same answers to requests that mean the same to them, where
a label that they define is told by its place. -/
theorem Agrees.answer (h : b.Agrees b') {request : Request L} {f f' : L → Label}
    (hl : ∀ l ∈ request.labels, Alike b b' (f l) (f' l)) :
    (b.answer (request.map f)).1.map (Reply.map Label.index) =
        (b'.answer (request.map f')).1.map (Reply.map Label.index) ∧
      (b.answer (request.map f)).2.Agrees (b'.answer (request.map f')).2 := by
  -- What is left of an operation that gives nothing but its success.
  have hdone : ∀ {p p' : Except BuildError Unit × Builder}, p.1 = p'.1 ∧ p.2.Agrees p'.2 →
      (p.1.map fun _ ↦ (Reply.done : Reply Label)).map (Reply.map Label.index) =
        (p'.1.map fun _ ↦ (Reply.done : Reply Label)).map (Reply.map Label.index) ∧
      p.2.Agrees p'.2 := by
    rintro p p' ⟨hr, hb⟩
    rw [hr]
    exact ⟨rfl, hb⟩
  cases request with
  | define =>
      show ((b.define).1.map Reply.label).map _ = ((b'.define).1.map Reply.label).map _ ∧
        b.define.2.Agrees b'.define.2
      rw [Builder.define, Builder.define, h.finished, h.slots]
      split
      · exact ⟨rfl, h⟩
      · exact ⟨rfl, h.words, rfl, rfl⟩
  | mark l => exact hdone (h.mark (hl l List.mem_cons_self))
  | address l =>
      refine ⟨?_, h⟩
      show ((b.address? (f l)).map Reply.address).map _ =
        ((b'.address? (f' l)).map Reply.address).map _
      rw [Builder.address?, Builder.address?, h.slot?_eq (hl l List.mem_cons_self)]
  | referenceCount l =>
      refine ⟨?_, h⟩
      show ((b.referenceCount (f l)).map Reply.count).map _ =
        ((b'.referenceCount (f' l)).map Reply.count).map _
      rw [Builder.referenceCount, Builder.referenceCount, h.slot?_eq (hl l List.mem_cons_self)]
  | basic op left right => exact hdone (h.emitBasic hl)
  | extended op operand => exact hdone (h.emitExtended hl)
  | word w count => exact hdone (h.emitCells w count)
  | addressWord l =>
      have hcell : ∀ x ∈ (Cell.mk 0 (some l) : Cell L).label?, Alike b b' (f x) (f' x) := by
        rintro x hx
        obtain rfl := Option.some.inj hx
        exact hl l List.mem_cons_self
      exact hdone (h.emitCell hcell)
  | finish => exact hdone h.finish

/-! ## Identities and places -/

/-- A builder that has kept its identity and its labels. -/
structure Keeps (b b' : Builder) : Prop where
  id : b'.id = b.id
  size : b'.slots.size = b.slots.size

theorem Keeps.rfl : b.Keeps b := ⟨Eq.refl _, Eq.refl _⟩

theorem Keeps.trans {b₁ b₂ b₃ : Builder} (h : b₁.Keeps b₂) (h' : b₂.Keeps b₃) : b₁.Keeps b₃ :=
  ⟨h'.id.trans h.id, h'.size.trans h.size⟩

theorem Keeps.foldl {α : Type} {step : Builder → α → Builder} (h : ∀ b x, Keeps b (step b x))
    (b : Builder) (xs : List α) : b.Keeps (xs.foldl step b) := by
  induction xs generalizing b with
  | nil => exact .rfl
  | cons x xs ih => exact (h b x).trans (ih _)

theorem keeps_modifySlot (b : Builder) (l : Label) (f : Slot → Slot) :
    b.Keeps (b.modifySlot l f) := ⟨rfl, Array.size_modify⟩

/-- Writing adds to slots but adds no slot. -/
theorem keeps_write (b : Builder) (cell : Cell Label) : b.Keeps (b.write cell) := by
  have hpush : b.Keeps { b with words := b.words.push cell.base } := ⟨rfl, rfl⟩
  rw [Builder.write]
  cases cell.label? with
  | none => exact hpush
  | some l => exact hpush.trans (keeps_modifySlot _ l _)

theorem keeps_emitCell (b : Builder) (cell : Cell Label) : b.Keeps (b.emitCell cell).2 := by
  rw [Builder.emitCell]
  split
  · exact .rfl
  · split
    · exact keeps_write b cell
    · exact .rfl

theorem keeps_emitCells (b : Builder) (cells : List (Cell Label)) :
    b.Keeps (b.emitCells cells).2 := by
  induction cells generalizing b with
  | nil => exact .rfl
  | cons cell cells ih =>
      have hcell := keeps_emitCell b cell
      rw [Builder.emitCells]
      generalize b.emitCell cell = result at hcell
      obtain ⟨r, c⟩ := result
      cases r with
      | ok _ => exact hcell.trans (ih c)
      | error e => exact hcell

theorem keeps_emit (b : Builder) (i : Instruction Label) : b.Keeps (b.emit i).2 := by
  have hnote : ∀ event, b.Keeps (b.note event) := fun _ ↦ ⟨rfl, rfl⟩
  rw [Builder.emit]
  split
  · exact .rfl
  · split
    · exact (hnote _).trans (Keeps.foldl keeps_write _ i.cells)
    · exact .rfl

theorem keeps_mark (b : Builder) (l : Label) : b.Keeps (b.mark l).2 := by
  rw [Builder.mark]
  split
  · exact .rfl
  · split
    · exact .rfl
    · simp only
      split
      · exact .rfl
      · split
        · exact .rfl
        · exact keeps_modifySlot b l _

theorem keeps_patchSlot (b : Builder) (slot : Slot) : b.Keeps (b.patchSlot slot) := by
  have hpatch : ∀ (address : UInt16) (b : Builder) (site : Nat),
      b.Keeps (b.patch address site) := by
    intro address b site
    rw [Builder.patch]
    split
    · exact .rfl
    · exact ⟨rfl, rfl⟩
  rw [Builder.patchSlot]
  split
  · exact .rfl
  · next address _ =>
    rw [← Array.foldl_toList]
    exact Keeps.foldl (hpatch address) b _

theorem keeps_finish (b : Builder) : b.Keeps b.finish.2 := by
  have hfinished : b.Keeps { b with finished := true } := ⟨rfl, rfl⟩
  rw [Builder.finish]
  split
  · exact .rfl
  · show b.Keeps (b.slots.foldl Builder.patchSlot _)
    rw [← Array.foldl_toList]
    exact hfinished.trans (Keeps.foldl keeps_patchSlot _ _)

/-- A builder after an answer: its identity stays, and a label that was defined has the next
place. -/
structure Continues (b b' : Builder) (defined : List Label) : Prop where
  id : b'.id = b.id
  size : b'.slots.size = b.slots.size + defined.length
  label : ∀ l ∈ defined, l = ⟨b.id, b.slots.size⟩

/-- A builder gives away its places in order: only `define` takes one, and it takes the next. -/
theorem continues_answer (b : Builder) (request : Request Label) :
    b.Continues (b.answer request).2 (Reply.defined (b.answer request).1) := by
  -- Only one request defines a label.
  have hkeeps : ∀ {reply : Except BuildError (Reply Label)} {c : Builder},
      Reply.defined reply = [] → b.Keeps c → b.Continues c (Reply.defined reply) := by
    intro reply c hreply hc
    rw [hreply]
    exact ⟨hc.id, hc.size, fun l hl ↦ absurd hl List.not_mem_nil⟩
  have hdone : ∀ (r : Except BuildError Unit),
      Reply.defined (r.map fun _ ↦ (Reply.done : Reply Label)) = [] := by
    intro r
    cases r <;> rfl
  cases request with
  | define =>
      show b.Continues b.define.2 (Reply.defined (b.define.1.map Reply.label))
      rw [Builder.define]
      split
      · exact hkeeps rfl .rfl
      · refine ⟨rfl, Array.size_push _, fun l hl ↦ ?_⟩
        exact List.mem_singleton.mp hl
  | mark l => exact hkeeps (hdone _) (keeps_mark b l)
  | address l => exact hkeeps (by simp only [answer]; cases b.address? l <;> rfl) .rfl
  | referenceCount l =>
      exact hkeeps (by simp only [answer]; cases b.referenceCount l <;> rfl) .rfl
  | basic op left right =>
      cases op with
      | basic op => exact hkeeps (hdone _) (keeps_emit b _)
      | extended number => exact hkeeps rfl .rfl
  | extended op operand =>
      cases op with
      | basic op => exact hkeeps rfl .rfl
      | extended number => exact hkeeps (hdone _) (keeps_emit b _)
  | word w count => exact hkeeps (hdone _) (keeps_emitCells b _)
  | addressWord l => exact hkeeps (hdone _) (keeps_emitCell b _)
  | finish => exact hkeeps (hdone _) (keeps_finish b)

/-! ## Labels of others -/

/-- What a builder objects to before it looks at the labels of a request. -/
def objection? (b : Builder) : Request L → Option BuildError
  | .address _ | .referenceCount _ => none
  | .basic (.extended _) _ _ => some (if b.finished then .finished else .extendedArity)
  | .extended (.basic _) _ => some (if b.finished then .finished else .basicArity)
  | _ => if b.finished then some .finished else none

/-- A builder refuses a request that mentions a label of another builder, and stays as it is. -/
theorem answer_of_foreign {request : Request L} {f : L → Label} {l : L} (hl : l ∈ request.labels)
    (h : (f l).owner ≠ b.id) :
    b.answer (request.map f) = (.error ((b.objection? request).getD .foreignLabel), b) := by
  have hslot : b.slot? (f l) = none := slot?_of_foreign h
  have howns : b.owns (f l) = false := by rw [owns, hslot]; rfl
  have hemit : ∀ i : Instruction L, l ∈ i.labels → b.emit (i.map f) =
      (.error ((if b.finished then some .finished else none).getD .foreignLabel), b) := by
    intro i hi
    have hall : (i.map f).labels.all b.owns = false := by
      rw [Instruction.labels_map, List.all_map, List.all_eq_false]
      exact ⟨l, hi, by rw [Function.comp_apply, howns]; exact Bool.false_ne_true⟩
    rw [Builder.emit, hall]
    cases b.finished <;> rfl
  cases request with
  | define => exact absurd hl List.not_mem_nil
  | word w count => exact absurd hl List.not_mem_nil
  | finish => exact absurd hl List.not_mem_nil
  | mark x =>
      obtain rfl := List.mem_singleton.mp hl
      simp only [Request.map, answer, Builder.mark, hslot, objection?]
      cases b.finished <;> rfl
  | address x =>
      obtain rfl := List.mem_singleton.mp hl
      simp only [Request.map, answer, Builder.address?, hslot, objection?]
      rfl
  | referenceCount x =>
      obtain rfl := List.mem_singleton.mp hl
      simp only [Request.map, answer, Builder.referenceCount, hslot, objection?]
      rfl
  | addressWord x =>
      obtain rfl := List.mem_singleton.mp hl
      simp only [Request.map, answer, Builder.emitCell, Option.all_some, howns, objection?]
      cases b.finished <;> rfl
  | basic op left right =>
      cases op with
      | extended number => rfl
      | basic op =>
          rw [Request.labels, ← Instruction.labels_basic op] at hl
          have hi := hemit (.basic op left right) hl
          rw [Instruction.map] at hi
          simp only [Request.map, answer, Builder.emitBasic, hi, objection?]
          rfl
  | extended op operand =>
      cases op with
      | basic op => rfl
      | extended number =>
          rw [Request.labels, ← Instruction.labels_extended number] at hl
          have hi := hemit (.extended number operand) hl
          rw [Instruction.map] at hi
          simp only [Request.map, answer, Builder.emitExtended, hi, objection?]
          rfl

end Builder

end Dcpu16
