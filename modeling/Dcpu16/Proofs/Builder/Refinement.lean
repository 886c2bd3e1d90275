import Dcpu16.Builder.Session
import Dcpu16.Image
import Dcpu16.Proofs.Builder.Patching

/-!
# Builders follow their sketches

A sketch is kept beside a builder and told each request with the answer that the builder gave: a
label that was defined is added, a label that was marked gets the number of cells as its address,
and the cells of what was written are appended.  A request that was refused changes nothing.  The
main statement, `Sketch.describes_run`, says that after any requests the builder can be read off
the sketch: its words are those of the cells, without the addresses of the labels before the builder
is finished and with them afterwards.

The invariant is that the builder *is* the builder of the sketch (`Sketch.builder`), where the
labels of the sketch are the handles that the builder has given away.
-/

namespace Dcpu16

/-- The cells that a request writes when it is done. -/
def Request.cells {L : Type} : Request L → List (Cell L)
  | .basic (.basic op) a b => (Instruction.basic op a b).cells
  | .extended (.extended number) a => (Instruction.extended number a).cells
  | .word w count => List.replicate count ⟨w, none⟩
  | .addressWord l => [⟨0, some l⟩]
  | _ => []

namespace Sketch

/-- What a request and the answer to it add to a sketch. -/
def record (s : Sketch Label) : Request Label → Except BuildError (Reply Label) → Sketch Label
  | .finish, _ => { s with finished := true }
  | _, .error _ => s
  | .define, .ok (.label l) => s.define l
  | .mark l, .ok _ => s.mark l
  | request, .ok _ => s.write request.cells

/-- One more request to a builder with a sketch beside it. -/
def follow (state : Builder × Sketch Label) (request : Request Label) : Builder × Sketch Label :=
  match state.1.answer request with
  | (reply, b) => (b, state.2.record request reply)

/-- A fresh builder and its sketch after some requests. -/
def run (id : UInt32) (requests : List (Request Label)) : Builder × Sketch Label :=
  requests.foldl follow ({ id }, {})

/-- What a builder shows to the outside can be read off a sketch. -/
structure Describes (s : Sketch Label) (b : Builder) : Prop where
  finished : b.finished = s.finished
  /-- The next address is the number of cells. -/
  position : b.words.size = s.cells.length
  /-- Before the builder is finished the output has the constant parts of the cells. -/
  output_before : s.finished = false →
    Image.bytes b.words.toList = Image.bytes (s.cells.map Cell.base)
  /-- Afterwards it has their values, where a label that is not marked adds nothing. -/
  output_after : s.finished = true →
    Image.bytes b.words.toList = Image.bytes (s.cells.map (Cell.value s.word?))
  /-- The address of a label is the one recorded, -/
  address (l : Label) : l ∈ s.labels → b.address? l = .ok (s.word? l)
  /-- and as a word it is the same number. -/
  fits (l : Label) (address : Nat) : s.address? l = some address → address ≤ 0xFFFF
  /-- The words that depend on a label are counted. -/
  references (l : Label) : l ∈ s.labels →
    b.referenceCount l = .ok (s.cells.countP fun cell ↦ cell.label? = some l)
  /-- Nothing is said about other labels. -/
  foreign (l : Label) : l ∉ s.labels →
    b.address? l = .error .foreignLabel ∧ b.referenceCount l = .error .foreignLabel
  /-- Finishing succeeds if and only if all labels are marked, -/
  finish_before : s.finished = false → (b.finish.1 = .ok () ↔ ∀ l ∈ s.labels, s.address? l ≠ none)
  /-- and only once. -/
  finish_after : s.finished = true → b.finish.1 = .error .finished

/-! ## The labels of a builder -/

/-- The labels of a sketch are the handles that its builder has given away. -/
def Owned (s : Sketch Label) (id : UInt32) : Prop :=
  s.labels = (List.range s.labels.length).map (Label.mk id)

/-- The labels are all handles of the builder up to the number of labels. -/
theorem Owned.mem_labels {s : Sketch Label} {id : UInt32} (h : s.Owned id) {l : Label} :
    l ∈ s.labels ↔ l.owner = id ∧ l.index < s.labels.length := by
  constructor
  · intro hl
    rw [h] at hl
    obtain ⟨i, hi, rfl⟩ := List.mem_map.mp hl
    exact ⟨rfl, List.mem_range.mp hi⟩
  · rintro ⟨rfl, hi⟩
    rw [h]
    exact List.mem_map.mpr ⟨l.index, List.mem_range.mpr hi, rfl⟩

/-- In a session a label is its own handle. -/
theorem Owned.handle_eq {s : Sketch Label} {id : UInt32} (h : s.Owned id) (hs : s.Valid)
    {l : Label} (hl : l ∈ s.labels) : s.handle id l = l := by
  obtain ⟨rfl, hi⟩ := h.mem_labels.mp hl
  have hget : s.labels[l.index] = l := by
    simp only [List.getElem_of_eq h, List.getElem_map, List.getElem_range]
  have hidx := hs.nodup.idxOf_getElem l.index hi
  rw [hget] at hidx
  rw [handle, hidx]

theorem Owned.define {s : Sketch Label} {id : UInt32} (h : s.Owned id) :
    (s.define ⟨id, s.labels.length⟩).Owned id := by
  have hlabels : (s.define ⟨id, s.labels.length⟩).labels = s.labels ++ [⟨id, s.labels.length⟩] :=
    rfl
  rw [Owned, hlabels, List.length_append, List.length_singleton, List.range_succ, List.map_append,
    ← h]
  rfl

/-- The next handle has not been given away before. -/
theorem Owned.fresh_notMem {s : Sketch Label} {id : UInt32} (h : s.Owned id) :
    Label.mk id s.labels.length ∉ s.labels := fun hl ↦
  Nat.lt_irrefl _ (h.mem_labels.mp hl).2

theorem Owned.slot?_eq_none {s : Sketch Label} {id : UInt32} (h : s.Owned id) {l : Label}
    (hl : l ∉ s.labels) (journal : Array Event) : (s.builder id journal).slot? l = none := by
  rw [h.mem_labels] at hl
  by_cases ho : l.owner = id
  · have hi : s.labels.length ≤ l.index := Nat.not_lt.mp fun hi ↦ hl ⟨ho, hi⟩
    simp [Builder.slot?, builder, List.getElem?_eq_none hi]
  · exact if_neg ho

/-- The builder refuses a label that it has not given away. -/
theorem Owned.owns_eq_false {s : Sketch Label} {id : UInt32} (h : s.Owned id) {l : Label}
    (hl : l ∉ s.labels) (journal : Array Event) : (s.builder id journal).owns l = false := by
  rw [Builder.owns, h.slot?_eq_none hl]
  rfl

end Sketch

/-! ## Requests to a builder that is finished -/

namespace Builder

variable {b : Builder} (h : b.finished = true)

include h

/-- A finished builder does not change any more, whatever it is asked. -/
theorem answer_snd_of_finished (request : Request Label) : (b.answer request).2 = b := by
  cases request with
  | basic op left right => cases op <;> simp [answer, emitBasic, emit, h]
  | extended op operand => cases op <;> simp [answer, emitExtended, emit, h]
  | word w count => cases count <;> simp [answer, emitCells, emitCell, List.replicate_succ, h]
  | _ => simp [answer, define, mark, emitCell, finish, h]

/-- The sketch has nothing to record any more. -/
theorem record_answer_of_finished {s : Sketch Label} (hs : s.finished = true)
    (request : Request Label) : s.record request (b.answer request).1 = s := by
  cases request with
  | define => simp [answer, define, h, Except.map, Sketch.record]
  | mark label => simp [answer, mark, h, Except.map, Sketch.record]
  | address label =>
      cases hr : b.address? label <;> simp [answer, hr, Except.map, Sketch.record, Request.cells]
  | referenceCount label =>
      cases hr : b.referenceCount label <;>
        simp [answer, hr, Except.map, Sketch.record, Request.cells]
  | basic op left right =>
      cases op <;> simp [answer, emitBasic, emit, h, Except.map, Sketch.record]
  | extended op operand =>
      cases op <;> simp [answer, emitExtended, emit, h, Except.map, Sketch.record]
  | word w count =>
      cases count with
      | zero => simp [answer, emitCells, Except.map, Sketch.record, Request.cells]
      | succ n =>
          simp [answer, emitCells, emitCell, List.replicate_succ, h, Except.map, Sketch.record]
  | addressWord label => simp [answer, emitCell, h, Except.map, Sketch.record]
  | finish => rw [Sketch.record, ← hs]

end Builder

namespace Sketch

/-! ## One request -/

/-- The builder beside a sketch is the builder of the sketch. -/
structure Follows (id : UInt32) (state : Builder × Sketch Label) : Prop where
  valid : state.2.Valid
  owned : state.2.Owned id
  eq_builder : ∃ journal, state.1 = state.2.builder id journal

section Requests

variable {s s' : Sketch Label} {id : UInt32} {journal : Array Event} {request : Request Label}

/-- It is enough to know what the builder answers and what it becomes. -/
theorem Follows.of_answer (reply : Except BuildError (Reply Label)) (journal' : Array Event)
    (hs : s'.Valid) (ho : s'.Owned id)
    (ha : (s.builder id journal).answer request = (reply, s'.builder id journal'))
    (hr : s.record request reply = s') :
    Follows id (follow (s.builder id journal, s) request) := by
  subst hr
  simp only [follow, ha]
  exact ⟨hs, ho, journal', rfl⟩

theorem follow_of_finished (hs : s.Valid) (ho : s.Owned id) (hf : s.finished = true) :
    Follows id (follow (s.builder id journal, s) request) :=
  .of_answer _ journal hs ho
    (Prod.ext rfl (Builder.answer_snd_of_finished (b := s.builder id journal) hf request))
    (Builder.record_answer_of_finished hf hf request)

theorem follow_define (hs : s.Valid) (ho : s.Owned id) (hf : s.finished = false) :
    Follows id (follow (s.builder id journal, s) .define) := by
  have hv := hs.define ho.fresh_notMem
  have hmem : Label.mk id s.labels.length ∈ (s.define ⟨id, s.labels.length⟩).labels :=
    List.mem_append_right _ (List.mem_singleton_self _)
  refine .of_answer (.ok (.label ⟨id, s.labels.length⟩)) journal hv ho.define ?_ rfl
  simp only [Builder.answer, define_builder hs hf ho.fresh_notMem, ho.define.handle_eq hv hmem]
  rfl

/-- The step lemma for a mark, accepted or refused. -/
theorem follow_mark (hs : s.Valid) (ho : s.Owned id) (hf : s.finished = false) (l : Label) :
    Follows id (follow (s.builder id journal, s) (.mark l)) := by
  by_cases hl : l ∈ s.labels
  · have hh := ho.handle_eq hs hl
    cases ha : s.address? l with
    | some address =>
        have hmark := mark_builder_of_marked hf hl ha id journal
        rw [hh] at hmark
        exact .of_answer _ journal hs ho (by rw [Builder.answer, hmark]) rfl
    | none =>
        by_cases hsize : s.cells.length ≤ 0xFFFF
        · have hmark := mark_builder hs hf hl ha hsize id journal
          rw [hh] at hmark
          exact .of_answer _ journal (hs.mark hl hsize) ho (by rw [Builder.answer, hmark]) rfl
        · have hmark := mark_builder_of_overflow hf hl ha (Nat.lt_of_not_le hsize) id journal
          rw [hh] at hmark
          exact .of_answer _ journal hs ho (by rw [Builder.answer, hmark]) rfl
  · refine .of_answer (.error .foreignLabel) journal hs ho ?_ rfl
    simp [Builder.answer, Builder.mark, hf, ho.slot?_eq_none hl, Except.map]

/-- An instruction whose labels are all known is written, any other is refused. -/
theorem follow_emit (hs : s.Valid) (ho : s.Owned id) (hf : s.finished = false)
    {i : Instruction Label} (hc : request.cells = i.cells)
    (hok : s.record request (.ok .done) = s.write request.cells)
    (herror : s.record request (.error .foreignLabel) = s)
    (ha : (s.builder id journal).answer request =
      (((s.builder id journal).emit i).1.map fun _ ↦ .done, ((s.builder id journal).emit i).2)) :
    Follows id (follow (s.builder id journal, s) request) := by
  by_cases h : ∀ l ∈ i.labels, l ∈ s.labels
  · have hcells : ∀ cell ∈ i.cells, ∀ l, cell.label? = some l → l ∈ s.labels := fun cell hm l hl ↦
      h l (i.labels_eq ▸ List.mem_filterMap.mpr ⟨cell, hm, hl⟩)
    have hi : i.map (s.handle id) = i :=
      Instruction.map_eq_self fun l hl ↦ ho.handle_eq hs (h l hl)
    have hemit := emit_builder hs hf h id journal
    rw [hi] at hemit
    rw [hemit] at ha
    exact .of_answer _ _ (hs.write hcells) ho ha (hok.trans (by rw [hc]))
  · obtain ⟨l, hl, hn⟩ : ∃ l ∈ i.labels, l ∉ s.labels := by simpa using h
    have howns : ¬i.labels.all (s.builder id journal).owns := fun hall ↦ by
      have := List.all_eq_true.mp hall l hl
      rw [ho.owns_eq_false hn] at this
      exact Bool.false_ne_true this
    rw [Builder.emit, finished_builder, hf, if_neg Bool.false_ne_true, if_neg howns] at ha
    exact .of_answer _ _ hs ho ha herror

theorem follow_word (hs : s.Valid) (ho : s.Owned id) (hf : s.finished = false) (w : UInt16)
    (count : Nat) : Follows id (follow (s.builder id journal, s) (.word w count)) := by
  have hcells : ∀ cell ∈ List.replicate count (Cell.mk w none), ∀ l : Label,
      cell.label? = some l → l ∈ s.labels := by
    intro cell hc l hl
    rw [List.eq_of_mem_replicate hc] at hl
    exact nomatch hl
  have hemit := emitCells_builder hs hf hcells id journal
  rw [List.map_replicate] at hemit
  refine .of_answer (.ok .done) journal (hs.write hcells) ho ?_ rfl
  simp only [Builder.answer]
  rw [show Cell.mk w none = Cell.map (s.handle id) ⟨w, none⟩ from rfl, hemit]
  rfl

theorem follow_addressWord (hs : s.Valid) (ho : s.Owned id) (hf : s.finished = false)
    (l : Label) : Follows id (follow (s.builder id journal, s) (.addressWord l)) := by
  by_cases hl : l ∈ s.labels
  · have hcell : ∀ l', (Cell.mk 0 (some l)).label? = some l' → l' ∈ s.labels := fun l' hl' ↦
      Option.some.inj hl' ▸ hl
    have hemit := emitCell_builder hs hf hcell id journal
    rw [Cell.map, Option.map_some, ho.handle_eq hs hl] at hemit
    refine .of_answer (.ok .done) journal
      (hs.write fun cell hc ↦ List.mem_singleton.mp hc ▸ hcell) ho ?_ rfl
    simp only [Builder.answer, hemit]
    rfl
  · refine .of_answer (.error .foreignLabel) journal hs ho ?_ rfl
    simp [Builder.answer, Builder.emitCell, hf, ho.owns_eq_false hl, Except.map]

theorem follow_finish (hs : s.Valid) (ho : s.Owned id) (hf : s.finished = false) :
    Follows id (follow (s.builder id journal, s) .finish) := by
  have hv : ({ s with finished := true } : Sketch Label).Valid :=
    ⟨hs.nodup, hs.mentioned, hs.marked, hs.fits⟩
  have ha := finish_builder hs hf id journal
  exact .of_answer _ _ hv ho (by rw [Builder.answer, ha]) rfl

/-- Whatever is asked, the builder stays the builder of the sketch. -/
theorem Follows.follow {state : Builder × Sketch Label} (h : Follows id state)
    (request : Request Label) : Follows id (Sketch.follow state request) := by
  obtain ⟨b, s⟩ := state
  obtain ⟨hs, ho, journal, hb⟩ := h
  obtain rfl : b = s.builder id journal := hb
  cases hf : s.finished with
  | true => exact follow_of_finished hs ho hf
  | false =>
      cases request with
      | define => exact follow_define hs ho hf
      | mark l => exact follow_mark hs ho hf l
      | address l =>
          refine .of_answer _ journal hs ho rfl ?_
          cases (s.builder id journal).address? l with
          | error e => rfl
          | ok a => exact write_nil s
      | referenceCount l =>
          refine .of_answer _ journal hs ho rfl ?_
          cases (s.builder id journal).referenceCount l with
          | error e => rfl
          | ok n => exact write_nil s
      | basic op a b =>
          cases op with
          | basic op => exact follow_emit hs ho hf (i := .basic op a b) rfl rfl rfl rfl
          | extended number =>
              refine .of_answer (.error .extendedArity) journal hs ho ?_ rfl
              simp [Builder.answer, Builder.emitBasic, hf, Except.map]
      | extended op a =>
          cases op with
          | basic op =>
              refine .of_answer (.error .basicArity) journal hs ho ?_ rfl
              simp [Builder.answer, Builder.emitExtended, hf, Except.map]
          | extended number => exact follow_emit hs ho hf (i := .extended number a) rfl rfl rfl rfl
      | word w count => exact follow_word hs ho hf w count
      | addressWord l => exact follow_addressWord hs ho hf l
      | finish => exact follow_finish hs ho hf

end Requests

/-! ## Any requests -/

/-- After any requests a builder is the builder of its sketch. -/
theorem follows_run (id : UInt32) (requests : List (Request Label)) :
    Follows id (run id requests) := by
  have hstart : Follows id ({ id }, {}) := ⟨.empty, rfl, #[], rfl⟩
  unfold run
  generalize (({ id }, {}) : Builder × Sketch Label) = state at hstart ⊢
  induction requests generalizing state with
  | nil => exact hstart
  | cons request requests ih => exact ih _ (hstart.follow request)

/-- After any requests, refused ones among them, the builder shows what its sketch says. -/
theorem describes_run (id : UInt32) (requests : List (Request Label)) :
    (run id requests).2.Describes (run id requests).1 := by
  obtain ⟨hs, ho, journal, hb⟩ := follows_run id requests
  generalize run id requests = state at hs ho hb ⊢
  obtain ⟨b, s⟩ := state
  obtain rfl : b = s.builder id journal := hb
  change s.Valid at hs
  change s.Owned id at ho
  change s.Describes (s.builder id journal)
  exact {
    finished := rfl
    position := size_words_builder s id journal
    output_before hf := by rw [toList_words_builder, words, hf, if_neg Bool.false_ne_true]
    output_after hf := by rw [toList_words_builder, words, hf, if_pos rfl]
    address l hl := by
      have haddress := address?_builder hl id journal
      rwa [ho.handle_eq hs hl] at haddress
    fits _ _ := hs.fits
    references l hl := by
      have hcount := referenceCount_builder hl id journal
      rwa [ho.handle_eq hs hl] at hcount
    foreign l hl := by
      simp [Builder.address?, Builder.referenceCount, ho.slot?_eq_none hl]
    finish_before hf := by
      rw [finish_builder hs hf, ← unmarkedCount_eq_zero]
      split <;> simp_all
    finish_after hf := by simp [Builder.finish, hf] }

end Sketch

end Dcpu16
