import Dcpu16.Proofs.Builder.Sketch

/-!
# Finishing an image

`Builder.finish` goes through the labels in the order of their definition and adds the address of
each marked one at each of its sites.  No word is a site twice, neither of one label nor of two, so
that every word is patched at most once: what is read at a site is still the constant part of its
cell, and what is left there is the value of the cell.  Main statement: finishing the builder of a
sketch gives the builder of the finished sketch (`Sketch.finish_builder`).
-/

namespace Dcpu16

namespace Builder

/-- Patching at sites that are all different changes each of these words once. -/
theorem foldl_patch (address : UInt16) (b : Builder) {sites : List Nat} (h : sites.Nodup) :
    sites.foldl (patch address) b =
      { b with
        words := b.words.mapIdx fun i word ↦ if i ∈ sites then word + address else word
        journal := b.journal ++ (sites.filterMap fun i ↦
          b.words[i]?.map fun word ↦ .patch i (word + address)).toArray } := by
  induction sites generalizing b with
  | nil =>
      have hsame : b.words.mapIdx (fun _ word ↦ word) = b.words :=
        Array.ext (by simp) fun i _ _ ↦ by simp
      simp [hsame]
  | cons site sites ih =>
      obtain ⟨hsite, hsites⟩ := List.nodup_cons.mp h
      rw [List.foldl_cons, ih (patch address b site) hsites]
      cases hw : b.words[site]? with
      | none =>
          have hi : ∀ i, i < b.words.size → i ≠ site := by
            rintro i hi rfl
            rw [Array.getElem?_eq_none_iff] at hw
            omega
          simp only [patch, hw, List.filterMap_cons, Option.map_none, List.mem_cons]
          congr 1
          refine Array.ext (by simp) fun i hi₁ hi₂ ↦ ?_
          have hne := hi i (by simpa using hi₁)
          simp [hne]
      | some word =>
          obtain ⟨hlt, rfl⟩ := Array.getElem?_eq_some_iff.mp hw
          simp only [patch, hw, List.filterMap_cons, Option.map_some, List.mem_cons]
          congr 1
          · refine Array.ext (by simp) fun i hi₁ hi₂ ↦ ?_
            by_cases hi : i = site
            · subst hi
              simp [hsite]
            · rw [Array.getElem_mapIdx,
                Array.getElem_setIfInBounds_ne (by simpa using hi₂) (Ne.symm hi)]
              simp [hi]
          · rw [List.toArray_cons, Array.push_eq_append, Array.append_assoc]
            congr 3
            refine List.filterMap_congr fun i hi ↦ ?_
            have hne : site ≠ i := fun hc ↦ hsite (hc ▸ hi)
            rw [Array.getElem?_setIfInBounds_ne hne]

end Builder

namespace Sketch

variable {L : Type} [DecidableEq L]

def patches (s : Sketch L) (l : L) : List Event :=
  match s.word? l with
  | none => []
  | some address =>
    (s.sites l).filterMap fun i ↦ s.cells[i]?.map fun cell ↦ .patch i (cell.base + address)

/-- The addresses of the labels in `done` only. -/
def wordAmong? (s : Sketch L) (done : List L) (l : L) : Option UInt16 :=
  if l ∈ done then s.word? l else none

/-- The builder of a sketch while it is finished, where the labels in `done` are dealt with. -/
def patched (s : Sketch L) (id : UInt32) (journal : Array Event) (done : List L) : Builder :=
  { s.builder id journal with
    words := (s.cells.map (Cell.value (s.wordAmong? done))).toArray
    finished := true }

/-- The word at a site of a label that is still to be dealt with is the constant part of its
cell. -/
theorem value_wordAmong?_of_notMem {s : Sketch L} {done : List L} {l : L} (hl : l ∉ done)
    {cell : Cell L} (hc : cell.label? = some l) : cell.value (s.wordAmong? done) = cell.base := by
  simp [Cell.value, hc, wordAmong?, hl]

/-- Dealing with one more label. -/
theorem value_wordAmong?_concat (s : Sketch L) {done : List L} {l : L} (hl : l ∉ done)
    (cell : Cell L) :
    cell.value (s.wordAmong? (done ++ [l])) =
      if cell.label? = some l then cell.value s.word? else cell.value (s.wordAmong? done) := by
  cases hc : cell.label? with
  | none => simp [Cell.value, hc]
  | some l' =>
      by_cases hll : l' = l
      · subst hll
        simp [Cell.value, hc, wordAmong?]
      · simp [Cell.value, hc, wordAmong?, hll]

/-- Patching a label that was not dealt with brings its address into all cells that depend on it. -/
theorem patchSlot_patched (s : Sketch L) (id : UInt32) (journal : Array Event) {done : List L}
    {l : L} (hl : l ∉ done) :
    (s.patched id journal done).patchSlot (s.slot l) =
      s.patched id (journal ++ (s.patches l).toArray) (done ++ [l]) := by
  cases hw : s.word? l with
  | none =>
      have hsame : Cell.value (s.wordAmong? (done ++ [l])) = Cell.value (s.wordAmong? done) := by
        funext cell
        rw [value_wordAmong?_concat s hl]
        split
        · next hc =>
          rw [value_wordAmong?_of_notMem hl hc]
          simp [Cell.value, hc, hw]
        · rfl
      simp [Builder.patchSlot, slot, hw, patched, patches, hsame, builder]
  | some address =>
      have hbase : ∀ i ∈ s.sites l, ((s.patched id journal done).words[i]?.map fun word ↦
          Event.patch i (word + address)) =
            s.cells[i]?.map fun cell ↦ .patch i (cell.base + address) := by
        intro i hi
        obtain ⟨cell, hcell, hc⟩ := mem_sites.mp hi
        simp [patched, hcell, value_wordAmong?_of_notMem hl hc]
      simp only [Builder.patchSlot, slot, hw, List.foldl_toArray]
      rw [Builder.foldl_patch _ _ (s.nodup_sites l), List.filterMap_congr hbase]
      simp only [patched, patches, hw, builder]
      congr 1
      refine Array.ext (by simp) fun i hi₁ hi₂ ↦ ?_
      have hlt : i < s.cells.length := by simpa using hi₁
      have hmem : i ∈ s.sites l ↔ s.cells[i].label? = some l := by
        rw [mem_sites, List.getElem?_eq_getElem hlt]
        simp
      simp only [Array.getElem_mapIdx, List.getElem_toArray, List.getElem_map, hmem,
        value_wordAmong?_concat s hl]
      split
      · next hc =>
        rw [value_wordAmong?_of_notMem hl hc]
        simp [Cell.value, hc, hw]
      · rfl

/-- Labels are dealt with one after the other, each of them once. -/
theorem foldl_patchSlot_patched (s : Sketch L) (id : UInt32) (journal : Array Event)
    (done rest : List L) (h : (done ++ rest).Nodup) :
    (rest.map s.slot).foldl Builder.patchSlot (s.patched id journal done) =
      s.patched id (journal ++ (rest.flatMap s.patches).toArray) (done ++ rest) := by
  induction rest generalizing done journal with
  | nil => simp
  | cons l rest ih =>
      have hl : l ∉ done := fun hd ↦
        (List.nodup_append.mp h).2.2 l hd l List.mem_cons_self rfl
      rw [List.map_cons, List.foldl_cons, patchSlot_patched s id journal hl,
        ih _ _ (by simpa using h)]
      simp

/-- All cells have their values once all labels are dealt with. -/
theorem Valid.patched_labels {s : Sketch L} (hs : s.Valid) (id : UInt32)
    (journal : Array Event) :
    s.patched id journal s.labels = { s with finished := true }.builder id journal := by
  have hword : s.wordAmong? s.labels = s.word? := by
    funext l
    by_cases hl : l ∈ s.labels
    · simp [wordAmong?, hl]
    · simp [wordAmong?, hl, hs.word?_eq_none hl]
  rw [patched, hword]
  rfl

def unmarkedCount (s : Sketch L) : Nat := s.labels.countP fun l ↦ (s.address? l).isNone

omit [DecidableEq L] in
/-- Nothing is complained about if and only if all labels have addresses. -/
theorem unmarkedCount_eq_zero {s : Sketch L} :
    s.unmarkedCount = 0 ↔ ∀ l ∈ s.labels, s.address? l ≠ none := by
  simp [unmarkedCount, List.countP_eq_zero]

theorem unmarkedCount_builder (s : Sketch L) (id : UInt32) (journal : Array Event) :
    (s.builder id journal).unmarkedCount = s.unmarkedCount := by
  simp [Builder.unmarkedCount, unmarkedCount, builder, List.countP_map, Function.comp_def, slot,
    word?]

/-- Finishing the builder of a sketch adds to each cell the address of its label. -/
theorem finish_builder {s : Sketch L} (hs : s.Valid) (hf : s.finished = false) (id : UInt32)
    (journal : Array Event) :
    (s.builder id journal).finish =
      (if s.unmarkedCount = 0 then .ok () else .error (.unmarkedLabels s.unmarkedCount),
        { s with finished := true }.builder id
          (journal ++ (s.labels.flatMap s.patches).toArray)) := by
  have hstart : { s.builder id journal with finished := true } = s.patched id journal [] := by
    have : s.wordAmong? [] = fun _ ↦ none := by
      funext l
      simp [wordAmong?]
    have hvalue : (Cell.value fun _ : L ↦ none) = Cell.base := by
      funext cell
      simp [Cell.value]
    rw [patched, this, hvalue, builder, words_of_unfinished hf]
  have hfold := foldl_patchSlot_patched s id journal [] s.labels hs.nodup
  rw [Builder.finish, finished_builder, hf, if_neg Bool.false_ne_true, unmarkedCount_builder]
  refine congrArg (Prod.mk _) ?_
  rw [hstart, ← hs.patched_labels]
  simpa [builder] using hfold

end Sketch

end Dcpu16
