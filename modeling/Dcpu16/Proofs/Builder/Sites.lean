import Dcpu16.Proofs.Builder.History
import Dcpu16.Proofs.Image.Words
import Mathlib.Data.List.Nodup
import Mathlib.Data.List.Perm.Basic

/-!
# Sites

The words of an image that depend on labels are known by the offsets of their bytes, and a mistake
in these would spoil other words without any complaint.  `Builder.WellFormed` says that there is
none: all offsets are those of words in the image, and no two are the same.  It holds after any
requests, and it is what in-place patching needs: `Builder.finishIn?` goes through the labels and
their offsets in any order and gives up at an offset that is not in the image, which never happens,
and the outcome is that of `Builder.finish` (`Builder.WellFormed.finishIn?_eq`).  Main statement:
`Builder.sound_after`.
-/

namespace Dcpu16

/-- The offsets of the words that depend on a label, in bytes. -/
def Slot.offsets (slot : Slot) : List Nat := slot.sites.toList.map (2 * ·)

/-- The number of words in front of a request's words that never depend on a label: the first word
of an instruction, and words that are written as they are. -/
def Request.plainCount {L : Type} : Request L → Nat
  | .basic _ _ _ | .extended _ _ => 1
  | .word _ count => count
  | _ => 0

namespace Builder

def output (b : Builder) : List UInt8 := Image.bytes b.words.toList

def offsets (b : Builder) : List Nat := b.slots.toList.flatMap Slot.offsets

/-- What is kept about labels fits the image. -/
structure WellFormed (b : Builder) : Prop where
  even_output : 2 ∣ b.output.length
  even : ∀ offset ∈ b.offsets, 2 ∣ offset
  /-- Both bytes of a word that depends on a label are in the image. -/
  bounds : ∀ offset ∈ b.offsets, offset + 2 ≤ b.output.length
  /-- No offset is there twice, neither for one label nor for two. -/
  nodup : b.offsets.Nodup
  /-- No label stands behind the image. -/
  address_le : ∀ slot ∈ b.slots, ∀ address, slot.address? = some address →
    address.toNat ≤ min 0xFFFF b.words.size

/-! ## Checked operations -/

/-- Adds the address of a label in place, at offsets in the order in which they are given. -/
def patchAll? (slot : Slot) (offsets : List Nat) (bytes : List UInt8) : Option (List UInt8) :=
  match slot.address? with
  | none => some bytes
  | some address => offsets.foldlM (Image.patchAt? address) bytes

/-- Finishes the bytes of an image, where the labels are visited in the order `slots` and the
offsets of each of them in the order `order`.  An offset that is not in the image is the end of
it. -/
def finishIn? (b : Builder) (slots : List Slot) (order : Slot → List Nat) :
    Option (Except BuildError Unit × List UInt8) := do
  let output ← slots.foldlM (fun bytes slot ↦ patchAll? slot (order slot) bytes) b.output
  let unmarked := slots.countP fun slot ↦ slot.address?.isNone
  return (if unmarked = 0 then .ok () else .error (.unmarkedLabels unmarked), output)

/-- Writes a word, where a label that is not in the table is the end of it. -/
def write? (b : Builder) (cell : Cell Label) : Option Builder :=
  match cell.label? with
  | none => some (b.write cell)
  | some label => if label.index < b.slots.size then some (b.write cell) else none

/-- What can be relied on when a fresh builder has become `b` by some requests. -/
structure Sound (id : UInt32) (requests : List (Request Label)) (b : Builder) : Prop where
  wellFormed : b.WellFormed
  /-- A word that a request writes for a label is kept for this label, where the output ended. -/
  recorded {before later : List (Request Label)} {request : Request Label} {reply : Reply Label} :
    requests = before ++ request :: later →
    (((fresh id).after before).answer request).1 = .ok reply →
    ∀ k cell l, request.cells[k]? = some cell → cell.label? = some l →
      ∃ slot, b.slot? l = some slot ∧
        ((fresh id).after before).output.length + 2 * k ∈ slot.offsets
  /-- The first words of instructions and the words that are written as they are are kept for no
  label. -/
  plain {before later : List (Request Label)} {request : Request Label} {reply : Reply Label} :
    requests = before ++ request :: later →
    (((fresh id).after before).answer request).1 = .ok reply →
    ∀ k < request.plainCount, ((fresh id).after before).output.length + 2 * k ∉ b.offsets
  /-- An address that is set is never changed. -/
  stable {before later : List (Request Label)} {l : Label} {address : UInt16} :
    requests = before ++ later →
    ((fresh id).after before).address? l = .ok (some address) → b.address? l = .ok (some address)
  /-- Finishing finds every offset in the image, and it does not matter in which order labels and
  offsets are visited. -/
  finish : b.finished = false → ∀ slots order, slots.Perm b.slots.toList →
    (∀ slot ∈ slots, (order slot).Perm slot.offsets) →
    b.finishIn? slots order = some (b.finish.1, b.finish.2.output)
  /-- Writing an instruction finds every label of it in the table. -/
  emit (i : Instruction Label) : (b.emit i).1 = .ok () →
    i.cells.foldlM write? (b.note (.instruction b.words.size i.opCode i.word)) =
      some (b.emit i).2
  /-- The words can be read from the output. -/
  words : Image.words? b.output = some b.words.toList

/-! ## Patching words -/

def addAt (ws : List UInt16) (visit : UInt16 × Nat) : List UInt16 :=
  ws.modify visit.2 (· + visit.1)

/-- What is added where for a label. -/
def visits (slot : Slot) (sites : List Nat) : List (UInt16 × Nat) :=
  match slot.address? with
  | none => []
  | some address => sites.map (address, ·)

/-- Patching changes no length. -/
theorem length_foldl_addAt (ws : List UInt16) (vs : List (UInt16 × Nat)) :
    (vs.foldl addAt ws).length = ws.length := by
  induction vs generalizing ws with
  | nil => rfl
  | cons v vs ih => rw [List.foldl_cons, ih, addAt, List.length_modify]

/-- Words are added one after the other in any order. -/
theorem addAt_comm (ws : List UInt16) (v v' : UInt16 × Nat) :
    addAt (addAt ws v) v' = addAt (addAt ws v') v := by
  by_cases h : v.2 = v'.2
  · have hadd : (fun w : UInt16 ↦ w + v.1 + v'.1) = fun w ↦ w + v'.1 + v.1 :=
      funext fun w ↦ by rw [UInt16.add_assoc, UInt16.add_comm v.1, ← UInt16.add_assoc]
    rw [addAt, addAt, addAt, addAt, h, List.modify_modify_eq, List.modify_modify_eq]
    exact congrArg _ hadd
  · exact List.modify_modify_ne _ _ _ h

/-- The order of patches does not matter: additions commute, at one word as at two. -/
theorem foldl_addAt_perm {vs vs' : List (UInt16 × Nat)} (h : vs.Perm vs') (ws : List UInt16) :
    vs.foldl addAt ws = vs'.foldl addAt ws :=
  haveI : RightCommutative addAt := ⟨addAt_comm⟩
  h.foldl_eq ws

theorem words_patch (address : UInt16) (b : Builder) (site : Nat) :
    (patch address b site).words.toList = addAt b.words.toList (address, site) := by
  rw [patch, addAt]
  cases hw : b.words[site]? with
  | none =>
      have hsize : b.words.toList.length ≤ site := by
        rw [Array.length_toList]
        exact Array.getElem?_eq_none_iff.mp hw
      exact (List.modify_eq_self hsize).symm
  | some word =>
      obtain ⟨hlt, rfl⟩ := Array.getElem?_eq_some_iff.mp hw
      have hlt' : site < b.words.toList.length := hlt
      rw [List.modify_eq_take_cons_drop hlt', ← List.set_eq_take_cons_drop _ hlt']
      simp

theorem words_patchSlot (b : Builder) (slot : Slot) :
    (b.patchSlot slot).words.toList =
      (visits slot slot.sites.toList).foldl addAt b.words.toList := by
  rw [patchSlot, visits]
  cases slot.address? with
  | none => rfl
  | some address =>
      simp only [← Array.foldl_toList]
      generalize slot.sites.toList = sites
      induction sites generalizing b with
      | nil => rfl
      | cons site sites ih =>
          rw [List.foldl_cons, List.map_cons, List.foldl_cons, ih, words_patch]

/-- The words after labels are patched, as additions at the sites of all of them. -/
theorem words_foldl_patchSlot (slots : List Slot) (b : Builder) :
    (slots.foldl patchSlot b).words.toList =
      (slots.flatMap fun slot ↦ visits slot slot.sites.toList).foldl addAt b.words.toList := by
  induction slots generalizing b with
  | nil => rfl
  | cons slot slots ih =>
      rw [List.foldl_cons, List.flatMap_cons, List.foldl_append, ih, words_patchSlot]

/-! ## Patching bytes -/

/-- Offsets at which words can be found in the bytes of a number of words. -/
def Within (size : Nat) (offsets : List Nat) : Prop :=
  ∀ offset ∈ offsets, 2 ∣ offset ∧ offset + 2 ≤ 2 * size

/-- Patching bytes in place never gives up at offsets of words, and does to the bytes what additions
do to the words. -/
theorem foldlM_patchAt? (address : UInt16) (ws : List UInt16) {offsets : List Nat}
    (h : Within ws.length offsets) :
    offsets.foldlM (Image.patchAt? address) (Image.bytes ws) =
      some (Image.bytes ((offsets.map fun offset ↦ (address, offset / 2)).foldl addAt ws)) := by
  induction offsets generalizing ws with
  | nil => rfl
  | cons offset offsets ih =>
      obtain ⟨⟨i, rfl⟩, hi⟩ := h offset List.mem_cons_self
      have hlength : (addAt ws (address, i)).length = ws.length := List.length_modify ..
      have hrest : Within (addAt ws (address, i)).length offsets := by
        rw [hlength]
        exact fun offset ho ↦ h offset (List.mem_cons_of_mem _ ho)
      have hhalf : 2 * i / 2 = i := by omega
      rw [List.foldlM_cons, Image.patchAt?_bytes (by omega), List.map_cons, List.foldl_cons, hhalf]
      exact ih _ hrest

/-- The offsets of one label can be visited in any order without giving up. -/
theorem patchAll?_bytes (slot : Slot) (ws : List UInt16) {offsets : List Nat}
    (h : Within ws.length offsets) :
    patchAll? slot offsets (Image.bytes ws) =
      some (Image.bytes ((visits slot (offsets.map (· / 2))).foldl addAt ws)) := by
  rw [patchAll?, visits]
  cases slot.address? with
  | none => rfl
  | some address =>
      simp only [List.map_map]
      exact foldlM_patchAt? address ws h

/-- The labels can be visited one after the other without giving up. -/
theorem foldlM_patchAll? (order : Slot → List Nat) (ws : List UInt16) {slots : List Slot}
    (h : ∀ slot ∈ slots, Within ws.length (order slot)) :
    slots.foldlM (fun bytes slot ↦ patchAll? slot (order slot) bytes) (Image.bytes ws) =
      some (Image.bytes
        ((slots.flatMap fun slot ↦ visits slot ((order slot).map (· / 2))).foldl addAt ws)) := by
  induction slots generalizing ws with
  | nil => rfl
  | cons slot slots ih =>
      have hrest : ∀ slot' ∈ slots, Within
          ((visits slot ((order slot).map (· / 2))).foldl addAt ws).length (order slot') := by
        rw [length_foldl_addAt]
        exact fun slot' hs ↦ h slot' (List.mem_cons_of_mem _ hs)
      rw [List.foldlM_cons, patchAll?_bytes slot ws (h slot List.mem_cons_self),
        List.flatMap_cons, List.foldl_append]
      exact ih _ hrest

theorem map_half_offsets (slot : Slot) : slot.offsets.map (· / 2) = slot.sites.toList := by
  have hhalf : ∀ site ∈ slot.sites.toList, ((· / 2) ∘ (2 * ·)) site = site := fun site _ ↦
    Nat.mul_div_cancel_left site (Nat.zero_lt_succ 1)
  rw [Slot.offsets, List.map_map, List.map_congr_left hhalf, List.map_id']

/-- All offsets of a label are those of words in the image. -/
theorem WellFormed.within {b : Builder} (h : b.WellFormed) {slot : Slot}
    (hs : slot ∈ b.slots.toList) {offsets : List Nat} (ho : offsets.Perm slot.offsets) :
    Within b.words.toList.length offsets := by
  intro offset hoff
  have hmem : offset ∈ b.offsets := List.mem_flatMap.mpr ⟨slot, hs, ho.subset hoff⟩
  have hbounds := h.bounds offset hmem
  rw [output, Image.length_bytes] at hbounds
  exact ⟨h.even offset hmem, hbounds⟩

/-- Patching in place in any order finds all offsets and does what `finish` does. -/
theorem WellFormed.finishIn?_eq {b : Builder} (h : b.WellFormed) (hf : b.finished = false)
    {slots : List Slot} {order : Slot → List Nat} (hslots : slots.Perm b.slots.toList)
    (horder : ∀ slot ∈ slots, (order slot).Perm slot.offsets) :
    b.finishIn? slots order = some (b.finish.1, b.finish.2.output) := by
  have hvisits : (slots.flatMap fun slot ↦ visits slot ((order slot).map (· / 2))).Perm
      (b.slots.toList.flatMap fun slot ↦ visits slot slot.sites.toList) := by
    refine hslots.flatMap fun slot hs ↦ ?_
    have hperm := (horder slot hs).map (· / 2)
    rw [map_half_offsets] at hperm
    unfold visits
    cases slot.address? with
    | none => exact .nil
    | some address => exact hperm.map _
  have hbytes := foldlM_patchAll? order b.words.toList fun slot hs ↦
    h.within (hslots.subset hs) (horder slot hs)
  have hcount : slots.countP (fun slot ↦ slot.address?.isNone) = b.unmarkedCount := by
    rw [hslots.countP_eq, Array.countP_toList]
    rfl
  rw [foldl_addAt_perm hvisits] at hbytes
  rw [finishIn?, output, hbytes, finish, hf, if_neg Bool.false_ne_true, ← hcount]
  simp only [Option.bind_eq_bind, Option.bind_some, output, ← Array.foldl_toList,
    words_foldl_patchSlot]
  rfl

/-! ## Labels of instructions -/

theorem lt_size_of_owns {b : Builder} {l : Label} (h : b.owns l) : l.index < b.slots.size := by
  obtain ⟨slot, hslot⟩ := Option.isSome_iff_exists.mp h
  rw [slot?] at hslot
  split at hslot
  · exact (Array.getElem?_eq_some_iff.mp hslot).1
  · cases hslot

theorem size_slots_write (b : Builder) (cell : Cell Label) :
    (b.write cell).slots.size = b.slots.size := by
  rw [write]
  cases cell.label? with
  | none => rfl
  | some l => exact Array.size_modify

/-- If all labels have slots, then checked writing is writing. -/
theorem foldlM_write? (b : Builder) {cells : List (Cell Label)}
    (h : ∀ cell ∈ cells, ∀ l, cell.label? = some l → l.index < b.slots.size) :
    cells.foldlM write? b = some (cells.foldl write b) := by
  induction cells generalizing b with
  | nil => rfl
  | cons cell cells ih =>
      have hcell : b.write? cell = some (b.write cell) := by
        have hlt := h cell List.mem_cons_self
        rw [write?]
        cases hc : cell.label? with
        | none => rfl
        | some l => exact if_pos (hlt l hc)
      rw [List.foldlM_cons, hcell, List.foldl_cons]
      refine ih _ fun c hc l hl ↦ ?_
      rw [size_slots_write]
      exact h c (List.mem_cons_of_mem _ hc) l hl

/-- The labels of an accepted instruction have been checked before its first word is written. -/
theorem foldlM_write?_of_emit {b : Builder} {i : Instruction Label} (h : (b.emit i).1 = .ok ()) :
    i.cells.foldlM write? (b.note (.instruction b.words.size i.opCode i.word)) =
      some (b.emit i).2 := by
  rw [emit] at h ⊢
  split at h
  · cases h
  · next hf =>
    split at h
    · next howns =>
      rw [if_neg hf, if_pos howns]
      refine foldlM_write? _ fun cell hc l hl ↦ lt_size_of_owns (b := b) ?_
      exact List.all_eq_true.mp howns l (i.labels_eq ▸ List.mem_filterMap.mpr ⟨cell, hc, hl⟩)
    · cases h

end Builder

namespace Sketch

/-! ## Offsets of sketches -/

/-- Labels that are marked stand in the image or right behind it. -/
def Within (s : Sketch Label) : Prop :=
  ∀ l address, s.address? l = some address → address ≤ s.cells.length

/-- No request brings an address behind the end of the image. -/
theorem Within.record {s : Sketch Label} (h : s.Within) (request : Request Label)
    (reply : Except BuildError (Reply Label)) : (s.record request reply).Within := by
  intro l address ha
  have hle : s.cells.length ≤ (s.record request reply).cells.length := by
    rw [cells_record, List.length_append]
    exact Nat.le_add_right _ _
  have hkept : s.address? l = some address → address ≤ (s.record request reply).cells.length :=
    fun ha ↦ Nat.le_trans (h l address ha) hle
  rcases reply with e | reply
  · cases request <;> exact hkept ha
  · cases request with
    | mark l' =>
        by_cases hl : l = l'
        · subst hl
          have hself := (Function.update_self l _ _).symm.trans ha
          exact Nat.le_of_eq (Option.some.inj hself).symm
        · exact hkept ((Function.update_of_ne hl _ _).symm.trans ha)
    | define => cases reply <;> exact hkept ha
    | _ => exact hkept ha

theorem within_run (id : UInt32) (requests : List (Request Label)) :
    (run id requests).2.Within := by
  induction requests using List.reverseRecOn with
  | nil => exact fun _ _ h ↦ nomatch h
  | append_singleton requests request ih =>
      rw [run_append]
      exact ih.record request _

theorem slots_builder (s : Sketch Label) (id : UInt32) (journal : Array Event) :
    (s.builder id journal).slots.toList = s.labels.map s.slot := rfl

theorem length_output_builder (s : Sketch Label) (id : UInt32) (journal : Array Event) :
    (s.builder id journal).output.length = 2 * s.cells.length := by
  rw [Builder.output, Image.length_bytes, Array.length_toList, size_words_builder]

theorem mem_offsets_slot {s : Sketch Label} {l : Label} {i : Nat} :
    2 * i ∈ (s.slot l).offsets ↔ ∃ cell, s.cells[i]? = some cell ∧ cell.label? = some l := by
  rw [← mem_sites]
  constructor
  · intro h
    obtain ⟨j, hj, heq⟩ := List.mem_map.mp h
    exact Nat.eq_of_mul_eq_mul_left (Nat.zero_lt_succ 1) heq ▸ hj
  · exact fun h ↦ List.mem_map.mpr ⟨i, h, rfl⟩

/-- Every offset that is kept is that of a cell which depends on a label. -/
theorem exists_of_mem_offsets {s : Sketch Label} {id : UInt32} {journal : Array Event}
    {offset : Nat} (h : offset ∈ (s.builder id journal).offsets) :
    ∃ i cell l, offset = 2 * i ∧ s.cells[i]? = some cell ∧ cell.label? = some l := by
  rw [Builder.offsets, slots_builder, List.mem_flatMap] at h
  obtain ⟨slot, hslot, hoffset⟩ := h
  obtain ⟨l, -, rfl⟩ := List.mem_map.mp hslot
  obtain ⟨i, -, rfl⟩ := List.mem_map.mp hoffset
  obtain ⟨cell, hc, hl⟩ := mem_offsets_slot.mp hoffset
  exact ⟨i, cell, l, rfl, hc, hl⟩

/-- A cell depends on one label at most, so that no site is that of two labels. -/
theorem nodup_offsets_builder {s : Sketch Label} (hs : s.Valid) (id : UInt32)
    (journal : Array Event) : (s.builder id journal).offsets.Nodup := by
  have hdouble : Function.Injective (2 * · : Nat → Nat) := fun i j h ↦
    Nat.eq_of_mul_eq_mul_left (Nat.zero_lt_succ 1) h
  rw [Builder.offsets, slots_builder, List.flatMap_map, List.nodup_flatMap]
  refine ⟨fun l _ ↦ (s.nodup_sites l).map hdouble, hs.nodup.imp fun {l l'} hne ↦ ?_⟩
  intro offset hl hl'
  obtain ⟨i, -, rfl⟩ := List.mem_map.mp hl
  obtain ⟨cell, hc, hcl⟩ := mem_offsets_slot.mp hl
  obtain ⟨cell', hc', hcl'⟩ := mem_offsets_slot.mp hl'
  obtain rfl := Option.some.inj (hc.symm.trans hc')
  exact hne (Option.some.inj (hcl.symm.trans hcl'))

/-- The builder of a valid sketch is well-formed. -/
theorem wellFormed_builder {s : Sketch Label} (hs : s.Valid) (hw : s.Within) (id : UInt32)
    (journal : Array Event) : (s.builder id journal).WellFormed where
  even_output := ⟨_, s.length_output_builder id journal⟩
  even := by
    intro offset ho
    obtain ⟨i, _, _, rfl, _⟩ := exists_of_mem_offsets ho
    exact Nat.dvd_mul_right 2 i
  bounds := by
    intro offset ho
    obtain ⟨i, cell, _, rfl, hc, _⟩ := exists_of_mem_offsets ho
    have hi := (List.getElem?_eq_some_iff.mp hc).1
    rw [length_output_builder]
    omega
  nodup := nodup_offsets_builder hs id journal
  address_le := by
    intro slot hslot address ha
    obtain ⟨l, -, rfl⟩ := List.mem_map.mp (List.mem_toArray.mp hslot)
    obtain ⟨a, hmarked, rfl⟩ := Option.map_eq_some_iff.mp ha
    have hfits := hs.fits hmarked
    have hle := hw l a hmarked
    have htoNat : a.toUInt16.toNat = a := by
      rw [UInt16.toNat_ofNat']
      omega
    rw [htoNat, size_words_builder]
    exact Nat.le_min.mpr ⟨hfits, hle⟩

/-! ## Words that depend on no label -/

/-- The first words of a request depend on no label. -/
theorem label?_of_lt_plainCount {request : Request Label} {k : Nat} {cell : Cell Label}
    (hk : k < request.plainCount) (hc : request.cells[k]? = some cell) : cell.label? = none := by
  have hfirst : ∀ i : Instruction Label, k < 1 → i.cells[k]? = some cell →
      cell.label? = none := by
    intro i hk hc
    obtain rfl : k = 0 := Nat.lt_one_iff.mp hk
    rw [← Option.some.inj hc]
  cases request with
  | basic op a b =>
      cases op with
      | basic op => exact hfirst _ hk hc
      | extended number => exact nomatch hc
  | extended op a =>
      cases op with
      | basic op => exact nomatch hc
      | extended number => exact hfirst _ hk hc
  | word w count =>
      have hmem := List.mem_of_getElem? hc
      rw [List.eq_of_mem_replicate hmem]
  | _ => exact absurd hk (Nat.not_lt_zero k)

/-- A request that is accepted writes the words that it announces. -/
theorem plainCount_le_length {b : Builder} {request : Request Label} {reply : Reply Label}
    (h : (b.answer request).1 = .ok reply) : request.plainCount ≤ request.cells.length := by
  cases request with
  | basic op a b =>
      cases op with
      | basic op => exact Nat.succ_le_succ (Nat.zero_le _)
      | extended number => exact nomatch h
  | extended op a =>
      cases op with
      | basic op => exact nomatch h
      | extended number => exact Nat.succ_le_succ (Nat.zero_le _)
  | word w count => exact Nat.le_of_eq List.length_replicate.symm
  | _ => exact Nat.zero_le _

end Sketch

/-- After any requests, refused ones among them, the offsets that are kept for labels are those of
words in the image, each of them once, and nothing goes wrong with them. -/
theorem Builder.sound_after (id : UInt32) (requests : List (Request Label)) :
    Sound id requests ((fresh id).after requests) := by
  have h := Sketch.ofHistory_run id requests
  obtain ⟨journal, hb⟩ := h.eq_builder
  have hwell : ((fresh id).after requests).WellFormed :=
    hb ▸ Sketch.wellFormed_builder h.valid (Sketch.within_run id requests) id journal
  have hlength : ∀ before : List (Request Label), ((fresh id).after before).output.length =
      2 * ((fresh id).after before).words.size := fun before ↦ by
    rw [output, Image.length_bytes, Array.length_toList]
  exact {
    wellFormed := hwell
    recorded := by
      rintro before later request reply rfl hok k cell l hc hl
      have hcell := h.getElem?_cells hok (List.getElem?_eq_some_iff.mp hc).1
      rw [hc] at hcell
      have hmem := h.valid.mentioned (List.mem_of_getElem? hcell) hl
      refine ⟨_, h.slot?_eq hmem, ?_⟩
      rw [hlength, ← Nat.mul_add]
      exact Sketch.mem_offsets_slot.mpr ⟨cell, hcell, hl⟩
    plain := by
      rintro before later request reply rfl hok k hk hoffset
      have hlt := Nat.lt_of_lt_of_le hk (Sketch.plainCount_le_length hok)
      have hcell := h.getElem?_cells hok hlt
      rw [hb, hlength, ← Nat.mul_add] at hoffset
      obtain ⟨i, cell, l, hi, hc, hl⟩ := Sketch.exists_of_mem_offsets hoffset
      obtain rfl := Nat.eq_of_mul_eq_mul_left (Nat.zero_lt_succ 1) hi
      have hnone := Sketch.label?_of_lt_plainCount hk (hcell.symm.trans hc)
      exact nomatch hl.symm.trans hnone
    stable := by
      rintro before later l address rfl ha
      exact address?_after ha later
    finish hf _ _ hslots horder := hwell.finishIn?_eq hf hslots horder
    emit _ hi := foldlM_write?_of_emit hi
    words := Image.words?_bytes _ }

end Dcpu16
