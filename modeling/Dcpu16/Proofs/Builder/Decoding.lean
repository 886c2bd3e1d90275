import Dcpu16.Proofs.Builder.History
import Dcpu16.Proofs.Image.Words

/-!
# Reading instructions back

The words of instructions say what they are: the first word of an instruction has the operation and
the fields of its operands, and each field says whether a word of the operand follows.
`Instruction.decodeAll` reads words in this way and knows nothing of labels; it gives instructions
over `Empty`, where each cell is the word that was read.  `Instruction.resolve` is what it should
give for an instruction with labels, once these have addresses.

Main statement: `Builder.decode_image`, by which the image of any instructions is read back as just
these instructions.
-/

namespace Dcpu16

/-! ## Words with fields -/

/-- The number that some bits of a word make, the first of which is bit `low`. -/
def bits (word : UInt16) (low count : Nat) : Nat :=
  (word.toBitVec.extractLsb' low count).toNat

theorem bits_lt (word : UInt16) (low : Nat) : bits word low 6 < 64 := BitVec.isLt _

namespace Operand

/-- Whether a field says that a word of the operand follows. -/
def takesWord (field : Nat) : Bool :=
  (0x10 ≤ field && field ≤ 0x17) || field == 0x1E || field == 0x1F

/-- The operand of a field that no word follows. -/
def ofField? (field : Nat) : Option (Operand Empty) :=
  if field < 0x08 then Register.all[field]?.map .register
  else if field < 0x10 then Register.all[field - 0x08]?.map .indirect
  else if field < 0x20 then Special.all[field - 0x18]?.map .special
  else some (.literal ⟨(field - 0x20).toUInt16, none⟩)

/-- The operand of a field and the word that follows. -/
def ofFieldAndWord? (field : Nat) (word : UInt16) : Option (Operand Empty) :=
  if field = 0x1E then some (.absolute ⟨word, none⟩)
  else if field = 0x1F then some (.literal ⟨word, none⟩)
  else Register.all[field - 0x10]?.map fun r ↦ .indexed r ⟨word, none⟩

/-- Reads an operand of which the field is known, and returns the words that it does not use. -/
def decode (field : Nat) (rest : List UInt16) : Option (Operand Empty × List UInt16) :=
  if takesWord field then
    match rest with
    | [] => none
    | word :: rest => (ofFieldAndWord? field word).map fun operand ↦ (operand, rest)
  else (ofField? field).map fun operand ↦ (operand, rest)

theorem length_decode {field : Nat} {rest rest' : List UInt16} {operand : Operand Empty}
    (h : decode field rest = some (operand, rest')) : rest'.length ≤ rest.length := by
  unfold decode at h
  split at h
  · cases rest with
    | nil => exact nomatch h
    | cons word rest =>
        obtain ⟨_, _, heq⟩ := Option.map_eq_some_iff.mp h
        rw [← (Prod.mk.inj heq).2]
        exact Nat.le_succ _
  · obtain ⟨_, _, heq⟩ := Option.map_eq_some_iff.mp h
    exact Nat.le_of_eq (congrArg List.length (Prod.mk.inj heq).2.symm)

end Operand

namespace Instruction

/-- Reads an instruction and returns the words that it does not use. -/
def decode : List UInt16 → Option (Instruction Empty × List UInt16)
  | [] => none
  | word :: rest =>
    if bits word 0 4 = 0 then do
      let (a, rest) ← Operand.decode (bits word 10 6) rest
      return (.extended ⟨bits word 4 6, bits_lt word 4⟩ a, rest)
    else do
      let op ← BasicOp.ofCode? (bits word 0 4)
      let (a, rest) ← Operand.decode (bits word 4 6) rest
      let (b, rest) ← Operand.decode (bits word 10 6) rest
      return (.basic op a b, rest)

/-- An instruction takes at least one word, so that decoding comes to an end. -/
theorem length_decode_lt {words rest : List UInt16} {i : Instruction Empty}
    (h : decode words = some (i, rest)) : rest.length < words.length := by
  cases words with
  | nil => exact nomatch h
  | cons word words =>
      rw [decode] at h
      split at h
      · obtain ⟨⟨a, rest₁⟩, ha, h⟩ := Option.bind_eq_some_iff.mp h
        rw [← (Prod.mk.inj (Option.some.inj h)).2]
        exact Nat.lt_succ_of_le (Operand.length_decode ha)
      · obtain ⟨op, -, h⟩ := Option.bind_eq_some_iff.mp h
        obtain ⟨⟨a, rest₁⟩, ha, h⟩ := Option.bind_eq_some_iff.mp h
        obtain ⟨⟨b, rest₂⟩, hb, h⟩ := Option.bind_eq_some_iff.mp h
        rw [← (Prod.mk.inj (Option.some.inj h)).2]
        have := Operand.length_decode ha
        have := Operand.length_decode hb
        rw [List.length_cons]
        omega

def decodeAll (words : List UInt16) : Option (List (Instruction Empty)) :=
  if words = [] then some []
  else
    match _h : decode words with
    | none => none
    | some (i, rest) => (decodeAll rest).map (i :: ·)
termination_by words.length
decreasing_by exact length_decode_lt (by assumption)

/-- A stream is decoded from its first instruction on. -/
theorem decodeAll_of_decode {words rest : List UInt16} {i : Instruction Empty}
    (h : decode words = some (i, rest)) : decodeAll words = (decodeAll rest).map (i :: ·) := by
  have hne : words ≠ [] := by
    rintro rfl
    exact nomatch h
  rw [decodeAll.eq_def words, if_neg hne]
  split
  · next hnone => exact nomatch h.symm.trans hnone
  · next hsome =>
    obtain ⟨rfl, rfl⟩ := Prod.mk.inj (Option.some.inj (h.symm.trans hsome))
    rfl

end Instruction

/-! ## Instructions without labels -/

section Resolve

variable {L : Type} (address : L → UInt16)

/-- The word of a cell where the labels have addresses. -/
def Cell.resolved (cell : Cell L) : UInt16 :=
  match cell.label? with
  | none => cell.base
  | some l => cell.base + address l

def Operand.resolve : Operand L → Operand Empty
  | .register r => .register r
  | .indirect r => .indirect r
  | .indexed r cell => .indexed r ⟨cell.resolved address, none⟩
  | .special s => .special s
  | .absolute cell => .absolute ⟨cell.resolved address, none⟩
  | .literal cell => .literal ⟨cell.resolved address, none⟩

def Instruction.resolve : Instruction L → Instruction Empty
  | .basic op a b => .basic op (a.resolve address) (b.resolve address)
  | .extended number a => .extended number (a.resolve address)

/-! ## Reading back what was written -/

/-- A small number is read back from the field that it is packed into. -/
theorem Operand.decode_short {base : UInt16} (h : base.toNat ≤ 0x1F) (rest : List UInt16) :
    Operand.decode (0x20 + base.toNat) rest = some (.literal ⟨base, none⟩, rest) := by
  have htakes : takesWord (0x20 + base.toNat) = false := by
    simp [takesWord]
    omega
  have hfield : ofField? (0x20 + base.toNat) = some (.literal ⟨base, none⟩) := by
    rw [ofField?, if_neg (by omega), if_neg (by omega), if_neg (by omega), Nat.add_sub_cancel_left]
    exact congrArg (fun w ↦ some (Operand.literal ⟨w, none⟩)) UInt16.ofNat_toNat
  unfold decode
  rw [htakes, hfield]
  rfl

/-- The field of an operand tells whether a word follows, and together they tell the operand. -/
theorem Operand.decode_field (operand : Operand L) (rest : List UInt16) :
    Operand.decode operand.field
        (operand.trailing?.toList.map (Cell.resolved address) ++ rest) =
      some (operand.resolve address, rest) := by
  cases operand with
  | register r => cases r <;> rfl
  | indirect r => cases r <;> rfl
  | indexed r cell => cases r <;> rfl
  | special s => cases s <;> rfl
  | absolute cell => rfl
  | literal cell =>
      by_cases h : cell.isShort
      · have hlabel := Cell.label?_eq_none_of_isShort h
        have hle : cell.base.toNat ≤ 0x1F := by
          simp only [Cell.isShort, Bool.and_eq_true, decide_eq_true_eq] at h
          exact h.2
        simp only [field, trailing?, h, ↓reduceIte, Option.toList_none, List.map_nil,
          List.nil_append, resolve, Cell.resolved, hlabel]
        exact decode_short hle rest
      · simp only [field, trailing?, h, Bool.false_eq_true, ↓reduceIte]
        rfl

/-- An instruction is its first word, and then the words that its operands need. -/
theorem Instruction.cells_eq (i : Instruction L) :
    i.cells = ⟨i.word, none⟩ :: i.operands.flatMap fun operand ↦ operand.trailing?.toList := by
  rw [cells, List.filterMap_eq_flatMap_toList]

/-- The first word has room for the operation and the fields, and none of them covers another. -/
theorem Instruction.bits_word_basic (op : BasicOp) (a b : Operand L) :
    bits (word (.basic op a b)) 0 4 = op.code ∧ bits (word (.basic op a b)) 4 6 = a.field ∧
      bits (word (.basic op a b)) 10 6 = b.field := by
  have hop := op.code_lt
  have ha := a.field_lt
  have hb := b.field_lt
  simp only [bits, BitVec.extractLsb'_toNat, UInt16.toNat_toBitVec, toNat_word_basic]
  omega

/-- The fields of an extended instruction are found again in its first word. -/
theorem Instruction.bits_word_extended (number : Fin 64) (a : Operand L) :
    bits (word (.extended number a)) 0 4 = 0 ∧
      bits (word (.extended number a)) 4 6 = number.val ∧
      bits (word (.extended number a)) 10 6 = a.field := by
  have hnumber := number.isLt
  have ha := a.field_lt
  simp only [bits, BitVec.extractLsb'_toNat, UInt16.toNat_toBitVec, toNat_word_extended]
  omega

/-- Decoding the words of an instruction gives the instruction and leaves the rest of the stream
alone. -/
theorem Instruction.decode_cells (i : Instruction L) (rest : List UInt16) :
    Instruction.decode (i.cells.map (Cell.resolved address) ++ rest) =
      some (i.resolve address, rest) := by
  rw [cells_eq, List.map_cons, List.cons_append]
  cases i with
  | basic op a b =>
      obtain ⟨hcode, hleft, hright⟩ := bits_word_basic op a b
      simp only [decode, Cell.resolved, hcode, hleft, hright, BasicOp.ofCode?_code, operands,
        List.flatMap_cons, List.flatMap_nil, List.append_nil, List.map_append, List.append_assoc]
      rw [if_neg (Nat.ne_of_gt op.code_pos)]
      simp only [Option.bind_eq_bind, Option.bind_some]
      rw [Operand.decode_field address a, Option.bind_some, Operand.decode_field address b]
      rfl
  | extended number a =>
      obtain ⟨hcode, hnumber, hfield⟩ := bits_word_extended number a
      simp only [decode, Cell.resolved, hcode, hnumber, hfield, operands, List.flatMap_cons,
        List.flatMap_nil, List.append_nil]
      rw [if_pos trivial, Operand.decode_field address a]
      rfl

/-- Instructions are read back from their words, one after the other. -/
theorem Instruction.decodeAll_cells (is : List (Instruction L)) :
    Instruction.decodeAll ((is.flatMap Instruction.cells).map (Cell.resolved address)) =
      some (is.map (Instruction.resolve address)) := by
  induction is with
  | nil =>
      rw [decodeAll]
      rfl
  | cons i is ih =>
      rw [List.flatMap_cons, List.map_append, decodeAll_of_decode (decode_cells address i _), ih]
      rfl

end Resolve

/-! ## Images of instructions -/

def Request.instruction? {L : Type} : Request L → Option (Instruction L)
  | .basic (.basic op) a b => some (.basic op a b)
  | .extended (.extended number) a => some (.extended number a)
  | _ => none

/-- Whether a request asks for words that are no instruction. -/
def Request.isData {L : Type} : Request L → Bool
  | .word _ _ | .addressWord _ => true
  | _ => false

namespace Builder

def addressOf (b : Builder) (l : Label) : UInt16 := ((b.slot? l).bind Slot.address?).getD 0

/-- The image that is finished after some requests to a fresh builder. -/
def image (id : UInt32) (requests : List (Request Label)) : List UInt8 :=
  Image.bytes ((fresh id).after requests).finish.2.words.toList

/-- The instructions that a fresh builder writes on some requests. -/
def written (id : UInt32) (requests : List (Request Label)) : List (Instruction Label) :=
  ((fresh id).accepted requests).filterMap Request.instruction?

/-- What these instructions mean once the labels have addresses. -/
def meaning (id : UInt32) (requests : List (Request Label)) : List (Instruction Empty) :=
  (written id requests).map (Instruction.resolve ((fresh id).after requests).finish.2.addressOf)

/-- Requests that write nothing but instructions and that mark all labels. -/
structure IsCode (id : UInt32) (requests : List (Request Label)) : Prop where
  instructions : ∀ request ∈ requests, request.isData = false
  marked : ((fresh id).after requests).finish.1 = .ok ()

theorem mem_of_mem_accepted {b : Builder} {requests : List (Request Label)}
    {request : Request Label} (h : request ∈ b.accepted requests) : request ∈ requests := by
  induction requests generalizing b with
  | nil => exact h
  | cons r requests ih =>
      rw [accepted] at h
      split at h
      · rcases List.mem_cons.mp h with rfl | h
        · exact List.mem_cons_self
        · exact List.mem_cons_of_mem _ (ih h)
      · exact List.mem_cons_of_mem _ (ih h)

/-- If only instructions are written, the cells are those of the instructions. -/
theorem IsCode.cells_eq {id : UInt32} {requests : List (Request Label)} (h : IsCode id requests) :
    ((fresh id).accepted requests).flatMap Request.cells =
      (written id requests).flatMap Instruction.cells := by
  have hcells : ∀ request ∈ (fresh id).accepted requests,
      request.cells = (request.instruction?.toList).flatMap Instruction.cells := by
    intro request hr
    have hdata := h.instructions request (mem_of_mem_accepted hr)
    cases request with
    | word w count => exact nomatch hdata
    | addressWord l => exact nomatch hdata
    | basic op a b =>
        cases op with
        | basic op => exact (List.append_nil _).symm
        | extended number => rfl
    | extended op a =>
        cases op with
        | basic op => rfl
        | extended number => exact (List.append_nil _).symm
    | _ => rfl
  rw [written, List.filterMap_eq_flatMap_toList, List.flatMap_assoc, List.flatMap_def,
    List.flatMap_def, List.map_congr_left hcells]

end Builder

/-- The finished image of a history, told of its sketch. -/
structure Sketch.Finishes (s : Sketch Label) (id : UInt32) (requests : List (Request Label)) :
    Prop extends s.OfHistory id requests where
  words : ((Builder.fresh id).after requests).finish.2.words.toList =
    s.cells.map (Cell.value s.word?)
  /-- All labels have addresses. -/
  address {l : Label} : l ∈ s.labels →
    ((Builder.fresh id).after requests).finish.2.slot? l = some (s.slot l) ∧ (s.word? l).isSome

/-- If an image can be finished, then all labels of its sketch have addresses. -/
theorem Sketch.finishes_run {id : UInt32} {requests : List (Request Label)}
    (h : ((Builder.fresh id).after requests).finish.1 = .ok ()) :
    (run id requests).2.Finishes id requests := by
  have hs := ofHistory_run id requests
  generalize (run id requests).2 = s at hs
  obtain ⟨journal, hb⟩ := hs.eq_builder
  have hf : s.finished = false := by
    by_contra hf
    rw [hb, Builder.finish, finished_builder, if_pos (Bool.not_eq_false _ ▸ hf)] at h
    cases h
  have hfinish := finish_builder hs.valid hf id journal
  rw [hb, hfinish] at h
  have hcount : s.unmarkedCount = 0 := by
    by_contra hne
    rw [if_neg hne] at h
    cases h
  refine ⟨hs, ?_, fun {l} hl ↦ ⟨?_, ?_⟩⟩
  · rw [hb, hfinish]
    rfl
  · have hslot := slot?_builder (s := { s with finished := true }) hl id
      (journal ++ (s.labels.flatMap s.patches).toArray)
    rw [hb, hfinish]
    have hhandle : { s with finished := true }.handle id l = l := hs.owned.handle_eq hs.valid hl
    rwa [hhandle] at hslot
  · rw [word?, Option.isSome_map, Option.isSome_iff_ne_none]
    exact unmarkedCount_eq_zero.mp hcount l hl

/-- The address in the sketch is the one that the finished builder gives. -/
theorem Sketch.Finishes.word?_eq {s : Sketch Label} {id : UInt32}
    {requests : List (Request Label)} (h : s.Finishes id requests) {l : Label}
    (hl : l ∈ s.labels) :
    s.word? l = some (((Builder.fresh id).after requests).finish.2.addressOf l) := by
  obtain ⟨hslot, hsome⟩ := h.address hl
  obtain ⟨address, ha⟩ := Option.isSome_iff_exists.mp hsome
  rw [Builder.addressOf, hslot, Option.bind_some, slot, ha, Option.getD_some]

/-- The word of a cell in the image has the address of its label added. -/
theorem Sketch.Finishes.value_eq {s : Sketch Label} {id : UInt32}
    {requests : List (Request Label)} (h : s.Finishes id requests) {cell : Cell Label}
    (hc : cell ∈ s.cells) : cell.value s.word? =
      cell.resolved ((Builder.fresh id).after requests).finish.2.addressOf := by
  rw [Cell.resolved, Cell.value]
  cases hl : cell.label? with
  | none => rfl
  | some l => rw [Option.bind_some, h.word?_eq (h.valid.mentioned hc hl)]

namespace Builder

variable {id : UInt32} {requests : List (Request Label)}

theorem IsCode.address?_eq (h : IsCode id requests) {i : Instruction Label}
    (hi : i ∈ written id requests) {l : Label} (hl : l ∈ i.labels) :
    ((fresh id).after requests).finish.2.address? l =
      .ok (some (((fresh id).after requests).finish.2.addressOf l)) := by
  have hs := Sketch.finishes_run h.marked
  rw [i.labels_eq, List.mem_filterMap] at hl
  obtain ⟨cell, hc, hcl⟩ := hl
  have hmem : cell ∈ (Sketch.run id requests).2.cells := by
    rw [hs.cells, h.cells_eq]
    exact List.mem_flatMap.mpr ⟨i, hi, hc⟩
  have hlabel := hs.valid.mentioned hmem hcl
  have hword := hs.word?_eq hlabel
  rw [address?, (hs.address hlabel).1]
  exact congrArg Except.ok hword

/-- Decoding the image gives the instructions with addresses in place of labels. -/
theorem IsCode.decode_image_eq (h : IsCode id requests) :
    (Image.words? (image id requests)).bind Instruction.decodeAll = some (meaning id requests) := by
  have hs := Sketch.finishes_run h.marked
  rw [image, Image.words?_bytes, Option.bind_some, hs.words,
    List.map_congr_left fun cell hc ↦ hs.value_eq hc, hs.cells, h.cells_eq]
  exact Instruction.decodeAll_cells _ _

end Builder

/-- Instructions are read back from the image that a builder makes of them, where each label in them
has an address.  So instructions that mean something else have another image. -/
theorem Builder.decode_image (id : UInt32) (requests : List (Request Label))
    (h : IsCode id requests) :
    (∀ i ∈ written id requests, ∀ l ∈ i.labels, ((fresh id).after requests).finish.2.address? l =
      .ok (some (((fresh id).after requests).finish.2.addressOf l))) ∧
    (Image.words? (image id requests)).bind Instruction.decodeAll = some (meaning id requests) ∧
    ∀ id' requests', IsCode id' requests' → meaning id requests ≠ meaning id' requests' →
      image id requests ≠ image id' requests' := by
  refine ⟨fun i hi l hl ↦ h.address?_eq hi hl, h.decode_image_eq, ?_⟩
  intro id' requests' h' hne himage
  apply hne
  have hdecode := h.decode_image_eq
  rw [himage, h'.decode_image_eq] at hdecode
  exact (Option.some.inj hdecode).symm

/-- A label in front of which there are four words.  What is added to it wraps around to a number
that would fit in a field, which does not mislead the reader. -/
theorem Builder.decode_image_forward :
    IsCode 0 [.define, .basic (.basic .set) (.indexed .i ⟨2, some ⟨0, 0⟩⟩) (.literal ⟨0x1F, none⟩),
      .extended OpCode.jsr (.literal ⟨0xFFFF, some ⟨0, 0⟩⟩), .mark ⟨0, 0⟩] ∧
    (Image.words? (image 0 [.define,
      .basic (.basic .set) (.indexed .i ⟨2, some ⟨0, 0⟩⟩) (.literal ⟨0x1F, none⟩),
      .extended OpCode.jsr (.literal ⟨0xFFFF, some ⟨0, 0⟩⟩), .mark ⟨0, 0⟩])).bind
        Instruction.decodeAll =
      some [.basic .set (.indexed .i ⟨6, none⟩) (.literal ⟨0x1F, none⟩),
        .extended 1 (.literal ⟨3, none⟩)] := by
  have h : IsCode 0 [.define,
      .basic (.basic .set) (.indexed .i ⟨2, some ⟨0, 0⟩⟩) (.literal ⟨0x1F, none⟩),
      .extended OpCode.jsr (.literal ⟨0xFFFF, some ⟨0, 0⟩⟩), .mark ⟨0, 0⟩] :=
    ⟨by decide, by rfl⟩
  exact ⟨h, (decode_image _ _ h).2.1.trans (by rfl)⟩

end Dcpu16
