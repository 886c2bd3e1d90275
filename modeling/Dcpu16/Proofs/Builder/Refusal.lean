import Dcpu16.Proofs.Builder.Agreement
import Dcpu16.Proofs.Builder.History
import Dcpu16.Proofs.Except

/-!
# Refusals

A builder refuses a request for reasons that it checks in a fixed order, and for the first of them
that applies.  All that they depend on is a `Standing`: whether the builder is finished, which
labels are its own, which of them are marked, and how many words there are.  A standing can be read
off the state of a builder, and also off what was said to it since it was fresh, and both are the
same (`Builder.standing_after`).

A request that is refused changes nothing, with one exception: finishing an image in which labels
have no address is done and then complained about.  Main statement: `Builder.refusals_after`.
-/

namespace Dcpu16

/-- What it depends on whether a request is refused. -/
structure Standing where
  /-- Whether the builder is finished. -/
  closed : Bool
  /-- Whether a label is one of the builder. -/
  owns : Label → Bool
  /-- Whether a label has an address. -/
  isMarked : Label → Bool
  /-- The address of the next word. -/
  position : Nat
  /-- The number of labels without address. -/
  unmarked : Nat

namespace Standing

/-- The reasons to refuse a request, each with whether it applies, in the order in which they
count. -/
def objections (standing : Standing) (request : Request Label) : List (Bool × BuildError) :=
  let finished := (standing.closed, BuildError.finished)
  let foreign := (request.labels.any fun l ↦ !standing.owns l, BuildError.foreignLabel)
  match request with
  | .define => [finished]
  | .mark l =>
    [finished, foreign, (standing.isMarked l, .alreadyMarked),
      (0xFFFF < standing.position, .addressOverflow standing.position)]
  | .address _ | .referenceCount _ => [foreign]
  | .basic op _ _ => [finished, (!op.isBasic, .extendedArity), foreign]
  | .extended op _ => [finished, (op.isBasic, .basicArity), foreign]
  | .word _ count => [(standing.closed && count != 0, .finished)]
  | .addressWord _ => [finished, foreign]
  | .finish => [finished, (standing.unmarked != 0, .unmarkedLabels standing.unmarked)]

/-- The first of some reasons that applies, if there is any. -/
def firstOf : List (Bool × BuildError) → Option BuildError
  | [] => none
  | (applies, e) :: objections => if applies then some e else firstOf objections

def refusal? (standing : Standing) (request : Request Label) : Option BuildError :=
  firstOf (standing.objections request)

end Standing

namespace Builder

def isMarked (b : Builder) (l : Label) : Bool := (b.slot? l).any fun slot ↦ slot.address?.isSome

def standing (b : Builder) : Standing where
  closed := b.finished
  owns := b.owns
  isMarked := b.isMarked
  position := b.words.size
  unmarked := b.unmarkedCount

/-- The labels that a builder gives away while it answers requests, in order. -/
def given (b : Builder) : List (Request Label) → List Label
  | [] => []
  | request :: requests =>
    Reply.defined (b.answer request).1 ++ (b.answer request).2.given requests

end Builder

/-- The standing of a builder by what was said to it since it was fresh: it is finished if it was
asked to finish, its labels are those that it has given away, and of these the ones with an address
are those for which a request to mark them was accepted. -/
def Standing.ofHistory (id : UInt32) (requests : List (Request Label)) : Standing where
  closed := .finish ∈ requests
  owns l := l ∈ (Builder.fresh id).given requests
  isMarked l := .mark l ∈ (Builder.fresh id).accepted requests
  position := (((Builder.fresh id).accepted requests).flatMap Request.cells).length
  unmarked := ((Builder.fresh id).given requests).countP fun l ↦
    .mark l ∉ (Builder.fresh id).accepted requests

/-- What can be said about the refusals of a builder `b` that was fresh before some requests. -/
structure Builder.Refusals (id : UInt32) (requests : List (Request Label)) (b : Builder) :
    Prop where
  /-- What is checked when a request comes is what has been said before. -/
  standing : b.standing = .ofHistory id requests
  /-- A request is refused exactly for the first reason that applies. -/
  refused (request : Request Label) (e : BuildError) :
    (b.answer request).1 = .error e ↔ b.standing.refusal? request = some e
  /-- A refusal changes nothing, except for the one about labels without address, -/
  unchanged (request : Request Label) (e : BuildError) : (b.answer request).1 = .error e →
    (∀ count, e ≠ .unmarkedLabels count) → (b.answer request).2 = b
  /-- which comes from finishing only, when the image has been finished all the same. -/
  complaint (request : Request Label) (count : Nat) :
    (b.answer request).1 = .error (.unmarkedLabels count) →
      request = .finish ∧ b.finished = false ∧ (b.answer request).2.finished = true
  /-- From then on nothing changes any more. -/
  closed (later : List (Request Label)) : .finish ∈ requests → b.after later = b

namespace Builder

variable {b : Builder} {request : Request Label} {e : BuildError}

/-! ## Refusals by the state -/

theorem finished_write (b : Builder) (cell : Cell Label) :
    (b.write cell).finished = b.finished := by
  rw [write]
  cases cell.label? <;> rfl

/-- Words that depend on no label are all written, or none is. -/
theorem emitCells_replicate (b : Builder) (w : UInt16) (count : Nat) :
    (b.emitCells (List.replicate count ⟨w, none⟩)).1 =
      if b.finished && count != 0 then .error .finished else .ok () := by
  induction count generalizing b with
  | zero => simp [emitCells]
  | succ count ih =>
      rw [List.replicate_succ, emitCells, emitCell]
      cases hf : b.finished with
      | true => rfl
      | false =>
          show ((b.write ⟨w, none⟩).emitCells _).1 = _
          rw [ih, finished_write, hf]
          rfl

/-- What is written goes through two checks: the builder must not be finished, and the labels must
be its own. -/
theorem guarded_eq_error_iff {finished owned : Bool} {b' : Builder} :
    (if finished then (.error .finished, b) else if owned then (.ok (), b')
        else (.error .foreignLabel, b) : Except BuildError Unit × Builder).1 = .error e ↔
      Standing.firstOf [(finished, .finished), (!owned, .foreignLabel)] = some e := by
  cases finished <;> cases owned <;> simp [Standing.firstOf]

/-- What is refused by a guard leaves the builder as it is. -/
theorem guarded_snd_of_error {finished owned : Bool} {b' : Builder}
    (h : (if finished then (.error .finished, b) else if owned then (.ok (), b')
        else (.error .foreignLabel, b) : Except BuildError Unit × Builder).1 = .error e) :
    (if finished then (.error .finished, b) else if owned then (.ok (), b')
        else (.error .foreignLabel, b) : Except BuildError Unit × Builder).2 = b := by
  cases finished with
  | true => rfl
  | false =>
      cases owned with
      | true => cases h
      | false => rfl

/-- An instruction is refused because the image is finished, or else because of a foreign label. -/
theorem emit_eq_error_iff {i : Instruction Label} :
    (b.emit i).1 = .error e ↔
      Standing.firstOf [(b.finished, .finished),
        (i.labels.any fun l ↦ !b.owns l, .foreignLabel)] = some e := by
  rw [← List.not_all_eq_any_not]
  exact guarded_eq_error_iff

/-- A mark is refused for the first of its four reasons that applies. -/
theorem mark_eq_error_iff {l : Label} :
    (b.mark l).1 = .error e ↔
      Standing.firstOf (b.standing.objections (.mark l)) = some e := by
  simp only [mark, Standing.objections, standing, Request.labels, List.any_cons, List.any_nil,
    Bool.or_false, owns, isMarked]
  cases b.finished with
  | true => simp [Standing.firstOf]
  | false =>
      cases b.slot? l with
      | none => simp [Standing.firstOf]
      | some slot =>
          cases ha : slot.address? with
          | some address => simp [Standing.firstOf, ha]
          | none =>
              by_cases hsize : 0xFFFF < b.words.size
              · simp [Standing.firstOf, ha, hsize]
              · simp [Standing.firstOf, ha, hsize]

/-- Asking for what is known about a label is refused if the label is not known. -/
theorem slot?_eq_none_iff {l : Label} :
    Standing.firstOf [([l].any fun l ↦ !b.owns l, .foreignLabel)] = some e ↔
      b.slot? l = none ∧ BuildError.foreignLabel = e := by
  rw [List.any_cons, List.any_nil, Bool.or_false, owns]
  cases b.slot? l <;> simp [Standing.firstOf]

/-- A builder refuses a request for the first reason that applies to its state. -/
theorem answer_eq_error_iff :
    (b.answer request).1 = .error e ↔ b.standing.refusal? request = some e := by
  rw [Standing.refusal?]
  cases request with
  | define =>
      show b.define.1.map _ = _ ↔ _
      simp only [Except.map_eq_error, define, Standing.objections, standing]
      cases b.finished <;> simp [Standing.firstOf]
  | mark l => exact Except.map_eq_error.trans mark_eq_error_iff
  | address l =>
      refine Except.map_eq_error.trans (.trans ?_ slot?_eq_none_iff.symm)
      rw [address?]
      cases b.slot? l <;> simp
  | referenceCount l =>
      refine Except.map_eq_error.trans (.trans ?_ slot?_eq_none_iff.symm)
      rw [referenceCount]
      cases b.slot? l <;> simp
  | basic op left right =>
      show (b.emitBasic op left right).1.map _ = _ ↔ _
      rw [Except.map_eq_error]
      simp only [Standing.objections, standing, Request.labels]
      cases op with
      | basic op =>
          rw [emitBasic, emit_eq_error_iff, Instruction.labels_basic]
          simp [Standing.firstOf, OpCode.isBasic]
      | extended number =>
          rw [emitBasic]
          cases b.finished <;> simp [Standing.firstOf, OpCode.isBasic]
  | extended op operand =>
      show (b.emitExtended op operand).1.map _ = _ ↔ _
      rw [Except.map_eq_error]
      simp only [Standing.objections, standing, Request.labels]
      cases op with
      | basic op =>
          rw [emitExtended]
          cases b.finished <;> simp [Standing.firstOf, OpCode.isBasic]
      | extended number =>
          rw [emitExtended, emit_eq_error_iff, Instruction.labels_extended]
          simp [Standing.firstOf, OpCode.isBasic]
  | word w count =>
      show (b.emitCells _).1.map _ = _ ↔ _
      rw [Except.map_eq_error, emitCells_replicate]
      simp only [Standing.objections, standing]
      cases (b.finished && count != 0) <;> simp [Standing.firstOf]
  | addressWord l =>
      show (b.emitCell _).1.map _ = _ ↔ _
      simp only [Standing.objections, standing, Request.labels, List.any_cons, List.any_nil,
        Bool.or_false]
      exact Except.map_eq_error.trans guarded_eq_error_iff
  | finish =>
      show b.finish.1.map _ = _ ↔ _
      simp only [Except.map_eq_error, finish, Standing.objections, standing]
      cases b.finished with
      | true => simp [Standing.firstOf]
      | false => by_cases h : b.unmarkedCount = 0 <;> simp [Standing.firstOf, h]

/-! ## Refusals change nothing -/

theorem mark_snd_of_error {l : Label} (h : (b.mark l).1 = .error e) : (b.mark l).2 = b := by
  rw [mark] at h ⊢
  cases hf : b.finished with
  | true => rfl
  | false =>
      rw [hf] at h
      cases hs : b.slot? l with
      | none => rfl
      | some slot =>
          simp only [hs, Bool.false_eq_true, ↓reduceIte] at h ⊢
          split
          · rfl
          · next hmarked =>
            rw [if_neg hmarked] at h
            split
            · rfl
            · next hsize =>
              rw [if_neg hsize] at h
              cases h

/-- A request that is refused leaves the builder as it was, unless it is to finish the image. -/
theorem answer_snd_of_error (h : (b.answer request).1 = .error e)
    (he : ∀ count, e ≠ .unmarkedLabels count) : (b.answer request).2 = b := by
  cases hf : b.finished with
  | true => exact answer_snd_of_finished hf request
  | false =>
      cases request with
      | define =>
          rw [answer, define, hf] at h
          cases h
      | mark l => exact mark_snd_of_error (Except.map_eq_error.mp h)
      | address l => rfl
      | referenceCount l => rfl
      | basic op left right =>
          cases op with
          | basic op => exact guarded_snd_of_error (Except.map_eq_error.mp h)
          | extended number => rfl
      | extended op operand =>
          cases op with
          | basic op => rfl
          | extended number => exact guarded_snd_of_error (Except.map_eq_error.mp h)
      | word w count =>
          have hok : (b.emitCells (List.replicate count ⟨w, none⟩)).1 = .error e :=
            Except.map_eq_error.mp h
          rw [emitCells_replicate, hf] at hok
          cases hok
      | addressWord l => exact guarded_snd_of_error (Except.map_eq_error.mp h)
      | finish =>
          have hfinish : b.finish.1 = .error e := Except.map_eq_error.mp h
          rw [finish, hf] at hfinish
          simp only [Bool.false_eq_true, ↓reduceIte] at hfinish
          split at hfinish
          · cases hfinish
          · exact absurd (Except.error.inj hfinish).symm (he _)

/-- Finishing is final, whatever is asked afterwards. -/
theorem after_of_finished (h : b.finished = true) (requests : List (Request Label)) :
    b.after requests = b := by
  induction requests with
  | nil => rfl
  | cons request requests ih =>
      show (b.answer request).2.after requests = b
      rw [answer_snd_of_finished h, ih]

end Builder

/-! ## The standing by the history -/

/-- The reason that is given is one that applies. -/
theorem Standing.mem_of_firstOf {objections : List (Bool × BuildError)} {e : BuildError}
    (h : firstOf objections = some e) : (true, e) ∈ objections := by
  induction objections with
  | nil => cases h
  | cons objection objections ih =>
      obtain ⟨applies, e'⟩ := objection
      rw [firstOf] at h
      split at h
      · next happlies =>
        rw [happlies, Option.some.inj h]
        exact List.mem_cons_self
      · exact List.mem_cons_of_mem _ (ih h)

/-- Only the request to finish is answered with a complaint about labels without address. -/
theorem Standing.eq_finish_of_refusal? {standing : Standing} {request : Request Label} {count : Nat}
    (h : standing.refusal? request = some (.unmarkedLabels count)) :
    request = .finish ∧ standing.closed = false := by
  cases request with
  | finish =>
      refine ⟨rfl, ?_⟩
      rw [refusal?, objections, firstOf] at h
      split at h
      · cases h
      · next hclosed => exact Bool.eq_false_iff.mpr hclosed
  | _ => have hmem := mem_of_firstOf h; simp [objections] at hmem

namespace Builder

theorem given_append (b : Builder) (before later : List (Request Label)) :
    b.given (before ++ later) = b.given before ++ (b.after before).given later := by
  induction before generalizing b with
  | nil => rfl
  | cons request before ih =>
      rw [List.cons_append, given, given, ih, List.append_assoc]
      rfl

/-- Only the request to define a label is answered with one. -/
theorem defined_answer_of_ne (b : Builder) {request : Request Label} (h : request ≠ .define) :
    Reply.defined (b.answer request).1 = [] := by
  have hdone : ∀ r : Except BuildError Unit,
      Reply.defined (r.map fun _ ↦ (Reply.done : Reply Label)) = [] := by
    intro r
    cases r <;> rfl
  cases request with
  | define => exact absurd rfl h
  | address l => rw [answer]; cases b.address? l <;> rfl
  | referenceCount l => rw [answer]; cases b.referenceCount l <;> rfl
  | _ => exact hdone _

end Builder

namespace Sketch

theorem labels_record (s : Sketch Label) (b : Builder) (request : Request Label) :
    (s.record request (b.answer request).1).labels =
      s.labels ++ Reply.defined (b.answer request).1 := by
  by_cases h : request = .define
  · subst h
    rw [Builder.answer, Builder.define]
    cases b.finished
    · rfl
    · exact (List.append_nil _).symm
  · rw [Builder.defined_answer_of_ne b h, List.append_nil]
    generalize (b.answer request).1 = reply
    rcases reply with e | reply
    · cases request <;> rfl
    · cases request with
      | define => exact absurd rfl h
      | _ => rfl

/-- Only a request to finish finishes, and it always does. -/
theorem finished_record (s : Sketch Label) (request : Request Label)
    (reply : Except BuildError (Reply Label)) :
    (s.record request reply).finished = (s.finished || request = .finish) := by
  rcases reply with e | reply
  · cases request <;> simp [record]
  · cases request <;> cases reply <;> simp [record, write, define, mark]

/-- A label is marked by a request to mark it that is accepted. -/
theorem isSome_address?_record (s : Sketch Label) (request : Request Label)
    (reply : Except BuildError (Reply Label)) (l : Label) :
    ((s.record request reply).address? l).isSome =
      ((s.address? l).isSome || (request = .mark l && reply.isOk)) := by
  rcases reply with e | reply
  · cases request <;> simp [record, Except.isOk, Except.toBool]
  · cases request with
    | mark l' =>
        by_cases h : l = l'
        · subst h
          simp [record, mark, Except.isOk, Except.toBool]
        · simp [record, mark, h, Ne.symm h]
    | define => cases reply <;> simp [record, define, write]
    | _ => simp [record, write]

theorem labels_run (id : UInt32) (requests : List (Request Label)) :
    (run id requests).2.labels = (Builder.fresh id).given requests := by
  induction requests using List.reverseRecOn with
  | nil => rfl
  | append_singleton requests request ih =>
      rw [run_append, Builder.given_append, ← ih, ← run_fst, Builder.given, Builder.given,
        List.append_nil]
      exact labels_record _ _ request

/-- A builder is finished if and only if it was asked to finish. -/
theorem finished_run (id : UInt32) (requests : List (Request Label)) :
    (run id requests).2.finished = decide (.finish ∈ requests) := by
  induction requests using List.reverseRecOn with
  | nil => rfl
  | append_singleton requests request ih =>
      rw [run_append]
      refine (finished_record _ request _).trans ?_
      rw [ih]
      simp [eq_comm]

/-- The labels with an address are those for which a request to mark them was accepted. -/
theorem isSome_address?_run (id : UInt32) (requests : List (Request Label)) (l : Label) :
    ((run id requests).2.address? l).isSome =
      decide (.mark l ∈ (Builder.fresh id).accepted requests) := by
  induction requests using List.reverseRecOn with
  | nil => rfl
  | append_singleton requests request ih =>
      rw [run_append, Builder.accepted_append, ← run_fst, follow, Builder.accepted]
      have hrecord := isSome_address?_record (run id requests).2 request
        ((run id requests).1.answer request).1 l
      generalize (run id requests).1.answer request = answer at hrecord ⊢
      obtain ⟨reply, b⟩ := answer
      refine hrecord.trans ?_
      rw [ih]
      cases reply with
      | error e => simp [Builder.accepted, Except.isOk, Except.toBool]
      | ok reply => simp [Builder.accepted, Except.isOk, Except.toBool, eq_comm]

end Sketch

namespace Builder

/-- What counts for refusals is what has been said before. -/
theorem standing_after (id : UInt32) (requests : List (Request Label)) :
    ((fresh id).after requests).standing = .ofHistory id requests := by
  have h := Sketch.ofHistory_run id requests
  have hlabels := Sketch.labels_run id requests
  have hmarked := Sketch.isSome_address?_run id requests
  obtain ⟨journal, hb⟩ := h.eq_builder
  rw [standing, Standing.ofHistory]
  congr 1
  · rw [hb, Sketch.finished_builder, Sketch.finished_run]
  · funext l
    rw [hb, ← hlabels]
    by_cases hl : l ∈ (Sketch.run id requests).2.labels
    · have howns := Sketch.owns_builder hl id journal
      rw [h.owned.handle_eq h.valid hl] at howns
      rw [howns, decide_eq_true hl]
    · rw [h.owned.owns_eq_false hl, decide_eq_false hl]
  · funext l
    rw [← hmarked]
    by_cases hl : l ∈ (Sketch.run id requests).2.labels
    · rw [isMarked, h.slot?_eq hl]
      simp [Sketch.slot, Sketch.word?]
    · have haddress : (Sketch.run id requests).2.address? l = none :=
        Option.eq_none_iff_forall_ne_some.mpr fun _ ha ↦ hl (h.valid.marked ha)
      rw [isMarked, hb, h.owned.slot?_eq_none hl, haddress]
      rfl
  · rw [h.length_cells, h.cells]
  · rw [hb, Sketch.unmarkedCount_builder, Sketch.unmarkedCount, hlabels]
    refine List.countP_congr fun l _ ↦ ?_
    rw [← Option.not_isSome, hmarked]
    simp

/-- After any requests, refused ones among them, a builder refuses a request for the first reason
that applies, and stays as it is. -/
theorem refusals_after (id : UInt32) (requests : List (Request Label)) :
    Refusals id requests ((fresh id).after requests) where
  standing := standing_after id requests
  refused _ _ := answer_eq_error_iff
  unchanged _ _ h he := answer_snd_of_error h he
  complaint := by
    intro request count h
    obtain ⟨rfl, hclosed⟩ := Standing.eq_finish_of_refusal? (answer_eq_error_iff.mp h)
    refine ⟨rfl, hclosed, ?_⟩
    have hhistory := Sketch.ofHistory_run id requests
    obtain ⟨journal, hb⟩ := hhistory.eq_builder
    rw [hb] at hclosed ⊢
    show (Sketch.builder _ id journal).finish.2.finished = true
    rw [Sketch.finish_builder hhistory.valid hclosed]
    rfl
  closed := by
    intro later h
    have hclosed : ((fresh id).after requests).standing.closed = decide (.finish ∈ requests) :=
      congrArg Standing.closed (standing_after id requests)
    exact after_of_finished (hclosed.trans (decide_eq_true h)) later

end Builder

end Dcpu16
