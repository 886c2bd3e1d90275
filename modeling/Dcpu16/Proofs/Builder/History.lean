import Dcpu16.Proofs.Builder.Refinement
import Mathlib.Data.List.Induction

/-!
# The history of a builder

A builder is what it is because of the requests that it was given, and of those only the ones that
it accepted count.  The sketch of a builder that was fresh at the beginning has the cells of the
accepted requests, one after the other (`Sketch.OfHistory`), so that what a request wrote is found
in the sketch at the place where the builder stood before the request
(`Sketch.OfHistory.getElem?_cells`).  A label that has an address keeps it
(`Builder.address?_after`).
-/

namespace Dcpu16

namespace Builder

/-- A builder to which nothing has been said. -/
def fresh (id : UInt32) : Builder := { id }

/-- The builder after requests were answered one after the other. -/
def after (b : Builder) (requests : List (Request Label)) : Builder :=
  requests.foldl (fun b request ↦ (b.answer request).2) b

def accepted (b : Builder) : List (Request Label) → List (Request Label)
  | [] => []
  | request :: requests =>
    match b.answer request with
    | (.ok _, b) => request :: b.accepted requests
    | (.error _, b) => b.accepted requests

/-- What is accepted later depends on what came before through the builder only. -/
theorem accepted_append (b : Builder) (before later : List (Request Label)) :
    b.accepted (before ++ later) = b.accepted before ++ (b.after before).accepted later := by
  induction before generalizing b with
  | nil => rfl
  | cons request before ih =>
      have hafter : b.after (request :: before) = (b.answer request).2.after before := rfl
      rw [hafter, List.cons_append, accepted, accepted]
      generalize b.answer request = answer
      obtain ⟨reply, b'⟩ := answer
      cases reply with
      | error e => exact ih b'
      | ok reply => exact congrArg (request :: ·) (ih b')

theorem accepted_cons_of_ok {b : Builder} {request : Request Label} {reply : Reply Label}
    (h : (b.answer request).1 = .ok reply) (later : List (Request Label)) :
    b.accepted (request :: later) = request :: (b.answer request).2.accepted later := by
  rw [accepted]
  generalize b.answer request = answer at h
  obtain ⟨_, b'⟩ := answer
  obtain rfl := h
  rfl

end Builder

namespace Sketch

/-! ## The sketch of a history -/

/-- The sketch of a builder that was fresh before some requests. -/
structure OfHistory (s : Sketch Label) (id : UInt32) (requests : List (Request Label)) : Prop where
  valid : s.Valid
  owned : s.Owned id
  eq_builder : ∃ journal, (Builder.fresh id).after requests = s.builder id journal
  /-- The cells are those of the requests that were accepted. -/
  cells : s.cells = ((Builder.fresh id).accepted requests).flatMap Request.cells

/-- A request adds its cells if it is accepted, and no cells if it is refused. -/
theorem cells_record (s : Sketch Label) (request : Request Label)
    (reply : Except BuildError (Reply Label)) :
    (s.record request reply).cells =
      s.cells ++ match reply with | .ok _ => request.cells | .error _ => [] := by
  rcases reply with e | reply
  · cases request <;> simp [record]
  · cases request <;> cases reply <;>
      simp [record, write, define, mark, Request.cells]

theorem run_append (id : UInt32) (requests : List (Request Label)) (request : Request Label) :
    run id (requests ++ [request]) = follow (run id requests) request := by
  rw [run, List.foldl_append]
  rfl

/-- The builder that is kept beside a sketch is the one that the requests lead to. -/
theorem run_fst (id : UInt32) (requests : List (Request Label)) :
    (run id requests).1 = (Builder.fresh id).after requests := by
  have hstart : ∀ state : Builder × Sketch Label,
      (requests.foldl follow state).1 = state.1.after requests := by
    induction requests with
    | nil => exact fun _ ↦ rfl
    | cons request requests ih => exact fun state ↦ ih (follow state request)
  exact hstart _

/-- The cells of a sketch are those of the accepted requests, one after the other. -/
theorem cells_run (id : UInt32) (requests : List (Request Label)) :
    (run id requests).2.cells = ((Builder.fresh id).accepted requests).flatMap Request.cells := by
  induction requests using List.reverseRecOn with
  | nil => rfl
  | append_singleton requests request ih =>
      rw [run_append, Builder.accepted_append, List.flatMap_append, ← ih, ← run_fst]
      have hcells := cells_record (run id requests).2 request ((run id requests).1.answer request).1
      rw [follow, Builder.accepted]
      generalize (run id requests).1.answer request = answer at hcells ⊢
      obtain ⟨reply, b⟩ := answer
      refine hcells.trans ?_
      cases reply <;> simp [Builder.accepted]

/-- Every builder that was fresh once has a sketch. -/
theorem ofHistory_run (id : UInt32) (requests : List (Request Label)) :
    (run id requests).2.OfHistory id requests where
  valid := (follows_run id requests).valid
  owned := (follows_run id requests).owned
  eq_builder := run_fst id requests ▸ (follows_run id requests).eq_builder
  cells := cells_run id requests

section OfHistory

variable {s : Sketch Label} {id : UInt32} {requests : List (Request Label)}

theorem OfHistory.length_cells (h : s.OfHistory id requests) :
    ((Builder.fresh id).after requests).words.size = s.cells.length := by
  obtain ⟨journal, hb⟩ := h.eq_builder
  rw [hb, size_words_builder]

theorem OfHistory.address?_eq (h : s.OfHistory id requests) {l : Label} (hl : l ∈ s.labels) :
    ((Builder.fresh id).after requests).address? l = .ok (s.word? l) := by
  obtain ⟨journal, hb⟩ := h.eq_builder
  have haddress := address?_builder hl id journal
  rwa [h.owned.handle_eq h.valid hl, ← hb] at haddress

theorem OfHistory.slot?_eq (h : s.OfHistory id requests) {l : Label} (hl : l ∈ s.labels) :
    ((Builder.fresh id).after requests).slot? l = some (s.slot l) := by
  obtain ⟨journal, hb⟩ := h.eq_builder
  have hslot := slot?_builder hl id journal
  rwa [h.owned.handle_eq h.valid hl, ← hb] at hslot

/-- What a request wrote is found behind what was there before. -/
theorem OfHistory.getElem?_cells {before later : List (Request Label)} {request : Request Label}
    {reply : Reply Label} (h : s.OfHistory id (before ++ request :: later))
    (hok : (((Builder.fresh id).after before).answer request).1 = .ok reply) {k : Nat}
    (hk : k < request.cells.length) :
    s.cells[((Builder.fresh id).after before).words.size + k]? = request.cells[k]? := by
  have hsize := (ofHistory_run id before).length_cells
  rw [(ofHistory_run id before).cells] at hsize
  rw [h.cells, Builder.accepted_append, Builder.accepted_cons_of_ok hok, List.flatMap_append,
    List.flatMap_cons, hsize, List.getElem?_append_right (Nat.le_add_right _ _),
    Nat.add_sub_cancel_left, List.getElem?_append_left hk]

end OfHistory

/-! ## Addresses are kept -/

/-- A label that has an address can not be marked once more. -/
theorem address?_follow {id : UInt32} {state : Builder × Sketch Label} (h : Follows id state)
    {l : Label} {address : Nat} (ha : state.2.address? l = some address)
    (request : Request Label) : (follow state request).2.address? l = some address := by
  obtain ⟨b, s⟩ := state
  obtain ⟨hs, ho, journal, hb⟩ := h
  obtain rfl : b = s.builder id journal := hb
  change s.Valid at hs
  change s.Owned id at ho
  change s.address? l = some address at ha
  change (s.record request ((s.builder id journal).answer request).1).address? l = some address
  cases request with
  | mark l' =>
      by_cases hl : l' = l
      · subst hl
        have hrefused : ∃ e, ((s.builder id journal).answer (.mark l')).1 = .error e := by
          have hmem := hs.marked ha
          cases hf : s.finished with
          | true => exact ⟨.finished, by simp [Builder.answer, Builder.mark, hf, Except.map]⟩
          | false =>
              have hmark := mark_builder_of_marked hf hmem ha id journal
              rw [ho.handle_eq hs hmem] at hmark
              exact ⟨.alreadyMarked, by rw [Builder.answer, hmark]; rfl⟩
        obtain ⟨e, he⟩ := hrefused
        rw [he]
        exact ha
      · generalize ((s.builder id journal).answer (.mark l')).1 = reply
        cases reply with
        | error e => exact ha
        | ok reply => exact (Function.update_of_ne (Ne.symm hl) _ _).trans ha
  | define =>
      rcases ((s.builder id journal).answer .define).1 with e | (_ | l' | a | n) <;> exact ha
  | finish => exact ha
  | _ =>
      generalize ((s.builder id journal).answer _).1 = reply
      cases reply <;> exact ha

/-- A sketch forgets no address. -/
theorem address?_run {id : UInt32} {before : List (Request Label)} {l : Label} {address : Nat}
    (ha : (run id before).2.address? l = some address) (later : List (Request Label)) :
    (run id (before ++ later)).2.address? l = some address := by
  induction later using List.reverseRecOn with
  | nil => rwa [List.append_nil]
  | append_singleton later request ih =>
      rw [← List.append_assoc, run_append]
      exact address?_follow (follows_run id _) ih request

end Sketch

/-- A label that has an address keeps it, whatever is asked. -/
theorem Builder.address?_after {id : UInt32} {before : List (Request Label)} {l : Label}
    {address : UInt16} (h : ((fresh id).after before).address? l = .ok (some address))
    (later : List (Request Label)) :
    ((fresh id).after (before ++ later)).address? l = .ok (some address) := by
  have hbefore := Sketch.ofHistory_run id before
  have hafter := Sketch.ofHistory_run id (before ++ later)
  by_cases hl : l ∈ (Sketch.run id before).2.labels
  · rw [hbefore.address?_eq hl] at h
    obtain ⟨a, ha, rfl⟩ := Option.map_eq_some_iff.mp (Except.ok.inj h)
    have hkept := Sketch.address?_run ha later
    rw [hafter.address?_eq (hafter.valid.marked hkept), Sketch.word?, hkept]
    rfl
  · obtain ⟨journal, hb⟩ := hbefore.eq_builder
    rw [hb, Builder.address?, hbefore.owned.slot?_eq_none hl] at h
    cases h

end Dcpu16
