import Dcpu16.Proofs.Assembly.Closing

/-!
# What a line adds

Whatever becomes of a line, an outline only grows by it: its cells come behind those that are there,
and so do its labels, and a label that has an address keeps it.  `Outline.written` are the cells of
a line, none if it is rejected, and the labels that a line marks get the address at which it starts
(`Outline.address?_step`).
-/

namespace Dcpu16.Outline

variable {o : Outline}

def written (o : Outline) (line : String × Nat) : List (Cell String) :=
  match (o.addLine line.2 (Line.ofString line.1)).1 with
  | .ok _ => (TwoPass.statement? (Line.ofString line.1)).elim [] Statement.cells
  | .error _ => []

/-- A line appends the cells of its statement if it is accepted, and otherwise none. -/
theorem cells_step (o : Outline) (line : String × Nat) :
    (o.step line).cells = o.cells ++ o.written line := by
  obtain ⟨journal, hstep⟩ := step_eq o line
  rw [hstep, written]
  show (o.addLine line.2 (Line.ofString line.1)).2.cells = _
  cases h : (o.addLine line.2 (Line.ofString line.1)).1 with
  | ok _ =>
      obtain ⟨hm, statement?, hbody⟩ := addLine_eq_ok_iff.mp h
      rw [addLine_of_canMark hm, TwoPass.statement?, hbody]
      cases statement? with
      | none => exact (List.append_nil _).symm
      | some statement => rfl
  | error e =>
      have hadd : o.addLine line.2 (Line.ofString line.1) =
          (.error e, (o.addLine line.2 (Line.ofString line.1)).2) := Prod.ext h rfl
      obtain ⟨marked, met, -, ho'⟩ := rejects_of_addLine hadd
      rw [ho']
      exact (List.append_nil _).symm

/-- A line that is rejected marks the names in front of what is wrong with it. -/
theorem marked_of_rejects (ho : o.Valid) {line : Line} {e : LineError} {marked met : List String}
    (h : o.Rejects line e marked met) (index : Nat) :
    o.assembly.marked index line.marks = marked := by
  cases h with
  | refused hmarks hd hrefused => rw [hmarks, marked_of_refused ho hd hrefused]
  | unreadable hd _ => exact marked_of_canMark ho hd index

/-- The labels that a line marks get the address at which it starts. -/
theorem address?_step (ho : o.Valid) (line : String × Nat) (name : String) :
    (o.step line).address? name =
      if name ∈ o.assembly.marked line.2 (Line.ofString line.1).marks then some o.cells.length
      else o.address? name := by
  obtain ⟨journal, hstep⟩ := step_eq o line
  rw [hstep]
  show (o.addLine line.2 (Line.ofString line.1)).2.address? name = _
  cases h : (o.addLine line.2 (Line.ofString line.1)).1 with
  | ok _ =>
      obtain ⟨hm, statement?, hbody⟩ := addLine_eq_ok_iff.mp h
      rw [marked_of_canMark ho hm, addLine_of_canMark hm, hbody]
      cases statement? with
      | none => rfl
      | some statement => rfl
  | error e =>
      have hadd : o.addLine line.2 (Line.ofString line.1) =
          (.error e, (o.addLine line.2 (Line.ofString line.1)).2) := Prod.ext h rfl
      obtain ⟨marked, met, hr, ho'⟩ := rejects_of_addLine hadd
      rw [marked_of_rejects ho hr, ho']
      rfl

/-- A label that has an address keeps it. -/
theorem address?_step_of_some (ho : o.Valid) (line : String × Nat) {name : String} {address : Nat}
    (h : o.address? name = some address) : (o.step line).address? name = some address := by
  rw [address?_step ho]
  split
  · next hn =>
    have hnone := (line?_eq_none_iff ho name).mp ((adds_step ho line).unmarked name hn)
    rw [h] at hnone
    cases hnone
  · exact h

theorem mem_labels_step (ho : o.Valid) (line : String × Nat) {name : String}
    (h : name ∈ o.labels) : name ∈ (o.step line).labels := by
  rw [(adds_step ho line).labels]
  exact mem_labels_meetAll.mpr (.inl h)

/-- After a line that is accepted all its names are known. -/
theorem mem_labels_of_addLine (ho : o.Valid) {text : String} {index : Nat}
    (hok : (o.addLine index (Line.ofString text)).1 = .ok ()) {name : String}
    (h : name ∈ (Line.ofString text).marks ++ (Line.ofString text).mentioned) :
    name ∈ (o.step (text, index)).labels := by
  obtain ⟨hm, -⟩ := addLine_eq_ok_iff.mp hok
  rw [(adds_step ho (text, index)).labels, lookups_of_canMark ho hm]
  exact mem_labels_meetAll.mpr (.inr h)

end Dcpu16.Outline
