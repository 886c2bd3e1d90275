import Dcpu16.Proofs.Assembly.Partition

/-!
# Lines in the place of others

Assembling looks at a line only to see what the line does to the assembly that the lines before it
have left.  So a line can be replaced by any other one that does the same there, and the report
changes in nothing but the texts of the lines.  Main statement: `Substitution.assemble_eq`.
-/

namespace Dcpu16.Substitution

/-- Two lines do the same to an assembly. -/
def Agree (a : Assembly) (index : Nat) (text text' : String) : Prop :=
  (Assembly.addLine index (Line.ofString text)).run.run a =
    (Assembly.addLine index (Line.ofString text')).run.run a

/-- Lines do the same one by one, each to what the lines before it have left. -/
structure Replaces (lines lines' : List String) : Prop where
  length_eq : lines.length = lines'.length
  agree (index : Nat) (text text' : String) : lines[index]? = some text →
    lines'[index]? = some text' → Agree (Diagnostics.before lines index) index text text'

/-- Lines that are read alike one by one. -/
theorem Replaces.of_forall₂ {lines lines' : List String}
    (h : List.Forall₂ (fun text text' ↦ Line.ofString text = Line.ofString text') lines lines') :
    Replaces lines lines' where
  length_eq := h.length_eq
  agree index text text' htext htext' := by
    obtain ⟨hlt, rfl⟩ := List.getElem?_eq_some_iff.mp htext
    obtain ⟨hlt', rfl⟩ := List.getElem?_eq_some_iff.mp htext'
    have heq : Line.ofString lines[index] = Line.ofString lines'[index] := h.get hlt hlt'
    rw [Agree, heq]

theorem addLine_congr {progress : Progress} {index : Nat} {text text' : String}
    (h : Agree progress.assembly index text text') :
    progress.addLine (text, index) = progress.addLine (text', index) := by
  rw [Agree] at h
  rw [Progress.addLine, Progress.addLine, h]

theorem ofLines_append (lines : List String) (text : String) :
    Progress.ofLines (lines ++ [text]) = (Progress.ofLines lines).addLine (text, lines.length) := by
  simp [Progress.ofLines, List.zipIdx_append]

/-- Lines that do the same one by one do the same together. -/
theorem Replaces.ofLines_eq {lines lines' : List String} (h : Replaces lines lines') :
    Progress.ofLines lines = Progress.ofLines lines' := by
  -- The induction is on the lines from the end: a line is compared behind all those before it.
  induction lines using List.reverseRecOn generalizing lines' with
  | nil => rw [List.length_eq_zero_iff.mp h.length_eq.symm]
  | append_singleton lines text ih =>
      obtain ⟨lines', text', rfl⟩ : ∃ init last, lines' = init ++ [last] := by
        refine ⟨_, _, (List.dropLast_append_getLast ?_).symm⟩
        rintro rfl
        exact absurd h.length_eq (by simp)
      have hlength : lines.length = lines'.length := by simpa using h.length_eq
      have hinit : Replaces lines lines' := by
        refine ⟨hlength, fun index x x' hx hx' ↦ ?_⟩
        have hlt := (List.getElem?_eq_some_iff.mp hx).1
        rw [← Diagnostics.before_append lines text (Nat.le_of_lt hlt)]
        apply h.agree
        · rw [List.getElem?_append_left hlt, hx]
        · rw [List.getElem?_append_left (hlength ▸ hlt), hx']
      have hlast : Agree (Progress.ofLines lines).assembly lines.length text text' := by
        have hagree := h.agree lines.length text text' (by simp) (by simp [hlength])
        rwa [Diagnostics.before, List.take_left] at hagree
      rw [ofLines_append, ofLines_append, addLine_congr hlast, ih hinit, hlength]

/-- What the listing says about a line apart from its text. -/
def place (entry : ListingEntry) : Nat × Nat × List UInt8 :=
  (entry.index, entry.offset, entry.bytes)

theorem map_place_entries {output : Array UInt16} {start : Nat} {lines lines' : List String}
    (h : lines.length = lines'.length) (k : Nat) (stops : List Nat) :
    (Listing.entries output start (lines.zipIdx k) stops).map place =
      (Listing.entries output start (lines'.zipIdx k) stops).map place := by
  induction lines generalizing start lines' k stops with
  | nil => rw [List.length_eq_zero_iff.mp h.symm]
  | cons text lines ih =>
      cases lines' with
      | nil => exact absurd h (by simp)
      | cons text' lines' =>
          cases stops with
          | nil => rfl
          | cons stop stops =>
              rw [List.zipIdx_cons, List.zipIdx_cons, Listing.entries, Listing.entries,
                List.map_cons, List.map_cons, ih (Nat.succ.inj h)]
              rfl

/-- A text whose lines do the same has the same report, apart from the lines themselves. -/
theorem assemble_eq {source source' : String}
    (h : Replaces (Text.lines source) (Text.lines source')) :
    ∃ r, assemble source = .ok r ∧
      assemble source' = .ok { r with lines := Text.lines source' } ∧
      ({ r with lines := Text.lines source' } : Report).listing.map place =
        r.listing.map place := by
  have hprogress := h.ofLines_eq
  have hreport := Outline.assemble_eq source
  have hreport' : assemble source' =
      .ok { Outline.report (Text.lines source) with lines := Text.lines source' } := by
    have hmap : assemble source' =
        (assemble source).map fun r ↦ { r with lines := Text.lines source' } := by
      simp only [assemble, ← hprogress, ← h.length_eq]
      cases Assembly.symbolIssues _ with
      | error e => rfl
      | ok issues => cases Builder.close _ <;> rfl
    rw [hmap, hreport]
    rfl
  refine ⟨_, hreport, hreport', ?_⟩
  rw [Listing.listing_eq, Listing.listing_eq]
  exact map_place_entries h.length_eq.symm 0 _

end Dcpu16.Substitution
