import Dcpu16.Proofs.Assembly.Marking
import Dcpu16.Proofs.Assembly.Summary
import Dcpu16.Proofs.Line.Grammar

/-!
# Lines that are accepted

Whether a line is accepted depends on the lines before it in one respect only: the labels that it
defines.  Main statement: `Assembly.addLine_accepts_iff`, which joins the grammar of lines with the
conditions on their labels.
-/

namespace Dcpu16

/-- Whether a name is that of a label which has an address. -/
def Assembly.IsMarked (a : Assembly) (name : String) : Prop :=
  ∃ symbol address, a.find? name = some symbol ∧
    a.builder.address? symbol.label = .ok (some address)

namespace Outline

/-- A name counts as marked in an assembly if and only if it has an address in the outline. -/
theorem isMarked_assembly {o : Outline} (ho : o.Valid) {name : String} :
    o.assembly.IsMarked name ↔ o.address? name ≠ none := by
  unfold Assembly.IsMarked
  by_cases hn : name ∈ o.labels
  · have hlookup : o.assembly.builder.address? (o.symbol name).label = .ok (o.word? name) :=
      Sketch.address?_builder hn 0 o.journal
    simp only [find?_assembly, if_pos hn, Option.some.injEq]
    constructor
    · rintro ⟨symbol, address, rfl, ha⟩ hnone
      rw [hlookup, Sketch.word?, hnone] at ha
      cases ha
    · intro hne
      obtain ⟨address, ha⟩ := Option.ne_none_iff_exists'.mp hne
      refine ⟨_, address.toUInt16, rfl, ?_⟩
      rw [hlookup, Sketch.word?, ha]
      rfl
  · have hnone : o.address? name = none := Option.eq_none_iff_forall_not_mem.mpr fun address ha ↦
      hn (ho.marked ha)
    simp [find?_assembly, hn, hnone]

/-- The conditions on the labels that a line defines, told of the assembly. -/
theorem canMark_iff {o : Outline} (ho : o.Valid) {names : List String} :
    o.CanMark names ↔ names.Nodup ∧ (∀ name ∈ names, ¬o.assembly.IsMarked name) ∧
      (names ≠ [] → o.assembly.builder.words.size ≤ 0xFFFF) := by
  simp only [isMarked_assembly ho, not_not, size_words_assembly]
  exact ⟨fun ⟨hnodup, hunmarked, hfits⟩ ↦ ⟨hnodup, hunmarked, hfits⟩,
    fun ⟨hnodup, hunmarked, hfits⟩ ↦ ⟨hnodup, hunmarked, hfits⟩⟩

end Outline

/-- After any lines, a line is accepted if and only if it is spelled right, its tokens are those of
a line of the grammar, and the labels that it defines are all different, have no address yet and can
have the next one. -/
theorem Assembly.addLine_accepts_iff (lines : List String) (index : Nat) (text : String) :
    (∃ a', (Assembly.addLine index (Line.ofString text)).run.run
        (Progress.ofLines lines).assembly = (.ok (), a')) ↔
      ∃ tokens marks, Token.Reads text.toList tokens ∧ Grammar.Line marks tokens ∧ marks.Nodup ∧
        (∀ name ∈ marks, ¬(Progress.ofLines lines).assembly.IsMarked name) ∧
        (marks ≠ [] → (Progress.ofLines lines).assembly.builder.words.size ≤ 0xFFFF) := by
  have hassembly : (Progress.ofLines lines).assembly = (Outline.ofLines lines).assembly := by
    rw [Outline.progress_ofLines]
  have ho := Outline.valid_ofLines lines
  rw [hassembly, Outline.run_addLine ho]
  generalize Outline.ofLines lines = o at ho
  constructor
  · rintro ⟨a', hrun⟩
    obtain ⟨hmarks, statement?, hbody⟩ := Outline.addLine_eq_ok_iff.mp (congrArg Prod.fst hrun)
    have hline : Line.ofLexemes (Token.scan text.toList) =
        ⟨(Line.ofString text).marks, .ok statement?⟩ := by rw [← hbody]; rfl
    obtain ⟨tokens, hscan, hgrammar⟩ := Grammar.line_iff.mp ⟨statement?, hline⟩
    exact ⟨tokens, _, Token.scan_eq_iff.mp hscan, hgrammar, (Outline.canMark_iff ho).mp hmarks⟩
  · rintro ⟨tokens, marks, hreads, hgrammar, hconditions⟩
    obtain ⟨statement?, hline⟩ := Grammar.line_iff.mpr
      ⟨tokens, Token.scan_eq_iff.mpr hreads, hgrammar⟩
    have hok : (o.addLine index ⟨marks, .ok statement?⟩).1 = .ok () :=
      Outline.addLine_eq_ok_iff.mpr ⟨(Outline.canMark_iff ho).mpr hconditions, statement?, rfl⟩
    rw [Line.ofString, hline]
    exact ⟨_, Prod.ext hok rfl⟩

end Dcpu16
