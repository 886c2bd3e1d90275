import Dcpu16.Proofs.Assembly.Partition
import Dcpu16.Proofs.Line.Reserved

/-!
# Reserved names in assemblies

A reserved name can be marked, as any other, but it cannot be mentioned: where an identifier stands
for a label, it is not reserved, and where it is not reserved, it stands for a label.  So a label
with a reserved name is one that a line marks, nothing ever refers to it, and there is a warning
about it in the end.  Main statement: `Reserved.assemble_reserved`.
-/

namespace Dcpu16.Reserved

open Diagnostics Outline

/-- The line that has a name at a place: labels, a command, tokens, the name, and whatever follows
it. -/
def lineWith (marks : List String) (command : String) (tokens : List Token) (name : String)
    (after : List Lexeme) : Line :=
  Line.ofLexemes
    ((Line.markTokens marks ++ .ident command :: tokens).map .ok ++ .ok (.ident name) :: after)

/-- A name at a place is looked up as a label, behind the labels in front of it. -/
def LooksUp (a : Assembly) (index : Nat) (marks : List String) (command : String)
    (tokens : List Token) (name : String) (after : List Lexeme) : Prop :=
  marks ++ tokens.filterMap Token.label? ++ [name] <+:
    a.lookups index (lineWith marks command tokens name after)

/-- The labels of a line that are read as definitions: those that can be marked, and the first that
is refused. -/
def definitionsRead (lines : List String) (line : String × Nat) : List String :=
  (Line.definitions (Token.scan line.1.toList)).take
    (((before lines line.2).marked line.2 (Line.definitions (Token.scan line.1.toList))).length + 1)

/-! ## Lines -/

theorem lineWith_eq (marks : List String) (command : String) (tokens : List Token) (name : String)
    (after : List Lexeme) :
    lineWith marks command tokens name after = ⟨marks,
      (Statement.parse command (tokens.map .ok ++ .ok (.ident name) :: after)).map some⟩ := by
  rw [lineWith, Line.ofLexemes, List.map_append, List.append_assoc, Line.parseFrom_markTokens,
    List.append_nil, List.map_cons, List.cons_append, Line.parseFrom, List.reverse_reverse]

theorem mentioned_map (marks : List String) (x : Except Fault (Statement String)) :
    (Line.mk marks (x.map some)).mentioned = mentions Statement.labels x := by
  cases x <;> rfl

/-- No line mentions a reserved name. -/
theorem free_mentioned (lexemes : List Lexeme) : Free (Line.ofLexemes lexemes).mentioned := by
  have hparse : ∀ marks, Free (Line.parseFrom marks lexemes).mentioned := by
    intro marks
    fun_induction Line.parseFrom marks lexemes with
    | case1 marks => exact free_nil
    | case2 marks name rest ih => exact ih
    | case3 marks rest hnot =>
        show Free (Fault.unexpected _ _).mentioned
        rw [Fault.mentioned_unexpected]
        exact free_nil
    | case4 marks command rest =>
        rw [mentioned_map]
        exact free_statement command rest
    | case5 marks rest hnil hmark hcolon hident =>
        show Free (Fault.unexpected _ _).mentioned
        rw [Fault.mentioned_unexpected]
        exact free_nil
  exact hparse []

/-- If all marks are accepted, the line looks up what its statement mentions. -/
theorem lookups_lineWith {a : Assembly} {index : Nat} {marks : List String}
    (h : a.marked index marks = marks) (command : String) (tokens : List Token) (name : String)
    (after : List Lexeme) :
    a.lookups index (lineWith marks command tokens name after) = marks ++
      mentions Statement.labels
        (Statement.parse command (tokens.map .ok ++ .ok (.ident name) :: after)) := by
  rw [lineWith_eq, Assembly.lookups, h, if_pos rfl, List.take_of_length_le (Nat.le_succ _),
    mentioned_map]

/-- At each of the places a name is looked up as a label if and only if it is not reserved. -/
theorem looksUp_iff {a : Assembly} {index : Nat} {marks : List String}
    (hmarks : a.marked index marks = marks) {command : String} {tokens : List Token}
    (hplace : AtOperand command tokens ∨ AtTerm command tokens ∨ AtItem command tokens)
    (name : String) (after : List Lexeme) :
    LooksUp a index marks command tokens name after ↔ Grammar.isReserved name = false := by
  rw [LooksUp, lookups_lineWith hmarks, List.append_assoc, List.prefix_append_right_inj]
  constructor
  · intro hstarts
    refine free_statement _ _ name (hstarts.subset ?_)
    exact List.mem_append_right _ (List.mem_singleton_self name)
  · intro hname
    rcases hplace with hoperand | hterm | hitem
    · exact hoperand.prefix_statement (prefix_name hname after)
    · exact hterm.prefix_statement hname after
    · exact hitem.prefix_statement hname after

/-! ## Texts -/

/-- No line refers to a reserved name. -/
theorem not_isReferred (lines : List String) {name : String} (h : Grammar.isReserved name) :
    ¬IsReferred lines name := by
  rintro ⟨line, -, -, hmentioned⟩
  cases h.symm.trans (free_mentioned _ name hmentioned)

/-- A reserved name that was met was read as a definition. -/
theorem exists_definition {lines : List String} {name : String} (hname : name ∈ names lines)
    (h : Grammar.isReserved name) : ∃ line ∈ lines.zipIdx, name ∈ definitionsRead lines line := by
  obtain ⟨line, hline, hlookup⟩ := List.mem_flatMap.mp (List.mem_eraseDups.mp hname)
  refine ⟨line, hline, ?_⟩
  have hmarks : (Line.ofString line.1).marks = Line.definitions (Token.scan line.1.toList) :=
    marks_ofLexemes _
  rw [Assembly.lookups, hmarks, List.mem_append] at hlookup
  refine hlookup.resolve_right ?_
  split
  · intro hmentioned
    cases h.symm.trans (free_mentioned _ name hmentioned)
  · exact List.not_mem_nil

/-- There is a warning about a reserved name that a line marks. -/
theorem unused_mem_issues {lines : List String} {name : String} {index : Nat}
    (hindex : index ∈ definedOn lines name) (h : Grammar.isReserved name) :
    Issue.unused index name ∈ (report lines).issues := by
  have ho := valid_ofLines lines
  have hkeeps := keeps_ofLines lines
  have hlabel : name ∈ (ofLines lines).labels :=
    ho.marked (Listing.address?_of_mem_definedOn hindex)
  have hdefined : definedOn lines name = [index] := by
    have hpos := List.length_pos_of_mem hindex
    obtain ⟨i, hi⟩ := List.length_eq_one_iff.mp (Nat.le_antisymm (hkeeps.once name) hpos)
    rw [hi, List.mem_singleton] at hindex
    rw [hi, hindex]
  have hissue : (ofLines lines).symbolIssue? name = some (.unused index name) := by
    rw [hkeeps.symbolIssue?_eq ho, nameIssue?, hdefined]
    exact if_neg (not_isReferred lines h)
  exact List.mem_append_right _ (List.mem_filterMap.mpr ⟨name, hlabel, hissue⟩)

/-- A line adds the names that it looks up to the table, each unless it is there. -/
theorem names_addLine (lines : List String) (index : Nat) (line : Line) :
    ((Assembly.addLine index line).run.run (Progress.ofLines lines).assembly).2.symbols.toList.map
        Symbol.name =
      ((Progress.ofLines lines).assembly.lookups index line).foldl addName
        ((Progress.ofLines lines).assembly.symbols.toList.map Symbol.name) := by
  have ho := valid_ofLines lines
  rw [progress_ofLines, run_addLine ho, names_assembly, names_assembly]
  exact (adds_addLine ho index line).labels

/-- No reference is to a reserved name. -/
theorem referenceCount_symbol {lines : List String} {symbol : Symbol}
    (h : symbol ∈ (ofLines lines).assembly.symbols) :
    ∃ count, (ofLines lines).assembly.builder.referenceCount symbol.label = .ok count ∧
      (0 < count → Grammar.isReserved symbol.name = false) := by
  obtain ⟨name, hn, rfl⟩ := List.mem_map.mp (List.mem_toArray.mp h)
  refine ⟨_, Sketch.referenceCount_builder hn 0 (ofLines lines).journal, ?_⟩
  intro hpos
  obtain ⟨cell, hcell, hlabel⟩ := List.countP_pos_iff.mp hpos
  have hreferred : IsReferred lines name :=
    ((keeps_ofLines lines).refers name).mp ⟨cell, hcell, of_decide_eq_true hlabel⟩
  exact Bool.eq_false_iff.mpr fun hr ↦ not_isReferred lines hr hreferred

/-- A name is a label at an operand, a term and an item alike: it is looked up as one if and only if
it is not reserved, where to look names up is to add those to the table that are not in it.  So
whatever lines have been read, a name that something refers to is not reserved, and a reserved name
is in the table only if it was read as a definition.  There is a warning about each that is
marked. -/
theorem assemble_reserved :
    (∀ (a : Assembly) (index : Nat) (marks : List String) (command : String)
        (tokens : List Token) (name : String) (after : List Lexeme),
      a.marked index marks = marks →
      AtOperand command tokens ∨ AtTerm command tokens ∨ AtItem command tokens →
      (LooksUp a index marks command tokens name after ↔ Grammar.isReserved name = false)) ∧
    (∀ (lines : List String) (index : Nat) (line : Line),
      ((Assembly.addLine index line).run.run
          (Progress.ofLines lines).assembly).2.symbols.toList.map Symbol.name =
        ((Progress.ofLines lines).assembly.lookups index line).foldl addName
          ((Progress.ofLines lines).assembly.symbols.toList.map Symbol.name)) ∧
    (∀ lines, ∀ symbol ∈ (Progress.ofLines lines).assembly.symbols,
      (∃ count,
        (Progress.ofLines lines).assembly.builder.referenceCount symbol.label = .ok count ∧
        (0 < count → Grammar.isReserved symbol.name = false)) ∧
      (Grammar.isReserved symbol.name →
        ∃ line ∈ lines.zipIdx, symbol.name ∈ definitionsRead lines line)) ∧
    (∀ source, ∃ report, assemble source = .ok report ∧
      ∀ name, Grammar.isReserved name → ∀ index ∈ definedOn (Text.lines source) name,
        Issue.unused index name ∈ report.issues) := by
  refine ⟨?_, names_addLine, ?_, ?_⟩
  · intro a index marks command tokens name after hmarks hplace
    exact looksUp_iff hmarks hplace name after
  · intro lines symbol hsymbol
    rw [progress_ofLines] at hsymbol ⊢
    refine ⟨referenceCount_symbol hsymbol, fun hreserved ↦ ?_⟩
    obtain ⟨name, hn, rfl⟩ := List.mem_map.mp (List.mem_toArray.mp hsymbol)
    rw [(keeps_ofLines lines).labels] at hn
    exact exists_definition hn hreserved
  · intro source
    refine ⟨_, Outline.assemble_eq source, fun name hreserved index hindex ↦ ?_⟩
    exact unused_mem_issues hindex hreserved

/-- The label `A` cannot be an operand, a term or an item, but `loop` can, and nothing can refer to
an `A` that is marked. -/
theorem assemble_reserved_register :
    (∀ name ∈ ["A", "loop"],
      (LooksUp {} 0 ["A"] "set" [] name [] ↔ name = "loop") ∧
      (LooksUp {} 0 ["A"] "jsr" [.openBracket, .number 2, .plus] name [] ↔ name = "loop") ∧
      (LooksUp {} 0 ["A"] "dat" [.ident "loop", .comma] name [] ↔ name = "loop")) ∧
    ∃ report, assemble ":A set a, [1 + A]" = .ok report ∧
      Issue.unused 0 "A" ∈ report.issues := by
  have hmarks : ({} : Assembly).marked 0 ["A"] = ["A"] := by decide +kernel
  have hset : AtOperand "set" [] := .first (of_decide_eq_true (by decide +kernel))
  have hjsr : AtTerm "jsr" [.openBracket, .number 2, .plus] :=
    @AtTerm.sum "jsr" [] [.number 2] (.first (of_decide_eq_true (by decide +kernel))) (by decide)
      (by decide) (by decide) (by decide)
  have hdat : AtItem "dat" [.ident "loop", .comma] :=
    @AtItem.data "dat" [.ident "loop"] (by decide +kernel) (of_decide_eq_true (by decide +kernel))
  have hname : ∀ name ∈ ["A", "loop"], Grammar.isReserved name = false ↔ name = "loop" :=
    of_decide_eq_true (by decide +kernel)
  have hlooks := assemble_reserved.1 {} 0 ["A"]
  refine ⟨fun name hn ↦ ⟨?_, ?_, ?_⟩, ?_⟩
  · exact (hlooks _ _ name [] hmarks (.inl hset)).trans (hname name hn)
  · exact (hlooks _ _ name [] hmarks (.inr (.inl hjsr))).trans (hname name hn)
  · exact (hlooks _ _ name [] hmarks (.inr (.inr hdat))).trans (hname name hn)
  · obtain ⟨report, hreport, hissues⟩ := assemble_reserved.2.2.2 ":A set a, [1 + A]"
    exact ⟨report, hreport,
      hissues "A" (by decide +kernel) 0 (of_decide_eq_true (by decide +kernel))⟩

end Dcpu16.Reserved
