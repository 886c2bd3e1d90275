import Dcpu16.Proofs.Assembly.Moving
import Dcpu16.Proofs.Line.Renaming

/-!
# Texts with other labels

Labels are only names: if all of them are replaced by others, in a way that keeps different names
different and makes no label of a reserved name or the other way round, then a text without errors
is assembled to the same image, and there are the same warnings, with the new names.  Main
statement: `Renaming.assemble_rename`.
-/

namespace Dcpu16

open Renaming (Respelled Suits)

/-! ## Texts -/

namespace Text

variable {line piece : List Char} {ps : List (List Char)}

/-- Replaces each line of a text and keeps the line ends. -/
def mapLines (f : List Char → List Char) (s : String) : String :=
  String.ofList ((pieces s.toList).flatMap fun piece ↦
    f (chomp piece) ++ piece.drop (chomp piece).length)

/-- A line with its line end. -/
inductive Ended : List Char → List Char → Prop
  | lf {line : List Char} : '\n' ∉ line → '\r' ∉ line.getLast? → Ended line (line ++ ['\n'])
  | crlf {line : List Char} : '\n' ∉ line → Ended line (line ++ ['\r', '\n'])

/-- The pieces of a text: only the last of them may have no line end. -/
inductive Cut : List (List Char) → Prop
  | nil : Cut []
  | last {line : List Char} : '\n' ∉ line → line ≠ [] → Cut [line]
  | cons {line piece : List Char} {ps : List (List Char)} :
      Ended line piece → Cut ps → Cut (piece :: ps)

theorem chomp_of_notMem (h : '\n' ∉ line) : chomp line = line := by
  unfold chomp
  split
  · next heq => exact absurd (List.mem_reverse.mp (heq ▸ List.mem_cons_self)) h
  · next heq => exact absurd (List.mem_reverse.mp (heq ▸ List.mem_cons_self)) h
  · rfl

theorem Ended.chomp_eq (h : Ended line piece) : chomp piece = line := by
  cases h with
  | lf _ hr =>
      rw [chomp, List.reverse_append]
      split
      · next rest heq =>
        have hrest : line.reverse = '\r' :: rest := (List.cons.inj heq).2
        rw [← List.head?_reverse, hrest] at hr
        exact absurd rfl hr
      · next heq =>
        obtain ⟨-, rfl⟩ := List.cons.inj heq
        exact List.reverse_reverse line
      · next hne => exact absurd rfl (hne _)
  | crlf _ =>
      rw [chomp, List.reverse_append]
      exact List.reverse_reverse line

/-- A character may come in front of a line. -/
theorem Ended.cons_char (h : Ended line piece) {c : Char} (hc : c ≠ '\n') :
    ∃ line', Ended line' (c :: piece) := by
  have hnotMem : ∀ {line : List Char}, '\n' ∉ line → '\n' ∉ c :: line := by
    intro line hn hmem
    rcases List.mem_cons.mp hmem with rfl | hmem
    · exact hc rfl
    · exact hn hmem
  cases h with
  | crlf hn => exact ⟨c :: line, .crlf (hnotMem hn)⟩
  | lf hn hr =>
      by_cases hreturn : '\r' ∈ (c :: line).getLast?
      · -- The character is a carriage return right in front of the line feed.
        cases line with
        | nil =>
            obtain rfl : c = '\r' := Option.some.inj hreturn
            exact ⟨[], .crlf List.not_mem_nil⟩
        | cons d line =>
            rw [List.getLast?_cons_cons] at hreturn
            exact absurd hreturn hr
      · exact ⟨c :: line, .lf (hnotMem hn) hreturn⟩

theorem Cut.cons_char (h : Cut ps) (c : Char) : Cut (consPiece c ps) := by
  by_cases hc : c = '\n'
  · subst hc
    exact .cons (.lf List.not_mem_nil (by simp) : Ended [] _) h
  · unfold consPiece
    rw [if_neg hc]
    cases h with
    | nil => exact .last (by simpa using Ne.symm hc) (List.cons_ne_nil c [])
    | last hn hne =>
        refine .last ?_ (List.cons_ne_nil _ _)
        simp [hn, Ne.symm hc]
    | cons hended hps =>
        obtain ⟨line', hended'⟩ := hended.cons_char hc
        exact .cons hended' hps

/-- The pieces of any text are lines with their ends, except perhaps the last. -/
theorem cut_pieces (cs : List Char) : Cut (pieces cs) := by
  induction cs with
  | nil => exact .nil
  | cons c cs ih => exact ih.cons_char c

/-- What has no line feed goes in front of the first piece. -/
theorem foldr_consPiece (h : '\n' ∉ line) (piece : List Char) :
    line.foldr consPiece [piece] = [line ++ piece] := by
  induction line with
  | nil => rfl
  | cons c line ih =>
      rw [List.foldr_cons, ih fun hn ↦ h (List.mem_cons_of_mem c hn), consPiece, if_neg]
      · rfl
      · rintro rfl
        exact h List.mem_cons_self

theorem Ended.eq_append (h : Ended line piece) : ∃ body, '\n' ∉ body ∧ piece = body ++ ['\n'] := by
  cases h with
  | lf hn _ => exact ⟨line, hn, rfl⟩
  | crlf hn => exact ⟨line ++ ['\r'], by simpa using hn, by simp⟩

/-- The pieces of a text can be told from the text. -/
theorem Cut.pieces_flatten (h : Cut ps) : pieces ps.flatten = ps := by
  induction h with
  | nil => rfl
  | @last line hn hne =>
      obtain ⟨body, c, rfl⟩ := (List.eq_nil_or_concat' line).resolve_left hne
      rw [List.mem_append, List.mem_singleton, not_or] at hn
      rw [List.flatten_singleton, pieces, List.foldr_append]
      show body.foldr consPiece (consPiece c []) = _
      rw [consPiece, if_neg (Ne.symm hn.2)]
      exact foldr_consPiece hn.1 [c]
  | @cons line piece ps hended _ ih =>
      obtain ⟨body, hbody, rfl⟩ := hended.eq_append
      have hone : pieces (body ++ ['\n']) = [body ++ ['\n']] := by
        rw [pieces, List.foldr_append]
        exact foldr_consPiece hbody ['\n']
      rw [List.flatten_cons, List.append_assoc, List.singleton_append, pieces_append_newline, ih,
        hone, List.singleton_append]

/-- A line that is respelled keeps its line end, and the end is still found where it was. -/
theorem Ended.respelled (h : Ended line piece) {line' : List Char} (hs : Respelled line line') :
    Ended line' (line' ++ piece.drop line.length) := by
  cases h with
  | lf hn hr =>
      rw [List.drop_left]
      exact .lf (fun hmem ↦ hn (hs.mem _ hmem (by decide)))
        fun hlast ↦ hr (hs.last _ hlast (by decide))
  | crlf hn =>
      rw [List.drop_left]
      exact .crlf fun hmem ↦ hn (hs.mem _ hmem (by decide))

variable {f : List Char → List Char}

/-- Respelling each line of a text leaves the pieces those of a text. -/
theorem Cut.respelled (h : Cut ps)
    (hs : ∀ piece ∈ ps, Respelled (chomp piece) (f (chomp piece))) :
    Cut (ps.map fun piece ↦ f (chomp piece) ++ piece.drop (chomp piece).length) ∧
      ∀ piece ∈ ps, chomp (f (chomp piece) ++ piece.drop (chomp piece).length) =
        f (chomp piece) := by
  induction h with
  | nil => exact ⟨.nil, fun piece hp ↦ absurd hp List.not_mem_nil⟩
  | @last line hn hne =>
      have hline := hs line (List.mem_singleton_self line)
      have hpiece : f (chomp line) ++ line.drop (chomp line).length = f line := by
        rw [chomp_of_notMem hn, List.drop_length, List.append_nil]
      rw [chomp_of_notMem hn] at hline
      have hn' : '\n' ∉ f line := fun hmem ↦ hn (hline.mem _ hmem (by decide))
      rw [List.map_singleton, List.forall_mem_singleton, hpiece, chomp_of_notMem hn']
      exact ⟨.last hn' fun hnil ↦ hne (hline.nil hnil), by rw [chomp_of_notMem hn]⟩
  | @cons line piece ps hended _ ih =>
      obtain ⟨hcut, hchomp⟩ := ih fun piece' hp ↦ hs piece' (List.mem_cons_of_mem piece hp)
      have hended' : Ended (f (chomp piece))
          (f (chomp piece) ++ piece.drop (chomp piece).length) := by
        have hline := hs piece List.mem_cons_self
        rw [hended.chomp_eq] at hline ⊢
        exact hended.respelled hline
      refine ⟨.cons hended' hcut, ?_⟩
      intro piece' hp
      rcases List.mem_cons.mp hp with rfl | hp
      · exact hended'.chomp_eq
      · exact hchomp piece' hp

/-- Lines that are replaced by texts without line ends are the lines of the new text. -/
theorem lines_mapLines {s : String}
    (h : ∀ line ∈ lines s, Respelled line.toList (f line.toList)) :
    lines (mapLines f s) = (lines s).map fun line ↦ String.ofList (f line.toList) := by
  have hs : ∀ piece ∈ pieces s.toList, Respelled (chomp piece) (f (chomp piece)) := by
    intro piece hp
    have hline := h (String.ofList (chomp piece)) (List.mem_map_of_mem hp)
    rwa [String.toList_ofList] at hline
  obtain ⟨hcut, hchomp⟩ := (cut_pieces s.toList).respelled hs
  rw [lines, mapLines, String.toList_ofList, List.flatMap_def, hcut.pieces_flatten, lines,
    List.map_map, List.map_map]
  apply List.map_congr_left
  intro piece hp
  simp only [Function.comp_apply, String.toList_ofList, hchomp piece hp]

end Text

/-! ## Names -/

/-- A renaming of the labels of a text that looks up these names. -/
structure IsRenaming (ρ : String → String) (names : List String) : Prop where
  /-- Different names stay different. -/
  injective : ∀ x ∈ names, ∀ y ∈ names, ρ x = ρ y → x = y
  /-- Identifiers stay identifiers. -/
  identifier : ∀ x ∈ names, Token.isIdentifier x → Token.isIdentifier (ρ x)
  /-- No other name becomes that of a register or a special operand, -/
  free : ∀ x ∈ names, Grammar.isReserved x = false → Grammar.isReserved (ρ x) = false
  /-- and these stay as they are. -/
  reserved : ∀ x, Grammar.isReserved x → ρ x = x

theorem IsRenaming.suits {ρ : String → String} {names : List String} (h : IsRenaming ρ names)
    {name : String} (hn : name ∈ names) : Suits ρ name :=
  ⟨h.identifier name hn, h.free name hn, h.reserved name⟩

namespace Outline

/-- The place of lines under other names. -/
def Move.under {ρ : String → String} {names : List String} (h : IsRenaming ρ names) : Move where
  front := []
  names
  rename := ρ
  injective := h.injective
  fresh _ _ := List.not_mem_nil

/-- Lines that are accepted can be read, and what they mark and mention is known in the end. -/
theorem names_of_accepted {lines : List String} (h : lineIssues {} lines.zipIdx = []) :
    ∀ text ∈ lines, (∃ statement?, (Line.ofString text).body = .ok statement?) ∧
      ∀ name ∈ (Line.ofString text).marks ++ (Line.ofString text).mentioned,
        name ∈ (ofLines lines).labels := by
  induction lines using List.reverseRecOn with
  | nil => exact fun text ht ↦ absurd ht List.not_mem_nil
  | append_singleton lines text ih =>
      have ho := valid_ofLines lines
      rw [Diagnostics.zipIdx_append_singleton, lineIssues_append, List.append_eq_nil_iff,
        Option.toList_eq_nil_iff, lineIssue?_eq_none] at h
      intro text' htext
      rw [ofLines_append]
      rcases List.mem_append.mp htext with htext | htext
      · obtain ⟨hbody, hnames⟩ := ih h.1 text' htext
        exact ⟨hbody, fun name hn ↦ mem_labels_step ho _ (hnames name hn)⟩
      · obtain rfl := List.mem_singleton.mp htext
        exact ⟨(addLine_eq_ok_iff.mp h.2).2, fun name hn ↦ mem_labels_of_addLine ho h.2 hn⟩

end Outline

/-- A warning tells what it is about. -/
theorem Issue.unused_inj {line line' : Nat} {name name' : String}
    (h : unused line name = unused line' name') : line = line' ∧ name = name' := by
  obtain ⟨hline, -, hmessage⟩ := Issue.mk.inj h
  have hchars := congrArg String.toList hmessage
  simp only [String.toList_append, List.append_assoc, List.append_cancel_left_eq,
    List.append_cancel_right_eq] at hchars
  exact ⟨hline, String.toList_inj.mp hchars⟩

namespace Renaming

open Outline

/-- A text with its labels renamed, where they are marked and where they are mentioned. -/
def rename (ρ : String → String) (source : String) : String :=
  Text.mapLines (chars ρ .start) source

/-- The lines of a text without errors are read with new names. -/
theorem ofString_spell_of_clean {lines : List String} (hclean : Clean lines) {ρ : String → String}
    (hρ : IsRenaming ρ (Diagnostics.names lines)) :
    ∀ text ∈ lines, Line.ofString (spell ρ text) = (Line.ofString text).map ρ ∧
      Respelled text.toList (chars ρ .start text.toList) := by
  intro text htext
  obtain ⟨⟨statement?, hbody⟩, hnames⟩ := names_of_accepted hclean.accepted text htext
  rw [(Diagnostics.keeps_ofLines lines).labels] at hnames
  refine ofString_spell hbody ⟨hρ.reserved, ?_, ?_⟩
  · intro name hn
    exact hρ.suits (hnames name (List.mem_append_left _ hn))
  · intro statement hstatement name hn
    refine hρ.suits (hnames name (List.mem_append_right _ ?_))
    rwa [Line.mentioned, hstatement]

/-- Lines without errors are accepted under other names, and their outline is renamed. -/
theorem carries_under {lines : List String} (hclean : Clean lines) {ρ : String → String}
    (hρ : IsRenaming ρ (Diagnostics.names lines)) :
    lineIssues {} (lines.map (spell ρ)).zipIdx = [] ∧
      (Move.under hρ).Carries (ofLines lines) (ofLines (lines.map (spell ρ))) := by
  have hknown : ∀ name ∈ (ofLines lines).labels, name ∈ Diagnostics.names lines := by
    intro name hn
    rwa [(Diagnostics.keeps_ofLines lines).labels] at hn
  have hfits : ∀ name address, (ofLines lines).address? name = some address →
      (Move.under hρ).offset + address ≤ 0xFFFF := by
    intro name address ha
    have hle := (valid_ofLines lines).fits ha
    show 0 + address ≤ 0xFFFF
    omega
  exact (Move.under hρ).carries_ofLines (spell ρ)
    (fun text ht ↦ (ofString_spell_of_clean hclean hρ text ht).1) hclean.accepted hknown hfits

/-- A text without errors whose labels are renamed, so that each line is read as before but for its
labels, has no errors and the same image, and the same labels are reported as unused, on the same
lines and in the same order, under their new names. -/
theorem assemble_rename (source : String) (r : Report) (image : Array UInt16)
    (h : assemble source = .ok r) (hi : r.image? = some image) (ρ : String → String)
    (hρ : IsRenaming ρ (Diagnostics.names (Text.lines source))) :
    (Text.lines (rename ρ source)).map Line.ofString =
        (Text.lines source).map (fun text ↦ (Line.ofString text).map ρ) ∧
      ∃ r', assemble (rename ρ source) = .ok r' ∧ r'.hasErrors = false ∧ r'.image? = some image ∧
        ∃ warnings : List (Nat × String),
          r.issues = warnings.map (fun entry ↦ .unused entry.1 entry.2) ∧
          r'.issues = warnings.map (fun entry ↦ .unused entry.1 (ρ entry.2)) := by
  obtain ⟨rfl, hclean, rfl⟩ := clean_of_assemble h hi
  have hspell := ofString_spell_of_clean hclean hρ
  have hlines : Text.lines (rename ρ source) = (Text.lines source).map (spell ρ) :=
    Text.lines_mapLines fun text ht ↦ (hspell text ht).2
  have hreads : (Text.lines (rename ρ source)).map Line.ofString =
      (Text.lines source).map (fun text ↦ (Line.ofString text).map ρ) := by
    rw [hlines, List.map_map]
    exact List.map_congr_left fun text ht ↦ (hspell text ht).1
  refine ⟨hreads, _, assemble_eq _, ?_⟩
  rw [hlines]
  clear h hi hlines hspell hreads
  generalize Text.lines source = lines at *
  have ho := valid_ofLines lines
  obtain ⟨hissues, hcarries⟩ := carries_under hclean hρ
  have hempty : Clean [] := ⟨rfl, fun name hn ↦ absurd hn List.not_mem_nil⟩
  have hclean' : Clean (lines.map (spell ρ)) := hcarries.clean hempty hclean hissues
  refine ⟨hclean'.hasErrors, ?_, (ofLines lines).unused, hclean.issues, ?_⟩
  · have hvalue : (ofLines (lines.map (spell ρ))).cells.map
        (Cell.value (ofLines (lines.map (spell ρ))).word?) =
          (ofLines lines).cells.map (Cell.value (ofLines lines).word?) := by
      have hmap := hcarries.map_value ho hclean.marked
      simp only [show (Move.under hρ).offset = 0 from rfl, Move.shift_zero] at hmap
      exact hmap
    rw [hclean'.image?, hvalue]
  · have hunused : (ofLines (lines.map (spell ρ))).unused =
        (ofLines lines).unused.map fun entry ↦ (0 + entry.1, ρ entry.2) :=
      hcarries.unused_eq ho hclean.marked
    rw [hclean'.issues, hunused, List.map_map]
    simp only [Function.comp_def, Nat.zero_add]

/-- Some new names for labels, among them those of commands. -/
def shuffle (name : String) : String :=
  if name = "loop" then "dat" else if name = "set" then "loop" else if name = "rest" then "jsr"
  else name

theorem isRenaming_shuffle : IsRenaming shuffle ["loop", "set", "rest"] where
  injective := by decide
  identifier := by decide
  free := by
    have hfree : ["loop", "set", "rest"].all (fun x ↦ !Grammar.isReserved (shuffle x)) := by
      decide +kernel
    intro x hx _
    exact Bool.not_eq_true' _ ▸ List.all_eq_true.mp hfree x hx
  reserved := by
    have hfree : ["loop", "set", "rest"].all (fun x ↦ !Grammar.isReserved x) := by decide +kernel
    intro x hx
    have hne : ∀ name ∈ ["loop", "set", "rest"], x ≠ name := by
      rintro name hn rfl
      have hx' := List.all_eq_true.mp hfree x hn
      rw [hx] at hx'
      cases hx'
    simp only [List.forall_mem_cons] at hne
    rw [shuffle, if_neg hne.1, if_neg hne.2.1, if_neg hne.2.2.1]

/-- The labels are called like commands before and after, and words like them stand in a comment, in
a text and at the start of statements. -/
theorem assemble_rename_commands :
    ∃ r', assemble ":dat set [a + dat], loop ; set loop\r\n:jsr\n :loop dat dat, \"loop\", 1" =
        .ok r' ∧
      r'.hasErrors = false ∧
      r'.image? = some #[0x7D01, 0x0000, 0x0003, 0x0000, 0x006C, 0x006F, 0x006F, 0x0070, 0x0001] ∧
      r'.issues = [.unused 1 "jsr"] := by
  have hrename : rename shuffle
      ":loop set [a + loop], set ; set loop\r\n:rest\n :set dat loop, \"loop\", 1" =
        ":dat set [a + dat], loop ; set loop\r\n:jsr\n :loop dat dat, \"loop\", 1" := by
    decide +kernel
  have hnames : Diagnostics.names (Text.lines
      ":loop set [a + loop], set ; set loop\r\n:rest\n :set dat loop, \"loop\", 1") =
        ["loop", "set", "rest"] := by decide +kernel
  obtain ⟨-, r', hr, herrors, himage, warnings, hissues, hissues'⟩ := assemble_rename
    ":loop set [a + loop], set ; set loop\r\n:rest\n :set dat loop, \"loop\", 1" _
    #[0x7D01, 0x0000, 0x0003, 0x0000, 0x006C, 0x006F, 0x006F, 0x0070, 0x0001] (assemble_eq _)
    (by decide +kernel) shuffle (by rw [hnames]; exact isRenaming_shuffle)
  rw [hrename] at hr
  refine ⟨r', hr, herrors, himage, ?_⟩
  have hwarnings : warnings.map (fun entry ↦ Issue.unused entry.1 entry.2) =
      [.unused 1 "rest"] := by
    rw [← hissues]
    decide +kernel
  obtain ⟨⟨line, name⟩, rfl, hentry⟩ := List.map_eq_singleton_iff.mp hwarnings
  obtain ⟨rfl, rfl⟩ := Issue.unused_inj hentry
  exact hissues'

end Renaming

end Dcpu16
