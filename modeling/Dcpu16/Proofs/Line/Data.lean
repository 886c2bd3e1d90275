import Dcpu16.Proofs.Token.Spelling

/-!
# Lines of data

What the items of a data statement stand for, one token at a time: a number or a character is a
word, a string is its UTF-16 units, and a name is the address of its label.  A line is read as the
items between its commas, and what they stand for comes one behind the other.  Main statements:
`Data.ofString_data`, and `Data.reads_string`, by which every string can be written.
-/

namespace Dcpu16

/-- The tokens of labels that a line marks. -/
def Line.markTokens (marks : List String) : List Token :=
  marks.flatMap fun name ↦ [.colon, .ident name]

theorem Line.parseFrom_markTokens (before marks : List String) (rest : List Lexeme) :
    Line.parseFrom before ((markTokens marks).map .ok ++ rest) =
      Line.parseFrom (marks.reverse ++ before) rest := by
  induction marks generalizing before with
  | nil => rfl
  | cons name marks ih =>
      rw [List.reverse_cons, List.append_assoc, List.singleton_append]
      exact ih (name :: before)

namespace Data

open Grammar (IsData isData_cons)

/-- The words that an item stands for, where labels have the given addresses. -/
def words (address : String → UInt16) : Token → List UInt16
  | .number w | .char w => [w]
  | .text s => Text.units s
  | .ident name => [address name]
  | _ => []

def isConstant : Token → Bool
  | .number _ | .char _ | .text _ => true
  | _ => false

def Read (tokens : List Token) (items : List (Item String)) : Prop :=
  List.Forall₂ (fun token item ↦ Item.ofToken? token = some item) tokens items

variable {t : Token} {item : Item String} {ts tokens : List Token} {items : List (Item String)}

/-! ## Items -/

theorem exists_read (h : ∀ t ∈ ts, Grammar.isItem t) : ∃ items, Read ts items := by
  induction ts with
  | nil => exact ⟨[], .nil⟩
  | cons t ts ih =>
      obtain ⟨ht, hts⟩ := List.forall_mem_cons.mp h
      obtain ⟨items, hitems⟩ := ih hts
      obtain ⟨item, hitem⟩ := Option.isSome_iff_exists.mp ((Grammar.isSome_ofToken? t).mpr ht)
      exact ⟨item :: items, .cons hitem hitems⟩

/-- A list of items is read as the items between its commas. -/
theorem parseFrom_eq (found : List (Item String)) (hdata : IsData ts tokens) (h : Read ts items) :
    Item.parseFrom found (tokens.map .ok) = .ok (found.reverse ++ items) := by
  induction h generalizing found tokens with
  | nil =>
      obtain rfl : tokens = [] := by simpa [IsData] using hdata
      rw [List.append_nil]
      rfl
  | @cons t item ts items hitem htail ih =>
      have hfound : found.reverse ++ item :: items = (item :: found).reverse ++ items := by simp
      rw [hfound]
      rcases isData_cons.mp hdata with ⟨rfl, rfl⟩ | ⟨tokens, rfl, htokens⟩
      · obtain rfl := List.forall₂_nil_left_iff.mp htail
        rw [List.map_singleton, Item.parseFrom, hitem, List.append_nil]
      · rw [List.map_cons, List.map_cons, Item.parseFrom, hitem]
        exact ih (item :: found) htokens

/-- A name that is an item is the address of the label of that name. -/
theorem eq_address_of_ofToken? {name : String} (h : Item.ofToken? (.ident name) = some item) :
    item = .address name := by
  have hname := Grammar.ofString_spec name
  rw [Item.ofToken?] at h
  cases hof : Name.ofString name with
  | register r =>
      rw [hof] at h
      cases h
  | special s =>
      rw [hof] at h
      cases h
  | label l =>
      rw [hof] at h hname
      rw [← Option.some.inj h, hname.1]

/-- The cells of an item hold the words that the item stands for. -/
theorem map_value_cells (address? : String → Option UInt16) (h : Item.ofToken? t = some item) :
    item.cells.map (Cell.value address?) = words (fun name ↦ (address? name).getD 0) t := by
  cases t with
  | number w =>
      obtain rfl := Option.some.inj h
      rfl
  | char w =>
      obtain rfl := Option.some.inj h
      rfl
  | text s =>
      obtain rfl := Option.some.inj h
      rw [Item.cells, List.map_map]
      exact List.map_id _
  | ident name =>
      obtain rfl := eq_address_of_ofToken? h
      show [Cell.value address? ⟨0, some name⟩] = [(address? name).getD 0]
      rw [Cell.value]
      cases hl : address? name <;> simp [hl]
  | _ => cases h

/-- The cells of data have the values of its tokens, one after the other. -/
theorem flatMap_words (address? : String → Option UInt16) (h : Read ts items) :
    (items.flatMap Item.cells).map (Cell.value address?) =
      ts.flatMap (words fun name ↦ (address? name).getD 0) := by
  induction h with
  | nil => rfl
  | cons hitem _ ih =>
      rw [List.flatMap_cons, List.flatMap_cons, List.map_append, map_value_cells address? hitem, ih]

/-! ## Lines -/

/-- A line of data is read as what it marks and its items. -/
theorem ofString_data {text command : String} {marks : List String}
    (hreads : Token.Reads text.toList (Line.markTokens marks ++ .ident command :: tokens))
    (hcommand : command.toLower = "dat") (hdata : IsData ts tokens) (h : Read ts items) :
    Line.ofString text = ⟨marks, .ok (some (.data items))⟩ := by
  rw [Line.ofString, Token.scan_eq_iff.mpr hreads, Line.ofLexemes, List.map_append,
    Line.parseFrom_markTokens, List.append_nil, List.map_cons, Line.parseFrom, Statement.parse,
    if_pos hcommand, parseFrom_eq [] hdata h, List.reverse_reverse]
  rfl

/-! ## Strings -/

/-- How a character may be written in a string of one line: a backslash, a quote and a line feed
as their escapes, any other character as itself or as its escape if it has one. -/
abbrev Spelled : Char → List Char → Prop :=
  Token.Written fun c ↦ c ≠ '\\' ∧ c ≠ '"' ∧ c ≠ '\n'

/-- The line of data that holds a string, which is given by how its characters are written. -/
def stringLine (parts : List (List Char)) : String :=
  "dat \"" ++ String.ofList parts.flatten ++ "\""

/-- Every string can be written in one line. -/
theorem exists_spelled (cs : List Char) : ∃ parts, List.Forall₂ Spelled cs parts := by
  induction cs with
  | nil => exact ⟨[], .nil⟩
  | cons c cs ih =>
      obtain ⟨parts, hparts⟩ := ih
      by_cases hc : c = '\n'
      · subst hc
        exact ⟨['\\', 'n'] :: parts, .cons (.escape (by decide)) hparts⟩
      · obtain ⟨part, hpart⟩ : ∃ part, Token.Written (fun c ↦ c ≠ '\\' ∧ c ≠ '"') c part :=
          Token.exists_written (fun _ ↦ And.intro) c
        refine ⟨part :: parts, .cons ?_ hparts⟩
        cases hpart with
        | plain h => exact .plain ⟨h.1, h.2, hc⟩
        | escape he => exact .escape he

variable {parts : List (List Char)}

theorem newline_notMem_flatten {cs : List Char} (h : List.Forall₂ Spelled cs parts) :
    '\n' ∉ parts.flatten := by
  have hescapes : ∀ entry ∈ Token.escapes, '\n' ∉ ['\\', entry.1] := by decide
  induction h with
  | nil => exact List.not_mem_nil
  | cons hc _ ih =>
      rw [List.flatten_cons, List.mem_append, not_or]
      refine ⟨?_, ih⟩
      cases hc with
      | plain h => exact fun hmem ↦ h.2.2 (List.mem_singleton.mp hmem).symm
      | escape he => exact hescapes _ he

/-- The line of a string is one line, also if there are line feeds in the string. -/
theorem newline_notMem_stringLine {cs : List Char} (h : List.Forall₂ Spelled cs parts) :
    '\n' ∉ (stringLine parts).toList := by
  have hflatten := newline_notMem_flatten h
  simp [stringLine, hflatten]

/-- The line of a string is read as the command and the string. -/
theorem reads_string {s : String} (h : List.Forall₂ Spelled s.toList parts) :
    Token.Reads (stringLine parts).toList [.ident "dat", .text s] := by
  have hwritten : List.Forall₂ (Token.Written fun c ↦ c ≠ '\\' ∧ c ≠ '"') s.toList parts := by
    refine h.imp fun c part hc ↦ ?_
    cases hc with
    | plain hc => exact .plain ⟨hc.1, hc.2.1⟩
    | escape he => exact .escape he
  have htext := Token.Spells.text hwritten
  rw [String.ofList_toList] at htext
  have hcommand : Token.isIdentifier "dat" := by decide
  have hblank : ∀ b ∈ [' '], Text.isBlank b := List.forall_mem_singleton.mpr (by decide)
  let pieces : List Token.Piece := [⟨[], .ident "dat", "dat".toList, by simp, .ident hcommand⟩,
    ⟨[' '], .text s, '"' :: (parts.flatten ++ ['"']), hblank, htext⟩]
  have hseparated : Token.Piece.Separated pieces :=
    .cons_cons (fun _ hopen ↦ nomatch hopen) (.singleton _)
  have hend : Token.IsEnd [] := .blanks fun b hb ↦ nomatch hb
  have hline : (stringLine parts).toList = Token.Piece.chars pieces ++ [] := by
    simp [stringLine, pieces, Token.Piece.chars]
  rw [hline]
  exact Token.Piece.reads_chars hseparated hend

end Data

end Dcpu16
