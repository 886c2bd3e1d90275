import Dcpu16.Proofs.Token.Spelling

/-!
# Passages of lines

A line can be read in parts.  `Token.Leads` says that reading token by token gets to a place of the
line, and what follows there matters to the tokens before it by its first character at most.  Main
statements: `Token.Piece.leads_chars`, by which written tokens lead behind them whatever follows,
and `Token.scan_comment`, by which a comment behind a line changes nothing.
-/

namespace Dcpu16.Token

variable {t : Token} {ts : List Token} {cs rest : List Char}

/-- Reading a text gives these tokens and then leaves a rest. -/
inductive Leads : List Token → List Char → List Char → Prop
  | here (cs : List Char) : Leads [] cs cs
  | token {t : Token} {ts : List Token} {cs mid rest : List Char} :
      read cs = (.ok (some t), mid) → Leads ts mid rest → Leads (t :: ts) cs rest

/-- Tokens at the front of a text are scanned first. -/
theorem scan_of_leads (h : Leads ts cs rest) : scan cs = ts.map .ok ++ scan rest := by
  induction h with
  | here cs => rfl
  | token hread _ ih => rw [List.map_cons, List.cons_append, ← ih, scan_eq, hread]

/-- The same tokens are read in front of any rest that starts with the same character. -/
theorem Leads.append (h : Leads ts cs rest) :
    ∃ used, cs = used ++ rest ∧
      ∀ rest', rest'.head? = rest.head? → Leads ts (used ++ rest') rest' := by
  induction h with
  | here cs => exact ⟨[], rfl, fun rest' _ ↦ .here rest'⟩
  | token hread _ ih =>
      obtain ⟨used', rfl, hused'⟩ := ih
      obtain ⟨used, -, rfl, hused⟩ := read_append hread
      refine ⟨used ++ used', (List.append_assoc ..).symm, fun rest' hhead ↦ ?_⟩
      rw [List.append_assoc]
      refine .token (hused _ fun _ ↦ ?_) (hused' rest' hhead)
      rw [List.head?_append, List.head?_append, hhead]

/-! ## Written tokens -/

theorem Stops.congr (h : Stops t rest) {rest' : List Char} (hhead : rest'.head? = rest.head?) :
    Stops t rest' := by
  intro hopen c hc
  exact h hopen c (hhead ▸ hc)

namespace Piece

theorem chars_cons (piece : Piece) (pieces : List Piece) (rest : List Char) :
    chars (piece :: pieces) ++ rest =
      piece.blanks ++ (piece.spelling ++ (chars pieces ++ rest)) := by
  rw [chars, List.flatMap_cons, List.append_assoc, List.append_assoc]
  rfl

theorem isSome_head?_chars (piece : Piece) (pieces : List Piece) :
    (chars (piece :: pieces)).head?.isSome := by
  obtain ⟨c, body, hspelling, -⟩ := readFrom_of_spells piece.spells
  have hchars := chars_cons piece pieces []
  rw [List.append_nil, hspelling] at hchars
  rw [hchars]
  cases piece.blanks <;> rfl

/-- Written tokens that are kept apart lead behind them, if the last one stops there. -/
theorem leads_chars {pieces : List Piece} (h : Separated pieces)
    (hlast : ∀ piece ∈ pieces.getLast?, Stops piece.token rest) :
    Leads (pieces.map token) (chars pieces ++ rest) rest := by
  induction pieces with
  | nil => exact .here rest
  | cons piece pieces ih =>
      have hstops : Stops piece.token (chars pieces ++ rest) := by
        cases pieces with
        | nil => exact hlast piece rfl
        | cons next pieces =>
            have hstops : Stops piece.token (chars (next :: pieces) ++ []) :=
              h.stops (.blanks fun b hb ↦ nomatch hb)
            refine hstops.congr ?_
            obtain ⟨c, hc⟩ := Option.isSome_iff_exists.mp (isSome_head?_chars next pieces)
            rw [List.head?_append, List.head?_append, hc]
            rfl
      rw [chars_cons]
      refine .token (piece.read_chars hstops) (ih (List.isChain_cons.mp h).2 ?_)
      cases pieces with
      | nil => exact fun piece hp ↦ nomatch hp
      | cons next pieces => rwa [List.getLast?_cons_cons] at hlast

end Piece

/-! ## Comments -/

/-- The end of a line may have a comment behind it. -/
theorem IsEnd.comment_behind (h : IsEnd cs) (text : List Char) : IsEnd (cs ++ ';' :: text) := by
  cases h with
  | blanks hb => exact .comment text hb
  | comment text' hb =>
      rw [List.append_assoc, List.cons_append]
      exact .comment _ hb

/-- A semicolon does not belong to the token in front of it. -/
theorem read_comment_behind (h : read cs = (.ok (some t), rest)) (text : List Char) :
    read (cs ++ ';' :: text) = (.ok (some t), rest ++ ';' :: text) := by
  cases rest with
  | nil =>
      obtain ⟨blanks, c, body, rfl, hblanks, -, -, hfrom⟩ := read_eq h
      obtain ⟨spelling, hbody, hspells⟩ := spells_of_readFrom hfrom
      rw [List.append_nil] at hbody
      subst hbody
      have hstops : Stops t (';' :: text) := by
        intro _ d hd
        obtain rfl := Option.some.inj hd
        decide
      rw [List.append_assoc]
      exact (⟨blanks, t, c :: body, hblanks, hspells⟩ : Piece).read_chars hstops
  | cons c rest =>
      obtain ⟨used, -, rfl, hused⟩ := read_append h
      rw [List.append_assoc]
      exact hused _ fun _ ↦ rfl

/-- A comment behind a line that can be read changes nothing. -/
theorem scan_comment (h : scan cs = ts.map .ok) (text : List Char) :
    scan (cs ++ ';' :: text) = ts.map .ok := by
  have hreads := scan_eq_iff.mp h
  clear h
  apply scan_eq_iff.mpr
  induction hreads with
  | eol hread => exact .eol (read_of_isEnd ((isEnd_of_read hread).comment_behind text))
  | token hread _ ih => exact .token (read_comment_behind hread text) ih

end Dcpu16.Token
