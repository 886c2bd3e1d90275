import Dcpu16.Proofs.Assembly.Substitution
import Dcpu16.Proofs.Line.Sums
import Mathlib.Logic.Relation

/-!
# Sources with reordered sums

The terms of a sum in brackets can be written in any order.  `Sums.Swaps` says so of the text of a
line: the terms of one sum change places, and the blanks in the sum and the spelling of its terms
may change with them.  Main statement: `Sums.assemble_swapped`, by which the image and the issues of
a source stay the same.
-/

namespace Dcpu16.Sums

open Token (Leads Piece)

variable {terms terms' : List Token} {pieces : List Piece} {rest : List Char}

/-- A line is another one with the terms of a sum in another order. -/
inductive Swaps : String → String → Prop
  | sum {before blanks rest : List Char} {front terms terms' : List Token}
      {pieces pieces' : List Piece} : (∀ b ∈ blanks, Text.isBlank b) →
      Leads front (before ++ (blanks ++ '[' :: (Piece.chars pieces ++ rest)))
        (blanks ++ '[' :: (Piece.chars pieces ++ rest)) →
      Grammar.Sum terms → terms.Perm terms' →
      pieces.map Piece.token = terms.intersperse .plus ++ [.closeBracket] →
      pieces'.map Piece.token = terms'.intersperse .plus ++ [.closeBracket] →
      Swaps (String.ofList (before ++ (blanks ++ '[' :: (Piece.chars pieces ++ rest))))
        (String.ofList (before ++ (blanks ++ '[' :: (Piece.chars pieces' ++ rest))))

/-! ## Reading sums -/

/-- Between two tokens that blanks would have to keep apart there is a sign in a sum. -/
theorem isChain_intersperse (terms : List Token) :
    (terms.intersperse Token.plus ++ [Token.closeBracket]).IsChain
      fun t t' ↦ ¬(t.isOpen ∧ t'.isOpen) := by
  induction terms with
  | nil => exact .singleton _
  | cons t terms ih =>
      cases terms with
      | nil => exact .cons_cons (fun h ↦ nomatch h.2) (.singleton _)
      | cons t' terms =>
          refine .cons_cons (fun h ↦ nomatch h.2) (List.isChain_cons.mpr ⟨?_, ih⟩)
          exact fun _ _ h ↦ nomatch h.1

theorem separated_pieces
    (h : pieces.map Piece.token = terms.intersperse .plus ++ [.closeBracket]) :
    Piece.Separated pieces := by
  have hchain := isChain_intersperse terms
  rw [← h, List.isChain_map] at hchain
  exact hchain.imp fun piece next hnot hopen hopen' ↦ (hnot ⟨hopen, hopen'⟩).elim

theorem leads_bracketed {blanks : List Char} (hblanks : ∀ b ∈ blanks, Text.isBlank b)
    (h : pieces.map Piece.token = terms.intersperse .plus ++ [.closeBracket]) (rest : List Char) :
    Leads (bracketed terms) (blanks ++ '[' :: (Piece.chars pieces ++ rest)) rest := by
  let opening : Piece := ⟨blanks, .openBracket, ['['], hblanks, .openBracket⟩
  refine .token (opening.read_chars fun hopen ↦ nomatch hopen) ?_
  rw [← h]
  refine Piece.leads_chars (separated_pieces h) fun piece hp ↦ ?_
  have hlast : (pieces.map Piece.token).getLast? = some .closeBracket := by
    rw [h, List.getLast?_concat]
  rw [List.getLast?_map, Option.mem_def.mp hp] at hlast
  rw [Option.some.inj hlast]
  exact fun hopen ↦ nomatch hopen

/-- Swapping terms in a text reorders its tokens. -/
theorem Swaps.reordered {text text' : String} (h : Swaps text text') :
    Reordered (Token.scan text.toList) (Token.scan text'.toList) := by
  cases h with
  | @sum before blanks rest front terms terms' pieces pieces' hblanks hfront hsum hperm htokens
      htokens' =>
      -- Of the sum the tokens in front of it see the first character, which stays the same.
      obtain ⟨used, hused, hsame⟩ := hfront.append
      obtain rfl := List.append_cancel_right hused
      have hfront' := hsame (blanks ++ '[' :: (Piece.chars pieces' ++ rest))
        (by cases blanks <;> rfl)
      rw [String.toList_ofList, String.toList_ofList, Token.scan_of_leads hfront,
        Token.scan_of_leads hfront', Token.scan_of_leads (leads_bracketed hblanks htokens rest),
        Token.scan_of_leads (leads_bracketed hblanks htokens' rest)]
      exact .append_left _ (.sum hsum hperm (.refl _))

/-- A line is read alike however often the terms of its sums are swapped. -/
theorem ofString_eq_of_swaps {text text' : String} (h : Relation.ReflTransGen Swaps text text') :
    Line.ofString text = Line.ofString text' := by
  induction h with
  | refl => rfl
  | tail _ hlast ih => exact ih.trans hlast.reordered.ofLexemes_eq

/-- A sum in brackets is the operand that its register, its label and its constants make up, and
with the terms of such sums in any order a source has the same image and the same issues. -/
theorem assemble_swapped :
    (∀ (terms : List Token) (rest : List Lexeme), Grammar.Sum terms →
      Operand.parse ((bracketed terms).map .ok ++ rest) = .ok (operand terms, rest)) ∧
    ∀ source source' : String,
      List.Forall₂ (Relation.ReflTransGen Swaps) (Text.lines source) (Text.lines source') →
      ∃ r r', assemble source = .ok r ∧ assemble source' = .ok r' ∧
        r'.image? = r.image? ∧ r'.issues = r.issues := by
  refine ⟨fun terms rest hsum ↦ parse_bracketed hsum rest, fun source source' h ↦ ?_⟩
  have hread := h.imp fun _ _ ↦ ofString_eq_of_swaps
  obtain ⟨r, hr, hr', -⟩ := Substitution.assemble_eq (.of_forall₂ hread)
  exact ⟨r, _, hr, hr', rfl, rfl⟩

/-- Constants that add up to zero leave nothing but the register, and a label may come last. -/
theorem assemble_swapped_label :
    Operand.parse ((bracketed [.number 0xFFFF, .number 1, .ident "A"]).map .ok) =
      .ok (.indirect .a, []) ∧
    ∃ r r', assemble "set [l+1 +A], 2\n:l" = .ok r ∧ assemble "set [A+ 1+l], 2\n:l" = .ok r' ∧
      r'.image? = r.image? ∧ r'.issues = r.issues := by
  have hzero : Grammar.Sum [.number 0xFFFF, .number 1, .ident "A"] :=
    Grammar.sum_iff.mpr ⟨List.cons_ne_nil _ _, ⟨some .a, none, 0⟩, by decide +kernel⟩
  have hsum : Grammar.Sum [.ident "l", .number 1, .ident "A"] :=
    Grammar.sum_iff.mpr ⟨List.cons_ne_nil _ _, ⟨some .a, some "l", 1⟩, by decide +kernel⟩
  refine ⟨(assemble_swapped.1 _ [] hzero).trans (by decide +kernel), ?_⟩
  have hnone : ∀ b ∈ ([] : List Char), Text.isBlank b := List.forall_mem_nil _
  have hblank : ∀ b ∈ [' '], Text.isBlank b := List.forall_mem_singleton.mpr (by decide)
  have hset : Token.read "set [l+1 +A], 2".toList =
      (.ok (some (.ident "set")), " [l+1 +A], 2".toList) := by decide +kernel
  have hlabel : Token.Spells (.ident "l") ['l'] := @Token.Spells.ident "l" (by decide)
  have hregister : Token.Spells (.ident "A") ['A'] := @Token.Spells.ident "A" (by decide)
  have hone : Token.Spells (.number 1) ['1'] :=
    .decimal ⟨by decide, [1], .cons ⟨by decide, .inl rfl⟩ .nil, by decide⟩
  have hswaps : Swaps "set [l+1 +A], 2" "set [A+ 1+l], 2" :=
    @Swaps.sum "set".toList [' '] ", 2".toList [.ident "set"] _ _
      [⟨[], _, _, hnone, hlabel⟩, ⟨[], _, _, hnone, .plus⟩, ⟨[], _, _, hnone, hone⟩,
        ⟨[' '], _, _, hblank, .plus⟩, ⟨[], _, _, hnone, hregister⟩,
        ⟨[], _, _, hnone, .closeBracket⟩]
      [⟨[], _, _, hnone, hregister⟩, ⟨[], _, _, hnone, .plus⟩, ⟨[' '], _, _, hblank, hone⟩,
        ⟨[], _, _, hnone, .plus⟩, ⟨[], _, _, hnone, hlabel⟩, ⟨[], _, _, hnone, .closeBracket⟩]
      hblank (.token hset (.here _)) hsum (List.reverse_perm _).symm rfl rfl
  exact assemble_swapped.2 _ _ (.cons (.single hswaps) (.cons .refl .nil))

end Dcpu16.Sums
