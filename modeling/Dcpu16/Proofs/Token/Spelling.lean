import Dcpu16.Proofs.Line.Grammar
import Dcpu16.Proofs.Line.Respelling
import Dcpu16.Proofs.Token.Numeral
import Mathlib.Data.List.Chain

/-!
# Spellings

How tokens may be written, apart from how they are read.  A number has many spellings, with either
radix and with any zeros in front, and so has a literal, in which a character may stand for itself
or be given by an escape.  The text of a line is a sequence of pieces, each of them the spelling of
a token behind blanks, up to the end of the line or a comment.

A line whose pieces are kept apart is read as the tokens that were written, and a line that can be
read is made of pieces that spell what was read.  Main statement: `Token.scan_spelled`.
-/

namespace Dcpu16.Token

/-! ## Spellings of tokens -/

/-- The escapes: what follows the backslash, and the character that is meant. -/
def escapes : List (Char × Char) :=
  [('n', '\n'), ('r', '\r'), ('t', '\t'), ('v', '\x0b'), ('\\', '\\'), ('\'', '\''), ('"', '"')]

/-- How a character may be written in a literal: as itself, if it is plain there, or as an
escape. -/
inductive Written (plain : Char → Prop) : Char → List Char → Prop
  | plain {c : Char} : plain c → Written plain c [c]
  | escape {e c : Char} : (e, c) ∈ escapes → Written plain c ['\\', e]

/-- How a token may be written. -/
inductive Spells : Token → List Char → Prop
  | decimal {w : UInt16} {digits : List Char} : Numeral.Denotes 10 digits w.toNat →
      Spells (.number w) digits
  | hexadecimal {w : UInt16} {digits : List Char} : Numeral.Denotes 16 digits w.toNat →
      Spells (.number w) ('0' :: 'x' :: digits)
  | ident {name : String} : isIdentifier name → Spells (.ident name) name.toList
  /-- An apostrophe may stand for itself between apostrophes. -/
  | char {c : Char} {chars : List Char} : c.toNat ≤ 0xFFFF → Written (· ≠ '\\') c chars →
      Spells (.char c.toNat.toUInt16) ('\'' :: (chars ++ ['\'']))
  | text {cs : List Char} {parts : List (List Char)} :
      List.Forall₂ (Written fun c ↦ c ≠ '\\' ∧ c ≠ '"') cs parts →
      Spells (.text (String.ofList cs)) ('"' :: (parts.flatten ++ ['"']))
  | comma : Spells .comma [',']
  | colon : Spells .colon [':']
  | plus : Spells .plus ['+']
  | openBracket : Spells .openBracket ['[']
  | closeBracket : Spells .closeBracket [']']

/-- Whether a token can be written: all can, except names that are no identifiers and characters
that are half of a surrogate pair. -/
def isWritable : Token → Bool
  | .ident name => isIdentifier name
  | .char w => w.toNat < 0xD800 ∨ 0xDFFF < w.toNat
  | _ => true

/-! ## Spellings of lines -/

/-- A token in a line, with the blanks in front of it and its text. -/
structure Piece where
  blanks : List Char
  token : Token
  spelling : List Char
  isBlank : ∀ b ∈ blanks, Text.isBlank b
  spells : Spells token spelling

def Piece.chars (pieces : List Piece) : List Char :=
  pieces.flatMap fun piece ↦ piece.blanks ++ piece.spelling

/-- Blanks stand between a number or an identifier and another one right behind it. -/
def Piece.Separated (pieces : List Piece) : Prop :=
  pieces.IsChain fun piece next ↦ piece.token.isOpen → next.token.isOpen → next.blanks ≠ []

/-- What can follow the last token of a line: blanks, or a comment behind blanks. -/
inductive IsEnd : List Char → Prop
  | blanks {blanks : List Char} : (∀ b ∈ blanks, Text.isBlank b) → IsEnd blanks
  | comment {blanks : List Char} (text : List Char) : (∀ b ∈ blanks, Text.isBlank b) →
      IsEnd (blanks ++ ';' :: text)

/-! ## Characters of literals -/

/-- The escapes are those in the table. -/
theorem unescape?_eq_some_iff {e c : Char} : unescape? e = some c ↔ (e, c) ∈ escapes := by
  unfold unescape? escapes
  split <;> simp_all [eq_comm]

/-- A character that may stand in a literal is read as what it means. -/
theorem readChar_eq_ok_iff {cs rest : List Char} {c : Char} :
    readChar cs = (.ok c, rest) ↔ ∃ chars, Written (· ≠ '\\') c chars ∧ cs = chars ++ rest := by
  constructor
  · intro h
    unfold readChar at h
    split at h
    · cases h
    · cases h
    · next e cs =>
      split at h
      · next c' he =>
        obtain ⟨hc, rfl⟩ := Prod.mk.inj h
        obtain rfl := Except.ok.inj hc
        exact ⟨['\\', e], .escape (unescape?_eq_some_iff.mp he), rfl⟩
      · cases h
    · next c' cs hnil hcons =>
      obtain ⟨hc, rfl⟩ := Prod.mk.inj h
      obtain rfl := Except.ok.inj hc
      refine ⟨[c'], .plain ?_, rfl⟩
      rintro rfl
      cases cs with
      | nil => exact hnil rfl rfl
      | cons e cs => exact hcons e cs rfl rfl
  · rintro ⟨chars, hwritten, rfl⟩
    cases hwritten with
    | plain hc => exact readChar_of_ne hc rest
    | escape he =>
        show readChar ('\\' :: _ :: rest) = _
        rw [readChar, unescape?_eq_some_iff.mpr he]

/-- A quoted character is read if and only if it is written in quotes and fits in a word. -/
theorem readQuoted_eq_ok_iff {cs rest : List Char} {t : Token} :
    readQuoted cs = (.ok t, rest) ↔
      ∃ c chars, c.toNat ≤ 0xFFFF ∧ Written (· ≠ '\\') c chars ∧ t = .char c.toNat.toUInt16 ∧
        cs = chars ++ '\'' :: rest := by
  constructor
  · intro h
    unfold readQuoted at h
    split at h
    · cases h
    · next c cs' hread =>
      split at h
      · next hc =>
        obtain ⟨ht, rfl⟩ := Prod.mk.inj h
        obtain ⟨chars, hwritten, hcs⟩ := readChar_eq_ok_iff.mp hread
        exact ⟨c, chars, hc, hwritten, (Except.ok.inj ht).symm, hcs⟩
      · cases h
    · cases h
  · rintro ⟨c, chars, hc, hwritten, rfl, rfl⟩
    have hread : readChar (chars ++ '\'' :: rest) = (.ok c, '\'' :: rest) :=
      readChar_eq_ok_iff.mpr ⟨chars, hwritten, rfl⟩
    rw [readQuoted, hread]
    exact if_pos hc

/-- A string is read however its characters are written. -/
theorem readText_of_written {found chars rest : List Char} {parts : List (List Char)}
    (h : List.Forall₂ (Written fun c ↦ c ≠ '\\' ∧ c ≠ '"') chars parts) :
    readText found (parts.flatten ++ '"' :: rest) =
      (.ok (.text (String.ofList (found.reverse ++ chars))), rest) := by
  induction h generalizing found with
  | nil =>
      rw [List.flatten_nil, List.nil_append, List.append_nil, readText]
  | @cons c part chars parts hc _ ih =>
      have hfound : found.reverse ++ c :: chars = (c :: found).reverse ++ chars := by simp
      rw [List.flatten_cons, List.append_assoc, hfound, ← ih]
      cases hc with
      | plain hplain => exact readText_of_ne hplain.2 hplain.1 found _
      | escape he =>
          show readText found ('\\' :: _ :: _) = _
          rw [readText, unescape?_eq_some_iff.mpr he]
          rfl

/-- The characters of a string are read one after the other up to the closing quote. -/
theorem written_of_readText {found cs rest : List Char} {t : Token}
    (h : readText found cs = (.ok t, rest)) :
    ∃ chars parts, List.Forall₂ (Written fun c ↦ c ≠ '\\' ∧ c ≠ '"') chars parts ∧
      t = .text (String.ofList (found.reverse ++ chars)) ∧ cs = parts.flatten ++ '"' :: rest := by
  fun_induction readText found cs with
  | case1 => cases h
  | case2 found cs =>
      obtain ⟨ht, rfl⟩ := Prod.mk.inj h
      refine ⟨[], [], .nil, ?_, rfl⟩
      rw [List.append_nil, Except.ok.inj ht]
  | case3 => cases h
  | case4 found e cs c he ih =>
      obtain ⟨chars, parts, hwritten, rfl, rfl⟩ := ih h
      refine ⟨c :: chars, ['\\', e] :: parts, .cons (.escape ?_) hwritten, ?_, rfl⟩
      · exact unescape?_eq_some_iff.mp he
      · rw [List.reverse_cons, List.append_assoc, List.singleton_append]
  | case5 => cases h
  | case6 found c cs hquote hnil hcons ih =>
      obtain ⟨chars, parts, hwritten, rfl, rfl⟩ := ih h
      refine ⟨c :: chars, [c] :: parts, .cons (.plain ⟨?_, hquote⟩) hwritten, ?_, rfl⟩
      · rintro rfl
        cases hcs : parts.flatten ++ '"' :: rest with
        | nil => exact hnil rfl hcs
        | cons e cs => exact hcons e cs rfl hcs
      · rw [List.reverse_cons, List.append_assoc, List.singleton_append]

/-! ## Numbers -/

theorem isDigit_of_lt_ten {c : Char} {d : Nat} (h : IsDigit 10 c d) : c.isDigit := by
  have hdigits : ∀ d < 10, (lowerDigits[d]?.all Char.isDigit) ∧
      (upperDigits[d]?.all Char.isDigit) := by
    decide
  obtain ⟨hlower, hupper⟩ := hdigits d h.lt
  rcases h.spelled with hc | hc
  · rwa [hc] at hlower
  · rwa [hc] at hupper

theorem isHexDigit_of_denotes {radix : Nat} (hradix : radix ≤ 16) {digits : List Char} {n : Nat}
    (h : Numeral.Denotes radix digits n) : ∀ c ∈ digits, isHexDigit c := by
  obtain ⟨-, values, hvalues, -⟩ := h
  induction hvalues with
  | nil => exact fun c hc ↦ absurd hc List.not_mem_nil
  | @cons c d digits values hd _ ih =>
      have hc : isHexDigit c := by
        rw [isHexDigit, ((Numeral.isDigit_iff hradix).mp hd).1]
        rfl
      exact List.forall_mem_cons.mpr ⟨hc, ih⟩

theorem isIdentRest_of_isHexDigit {c : Char} (h : isHexDigit c) : isIdentRest c := by
  have hdigits : (lowerDigits ++ upperDigits).all isIdentRest = true := by decide
  obtain ⟨d, hd⟩ := Option.isSome_iff_exists.mp h
  apply List.all_eq_true.mp hdigits
  rcases (Numeral.digits_of_digitValue? hd).2 with hc | hc
  · exact List.mem_append_left _ (List.mem_of_getElem? hc)
  · exact List.mem_append_right _ (List.mem_of_getElem? hc)

/-- What cannot belong to an identifier cannot belong to a number either. -/
theorem not_isHexDigit {rest : List Char} (h : ∀ c ∈ rest.head?, isIdentRest c = false) :
    ∀ c ∈ rest.head?, isHexDigit c = false := by
  intro c hc
  rw [Bool.eq_false_iff]
  intro hdigit
  exact Bool.eq_false_iff.mp (h c hc) (isIdentRest_of_isHexDigit hdigit)

/-- A numeral is read if and only if its digits denote a word. -/
theorem token_eq_ok_iff {radix : Nat} (hpos : 0 < radix) (hradix : radix ≤ 16)
    {digits : List Char} {t : Token} :
    (⟨radix, digits⟩ : Numeral).token = .ok t ↔
      ∃ w, t = .number w ∧ Numeral.Denotes radix digits w.toNat := by
  rw [Numeral.token]
  constructor
  · intro h
    split at h
    · next n hn =>
      obtain ⟨hdenotes, hfits⟩ := (Numeral.value?_eq_some_iff hpos hradix).mp hn
      refine ⟨n.toUInt16, (Except.ok.inj h).symm, ?_⟩
      rwa [UInt16.toNat_ofNat_of_lt' hfits]
    · cases h
  · rintro ⟨w, rfl, hdenotes⟩
    rw [(Numeral.value?_eq_some_iff hpos hradix).mpr ⟨hdenotes, w.toNat_lt⟩]
    simp

/-- A number in base ten goes on up to a character that cannot follow in it.  In front of it there
is no letter that would make a number in base sixteen of a zero. -/
theorem split_decimal {c : Char} {digits rest : List Char} (hdigits : ∀ d ∈ digits, isHexDigit d)
    (hrest : ∀ d ∈ rest.head?, isIdentRest d = false) :
    Numeral.split c (digits ++ rest) = (⟨10, c :: digits⟩, rest) := by
  obtain ⟨htake, hdrop⟩ := takeWhile_append hdigits (not_isHexDigit hrest)
  unfold Numeral.split
  split
  · next tail heq =>
    exfalso
    cases digits with
    | nil =>
        rw [List.nil_append] at heq
        rw [heq] at hrest
        exact absurd (hrest 'x' rfl) (by decide)
    | cons d digits =>
        obtain ⟨rfl, -⟩ := List.cons.inj heq
        exact absurd (hdigits 'x' List.mem_cons_self) (by decide)
  · rw [htake, hdrop]

/-- Behind `0x` a numeral takes all hexadecimal digits. -/
theorem split_hexadecimal {digits rest : List Char} (hdigits : ∀ d ∈ digits, isHexDigit d)
    (hrest : ∀ d ∈ rest.head?, isIdentRest d = false) :
    Numeral.split '0' ('x' :: (digits ++ rest)) = (⟨16, digits⟩, rest) := by
  obtain ⟨htake, hdrop⟩ := takeWhile_append hdigits (not_isHexDigit hrest)
  rw [Numeral.split, htake, hdrop]

/-! ## Tokens -/

/-- Where a token that can go on is followed by another character, this one does not belong to
it. -/
def Stops (t : Token) (rest : List Char) : Prop :=
  t.isOpen → ∀ c ∈ rest.head?, isIdentRest c = false

theorem ne_semicolon_of_isIdentRest {c : Char} (h : isIdentRest c) : c ≠ ';' := by
  rintro rfl
  exact absurd h (by decide)

theorem isIdentRest_of_isDigit {c : Char} (h : c.isDigit) : isIdentRest c := by
  rw [isIdentRest, h, Bool.or_true]

/-- The first character of a token tells how to read it, and the token is read up to its end. -/
theorem readFrom_of_spells {t : Token} {cs : List Char} (h : Spells t cs) :
    ∃ c body, cs = c :: body ∧ Text.isBlank c = false ∧ c ≠ ';' ∧
      ∀ rest, Stops t rest → readFrom c (body ++ rest) = (.ok t, rest) := by
  cases h with
  | @decimal w _ hdenotes =>
      cases cs with
      | nil => exact absurd rfl hdenotes.1
      | cons c digits =>
          obtain ⟨-, values, hvalues, -⟩ := id hdenotes
          have hc : c.isDigit := by
            cases hvalues with
            | cons hd _ => exact isDigit_of_lt_ten hd
          have hdigits := isHexDigit_of_denotes (by decide) hdenotes
          refine ⟨c, digits, rfl, isBlank_of_isIdentRest (isIdentRest_of_isDigit hc),
            ne_semicolon_of_isIdentRest (isIdentRest_of_isDigit hc), ?_⟩
          intro rest hrest
          rw [readFrom_of_isDigit hc,
            split_decimal (List.forall_mem_cons.mp hdigits).2 (hrest rfl)]
          exact Prod.ext ((token_eq_ok_iff (by decide) (by decide)).mpr ⟨w, rfl, hdenotes⟩) rfl
  | @hexadecimal w digits hdenotes =>
      refine ⟨'0', 'x' :: digits, rfl, by decide, by decide, ?_⟩
      intro rest hrest
      rw [readFrom_of_isDigit (by decide), List.cons_append,
        split_hexadecimal (isHexDigit_of_denotes (by decide) hdenotes) (hrest rfl)]
      exact Prod.ext ((token_eq_ok_iff (by decide) (by decide)).mpr ⟨w, rfl, hdenotes⟩) rfl
  | @ident name hname =>
      obtain ⟨c, body, hlist, hc, hbody⟩ := isIdentifier_iff.mp hname
      refine ⟨c, body, hlist, isBlank_of_isIdentRest (isIdentRest_of_isIdentStart hc),
        ne_semicolon_of_isIdentRest (isIdentRest_of_isIdentStart hc), ?_⟩
      intro rest hrest
      obtain ⟨htake, hdrop⟩ := takeWhile_append hbody (hrest rfl)
      rw [readFrom_of_isIdentStart hc, htake, hdrop, ← hlist, String.ofList_toList]
  | @char c chars hc hwritten =>
      refine ⟨'\'', _, rfl, by decide, by decide, ?_⟩
      intro rest _
      rw [List.append_assoc]
      exact readQuoted_eq_ok_iff.mpr ⟨c, chars, hc, hwritten, rfl, rfl⟩
  | @text cs parts hwritten =>
      refine ⟨'"', _, rfl, by decide, by decide, ?_⟩
      intro rest _
      rw [List.append_assoc]
      exact readText_of_written hwritten
  | comma => exact ⟨',', [], rfl, by decide, by decide, fun rest _ ↦ rfl⟩
  | colon => exact ⟨':', [], rfl, by decide, by decide, fun rest _ ↦ rfl⟩
  | plus => exact ⟨'+', [], rfl, by decide, by decide, fun rest _ ↦ rfl⟩
  | openBracket => exact ⟨'[', [], rfl, by decide, by decide, fun rest _ ↦ rfl⟩
  | closeBracket => exact ⟨']', [], rfl, by decide, by decide, fun rest _ ↦ rfl⟩

/-- A number was read from a spelling of it. -/
theorem spells_of_split {c : Char} {cs : List Char} {t : Token}
    (h : (Numeral.split c cs).1.token = .ok t) :
    ∃ body, cs = body ++ (Numeral.split c cs).2 ∧ Spells t (c :: body) := by
  unfold Numeral.split at h ⊢
  split at h
  · next rest =>
    obtain ⟨w, rfl, hdenotes⟩ := (token_eq_ok_iff (by decide) (by decide)).mp h
    refine ⟨'x' :: rest.takeWhile isHexDigit, ?_, .hexadecimal hdenotes⟩
    rw [List.cons_append, List.takeWhile_append_dropWhile]
  · obtain ⟨w, rfl, hdenotes⟩ := (token_eq_ok_iff (by decide) (by decide)).mp h
    exact ⟨cs.takeWhile isHexDigit, List.takeWhile_append_dropWhile.symm, .decimal hdenotes⟩

/-- A token was read from a spelling of it. -/
theorem spells_of_readFrom {c : Char} {cs rest : List Char} {t : Token}
    (h : readFrom c cs = (.ok t, rest)) : ∃ body, cs = body ++ rest ∧ Spells t (c :: body) := by
  by_cases hdigit : c.isDigit
  · rw [readFrom_of_isDigit hdigit] at h
    obtain ⟨ht, rfl⟩ := Prod.mk.inj h
    exact spells_of_split ht
  · by_cases hstart : isIdentStart c
    · rw [readFrom_of_isIdentStart hstart] at h
      obtain ⟨ht, rfl⟩ := Prod.mk.inj h
      obtain rfl := Except.ok.inj ht
      refine ⟨cs.takeWhile isIdentRest, List.takeWhile_append_dropWhile.symm, ?_⟩
      have hlist : (String.ofList (c :: cs.takeWhile isIdentRest)).toList =
          c :: cs.takeWhile isIdentRest := String.toList_ofList
      have hname : isIdentifier (String.ofList (c :: cs.takeWhile isIdentRest)) :=
        isIdentifier_iff.mpr ⟨c, _, hlist, hstart, fun d hd ↦ List.mem_takeWhile_imp hd⟩
      have hspells := Spells.ident hname
      rwa [hlist] at hspells
    · unfold readFrom at h
      rw [if_neg hdigit, if_neg hstart] at h
      split at h
      · obtain ⟨c, chars, hc, hwritten, rfl, rfl⟩ := readQuoted_eq_ok_iff.mp h
        refine ⟨chars ++ ['\''], ?_, .char hc hwritten⟩
        rw [List.append_assoc, List.singleton_append]
      · obtain ⟨chars, parts, hwritten, rfl, rfl⟩ := written_of_readText h
        refine ⟨parts.flatten ++ ['"'], ?_, .text hwritten⟩
        rw [List.append_assoc, List.singleton_append]
      iterate 5
        · obtain ⟨ht, rfl⟩ := Prod.mk.inj h
          obtain rfl := Except.ok.inj ht
          exact ⟨[], rfl, by constructor⟩
      · cases (Prod.mk.inj h).1

/-! ## Lines -/

theorem isIdentRest_of_isBlank {c : Char} (h : Text.isBlank c) : isIdentRest c = false := by
  rw [Bool.eq_false_iff]
  intro hrest
  exact Bool.eq_false_iff.mp (isBlank_of_isIdentRest hrest) h

/-- Only a token that can go on starts like one that can. -/
theorem head?_of_spells {t : Token} {cs : List Char} (h : Spells t cs) (ht : t.isOpen = false) :
    ∀ c ∈ cs.head?, isIdentRest c = false := by
  intro c hc
  cases h with
  | decimal | hexadecimal | ident => cases ht
  | _ => obtain rfl := Option.some.inj hc; decide

/-- What stands behind blanks does not matter unless there are none. -/
theorem head?_blanks {blanks rest : List Char} (hb : ∀ b ∈ blanks, Text.isBlank b)
    (hrest : blanks = [] → ∀ c ∈ rest.head?, isIdentRest c = false) :
    ∀ c ∈ (blanks ++ rest).head?, isIdentRest c = false := by
  cases blanks with
  | nil => exact hrest rfl
  | cons b blanks =>
      intro c hc
      obtain rfl := Option.some.inj hc
      exact isIdentRest_of_isBlank (hb b List.mem_cons_self)

theorem head?_of_isEnd {rest : List Char} (h : IsEnd rest) :
    ∀ c ∈ rest.head?, isIdentRest c = false := by
  cases h with
  | blanks hb =>
      rw [← List.append_nil rest]
      exact head?_blanks hb fun _ c hc ↦ nomatch hc
  | comment text hb =>
      apply head?_blanks hb
      intro _ c hc
      obtain rfl := Option.some.inj hc
      decide

/-- The end of a line is read as such. -/
theorem read_of_isEnd {rest : List Char} (h : IsEnd rest) : read rest = (.ok none, []) := by
  cases h with
  | blanks hb =>
      have hdrop : rest.dropWhile Text.isBlank = [] := List.dropWhile_eq_nil_iff.mpr hb
      rw [read, hdrop]
  | @comment blanks text hb =>
      have hstop : ∀ c ∈ (';' :: text).head?, Text.isBlank c = false := by
        intro c hc
        obtain rfl := Option.some.inj hc
        decide
      rw [read, (takeWhile_append hb hstop).2]
      rfl

/-- Where the reader finds the end of a line are only blanks and a comment. -/
theorem isEnd_of_read {cs rest : List Char} (h : read cs = (.ok none, rest)) : IsEnd cs := by
  have hcs := List.takeWhile_append_dropWhile (p := Text.isBlank) (l := cs)
  have hblanks : ∀ b ∈ cs.takeWhile Text.isBlank, Text.isBlank b := fun b hb ↦
    List.mem_takeWhile_imp hb
  unfold read at h
  split at h
  · next heq =>
    rw [heq, List.append_nil] at hcs
    rw [← hcs]
    exact .blanks hblanks
  · next text heq =>
    rw [heq] at hcs
    rw [← hcs]
    exact .comment text hblanks
  · next c body _ heq =>
    generalize readFrom c body = result at h
    obtain ⟨lexeme, left⟩ := result
    cases lexeme with
    | error e => cases (Prod.mk.inj h).1
    | ok t => cases (Prod.mk.inj h).1

namespace Piece

/-- A token is read from its piece, if it stops there. -/
theorem read_chars (piece : Piece) {rest : List Char} (h : Stops piece.token rest) :
    read (piece.blanks ++ (piece.spelling ++ rest)) = (.ok (some piece.token), rest) := by
  obtain ⟨c, body, hspelling, hblank, hsemicolon, hread⟩ := readFrom_of_spells piece.spells
  rw [hspelling, List.cons_append]
  exact read_blanks piece.isBlank hblank hsemicolon (hread rest h)

/-- Pieces that are kept apart stop where the next one starts. -/
theorem Separated.stops {piece : Piece} {pieces : List Piece} {rest : List Char}
    (h : Separated (piece :: pieces)) (hrest : IsEnd rest) :
    Stops piece.token (chars pieces ++ rest) := by
  intro hopen
  cases pieces with
  | nil => exact head?_of_isEnd hrest
  | cons next pieces =>
      have hnext := (List.isChain_cons_cons.mp h).1 hopen
      rw [chars, List.flatMap_cons, List.append_assoc, List.append_assoc]
      apply head?_blanks next.isBlank
      intro hnone
      have hclosed : next.token.isOpen = false := Bool.eq_false_iff.mpr fun ho ↦ hnext ho hnone
      obtain ⟨c, body, hspelling, -⟩ := readFrom_of_spells next.spells
      have hhead := head?_of_spells next.spells hclosed
      rw [hspelling] at hhead ⊢
      exact hhead

/-- Separated spellings are read as their tokens. -/
theorem reads_chars {pieces : List Piece} {rest : List Char} (h : Separated pieces)
    (hrest : IsEnd rest) : Reads (chars pieces ++ rest) (pieces.map token) := by
  induction pieces with
  | nil => exact .eol (read_of_isEnd hrest)
  | cons piece pieces ih =>
      have hread := piece.read_chars (h.stops hrest)
      have hchars : chars (piece :: pieces) ++ rest =
          piece.blanks ++ (piece.spelling ++ (chars pieces ++ rest)) := by
        rw [chars, List.flatMap_cons, List.append_assoc, List.append_assoc]
        rfl
      rw [hchars]
      exact .token hread (ih (List.isChain_cons.mp h).2)

end Piece

/-- What was read as tokens was made of pieces that spell them. -/
theorem exists_pieces {cs : List Char} {tokens : List Token} (h : Reads cs tokens) :
    ∃ pieces rest, cs = Piece.chars pieces ++ rest ∧ pieces.map Piece.token = tokens ∧
      IsEnd rest := by
  induction h with
  | @eol cs _ hread => exact ⟨[], cs, rfl, rfl, isEnd_of_read hread⟩
  | @token cs rest t tokens hread _ ih =>
      obtain ⟨pieces, rest', rfl, rfl, hend⟩ := ih
      obtain ⟨blanks, c, body, rfl, hblanks, -, -, hfrom⟩ := read_eq hread
      obtain ⟨spelling, rfl, hspells⟩ := spells_of_readFrom hfrom
      refine ⟨⟨blanks, t, c :: spelling, hblanks, hspells⟩ :: pieces, rest', ?_, rfl, hend⟩
      simp [Piece.chars]

/-! ## Which tokens can be written -/

theorem exists_denotes (n : Nat) : ∃ digits, Numeral.Denotes 10 digits n := by
  have hdigit : ∀ d < 10, ∃ c, IsDigit 10 c d := by
    intro d hd
    have hlt : d < lowerDigits.length := Nat.lt_trans hd (by decide)
    exact ⟨lowerDigits[d], hd, .inl (List.getElem?_eq_getElem hlt)⟩
  induction n using Nat.strongRecOn with
  | ind n ih =>
      obtain ⟨c, hc⟩ := hdigit (n % 10) (Nat.mod_lt n (by decide))
      by_cases hn : n < 10
      · rw [Nat.mod_eq_of_lt hn] at hc
        exact ⟨[c], List.cons_ne_nil c [], [n], .cons hc .nil, by simp⟩
      · obtain ⟨digits, -, values, hvalues, hn'⟩ := ih (n / 10) (by omega)
        refine ⟨digits ++ [c], by simp, values ++ [n % 10], ?_, ?_⟩
        · exact List.rel_append hvalues (.cons hc .nil)
        · rw [List.reverse_append, List.reverse_singleton, List.singleton_append,
            Nat.ofDigits_cons, ← hn']
          exact (Nat.mod_add_div n 10).symm

/-- A backslash and a quote can be escaped. -/
theorem exists_written {plain : Char → Prop} (h : ∀ c, c ≠ '\\' → c ≠ '"' → plain c) (c : Char) :
    ∃ chars, Written plain c chars := by
  by_cases hslash : c = '\\'
  · subst hslash
    exact ⟨_, .escape (e := '\\') (by decide)⟩
  · by_cases hquote : c = '"'
    · subst hquote
      exact ⟨_, .escape (e := '"') (by decide)⟩
    · exact ⟨_, .plain (h c hslash hquote)⟩

theorem exists_written_text (cs : List Char) :
    ∃ parts, List.Forall₂ (Written fun c ↦ c ≠ '\\' ∧ c ≠ '"') cs parts := by
  induction cs with
  | nil => exact ⟨[], .nil⟩
  | cons c cs ih =>
      obtain ⟨parts, hparts⟩ := ih
      obtain ⟨part, hpart⟩ : ∃ part, Written (fun c ↦ c ≠ '\\' ∧ c ≠ '"') c part :=
        exists_written (fun _ ↦ And.intro) c
      exact ⟨part :: parts, .cons hpart hparts⟩

/-- A character token stands for a character, which is no surrogate. -/
theorem exists_char_iff {w : UInt16} :
    (∃ c : Char, c.toNat ≤ 0xFFFF ∧ w = c.toNat.toUInt16) ↔
      w.toNat < 0xD800 ∨ 0xDFFF < w.toNat := by
  constructor
  · rintro ⟨c, hc, rfl⟩
    rw [UInt16.toNat_ofNat_of_lt' (Nat.lt_succ_of_le hc)]
    rcases c.valid with h | h
    · exact .inl h
    · exact .inr h.1
  · intro h
    have hvalid : w.toNat.isValidChar := by
      have := w.toNat_lt
      rcases h with h | h
      · exact .inl h
      · exact .inr ⟨h, by omega⟩
    have hnat : (Char.ofNat w.toNat).toNat = w.toNat := by
      rw [Char.ofNat, dif_pos hvalid]
      rfl
    refine ⟨Char.ofNat w.toNat, ?_, ?_⟩
    · rw [hnat]
      exact Nat.le_of_lt_succ w.toNat_lt
    · rw [hnat]
      exact UInt16.ofNat_toNat.symm

/-- A token can be written if and only if it is one that a text can hold. -/
theorem exists_spells_iff {t : Token} : (∃ cs, Spells t cs) ↔ t.isWritable := by
  cases t with
  | number w =>
      obtain ⟨digits, hdigits⟩ := exists_denotes w.toNat
      exact iff_of_true ⟨digits, .decimal hdigits⟩ rfl
  | ident name =>
      constructor
      · rintro ⟨cs, ⟨⟩⟩
        assumption
      · exact fun h ↦ ⟨_, .ident h⟩
  | char w =>
      refine .trans ?_ (exists_char_iff.trans decide_eq_true_iff.symm)
      constructor
      · rintro ⟨cs, h⟩
        generalize ht : Token.char w = t at h
        cases h with
        | @char c _ hc _ => exact ⟨c, hc, Token.char.inj ht⟩
        | _ => cases ht
      · rintro ⟨c, hc, rfl⟩
        obtain ⟨chars, hwritten⟩ : ∃ chars, Written (· ≠ '\\') c chars :=
          exists_written (fun _ h _ ↦ h) c
        exact ⟨_, .char hc hwritten⟩
  | text s =>
      obtain ⟨parts, hparts⟩ := exists_written_text s.toList
      have hspells := Spells.text hparts
      rw [String.ofList_toList] at hspells
      exact iff_of_true ⟨_, hspells⟩ rfl
  | comma => exact iff_of_true ⟨_, .comma⟩ rfl
  | colon => exact iff_of_true ⟨_, .colon⟩ rfl
  | plus => exact iff_of_true ⟨_, .plus⟩ rfl
  | openBracket => exact iff_of_true ⟨_, .openBracket⟩ rfl
  | closeBracket => exact iff_of_true ⟨_, .closeBracket⟩ rfl

/-- Every token that can be written has a spelling.  Tokens that are written one behind the other
and kept apart are read as they are, up to the end of the line, and what is read without a fault is
made of spellings of the tokens. -/
theorem scan_spelled :
    (∀ t : Token, (∃ cs, Spells t cs) ↔ t.isWritable) ∧
      (∀ (pieces : List Piece) (rest : List Char), Piece.Separated pieces → IsEnd rest →
        scan (Piece.chars pieces ++ rest) = (pieces.map Piece.token).map .ok) ∧
      ∀ (cs : List Char) (tokens : List Token), scan cs = tokens.map .ok →
        ∃ pieces rest, cs = Piece.chars pieces ++ rest ∧ pieces.map Piece.token = tokens ∧
          IsEnd rest := by
  refine ⟨fun t ↦ exists_spells_iff, ?_, ?_⟩
  · intro pieces rest hpieces hrest
    exact scan_eq_iff.mpr (Piece.reads_chars hpieces hrest)
  · intro cs tokens h
    exact exists_pieces (scan_eq_iff.mp h)

/-- A number with zeros in front, an identifier, an apostrophe between apostrophes and a string with
a semicolon and an escaped quote, in front of a comment. -/
theorem scan_spelled_comment :
    scan "007 ab'''\";\\\"\" ;\"".toList =
      [.ok (.number 7), .ok (.ident "ab"), .ok (.char 0x27), .ok (.text ";\"")] := by
  have hzero : IsDigit 10 '0' 0 := ⟨by decide, .inl rfl⟩
  have hseven : IsDigit 10 '7' 7 := ⟨by decide, .inl rfl⟩
  have hnumber : Spells (.number 7) ['0', '0', '7'] :=
    .decimal ⟨by decide, [0, 0, 7], .cons hzero (.cons hzero (.cons hseven .nil)), by decide⟩
  have hname : isIdentifier "ab" := by decide
  have hident : Spells (.ident "ab") "ab".toList := .ident hname
  have hchar : Spells (.char 0x27) ['\'', '\'', '\''] :=
    .char (c := '\'') (by decide) (.plain (by decide))
  have htext : Spells (.text ";\"") ['"', ';', '\\', '"', '"'] :=
    .text (.cons (.plain (by decide)) (.cons (.escape (by decide)) .nil))
  have hblank : ∀ b ∈ [' '], Text.isBlank b := List.forall_mem_singleton.mpr (by decide)
  have hend : IsEnd ([' '] ++ ';' :: ['"']) := .comment ['"'] hblank
  exact scan_spelled.2.1 [⟨[], _, _, by simp, hnumber⟩, ⟨[' '], _, _, hblank, hident⟩,
    ⟨[], _, _, by simp, hchar⟩, ⟨[], _, _, by simp, htext⟩] _
    (by simp [Piece.Separated, isOpen]) hend

end Dcpu16.Token
