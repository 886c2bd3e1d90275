import Dcpu16.Token.Lexer
import Mathlib.Data.List.TakeWhile

/-!
# Tokens in other surroundings

A token is read in the same way whatever follows it, except that numbers and identifiers go on as
long as they can, so that for them the next character has to be the same (`Token.read_append`).  In
the place of an identifier any other one can be read (`Token.read_identifier`).
-/

namespace Dcpu16.Token

/-- Whether only the next character tells that a token ends. -/
def isOpen : Token → Bool
  | .number _ | .ident _ => true
  | _ => false

def isIdentifier (name : String) : Bool :=
  match name.toList with
  | [] => false
  | c :: cs => isIdentStart c && cs.all isIdentRest

/-! ## Characters -/

theorem head?_dropWhile {p : Char → Bool} {cs : List Char} :
    ∀ c ∈ (cs.dropWhile p).head?, p c = false := by
  intro c hc
  have h := List.head?_dropWhile_not p cs
  rw [hc] at h
  exact h

/-- What has a property up to a character that does not is taken as a whole. -/
theorem takeWhile_append {p : Char → Bool} {xs ys : List Char} (hx : ∀ c ∈ xs, p c)
    (hy : ∀ c ∈ ys.head?, p c = false) :
    (xs ++ ys).takeWhile p = xs ∧ (xs ++ ys).dropWhile p = ys := by
  rw [List.takeWhile_append_of_pos hx, List.dropWhile_append_of_pos hx]
  cases ys with
  | nil => exact ⟨List.append_nil xs, rfl⟩
  | cons y ys =>
      have hhead := hy y rfl
      rw [List.takeWhile_cons_of_neg (by rw [hhead]; exact Bool.false_ne_true),
        List.dropWhile_cons_of_neg (by rw [hhead]; exact Bool.false_ne_true), List.append_nil]
      exact ⟨rfl, rfl⟩

theorem isIdentRest_of_isIdentStart {c : Char} (h : isIdentStart c) : isIdentRest c := by
  rw [isIdentRest, h, Bool.true_or]

theorem isIdentStart_of_not_isIdentRest {c : Char} (h : isIdentRest c = false) :
    isIdentStart c = false := by
  rw [Bool.eq_false_iff] at h ⊢
  exact fun hc ↦ h (isIdentRest_of_isIdentStart hc)

/-- What starts an identifier lies in this range, -/
theorem toNat_of_isIdentStart {c : Char} (h : isIdentStart c) :
    0x41 ≤ c.toNat ∧ c.toNat ≤ 0x7A := by
  rcases Bool.or_eq_true_iff.mp h with h | h
  · obtain rfl := beq_iff_eq.mp h
    decide
  · rcases Bool.or_eq_true_iff.mp h with h | h
    · obtain ⟨hle, hge⟩ := of_decide_eq_true h
      exact ⟨hle, Nat.le_trans hge (by decide)⟩
    · obtain ⟨hle, hge⟩ := Bool.and_eq_true_iff.mp h
      exact ⟨Nat.le_trans (by decide) (of_decide_eq_true hle), of_decide_eq_true hge⟩

theorem toNat_of_isDigit {c : Char} (h : c.isDigit) : 0x30 ≤ c.toNat ∧ c.toNat ≤ 0x39 := by
  obtain ⟨hle, hge⟩ := Bool.and_eq_true_iff.mp h
  exact ⟨of_decide_eq_true hle, of_decide_eq_true hge⟩

/-- and what belongs to one in these. -/
theorem toNat_of_isIdentRest {c : Char} (h : isIdentRest c) :
    0x30 ≤ c.toNat ∧ c.toNat ≤ 0x39 ∨ 0x41 ≤ c.toNat ∧ c.toNat ≤ 0x7A := by
  rcases Bool.or_eq_true_iff.mp h with h | h
  · exact .inr (toNat_of_isIdentStart h)
  · exact .inl (toNat_of_isDigit h)

theorem isBlank_of_isIdentRest {c : Char} (h : isIdentRest c) : Text.isBlank c = false := by
  have hrange := toNat_of_isIdentRest h
  rw [Bool.eq_false_iff, Ne, Text.isBlank_iff]
  simp only [Text.blankRanges, List.mem_cons, List.not_mem_nil, or_false, exists_eq_or_imp,
    exists_eq_left]
  omega

/-- What starts an identifier starts nothing else. -/
theorem isDigit_of_isIdentStart {c : Char} (h : isIdentStart c) : c.isDigit = false := by
  have hrange := toNat_of_isIdentStart h
  rw [Bool.eq_false_iff]
  intro hdigit
  have hdigits := toNat_of_isDigit hdigit
  omega

/-! ## Literals -/

/-- A numeral is split off in the same way before any other rest with the same first character. -/
theorem split_append {c : Char} {cs rest : List Char} {numeral : Numeral}
    (h : Numeral.split c cs = (numeral, rest)) :
    ∃ used, cs = used ++ rest ∧ ∀ rest', rest'.head? = rest.head? →
      Numeral.split c (used ++ rest') = (numeral, rest') := by
  have hstop : ∀ (digits rest' : List Char),
      rest'.head? = (digits.dropWhile isHexDigit).head? →
        (digits.takeWhile isHexDigit ++ rest').takeWhile isHexDigit =
            digits.takeWhile isHexDigit ∧
          (digits.takeWhile isHexDigit ++ rest').dropWhile isHexDigit = rest' := by
    intro digits rest' hhead
    apply takeWhile_append
    · intro d hd
      exact List.mem_takeWhile_imp hd
    · rw [hhead]
      exact head?_dropWhile
  unfold Numeral.split at h
  split at h
  · next digits =>
    obtain ⟨rfl, rfl⟩ := Prod.mk.inj h
    refine ⟨'x' :: digits.takeWhile isHexDigit, ?_, ?_⟩
    · rw [List.cons_append, List.takeWhile_append_dropWhile]
    · intro rest' hhead
      obtain ⟨htake, hdrop⟩ := hstop digits rest' hhead
      rw [List.cons_append, Numeral.split, htake, hdrop]
  · next hx =>
    obtain ⟨rfl, rfl⟩ := Prod.mk.inj h
    refine ⟨cs.takeWhile isHexDigit, List.takeWhile_append_dropWhile.symm, ?_⟩
    intro rest' hhead
    obtain ⟨htake, hdrop⟩ := hstop cs rest' hhead
    unfold Numeral.split
    split
    · next digits heq =>
      -- The letter is no digit, so that it would have followed the zero before too.
      exfalso
      cases hdigits : cs.takeWhile isHexDigit with
      | nil =>
          have hcs := List.takeWhile_append_dropWhile (p := isHexDigit) (l := cs)
          rw [hdigits, List.nil_append] at hcs heq
          rw [hcs, heq] at hhead
          cases cs with
          | nil => cases hhead
          | cons d cs => exact hx cs rfl (by rw [← Option.some.inj hhead])
      | cons d ds =>
          have hd : isHexDigit d := List.mem_takeWhile_imp (hdigits ▸ List.mem_cons_self)
          rw [hdigits] at heq
          rw [(List.cons.inj heq).1] at hd
          exact absurd hd (by decide)
    · rw [htake, hdrop]

theorem readChar_of_ne {c : Char} (h : c ≠ '\\') (cs : List Char) :
    readChar (c :: cs) = (.ok c, cs) := by
  unfold readChar
  split <;> simp_all

theorem readChar_append {cs rest : List Char} {c : Char} (h : readChar cs = (.ok c, rest)) :
    ∃ used, cs = used ++ rest ∧ ∀ rest', readChar (used ++ rest') = (.ok c, rest') := by
  unfold readChar at h
  split at h
  · cases h
  · cases h
  · next d cs =>
    split at h
    · next e he =>
      obtain ⟨hc, rfl⟩ := Prod.mk.inj h
      obtain rfl := Except.ok.inj hc
      refine ⟨['\\', d], rfl, ?_⟩
      intro rest'
      show readChar ('\\' :: d :: rest') = _
      rw [readChar, he]
    · cases h
  · next d cs hnil hcons =>
    obtain ⟨hc, rfl⟩ := Prod.mk.inj h
    obtain rfl := Except.ok.inj hc
    have hne : d ≠ '\\' := by
      rintro rfl
      cases cs with
      | nil => exact hnil rfl rfl
      | cons e cs => exact hcons e cs rfl rfl
    exact ⟨[d], rfl, readChar_of_ne hne⟩

theorem readQuoted_append {cs rest : List Char} {t : Token} (h : readQuoted cs = (.ok t, rest)) :
    (∃ w, t = .char w) ∧ ∃ used, cs = used ++ rest ∧
      ∀ rest', readQuoted (used ++ rest') = (.ok t, rest') := by
  unfold readQuoted at h
  split at h
  · cases h
  · next c cs hread =>
    obtain ⟨used, rfl, hused⟩ := readChar_append hread
    split at h
    · next hc =>
      obtain ⟨ht, rfl⟩ := Prod.mk.inj h
      obtain rfl := Except.ok.inj ht
      refine ⟨⟨_, rfl⟩, used ++ ['\''], ?_, ?_⟩
      · rw [List.append_assoc]
        rfl
      · intro rest'
        have hread' := hused ('\'' :: rest')
        rw [List.append_assoc, List.singleton_append, readQuoted, hread']
        exact if_pos hc
    · cases h
  · cases h

theorem readText_of_ne {c : Char} (hq : c ≠ '"') (hb : c ≠ '\\') (found cs : List Char) :
    readText found (c :: cs) = readText (c :: found) cs := by
  rw [readText.eq_def]
  split <;> simp_all

theorem readText_append {found cs rest : List Char} {t : Token}
    (h : readText found cs = (.ok t, rest)) :
    (∃ s, t = .text s) ∧ ∃ used, cs = used ++ rest ∧
      ∀ rest', readText found (used ++ rest') = (.ok t, rest') := by
  fun_induction readText found cs with
  | case1 => cases h
  | case2 found cs =>
      obtain ⟨ht, rfl⟩ := Prod.mk.inj h
      obtain rfl := Except.ok.inj ht
      refine ⟨⟨_, rfl⟩, ['"'], rfl, ?_⟩
      intro rest'
      show readText found ('"' :: rest') = _
      rw [readText]
  | case3 => cases h
  | case4 found c cs e he ih =>
      obtain ⟨htext, used, rfl, hused⟩ := ih h
      refine ⟨htext, '\\' :: c :: used, rfl, ?_⟩
      intro rest'
      show readText found ('\\' :: c :: (used ++ rest')) = _
      rw [readText, he]
      exact hused rest'
  | case5 => cases h
  | case6 found c cs hquote hnil hcons ih =>
      obtain ⟨htext, used, rfl, hused⟩ := ih h
      refine ⟨htext, c :: used, rfl, ?_⟩
      intro rest'
      have hslash : c ≠ '\\' := by
        rintro rfl
        cases hcs : used ++ rest with
        | nil => exact hnil rfl hcs
        | cons e cs => exact hcons e cs rfl hcs
      show readText found (c :: (used ++ rest')) = _
      rw [readText_of_ne hquote hslash, hused]

/-! ## Tokens -/

theorem token_eq_ok {numeral : Numeral} {t : Token} (h : numeral.token = .ok t) :
    ∃ w, t = .number w := by
  rw [Numeral.token] at h
  split at h
  · exact ⟨_, (Except.ok.inj h).symm⟩
  · cases h

theorem readFrom_of_isDigit {c : Char} (h : c.isDigit) (cs : List Char) :
    readFrom c cs = ((Numeral.split c cs).1.token, (Numeral.split c cs).2) := by
  unfold readFrom
  rw [if_pos h]

/-- What begins like an identifier is read as the longest one. -/
theorem readFrom_of_isIdentStart {c : Char} (h : isIdentStart c) (cs : List Char) :
    readFrom c cs = (.ok (.ident (String.ofList (c :: cs.takeWhile isIdentRest))),
      cs.dropWhile isIdentRest) := by
  unfold readFrom
  rw [isDigit_of_isIdentStart h, if_neg Bool.false_ne_true, if_pos h]

/-- A token without the blanks before it is read in the same way before another rest, which begins
with the same character if the token is open. -/
theorem readFrom_append {c : Char} {cs rest : List Char} {t : Token}
    (h : readFrom c cs = (.ok t, rest)) :
    ∃ used, cs = used ++ rest ∧ ∀ rest', (t.isOpen → rest'.head? = rest.head?) →
      readFrom c (used ++ rest') = (.ok t, rest') := by
  by_cases hdigit : c.isDigit
  · rw [readFrom_of_isDigit hdigit] at h
    obtain ⟨ht, hrest⟩ := Prod.mk.inj h
    obtain ⟨w, rfl⟩ := token_eq_ok ht
    have hsplit : Numeral.split c cs = ((Numeral.split c cs).1, rest) := Prod.ext rfl hrest
    obtain ⟨used, hcs, hused⟩ := split_append hsplit
    refine ⟨used, hcs, ?_⟩
    intro rest' hhead
    rw [readFrom_of_isDigit hdigit, hused rest' (hhead rfl), ht]
  · by_cases hstart : isIdentStart c
    · rw [readFrom_of_isIdentStart hstart] at h
      obtain ⟨ht, rfl⟩ := Prod.mk.inj h
      obtain rfl := Except.ok.inj ht
      refine ⟨cs.takeWhile isIdentRest, List.takeWhile_append_dropWhile.symm, ?_⟩
      intro rest' hhead
      have hnext : ∀ d ∈ rest'.head?, isIdentRest d = false := by
        rw [hhead rfl]
        exact head?_dropWhile
      obtain ⟨htake, hdrop⟩ := takeWhile_append
        (fun d hd ↦ List.mem_takeWhile_imp (p := isIdentRest) hd) hnext
      rw [readFrom_of_isIdentStart hstart, htake, hdrop]
    · unfold readFrom at h
      rw [if_neg hdigit, if_neg hstart] at h
      split at h
      · obtain ⟨-, used, hcs, hused⟩ := readQuoted_append h
        exact ⟨used, hcs, fun rest' _ ↦ hused rest'⟩
      · obtain ⟨-, used, hcs, hused⟩ := readText_append h
        exact ⟨used, hcs, fun rest' _ ↦ hused rest'⟩
      iterate 5
        · obtain ⟨ht, rfl⟩ := Prod.mk.inj h
          obtain rfl := Except.ok.inj ht
          exact ⟨[], rfl, fun rest' _ ↦ rfl⟩
      · cases (Prod.mk.inj h).1

/-- An identifier is read as far as it goes. -/
theorem readFrom_eq_ident {c : Char} {cs rest : List Char} {name : String}
    (h : readFrom c cs = (.ok (.ident name), rest)) :
    isIdentStart c ∧ name = String.ofList (c :: cs.takeWhile isIdentRest) ∧
      rest = cs.dropWhile isIdentRest := by
  by_cases hstart : isIdentStart c
  · rw [readFrom_of_isIdentStart hstart] at h
    obtain ⟨ht, rfl⟩ := Prod.mk.inj h
    exact ⟨hstart, (Token.ident.inj (Except.ok.inj ht)).symm, rfl⟩
  · exfalso
    by_cases hdigit : c.isDigit
    · rw [readFrom_of_isDigit hdigit] at h
      obtain ⟨w, hw⟩ := token_eq_ok (Prod.mk.inj h).1
      cases hw
    · unfold readFrom at h
      rw [if_neg hdigit, if_neg hstart] at h
      split at h
      · obtain ⟨⟨w, hw⟩, -⟩ := readQuoted_append h
        cases hw
      · obtain ⟨⟨s, hs⟩, -⟩ := readText_append h
        cases hs
      all_goals cases (Prod.mk.inj h).1

/-- A token stands behind blanks. -/
theorem read_eq {cs rest : List Char} {t : Token} (h : read cs = (.ok (some t), rest)) :
    ∃ blanks c body, cs = blanks ++ c :: body ∧ (∀ b ∈ blanks, Text.isBlank b) ∧
      Text.isBlank c = false ∧ c ≠ ';' ∧ readFrom c body = (.ok t, rest) := by
  have hcs := List.takeWhile_append_dropWhile (p := Text.isBlank) (l := cs)
  have hblank : ∀ c ∈ (cs.dropWhile Text.isBlank).head?, Text.isBlank c = false := head?_dropWhile
  unfold read at h
  split at h
  · cases (Prod.mk.inj h).1
  · cases (Prod.mk.inj h).1
  · next c body hsemicolon heq =>
    rw [heq] at hcs hblank
    refine ⟨cs.takeWhile Text.isBlank, c, body, hcs.symm, fun b hb ↦ List.mem_takeWhile_imp hb,
      hblank c rfl, hsemicolon, ?_⟩
    generalize readFrom c body = result at h
    obtain ⟨lexeme, left⟩ := result
    obtain ⟨ht, rfl⟩ := Prod.mk.inj h
    cases lexeme with
    | error e => cases ht
    | ok t' =>
        obtain rfl := Option.some.inj (Except.ok.inj ht)
        rfl

/-- Behind its blanks a line that goes on is read from its first character. -/
theorem read_of_dropWhile {cs body : List Char} {c : Char}
    (h : cs.dropWhile Text.isBlank = c :: body) (hs : c ≠ ';') :
    read cs = ((readFrom c body).1.map some, (readFrom c body).2) := by
  unfold read
  rw [h]
  split
  · next heq => cases heq
  · next heq => exact absurd (List.cons.inj heq).1 hs
  · next c' body' _ heq =>
    obtain ⟨rfl, rfl⟩ := List.cons.inj heq
    rfl

/-- Blanks before a token are skipped. -/
theorem read_blanks {blanks : List Char} (hb : ∀ b ∈ blanks, Text.isBlank b) {c : Char}
    (hc : Text.isBlank c = false) (hs : c ≠ ';') {body rest : List Char} {t : Token}
    (h : readFrom c body = (.ok t, rest)) : read (blanks ++ c :: body) = (.ok (some t), rest) := by
  have hstop : ∀ d ∈ (c :: body).head?, Text.isBlank d = false := by
    intro d hd
    obtain rfl := Option.some.inj hd
    exact hc
  rw [read_of_dropWhile (takeWhile_append hb hstop).2 hs, h]
  rfl

/-- A token is read in the same way in front of anything, if it is not open, and otherwise in front
of anything that starts with the same character. -/
theorem read_append {cs rest : List Char} {t : Token} (h : read cs = (.ok (some t), rest)) :
    ∃ used, used ≠ [] ∧ cs = used ++ rest ∧
      ∀ rest', (t.isOpen → rest'.head? = rest.head?) →
        read (used ++ rest') = (.ok (some t), rest') := by
  obtain ⟨blanks, c, body, rfl, hb, hc, hs, hread⟩ := read_eq h
  obtain ⟨used, rfl, hused⟩ := readFrom_append hread
  refine ⟨blanks ++ c :: used, by simp, by simp, ?_⟩
  intro rest' hhead
  rw [List.append_assoc, List.cons_append]
  exact read_blanks hb hc hs (hused rest' hhead)

/-! ## Identifiers -/

/-- An identifier is a first character and then others that may be digits. -/
theorem isIdentifier_iff {name : String} :
    isIdentifier name ↔ ∃ c cs, name.toList = c :: cs ∧ isIdentStart c ∧
      ∀ d ∈ cs, isIdentRest d := by
  rw [isIdentifier]
  cases name.toList with
  | nil => simp
  | cons c cs =>
      rw [Bool.and_eq_true, List.all_eq_true]
      constructor
      · rintro ⟨hc, hcs⟩
        exact ⟨c, cs, rfl, hc, hcs⟩
      · rintro ⟨c', cs', heq, hc, hcs⟩
        obtain ⟨rfl, rfl⟩ := List.cons.inj heq
        exact ⟨hc, hcs⟩

theorem isIdentRest_of_isIdentifier {name : String} (h : isIdentifier name) :
    ∀ d ∈ name.toList, isIdentRest d := by
  obtain ⟨c, cs, hname, hc, hcs⟩ := isIdentifier_iff.mp h
  rw [hname]
  intro d hd
  rcases List.mem_cons.mp hd with rfl | hd
  · exact isIdentRest_of_isIdentStart hc
  · exact hcs d hd

/-- What is read as an identifier is one, and no character that could belong to it follows. -/
theorem read_eq_ident {cs rest : List Char} {name : String}
    (h : read cs = (.ok (some (.ident name)), rest)) :
    isIdentifier name ∧ (∀ c ∈ rest.head?, isIdentRest c = false) ∧
      ∃ blanks, (∀ b ∈ blanks, Text.isBlank b) ∧ cs = blanks ++ (name.toList ++ rest) := by
  obtain ⟨blanks, c, body, rfl, hb, -, -, hread⟩ := read_eq h
  obtain ⟨hc, rfl, rfl⟩ := readFrom_eq_ident hread
  refine ⟨?_, head?_dropWhile, blanks, hb, ?_⟩
  · rw [isIdentifier_iff]
    exact ⟨c, _, String.toList_ofList, hc, fun d hd ↦ List.mem_takeWhile_imp hd⟩
  · rw [String.toList_ofList, List.cons_append, List.takeWhile_append_dropWhile]

/-- Any identifier is read in front of a character that cannot belong to it. -/
theorem read_identifier {blanks : List Char} (hb : ∀ b ∈ blanks, Text.isBlank b) {name : String}
    (hname : isIdentifier name) {rest : List Char}
    (hrest : ∀ c ∈ rest.head?, isIdentRest c = false) :
    read (blanks ++ (name.toList ++ rest)) = (.ok (some (.ident name)), rest) := by
  obtain ⟨c, cs, htoList, hc, hcs⟩ := isIdentifier_iff.mp hname
  have hrange := toNat_of_isIdentStart hc
  have hsemicolon : c ≠ ';' := by
    rintro rfl
    exact absurd hrange (by decide)
  obtain ⟨htake, hdrop⟩ := takeWhile_append hcs hrest
  rw [htoList, List.cons_append]
  apply read_blanks hb (isBlank_of_isIdentRest (isIdentRest_of_isIdentStart hc)) hsemicolon
  rw [readFrom_of_isIdentStart hc, htake, hdrop, ← htoList, String.ofList_toList]

end Dcpu16.Token
