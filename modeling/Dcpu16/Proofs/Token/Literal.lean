import Dcpu16.Proofs.Token.Spelling

/-!
# Numeric literals

Where a line starts with a decimal digit there is a numeric literal, which goes on as far as there
are digits in base sixteen, behind `0x` and behind any other first digit alike.  It is taken off the
line as a whole, also if it is wrong: if it has no digit, if one of them is too large for its radix,
or if its value does not fit in a word.  Then it is reported as it is spelled.  Main statement:
`Token.read_literal`.
-/

namespace Dcpu16.Token

namespace Numeral

/-- A run of digits in base sixteen which what follows it cannot make longer. -/
structure IsRun (digits rest : List Char) : Prop where
  digit : ∀ c ∈ digits, ∃ d, IsDigit 16 c d
  longest : ∀ c ∈ rest.head?, ¬∃ d, IsDigit 16 c d

/-- A line starts with a literal that is spelled like this, and then there is a rest. -/
inductive Opens : List Char → Numeral → List Char → List Char → Prop
  | hexadecimal {digits rest : List Char} : IsRun digits rest →
      Opens ('0' :: 'x' :: (digits ++ rest)) ⟨16, digits⟩ ('0' :: 'x' :: digits) rest
  | decimal {c : Char} {d : Nat} {digits rest : List Char} : IsDigit 10 c d →
      ¬['0', 'x'] <+: c :: (digits ++ rest) → IsRun digits rest →
      Opens (c :: (digits ++ rest)) ⟨10, c :: digits⟩ (c :: digits) rest

variable {cs text rest : List Char} {numeral : Numeral}

/-! ## Runs of digits -/

theorem isHexDigit_iff {c : Char} : isHexDigit c ↔ ∃ d, IsDigit 16 c d := by
  rw [isHexDigit, Option.isSome_iff_exists]
  constructor
  · rintro ⟨d, hd⟩
    obtain ⟨hlt, hspelled⟩ := digits_of_digitValue? hd
    exact ⟨d, hlt, hspelled⟩
  · rintro ⟨d, hd⟩
    exact ⟨d, ((isDigit_iff (Nat.le_refl 16)).mp hd).1⟩

/-- The digits at the start of a text are a run. -/
theorem isRun_takeWhile (cs : List Char) :
    IsRun (cs.takeWhile isHexDigit) (cs.dropWhile isHexDigit) where
  digit _ hc := isHexDigit_iff.mp (List.mem_takeWhile_imp hc)
  longest c hc hd := Bool.eq_false_iff.mp (head?_dropWhile c hc) (isHexDigit_iff.mpr hd)

/-- A run is what the reader takes. -/
theorem IsRun.takeWhile_eq {digits : List Char} (h : IsRun digits rest) :
    (digits ++ rest).takeWhile isHexDigit = digits ∧
      (digits ++ rest).dropWhile isHexDigit = rest := by
  apply takeWhile_append
  · exact fun c hc ↦ isHexDigit_iff.mpr (h.digit c hc)
  · exact fun c hc ↦ Bool.eq_false_iff.mpr fun hd ↦ h.longest c hc (isHexDigit_iff.mp hd)

/-! ## Literals -/

/-- A line that starts with a decimal digit starts with a literal. -/
theorem exists_opens {c : Char} {d : Nat} (h : IsDigit 10 c d) (cs : List Char) :
    ∃ numeral text rest, Opens (c :: cs) numeral text rest := by
  by_cases hx : ['0', 'x'] <+: c :: cs
  · obtain ⟨tail, heq⟩ := hx
    obtain ⟨rfl, rfl⟩ := List.cons.inj heq
    have hopens := Opens.hexadecimal (isRun_takeWhile tail)
    rw [List.takeWhile_append_dropWhile] at hopens
    exact ⟨_, _, _, hopens⟩
  · have hcs := List.takeWhile_append_dropWhile (p := isHexDigit) (l := cs)
    rw [← hcs] at hx ⊢
    exact ⟨_, _, _, .decimal h hx (isRun_takeWhile cs)⟩

theorem Opens.head? (h : Opens cs numeral text rest) : ∃ c ∈ cs.head?, ∃ d, IsDigit 10 c d := by
  cases h with
  | hexadecimal => exact ⟨'0', rfl, 0, by decide, .inl rfl⟩
  | decimal hc => exact ⟨_, rfl, _, hc⟩

theorem Opens.eq_append (h : Opens cs numeral text rest) : cs = text ++ rest := by
  cases h <;> rfl

/-- The spelling of a numeral is the text that it was read from. -/
theorem Opens.spelling_eq (h : Opens cs numeral text rest) :
    numeral.spelling = String.ofList text := by
  cases h with
  | @hexadecimal digits => exact (@String.ofList_append ['0', 'x'] digits).symm
  | decimal => rfl

theorem Opens.radix (h : Opens cs numeral text rest) : 0 < numeral.radix ∧ numeral.radix ≤ 16 := by
  cases h with
  | hexadecimal => exact ⟨Nat.zero_lt_succ 15, Nat.le_refl 16⟩
  | decimal => exact ⟨Nat.zero_lt_succ 9, Nat.le_add_right 10 6⟩

/-- The literal is taken off the line. -/
theorem Opens.split_eq {c : Char} (h : Opens (c :: cs) numeral text rest) :
    split c cs = (numeral, rest) := by
  cases h with
  | hexadecimal hrun =>
      obtain ⟨htake, hdrop⟩ := hrun.takeWhile_eq
      rw [split, htake, hdrop]
  | @decimal _ d digits _ hc hx hrun =>
      obtain ⟨htake, hdrop⟩ := hrun.takeWhile_eq
      unfold split
      split
      · next tail heq =>
        refine (hx ?_).elim
        rw [heq]
        exact ⟨tail, rfl⟩
      · rw [htake, hdrop]

/-- The reader takes the literal as a whole and leaves its rest. -/
theorem Opens.read_eq (h : Opens cs numeral text rest) :
    read cs = (numeral.token.map some, rest) := by
  obtain ⟨c, hc, d, hd⟩ := h.head?
  obtain ⟨cs, rfl⟩ := List.head?_eq_some_iff.mp hc
  have hdigit := isDigit_of_lt_ten hd
  have hrest := isIdentRest_of_isDigit hdigit
  have hdrop : (c :: cs).dropWhile Text.isBlank = c :: cs :=
    List.dropWhile_cons_of_neg (Bool.eq_false_iff.mp (isBlank_of_isIdentRest hrest))
  rw [read_of_dropWhile hdrop (ne_semicolon_of_isIdentRest hrest), readFrom_of_isDigit hdigit,
    h.split_eq]

/-! ## Values -/

/-- A numeral stands for the word that its digits denote. -/
theorem token_eq_number_iff (hpos : 0 < numeral.radix) (hradix : numeral.radix ≤ 16)
    {w : UInt16} : numeral.token = .ok (.number w) ↔
      Denotes numeral.radix numeral.digits w.toNat := by
  refine (token_eq_ok_iff hpos hradix).trans ⟨?_, fun h ↦ ⟨w, rfl, h⟩⟩
  rintro ⟨w', hw, h⟩
  rwa [Token.number.inj hw]

/-- A numeral that denotes no word is invalid, and its text is told. -/
theorem token_of_not_denotes (hpos : 0 < numeral.radix) (hradix : numeral.radix ≤ 16)
    (h : ¬∃ n < 0x10000, Denotes numeral.radix numeral.digits n) :
    numeral.token = .error (.invalidNumber numeral.spelling) := by
  rw [token]
  split
  · next n hn =>
    obtain ⟨hdenotes, hfits⟩ := (value?_eq_some_iff hpos hradix).mp hn
    exact (h ⟨n, hfits, hdenotes⟩).elim
  · rfl

/-- Zeros in front of digits have no influence on their value. -/
theorem Denotes.zeros {radix n : Nat} {digits : List Char} (hpos : 0 < radix)
    (h : Denotes radix digits n) (count : Nat) :
    Denotes radix (List.replicate count '0' ++ digits) n := by
  obtain ⟨hne, values, hvalues, rfl⟩ := h
  have hzero : IsDigit radix '0' 0 := ⟨hpos, .inl rfl⟩
  refine ⟨List.append_ne_nil_of_right_ne_nil _ hne, List.replicate count 0 ++ values, ?_, ?_⟩
  · refine List.rel_append ?_ hvalues
    rw [List.forall₂_iff_get]
    exact ⟨by simp, by simp [hzero]⟩
  · simp [Nat.ofDigits_append, Nat.ofDigits_replicate_zero]

end Numeral

open Numeral

/-- A line that starts with a decimal digit starts with a literal, and reading it leaves what is
behind the literal.  What is read is the number that the literal denotes, if it denotes one that
fits in a word, and otherwise the literal is reported as it is spelled.  It does not matter how many
zeros there are in front of its digits. -/
theorem read_literal :
    (∀ cs, (∃ c ∈ cs.head?, ∃ d, IsDigit 10 c d) ↔
      ∃ numeral text rest, Opens cs numeral text rest) ∧
    (∀ cs numeral text rest, Opens cs numeral text rest →
      cs = text ++ rest ∧ (read cs).2 = rest ∧
      (∀ w, (read cs).1 = .ok (some (.number w)) ↔
        Denotes numeral.radix numeral.digits w.toNat) ∧
      ((¬∃ n < 0x10000, Denotes numeral.radix numeral.digits n) →
        (read cs).1 = .error (.invalidNumber (String.ofList text)))) ∧
    ∀ radix digits n count, 0 < radix → Denotes radix digits n →
      Denotes radix (List.replicate count '0' ++ digits) n := by
  refine ⟨fun cs ↦ ⟨?_, ?_⟩, ?_, ?_⟩
  · rintro ⟨c, hc, d, hd⟩
    obtain ⟨cs, rfl⟩ := List.head?_eq_some_iff.mp hc
    exact exists_opens hd cs
  · rintro ⟨numeral, text, rest, h⟩
    exact h.head?
  · intro cs numeral text rest h
    obtain ⟨hpos, hradix⟩ := h.radix
    rw [h.read_eq]
    refine ⟨h.eq_append, rfl, fun w ↦ ?_, fun hnone ↦ ?_⟩
    · rw [Except.map_eq_ok, ← token_eq_number_iff hpos hradix]
      simp
    · rw [token_of_not_denotes hpos hradix hnone, h.spelling_eq]
      rfl
  · intro radix digits n count hpos h
    exact h.zeros hpos count

/-- Zeros in front of digits of either case, a number that is by one too large for a word, and a
letter among decimal digits. -/
theorem read_literal_faults :
    read "0x00fF+".toList = (.ok (some (.number 0xFF)), ['+']) ∧
      read "65536]".toList = (.error (.invalidNumber "65536"), [']']) ∧
      read "12ab".toList = (.error (.invalidNumber "12ab"), []) := by
  obtain ⟨-, hread, hzeros⟩ := read_literal
  have hff : Denotes 16 ['f', 'F'] 0xFF :=
    ((value?_eq_some_iff (by decide) (by decide)).mp (by decide)).1
  have hopens : Opens "0x00fF+".toList ⟨16, ['0', '0', 'f', 'F']⟩ ['0', 'x', '0', '0', 'f', 'F']
      ['+'] := .hexadecimal (isRun_takeWhile ['0', '0', 'f', 'F', '+'])
  have hlarge : Opens "65536]".toList ⟨10, "65536".toList⟩ "65536".toList [']'] :=
    .decimal (d := 6) ⟨by decide, .inl rfl⟩ (by decide) (isRun_takeWhile "5536]".toList)
  have hletter : Opens "12ab".toList ⟨10, "12ab".toList⟩ "12ab".toList [] :=
    .decimal (d := 1) ⟨by decide, .inl rfl⟩ (by decide) (isRun_takeWhile "2ab".toList)
  have hnone : ∀ digits, (⟨10, digits⟩ : Numeral).value? = none →
      ¬∃ n < 0x10000, Denotes 10 digits n := by
    rintro digits hvalue ⟨n, hfits, hdenotes⟩
    rw [(value?_eq_some_iff (by decide) (by decide)).mpr ⟨hdenotes, hfits⟩] at hvalue
    cases hvalue
  refine ⟨?_, ?_, ?_⟩
  · obtain ⟨-, hrest, hnumber, -⟩ := hread _ _ _ _ hopens
    exact Prod.ext ((hnumber 0xFF).mpr (hzeros 16 _ _ 2 (by decide) hff)) hrest
  · obtain ⟨-, hrest, -, hfault⟩ := hread _ _ _ _ hlarge
    exact Prod.ext (hfault (hnone _ (by decide))) hrest
  · obtain ⟨-, hrest, -, hfault⟩ := hread _ _ _ _ hletter
    exact Prod.ext (hfault (hnone _ (by decide))) hrest

end Dcpu16.Token
