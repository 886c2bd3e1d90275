import Dcpu16.Proofs.Assembly.Demand

/-!
# Lines come to an end

After a wrong spelling reading can go on with the characters that are left.  Each reading leaves a
suffix of what there was, a shorter one unless it is that of the end of the line, and behind the end
there is nothing else to read.  So one of the first `n + 1` readings of `n` characters is the end.

Everything that is repeated comes to an end by this.  `Token.readWithin` is the reader of tokens
with a bound on the rounds of its repetitions, which gives up where it would need more of them, and
`Demand.Ends` says that a reader on demand has no need of more than `n + 1` readings.  Main
statement: `Demand.line_ends`.
-/

namespace Dcpu16

namespace Token

/-- What is left of a text after so many readings, whatever they were. -/
def left (cs : List Char) : Nat → List Char
  | 0 => cs
  | k + 1 => (read (left cs k)).2

/-! ## Repetitions with a bound -/

/-- Takes the characters with a property off the front of a text, one in each round. -/
def takeWithin (p : Char → Bool) : Nat → List Char → Option (List Char × List Char)
  | 0, _ => none
  | _ + 1, [] => some ([], [])
  | n + 1, c :: cs =>
    if p c then (takeWithin p n cs).map fun (found, rest) ↦ (c :: found, rest)
    else some ([], c :: cs)

/-- Reads a string literal behind its opening quote and the characters `found`, the last of them
first.  There is one character of the literal in each round. -/
def textWithin : Nat → List Char → List Char → Option (Lexeme × List Char)
  | 0, _, _ => none
  | _ + 1, _, [] => some (.error .unterminatedString, [])
  | _ + 1, found, '"' :: rest => some (.ok (.text (String.ofList found.reverse)), rest)
  | n + 1, found, cs =>
    match readChar cs with
    | (.ok c, rest) => textWithin n (c :: found) rest
    | (.error e, rest) => some (.error e, rest)

/-- Reads the numeric literal that starts with a digit. -/
def numberWithin (n : Nat) : Char → List Char → Option (Lexeme × List Char)
  | '0', 'x' :: rest => do
    let (digits, rest) ← takeWithin isHexDigit n rest
    return ((⟨16, digits⟩ : Numeral).token, rest)
  | first, rest => do
    let (digits, rest) ← takeWithin isHexDigit n rest
    return ((⟨10, first :: digits⟩ : Numeral).token, rest)

/-- Reads the token that starts with the character `c`, which is not blank. -/
def readFromWithin (n : Nat) (c : Char) (rest : List Char) : Option (Lexeme × List Char) :=
  if c.isDigit then numberWithin n c rest
  else if isIdentStart c then do
    let (body, rest) ← takeWithin isIdentRest n rest
    return (.ok (.ident (String.ofList (c :: body))), rest)
  else if c = '"' then textWithin n [] rest
  -- There is nothing to repeat in the other tokens.
  else return readFrom c rest

/-- Reads the next token of a line, or `none` at its end, where no repetition has more than `n`
rounds. -/
def readWithin (n : Nat) (cs : List Char) : Option (Reading × List Char) := do
  let (_, rest) ← takeWithin Text.isBlank n cs
  match rest with
  | [] => return (.ok none, [])
  | ';' :: rest =>
    let (_, rest) ← takeWithin (fun _ ↦ true) n rest
    return (.ok none, rest)
  | c :: rest =>
    let (lexeme, rest) ← readFromWithin n c rest
    return (lexeme.map some, rest)

variable {n : Nat} {cs : List Char}

/-- More rounds than characters are enough. -/
theorem takeWithin_eq (p : Char → Bool) (h : cs.length < n) :
    takeWithin p n cs = some (cs.takeWhile p, cs.dropWhile p) := by
  induction n generalizing cs with
  | zero => exact absurd h (Nat.not_lt_zero _)
  | succ n ih =>
      cases cs with
      | nil => rfl
      | cons c cs =>
          have hrest := ih (Nat.lt_of_succ_lt_succ h)
          by_cases hc : p c
          · rw [takeWithin, if_pos hc, hrest, List.takeWhile_cons_of_pos hc,
              List.dropWhile_cons_of_pos hc]
            rfl
          · rw [takeWithin, if_neg hc, List.takeWhile_cons_of_neg hc,
              List.dropWhile_cons_of_neg hc]

/-- A character of a string is read like that of a character literal, unless it is a quote. -/
theorem readText_cons {c : Char} (hc : c ≠ '"') (found cs : List Char) :
    readText found (c :: cs) =
      match readChar (c :: cs) with
      | (.ok c, rest) => readText (c :: found) rest
      | (.error e, rest) => (.error e, rest) := by
  by_cases hslash : c = '\\'
  · subst hslash
    cases cs with
    | nil => rfl
    | cons e cs =>
        rw [readText, readChar]
        cases unescape? e <;> rfl
  · rw [readText_of_ne hc hslash, readChar_of_ne hslash]

theorem length_readChar_lt (c : Char) (cs : List Char) :
    (readChar (c :: cs)).2.length < (c :: cs).length := by
  by_cases hslash : c = '\\'
  · subst hslash
    cases cs with
    | nil => exact Nat.zero_lt_succ _
    | cons e cs =>
        have hrest : (readChar ('\\' :: e :: cs)).2 = cs := by
          rw [readChar]
          cases unescape? e <;> rfl
        rw [hrest]
        exact Nat.lt_add_of_pos_right (Nat.zero_lt_succ 1)
  · rw [readChar_of_ne hslash]
    exact Nat.lt_succ_self _

/-- A string is read in one round for each of its characters. -/
theorem textWithin_eq (found : List Char) (h : cs.length < n) :
    textWithin n found cs = some (readText found cs) := by
  induction n generalizing found cs with
  | zero => exact absurd h (Nat.not_lt_zero _)
  | succ n ih =>
      cases cs with
      | nil => rfl
      | cons c cs =>
          by_cases hc : c = '"'
          · subst hc
            rw [textWithin, readText]
          · have hlt := length_readChar_lt c cs
            rw [readText_cons hc, textWithin]
            · generalize readChar (c :: cs) = result at hlt
              obtain ⟨r, rest⟩ := result
              cases r with
              | ok c' => exact ih (c' :: found) (Nat.lt_of_lt_of_le hlt (Nat.le_of_lt_succ h))
              | error e => rfl
            · exact List.cons_ne_nil c cs
            · intro rest heq
              exact hc (List.cons.inj heq).1

theorem numberWithin_eq (c : Char) (h : cs.length < n) :
    numberWithin n c cs = some ((Numeral.split c cs).1.token, (Numeral.split c cs).2) := by
  fun_cases Numeral.split c cs with
  | case1 rest =>
      rw [numberWithin, takeWithin_eq isHexDigit (Nat.lt_of_succ_lt h)]
      rfl
  | case2 c cs hx =>
      rw [numberWithin, takeWithin_eq isHexDigit h]
      · rfl
      · exact hx

theorem readFromWithin_eq (c : Char) (h : cs.length < n) :
    readFromWithin n c cs = some (readFrom c cs) := by
  unfold readFromWithin
  split
  · next hdigit => rw [numberWithin_eq c h, readFrom_of_isDigit hdigit]
  · next hdigit =>
    split
    · next hstart =>
      rw [takeWithin_eq isIdentRest h, readFrom_of_isIdentStart hstart]
      rfl
    · next hstart =>
      split
      · next hquote =>
        subst hquote
        exact textWithin_eq [] h
      · rfl

/-- No repetition of the reader of tokens has more rounds than there are characters, and one. -/
theorem readWithin_eq (h : cs.length < n) : readWithin n cs = some (read cs) := by
  have hdrop := (List.dropWhile_suffix Text.isBlank (l := cs)).length_le
  rw [readWithin, takeWithin_eq Text.isBlank h]
  show (match cs.dropWhile Text.isBlank with | [] => _ | ';' :: rest => _ | c :: rest => _) = _
  generalize hrest : cs.dropWhile Text.isBlank = rest at hdrop
  split
  · rw [read, hrest]
    rfl
  · next text =>
    rw [takeWithin_eq _ (Nat.lt_of_lt_of_le hdrop (Nat.le_of_lt h)),
      List.dropWhile_eq_nil_iff.mpr fun _ _ ↦ rfl, read, hrest]
    rfl
  · next c body hsemi =>
    rw [readFromWithin_eq c (Nat.lt_of_lt_of_le hdrop (Nat.le_of_lt h)),
      read_of_dropWhile hrest hsemi]
    rfl

/-! ## Readings one after the other -/

theorem left_read (cs : List Char) (k : Nat) : left (read cs).2 k = left cs (k + 1) := by
  induction k with
  | zero => rfl
  | succ k ih =>
      show (read (left (read cs).2 k)).2 = left cs (k + 2)
      rw [ih]
      rfl

/-- Readings go on where the one before has stopped. -/
theorem readings_eq (n : Nat) (cs : List Char) :
    readings n cs = (List.range n).map fun k ↦ (read (left cs k)).1 := by
  induction n generalizing cs with
  | zero => rfl
  | succ n ih =>
      rw [readings, ih, List.range_succ_eq_map, List.map_cons, List.map_map]
      simp only [left_read]
      rfl

/-- Something is used, unless the end of the line is read. -/
theorem exists_used (h : (read cs).1 ≠ .ok none) :
    ∃ used, used ≠ [] ∧ used ++ (read cs).2 = cs := by
  obtain ⟨used, hused⟩ := read_suffix cs
  refine ⟨used, ?_, hused⟩
  rintro rfl
  exact absurd (congrArg List.length hused) (Nat.ne_of_lt (length_read_lt h))

/-- As long as the end of the line is not read there is a character for each reading. -/
theorem length_left_le {k : Nat} (h : ∀ j < k, (read (left cs j)).1 ≠ .ok none) :
    (left cs k).length + k ≤ cs.length := by
  induction k with
  | zero => exact Nat.le_refl _
  | succ k ih =>
      have hle := ih fun j hj ↦ h j (Nat.lt_succ_of_lt hj)
      have hlt : (left cs (k + 1)).length < (left cs k).length :=
        length_read_lt (h k (Nat.lt_succ_self k))
      omega

/-- The end of a line comes after so many readings as there are characters, or earlier. -/
theorem exists_end (cs : List Char) : ∃ k < cs.length + 1, (read (left cs k)).1 = .ok none := by
  by_contra hnone
  have hle : (left cs (cs.length + 1)).length + (cs.length + 1) ≤ cs.length :=
    length_left_le fun j hj hend ↦ hnone ⟨j, hj, hend⟩
  omega

/-- Nothing is left behind the end of the line. -/
theorem read_end (h : (read cs).1 = .ok none) : read cs = (.ok none, []) :=
  read_of_isEnd (isEnd_of_read (Prod.ext h rfl))

theorem left_end {k m : Nat} (h : (read (left cs k)).1 = .ok none) (hkm : k < m) :
    left cs m = [] := by
  induction m, hkm using Nat.le_induction with
  | base => exact congrArg Prod.snd (read_end h)
  | succ m _ ih =>
      rw [left, ih]
      rfl

/-- The end of a line is final: all further readings are the end. -/
theorem read_left_end {k m : Nat} (h : (read (left cs k)).1 = .ok none) (hkm : k ≤ m) :
    (read (left cs m)).1 = .ok none := by
  rcases Nat.lt_or_eq_of_le hkm with hlt | rfl
  · rw [left_end h hlt]
    rfl
  · exact h

/-- A token, and a wrong spelling, has at least one character. -/
theorem length_scan_le (cs : List Char) : (scan cs).length ≤ cs.length := by
  induction hn : cs.length using Nat.strongRecOn generalizing cs with
  | ind n ih =>
      subst hn
      rw [scan_eq]
      split
      · exact Nat.zero_le _
      · next e rest hread =>
        have hne : (read cs).1 ≠ .ok none := by
          rw [hread]
          exact nofun
        exact Nat.zero_lt_of_lt (length_read_lt hne)
      · next token rest hread =>
        have hlt := length_lt_of_read_eq hread
        exact Nat.lt_of_le_of_lt (ih _ hlt rest rfl) hlt

end Token

namespace Demand

variable {α : Type} {cs : List Char}

/-- A reader has the result of another one on a text, and needs no more readings for it than there
are characters, and one. -/
def Ends (cs : List Char) (x : Demand α) (reader : List Lexeme → Except Fault α) : Prop :=
  ∃ k ≤ cs.length + 1, Uses x (Token.readings k cs) (reader (Token.scan cs))

/-- What is read on a line is one thing for each character at most, and its end. -/
theorem length_le_of_isMade {used : List Reading} (h : IsMade (Token.scan cs) used) :
    used.length ≤ cs.length + 1 := by
  have htape := h.1.length_le
  rw [tape, List.length_append, List.length_map, List.length_singleton] at htape
  exact htape.trans (Nat.succ_le_succ (Token.length_scan_le cs))

/-- A reader that goes up to the end of the line needs no more readings than there are. -/
theorem Closes.ends {x : Demand α} {reader : List Lexeme → Except Fault α} (h : Closes x reader)
    (cs : List Char) : Ends cs x reader := by
  obtain ⟨used, hmade, huses⟩ := h (Token.scan cs)
  refine ⟨used.length, length_le_of_isMade hmade, ?_⟩
  rwa [readings_of_isMade hmade]

theorem Gives.stops {x : Demand α} {lexemes : List Lexeme}
    {result : Except Fault (α × List Lexeme)} (h : Gives x lexemes result) :
    Stops x lexemes (result.map Prod.fst) := by
  cases h with
  | ok ts hlexemes huses =>
      refine ⟨tokens ts, ⟨?_, ts, none, (List.append_nil _).symm⟩, huses⟩
      rw [hlexemes, tape_append]
      exact List.prefix_append _ _
  | error hstops => exact hstops

/-- How the readings of a text come to an end, and with them all that is repeated on it. -/
structure LineEnds (cs : List Char) : Prop where
  /-- Every reading leaves a suffix of what there was, -/
  suffix : ∀ k, Token.left cs (k + 1) <:+ Token.left cs k
  /-- and a shorter one if it is a token or a wrong spelling. -/
  shorter : ∀ k, (Token.read (Token.left cs k)).1 ≠ .ok none →
    ∃ used, used ≠ [] ∧ used ++ Token.left cs (k + 1) = Token.left cs k
  /-- One of the first readings is the end of the line, -/
  ends : ∃ k < cs.length + 1, (Token.read (Token.left cs k)).1 = .ok none
  /-- and behind it there is no other. -/
  last : ∀ k m, (Token.read (Token.left cs k)).1 = .ok none → k ≤ m →
    (Token.read (Token.left cs m)).1 = .ok none
  /-- The readings are made one after the other. -/
  readings : ∀ n, Token.readings n cs =
    (List.range n).map fun k ↦ (Token.read (Token.left cs k)).1
  /-- No repetition of the reader of tokens needs more rounds than there are characters, and one. -/
  rounds : ∀ n, cs.length < n → Token.readWithin n cs = some (Token.read cs)
  /-- Nor do the terms of a sum need more readings, -/
  sum : ∀ sum : BracketSum, Ends cs (Demand.sum sum) fun lexemes ↦ (sum.parse lexemes).map Prod.fst
  /-- nor the items of data, -/
  items : ∀ found : List (Item String), Ends cs (Demand.items found) (Item.parseFrom found)
  /-- nor a whole line with the labels in front of its statement. -/
  line : ∀ (index : Nat) (a : Assembly), ∃ k ≤ cs.length + 1,
    Completes index a (Token.readings k cs)
      ((Assembly.addLine index (Line.ofLexemes (Token.scan cs))).run.run a)

/-- Every line is read to its end, well-formed or not, within `n + 1` readings of its `n`
characters. -/
theorem line_ends (cs : List Char) : LineEnds cs where
  suffix _ := Token.read_suffix _
  shorter _ := Token.exists_used
  ends := Token.exists_end cs
  last _ _ hend hkm := Token.read_left_end hend hkm
  readings n := Token.readings_eq n cs
  rounds _ hn := Token.readWithin_eq hn
  sum sum := Closes.ends (fun lexemes ↦ (gives_sum sum lexemes).stops) cs
  items found := (closes_items found).ends cs
  line index a := by
    obtain ⟨used, hmade, hcompletes⟩ := completes_addLine index a (Token.scan cs)
    refine ⟨used.length, length_le_of_isMade hmade, ?_⟩
    rw [readings_of_isMade hmade]
    exact hcompletes

/-- A character literal without its apostrophe and a character that starts no token are in front of
a comment.  Both are read, and then nothing but the end of the line. -/
theorem line_ends_faults :
    (Token.read (Token.left "'a$ ;x".toList 0)).1 = .error .unterminatedChar ∧
    (∃ used, used ≠ [] ∧ used ++ Token.left "'a$ ;x".toList 1 = Token.left "'a$ ;x".toList 0) ∧
    (Token.read (Token.left "'a$ ;x".toList 1)).1 = .error (.unexpectedChar '$') ∧
    (∃ used, used ≠ [] ∧ used ++ Token.left "'a$ ;x".toList 2 = Token.left "'a$ ;x".toList 1) ∧
    (∀ m ≥ 2, (Token.read (Token.left "'a$ ;x".toList m)).1 = .ok none) ∧
    Token.readWithin 7 "'a$ ;x".toList = some (.error .unterminatedChar, "$ ;x".toList) := by
  have h := line_ends "'a$ ;x".toList
  refine ⟨by decide, ?_, by decide, ?_, ?_, ?_⟩
  · exact h.shorter 0 (by decide)
  · exact h.shorter 1 (by decide)
  · exact fun m hm ↦ h.last 2 m (by decide) hm
  · exact (h.rounds 7 (by decide)).trans (by decide)

end Demand

end Dcpu16
