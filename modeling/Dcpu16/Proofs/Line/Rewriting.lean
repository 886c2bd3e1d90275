import Dcpu16.Proofs.Line.Grammar
import Dcpu16.Proofs.Line.Respelling
import Mathlib.Data.List.Chain

/-!
# Texts of lines with other labels

To rename the labels of a line is to write other identifiers in the place of some of its
identifiers, and to leave everything else as it is, blanks and comments too.  All identifiers are
renamed but the command; among those behind it are the names of registers and special operands,
which a renaming leaves alone.

The tokens of the renamed text are the renamed tokens, if no identifier comes right behind a number,
which is so in every line of the grammar.  Main statement: `Renaming.reads_chars`.
-/

namespace Dcpu16

/-- Whether a name is that of a register or a special operand, whatever the case of its letters. -/
def Grammar.isReserved (name : String) : Bool :=
  name.toLower ∈ registers ∨ name.toLower ∈ specials

def Token.map (ρ : String → String) : Token → Token
  | .ident name => .ident (ρ name)
  | t => t

namespace Renaming

/-- A function gives a name that can stand where another one stands: identifiers stay identifiers,
labels stay labels, and what is reserved stays the same. -/
structure Suits (ρ : String → String) (name : String) : Prop where
  identifier : Token.isIdentifier name → Token.isIdentifier (ρ name)
  free : Grammar.isReserved name = false → Grammar.isReserved (ρ name) = false
  reserved : Grammar.isReserved name → ρ name = name

/-! ## Texts of lines -/

/-- Where in a line a token stands. -/
inductive Place
  /-- In front of a mark or of the command. -/
  | start
  /-- Behind the colon of a mark. -/
  | mark
  /-- Behind the command. -/
  | operands

def Place.next : Place → Token → Place
  | .start, .colon => .mark
  | .start, .ident _ => .operands
  | .operands, _ => .operands
  | _, _ => .start

/-- Whether an identifier at a place is renamed: it is unless it is the command. -/
def Place.renames : Place → Bool
  | .start => false
  | .mark | .operands => true

variable (ρ : String → String)

/-- The text of a token at a place, where `used` is what it was read from. -/
def tokenChars (place : Place) (used : List Char) : Token → List Char
  | .ident name =>
    if place.renames then used.takeWhile Text.isBlank ++ (ρ name).toList else used
  | _ => used

/-- The text of a line from a place on, with its labels renamed. -/
def chars (place : Place) (cs : List Char) : List Char :=
  match _h : Token.read cs with
  | (.ok (some t), rest) =>
    tokenChars ρ place (cs.take (cs.length - rest.length)) t ++ chars (place.next t) rest
  | _ => cs
termination_by cs.length
decreasing_by exact Token.length_lt_of_read_eq _h

def spell (text : String) : String := String.ofList (chars ρ .start text.toList)

/-! ## Tokens -/

/-- What becomes of a token at a place. -/
def token (place : Place) (t : Token) : Token := if place.renames then t.map ρ else t

/-- What becomes of tokens from a place on. -/
def tokens : Place → List Token → List Token
  | _, [] => []
  | place, t :: ts => token ρ place t :: tokens (place.next t) ts

theorem tokens_operands (ts : List Token) : tokens ρ .operands ts = ts.map (Token.map ρ) := by
  induction ts with
  | nil => rfl
  | cons t ts ih => exact congrArg _ ih

/-- All identifiers from a place on that are renamed are given suitable names. -/
def Suited : Place → List Token → Prop
  | _, [] => True
  | place, t :: ts =>
    (place.renames → ∀ name, t = .ident name → Suits ρ name) ∧ Suited (place.next t) ts

theorem suited_operands {ts : List Token} :
    Suited ρ .operands ts ↔ ∀ name, .ident name ∈ ts → Suits ρ name := by
  induction ts with
  | nil => exact ⟨fun _ name hn ↦ absurd hn List.not_mem_nil, fun _ ↦ trivial⟩
  | cons t ts ih =>
      show (_ → _) ∧ Suited ρ .operands ts ↔ _
      rw [ih]
      constructor
      · rintro ⟨ht, hts⟩ name hname
        rcases List.mem_cons.mp hname with rfl | hname
        · exact ht rfl name rfl
        · exact hts name hname
      · intro h
        refine ⟨?_, fun name hname ↦ h name (List.mem_cons_of_mem t hname)⟩
        rintro - name rfl
        exact h name List.mem_cons_self

/-- No identifier comes right behind a number, from which blanks would have to keep it apart. -/
def Separated (ts : List Token) : Prop :=
  ts.IsChain fun t t' ↦ ∀ w, t = .number w → ∀ name, t' ≠ .ident name

variable {ρ} {place : Place} {cs rest : List Char} {t : Token} {ts : List Token}

/-! ## Reading renamed tokens -/

/-- The text of a line is renamed token by token. -/
theorem chars_of_read (h : Token.read cs = (.ok (some t), rest)) :
    chars ρ place cs = tokenChars ρ place (cs.take (cs.length - rest.length)) t ++
      chars ρ (place.next t) rest := by
  rw [chars]
  split
  · next t' rest' heq =>
    obtain ⟨ht, rfl⟩ := Prod.mk.inj (h.symm.trans heq)
    obtain rfl := Option.some.inj (Except.ok.inj ht)
    rfl
  · next hne => exact absurd h (hne t rest)

theorem chars_of_end (h : ∀ t rest, Token.read cs ≠ (.ok (some t), rest)) :
    chars ρ place cs = cs := by
  rw [chars]
  split
  · next t rest heq => exact absurd heq (h t rest)
  · rfl

/-- A token is an identifier that is renamed, or it is left as it is. -/
theorem renamed_or_kept (place : Place) (t : Token) :
    (∃ name, t = .ident name ∧ place.renames) ∨
      ∀ name, t = .ident name → place.renames = false := by
  cases hr : place.renames with
  | false => exact .inr fun _ _ ↦ rfl
  | true =>
      cases t with
      | ident name => exact .inl ⟨name, rfl, rfl⟩
      | _ => exact .inr (by rintro name ⟨⟩)

/-- A token that is no label stays as it is written. -/
theorem chars_of_kept (h : Token.read cs = (.ok (some t), rest))
    (hk : ∀ name, t = .ident name → place.renames = false) {used : List Char}
    (hcs : cs = used ++ rest) : chars ρ place cs = used ++ chars ρ (place.next t) rest := by
  have hused : cs.take (cs.length - rest.length) = used := by
    rw [hcs, List.length_append, Nat.add_sub_cancel, List.take_left]
  have htoken : tokenChars ρ place used t = used := by
    cases t with
    | ident name => rw [tokenChars, hk name rfl, if_neg Bool.false_ne_true]
    | _ => rfl
  rw [chars_of_read h, hused, htoken]

/-- A label is written anew behind the same blanks. -/
theorem chars_of_renamed (ρ : String → String) {name : String}
    (h : Token.read cs = (.ok (some (.ident name)), rest)) (hr : place.renames) :
    ∃ blanks, (∀ b ∈ blanks, Text.isBlank b) ∧ cs = blanks ++ (name.toList ++ rest) ∧
      chars ρ place cs =
        blanks ++ ((ρ name).toList ++ chars ρ (place.next (.ident name)) rest) := by
  obtain ⟨hname, -, blanks, hb, hcs⟩ := Token.read_eq_ident h
  refine ⟨blanks, hb, hcs, ?_⟩
  have hused : cs.take (cs.length - rest.length) = blanks ++ name.toList := by
    rw [hcs, ← List.append_assoc, List.length_append, Nat.add_sub_cancel, List.take_left]
  have hblanks : (blanks ++ name.toList).takeWhile Text.isBlank = blanks := by
    refine (Token.takeWhile_append hb ?_).1
    intro c hc
    exact Token.isBlank_of_isIdentRest
      (Token.isIdentRest_of_isIdentifier hname c (List.mem_of_mem_head? hc))
  rw [chars_of_read h, hused, tokenChars, if_pos hr, hblanks, List.append_assoc]

/-- What does not start with an identifier starts as before. -/
theorem head?_chars (h : ∀ c ∈ cs.head?, Token.isIdentStart c = false) :
    (chars ρ place cs).head? = cs.head? := by
  by_cases hread : ∃ t rest, Token.read cs = (.ok (some t), rest)
  · obtain ⟨t, rest, hread⟩ := hread
    rcases renamed_or_kept place t with ⟨name, rfl, hr⟩ | hkept
    · obtain ⟨blanks, -, hcs, hchars⟩ := chars_of_renamed ρ hread hr
      obtain ⟨c, cs', hname, hc, -⟩ := Token.isIdentifier_iff.mp (Token.read_eq_ident hread).1
      cases blanks with
      | nil =>
          rw [hcs, hname] at h
          exact absurd hc (Bool.eq_false_iff.mp (h c rfl))
      | cons b blanks =>
          rw [hchars, hcs]
          rfl
    · obtain ⟨used, hne, hcs, -⟩ := Token.read_append hread
      obtain ⟨c, used, rfl⟩ := List.exists_cons_of_ne_nil hne
      rw [chars_of_kept hread hkept hcs, hcs]
      rfl
  · rw [chars_of_end fun t rest heq ↦ hread ⟨t, rest, heq⟩]

/-- A text whose first token is no identifier does not begin like one. -/
theorem head?_of_reads (h : Token.Reads cs ts) (hts : ∀ t ∈ ts.head?, ∀ name, t ≠ .ident name) :
    ∀ c ∈ cs.head?, Token.isIdentStart c = false := by
  intro c hc
  rw [Bool.eq_false_iff]
  intro hstart
  cases cs with
  | nil => cases hc
  | cons c' body =>
      obtain rfl := Option.some.inj hc
      have hrange := Token.toNat_of_isIdentStart hstart
      have hsemicolon : c' ≠ ';' := by
        rintro rfl
        exact absurd hrange (by decide)
      have hnone : ∀ b ∈ ([] : List Char), Text.isBlank b := fun b hb ↦ absurd hb List.not_mem_nil
      have hread := Token.read_blanks hnone
        (Token.isBlank_of_isIdentRest (Token.isIdentRest_of_isIdentStart hstart)) hsemicolon
        (Token.readFrom_of_isIdentStart hstart body)
      rw [List.nil_append] at hread
      cases h with
      | eol hread' => cases hread.symm.trans hread'
      | token hread' _ =>
          obtain ⟨ht, -⟩ := Prod.mk.inj (hread'.symm.trans hread)
          exact hts _ rfl _ (Option.some.inj (Except.ok.inj ht))

/-- A renamed text has the renamed tokens. -/
theorem reads_chars (h : Token.Reads cs ts) (hseparated : Separated ts)
    (hsuited : Suited ρ place ts) : Token.Reads (chars ρ place cs) (tokens ρ place ts) := by
  induction h generalizing place with
  | @eol cs rest hread =>
      rw [chars_of_end fun t rest' heq ↦ by cases hread.symm.trans heq]
      exact .eol hread
  | @token cs rest t ts hread hreads ih =>
      obtain ⟨hnext, hts⟩ := List.isChain_cons.mp hseparated
      have ih := ih hts hsuited.2
      rcases renamed_or_kept place t with ⟨name, rfl, hr⟩ | hkept
      · obtain ⟨blanks, hb, -, hchars⟩ := chars_of_renamed ρ hread hr
        obtain ⟨hname, hstop, -⟩ := Token.read_eq_ident hread
        have hhead : (chars ρ (place.next (.ident name)) rest).head? = rest.head? :=
          head?_chars fun c hc ↦ Token.isIdentStart_of_not_isIdentRest (hstop c hc)
        have htoken : token ρ place (.ident name) = .ident (ρ name) := if_pos hr
        rw [hchars, tokens, htoken]
        refine .token (Token.read_identifier hb ((hsuited.1 hr name rfl).identifier hname) ?_) ih
        rwa [hhead]
      · obtain ⟨used, -, hcs, hused⟩ := Token.read_append hread
        have htoken : token ρ place t = t := by
          cases t with
          | ident name => rw [token, hkept name rfl, if_neg Bool.false_ne_true]
          | _ => exact ite_self _
        rw [chars_of_kept hread hkept hcs, tokens, htoken]
        -- A number or a command ends at the next character, so that no new name may start there.
        refine .token (hused _ fun hopen ↦ head?_chars ?_) ih
        cases t with
        | number w => exact head?_of_reads hreads fun t' ht' ↦ hnext t' ht' w rfl
        | ident name =>
            intro c hc
            exact Token.isIdentStart_of_not_isIdentRest ((Token.read_eq_ident hread).2.1 c hc)
        | _ => cases hopen

/-! ## Ends of lines -/

/-- A text in the place of another one: it is empty only if that one is, and only characters of
identifiers are new in it or at its end. -/
structure Respelled (cs cs' : List Char) : Prop where
  nil : cs' = [] → cs = []
  mem : ∀ c ∈ cs', Token.isIdentRest c = false → c ∈ cs
  last : ∀ c ∈ cs'.getLast?, Token.isIdentRest c = false → c ∈ cs.getLast?

namespace Respelled

variable {ds cs' ds' : List Char}

theorem refl (cs : List Char) : Respelled cs cs := ⟨id, fun _ h _ ↦ h, fun _ h _ ↦ h⟩

/-- An identifier can stand in the place of anything. -/
theorem identifier (cs : List Char) {name : String} (h : Token.isIdentifier name) :
    Respelled cs name.toList := by
  have hrest := Token.isIdentRest_of_isIdentifier h
  refine ⟨?_, ?_, ?_⟩
  · intro hnil
    obtain ⟨c, cs', hname, -⟩ := Token.isIdentifier_iff.mp h
    cases hname.symm.trans hnil
  · intro c hc hne
    exact absurd (hrest c hc) (Bool.eq_false_iff.mp hne)
  · intro c hc hne
    exact absurd (hrest c (List.mem_of_getLast? hc)) (Bool.eq_false_iff.mp hne)

/-- Texts can be replaced part by part. -/
theorem append (h₁ : Respelled cs cs') (h₂ : Respelled ds ds') :
    Respelled (cs ++ ds) (cs' ++ ds') where
  nil := by
    intro hnil
    obtain ⟨hcs, hds⟩ := List.append_eq_nil_iff.mp hnil
    rw [h₁.nil hcs, h₂.nil hds, List.append_nil]
  mem := by
    intro c hc hne
    rcases List.mem_append.mp hc with hc | hc
    · exact List.mem_append_left _ (h₁.mem c hc hne)
    · exact List.mem_append_right _ (h₂.mem c hc hne)
  last := by
    intro c hc hne
    rw [List.getLast?_append] at hc ⊢
    cases hlast : ds'.getLast? with
    | some d =>
        rw [hlast, Option.some_or] at hc
        obtain rfl := Option.some.inj hc
        rw [h₂.last d hlast hne, Option.some_or]
        rfl
    | none =>
        rw [hlast, Option.none_or] at hc
        rw [h₂.nil (List.getLast?_eq_none_iff.mp hlast), List.getLast?_nil, Option.none_or]
        exact h₁.last c hc hne

end Respelled

/-- Renaming brings no new character but those of identifiers. -/
theorem respelled_chars (h : Token.Reads cs ts) (hsuited : Suited ρ place ts) :
    Respelled cs (chars ρ place cs) := by
  induction h generalizing place with
  | @eol cs rest hread =>
      rw [chars_of_end fun t rest' heq ↦ by cases hread.symm.trans heq]
      exact .refl cs
  | @token cs rest t ts hread hreads ih =>
      have ih := ih hsuited.2
      rcases renamed_or_kept place t with ⟨name, rfl, hr⟩ | hkept
      · obtain ⟨blanks, -, hcs, hchars⟩ := chars_of_renamed ρ hread hr
        have hname := (hsuited.1 hr name rfl).identifier (Token.read_eq_ident hread).1
        rw [hchars, hcs]
        exact (Respelled.refl blanks).append ((Respelled.identifier _ hname).append ih)
      · obtain ⟨used, -, hcs, -⟩ := Token.read_append hread
        rw [chars_of_kept hread hkept hcs, hcs]
        exact (Respelled.refl used).append ih

/-! ## Grammar -/

theorem separated_cons (h : ∀ w, t ≠ .number w) (hts : Separated ts) : Separated (t :: ts) := by
  refine List.isChain_cons.mpr ⟨?_, hts⟩
  intro _ _ w ht
  exact absurd ht (h w)

/-- A token that ends by itself keeps apart what stands on both of its sides. -/
theorem separated_append (h : t.isOpen = false) {before : List Token} (hbefore : Separated before)
    (hts : Separated ts) : Separated (before ++ t :: ts) := by
  refine List.isChain_append.mpr ⟨hbefore, separated_cons ?_ hts, ?_⟩
  · rintro w rfl
    cases h
  · rintro - - t' ht' - - name rfl
    obtain rfl := Option.some.inj ht'
    cases h

theorem separated_intersperse (h : t.isOpen = false) (ts : List Token) :
    Separated (ts.intersperse t) := by
  induction ts with
  | nil => exact .nil
  | cons t' ts ih =>
      cases ts with
      | nil => exact .singleton t'
      | cons t'' ts => exact separated_append h (.singleton t') ih

theorem separated_operand (h : Grammar.Operand ts) : Separated ts := by
  cases h with
  | number w => exact .singleton _
  | char w => exact .singleton _
  | name name => exact .singleton _
  | sum _ =>
      apply separated_cons (by rintro w ⟨⟩)
      exact separated_append rfl (separated_intersperse rfl _) .nil

theorem separated_statement (h : Grammar.Statement ts) : Separated ts := by
  cases h with
  | basic _ ha hb =>
      apply separated_cons (by rintro w ⟨⟩)
      exact separated_append rfl (separated_operand ha) (separated_operand hb)
  | extended _ ha => exact separated_cons (by rintro w ⟨⟩) (separated_operand ha)
  | data _ _ => exact separated_cons (by rintro w ⟨⟩) (separated_intersperse rfl _)
  | dataComma _ _ _ =>
      apply separated_cons (by rintro w ⟨⟩)
      exact separated_append rfl (separated_intersperse rfl _) .nil

/-- In a line of the grammar no identifier comes right behind a number. -/
theorem separated_line {marks : List String} (h : Grammar.Line marks ts) : Separated ts := by
  induction h with
  | empty => exact .nil
  | statement h => exact separated_statement h
  | mark name _ ih => exact separated_cons (by rintro w ⟨⟩) (separated_cons (by rintro w ⟨⟩) ih)

end Renaming

end Dcpu16
