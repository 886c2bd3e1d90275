import Dcpu16.Proofs.Line.Demand

/-!
# Expected tokens

A reader that cannot use what it has asked for tells which kinds of tokens it expects there.  Here
a reader is followed along what it is given: at each place it refuses the readings of some kinds,
with a fault that lists all other kinds, or it goes on with any other reading and, whatever happens
then, does not refuse this one any more.  `Demand.Expects` says so of a reader, as far as it is
followed.  Main statements: `Demand.expects_statement`, by which all places in a statement are of
this sort, and `Demand.Expects.tells`, which gives the list for a place.
-/

namespace Dcpu16

/-- The kind of a token or of the end of the line.  A wrong spelling has none. -/
def Reading.kind? : Reading → Option Token.Kind
  | .ok none => some .eol
  | .ok (some token) => some token.kind
  | .error _ => none

/-- A reading is not of a kind outside a list. -/
def Reading.Fits (expected : List Token.Kind) (reading : Reading) : Prop :=
  ∀ kind, reading.kind? = some kind → kind ∈ expected

/-- A wrong spelling is never refused for its kind. -/
theorem Reading.fits_error (expected : List Token.Kind) (e : LexError) :
    Reading.Fits expected (.error e) := fun _ h ↦ nomatch h

theorem Reading.fits_eol {expected : List Token.Kind} (h : .eol ∈ expected) :
    Reading.Fits expected (.ok none) := fun _ hkind ↦ Option.some.inj hkind ▸ h

theorem Reading.fits_token {expected : List Token.Kind} {token : Token}
    (h : token.kind ∈ expected) : Reading.Fits expected (.ok (some token)) :=
  fun _ hkind ↦ Option.some.inj hkind ▸ h

namespace Demand

variable {α β : Type}

/-! ## Places of a reader -/

/-- A reader that has been given its first reading. -/
def given (x : Demand α) (reading : Reading) : Demand α := fun supply ↦ x (reading :: supply)

/-- A reader asks for these readings and finds the last one of a kind that it does not expect. -/
def Complains (x : Demand α) (used : List Reading) (found : Token.Kind)
    (expected : List Token.Kind) : Prop :=
  ∃ labels, Uses x used (.error ⟨.unexpectedToken found expected, labels⟩)

/-- A result that is not about a token of another kind than expected. -/
def IsCalm (result : Except Fault α) : Prop :=
  ∀ found expected labels, result ≠ .error ⟨.unexpectedToken found expected, labels⟩

/-- A reader refuses what it is given first, which is of none of the kinds that it lists. -/
def Refuses (x : Demand α) (expected : List Token.Kind) (reading : Reading) : Prop :=
  ∃ kind, reading.kind? = some kind ∧ kind ∉ expected ∧ Complains x [reading] kind expected

/-- For so many readings, a reader refuses at each place those that do not fit in some list, and
the fault has this list. -/
inductive Expects : Nat → Demand α → Prop
  | zero (x : Demand α) : Expects 0 x
  | done {n : Nat} {x : Demand α} {result : Except Fault α} : IsCalm result → Uses x [] result →
      Expects n x
  | asks {n : Nat} {x : Demand α} (expected : List Token.Kind) : x [] = none →
      (∀ reading, ¬Reading.Fits expected reading → Refuses x expected reading) →
      (∀ reading, Reading.Fits expected reading → Expects n (x.given reading)) → Expects (n + 1) x

/-- Behind some readings, a reader complains about those that do not fit in a list and no others,
and the fault has this list. -/
def Tells (x : Demand α) (before : List Reading) (expected : List Token.Kind) : Prop :=
  ∀ reading found listed, Complains x (before ++ [reading]) found listed ↔
    reading.kind? = some found ∧ found ∉ expected ∧ listed = expected

/-- What a reader asks for settles its result. -/
theorem Uses.inj {x : Demand α} {used rest rest' : List Reading} {result result' : Except Fault α}
    (h : Uses x used result) (hx : x (used ++ rest) = some (result', rest')) :
    result = result' ∧ rest = rest' :=
  Prod.mk.inj (Option.some.inj ((h rest).symm.trans hx))

theorem IsCalm.ok (a : α) : IsCalm (.ok a : Except Fault α) := fun _ _ _ h ↦ nomatch h

theorem isCalm_error_iff {fault : Fault} : IsCalm (.error fault : Except Fault α) ↔
    ∀ found expected, fault.cause ≠ .unexpectedToken found expected := by
  constructor
  · intro h found expected hcause
    exact h found expected fault.mentioned (by rw [← hcause])
  · intro h found expected labels heq
    exact h found expected (congrArg Fault.cause (Except.error.inj heq))

/-- A wrong spelling is no token of another kind than expected. -/
theorem isCalm_lexical (e : LexError) (labels : List String) :
    IsCalm (.error ⟨.lexical e, labels⟩ : Except Fault α) :=
  isCalm_error_iff.mpr (by rintro _ _ ⟨⟩)

/-- A reader complains in one way only. -/
theorem Complains.eq {x : Demand α} {used : List Reading} {found found' : Token.Kind}
    {expected expected' : List Token.Kind} (h : Complains x used found expected)
    (h' : Complains x used found' expected') : found = found' ∧ expected = expected' := by
  obtain ⟨labels, huses⟩ := h
  obtain ⟨labels', huses'⟩ := h'
  have hcause := congrArg Fault.cause (Except.error.inj (huses.inj (huses' [])).1)
  exact ParseError.unexpectedToken.inj hcause

namespace Expects

variable {x : Demand α}

/-- The kinds that are expected first. -/
theorem of_readings {n : Nat} (expected : List Token.Kind) (hnil : x [] = none)
    (h : ∀ reading, Refuses x expected reading ∨
      Reading.Fits expected reading ∧ ∀ m < n, Expects m (x.given reading)) : Expects n x := by
  cases n with
  | zero => exact .zero x
  | succ n =>
      refine .asks expected hnil (fun reading hnot ↦ ?_) (fun reading hfits ↦ ?_)
      · rcases h reading with hrefuses | ⟨hfits, -⟩
        · exact hrefuses
        · exact (hnot hfits).elim
      · rcases h reading with ⟨kind, hkind, hmem, -⟩ | ⟨-, hexpects⟩
        · exact (hmem (hfits kind hkind)).elim
        · exact hexpects n (Nat.lt_succ_self n)

/-- A reader does not complain before it has asked for something. -/
theorem not_complains_nil (h : Expects 1 x) (found : Token.Kind) (expected : List Token.Kind) :
    ¬Complains x [] found expected := by
  rintro ⟨labels, huses⟩
  cases h with
  | done hcalm hdone => exact hcalm _ _ _ (hdone.inj (huses [])).1
  | asks _ hnil _ _ => exact nomatch hnil.symm.trans (huses [])

/-- A reader has its result at once, or it has a list of the kinds that it expects first and goes on
behind a reading that fits. -/
theorem dest (h : ∀ n, Expects n x) :
    (∃ result, Uses x [] result) ∨ ∃ expected, x [] = none ∧
      (∀ reading, ¬Reading.Fits expected reading → Refuses x expected reading) ∧
      ∀ reading, Reading.Fits expected reading → ∀ n, Expects n (x.given reading) := by
  cases h 2 with
  | done _ hdone => exact .inl ⟨_, hdone⟩
  | asks expected hnil hrefused haccepted =>
      refine .inr ⟨expected, hnil, hrefused, fun reading hfits n ↦ ?_⟩
      cases h (n + 1) with
      | done _ hdone => exact nomatch hnil.symm.trans (hdone [])
      | asks expected' _ hrefused' haccepted' =>
          -- the list may be another one for each length, but what fits in one fits in all
          refine haccepted' reading (Classical.byContradiction fun hnot ↦ ?_)
          obtain ⟨kind, -, -, hcomplains⟩ := hrefused' reading hnot
          exact (haccepted reading hfits).not_complains_nil kind expected' hcomplains

/-- A reader that has not come to a result has a list of the kinds that it expects next. -/
theorem tells (h : ∀ n, Expects n x) {before : List Reading} (hbefore : x before = none) :
    ∃ expected, Tells x before expected := by
  induction before generalizing x with
  | nil =>
      obtain ⟨result, hdone⟩ | ⟨expected, -, hrefused, haccepted⟩ := dest h
      · exact nomatch hbefore.symm.trans (hdone [])
      · refine ⟨expected, fun reading found listed ↦ ⟨fun hcomplains ↦ ?_, ?_⟩⟩
        · have hnot : ¬Reading.Fits expected reading := fun hfits ↦
            (haccepted reading hfits 1).not_complains_nil found listed hcomplains
          obtain ⟨kind, hkind, hmem, hcomplains'⟩ := hrefused reading hnot
          obtain ⟨rfl, rfl⟩ := hcomplains.eq hcomplains'
          exact ⟨hkind, hmem, rfl⟩
        · rintro ⟨hkind, hmem, rfl⟩
          obtain ⟨kind, hkind', -, hcomplains⟩ :=
            hrefused reading fun hfits ↦ hmem (hfits found hkind)
          rwa [Option.some.inj (hkind.symm.trans hkind')]
  | cons reading before ih =>
      obtain ⟨result, hdone⟩ | ⟨expected, -, hrefused, haccepted⟩ := dest h
      · exact nomatch hbefore.symm.trans (hdone _)
      · by_cases hfits : Reading.Fits expected reading
        · exact ih (haccepted reading hfits) hbefore
        · obtain ⟨kind, -, -, labels, huses⟩ := hrefused reading hfits
          exact nomatch hbefore.symm.trans (huses before)

/-- The result of a reader depends on what it has asked for only. -/
theorem uses (h : ∀ n, Expects n x) {supply rest : List Reading} {result : Except Fault α}
    (hx : x supply = some (result, rest)) : ∃ used, supply = used ++ rest ∧ Uses x used result := by
  induction supply generalizing x with
  | nil =>
      obtain ⟨result, hdone⟩ | ⟨expected, hnil, -, -⟩ := dest h
      · obtain ⟨rfl, rfl⟩ := hdone.inj hx
        exact ⟨[], rfl, hdone⟩
      · exact nomatch hnil.symm.trans hx
  | cons reading supply ih =>
      obtain ⟨result, hdone⟩ | ⟨expected, -, hrefused, haccepted⟩ := dest h
      · obtain ⟨rfl, rfl⟩ := hdone.inj hx
        exact ⟨[], rfl, hdone⟩
      · by_cases hfits : Reading.Fits expected reading
        · obtain ⟨used, rfl, huses⟩ := ih (haccepted reading hfits) hx
          exact ⟨reading :: used, rfl, huses⟩
        · obtain ⟨kind, -, -, labels, huses⟩ := hrefused reading hfits
          obtain ⟨rfl, rfl⟩ := huses.inj hx
          exact ⟨[reading], rfl, huses⟩

/-! ## One reader behind another -/

/-- The labels that were mentioned before have no influence on what is expected. -/
theorem after {n : Nat} (h : Expects n x) (labels : List String) : Expects n (x.after labels) := by
  induction h with
  | zero x => exact .zero _
  | @done n x result hcalm hdone =>
      refine .done ?_ (hdone.after labels)
      cases result with
      | ok a => exact .ok a
      | error fault =>
          have hcause := isCalm_error_iff.mp hcalm
          exact isCalm_error_iff.mpr hcause
  | @asks n x expected hnil hrefused _ ih =>
      refine .asks expected ?_ (fun reading hnot ↦ ?_) ih
      · rw [Demand.after, hnil]
        rfl
      · obtain ⟨kind, hkind, hmem, labels', huses⟩ := hrefused reading hnot
        exact ⟨kind, hkind, hmem, labels ++ labels', huses.after labels⟩

/-- Places behind a reader are those of the reader that goes on. -/
theorem bind {n : Nat} {f : α → Demand β} (h : Expects n x) (hf : ∀ n a, Expects n (f a)) :
    Expects n (x >>= f) := by
  induction h with
  | zero x => exact .zero _
  | @done n x result hcalm hdone =>
      cases result with
      | error fault =>
          exact .done (isCalm_error_iff.mpr (isCalm_error_iff.mp hcalm)) (hdone.bind_error f)
      | ok a =>
          have heq : x >>= f = f a := by
            funext supply
            show andThen x f ([] ++ supply) = _
            rw [andThen, hdone]
          rw [heq]
          exact hf n a
  | @asks n x expected hnil hrefused _ ih =>
      refine .asks expected ?_ (fun reading hnot ↦ ?_) ih
      · show andThen x f [] = none
        rw [andThen, hnil]
      · obtain ⟨kind, hkind, hmem, labels, huses⟩ := hrefused reading hnot
        exact ⟨kind, hkind, hmem, labels, huses.bind_error f⟩

theorem pure (n : Nat) (a : α) : Expects n (Pure.pure a : Demand α) :=
  .done (.ok a) fun _ ↦ rfl

theorem map {n : Nat} (h : Expects n x) (f : α → β) : Expects n (do return f (← x)) :=
  h.bind fun n a ↦ .pure n (f a)

end Expects

/-! ## Readers one by one -/

/-- What is of no expected kind is refused with the list of the expected ones. -/
theorem refuses_ofReading {x : Demand α} {expected : List Token.Kind} {reading : Reading}
    {kind : Token.Kind} (labels : List String) (hkind : reading.kind? = some kind)
    (hmem : kind ∉ expected)
    (h : Uses x [reading] (.error ((Fault.ofReading expected reading).after labels))) :
    Refuses x expected reading := by
  refine ⟨kind, hkind, hmem, labels ++ [], ?_⟩
  rcases reading with e | _ | token
  · cases hkind
  · obtain rfl := Option.some.inj hkind
    exact h
  · obtain rfl := Option.some.inj hkind
    exact h

/-- A reader that stops for another reason expects nothing more. -/
theorem Expects.of_cause {x : Demand α} {cause : ParseError} {labels : List String}
    (hcause : ∀ found expected, cause ≠ .unexpectedToken found expected)
    (h : Uses x [] (.error ⟨cause, labels⟩)) (n : Nat) : Expects n x :=
  .done (isCalm_error_iff.mpr hcause) h

/-- A wrong spelling ends the line wherever it is. -/
theorem Expects.of_error {x : Demand α} {e : LexError} {labels : List String}
    (h : Uses x [.error e] (.error ⟨.lexical e, labels⟩)) (n : Nat) :
    Expects n (x.given (.error e)) :=
  .done (isCalm_lexical e labels) h

theorem expects_eol (n : Nat) : Expects n eol := by
  refine .of_readings [.eol] rfl fun reading ↦ ?_
  rcases reading with e | _ | token
  · exact .inr ⟨Reading.fits_error _ e, fun m _ ↦ .of_error (fun supply ↦ rfl) m⟩
  · exact .inr ⟨Reading.fits_eol (by decide), fun m _ ↦ .done (.ok ()) fun supply ↦ rfl⟩
  · refine .inl (refuses_ofReading [] rfl ?_ fun supply ↦ rfl)
    exact fun hmem ↦ token.kind_ne_eol (List.mem_singleton.mp hmem)

theorem expects_comma (n : Nat) : Expects n comma := by
  refine .of_readings [.comma] rfl fun reading ↦ ?_
  rcases reading with e | _ | token
  · exact .inr ⟨Reading.fits_error _ e, fun m _ ↦ .of_error (fun supply ↦ rfl) m⟩
  · exact .inl (refuses_ofReading [] rfl (by decide) fun supply ↦ rfl)
  · cases token with
    | comma =>
        exact .inr ⟨Reading.fits_token (by decide), fun m _ ↦ .done (.ok ()) fun supply ↦ rfl⟩
    | _ => exact .inl (refuses_ofReading [] rfl (by simp [Token.kind]) fun supply ↦ rfl)

/-- A token of another kind is refused as a term. -/
theorem addTerm_of_notMem (sum : BracketSum) {token : Token}
    (h : token.kind ∉ [.number, .char, .ident]) :
    sum.addTerm token = .error (.unexpectedToken token.kind [.number, .char, .ident]) := by
  cases token with
  | number w => exact (h (by simp [Token.kind])).elim
  | char w => exact (h (by simp [Token.kind])).elim
  | ident name => exact (h (by simp [Token.kind])).elim
  | _ => rfl

/-- What else can be wrong with a term is not its kind. -/
theorem addTerm_ne_unexpectedToken (sum : BracketSum) {token : Token}
    (h : token.kind ∈ [.number, .char, .ident]) (found : Token.Kind) (expected : List Token.Kind) :
    sum.addTerm token ≠ .error (.unexpectedToken found expected) := by
  intro hadd
  cases token with
  | number w => cases hadd
  | char w => cases hadd
  | ident name =>
      rw [BracketSum.addTerm, BracketSum.addName] at hadd
      split at hadd
      · split at hadd <;> cases hadd
      · cases hadd
      · split at hadd <;> cases hadd
  | _ => simp [Token.kind] at h

/-- Reads what comes behind a term of a sum. -/
def behindTerm (sum : BracketSum) : Demand (Operand String)
  | [] => none
  | .ok (some .plus) :: rest => Demand.sum sum rest
  | .ok (some .closeBracket) :: rest => some (.ok sum.operand, rest)
  | reading :: rest =>
    let fault := Fault.ofReading [.plus, .closeBracket] reading
    some (.error (fault.after sum.label?.toList), rest)

theorem given_term {sum sum₁ : BracketSum} {token : Token} (h : sum.addTerm token = .ok sum₁) :
    given (Demand.sum sum) (.ok (some token)) = behindTerm sum₁ := by
  funext supply
  show Demand.sum sum (.ok (some token) :: supply) = _
  rw [Demand.sum, h]
  rfl

/-- Behind a term a plus or a closing bracket is expected. -/
theorem expects_behindTerm {n : Nat} {sum : BracketSum}
    (h : ∀ m < n, Expects m (Demand.sum sum)) : Expects n (behindTerm sum) := by
  refine .of_readings [.plus, .closeBracket] rfl fun reading ↦ ?_
  rcases reading with e | _ | token
  · exact .inr ⟨Reading.fits_error _ e, fun m _ ↦ .of_error (fun supply ↦ rfl) m⟩
  · exact .inl (refuses_ofReading _ rfl (by decide) fun supply ↦ rfl)
  · cases token with
    | plus => exact .inr ⟨Reading.fits_token (by decide), h⟩
    | closeBracket =>
        exact .inr ⟨Reading.fits_token (by decide), fun m _ ↦ .done (.ok _) fun supply ↦ rfl⟩
    | _ => exact .inl (refuses_ofReading _ rfl (by simp [Token.kind]) fun supply ↦ rfl)

/-- In a sum numbers, characters and identifiers are expected. -/
theorem expects_sum (n : Nat) (sum : BracketSum) : Expects n (Demand.sum sum) := by
  induction n using Nat.strongRecOn generalizing sum with
  | ind n ih =>
      refine .of_readings [.number, .char, .ident] rfl fun reading ↦ ?_
      rcases reading with e | _ | token
      · exact .inr ⟨Reading.fits_error _ e, fun m _ ↦ .of_error (fun supply ↦ rfl) m⟩
      · exact .inl (refuses_ofReading _ rfl (by decide) fun supply ↦ rfl)
      · by_cases hkind : token.kind ∈ [.number, .char, .ident]
        · refine .inr ⟨Reading.fits_token hkind, fun m hm ↦ ?_⟩
          cases hadd : sum.addTerm token with
          | error cause =>
              have huses : Uses (Demand.sum sum) [.ok (some token)]
                  (.error ⟨cause, sum.label?.toList⟩) := by
                intro supply
                show Demand.sum sum (.ok (some token) :: supply) = _
                rw [Demand.sum, hadd]
              refine .of_cause (fun found expected hcause ↦ ?_) huses m
              exact addTerm_ne_unexpectedToken sum hkind found expected (hcause ▸ hadd)
          | ok sum₁ =>
              rw [given_term hadd]
              exact expects_behindTerm fun m' hm' ↦ ih m' (Nat.lt_trans hm' hm) sum₁
        · have hadd := addTerm_of_notMem sum hkind
          refine .inl ⟨token.kind, rfl, hkind, sum.label?.toList, fun supply ↦ ?_⟩
          show Demand.sum sum (.ok (some token) :: supply) = _
          rw [Demand.sum, hadd]

/-- An operand is a number, a character, an identifier or an opening bracket. -/
theorem expects_operand (n : Nat) : Expects n operand := by
  refine .of_readings [.number, .char, .ident, .openBracket] rfl fun reading ↦ ?_
  rcases reading with e | _ | token
  · exact .inr ⟨Reading.fits_error _ e, fun m _ ↦ .of_error (fun supply ↦ rfl) m⟩
  · exact .inl (refuses_ofReading [] rfl (by decide) fun supply ↦ rfl)
  · cases token with
    | openBracket => exact .inr ⟨Reading.fits_token (by decide), fun m _ ↦ expects_sum m {}⟩
    | number | char | ident =>
        exact .inr ⟨Reading.fits_token (by simp [Token.kind]),
          fun m _ ↦ .done (.ok _) fun supply ↦ rfl⟩
    | _ => exact .inl (refuses_ofReading [] rfl (by simp [Token.kind]) fun supply ↦ rfl)

/-- Reads what comes behind an item of data, which is the first in `found`. -/
def behindItem (found : List (Item String)) : Demand (List (Item String))
  | [] => none
  | .ok none :: rest => some (.ok found.reverse, rest)
  | .ok (some .comma) :: rest => items found rest
  | reading :: rest =>
    let fault := Fault.ofReading [.comma, .eol] reading
    some (.error (fault.after (found.reverse.filterMap Item.label?)), rest)

theorem given_item {token : Token} {item : Item String} (h : Item.ofToken? token = some item)
    (found : List (Item String)) :
    given (items found) (.ok (some token)) = behindItem (item :: found) := by
  funext supply
  show items found (.ok (some token) :: supply) = _
  rw [items, h]
  rfl

/-- Behind an item a comma or the end of the line is expected. -/
theorem expects_behindItem {n : Nat} {found : List (Item String)}
    (h : ∀ m < n, Expects m (items found)) : Expects n (behindItem found) := by
  refine .of_readings [.comma, .eol] rfl fun reading ↦ ?_
  rcases reading with e | _ | token
  · exact .inr ⟨Reading.fits_error _ e, fun m _ ↦ .of_error (fun supply ↦ rfl) m⟩
  · exact .inr ⟨Reading.fits_eol (by decide), fun m _ ↦ .done (.ok _) fun supply ↦ rfl⟩
  · cases token with
    | comma => exact .inr ⟨Reading.fits_token (by decide), h⟩
    | _ => exact .inl (refuses_ofReading _ rfl (by simp [Token.kind]) fun supply ↦ rfl)

/-- What is no item is not constant, so that no kind is refused where an item can be. -/
theorem expects_items (n : Nat) (found : List (Item String)) : Expects n (items found) := by
  induction n using Nat.strongRecOn generalizing found with
  | ind n ih =>
      have hall : ∀ kind, kind ∈ Token.Kind.all := by
        intro kind
        cases kind <;> decide
      refine .of_readings Token.Kind.all rfl fun reading ↦
        .inr ⟨fun kind _ ↦ hall kind, fun m hm ↦ ?_⟩
      rcases reading with e | _ | token
      · exact .of_error (fun supply ↦ rfl) m
      · exact .done (.ok _) fun supply ↦ rfl
      · cases hitem : Item.ofToken? token with
        | none =>
            have huses : Uses (items found) [.ok (some token)]
                (.error ⟨.nonConstantData, found.reverse.filterMap Item.label?⟩) := by
              intro supply
              show items found (.ok (some token) :: supply) = _
              rw [items, hitem]
            exact .of_cause (by rintro _ _ ⟨⟩) huses m
        | some item =>
            rw [given_item hitem]
            exact expects_behindItem fun m' hm' ↦ ih m' (Nat.lt_trans hm' hm) (item :: found)

theorem expects_basic (n : Nat) (op : BasicOp) : Expects n (basic op) := by
  have hlast (n : Nat) (b : Operand String) := ((expects_eol n).after b.label?.toList).map fun _ ↦ b
  have hsecond (n : Nat) (a : Operand String) :=
    ((expects_comma n).bind fun n _ ↦ (expects_operand n).bind hlast).after a.label?.toList
  exact (expects_operand n).bind fun n a ↦ (hsecond n a).map fun b ↦ Instruction.basic op a b

theorem expects_extended (n : Nat) (number : Fin 64) : Expects n (extended number) := by
  have hlast (n : Nat) (a : Operand String) :=
    ((expects_eol n).after a.label?.toList).map fun _ ↦ Instruction.extended number a
  exact (expects_operand n).bind hlast

/-- At each place of a statement the kinds that can be read are those that are listed where another
one is found. -/
theorem expects_statement (n : Nat) (command : String) : Expects n (statement command) := by
  rw [statement]
  by_cases hdat : command.toLower = "dat"
  · rw [if_pos hdat]
    exact (expects_items n []).map _
  · rw [if_neg hdat]
    rcases OpCode.ofName? command with _ | op | number
    · exact .of_cause (by rintro _ _ ⟨⟩) (fun supply ↦ rfl) n
    · exact (expects_basic n op).map _
    · exact (expects_extended n number).map _

end Demand

end Dcpu16
