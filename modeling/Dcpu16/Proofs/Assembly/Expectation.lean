import Dcpu16.Proofs.Assembly.Demand
import Dcpu16.Proofs.Line.Data
import Dcpu16.Proofs.Line.Expectation

/-!
# Expected tokens of a line

Where a line is given up at a token of another kind than expected, the kinds that are listed are
those with which the line, up to this token, could go on.  There is one exception: at the start of a
line, behind the labels that it marks, a colon can follow and is not listed.  Main statement:
`Demand.expected_iff_admits`.
-/

namespace Dcpu16.Demand

/-- Assembling a line asks for these readings and finds the last one of a kind that it does not
expect. -/
def GivesUp (index : Nat) (a : Assembly) (used : List Reading) (found : Token.Kind)
    (expected : List Token.Kind) : Prop :=
  ∃ a', Completes index a used (.error (.parse (.unexpectedToken found expected)), a')

/-- Readings of the labels that a line marks, and of nothing else. -/
def AtStart (before : List Reading) : Prop := ∃ marks, before = tokens (Line.markTokens marks)

/-- Behind some readings, a line is given up at those of a kind that is not accepted and at no
others, and the fault has a list. -/
def LineTells (index : Nat) (a : Assembly) (before : List Reading)
    (listed accepted : List Token.Kind) : Prop :=
  ∀ reading found expected, GivesUp index a (before ++ [reading]) found expected ↔
    reading.kind? = some found ∧ found ∉ accepted ∧ expected = listed

/-! ## The start of a line -/

theorem atStart_nil : AtStart [] := ⟨[], rfl⟩

theorem not_atStart_colon : ¬AtStart [.ok (some .colon)] := by
  rintro ⟨_ | ⟨name, marks⟩, h⟩
  · cases h
  · cases h

theorem not_atStart_ident (command : String) (before : List Reading) :
    ¬AtStart (.ok (some (.ident command)) :: before) := by
  rintro ⟨_ | ⟨name, marks⟩, h⟩
  · cases h
  · cases h

/-- A mark in front leaves a place at the start where it is. -/
theorem atStart_mark_iff {name : String} {before : List Reading} :
    AtStart (.ok (some .colon) :: .ok (some (.ident name)) :: before) ↔ AtStart before := by
  constructor
  · rintro ⟨_ | ⟨name', marks⟩, h⟩
    · cases h
    · exact ⟨marks, (List.cons.inj (List.cons.inj h).2).2⟩
  · rintro ⟨marks, rfl⟩
    exact ⟨name :: marks, rfl⟩

/-! ## Places of a line -/

section Places

variable {o : Outline} {index : Nat} {used : List Reading} {found : Token.Kind}
  {expected : List Token.Kind}

theorem close_assembly (ho : o.Valid) (index : Nat)
    (body : Except Fault (Option (Statement String))) :
    close index body o.assembly = ((o.addBody body).1, (o.addBody body).2.assembly) :=
  Outline.run_addLine ho index ⟨[], body⟩

/-- A line that is closed is given up for an unexpected token if that is its fault. -/
theorem givesUp_iff_of_line (ho : o.Valid) {body : Except Fault (Option (Statement String))}
    (h : ∀ supply, line index o.assembly (used ++ supply) =
      some (close index body o.assembly, supply)) :
    GivesUp index o.assembly used found expected ↔
      ∃ labels, body = .error ⟨.unexpectedToken found expected, labels⟩ := by
  constructor
  · rintro ⟨a', hcompletes⟩
    have hclose := (h []).symm.trans (hcompletes [])
    rw [close_assembly ho] at hclose
    have hresult := congrArg Prod.fst (Prod.mk.inj (Option.some.inj hclose)).1
    rcases body with fault | _ | statement
    · obtain ⟨cause, labels⟩ := fault
      obtain rfl := LineError.parse.inj (Except.error.inj hresult)
      exact ⟨labels, rfl⟩
    · cases hresult
    · cases hresult
  · rintro ⟨labels, rfl⟩
    refine ⟨(o.meetAll labels).assembly, fun supply ↦ ?_⟩
    rw [h, close_assembly ho]
    rfl

/-- A line is not given up for a token if its result is not about one. -/
theorem not_givesUp_of_isCalm (ho : o.Valid) {body : Except Fault (Option (Statement String))}
    (hcalm : IsCalm body)
    (h : ∀ supply, line index o.assembly (used ++ supply) =
      some (close index body o.assembly, supply)) :
    ¬GivesUp index o.assembly used found expected := by
  rw [givesUp_iff_of_line ho h]
  rintro ⟨labels, hbody⟩
  exact hcalm found expected labels hbody

theorem not_givesUp_of_line {a : Assembly} (h : line index a used = none) :
    ¬GivesUp index a used found expected := by
  rintro ⟨a', hcompletes⟩
  have hused := hcompletes []
  rw [List.append_nil, h] at hused
  cases hused

theorem line_of_uses {a : Assembly} {command : String} {body : Except Fault (Statement String)}
    (h : Uses (statement command) used body) (supply : List Reading) :
    line index a (.ok (some (.ident command)) :: (used ++ supply)) =
      some (close index (body.map some) a, supply) := by
  show (statement command (used ++ supply)).map _ = _
  rw [h]
  rfl

/-- The place in a line is that in its statement. -/
theorem givesUp_ident_iff (ho : o.Valid) {command : String} :
    GivesUp index o.assembly (.ok (some (.ident command)) :: used) found expected ↔
      Complains (statement command) used found expected := by
  constructor
  · intro hgives
    cases hstatement : statement command used with
    | none =>
        refine (not_givesUp_of_line ?_ hgives).elim
        rw [line, hstatement]
        rfl
    | some result =>
        obtain ⟨body, rest⟩ := result
        obtain ⟨used, rfl, huses⟩ := Expects.uses (fun n ↦ expects_statement n command) hstatement
        have hrest : rest = [] := by
          obtain ⟨a', hcompletes⟩ := hgives
          have hline := hcompletes []
          rw [List.append_nil, line_of_uses huses] at hline
          exact (Prod.mk.inj (Option.some.inj hline)).2
        rw [hrest, List.append_nil] at hgives ⊢
        obtain ⟨labels, hbody⟩ := (givesUp_iff_of_line ho (line_of_uses huses)).mp hgives
        cases body with
        | ok statement => cases hbody
        | error fault =>
            obtain rfl := Except.error.inj hbody
            exact ⟨labels, huses⟩
  · rintro ⟨labels, huses⟩
    exact (givesUp_iff_of_line ho (line_of_uses huses)).mpr ⟨labels, rfl⟩

/-- A reading of an accepted kind, at which a line is not given up. -/
theorem givesUp_iff_of_fits {a : Assembly} {listed accepted : List Token.Kind} {reading : Reading}
    (hfits : Reading.Fits accepted reading) (hnot : ¬GivesUp index a used found expected) :
    GivesUp index a used found expected ↔
      reading.kind? = some found ∧ found ∉ accepted ∧ expected = listed :=
  iff_of_false hnot fun ⟨hkind, hmem, _⟩ ↦ hmem (hfits found hkind)

/-- A reading of another kind, at which a line is given up with the list. -/
theorem givesUp_iff_of_refused (ho : o.Valid) {listed accepted : List Token.Kind}
    {reading : Reading} {kind : Token.Kind} (hkind : reading.kind? = some kind)
    (hmem : kind ∉ accepted)
    (h : ∀ supply, line index o.assembly (used ++ supply) =
      some (close index (.error (.ofReading listed reading)) o.assembly, supply)) :
    GivesUp index o.assembly used found expected ↔
      reading.kind? = some found ∧ found ∉ accepted ∧ expected = listed := by
  have hfault : Fault.ofReading listed reading = { cause := .unexpectedToken kind listed } := by
    rcases reading with e | _ | token
    · cases hkind
    · rw [← Option.some.inj hkind]
      rfl
    · rw [← Option.some.inj hkind]
      rfl
  rw [givesUp_iff_of_line ho h, hfault, hkind]
  constructor
  · rintro ⟨labels, heq⟩
    obtain ⟨rfl, rfl⟩ := ParseError.unexpectedToken.inj
      (congrArg Fault.cause (Except.error.inj heq))
    exact ⟨rfl, hmem, rfl⟩
  · rintro ⟨hfound, -, rfl⟩
    exact ⟨[], by rw [Option.some.inj hfound]⟩

/-- In front of the marks of a line, or behind them, a colon is accepted but not listed. -/
theorem lineTells_nil (ho : o.Valid) :
    LineTells index o.assembly [] [.ident, .eol] [.colon, .ident, .eol] := by
  intro reading found expected
  rcases reading with e | _ | token
  · refine givesUp_iff_of_fits (Reading.fits_error _ e) ?_
    exact not_givesUp_of_isCalm ho (isCalm_lexical e []) fun supply ↦ rfl
  · refine givesUp_iff_of_fits (Reading.fits_eol (by decide)) ?_
    exact not_givesUp_of_isCalm ho (.ok none) fun supply ↦ rfl
  · cases token with
    | colon => exact givesUp_iff_of_fits (Reading.fits_token (by decide)) (not_givesUp_of_line rfl)
    | ident command =>
        refine givesUp_iff_of_fits (Reading.fits_token (by simp [Token.kind])) ?_
        rw [List.nil_append, givesUp_ident_iff ho]
        exact (expects_statement 1 command).not_complains_nil found expected
    | _ =>
        exact givesUp_iff_of_refused ho rfl (by simp [Token.kind]) fun supply ↦ rfl

/-- A mark that is refused is no wrong token. -/
theorem mark_ne_parse (o : Outline) (index : Nat) (name : String) (cause : ParseError) :
    (o.mark index name).1 ≠ .error (.parse cause) := by
  intro h
  unfold Outline.mark at h
  split at h
  · cases h
  · split at h <;> cases h

/-- Behind a colon there is the name of a label, which may be refused for other reasons. -/
theorem lineTells_colon (ho : o.Valid) :
    LineTells index o.assembly [.ok (some .colon)] [.ident] [.ident] := by
  intro reading found expected
  rcases reading with e | _ | token
  · refine givesUp_iff_of_fits (Reading.fits_error _ e) ?_
    exact not_givesUp_of_isCalm ho (isCalm_lexical e []) fun supply ↦ rfl
  · exact givesUp_iff_of_refused ho rfl (by decide) fun supply ↦ rfl
  · cases token with
    | ident name =>
        refine givesUp_iff_of_fits (Reading.fits_token (by simp [Token.kind])) ?_
        rintro ⟨a', hcompletes⟩
        have hline : line index o.assembly [.ok (some .colon), .ok (some (.ident name))] =
          some (_, []) := hcompletes []
        have hne := mark_ne_parse o index name (.unexpectedToken found expected)
        rw [line, Outline.run_mark ho] at hline
        generalize o.mark index name = result at hline hne
        obtain ⟨r, o'⟩ := result
        cases r with
        | ok _ => cases hline
        | error e =>
            obtain ⟨hresult, -⟩ := Prod.mk.inj (Prod.mk.inj (Option.some.inj hline)).1
            exact hne hresult
    | _ => exact givesUp_iff_of_refused ho rfl (by simp [Token.kind]) fun supply ↦ rfl

/-- Behind the command a line tells what the statement tells. -/
theorem lineTells_ident (ho : o.Valid) {command : String} {before : List Reading}
    (h : Tells (statement command) before expected) :
    LineTells index o.assembly (.ok (some (.ident command)) :: before) expected expected := by
  intro reading found listed
  rw [List.cons_append, givesUp_ident_iff ho]
  exact h reading found listed

/-- Behind a mark that is accepted a line goes on like a new one. -/
theorem line_mark {a a' : Assembly} {name : String}
    (hmark : (Assembly.mark index name).run.run a = (.ok (), a')) (supply : List Reading) :
    line index a (.ok (some .colon) :: .ok (some (.ident name)) :: supply) =
      line index a' supply := by
  rw [line, hmark]

/-- Behind a label that was marked, a line goes on as if it started there. -/
theorem lineTells_mark_iff {a a' : Assembly} {name : String} {before : List Reading}
    {listed accepted : List Token.Kind}
    (hmark : (Assembly.mark index name).run.run a = (.ok (), a')) :
    LineTells index a (.ok (some .colon) :: .ok (some (.ident name)) :: before) listed accepted ↔
      LineTells index a' before listed accepted := by
  have hgives : ∀ used found expected,
      GivesUp index a (.ok (some .colon) :: .ok (some (.ident name)) :: used) found expected ↔
        GivesUp index a' used found expected := by
    intro used found expected
    refine exists_congr fun a'' ↦ forall_congr' fun supply ↦ ?_
    rw [← line_mark hmark]
    rfl
  refine forall_congr' fun reading ↦ forall_congr' fun found ↦ forall_congr' fun expected ↦ ?_
  rw [← hgives]
  rfl

/-- Every place of a line has its list, in which all kinds are that are accepted there, but for the
colon at the start of the line. -/
theorem exists_lineTells (ho : o.Valid) {before : List Reading}
    (h : line index o.assembly before = none) :
    ∃ listed accepted, LineTells index o.assembly before listed accepted ∧
      (∀ kind, kind ∈ accepted ↔ kind ∈ listed ∨ kind = .colon ∧ AtStart before) ∧
      (AtStart before → .colon ∉ listed) := by
  generalize ha : o.assembly = a at h
  fun_induction line index a before generalizing o with
  | case1 a =>
      refine ⟨_, _, ha ▸ lineTells_nil ho, fun kind ↦ ?_, fun _ ↦ by decide⟩
      cases kind <;> simp [atStart_nil]
  | case2 | case5 | case6 | case8 => cases h
  | case3 a =>
      have hnot := not_atStart_colon
      refine ⟨_, _, ha ▸ lineTells_colon ho, fun kind ↦ ?_, fun hstart ↦ (hnot hstart).elim⟩
      exact (or_iff_left fun hstart ↦ hnot hstart.2).symm
  | case4 a name before r a' hmark ih =>
      have hmark' := hmark
      rw [← ha, Outline.run_mark ho] at hmark'
      obtain ⟨listed, accepted, htells, hkinds⟩ := ih (ho.mark index name) (Prod.mk.inj hmark').2 h
      refine ⟨listed, accepted, (lineTells_mark_iff hmark).mpr htells, ?_⟩
      simp only [atStart_mark_iff]
      exact hkinds
  | case7 a command before =>
      have hstatement : statement command before = none := Option.map_eq_none_iff.mp h
      have hnot := not_atStart_ident command before
      obtain ⟨expected, htells⟩ := Expects.tells (fun n ↦ expects_statement n command) hstatement
      refine ⟨_, _, ha ▸ lineTells_ident ho htells, fun kind ↦ ?_, fun hstart ↦ (hnot hstart).elim⟩
      exact (or_iff_left fun hstart ↦ hnot hstart.2).symm

end Places

/-- The result of a line depends on what was asked for only. -/
theorem completes_of_line {index : Nat} {a : Assembly} {supply rest : List Reading}
    {result : Except LineError Unit × Assembly} (h : line index a supply = some (result, rest)) :
    ∃ used, supply = used ++ rest ∧ Completes index a used result := by
  fun_induction line index a supply with
  | case1 | case3 => cases h
  | case2 a supply =>
      obtain ⟨rfl, rfl⟩ := Prod.mk.inj (Option.some.inj h)
      exact ⟨[.ok none], rfl, fun supply ↦ rfl⟩
  | case4 a name supply r a' hmark ih =>
      obtain ⟨used, rfl, hcompletes⟩ := ih h
      refine ⟨.ok (some .colon) :: .ok (some (.ident name)) :: used, rfl, fun supply ↦ ?_⟩
      exact (line_mark hmark (used ++ supply)).trans (hcompletes supply)
  | case5 a name supply e a' hmark =>
      obtain ⟨rfl, rfl⟩ := Prod.mk.inj (Option.some.inj h)
      refine ⟨[.ok (some .colon), .ok (some (.ident name))], rfl, fun supply ↦ ?_⟩
      show line index a (.ok (some .colon) :: .ok (some (.ident name)) :: supply) = _
      rw [line, hmark]
  | case6 a reading supply hnot =>
      obtain ⟨rfl, rfl⟩ := Prod.mk.inj (Option.some.inj h)
      refine ⟨[.ok (some .colon), reading], rfl, fun supply ↦ ?_⟩
      show line index a (.ok (some .colon) :: reading :: supply) = _
      rw [line]
      exact hnot
  | case7 a command supply =>
      obtain ⟨⟨body, left⟩, hstatement, heq⟩ := Option.map_eq_some_iff.mp h
      obtain ⟨rfl, rfl⟩ := Prod.mk.inj heq
      obtain ⟨used, rfl, huses⟩ := Expects.uses (fun n ↦ expects_statement n command) hstatement
      exact ⟨.ok (some (.ident command)) :: used, rfl, line_of_uses huses⟩
  | case8 a reading supply heol hcolon hident =>
      obtain ⟨rfl, rfl⟩ := Prod.mk.inj (Option.some.inj h)
      refine ⟨[reading], rfl, fun supply ↦ ?_⟩
      show line index a (reading :: supply) = _
      rw [line]
      · exact heol
      · exact hcolon
      · exact hident

/-- A line that needs one more reading is not done without it. -/
theorem line_eq_none_of_completes {index : Nat} {a : Assembly} {before : List Reading}
    {reading : Reading} {result : Except LineError Unit × Assembly}
    (h : Completes index a (before ++ [reading]) result) : line index a before = none := by
  cases hline : line index a before with
  | none => rfl
  | some done =>
      obtain ⟨result', rest⟩ := done
      obtain ⟨used, rfl, hcompletes⟩ := completes_of_line hline
      have hmore := hcompletes (rest ++ [reading])
      rw [← List.append_assoc, ← List.append_nil (_ ++ [reading]), h] at hmore
      exact absurd (Prod.mk.inj (Option.some.inj hmore)).2.symm (by simp)

/-! ## Lines of text -/

/-- A line begins with tokens, behind which there is a reading. -/
def Begins (text : String) (ts : List Token) (reading : Reading) : Prop :=
  Token.readings (ts.length + 1) text.toList = tokens ts ++ [reading]

/-- A line is rejected because its `k`-th token is of a kind that is not expected.  Nothing is asked
for behind this token. -/
def FailsAt (index : Nat) (a : Assembly) (text : String) (k : Nat) (found : Token.Kind)
    (expected : List Token.Kind) : Prop :=
  ∃ a', (Assembly.addLine index (Line.ofString text)).run.run a =
      (.error (.parse (.unexpectedToken found expected)), a') ∧
    Completes index a (Token.readings k text.toList)
      (.error (.parse (.unexpectedToken found expected)), a')

/-- Behind some tokens, a line can have something of a kind that is not the wrong one there. -/
def Admits (index : Nat) (a : Assembly) (ts : List Token) (kind : Token.Kind) : Prop :=
  ∃ text reading, Begins text ts reading ∧ reading.kind? = some kind ∧
    ∀ found expected, ¬FailsAt index a text (ts.length + 1) found expected

theorem Begins.failsAt_iff {text : String} {ts : List Token} {reading : Reading}
    (h : Begins text ts reading) {index : Nat} {a : Assembly} {found : Token.Kind}
    {expected : List Token.Kind} :
    FailsAt index a text (ts.length + 1) found expected ↔
      GivesUp index a (tokens ts ++ [reading]) found expected := by
  rw [← h]
  exact exists_congr fun a' ↦ and_iff_right_of_imp run_of_completes

theorem readings_of_leads {ts : List Token} {cs rest : List Char} (h : Token.Leads ts cs rest) :
    Token.readings (ts.length + 1) cs = tokens ts ++ [(Token.read rest).1] := by
  induction h with
  | here cs => rfl
  | token hread _ ih =>
      rw [List.length_cons, Token.readings, hread, ih]
      rfl

/-- Tokens that were read have spellings. -/
theorem spells_of_readings {n : Nat} {ts : List Token} {cs : List Char} {more : List Reading}
    (h : Token.readings n cs = tokens ts ++ more) :
    ∀ t ∈ ts, ∃ spelling, Token.Spells t spelling := by
  induction ts generalizing n cs with
  | nil => exact fun t ht ↦ nomatch ht
  | cons t ts ih =>
      cases n with
      | zero => cases h
      | succ n =>
          obtain ⟨hfirst, hrest⟩ := List.cons.inj h
          have hread : Token.read cs = (.ok (some t), (Token.read cs).2) := Prod.ext hfirst rfl
          obtain ⟨blanks, c, body, -, -, -, -, hfrom⟩ := Token.read_eq hread
          obtain ⟨spelling, -, hspells⟩ := Token.spells_of_readFrom hfrom
          exact List.forall_mem_cons.mpr ⟨⟨_, hspells⟩, ih hrest⟩

/-- Tokens that have spellings can be written one behind the other, with blanks between them. -/
theorem exists_leads {ts : List Token} (h : ∀ t ∈ ts, ∃ spelling, Token.Spells t spelling)
    (rest : List Char) : ∃ cs, cs.head? = some ' ' ∧ Token.Leads ts cs (' ' :: rest) := by
  induction ts with
  | nil => exact ⟨' ' :: rest, rfl, .here _⟩
  | cons t ts ih =>
      obtain ⟨⟨spelling, hspells⟩, hts⟩ := List.forall_mem_cons.mp h
      obtain ⟨cs, hhead, hleads⟩ := ih hts
      have hblank : ∀ b ∈ [' '], Text.isBlank b := List.forall_mem_singleton.mpr (by decide)
      have hstops : Token.Stops t cs := by
        intro _ c hc
        obtain rfl := Option.some.inj (hhead.symm.trans hc)
        decide
      have hread := (⟨[' '], t, spelling, hblank, hspells⟩ : Token.Piece).read_chars hstops
      exact ⟨_, rfl, .token hread hleads⟩

/-- Everything that has a kind is of one that can be written, or the end of the line. -/
theorem exists_read_of_kind (kind : Token.Kind) :
    ∃ rest, Reading.kind? (Token.read (' ' :: rest)).1 = some kind := by
  cases kind with
  | number => exact ⟨['0'], by decide +kernel⟩
  | ident => exact ⟨['a'], by decide +kernel⟩
  | char => exact ⟨['\'', 'a', '\''], by decide +kernel⟩
  | text => exact ⟨['"', '"'], by decide +kernel⟩
  | comma => exact ⟨[','], rfl⟩
  | colon => exact ⟨[':'], rfl⟩
  | plus => exact ⟨['+'], rfl⟩
  | openBracket => exact ⟨['['], rfl⟩
  | closeBracket => exact ⟨[']'], rfl⟩
  | eol => exact ⟨[], rfl⟩

/-- What a line begins with can be followed by something of any kind. -/
theorem Begins.exists_kind {text : String} {ts : List Token} {reading : Reading}
    (h : Begins text ts reading) (kind : Token.Kind) :
    ∃ text' reading', Begins text' ts reading' ∧ reading'.kind? = some kind := by
  obtain ⟨rest, hkind⟩ := exists_read_of_kind kind
  obtain ⟨cs, -, hleads⟩ := exists_leads (spells_of_readings h) rest
  refine ⟨String.ofList cs, _, ?_, hkind⟩
  rw [Begins, String.toList_ofList]
  exact readings_of_leads hleads

/-- Behind what a line begins with, the kinds that it can have next are the accepted ones. -/
theorem Begins.admits_iff {text : String} {ts : List Token} {reading : Reading}
    (h : Begins text ts reading) {index : Nat} {a : Assembly} {listed accepted : List Token.Kind}
    (htells : LineTells index a (tokens ts) listed accepted) {kind : Token.Kind} :
    Admits index a ts kind ↔ kind ∈ accepted := by
  constructor
  · rintro ⟨text', reading', hbegins, hkind, hnot⟩
    refine Classical.byContradiction fun hmem ↦ hnot kind listed ?_
    exact hbegins.failsAt_iff.mpr ((htells reading' kind listed).mpr ⟨hkind, hmem, rfl⟩)
  · intro hmem
    obtain ⟨text', reading', hbegins, hkind⟩ := h.exists_kind kind
    refine ⟨text', reading', hbegins, hkind, fun found expected hfails ↦ ?_⟩
    obtain ⟨hkind', hnot, -⟩ := (htells _ _ _).mp (hbegins.failsAt_iff.mp hfails)
    exact hnot (Option.some.inj (hkind'.symm.trans hkind) ▸ hmem)

/-- A line that is not accepted is read up to some place and no further. -/
theorem exists_begins {index : Nat} {a a' : Assembly} {text : String} {found : Token.Kind}
    {expected : List Token.Kind}
    (h : (Assembly.addLine index (Line.ofString text)).run.run a =
      (.error (.parse (.unexpectedToken found expected)), a')) :
    ∃ ts reading, Begins text ts reading ∧
      FailsAt index a text (ts.length + 1) found expected := by
  obtain ⟨n, hcompletes, hmade⟩ := completes_ofString index a text
  rw [h] at hcompletes
  obtain ⟨-, ts, last?, hreadings⟩ := hmade
  have hfails : ∀ {ts : List Token} {reading : Reading},
      Token.readings n text.toList = tokens ts ++ [reading] →
      Begins text ts reading ∧ FailsAt index a text (ts.length + 1) found expected := by
    intro ts reading hreadings
    have hlength : n = ts.length + 1 := by
      have hlength := congrArg List.length hreadings
      rwa [length_readings, List.length_append, tokens, List.length_map] at hlength
    subst hlength
    exact ⟨hreadings, a', h, hcompletes⟩
  cases last? with
  | some reading => exact ⟨ts, reading, hfails hreadings⟩
  | none =>
      rw [Option.toList_none, List.append_nil] at hreadings
      rcases List.eq_nil_or_concat' ts with rfl | ⟨ts, t, rfl⟩
      · rw [hreadings] at hcompletes
        cases hcompletes []
      · rw [tokens_append] at hreadings
        exact ⟨ts, .ok (some t), hfails hreadings⟩

/-- Where a line is rejected because of the kind of a token, this token is the last one that was
asked for and its kind is not among those that are listed.  The kinds that some line with the same
tokens in front can have there, without being rejected because of this kind, are those that are
listed and no others, except at the start of a line, where a colon is one of them and is never
listed. -/
theorem expected_iff_admits {lines : List String} {index : Nat} {text : String} {a' : Assembly}
    {found : Token.Kind} {expected : List Token.Kind}
    (h : (Assembly.addLine index (Line.ofString text)).run.run (Progress.ofLines lines).assembly =
      (.error (.parse (.unexpectedToken found expected)), a')) :
    ∃ ts reading, Begins text ts reading ∧
      FailsAt index (Progress.ofLines lines).assembly text (ts.length + 1) found expected ∧
      reading.kind? = some found ∧ found ∉ expected ∧
      (∀ kind, Admits index (Progress.ofLines lines).assembly ts kind ↔
        kind ∈ expected ∨ kind = .colon ∧ AtStart (tokens ts)) ∧
      (AtStart (tokens ts) → .colon ∉ expected) := by
  obtain ⟨ts, reading, hbegins, hfails⟩ := exists_begins h
  have hassembly : (Progress.ofLines lines).assembly = (Outline.ofLines lines).assembly := by
    rw [Outline.progress_ofLines]
  have ho := Outline.valid_ofLines lines
  rw [hassembly] at hfails ⊢
  generalize Outline.ofLines lines = o at ho hfails ⊢
  have hgives := hbegins.failsAt_iff.mp hfails
  have hnone : line index o.assembly (tokens ts) = none := by
    obtain ⟨a', hcompletes⟩ := hgives
    exact line_eq_none_of_completes hcompletes
  obtain ⟨listed, accepted, htells, hkinds, hcolon⟩ := exists_lineTells ho hnone
  obtain ⟨hkind, hmem, rfl⟩ := (htells reading found expected).mp hgives
  refine ⟨ts, reading, hbegins, hfails, hkind, fun hfound ↦ ?_, fun kind ↦ ?_, hcolon⟩
  · exact hmem ((hkinds found).mpr (.inl hfound))
  · exact (hbegins.admits_iff htells).trans (hkinds kind)

/-- A number cannot start a line.  A colon is accepted there and not listed. -/
theorem expected_iff_admits_number :
    ∃ ts reading, Begins "1" ts reading ∧
      FailsAt 0 (Progress.ofLines []).assembly "1" (ts.length + 1) .number [.ident, .eol] ∧
      reading.kind? = some .number ∧ .number ∉ [Token.Kind.ident, .eol] ∧
      (∀ kind, Admits 0 (Progress.ofLines []).assembly ts kind ↔
        kind ∈ [.ident, .eol] ∨ kind = .colon ∧ AtStart (tokens ts)) ∧
      (AtStart (tokens ts) → .colon ∉ [Token.Kind.ident, .eol]) := by
  have hline : (Assembly.addLine 0 (Line.ofString "1")).run.run (Progress.ofLines []).assembly =
      (.error (.parse (.unexpectedToken .number [.ident, .eol])), {}) := by
    rw [Line.ofString]
    have hscan : Token.scan "1".toList = [.ok (.number 1)] := by decide +kernel
    rw [hscan]
    rfl
  exact expected_iff_admits hline

/-- It is not so that all kinds that are accepted in the place of an unexpected token are listed: a
colon is not where a line starts with a number. -/
theorem not_forall_expected_iff_admits :
    ¬∀ (lines : List String) (index : Nat) (text : String) (ts : List Token) (reading : Reading)
      (found : Token.Kind) (expected : List Token.Kind), Begins text ts reading →
      FailsAt index (Progress.ofLines lines).assembly text (ts.length + 1) found expected →
      ∀ kind, kind ∈ expected ↔ Admits index (Progress.ofLines lines).assembly ts kind := by
  intro h
  have hbegins : Begins "1" [] (.ok (some (.number 1))) := by
    rw [Begins]
    decide +kernel
  have htells : LineTells 0 (Progress.ofLines []).assembly (tokens []) [.ident, .eol]
      [.colon, .ident, .eol] := lineTells_nil .empty
  have hfails : FailsAt 0 (Progress.ofLines []).assembly "1" 1 .number [.ident, .eol] :=
    hbegins.failsAt_iff.mpr ((htells _ _ _).mpr ⟨rfl, by decide, rfl⟩)
  have hadmits : Admits 0 (Progress.ofLines []).assembly [] .colon :=
    (hbegins.admits_iff htells).mpr (by decide)
  have hlisted := (h [] 0 "1" [] _ .number [.ident, .eol] hbegins hfails .colon).mpr hadmits
  exact absurd hlisted (by decide)

end Dcpu16.Demand
