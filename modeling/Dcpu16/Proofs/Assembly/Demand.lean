import Dcpu16.Proofs.Assembly.Substitution
import Dcpu16.Proofs.Line.Demand
import Dcpu16.Proofs.Line.Locality
import Dcpu16.Proofs.Token.Passage
import Mathlib.Data.List.Infix

/-!
# Lines on demand

A line can be assembled while it is read: each label is marked when its name has been read, and the
line is given up where a label is refused or a token is wrong.  `Demand.line` does so.  It has the
result of reading the whole line first, so that nothing behind the token at which a line is done or
given up can matter, and a line can be replaced by any other one that is read in the same way up to
there.  Main statement: `Demand.assemble_demand`.
-/

namespace Dcpu16.Demand

/-- What is done with the statement of a line, or with its fault. -/
def close (index : Nat) (body : Except Fault (Option (Statement String))) (a : Assembly) :
    Except LineError Unit × Assembly :=
  (Assembly.addLine index ⟨[], body⟩).run.run a

/-- Assembles a line while it is read from a supply.  Returns the rest of the supply too, or nothing
if there is not enough of it. -/
def line (index : Nat) (a : Assembly) :
    List Reading → Option ((Except LineError Unit × Assembly) × List Reading)
  | [] => none
  | .ok none :: rest => some (close index (.ok none) a, rest)
  | .ok (some .colon) :: rest =>
    match rest with
    | [] => none
    | .ok (some (.ident name)) :: rest =>
      match (Assembly.mark index name).run.run a with
      | (.ok _, a) => line index a rest
      | (.error e, a) => some ((.error e, a), rest)
    | reading :: rest => some (close index (.error (.ofReading [.ident] reading)) a, rest)
  | .ok (some (.ident command)) :: rest =>
    (statement command rest).map fun (body, rest) ↦ (close index (body.map some) a, rest)
  | reading :: rest => some (close index (.error (.ofReading [.ident, .eol] reading)) a, rest)

/-- Assembling a line asks for these readings and no others, whatever follows them. -/
def Completes (index : Nat) (a : Assembly) (used : List Reading)
    (result : Except LineError Unit × Assembly) : Prop :=
  ∀ supply, line index a (used ++ supply) = some (result, supply)

/-! ## Reading first -/

/-- The marks that were read before have no influence on what follows. -/
theorem parseFrom_eq (before : List String) (lexemes : List Lexeme) :
    Line.parseFrom before lexemes =
      ⟨before.reverse ++ (Line.ofLexemes lexemes).marks, (Line.ofLexemes lexemes).body⟩ := by
  fun_induction Line.definitions lexemes generalizing before with
  | case1 name rest ih =>
      show Line.parseFrom (name :: before) rest =
        ⟨before.reverse ++ (Line.parseFrom [name] rest).marks, (Line.parseFrom [name] rest).body⟩
      rw [ih, ih [name]]
      simp
  | case2 lexemes hnot =>
      rcases lexemes with _ | ⟨e | token, rest⟩
      · simp [Line.ofLexemes, Line.parseFrom]
      · simp [Line.ofLexemes, Line.parseFrom]
      · cases token with
        | colon =>
            rcases rest with _ | ⟨e | token', rest⟩
            · simp [Line.ofLexemes, Line.parseFrom]
            · simp [Line.ofLexemes, Line.parseFrom]
            · cases token' with
              | ident name => exact (hnot name rest rfl).elim
              | _ => simp [Line.ofLexemes, Line.parseFrom]
        | ident command => simp [Line.ofLexemes, Line.parseFrom]
        | _ => simp [Line.ofLexemes, Line.parseFrom]

/-- A label is marked before anything else is done. -/
theorem run_addLine_cons (index : Nat) (name : String) (marks : List String)
    (body : Except Fault (Option (Statement String))) (a : Assembly) :
    (Assembly.addLine index ⟨name :: marks, body⟩).run.run a =
      match (Assembly.mark index name).run.run a with
      | (.ok _, a) => (Assembly.addLine index ⟨marks, body⟩).run.run a
      | (.error e, a) => (.error e, a) := by
  have hbind : Assembly.addLine index ⟨name :: marks, body⟩ =
      Assembly.mark index name >>= fun _ ↦ Assembly.addLine index ⟨marks, body⟩ :=
    bind_assoc (Assembly.mark index name) (fun _ ↦ marks.forM (Assembly.mark index)) _
  rw [hbind]
  cases hmark : (Assembly.mark index name).run.run a with
  | mk result a' =>
      cases result with
      | ok _ => exact LineM.run_bind_ok hmark _
      | error e => exact LineM.run_bind_error hmark _

/-- Assembling a line while it is read does what assembling it does after it was read. -/
theorem completes_addLine (index : Nat) (a : Assembly) (lexemes : List Lexeme) :
    ∃ used, IsMade lexemes used ∧ Completes index a used
      ((Assembly.addLine index (Line.ofLexemes lexemes)).run.run a) := by
  fun_induction Line.definitions lexemes generalizing a with
  | case1 name rest ih =>
      have hline : Line.ofLexemes (.ok .colon :: .ok (.ident name) :: rest) =
          ⟨name :: (Line.ofLexemes rest).marks, (Line.ofLexemes rest).body⟩ :=
        parseFrom_eq [name] rest
      rw [hline, run_addLine_cons]
      cases hmark : (Assembly.mark index name).run.run a with
      | mk result a' =>
          cases result with
          | ok _ =>
              obtain ⟨used, hmade, hcompletes⟩ := ih a'
              refine ⟨_, hmade.skip [.colon, .ident name], fun supply ↦ ?_⟩
              show line index a
                (.ok (some .colon) :: .ok (some (.ident name)) :: (used ++ supply)) = _
              rw [line, hmark]
              exact hcompletes supply
          | error e =>
              refine ⟨tokens [.colon, .ident name], ⟨?_, _, none, (List.append_nil _).symm⟩,
                fun supply ↦ ?_⟩
              · exact ⟨tape rest, rfl⟩
              · show line index a (.ok (some .colon) :: .ok (some (.ident name)) :: supply) = _
                rw [line, hmark]
  | case2 lexemes hnot =>
      rcases lexemes with _ | ⟨e | token, rest⟩
      · exact ⟨_, isMade_first _, fun supply ↦ rfl⟩
      · exact ⟨_, isMade_first _, fun supply ↦ rfl⟩
      · cases token with
        | colon =>
            refine ⟨_, (isMade_first rest).skip [.colon], fun supply ↦ ?_⟩
            rcases rest with _ | ⟨e | token', rest⟩
            · rfl
            · rfl
            · cases token' with
              | ident name => exact (hnot name rest rfl).elim
              | _ => rfl
        | ident command =>
            obtain ⟨used, hmade, huses⟩ := closes_statement command rest
            refine ⟨_, hmade.skip [.ident command], fun supply ↦ ?_⟩
            show (statement command (used ++ supply)).map _ = _
            rw [huses]
            rfl
        | _ => exact ⟨_, isMade_first _, fun supply ↦ rfl⟩

/-! ## Lines that are read alike -/

theorem readings_prefix {n m : Nat} (h : n ≤ m) (cs : List Char) :
    Token.readings n cs <+: Token.readings m cs := by
  induction n generalizing m cs with
  | zero => exact List.nil_prefix
  | succ n ih =>
      obtain ⟨m, rfl⟩ := Nat.exists_eq_add_of_lt h
      exact List.cons_prefix_cons.mpr ⟨rfl, ih (Nat.le_add_right n m) _⟩

theorem length_readings (n : Nat) (cs : List Char) : (Token.readings n cs).length = n := by
  induction n generalizing cs with
  | zero => rfl
  | succ n ih => exact congrArg (· + 1) (ih _)

/-- There is only one place at which a line is done, and one result. -/
theorem Completes.eq {index : Nat} {a : Assembly} {n m : Nat} {cs : List Char}
    {result result' : Except LineError Unit × Assembly}
    (h : Completes index a (Token.readings n cs) result)
    (h' : Completes index a (Token.readings m cs) result') : result = result' := by
  have hle : ∀ {n m : Nat} {result result' : Except LineError Unit × Assembly}, n ≤ m →
      Completes index a (Token.readings n cs) result →
      Completes index a (Token.readings m cs) result' → result = result' := by
    intro n m result result' hnm h h'
    obtain ⟨more, hmore⟩ := readings_prefix hnm cs
    have hsupply := h more
    rw [hmore, ← List.append_nil (Token.readings m cs), h'] at hsupply
    exact (Prod.mk.inj (Option.some.inj hsupply)).1.symm
  rcases Nat.le_total n m with hnm | hmn
  · exact hle hnm h h'
  · exact (hle hmn h' h).symm

/-- Two lines are read in the same way up to where one of them is done. -/
def Alike (a : Assembly) (index : Nat) (text text' : String) : Prop :=
  ∃ n result, Completes index a (Token.readings n text.toList) result ∧
    Token.readings n text'.toList = Token.readings n text.toList

/-- Each line is assembled from so many readings, none of them behind its end or a wrong spelling.
-/
theorem completes_ofString (index : Nat) (a : Assembly) (text : String) :
    ∃ n, Completes index a (Token.readings n text.toList)
        ((Assembly.addLine index (Line.ofString text)).run.run a) ∧
      IsMade (Token.scan text.toList) (Token.readings n text.toList) := by
  obtain ⟨used, hmade, hcompletes⟩ := completes_addLine index a (Token.scan text.toList)
  refine ⟨used.length, ?_⟩
  rw [readings_of_isMade hmade]
  exact ⟨hcompletes, hmade⟩

/-- A line that is assembled while it is read is assembled as if it were read first. -/
theorem run_of_completes {index n : Nat} {a : Assembly} {text : String}
    {result : Except LineError Unit × Assembly}
    (h : Completes index a (Token.readings n text.toList) result) :
    (Assembly.addLine index (Line.ofString text)).run.run a = result := by
  obtain ⟨m, hm, -⟩ := completes_ofString index a text
  exact hm.eq h

/-- Lines that are read alike do the same to an assembly. -/
theorem Alike.agree {a : Assembly} {index : Nat} {text text' : String}
    (h : Alike a index text text') : Substitution.Agree a index text text' := by
  obtain ⟨n, result, hcompletes, hreadings⟩ := h
  have hcompletes' : Completes index a (Token.readings n text'.toList) result := by
    rwa [hreadings]
  exact (run_of_completes hcompletes).trans (run_of_completes hcompletes').symm

/-- Lines with the same tokens up to their ends, or up to the same wrong spelling, are alike. -/
theorem alike_of_scan {text text' : String}
    (h : Token.scan text.toList = Token.scan text'.toList) (a : Assembly) (index : Nat) :
    Alike a index text text' := by
  obtain ⟨n, hcompletes, hmade⟩ := completes_ofString index a text
  refine ⟨n, _, hcompletes, ?_⟩
  rw [h] at hmade
  have hreadings := readings_of_isMade hmade
  rwa [length_readings] at hreadings

/-- All readings but the last one are tokens. -/
theorem exists_token_of_isMade {lexemes : List Lexeme} {used : List Reading}
    (h : IsMade lexemes used) : ∀ reading ∈ used.dropLast, ∃ t, reading = .ok (some t) := by
  obtain ⟨-, ts, last?, rfl⟩ := h
  intro reading hreading
  have hmem : reading ∈ tokens ts := by
    cases last? with
    | none =>
        rw [Option.toList_none, List.append_nil] at hreading
        exact List.mem_of_mem_dropLast hreading
    | some last => rwa [Option.toList_some, List.dropLast_concat] at hreading
  obtain ⟨t, -, rfl⟩ := List.mem_map.mp hmem
  exact ⟨t, rfl⟩

open Token (Piece)

/-- The blanks in front of tokens have no influence on how they are read, as long as the tokens are
kept apart. -/
theorem scan_pieces {pieces pieces' : List Piece} {rest rest' : List Char}
    (hpieces : Piece.Separated pieces) (hpieces' : Piece.Separated pieces')
    (htokens : pieces.map Piece.token = pieces'.map Piece.token)
    (hlast : ∀ piece ∈ pieces.getLast?, Token.Stops piece.token rest)
    (hlast' : ∀ piece ∈ pieces'.getLast?, Token.Stops piece.token rest')
    (hrest : Token.scan rest = Token.scan rest') :
    Token.scan (Piece.chars pieces ++ rest) = Token.scan (Piece.chars pieces' ++ rest') := by
  rw [Token.scan_of_leads (Piece.leads_chars hpieces hlast),
    Token.scan_of_leads (Piece.leads_chars hpieces' hlast'), htokens, hrest]

/-- What a line needs to be read for, and what has no influence on it. -/
structure OnDemand (text : String) : Prop where
  /-- The line is assembled as it is read, up to a token at which it is done or given up, and
  nothing is read behind its end or a wrong spelling. -/
  completes : ∀ (index : Nat) (a : Assembly), ∃ n,
    Completes index a (Token.readings n text.toList)
      ((Assembly.addLine index (Line.ofString text)).run.run a) ∧
    ∀ reading ∈ (Token.readings n text.toList).dropLast, ∃ t, reading = .ok (some t)
  /-- What follows has no influence on the result nor on the assembly. -/
  decides : ∀ (index : Nat) (a : Assembly) (text' : String) (n : Nat)
    (result : Except LineError Unit × Assembly),
    Completes index a (Token.readings n text.toList) result →
    Token.readings n text'.toList = Token.readings n text.toList →
    (Assembly.addLine index (Line.ofString text)).run.run a = result ∧
      (Assembly.addLine index (Line.ofString text')).run.run a = result
  /-- Lines with the same tokens are read in the same way, -/
  scan : ∀ (a : Assembly) (index : Nat) (text' : String),
    Token.scan text.toList = Token.scan text'.toList → Alike a index text text'
  /-- and neither comments -/
  comment : ∀ (ts : List Token) (comment : List Char), Token.scan text.toList = ts.map .ok →
    Token.scan text.toList = Token.scan (text.toList ++ ';' :: comment)
  /-- nor blanks change the tokens. -/
  blanks : ∀ (pieces pieces' : List Piece) (rest rest' : List Char),
    text.toList = Piece.chars pieces ++ rest → Piece.Separated pieces →
    Piece.Separated pieces' → pieces.map Piece.token = pieces'.map Piece.token →
    (∀ piece ∈ pieces.getLast?, Token.Stops piece.token rest) →
    (∀ piece ∈ pieces'.getLast?, Token.Stops piece.token rest') →
    Token.scan rest = Token.scan rest' →
    Token.scan text.toList = Token.scan (Piece.chars pieces' ++ rest')

/-- Two sources have lines that are read in the same way. -/
structure AlikeLines (source source' : String) : Prop where
  length : (Text.lines source).length = (Text.lines source').length
  alike : ∀ (index : Nat) (text text' : String), (Text.lines source)[index]? = some text →
    (Text.lines source')[index]? = some text' →
    Alike (Diagnostics.before (Text.lines source) index) index text text'

/-- Every line is read on demand. -/
theorem onDemand (text : String) : OnDemand text where
  completes index a := by
    obtain ⟨n, hcompletes, hmade⟩ := completes_ofString index a text
    exact ⟨n, hcompletes, exists_token_of_isMade hmade⟩
  decides index a text' n result hcompletes hreadings := by
    have hcompletes' : Completes index a (Token.readings n text'.toList) result := by
      rwa [hreadings]
    exact ⟨run_of_completes hcompletes, run_of_completes hcompletes'⟩
  scan a index _ hscan := alike_of_scan hscan a index
  comment _ comment hscan := hscan.trans (Token.scan_comment hscan comment).symm
  blanks pieces pieces' rest rest' htext hpieces hpieces' htokens hlast hlast' hrest := by
    rw [htext]
    exact scan_pieces hpieces hpieces' htokens hlast hlast' hrest

/-- A line is read only as far as it is needed, so that sources whose lines are read in the same way
up to there have the same image, the same issues and the same listing but for the texts of the
lines. -/
theorem assemble_demand :
    (∀ text, OnDemand text) ∧
    ∀ source source' : String, AlikeLines source source' →
      ∃ r r', assemble source = .ok r ∧ assemble source' = .ok r' ∧ r'.image? = r.image? ∧
        r'.issues = r.issues ∧
        r'.listing.map Substitution.place = r.listing.map Substitution.place := by
  refine ⟨onDemand, fun source source' h ↦ ?_⟩
  have hreplaces : Substitution.Replaces (Text.lines source) (Text.lines source') :=
    ⟨h.length, fun index text text' htext htext' ↦ (h.alike index text text' htext htext').agree⟩
  obtain ⟨r, hr, hr', hlisting⟩ := Substitution.assemble_eq hreplaces
  exact ⟨r, _, hr, hr', rfl, rfl, hlisting⟩

/-- A comment goes and blanks change, and the second line is given up at its third token, behind
which there is a wrong spelling or another one. -/
theorem assemble_demand_given_up :
    (∃ r r', assemble ":l jsr l; go\nset a b 'x" = .ok r ∧
      assemble ":l jsr l\nset a b $ 1" = .ok r' ∧
      r'.image? = r.image? ∧ r'.issues = r.issues ∧
      r'.listing.map Substitution.place = r.listing.map Substitution.place) ∧
    (∀ a : Assembly, (Assembly.addLine 1 (Line.ofString "set a b 'x")).run.run a =
      (.error (.parse (.unexpectedToken .ident [.comma])), a)) ∧
    Token.scan ", :$".toList = Token.scan " ,:$".toList := by
  obtain ⟨hline, hsource⟩ := assemble_demand
  have hreadings : Token.readings 3 "set a b 'x".toList =
      tokens [.ident "set", .ident "a", .ident "b"] := by decide +kernel
  have hreadings' : Token.readings 3 "set a b $ 1".toList =
      tokens [.ident "set", .ident "a", .ident "b"] := by decide +kernel
  have hcompletes : ∀ a, Completes 1 a (Token.readings 3 "set a b 'x".toList)
      (.error (.parse (.unexpectedToken .ident [.comma])), a) := by
    intro a supply
    have hop : OpCode.ofName? "set" = some (.basic .set) := by decide +kernel
    have hdat : "set".toLower ≠ "dat" := by decide +kernel
    have hregister : Name.ofString "a" = .register .a := by decide +kernel
    rw [hreadings]
    show (statement "set" (.ok (some (.ident "a")) :: .ok (some (.ident "b")) :: supply)).map _ = _
    rw [statement, if_neg hdat, hop]
    show some (close 1 (.error (Fault.after (Operand.ofName "a").label?.toList _)) a, supply) = _
    rw [Operand.ofName, hregister]
    rfl
  refine ⟨hsource _ _ ⟨by decide +kernel, ?_⟩, fun a ↦ ?_, ?_⟩
  · intro index text text' htext htext'
    have hlines : Text.lines ":l jsr l; go\nset a b 'x" = [":l jsr l; go", "set a b 'x"] := by
      decide +kernel
    have hlines' : Text.lines ":l jsr l\nset a b $ 1" = [":l jsr l", "set a b $ 1"] := by
      decide +kernel
    rw [hlines] at htext
    rw [hlines'] at htext'
    rcases index with _ | _ | index
    · obtain rfl := Option.some.inj htext
      obtain rfl := Option.some.inj htext'
      refine (hline _).scan _ _ _ ((hline ":l jsr l").comment
        [.colon, .ident "l", .ident "jsr", .ident "l"] " go".toList ?_).symm
      decide +kernel
    · obtain rfl := Option.some.inj htext
      obtain rfl := Option.some.inj htext'
      exact ⟨3, _, hcompletes _, hreadings'.trans hreadings.symm⟩
    · cases htext
  · exact ((hline _).decides 1 a "set a b $ 1" 3 _ (hcompletes a)
      (hreadings'.trans hreadings.symm)).1
  · have hnone : ∀ b ∈ ([] : List Char), Text.isBlank b := List.forall_mem_nil _
    have hblank : ∀ b ∈ [' '], Text.isBlank b := List.forall_mem_singleton.mpr (by decide)
    have hstops : ∀ piece ∈ (some ⟨[' '], _, _, hblank, .colon⟩ : Option Piece),
        Token.Stops piece.token ['$'] := by
      rintro piece ⟨⟩ ⟨⟩
    have hstops' : ∀ piece ∈ (some ⟨[], _, _, hnone, .colon⟩ : Option Piece),
        Token.Stops piece.token ['$'] := by
      rintro piece ⟨⟩ ⟨⟩
    exact (hline ", :$").blanks [⟨[], _, _, hnone, .comma⟩, ⟨[' '], _, _, hblank, .colon⟩]
      [⟨[' '], _, _, hblank, .comma⟩, ⟨[], _, _, hnone, .colon⟩] ['$'] ['$'] rfl
      (.cons_cons (fun h ↦ absurd h Bool.false_ne_true) (.singleton _))
      (.cons_cons (fun h ↦ absurd h Bool.false_ne_true) (.singleton _)) rfl hstops hstops' rfl

end Dcpu16.Demand
