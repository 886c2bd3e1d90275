import Dcpu16.Proofs.Assembly.Acceptance
import Dcpu16.Proofs.Line.Locality

/-!
# Lines that are rejected

A line that is rejected writes nothing, wherever it goes wrong.  What it leaves behind are labels:
those that it defines in front of the place where it goes wrong are marked, and names that it
mentions up to there may be new in the table.  `Assembly.Rejection` is this state of affairs, and
`Assembly.Stops` says how far the definitions of a line are followed.  Main statement:
`Assembly.addLine_rejects`.
-/

namespace Dcpu16

/-- What a line leaves behind that is rejected: `marked` are the labels that it marks and `added`
the names that are new. -/
structure Assembly.Rejection (a a' : Assembly) (index : Nat) (marked added : List String) :
    Prop where
  /-- Of the image nothing changes but what is known about labels. -/
  builder : a'.builder = { a.builder with slots := a'.builder.slots }
  /-- Every label has a name. -/
  size : a'.builder.slots.size = a'.symbols.size
  /-- The new names come last. -/
  names : a'.symbols.toList.map Symbol.name = a.symbols.toList.map Symbol.name ++ added
  /-- No name is there twice. -/
  nodup : (a.symbols.toList.map Symbol.name ++ added).Nodup
  /-- A label that was there keeps its references, and unless it is marked its address and its
  line. -/
  kept (i : Nat) (symbol : Symbol) (slot : Slot) : a.symbols[i]? = some symbol →
    a.builder.slots[i]? = some slot →
    a'.symbols[i]? = some { symbol with
      line? := if symbol.name ∈ marked then some index else symbol.line? } ∧
    a'.builder.slots[i]? = some { slot with
      address? := if symbol.name ∈ marked then some a.builder.words.size.toUInt16
        else slot.address? }
  /-- A new name has a label without references, which has an address only if it is marked. -/
  new (i : Nat) (name : String) : added[i]? = some name →
    a'.symbols[a.symbols.size + i]? = some ⟨name, ⟨a.builder.id, a.symbols.size + i⟩,
      if name ∈ marked then some index else none⟩ ∧
    a'.builder.slots[a.symbols.size + i]? =
      some ⟨if name ∈ marked then some a.builder.words.size.toUInt16 else none, #[]⟩
  /-- What is marked is in the table, had no address and no line before and can have this
  address. -/
  known : ∀ name ∈ marked, name ∈ a.symbols.toList.map Symbol.name ++ added
  unmarked : ∀ name ∈ marked, ¬a.IsMarked name
  lineless : ∀ symbol ∈ a.symbols, symbol.name ∈ marked → symbol.line? = none
  fits : marked ≠ [] → a.builder.words.size ≤ 0xFFFF

/-- How far the definitions of a line are followed that is rejected for a reason: those in `marked`
are. -/
inductive Assembly.Stops (a : Assembly) : List String → LineError → List String → Prop
  /-- All of them, and it is something behind them that cannot be read. -/
  | body (definitions : List String) (e : ParseError) :
      a.Stops definitions (.parse e) definitions
  /-- Up to a label that is marked already. -/
  | alreadyMarked {marked rest : List String} {name : String} : name ∈ marked ∨ a.IsMarked name →
      a.Stops (marked ++ name :: rest) (.labelAlreadyMarked name) marked
  /-- Up to a label for which there is no address. -/
  | overflow {marked rest : List String} {name : String} : name ∉ marked → ¬a.IsMarked name →
      0xFFFF < a.builder.words.size →
      a.Stops (marked ++ name :: rest) (.build (.addressOverflow a.builder.words.size)) marked

namespace Outline

/-! ## Outlines of rejected lines -/

/-- Why a line is rejected: `marked` are the labels that it marks before, and then it meets those in
`met`. -/
inductive Rejects (o : Outline) (line : Line) : LineError → List String → List String → Prop
  | refused {marked rest : List String} {name : String} {e : LineError} :
      line.marks = marked ++ name :: rest → o.CanMark marked → o.Refused marked name e →
      Rejects o line e marked [name]
  | unreadable {fault : Fault} : o.CanMark line.marks → line.body = .error fault →
      Rejects o line (.parse fault.cause) line.marks fault.mentioned

theorem Rejects.canMark {o : Outline} {line : Line} {e : LineError} {marked met : List String}
    (h : o.Rejects line e marked met) : o.CanMark marked := by
  cases h with
  | refused _ hm _ => exact hm
  | unreadable hm _ => exact hm

/-- The inversion lemma: a line is rejected by a mark or by a fault, and what it leaves are marks
and names. -/
theorem rejects_of_addLine {o o' : Outline} {index : Nat} {line : Line} {e : LineError}
    (h : o.addLine index line = (.error e, o')) :
    ∃ marked met, o.Rejects line e marked met ∧ o' = (o.setMarks index marked).meetAll met := by
  rcases canMark_or_refused o line.marks with hm | ⟨marked, name, rest, e', hmarks, hm, hr⟩
  · rw [addLine_of_canMark hm] at h
    rcases hb : line.body with fault | _ | statement
    · rw [hb] at h
      obtain ⟨he, rfl⟩ := Prod.mk.inj h
      obtain rfl := Except.error.inj he
      exact ⟨_, _, .unreadable hm hb, rfl⟩
    · rw [hb] at h
      exact nomatch h
    · rw [hb] at h
      exact nomatch h
  · rw [addLine_of_refused hmarks hm hr] at h
    obtain ⟨he, rfl⟩ := Prod.mk.inj h
    obtain rfl := Except.error.inj he
    exact ⟨_, _, .refused hmarks hm hr, rfl⟩

/-- The marks of a rejected line stop where the reason for its rejection is. -/
theorem stops_of_rejects {o : Outline} (ho : o.Valid) {line : Line} {e : LineError}
    {marked met : List String} (h : o.Rejects line e marked met) :
    o.assembly.Stops line.marks e marked := by
  cases h with
  | unreadable hm hb => exact .body _ _
  | refused hmarks hm hr =>
      rw [hmarks]
      cases hr with
      | alreadyMarked hmarked =>
          refine .alreadyMarked (hmarked.imp id ?_)
          rintro ⟨address, ha⟩
          exact (isMarked_assembly ho).mpr (by simp [ha])
      | overflow hn ha hsize =>
          rw [← size_words_assembly] at hsize ⊢
          exact .overflow hn (by simp [isMarked_assembly ho, ha]) hsize

section LeftBehind

variable {o : Outline} (index : Nat) {marked met added : List String}

theorem words_of_rejected (ho : o.Valid) :
    ((o.setMarks index marked).meetAll met).words = o.words := by
  have hf : ((o.setMarks index marked).meetAll met).finished = false := ho.unfinished
  rw [Sketch.words_of_unfinished hf, Sketch.words_of_unfinished ho.unfinished]
  rfl

/-- A rejected line changes nothing about a label but its address. -/
theorem slot_of_rejected (name : String) :
    ((o.setMarks index marked).meetAll met).slot name = { o.slot name with
      address? := if name ∈ marked then some o.cells.length.toUInt16 else o.word? name } := by
  have hword : ((o.setMarks index marked).meetAll met).word? name =
      if name ∈ marked then some o.cells.length.toUInt16 else o.word? name := by
    change (if name ∈ marked then some o.cells.length else o.address? name).map Nat.toUInt16 = _
    split <;> rfl
  rw [Sketch.slot, hword]
  rfl

/-- A label that was there is changed by nothing but a mark. -/
theorem kept_of_rejected
    (hadded : ((o.setMarks index marked).meetAll met).labels = o.labels ++ added) {i : Nat}
    {name : String} (hname : o.labels[i]? = some name) :
    ((o.setMarks index marked).meetAll met).assembly.symbols[i]? = some { o.symbol name with
      line? := if name ∈ marked then some index else o.line? name } ∧
    ((o.setMarks index marked).meetAll met).assembly.builder.slots[i]? = some { o.slot name with
      address? := if name ∈ marked then some o.cells.length.toUInt16 else o.word? name } := by
  have hbegins : o.labels <+: ((o.setMarks index marked).meetAll met).labels :=
    hadded ▸ List.prefix_append _ _
  have hget : (o.labels ++ added)[i]? = some name := by
    rw [List.getElem?_append_left (List.getElem?_eq_some_iff.mp hname).1, hname]
  rw [getElem?_symbols_assembly, getElem?_slots_assembly, hadded, hget, Option.map_some,
    Option.map_some, slot_of_rejected, symbol,
    Sketch.handle_of_prefix hbegins (List.mem_of_getElem? hname)]
  exact ⟨rfl, rfl⟩

/-- A label that is new has the next handle and no references. -/
theorem new_of_rejected (ho : o.Valid)
    (hadded : ((o.setMarks index marked).meetAll met).labels = o.labels ++ added)
    (hnodup : (o.labels ++ added).Nodup) {i : Nat} {name : String} (hname : added[i]? = some name) :
    ((o.setMarks index marked).meetAll met).assembly.symbols[o.labels.length + i]? =
      some ⟨name, ⟨0, o.labels.length + i⟩, if name ∈ marked then some index else none⟩ ∧
    ((o.setMarks index marked).meetAll met).assembly.builder.slots[o.labels.length + i]? =
      some ⟨if name ∈ marked then some o.cells.length.toUInt16 else none, #[]⟩ := by
  have hnot : name ∉ o.labels := fun hmem ↦
    (List.nodup_append.mp hnodup).2.2 _ hmem _ (List.mem_of_getElem? hname) rfl
  have hget : (o.labels ++ added)[o.labels.length + i]? = some name := by
    rw [List.getElem?_append_right (Nat.le_add_right _ _), Nat.add_sub_cancel_left, hname]
  have hidx : (o.labels ++ added).idxOf name = o.labels.length + i := by
    obtain ⟨hlt, hget⟩ := List.getElem?_eq_some_iff.mp hget
    rw [← hget, hnodup.idxOf_getElem]
  rw [getElem?_symbols_assembly, getElem?_slots_assembly, hadded, hget, Option.map_some,
    Option.map_some, slot_of_rejected, symbol, Sketch.handle, hadded, hidx, ho.slot_eq hnot,
    ho.word?_eq_none hnot]
  refine ⟨?_, rfl⟩
  change some (Symbol.mk _ _ (if name ∈ marked then some index else o.line? name)) = _
  rw [ho.line?_eq_none hnot]

/-- What a rejected line leaves behind, told of the assemblies of outlines. -/
theorem rejection_assembly (ho : o.Valid) (hm : o.CanMark marked)
    (hadded : ((o.setMarks index marked).meetAll met).labels = o.labels ++ added) :
    o.assembly.Rejection ((o.setMarks index marked).meetAll met).assembly index marked added := by
  have hsetMarks : (o.setMarks index marked).Valid := by
    have h := ho.markAll index marked
    rwa [markAll_of_canMark hm] at h
  have hnodup : (o.labels ++ added).Nodup := hadded ▸ (hsetMarks.meetAll met).nodup
  have hsize : o.assembly.symbols.size = o.labels.length := by simp [assembly]
  exact {
    builder := by
      simp only [assembly, Sketch.builder, words_of_rejected index ho]
      rfl
    size := by simp [assembly, Sketch.builder]
    names := by rw [names_assembly, names_assembly, hadded]
    nodup := by rwa [names_assembly]
    kept i symbol slot hsymbol hslot := by
      rw [getElem?_symbols_assembly] at hsymbol
      obtain ⟨name, hname, rfl⟩ := Option.map_eq_some_iff.mp hsymbol
      rw [getElem?_slots_assembly, hname] at hslot
      obtain rfl := Option.some.inj hslot
      rw [size_words_assembly]
      exact kept_of_rejected index hadded hname
    new i name hname := by
      rw [hsize, size_words_assembly]
      exact new_of_rejected index ho hadded hnodup hname
    known name hn := by
      have hmem : name ∈ ((o.setMarks index marked).meetAll met).labels :=
        mem_labels_meetAll.mpr (.inl (mem_labels_setMarks.mpr (.inr hn)))
      rwa [hadded, ← names_assembly o] at hmem
    unmarked name hn := by simp [isMarked_assembly ho, hm.unmarked name hn]
    lineless symbol hsymbol hn := by
      obtain ⟨name, -, rfl⟩ := List.mem_map.mp (List.mem_toArray.mp hsymbol)
      have hline := ho.line name
      rw [hm.unmarked name hn, Option.isSome_none] at hline
      exact Option.not_isSome_iff_eq_none.mp (Bool.eq_false_iff.mp hline)
    fits hne := o.size_words_assembly ▸ hm.fits hne }

end LeftBehind

/-! ## Names up to the place where a line goes wrong -/

theorem marks_ofLexemes (lexemes : List Lexeme) :
    (Line.ofLexemes lexemes).marks = Line.definitions lexemes := Line.marks_parseFrom [] lexemes

/-- A rejected line meets only what it marks, and what is mentioned up to its fault. -/
theorem Rejects.mem {o : Outline} {line : Line} {e : LineError} {marked met : List String}
    (h : o.Rejects line e marked met) {name : String} (hn : name ∈ marked ∨ name ∈ met) :
    name ∈ line.marks ∨ ∃ fault, line.body = .error fault ∧ name ∈ fault.mentioned := by
  cases h with
  | unreadable _ hb => exact hn.imp id fun hn ↦ ⟨_, hb, hn⟩
  | refused hmarks _ _ =>
      rw [hmarks]
      rcases hn with hn | hn
      · exact .inl (List.mem_append_left _ hn)
      · rw [List.mem_singleton.mp hn]
        exact .inl (List.mem_append_right _ List.mem_cons_self)

/-- A rejected line brings only names that stand in it. -/
theorem mem_labels_of_rejected {o o' : Outline} {index : Nat} {line : Line} {e : LineError}
    (h : o.addLine index line = (.error e, o')) {name : String} (hn : name ∈ o'.labels) :
    name ∈ o.labels ∨ name ∈ line.marks ∨
      ∃ fault, line.body = .error fault ∧ name ∈ fault.mentioned := by
  obtain ⟨marked, met, hr, rfl⟩ := rejects_of_addLine h
  rw [mem_labels_meetAll, mem_labels_setMarks, or_assoc] at hn
  exact hn.imp id hr.mem

/-- The reason for a fault does not depend on the labels in front of it. -/
theorem cause_of_outcome {before : List String} {lexemes : List Lexeme} {fault : Fault}
    (h : Line.outcome before lexemes = .error fault) :
    ∃ mentioned, (Line.parseFrom before lexemes).body = .error ⟨fault.cause, mentioned⟩ := by
  rw [Line.outcome] at h
  cases hb : (Line.parseFrom before lexemes).body with
  | ok statement? => rw [hb] at h; exact nomatch h
  | error fault' =>
      rw [hb] at h
      obtain rfl := Except.error.inj h
      exact ⟨fault'.mentioned, rfl⟩

/-- If the reader waits for more but it is settled why the line is rejected, then the reason is a
label that it defines. -/
theorem refused_of_settled {o : Outline} {index : Nat} {seen : List Lexeme} {e : LineError}
    (hw : ∀ x tail, ∃ mentioned,
      Line.outcome [] (seen ++ .error x :: tail) = .error ⟨.lexical x, mentioned⟩)
    (hsettled : ∀ tail, (o.addLine index (Line.ofLexemes (seen ++ tail))).1 = .error e) :
    ∃ marked name rest e, Line.definitions seen = marked ++ name :: rest ∧ o.CanMark marked ∧
      o.Refused marked name e := by
  refine (canMark_or_refused o (Line.definitions seen)).resolve_left fun hm ↦ ?_
  have hlexical : ∀ x, e = .parse (.lexical x) := by
    intro x
    obtain ⟨mentioned, hx⟩ := hw x []
    obtain ⟨mentioned', hb⟩ := cause_of_outcome hx
    have hm' : o.CanMark (Line.ofLexemes (seen ++ [.error x])).marks := by
      rwa [marks_ofLexemes, Line.definitions_append_error]
    have hline := hsettled [.error x]
    rw [addLine_of_canMark hm', Line.ofLexemes, hb] at hline
    exact (Except.error.inj hline).symm
  exact nomatch (hlexical .unexpectedEol).symm.trans (hlexical .unterminatedChar)

/-- If a beginning of the tokens settles that a line is rejected, and why, then the names that the
line adds are in that beginning. -/
theorem seen_of_rejected {o o' : Outline} {index : Nat} {seen rest : List Lexeme} {e : LineError}
    (h : o.addLine index (Line.ofLexemes (seen ++ rest)) = (.error e, o'))
    (hsettled : rest = [] ∨
      ∀ tail, (o.addLine index (Line.ofLexemes (seen ++ tail))).1 = .error e)
    {name : String} (hn : name ∈ o'.labels) : name ∈ o.labels ∨ .ok (.ident name) ∈ seen := by
  have hends : Ends (Line.outcome []) {name | .ok (.ident name) ∈ seen} seen :=
    Line.ends_outcome (fun _ h ↦ h) (by simp)
  -- The labels that a line defines count as mentioned in its outcome.
  have houtcome : ∀ {lexemes : List Lexeme} {fault : Fault},
      (Line.ofLexemes lexemes).body = .error fault → Line.outcome [] lexemes =
        .error (fault.after (Line.ofLexemes lexemes).marks) := by
    intro lexemes fault hb
    rw [Line.outcome, ← Line.ofLexemes, hb]
    rfl
  cases hends with
  | fails fault hseen hf =>
      refine (mem_labels_of_rejected h hn).imp id fun hn ↦ ?_
      rcases hb : (Line.ofLexemes (seen ++ rest)).body with fault' | statement?
      · obtain rfl := Except.error.inj ((hf rest).symm.trans (houtcome hb))
        refine hseen name (List.mem_append.mpr (hn.imp id ?_))
        rintro ⟨fault, hb', hm⟩
        exact Except.error.inj (hb.symm.trans hb') ▸ hm
      · have hok := hf rest
        rw [Line.outcome, ← Line.ofLexemes, hb] at hok
        exact nomatch hok
  | waits hend hw =>
      rcases hsettled with rfl | hsettled
      · rw [List.append_nil] at h
        refine (mem_labels_of_rejected h hn).imp id ?_
        rintro (hn | ⟨fault, hb, hm⟩)
        · exact Line.mem_of_mem_definitions (marks_ofLexemes seen ▸ hn)
        · exact hend _ (houtcome hb) name (List.mem_append_right _ hm)
      · obtain ⟨marked, refused, more, e', hdefinitions, hm, hr⟩ := refused_of_settled hw hsettled
        obtain ⟨later, hlater⟩ := Line.definitions_prefix seen rest
        have hmarks : (Line.ofLexemes (seen ++ rest)).marks =
            marked ++ refused :: (more ++ later) := by
          rw [marks_ofLexemes, ← hlater, hdefinitions, List.append_assoc, List.cons_append]
        rw [addLine_of_refused hmarks hm hr] at h
        obtain ⟨-, rfl⟩ := Prod.mk.inj h
        rw [meet, mem_labels_meetAll, mem_labels_setMarks, or_assoc] at hn
        refine hn.imp id fun hn ↦ Line.mem_of_mem_definitions ?_
        rw [hdefinitions, List.mem_append, List.mem_cons]
        exact hn.imp id fun hn ↦ .inl (List.mem_singleton.mp hn)

end Outline

/-- After any lines, a line that is rejected writes nothing and keeps all references, addresses and
lines of labels.  It marks the labels that it defines up to the place where it goes wrong, and the
names that it adds are among the tokens up to there: they are in each beginning of its tokens which
settles that it is rejected for this reason. -/
theorem Assembly.addLine_rejects (lines : List String) (index : Nat) (text : String) (e : LineError)
    (a' : Assembly)
    (h : (Assembly.addLine index (Line.ofString text)).run.run (Progress.ofLines lines).assembly =
      (.error e, a')) :
    ∃ marked added,
      (Progress.ofLines lines).assembly.Rejection a' index marked added ∧
      (Progress.ofLines lines).assembly.Stops (Line.definitions (Token.scan text.toList)) e marked ∧
      ∀ seen rest, Token.scan text.toList = seen ++ rest →
        (rest = [] ∨ ∀ tail, ∃ a'', (Assembly.addLine index (Line.ofLexemes (seen ++ tail))).run.run
          (Progress.ofLines lines).assembly = (.error e, a'')) →
        ∀ name ∈ added, .ok (.ident name) ∈ seen := by
  have hassembly : (Progress.ofLines lines).assembly = (Outline.ofLines lines).assembly := by
    rw [Outline.progress_ofLines]
  have ho := Outline.valid_ofLines lines
  rw [hassembly] at h ⊢
  generalize Outline.ofLines lines = o at ho h ⊢
  rw [Outline.run_addLine ho] at h
  obtain ⟨he, rfl⟩ := Prod.mk.inj h
  have hadd : o.addLine index (Line.ofString text) =
      (.error e, (o.addLine index (Line.ofString text)).2) := Prod.ext he rfl
  obtain ⟨marked, met, hr, ho'⟩ := Outline.rejects_of_addLine hadd
  obtain ⟨added, hadded⟩ : o.labels <+: (o.addLine index (Line.ofString text)).2.labels := by
    rw [ho']
    exact (Outline.labels_prefix_meetAll o marked).trans (Outline.labels_prefix_meetAll _ met)
  have hrejection : o.assembly.Rejection (o.addLine index (Line.ofString text)).2.assembly index
      marked added := by
    rw [ho'] at hadded ⊢
    exact Outline.rejection_assembly index ho hr.canMark hadded.symm
  refine ⟨marked, added, hrejection, ?_, ?_⟩
  · rw [← Outline.marks_ofLexemes]
    exact Outline.stops_of_rejects ho hr
  · intro seen rest hscan hsettled name hname
    have hline : Line.ofString text = Line.ofLexemes (seen ++ rest) := by rw [← hscan]; rfl
    have hnew : name ∉ o.labels := by
      have hnodup := hrejection.nodup
      rw [Outline.names_assembly] at hnodup
      exact fun hn ↦ (List.nodup_append.mp hnodup).2.2 name hn name hname rfl
    rw [hline] at hadd
    refine (Outline.seen_of_rejected hadd (hsettled.imp id fun hs tail ↦ ?_) ?_).resolve_left hnew
    · obtain ⟨a'', hs⟩ := hs tail
      rw [Outline.run_addLine ho] at hs
      exact congrArg Prod.fst hs
    · rw [← hline, ← hadded]
      exact List.mem_append_right _ hname

/-- The second label of a sum is one too many.  The labels in front of the line are marked by then,
and what follows is not looked at. -/
theorem Assembly.addLine_rejects_second_label :
    ∃ a', (Assembly.addLine 1 (Line.ofString ":start :loop set [left + right], more")).run.run
        (Progress.ofLines ["jsr loop"]).assembly = (.error (.parse .duplicateLabel), a') ∧
      ∃ added, (Progress.ofLines ["jsr loop"]).assembly.Rejection a' 1 ["start", "loop"] added ∧
        ∀ name ∈ added, .ok (.ident name) ∈ Token.scan ":start :loop set [left + right".toList := by
  have hfails : ((Assembly.addLine 1
      (Line.ofString ":start :loop set [left + right], more")).run.run
      (Progress.ofLines ["jsr loop"]).assembly).1 = .error (.parse .duplicateLabel) := by
    decide +kernel
  have hscan : Token.scan ":start :loop set [left + right], more".toList =
      Token.scan ":start :loop set [left + right".toList ++
        [.ok .closeBracket, .ok .comma, .ok (.ident "more")] := by decide +kernel
  have hsettled : ∀ tail,
      Line.ofLexemes (Token.scan ":start :loop set [left + right".toList ++ tail) =
        ⟨["start", "loop"], .error ⟨.duplicateLabel, ["left"]⟩⟩ := by
    have hbegins : Token.scan ":start :loop set [left + right".toList =
        [.ok .colon, .ok (.ident "start"), .ok .colon, .ok (.ident "loop"), .ok (.ident "set"),
          .ok .openBracket, .ok (.ident "left"), .ok .plus, .ok (.ident "right")] := by
      decide +kernel
    have hset : "set".toLower ≠ "dat" ∧ OpCode.ofName? "set" = some (.basic .set) := by
      decide +kernel
    have hleft : Name.ofString "left" = .label "left" := by decide +kernel
    have hright : Name.ofString "right" = .label "right" := by decide +kernel
    have hsum : ∀ tail, Operand.parse (.ok .openBracket :: .ok (.ident "left") :: .ok .plus ::
        .ok (.ident "right") :: tail) = .error ⟨.duplicateLabel, ["left"]⟩ := by
      simp [Operand.parse, BracketSum.parse, BracketSum.addTerm, BracketSum.addName, hleft, hright]
    intro tail
    rw [hbegins]
    simp [Line.ofLexemes, Line.parseFrom, Statement.parse, hset, Instruction.parseBasic, hsum, bind,
      Except.bind, Except.map]
  obtain ⟨marked, added, h, hs, hseen⟩ := Assembly.addLine_rejects _ _ _ _ _ (Prod.ext hfails rfl)
  have hdefinitions : Line.definitions (Token.scan ":start :loop set [left + right], more".toList) =
      ["start", "loop"] := by decide +kernel
  obtain rfl : marked = ["start", "loop"] := by
    rw [hdefinitions] at hs
    generalize ["start", "loop"] = definitions at hs
    cases hs
    rfl
  refine ⟨_, Prod.ext hfails rfl, added, h, hseen _ _ hscan (.inr fun tail ↦ ?_)⟩
  rw [hsettled]
  refine ⟨_, Prod.ext ?_ rfl⟩
  decide +kernel

end Dcpu16
