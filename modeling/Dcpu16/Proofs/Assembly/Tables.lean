import Dcpu16.Proofs.Assembly.Summary

/-!
# Tables of names

An assembly finds the symbol of a name by going through all symbols.  Here are tables that keep an
index of the names beside the symbols, look names up in the index, and then take what stands at the
place that they have found without asking whether there is such a place.  A name that is new changes
the labels of the builder, the symbols and the index one after the other, wherever it stands on its
line and whether or not the line is rejected later.

Still the tables have the same results as the assembly, every place that is asked for is there, and
after each name, mark, statement and rejected line everything fits together.  Main statement:
`Tables.names_paired`.
-/

namespace Dcpu16

namespace Outline

theorem labels_meet_of_notMem {o : Outline} {name : String} (h : name ∉ o.labels) :
    (o.meet name).labels = o.labels ++ [name] := by
  rw [meet_of_notMem h]
  rfl

/-- A mark that is refused has still met its name. -/
theorem labels_mark (o : Outline) (line : Nat) (name : String) :
    (o.mark line name).2.labels = (o.meet name).labels := by
  unfold mark
  split
  · rfl
  · split <;> rfl

/-- A mark that is accepted sets the address and the line of its name. -/
theorem mark_of_ok {o : Outline} {line : Nat} {name : String}
    (h : (o.mark line name).1 = .ok ()) :
    (o.mark line name).2 = (o.meet name).setMark line name := by
  unfold mark at h ⊢
  split at h
  · exact nomatch h
  · split at h
    · exact nomatch h
    · next hmarked hsize => rw [if_neg hmarked, if_neg hsize]

end Outline

/-- An assembly with an index of its names. -/
structure Tables where
  /-- The image and the symbols. -/
  assembly : Assembly := {}
  /-- The place of the symbol of each name. -/
  index : Std.HashMap String Nat := ∅

/-- Work on tables that a line asks for.  There is no result where something is taken from a place
that is not there. -/
abbrev TablesM := ExceptT LineError (StateT Tables Option)

namespace Tables

variable {α β : Type}

/-! ## What a line does to tables -/

/-- Does something to the assembly that does not concern the index. -/
def onAssembly (x : LineM α) : TablesM α := fun t ↦
  match x.run.run t.assembly with
  | (r, assembly) => some (r, { t with assembly })

def build (f : Builder → Except BuildError α × Builder) : TablesM α :=
  onAssembly (Assembly.build f)

/-- The symbol at a place, which has to be there. -/
def symbolAt (i : Nat) : TablesM Symbol := fun t ↦
  t.assembly.symbols[i]?.map fun symbol ↦ (.ok symbol, t)

/-- The place of a name, for which a label is defined if the name is new. -/
def place (name : String) : TablesM Nat := fun t ↦
  match t.index[name]? with
  | some i => some (.ok i, t)
  | none =>
    let ⟨⟨builder, symbols⟩, index⟩ := t
    match builder.define with
    | (.error e, builder) => some (.error (.build e), ⟨⟨builder, symbols⟩, index⟩)
    | (.ok label, builder) =>
      let symbols := symbols.push { name, label }
      some (.ok (symbols.size - 1), ⟨⟨builder, symbols⟩, index.insert name (symbols.size - 1)⟩)

def label (name : String) : TablesM Label := do
  let i ← place name
  let symbol ← symbolAt i
  return symbol.label

/-- Notes the line that marks the label at a place, which has to be there. -/
def setLine (i line : Nat) : TablesM Unit := do
  let _ ← symbolAt i
  onAssembly fun ⟨builder, symbols⟩ ↦
    (.ok (), ⟨builder, symbols.modify i fun symbol ↦ { symbol with line? := some line }⟩)

def mark (line : Nat) (name : String) : TablesM Unit := do
  let i ← place name
  let symbol ← symbolAt i
  let address? ← build fun b ↦ (b.address? symbol.label, b)
  if address?.isSome then throw (.labelAlreadyMarked name)
  build fun b ↦ b.mark symbol.label
  setLine i line

def emit (statement : Statement String) : TablesM Unit := do
  match ← statement.mapM label with
  | .instruction i => build fun b ↦ b.emit i
  | .data items => build fun b ↦ b.emitCells (items.flatMap Item.cells)

def meet (names : List String) : TablesM Unit :=
  names.forM fun name ↦ do
    let _ ← label name

def addLine (index : Nat) (line : Line) : TablesM Unit := do
  line.marks.forM (mark index)
  match line.body with
  | .ok none => pure ()
  | .ok (some statement) => emit statement
  | .error fault =>
    meet fault.mentioned
    throw (.parse fault.cause)

def note (t : Tables) (event : Event) : Tables :=
  { t with assembly := { t.assembly with builder := t.assembly.builder.note event } }

/-- The tables after a line was read, where a line that is rejected is told of in the journal. -/
def step (t : Tables) (line : String × Nat) : Option Tables :=
  match (addLine line.2 (Line.ofString line.1)).run.run t with
  | none => none
  | some (.ok _, t) => some t
  | some (.error e, t) => some (t.note (.rejected line.2 e.message))

/-- The tables after lines were read one after the other. -/
def ofLines (lines : List String) : Option Tables := lines.zipIdx.foldlM step {}

/-- Other tables are reached by looking names up, marking labels, writing statements and telling of
rejected lines, also in the middle of a line. -/
inductive Leads (t : Tables) : Tables → Prop
  | refl : Leads t t
  | label {t₁ t₂ : Tables} (name : String) {r : Except LineError Label} :
      Leads t t₁ → (label name).run.run t₁ = some (r, t₂) → Leads t t₂
  | mark {t₁ t₂ : Tables} (line : Nat) (name : String) {r : Except LineError Unit} :
      Leads t t₁ → (mark line name).run.run t₁ = some (r, t₂) → Leads t t₂
  | emit {t₁ t₂ : Tables} (statement : Statement String) {r : Except LineError Unit} :
      Leads t t₁ → (emit statement).run.run t₁ = some (r, t₂) → Leads t t₂
  | note {t₁ : Tables} (event : Event) : Leads t t₁ → Leads t (t₁.note event)

/-- How the symbols, the labels of the builder and the index fit together. -/
structure Paired (t : Tables) : Prop where
  /-- There are as many symbols as labels. -/
  size : t.assembly.symbols.size = t.assembly.builder.slots.size
  /-- The symbol at a place has the label of the builder that is defined there. -/
  label {i : Nat} {symbol : Symbol} : t.assembly.symbols[i]? = some symbol →
    symbol.label = ⟨t.assembly.builder.id, i⟩ ∧ t.assembly.builder.owns symbol.label
  /-- The index has the place of each name and nothing else. -/
  index (name : String) (i : Nat) : t.index[name]? = some i ↔
    ∃ symbol, t.assembly.symbols[i]? = some symbol ∧ symbol.name = name
  /-- Going through the symbols finds what stands at the place in the index. -/
  find? (name : String) : t.assembly.find? name =
    t.index[name]?.bind fun i ↦ t.assembly.symbols[i]?
  nodup : (t.assembly.symbols.toList.map Symbol.name).Nodup
  /-- A label has a line if and only if it has an address. -/
  line {i : Nat} {symbol : Symbol} : t.assembly.symbols[i]? = some symbol →
    ∃ address?, t.assembly.builder.address? symbol.label = .ok address? ∧
      (symbol.line?.isSome ↔ address?.isSome)
  unfinished : t.assembly.builder.finished = false

/-- A name has a label for good.  Wherever it is looked up from now on, this label is found and
nothing changes. -/
def Fixes (t : Tables) (name : String) (l : Label) : Prop :=
  ∀ t', Leads t t' →
    (place name).run.run t' = some (.ok l.index, t') ∧
    (label name).run.run t' = some (.ok l, t') ∧
    (Assembly.intern name).run.run t'.assembly = (.ok l, t'.assembly)

/-! ## Steps -/

section Run

variable {x : TablesM α} {t t' : Tables}

theorem run_bind_ok {v : α} (h : x.run.run t = some (.ok v, t')) (f : α → TablesM β) :
    (x >>= f).run.run t = (f v).run.run t' := by
  rw [ExceptT.run_bind, StateT.run_bind, h]
  rfl

theorem run_bind_error {e : LineError} (h : x.run.run t = some (.error e, t'))
    (f : α → TablesM β) : (x >>= f).run.run t = some (.error e, t') := by
  rw [ExceptT.run_bind, StateT.run_bind, h]
  rfl

/-- An action on the assembly leaves the index of names alone. -/
theorem run_onAssembly {y : LineM α} {r : Except LineError α} {a : Assembly}
    (h : y.run.run t.assembly = (r, a)) :
    (onAssembly y).run.run t = some (r, ⟨a, t.index⟩) := by
  change some ((y.run.run t.assembly).1, Tables.mk (y.run.run t.assembly).2 t.index) = _
  rw [h]

/-- The place of a symbol may be used unchecked if there is a symbol. -/
theorem run_symbolAt {i : Nat} {symbol : Symbol} (h : t.assembly.symbols[i]? = some symbol) :
    (symbolAt i).run.run t = some (.ok symbol, t) := by
  change (t.assembly.symbols[i]?.map fun symbol ↦ (Except.ok symbol, t)) = _
  rw [h]
  rfl

/-- The line is noted at the place of the label that is marked. -/
theorem run_setMark (symbol : Symbol)
    (hsymbol : t.assembly.symbols[symbol.label.index]? = some symbol) {line : Nat}
    {r : Except LineError Unit} {a : Assembly}
    (h : (do
        Assembly.build fun b ↦ b.mark symbol.label
        Assembly.setLine symbol.label line : LineM Unit).run.run t.assembly = (r, a)) :
    (do
        build fun b ↦ b.mark symbol.label
        setLine symbol.label.index line : TablesM Unit).run.run t = some (r, ⟨a, t.index⟩) := by
  cases hmark : t.assembly.builder.mark symbol.label with
  | mk r' b =>
      cases r' with
      | error e =>
          have hbuild : (Assembly.build fun b ↦ b.mark symbol.label).run.run t.assembly = _ :=
            LineM.run_build_error hmark
          rw [LineM.run_bind_error hbuild] at h
          obtain ⟨rfl, rfl⟩ := Prod.mk.inj h
          exact run_bind_error (run_onAssembly hbuild) _
      | ok _ =>
          have hbuild : (Assembly.build fun b ↦ b.mark symbol.label).run.run t.assembly = _ :=
            LineM.run_build_ok hmark
          rw [LineM.run_bind_ok hbuild] at h
          -- The symbols are those from before, so the place is still there.
          have hsymbol' : (Tables.mk ⟨b, t.assembly.symbols⟩ t.index).assembly.symbols[
              symbol.label.index]? = some symbol := hsymbol
          refine (run_bind_ok (run_onAssembly hbuild) _).trans ?_
          refine (run_bind_ok (run_symbolAt hsymbol') _).trans ?_
          exact run_onAssembly h

end Run

theorem Leads.trans {t t₁ t₂ : Tables} (h : Leads t t₁) (h' : Leads t₁ t₂) : Leads t t₂ := by
  induction h' with
  | refl => exact h
  | label name _ hrun ih => exact ih.label name hrun
  | mark line name _ hrun ih => exact ih.mark line name hrun
  | emit statement _ hrun ih => exact ih.emit statement hrun
  | note event _ ih => exact ih.note event

/-- Tables keep the assembly of an outline, and the places of its labels in the index. -/
structure Draws (t : Tables) (o : Outline) : Prop where
  valid : o.Valid
  assembly : t.assembly = o.assembly
  index (name : String) (i : Nat) : t.index[name]? = some i ↔ o.labels[i]? = some name

namespace Draws

variable {t : Tables} {o o' : Outline}

theorem empty : Draws {} {} where
  valid := .empty
  assembly := rfl
  index _ _ := by simp

/-- What does not concern the labels does not concern the index. -/
theorem congr (h : Draws t o) (hv : o'.Valid) (hlabels : o'.labels = o.labels) :
    Draws ⟨o'.assembly, t.index⟩ o' where
  valid := hv
  assembly := rfl
  index name i := by rw [hlabels, h.index]

/-- All that matters of an outline is its assembly. -/
theorem of_assembly_eq (h : Draws t o) (hv : o'.Valid) (ha : o.assembly = o'.assembly) :
    Draws t o' where
  valid := hv
  assembly := h.assembly.trans ha
  index name i := by rw [h.index, ← Outline.names_assembly, ha, Outline.names_assembly]

/-- The index knows the place of each name that was met. -/
theorem index_of_mem (h : Draws t o) {name : String} (hn : name ∈ o.labels) :
    t.index[name]? = some (o.labels.idxOf name) := by
  rw [h.index, List.getElem?_eq_getElem (List.idxOf_lt_length_of_mem hn), List.getElem_idxOf]

theorem index_of_notMem (h : Draws t o) {name : String} (hn : name ∉ o.labels) :
    t.index[name]? = none := by
  rw [Option.eq_none_iff_forall_ne_some]
  exact fun i hi ↦ hn (List.mem_of_getElem? ((h.index name i).mp hi))

/-- At the place that the index gives for a name is the symbol of that name. -/
theorem getElem?_symbols (h : Draws t o) {name : String} (hn : name ∈ o.labels) :
    t.assembly.symbols[o.labels.idxOf name]? = some (o.symbol name) := by
  rw [h.assembly, Outline.getElem?_symbols_assembly,
    List.getElem?_eq_getElem (List.idxOf_lt_length_of_mem hn), List.getElem_idxOf]
  rfl

/-- A name that is new gets the next place. -/
theorem index_insert (h : Draws t o) {name : String} (hn : name ∉ o.labels) (x : String) (i : Nat) :
    (t.index.insert name o.labels.length)[x]? = some i ↔ (o.meet name).labels[i]? = some x := by
  have hlast : (o.labels ++ [name])[i]? = some x ↔
      o.labels[i]? = some x ∨ o.labels.length = i ∧ name = x := by grind
  rw [Std.HashMap.getElem?_insert, Outline.labels_meet_of_notMem hn, hlast, ← h.index]
  by_cases hx : name = x
  · subst hx
    simp [h.index_of_notMem hn]
  · simp [hx]

/-- The place of a name is found, and a new name gets the next one. -/
theorem run_place (h : Draws t o) (name : String) :
    ∃ t', (place name).run.run t = some (.ok ((o.meet name).labels.idxOf name), t') ∧
      Draws t' (o.meet name) := by
  by_cases hn : name ∈ o.labels
  · refine ⟨t, ?_, ?_⟩
    · change place name t = _
      rw [place, h.index_of_mem hn, Outline.meet_of_mem hn]
    · rwa [Outline.meet_of_mem hn]
  · obtain ⟨⟨builder, symbols⟩, index⟩ := t
    obtain rfl : builder = o.assembly.builder := congrArg Assembly.builder h.assembly
    obtain rfl : symbols = o.assembly.symbols := congrArg Assembly.symbols h.assembly
    have hidx : (o.meet name).labels.idxOf name = o.labels.length := by
      rw [Outline.labels_meet_of_notMem hn, List.idxOf_append_of_notMem hn, List.idxOf_cons_self,
        Nat.add_zero]
    have hsize : o.assembly.symbols.size = o.labels.length := by
      rw [← Array.length_toList, ← List.length_map Symbol.name, Outline.names_assembly]
    have hdefine : o.assembly.builder.define = _ :=
      Sketch.define_builder h.valid.toValid h.valid.unfinished hn 0 o.journal
    have hassembly : Assembly.mk ((o.define name).builder 0 o.journal)
        (o.assembly.symbols.push { name, label := (o.define name).handle 0 name }) =
          (o.meet name).assembly := by
      have hintern : Assembly.intern name o.assembly = _ := Outline.run_intern h.valid name
      rw [Assembly.intern, Outline.find?_assembly, if_neg hn] at hintern
      simp only [hdefine] at hintern
      exact congrArg Prod.snd hintern
    refine ⟨⟨(o.meet name).assembly, index.insert name o.labels.length⟩, ?_, h.valid.meet name, rfl,
      h.index_insert hn⟩
    change place name _ = _
    rw [place, h.index_of_notMem hn]
    simp only [hdefine, hassembly, hidx, Array.size_push, hsize, Nat.add_sub_cancel]

/-- The handle that is found through the index is the handle of the name. -/
theorem run_label (h : Draws t o) (name : String) :
    ∃ t', (label name).run.run t = some (.ok ((o.meet name).handle 0 name), t') ∧
      Draws t' (o.meet name) := by
  obtain ⟨t', hplace, h'⟩ := h.run_place name
  have hsymbol := h'.getElem?_symbols (Outline.mem_labels_meet_self o name)
  refine ⟨t', ?_, h'⟩
  rw [label, run_bind_ok hplace, run_bind_ok (run_symbolAt hsymbol)]
  rfl

/-- What a mark does behind the look-up is done to the symbol and to the label at the same place. -/
theorem run_mark (h : Draws t o) (line : Nat) (name : String) :
    ∃ t', (mark line name).run.run t = some ((o.mark line name).1, t') ∧
      Draws t' (o.mark line name).2 := by
  obtain ⟨t₁, hplace, h₁⟩ := h.run_place name
  have hmem := Outline.mem_labels_meet_self o name
  have hsymbol := h₁.getElem?_symbols hmem
  have hrun := Outline.run_mark h.valid line name
  rw [Assembly.mark, LineM.run_bind_ok (Outline.run_intern h.valid name), ← h₁.assembly] at hrun
  refine ⟨_, ?_, h₁.congr (h.valid.mark line name) (Outline.labels_mark o line name)⟩
  have haddress : (Assembly.build fun b ↦ (b.address? ((o.meet name).handle 0 name), b)).run.run
      t₁.assembly = (.ok (o.word? name), t₁.assembly) := by
    rw [h₁.assembly]
    exact LineM.run_build_ok (Prod.ext (Sketch.address?_builder hmem 0 o.journal) rfl)
  rw [LineM.run_bind_ok haddress] at hrun
  rw [mark, run_bind_ok hplace, run_bind_ok (run_symbolAt hsymbol)]
  refine (run_bind_ok (run_onAssembly haddress) _).trans ?_
  cases hword : o.word? name with
  | some address =>
      rw [hword] at hrun
      exact run_onAssembly hrun
  | none =>
      rw [hword] at hrun
      exact run_setMark ((o.meet name).symbol name) hsymbol hrun

end Draws

/-- Tables do what an assembly does, and get there by looking names up, marking labels and writing
statements. -/
def Follows (x : TablesM α) (y : LineM α) : Prop :=
  ∀ (t : Tables) (o : Outline), Draws t o → ∃ r t' o', x.run.run t = some (r, t') ∧
    y.run.run o.assembly = (r, o'.assembly) ∧ Draws t' o' ∧ Leads t t'

namespace Follows

theorem pure (v : α) : Follows (Pure.pure v) (Pure.pure v) := by
  intro t o h
  exact ⟨.ok v, t, o, rfl, rfl, h, .refl⟩

theorem throw (e : LineError) :
    Follows (MonadExcept.throw e : TablesM α) (MonadExcept.throw e) := by
  intro t o h
  exact ⟨.error e, t, o, rfl, rfl, h, .refl⟩

/-- An action follows another if it does so step by step. -/
theorem bind {x : TablesM α} {y : LineM α} {k : α → TablesM β} {k' : α → LineM β}
    (hx : Follows x y) (hk : ∀ v, Follows (k v) (k' v)) : Follows (x >>= k) (y >>= k') := by
  intro t o h
  obtain ⟨r, t₁, o₁, hrun, hrun', h₁, hleads⟩ := hx t o h
  cases r with
  | error e =>
      exact ⟨.error e, t₁, o₁, run_bind_error hrun k, LineM.run_bind_error hrun' k', h₁, hleads⟩
  | ok v =>
      obtain ⟨r, t₂, o₂, hrun₂, hrun₂', h₂, hleads₂⟩ := hk v t₁ o₁ h₁
      refine ⟨r, t₂, o₂, ?_, ?_, h₂, hleads.trans hleads₂⟩
      · rw [run_bind_ok hrun, hrun₂]
      · rw [LineM.run_bind_ok hrun', hrun₂']

theorem map {x : TablesM α} {y : LineM α} (hx : Follows x y) (g : α → β) :
    Follows (x >>= fun v ↦ Pure.pure (g v)) (y >>= fun v ↦ Pure.pure (g v)) :=
  hx.bind fun v ↦ pure (g v)

theorem forM {x : String → TablesM Unit} {y : String → LineM Unit}
    (h : ∀ name, Follows (x name) (y name)) (names : List String) :
    Follows (names.forM x) (names.forM y) := by
  induction names with
  | nil => exact pure _
  | cons name names ih => exact (h name).bind fun _ ↦ ih

theorem label (name : String) : Follows (Tables.label name) (Assembly.intern name) := by
  intro t o h
  obtain ⟨t', hrun, h'⟩ := h.run_label name
  exact ⟨_, t', _, hrun, Outline.run_intern h.valid name, h', Leads.refl.label name hrun⟩

/-- Marking by place follows marking by name. -/
theorem mark (line : Nat) (name : String) :
    Follows (Tables.mark line name) (Assembly.mark line name) := by
  intro t o h
  obtain ⟨t', hrun, h'⟩ := h.run_mark line name
  exact ⟨_, t', _, hrun, Outline.run_mark h.valid line name, h', Leads.refl.mark line name hrun⟩

/-! ### Statements -/

theorem cell (cell : Cell String) :
    Follows (cell.mapM Tables.label) (cell.mapM Assembly.intern) := by
  obtain ⟨base, label?⟩ := cell
  cases label? with
  | none => exact pure _
  | some l => exact (label l).map _

theorem operand (operand : Operand String) :
    Follows (operand.mapM Tables.label) (operand.mapM Assembly.intern) := by
  cases operand with
  | register r => exact pure _
  | indirect r => exact pure _
  | special s => exact pure _
  | indexed r c => exact (cell c).map _
  | absolute c => exact (cell c).map _
  | literal c => exact (cell c).map _

theorem instruction (i : Instruction String) :
    Follows (i.mapM Tables.label) (i.mapM Assembly.intern) := by
  cases i with
  | basic op a b => exact (operand a).bind fun a' ↦ (operand b).map _
  | extended number a => exact (operand a).map _

theorem item (item : Item String) :
    Follows (item.mapM Tables.label) (item.mapM Assembly.intern) := by
  cases item with
  | word w => exact pure _
  | text s => exact pure _
  | address l => exact (label l).map _

theorem items (items : List (Item String)) :
    Follows (items.mapM (Item.mapM Tables.label)) (items.mapM (Item.mapM Assembly.intern)) := by
  induction items with
  | nil => exact pure _
  | cons i items ih =>
      rw [List.mapM_cons, List.mapM_cons]
      exact (item i).bind fun i' ↦ ih.map fun items' ↦ i' :: items'

theorem statement (statement : Statement String) :
    Follows (statement.mapM Tables.label) (statement.mapM Assembly.intern) := by
  cases statement with
  | instruction i => exact (instruction i).map _
  | data is => exact (items is).map _

end Follows

namespace Draws

variable {t : Tables} {o : Outline}

theorem run_statement (h : Draws t o) (statement : Statement String) :
    ∃ t', (statement.mapM label).run.run t =
        some (.ok (statement.map ((o.meetAll statement.labels).handle 0)), t') ∧
      Draws t' (o.meetAll statement.labels) ∧ Leads t t' := by
  obtain ⟨r, t', o', hrun, hrun', h', hleads⟩ := Follows.statement statement t o h
  have hresolves := (Outline.Resolves.statement statement).run h.valid
  obtain ⟨rfl, ha⟩ := Prod.mk.inj (hrun'.symm.trans hresolves)
  exact ⟨t', hrun, h'.of_assembly_eq (h.valid.meetAll statement.labels) ha, hleads⟩

/-- No place is missing while a statement is written, and the tables then draw the next outline. -/
theorem run_emit (h : Draws t o) (statement : Statement String) :
    ∃ t', (emit statement).run.run t = some (.ok (), t') ∧ Draws t' (o.emit statement) := by
  obtain ⟨t₁, hrun, h₁, -⟩ := h.run_statement statement
  have hemit := Outline.run_emit h.valid statement
  rw [Assembly.emit, LineM.run_bind_ok ((Outline.Resolves.statement statement).run h.valid),
    ← h₁.assembly] at hemit
  refine ⟨_, ?_, h₁.congr (h.valid.emit statement) rfl⟩
  rw [emit, run_bind_ok hrun]
  cases statement with
  | instruction i => exact run_onAssembly hemit
  | data items => exact run_onAssembly hemit

theorem note (h : Draws t o) (event : Event) :
    Draws (t.note event) { o with journal := o.journal.push event } where
  valid := ⟨h.valid.toValid, h.valid.unfinished, h.valid.line⟩
  assembly := by
    rw [Tables.note, h.assembly]
    rfl
  index := h.index

/-- Wherever tables lead, they keep an outline, to which labels have been added at the end. -/
theorem leads (h : Draws t o) {t' : Tables} (hleads : Leads t t') :
    ∃ o', Draws t' o' ∧ o.labels <+: o'.labels := by
  induction hleads with
  | refl => exact ⟨o, h, List.prefix_refl _⟩
  | label name _ hrun ih =>
      obtain ⟨o₁, h₁, hadded⟩ := ih
      obtain ⟨t₂, hrun', h₂⟩ := h₁.run_label name
      obtain ⟨-, rfl⟩ := Prod.mk.inj (Option.some.inj (hrun.symm.trans hrun'))
      exact ⟨_, h₂, hadded.trans (Outline.labels_prefix_meetAll o₁ [name])⟩
  | mark line name _ hrun ih =>
      obtain ⟨o₁, h₁, hadded⟩ := ih
      obtain ⟨t₂, hrun', h₂⟩ := h₁.run_mark line name
      obtain ⟨-, rfl⟩ := Prod.mk.inj (Option.some.inj (hrun.symm.trans hrun'))
      refine ⟨_, h₂, hadded.trans ?_⟩
      rw [Outline.labels_mark]
      exact Outline.labels_prefix_meetAll o₁ [name]
  | emit statement _ hrun ih =>
      obtain ⟨o₁, h₁, hadded⟩ := ih
      obtain ⟨t₂, hrun', h₂⟩ := h₁.run_emit statement
      obtain ⟨-, rfl⟩ := Prod.mk.inj (Option.some.inj (hrun.symm.trans hrun'))
      exact ⟨_, h₂, hadded.trans (Outline.labels_prefix_meetAll o₁ statement.labels)⟩
  | note event _ ih =>
      obtain ⟨o₁, h₁, hadded⟩ := ih
      exact ⟨_, h₁.note event, hadded⟩

end Draws

/-! ## Lines -/

namespace Follows

theorem emit (statement : Statement String) :
    Follows (Tables.emit statement) (Assembly.emit statement) := by
  intro t o h
  obtain ⟨t', hrun, h'⟩ := h.run_emit statement
  exact ⟨_, t', _, hrun, Outline.run_emit h.valid statement, h', Leads.refl.emit statement hrun⟩

/-- Lines are added alike through the index and by search. -/
theorem addLine (index : Nat) (line : Line) :
    Follows (Tables.addLine index line) (Assembly.addLine index line) := by
  refine (forM (mark index) line.marks).bind fun _ ↦ ?_
  rcases line.body with fault | _ | statement
  · refine bind (forM (fun name ↦ ?_) fault.mentioned) fun _ ↦ throw _
    exact (label name).bind fun _ ↦ pure _
  · exact pure _
  · exact emit statement

end Follows

namespace Draws

variable {t : Tables} {o : Outline}

/-- The step lemma: a line takes tables that draw an outline to tables that draw the next one. -/
theorem step (h : Draws t o) (line : String × Nat) :
    ∃ t', t.step line = some t' ∧ Draws t' (o.step line) ∧ Leads t t' := by
  obtain ⟨r, t', o', hrun, hrun', h', hleads⟩ := Follows.addLine line.2 (Line.ofString line.1) t o h
  have hadd := Outline.run_addLine h.valid line.2 (Line.ofString line.1)
  obtain ⟨hr, ha⟩ := Prod.mk.inj (hrun'.symm.trans hadd)
  have h' := h'.of_assembly_eq (h.valid.addLine line.2 (Line.ofString line.1)) ha
  rw [Tables.step, hrun, Outline.step]
  generalize o.addLine line.2 (Line.ofString line.1) = result at hr h'
  obtain ⟨_, o₁⟩ := result
  subst hr
  cases r with
  | ok _ => exact ⟨t', rfl, h', hleads⟩
  | error e => exact ⟨_, rfl, h'.note _, hleads.note _⟩

/-- The run lemma: no place is missing, however many lines are read. -/
theorem foldlM_step (h : Draws t o) (lines : List (String × Nat)) :
    ∃ t', lines.foldlM Tables.step t = some t' ∧ Draws t' (lines.foldl Outline.step o) ∧
      Leads t t' := by
  induction lines generalizing t o with
  | nil => exact ⟨t, rfl, h, .refl⟩
  | cons line lines ih =>
      obtain ⟨t₁, hstep, h₁, hleads₁⟩ := h.step line
      obtain ⟨t', hfold, h', hleads'⟩ := ih h₁
      refine ⟨t', ?_, h', hleads₁.trans hleads'⟩
      rw [List.foldlM_cons, hstep]
      exact hfold

/-! ## Names and labels -/

/-- The symbol at a place is that of a name there. -/
theorem exists_name (h : Draws t o) {i : Nat} {symbol : Symbol}
    (hi : t.assembly.symbols[i]? = some symbol) :
    ∃ name ∈ o.labels, o.labels.idxOf name = i ∧ symbol = o.symbol name := by
  rw [h.assembly, Outline.getElem?_symbols_assembly, Option.map_eq_some_iff] at hi
  obtain ⟨name, hname, rfl⟩ := hi
  obtain ⟨hlt, rfl⟩ := List.getElem?_eq_some_iff.mp hname
  exact ⟨_, List.getElem_mem hlt, h.valid.nodup.idxOf_getElem i hlt, rfl⟩

/-- The index gives a place for a name if and only if the symbol of that name is there. -/
theorem index_iff (h : Draws t o) (name : String) (i : Nat) : t.index[name]? = some i ↔
    ∃ symbol, t.assembly.symbols[i]? = some symbol ∧ symbol.name = name := by
  rw [h.index]
  constructor
  · intro hi
    refine ⟨o.symbol name, ?_, rfl⟩
    rw [h.assembly, Outline.getElem?_symbols_assembly, hi]
    rfl
  · rintro ⟨symbol, hi, rfl⟩
    obtain ⟨name, hn, rfl, rfl⟩ := h.exists_name hi
    exact (h.index _ _).mp (h.index_of_mem hn)

theorem find?_eq (h : Draws t o) (name : String) : t.assembly.find? name =
    t.index[name]?.bind fun i ↦ t.assembly.symbols[i]? := by
  rw [h.assembly, Outline.find?_assembly, ← h.assembly]
  by_cases hn : name ∈ o.labels
  · rw [if_pos hn, h.index_of_mem hn, Option.bind_some, h.getElem?_symbols hn]
  · rw [if_neg hn, h.index_of_notMem hn, Option.bind_none]

/-- Tables that draw an outline have one symbol for each name and one name for each symbol. -/
theorem paired (h : Draws t o) : t.Paired where
  size := by
    rw [h.assembly]
    simp [Outline.assembly, Sketch.builder]
  label := by
    intro i symbol hi
    obtain ⟨name, hn, rfl, rfl⟩ := h.exists_name hi
    rw [h.assembly]
    exact ⟨rfl, Sketch.owns_builder hn 0 o.journal⟩
  index := h.index_iff
  find? := h.find?_eq
  nodup := by
    rw [h.assembly, Outline.names_assembly]
    exact h.valid.nodup
  line := by
    intro i symbol hi
    obtain ⟨name, hn, rfl, rfl⟩ := h.exists_name hi
    refine ⟨o.word? name, ?_, ?_⟩
    · rw [h.assembly]
      exact Sketch.address?_builder hn 0 o.journal
    · have hword : (o.word? name).isSome = (o.address? name).isSome := Option.isSome_map
      rw [hword, ← h.valid.line name]
      rfl
  unfinished := by
    rw [h.assembly]
    exact h.valid.unfinished

/-- A name that was met has its label for good. -/
theorem fixes (h : Draws t o) {name : String} (hn : name ∈ o.labels) :
    t.Fixes name (o.handle 0 name) := by
  intro t' hleads
  obtain ⟨o', h', hadded⟩ := h.leads hleads
  have hn' : name ∈ o'.labels := hadded.subset hn
  have hhandle : o'.handle 0 name = o.handle 0 name := Sketch.handle_of_prefix hadded hn 0
  have hplace : (place name).run.run t' = some (.ok (o'.labels.idxOf name), t') := by
    change place name t' = _
    rw [place, h'.index_of_mem hn']
  have hsymbol := run_symbolAt (h'.getElem?_symbols hn')
  have hintern := Outline.run_intern h'.valid name
  rw [Outline.meet_of_mem hn', ← h'.assembly] at hintern
  rw [← hhandle]
  refine ⟨hplace, ?_, hintern⟩
  rw [label, run_bind_ok hplace, run_bind_ok hsymbol]
  rfl

/-- A label that is marked has the address of the next word, and its symbol has the line. -/
theorem setMark {line : Nat} {name : String} (h : Draws t (o.setMark line name))
    (hn : name ∈ o.labels) :
    t.assembly.builder.address? (o.handle 0 name) =
        .ok (some o.assembly.builder.words.size.toUInt16) ∧
      t.assembly.symbols[(o.handle 0 name).index]? = some ⟨name, o.handle 0 name, some line⟩ := by
  have hword : (o.setMark line name).word? name = some o.cells.length.toUInt16 := by
    simp [Sketch.word?, Outline.setMark, Sketch.mark]
  have hsymbol : (o.setMark line name).symbol name = ⟨name, o.handle 0 name, some line⟩ := by
    simp [Outline.symbol, Outline.setMark, Sketch.handle, Sketch.mark]
  refine ⟨?_, ?_⟩
  · rw [h.assembly, Outline.size_words_assembly, ← hword]
    exact Sketch.address?_builder (s := (o.setMark line name).toSketch) hn 0 o.journal
  · rw [← hsymbol]
    exact h.getElem?_symbols hn

end Draws

/-- Every text gives tables with the assembly that the text has without an index, and all tables
that are reached on the way are paired, also in the middle of a line and behind one that is
rejected.  The label that a name has when it is looked up, marked, or mentioned in a statement, be
it as an operand, in brackets or as data, is the one that it has for good. -/
theorem names_paired :
    (∀ lines more : List String, ∃ t t', ofLines lines = some t ∧
      ofLines (lines ++ more) = some t' ∧ t.assembly = (Progress.ofLines lines).assembly ∧
      t.Paired ∧ Leads {} t ∧ Leads t t') ∧
    (∀ t, Leads {} t → t.Paired) ∧
    (∀ t, Leads {} t → ∀ name : String, ∃ l t', (label name).run.run t = some (.ok l, t') ∧
      (Assembly.intern name).run.run t.assembly = (.ok l, t'.assembly) ∧
      Leads t t' ∧ t'.Fixes name l) ∧
    (∀ t, Leads {} t → ∀ (line : Nat) (name : String), ∃ r l t',
      (mark line name).run.run t = some (r, t') ∧
      (Assembly.mark line name).run.run t.assembly = (r, t'.assembly) ∧
      Leads t t' ∧ t'.Fixes name l ∧
      (r = .ok () →
        t'.assembly.builder.address? l = .ok (some t.assembly.builder.words.size.toUInt16) ∧
        t'.assembly.symbols[l.index]? = some ⟨name, l, some line⟩)) ∧
    ∀ t, Leads {} t → ∀ statement : Statement String, ∃ f t',
      (statement.mapM label).run.run t = some (.ok (statement.map f), t') ∧
      (statement.mapM Assembly.intern).run.run t.assembly = (.ok (statement.map f), t'.assembly) ∧
      Leads t t' ∧ ∀ name ∈ statement.labels, t'.Fixes name (f name) := by
  refine ⟨?_, ?_, ?_, ?_, ?_⟩
  · intro lines more
    obtain ⟨t, hlines, h, hleads⟩ := Draws.empty.foldlM_step lines.zipIdx
    obtain ⟨t', hmore, -, hleads'⟩ := h.foldlM_step (more.zipIdx lines.length)
    refine ⟨t, t', hlines, ?_, ?_, h.paired, hleads, hleads'⟩
    · rw [ofLines, List.zipIdx_append, List.foldlM_append, hlines, Nat.zero_add]
      exact hmore
    · rw [Outline.progress_ofLines]
      exact h.assembly
  · intro t hleads
    obtain ⟨o, h, -⟩ := Draws.empty.leads hleads
    exact h.paired
  · intro t hleads name
    obtain ⟨o, h, -⟩ := Draws.empty.leads hleads
    obtain ⟨t', hrun, h'⟩ := h.run_label name
    refine ⟨_, t', hrun, ?_, Leads.refl.label name hrun,
      h'.fixes (Outline.mem_labels_meet_self o name)⟩
    rw [h.assembly, h'.assembly, Outline.run_intern h.valid]
  · intro t hleads line name
    obtain ⟨o, h, -⟩ := Draws.empty.leads hleads
    obtain ⟨t', hrun, h'⟩ := h.run_mark line name
    have hmem : name ∈ (o.mark line name).2.labels := by
      rw [Outline.labels_mark]
      exact Outline.mem_labels_meet_self o name
    refine ⟨_, _, t', hrun, ?_, Leads.refl.mark line name hrun, h'.fixes hmem, ?_⟩
    · rw [h.assembly, h'.assembly, Outline.run_mark h.valid]
    · intro hok
      rw [Outline.mark_of_ok hok] at h' ⊢
      rw [h.assembly]
      exact h'.setMark (Outline.mem_labels_meet_self o name)
  · intro t hleads statement
    obtain ⟨o, h, -⟩ := Draws.empty.leads hleads
    obtain ⟨t', hrun, h', hleads'⟩ := h.run_statement statement
    refine ⟨_, t', hrun, ?_, hleads', fun name hn ↦ ?_⟩
    · rw [h.assembly, h'.assembly, (Outline.Resolves.statement statement).run h.valid]
    · exact h'.fixes (Outline.mem_labels_meetAll.mpr (.inr hn))

/-- Both lines are rejected, and what they have met before their faults has its place.  The name
that is marked later still has the label that it got then. -/
theorem names_paired_rejected :
    ∃ t t', ofLines [":start set end, [a + b]", "dat end, a, last"] = some t ∧ Leads {} t ∧
      t.assembly.symbols = #[⟨"start", ⟨0, 0⟩, some 0⟩, ⟨"end", ⟨0, 1⟩, none⟩] ∧
      t.index["start"]? = some 0 ∧ t.index["end"]? = some 1 ∧
      (mark 2 "end").run.run t = some (.ok (), t') ∧
      t'.assembly.symbols[1]? = some ⟨"end", ⟨0, 1⟩, some 2⟩ ∧ t'.Fixes "end" ⟨0, 1⟩ := by
  obtain ⟨hlines, hpaired, -, hmark, -⟩ := names_paired
  obtain ⟨t, -, ht, -, hassembly, -, hleads, -⟩ :=
    hlines [":start set end, [a + b]", "dat end, a, last"] []
  have hfirst : Line.ofString ":start set end, [a + b]" =
      ⟨["start"], .error ⟨.duplicateRegister, ["end"]⟩⟩ :=
    congrArg₂ Line.mk (by decide +kernel) (by decide +kernel)
  have hsecond : Line.ofString "dat end, a, last" = ⟨[], .error ⟨.nonConstantData, ["end"]⟩⟩ :=
    congrArg₂ Line.mk (by decide +kernel) (by decide +kernel)
  change t.assembly = (Progress.addLine (Progress.addLine {} _) _).assembly at hassembly
  rw [Progress.addLine, Progress.addLine, hfirst, hsecond] at hassembly
  have hsymbols : t.assembly.symbols = #[⟨"start", ⟨0, 0⟩, some 0⟩, ⟨"end", ⟨0, 1⟩, none⟩] := by
    rw [hassembly]
    rfl
  have hindex := (hpaired t hleads).index
  obtain ⟨r, l, t', hrun, hrun', -, hfixes, hmarked⟩ := hmark t hleads 2 "end"
  have hok : ((Assembly.mark 2 "end").run.run t.assembly).1 = .ok () := by
    rw [hassembly]
    rfl
  obtain rfl : r = .ok () := (congrArg Prod.fst hrun').symm.trans hok
  have hlabel : ((Assembly.mark 2 "end" >>= fun _ ↦ Assembly.intern "end").run.run t.assembly).1 =
      .ok ⟨0, 1⟩ := by
    rw [hassembly]
    rfl
  rw [LineM.run_bind_ok hrun', (hfixes t' .refl).2.2] at hlabel
  obtain rfl := Except.ok.inj hlabel
  refine ⟨t, t', ht, hleads, hsymbols, ?_, ?_, hrun, (hmarked rfl).2, hfixes⟩
  · exact (hindex "start" 0).mpr ⟨⟨"start", ⟨0, 0⟩, some 0⟩, by rw [hsymbols]; rfl, rfl⟩
  · exact (hindex "end" 1).mpr ⟨⟨"end", ⟨0, 1⟩, none⟩, by rw [hsymbols]; rfl, rfl⟩

end Tables

end Dcpu16
