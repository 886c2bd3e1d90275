import Dcpu16.Proofs.Assembly.Growth

/-!
# Moving lines

Lines that are accepted on their own are accepted behind other lines too, and with other names for
their labels, as long as different names stay different, none of the new names is met in front and
all labels keep an address that fits in a word.  There they do what they do alone, only further
behind.  A `Move` says behind what and under which names, and `Move.Carries` relates an outline with
one that has moved.  Each action of a line keeps the relation, and so do lines one after the other
(`Move.carries_ofLines`); what an image and its warnings look like after a move can be read off it
(`Move.Carries.map_value`, `Move.Carries.unused_eq`).
-/

namespace Dcpu16.Outline

/-- Where lines are moved to. -/
structure Move where
  /-- The lines in front. -/
  front : List String
  /-- The names that the lines look up. -/
  names : List String
  /-- What becomes of a name. -/
  rename : String → String
  /-- Different names stay different, -/
  injective : ∀ x ∈ names, ∀ y ∈ names, rename x = rename y → x = y
  /-- and they are not those in front. -/
  fresh : ∀ x ∈ names, rename x ∉ (ofLines front).labels

namespace Move

def base (m : Move) : Outline := ofLines m.front

def offset (m : Move) : Nat := m.base.cells.length

/-- The outline `o'` is the outline `o` after a move. -/
structure Carries (m : Move) (o o' : Outline) : Prop where
  known : ∀ name ∈ o.labels, name ∈ m.names
  labels : o'.labels = m.base.labels ++ o.labels.map m.rename
  cells : o'.cells = m.base.cells ++ o.cells.map (Cell.map m.rename)
  address? : ∀ name ∈ m.names,
    o'.address? (m.rename name) = (o.address? name).map (m.offset + ·)
  line? : ∀ name ∈ m.names,
    o'.line? (m.rename name) = (o.line? name).map (m.front.length + ·)
  /-- What is in front stays as it is. -/
  address?_front : ∀ name ∈ m.base.labels, o'.address? name = m.base.address? name
  line?_front : ∀ name ∈ m.base.labels, o'.line? name = m.base.line? name

variable {m : Move} {o o' : Outline}

theorem valid_base (m : Move) : m.base.Valid := valid_ofLines m.front

/-! ## Names -/

theorem rename_mem_map {names : List String} (h : ∀ x ∈ names, x ∈ m.names) {name : String}
    (hn : name ∈ m.names) : m.rename name ∈ names.map m.rename ↔ name ∈ names := by
  constructor
  · intro hmem
    obtain ⟨x, hx, heq⟩ := List.mem_map.mp hmem
    rwa [← m.injective x (h x hx) name hn heq]
  · exact List.mem_map_of_mem

/-- Renaming gives no name of the lines in front. -/
theorem front_notMem_map {names : List String} (h : ∀ x ∈ names, x ∈ m.names) {name : String}
    (hn : name ∈ m.base.labels) : name ∉ names.map m.rename := by
  intro hmem
  obtain ⟨x, hx, rfl⟩ := List.mem_map.mp hmem
  exact m.fresh x (h x hx) hn

theorem addName_map {known : List String} (h : ∀ x ∈ known, x ∈ m.names) {name : String}
    (hn : name ∈ m.names) :
    addName (m.base.labels ++ known.map m.rename) (m.rename name) =
      m.base.labels ++ (addName known name).map m.rename := by
  have hmem : m.rename name ∈ m.base.labels ++ known.map m.rename ↔ name ∈ known := by
    rw [List.mem_append, rename_mem_map h hn]
    exact or_iff_right (m.fresh name hn)
  rw [addName, addName]
  by_cases hk : name ∈ known
  · rw [if_pos (hmem.mpr hk), if_pos hk]
  · rw [if_neg (mt hmem.mp hk), if_neg hk, List.map_append, List.append_assoc]
    rfl

/-- Names are met behind those of the lines in front in the order in which they are met without
these. -/
theorem foldl_addName_map {known names : List String} (h : ∀ x ∈ known, x ∈ m.names)
    (hn : ∀ x ∈ names, x ∈ m.names) :
    (names.map m.rename).foldl addName (m.base.labels ++ known.map m.rename) =
      m.base.labels ++ (names.foldl addName known).map m.rename := by
  induction names generalizing known with
  | nil => rfl
  | cons name names ih =>
      have hname := hn name List.mem_cons_self
      rw [List.map_cons, List.foldl_cons, addName_map h hname, List.foldl_cons]
      refine ih ?_ fun x hx ↦ hn x (List.mem_cons_of_mem _ hx)
      intro x hx
      rcases mem_addName.mp hx with hx | rfl
      · exact h x hx
      · exact hname

namespace Carries

theorem length_cells (h : m.Carries o o') : o'.cells.length = m.offset + o.cells.length := by
  rw [h.cells, List.length_append, List.length_map]
  rfl

/-- Before the lines are read there is only what is in front. -/
theorem start (m : Move) : m.Carries {} m.base where
  known _ h := absurd h List.not_mem_nil
  labels := (List.append_nil _).symm
  cells := (List.append_nil _).symm
  address? name hn := by
    rw [Option.map_none, Option.eq_none_iff_forall_not_mem]
    intro address ha
    exact m.fresh name hn (m.valid_base.marked ha)
  line? name hn := by
    rw [Option.map_none]
    exact m.valid_base.line?_eq_none (m.fresh name hn)
  address?_front _ _ := rfl
  line?_front _ _ := rfl

theorem meetAll (h : m.Carries o o') {names : List String} (hn : ∀ x ∈ names, x ∈ m.names) :
    m.Carries (o.meetAll names) (o'.meetAll (names.map m.rename)) where
  known := by
    intro x hx
    rcases mem_labels_meetAll.mp hx with hx | hx
    · exact h.known x hx
    · exact hn x hx
  labels := by
    show (names.map m.rename).foldl addName o'.labels = _
    rw [h.labels, foldl_addName_map h.known hn]
    rfl
  cells := h.cells
  address? := h.address?
  line? := h.line?
  address?_front := h.address?_front
  line?_front := h.line?_front

/-! ## Marks -/

/-- Names can still be marked after a move if there is an address for them. -/
theorem canMark (h : m.Carries o o') {names : List String} (hn : ∀ x ∈ names, x ∈ m.names)
    (hm : o.CanMark names) (hfits : names ≠ [] → m.offset + o.cells.length ≤ 0xFFFF) :
    o'.CanMark (names.map m.rename) where
  nodup := by
    refine List.Nodup.map_on ?_ hm.nodup
    intro x hx y hy heq
    exact m.injective x (hn x hx) y (hn y hy) heq
  unmarked := by
    intro name hname
    obtain ⟨x, hx, rfl⟩ := List.mem_map.mp hname
    rw [h.address? x (hn x hx), hm.unmarked x hx, Option.map_none]
  fits := by
    intro hne
    rw [h.length_cells]
    exact hfits fun hnil ↦ hne (by rw [hnil, List.map_nil])

/-- Marks are moved by the number of words and lines in front. -/
theorem setMarks (h : m.Carries o o') {names : List String} (hn : ∀ x ∈ names, x ∈ m.names)
    (index : Nat) :
    m.Carries (o.setMarks index names)
      (o'.setMarks (m.front.length + index) (names.map m.rename)) where
  known := (h.meetAll hn).known
  labels := (h.meetAll hn).labels
  cells := h.cells
  address? := by
    intro name hname
    show (if m.rename name ∈ names.map m.rename then some o'.cells.length else _) =
      Option.map _ (if name ∈ names then _ else _)
    simp only [rename_mem_map hn hname, h.length_cells, h.address? name hname]
    split <;> rfl
  line? := by
    intro name hname
    show (if m.rename name ∈ names.map m.rename then some (m.front.length + index) else _) =
      Option.map _ (if name ∈ names then _ else _)
    simp only [rename_mem_map hn hname, h.line? name hname]
    split <;> rfl
  address?_front := by
    intro name hname
    show (if name ∈ names.map m.rename then _ else o'.address? name) = _
    rw [if_neg (front_notMem_map hn hname), h.address?_front name hname]
  line?_front := by
    intro name hname
    show (if name ∈ names.map m.rename then _ else o'.line? name) = _
    rw [if_neg (front_notMem_map hn hname), h.line?_front name hname]

/-! ## Lines -/

theorem emit (h : m.Carries o o') {statement : Statement String}
    (hn : ∀ x ∈ statement.labels, x ∈ m.names) :
    m.Carries (o.emit statement) (o'.emit (statement.map m.rename)) := by
  have hmeet := h.meetAll hn
  rw [← Statement.labels_map] at hmeet
  refine ⟨hmeet.known, hmeet.labels, ?_, h.address?, h.line?, h.address?_front, h.line?_front⟩
  show o'.cells ++ (statement.map m.rename).cells = _ ++ (o.cells ++ statement.cells).map _
  rw [h.cells, Statement.cells_map, List.map_append, List.append_assoc]

/-- A line that is accepted is accepted after the move, where it does the same. -/
theorem addLine (h : m.Carries o o') {index : Nat} {line : Line}
    (hok : (o.addLine index line).1 = .ok ()) (hmarks : ∀ x ∈ line.marks, x ∈ m.names)
    (hmentioned : ∀ x ∈ line.mentioned, x ∈ m.names)
    (hfits : line.marks ≠ [] → m.offset + o.cells.length ≤ 0xFFFF) :
    (o'.addLine (m.front.length + index) (line.map m.rename)).1 = .ok () ∧
      m.Carries (o.addLine index line).2
        (o'.addLine (m.front.length + index) (line.map m.rename)).2 := by
  obtain ⟨hm, statement?, hbody⟩ := addLine_eq_ok_iff.mp hok
  have hm' : o'.CanMark (line.map m.rename).marks := h.canMark hmarks hm hfits
  have hbody' : (line.map m.rename).body = .ok (statement?.map (Statement.map m.rename)) := by
    rw [Line.map, hbody]
    rfl
  have hset := h.setMarks hmarks index
  rw [addLine_of_canMark hm, addLine_of_canMark hm', hbody, hbody']
  cases statement? with
  | none => exact ⟨rfl, hset⟩
  | some statement =>
      rw [Line.mentioned, hbody] at hmentioned
      exact ⟨rfl, hset.emit hmentioned⟩

/-- The step lemma of a move, for a line that is accepted. -/
theorem step (h : m.Carries o o') (ho : o.Valid) {index : Nat} {text text' : String}
    (hreads : Line.ofString text' = (Line.ofString text).map m.rename)
    (hok : o.lineIssue? (text, index) = none)
    (hknown : ∀ x ∈ (o.step (text, index)).labels, x ∈ m.names)
    (hfits : ∀ name address, (o.step (text, index)).address? name = some address →
      m.offset + address ≤ 0xFFFF) :
    o'.lineIssue? (text', m.front.length + index) = none ∧
      m.Carries (o.step (text, index)) (o'.step (text', m.front.length + index)) := by
  rw [lineIssue?_eq_none] at hok ⊢
  obtain ⟨hm, -⟩ := addLine_eq_ok_iff.mp hok
  have hlookups : ∀ x ∈ (Line.ofString text).marks ++ (Line.ofString text).mentioned,
      x ∈ m.names := fun x hx ↦ hknown x (mem_labels_of_addLine ho hok hx)
  have hspace : (Line.ofString text).marks ≠ [] → m.offset + o.cells.length ≤ 0xFFFF := by
    intro hne
    obtain ⟨name, hn⟩ := List.exists_mem_of_ne_nil _ hne
    apply hfits name
    rw [address?_step ho, marked_of_canMark ho hm, if_pos hn]
  have hline := h.addLine hok (fun x hx ↦ hlookups x (List.mem_append_left _ hx))
    (fun x hx ↦ hlookups x (List.mem_append_right _ hx)) hspace
  rw [← hreads] at hline
  refine ⟨hline.1, ?_⟩
  obtain ⟨journal, hstep⟩ := step_eq o (text, index)
  obtain ⟨journal', hstep'⟩ := step_eq o' (text', m.front.length + index)
  obtain ⟨hk, hl, hc, ha, hi, haf, hif⟩ := hline.2
  rw [hstep, hstep']
  exact ⟨hk, hl, hc, ha, hi, haf, hif⟩

end Carries

/-- Lines that are accepted on their own are accepted after a move, and carried there. -/
theorem carries_ofLines (m : Move) (spell : String → String) {lines : List String}
    (hreads : ∀ text ∈ lines, Line.ofString (spell text) = (Line.ofString text).map m.rename)
    (hissues : lineIssues {} lines.zipIdx = [])
    (hknown : ∀ name ∈ (ofLines lines).labels, name ∈ m.names)
    (hfits : ∀ name address, (ofLines lines).address? name = some address →
      m.offset + address ≤ 0xFFFF) :
    lineIssues {} (m.front ++ lines.map spell).zipIdx = lineIssues {} m.front.zipIdx ∧
      m.Carries (ofLines lines) (ofLines (m.front ++ lines.map spell)) := by
  -- Lines are taken from the end, since the names and addresses that there are in the end bound
  -- those on the way.
  induction lines using List.reverseRecOn with
  | nil =>
      rw [List.map_nil, List.append_nil]
      exact ⟨rfl, .start m⟩
  | append_singleton lines text ih =>
      have ho := valid_ofLines lines
      rw [Diagnostics.zipIdx_append_singleton, lineIssues_append, List.append_eq_nil_iff,
        Option.toList_eq_nil_iff] at hissues
      rw [ofLines_append] at hknown hfits
      obtain ⟨hbefore, hcarries⟩ := ih
        (fun t ht ↦ hreads t (List.mem_append_left _ ht)) hissues.1
        (fun name hn ↦ hknown name (mem_labels_step ho _ hn))
        (fun name address ha ↦ hfits name address (address?_step_of_some ho _ ha))
      obtain ⟨hnone, hstep⟩ := hcarries.step ho
        (hreads text (List.mem_append_right _ (List.mem_singleton_self text))) hissues.2 hknown
        hfits
      have hlength : (m.front ++ lines.map spell).length = m.front.length + lines.length := by
        rw [List.length_append, List.length_map]
      rw [List.map_append, List.map_singleton, ← List.append_assoc,
        Diagnostics.zipIdx_append_singleton, lineIssues_append, ofLines_append, ofLines_append,
        hbefore, hlength]
      refine ⟨?_, hstep⟩
      show _ ++ ((ofLines (m.front ++ lines.map spell)).lineIssue? _).toList = _
      rw [hnone, Option.toList_none, List.append_nil]

/-! ## Images -/

/-- What becomes of the word of a cell if all labels move by a distance. -/
def shift (distance : Nat) (cell : Cell String) (word : UInt16) : UInt16 :=
  if cell.label?.isSome then word + distance.toUInt16 else word

theorem shift_zero (cell : Cell String) (word : UInt16) : shift 0 cell word = word := by
  have hzero : word + Nat.toUInt16 0 = word := UInt16.add_zero word
  rw [shift, hzero, ite_self]

/-- The words of what is in front stay as they are, and behind them come those of the lines, in
which the addresses of labels have moved. -/
theorem Carries.map_value (h : m.Carries o o') (ho : o.Valid)
    (hmarked : ∀ name ∈ o.labels, o.address? name ≠ none) :
    o'.cells.map (Cell.value o'.word?) = m.base.cells.map (Cell.value m.base.word?) ++
      o.cells.map fun cell ↦ shift m.offset cell (cell.value o.word?) := by
  rw [h.cells, List.map_append, List.map_map]
  congr 1
  · apply List.map_congr_left
    intro cell hc
    rw [Cell.value, Cell.value]
    cases hl : cell.label? with
    | none => rfl
    | some name =>
        rw [Option.bind_some, Option.bind_some, Sketch.word?, Sketch.word?,
          h.address?_front name (m.valid_base.mentioned hc hl)]
  · apply List.map_congr_left
    intro cell hc
    show (cell.map m.rename).value o'.word? = _
    rw [Cell.value, Cell.label?_map, Cell.value, shift]
    cases hl : cell.label? with
    | none => rfl
    | some name =>
        have hn := ho.mentioned hc hl
        obtain ⟨address, ha⟩ := Option.ne_none_iff_exists'.mp (hmarked name hn)
        have hword : o'.word? (m.rename name) = some (m.offset + address).toUInt16 := by
          rw [Sketch.word?, h.address? name (h.known name hn), ha]
          rfl
        have hword' : o.word? name = some address.toUInt16 := by
          rw [Sketch.word?, ha, Option.map_some]
        have hadd : (m.offset + address).toUInt16 = m.offset.toUInt16 + address.toUInt16 :=
          UInt16.ofNat_add _ _
        simp only [Option.map_some, Option.bind_some, hword, hword', Cell.base_map,
          Option.isSome_some, if_true]
        rw [hadd, UInt16.add_assoc, UInt16.add_comm address.toUInt16]

end Move

/-! ## Warnings -/

variable {o o' : Outline}

def Refers (o : Outline) (name : String) : Prop := ∃ cell ∈ o.cells, cell.label? = some name

instance (o : Outline) (name : String) : Decidable (o.Refers name) :=
  inferInstanceAs (Decidable (∃ cell ∈ o.cells, _))

/-- The labels that nothing refers to, each with the line that marks it. -/
def unused (o : Outline) : List (Nat × String) :=
  (o.labels.filter fun name ↦ ¬o.Refers name).map fun name ↦ ((o.line? name).getD 0, name)

/-- If every label is marked, then there is nothing to say but which of them are unused. -/
theorem symbolIssues_eq (hmarked : ∀ name ∈ o.labels, o.address? name ≠ none) :
    o.labels.filterMap o.symbolIssue? =
      o.unused.map fun entry ↦ Issue.unused entry.1 entry.2 := by
  have hissue : ∀ name ∈ o.labels, o.symbolIssue? name =
      if o.Refers name then none else some (.unused ((o.line? name).getD 0) name) := by
    intro name hn
    obtain ⟨address, ha⟩ := Option.ne_none_iff_exists'.mp (hmarked name hn)
    have hcount : o.cells.countP (fun cell ↦ cell.label? = some name) = 0 ↔ ¬o.Refers name := by
      rw [List.countP_eq_zero, Refers]
      simp
    rw [symbolIssue?_of_some ha]
    simp only [hcount, ite_not]
  rw [List.filterMap_congr hissue, unused, List.map_map, ← List.filterMap_eq_map,
    List.filterMap_filter]
  apply List.filterMap_congr
  intro name _
  by_cases h : o.Refers name <;> simp [h]

namespace Move.Carries

variable {m : Move}

theorem refers_rename (h : m.Carries o o') (ho : o.Valid) {name : String} (hn : name ∈ m.names) :
    o'.Refers (m.rename name) ↔ o.Refers name := by
  rw [Refers, h.cells]
  constructor
  · rintro ⟨cell, hc, hl⟩
    rcases List.mem_append.mp hc with hc | hc
    · exact absurd (m.valid_base.mentioned hc hl) (m.fresh name hn)
    · obtain ⟨cell, hcell, rfl⟩ := List.mem_map.mp hc
      obtain ⟨x, hx, heq⟩ := Option.map_eq_some_iff.mp hl
      obtain rfl := m.injective x (h.known x (ho.mentioned hcell hx)) name hn heq
      exact ⟨cell, hcell, hx⟩
  · rintro ⟨cell, hc, hl⟩
    refine ⟨cell.map m.rename, List.mem_append_right _ (List.mem_map_of_mem hc), ?_⟩
    rw [Cell.label?_map, hl, Option.map_some]

/-- The lines that were moved refer to nothing in front of them. -/
theorem refers_front (h : m.Carries o o') (ho : o.Valid) {name : String}
    (hn : name ∈ m.base.labels) : o'.Refers name ↔ m.base.Refers name := by
  rw [Refers, h.cells]
  constructor
  · rintro ⟨cell, hc, hl⟩
    rcases List.mem_append.mp hc with hc | hc
    · exact ⟨cell, hc, hl⟩
    · obtain ⟨cell, hcell, rfl⟩ := List.mem_map.mp hc
      obtain ⟨x, hx, rfl⟩ := Option.map_eq_some_iff.mp hl
      exact absurd hn (m.fresh x (h.known x (ho.mentioned hcell hx)))
  · rintro ⟨cell, hc, hl⟩
    exact ⟨cell, List.mem_append_left _ hc, hl⟩

/-- The labels that are unused in front come before those of the lines that have moved. -/
theorem unused_eq (h : m.Carries o o') (ho : o.Valid)
    (hmarked : ∀ name ∈ o.labels, o.address? name ≠ none) :
    o'.unused = m.base.unused ++
      o.unused.map fun entry ↦ (m.front.length + entry.1, m.rename entry.2) := by
  rw [unused, h.labels, List.filter_append, List.map_append, List.filter_map, List.map_map]
  congr 1
  · have hfilter : m.base.labels.filter (fun name ↦ ¬o'.Refers name) =
        m.base.labels.filter fun name ↦ ¬m.base.Refers name := by
      apply List.filter_congr
      intro name hn
      exact decide_eq_decide.mpr (not_congr (h.refers_front ho hn))
    rw [hfilter, unused]
    apply List.map_congr_left
    intro name hn
    rw [h.line?_front name (List.mem_of_mem_filter hn)]
  · have hfilter : o.labels.filter ((fun name ↦ decide ¬o'.Refers name) ∘ m.rename) =
        o.labels.filter fun name ↦ ¬o.Refers name := by
      apply List.filter_congr
      intro name hn
      exact decide_eq_decide.mpr (not_congr (h.refers_rename ho (h.known name hn)))
    rw [hfilter, unused, List.map_map]
    apply List.map_congr_left
    intro name hn
    have hmem := List.mem_of_mem_filter hn
    have hsome : (o.line? name).isSome := by
      rw [ho.line, Option.isSome_iff_ne_none]
      exact hmarked name hmem
    obtain ⟨line, hline⟩ := Option.isSome_iff_exists.mp hsome
    simp only [Function.comp_apply, h.line? name (h.known name hmem), hline, Option.map_some,
      Option.getD_some]

end Move.Carries

/-! ## Reports -/

/-- Lines without errors: none of them is rejected, and every label is marked. -/
structure Clean (lines : List String) : Prop where
  accepted : lineIssues {} lines.zipIdx = []
  marked : ∀ name ∈ (ofLines lines).labels, (ofLines lines).address? name ≠ none

theorem Clean.image? {lines : List String} (h : Clean lines) :
    (report lines).image? =
      some ((ofLines lines).cells.map (Cell.value (ofLines lines).word?)).toArray :=
  (image?_report lines _).mpr ⟨⟨h.accepted, h.marked⟩, rfl⟩

theorem Clean.hasErrors {lines : List String} (h : Clean lines) :
    (report lines).hasErrors = false := by
  have himage := h.image?
  rw [Report.image?] at himage
  split at himage
  · cases himage
  · next hn => exact Bool.eq_false_iff.mpr hn

/-- Lines without errors have no issues but labels that are unused. -/
theorem Clean.issues {lines : List String} (h : Clean lines) :
    (report lines).issues =
      (ofLines lines).unused.map fun entry ↦ Issue.unused entry.1 entry.2 := by
  show lineIssues {} lines.zipIdx ++ (ofLines lines).labels.filterMap _ = _
  rw [h.accepted, List.nil_append, symbolIssues_eq h.marked]

/-- A text with an image has no errors, and its image is that of its outline. -/
theorem clean_of_assemble {source : String} {r : Report} {image : Array UInt16}
    (h : assemble source = .ok r) (hi : r.image? = some image) :
    r = report (Text.lines source) ∧ Clean (Text.lines source) ∧
      image = ((ofLines (Text.lines source)).cells.map
        (Cell.value (ofLines (Text.lines source)).word?)).toArray := by
  rw [assemble_eq] at h
  obtain rfl := Except.ok.inj h
  obtain ⟨⟨haccepted, hmarked⟩, himage⟩ := (image?_report _ image).mp hi
  exact ⟨rfl, ⟨haccepted, hmarked⟩, himage⟩

/-- Lines without errors behind others without errors are without errors. -/
theorem Move.Carries.clean {m : Move} {lines lines' : List String}
    (h : m.Carries (ofLines lines) (ofLines lines')) (hfront : Clean m.front)
    (hlines : Clean lines) (haccepted : lineIssues {} lines'.zipIdx = []) : Clean lines' where
  accepted := haccepted
  marked := by
    intro name hn
    rw [h.labels] at hn
    rcases List.mem_append.mp hn with hn | hn
    · rw [h.address?_front name hn]
      exact hfront.marked name hn
    · obtain ⟨x, hx, rfl⟩ := List.mem_map.mp hn
      rw [h.address? x (h.known x hx), Ne, Option.map_eq_none_iff]
      exact hlines.marked x hx

end Dcpu16.Outline
