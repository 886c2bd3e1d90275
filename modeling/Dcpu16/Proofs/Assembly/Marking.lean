import Dcpu16.Proofs.Assembly.Outline
import Mathlib.Data.List.Induction

/-!
# The marks of a line

All names that a line marks get the same address, that of the statement behind them, so that one
look at the outline before the line tells how marking goes: a name is refused if it is marked
already, by an earlier line or further in front on the same line, and any name is refused once the
image is too large for addresses.  `Outline.CanMark` is the condition under which nothing is refused
and `Outline.setMarks` is the outline after it (`Outline.markAll_of_canMark`); otherwise the names
in front of the first one that is refused are marked and that one is only met
(`Outline.markAll_of_refused`).
-/

namespace Dcpu16.Outline

/-- The outline after names were given the next address, on a line. -/
def setMarks (o : Outline) (line : Nat) (names : List String) : Outline :=
  { o.meetAll names with
    address? := fun x ↦ if x ∈ names then some o.cells.length else o.address? x
    line? := fun x ↦ if x ∈ names then some line else o.line? x }

/-- Names that can be marked together: they are all different, none of them is marked, and there is
an address for them. -/
structure CanMark (o : Outline) (names : List String) : Prop where
  nodup : names.Nodup
  unmarked (name : String) : name ∈ names → o.address? name = none
  fits : names ≠ [] → o.cells.length ≤ 0xFFFF

/-- Why a name cannot be marked behind those in `done`. -/
inductive Refused (o : Outline) (done : List String) (name : String) : LineError → Prop
  /-- The name is marked already. -/
  | alreadyMarked : name ∈ done ∨ (∃ address, o.address? name = some address) →
      Refused o done name (.labelAlreadyMarked name)
  /-- There is no address for the name. -/
  | overflow : name ∉ done → o.address? name = none → 0xFFFF < o.cells.length →
      Refused o done name (.build (.addressOverflow o.cells.length))

theorem mem_labels_setMarks {o : Outline} {line : Nat} {names : List String} {x : String} :
    x ∈ (o.setMarks line names).labels ↔ x ∈ o.labels ∨ x ∈ names := mem_labels_meetAll

theorem setMarks_nil (o : Outline) (line : Nat) : o.setMarks line [] = o := by
  simp [setMarks, meetAll]

theorem CanMark.nil (o : Outline) : o.CanMark [] :=
  ⟨List.nodup_nil, fun _ h ↦ absurd h List.not_mem_nil, fun h ↦ absurd rfl h⟩

theorem CanMark.setMarks_eq_mark {o : Outline} {name : String} (h : o.CanMark [name])
    (line : Nat) : o.mark line name = (.ok (), o.setMarks line [name]) := by
  have ha := h.unmarked name (List.mem_singleton_self name)
  have hfits := h.fits (List.cons_ne_nil _ _)
  have haddress : Function.update o.address? name (some o.cells.length) =
      fun x ↦ if x ∈ [name] then some o.cells.length else o.address? x := by
    funext x
    by_cases hx : x = name <;> simp [hx]
  have hline : Function.update o.line? name (some line) =
      fun x ↦ if x ∈ [name] then some line else o.line? x := by
    funext x
    by_cases hx : x = name <;> simp [hx]
  rw [mark, ha, Option.isSome_none, if_neg Bool.false_ne_true, if_neg (Nat.not_lt.mpr hfits)]
  rw [setMarks, ← haddress, ← hline]
  rfl

/-- Marking goes on from the names that are marked already. -/
theorem setMarks_setMarks (o : Outline) (line : Nat) (done names : List String) :
    (o.setMarks line done).setMarks line names = o.setMarks line (done ++ names) := by
  have haddress : (fun x ↦ if x ∈ names then some o.cells.length
      else if x ∈ done then some o.cells.length else o.address? x) =
        fun x ↦ if x ∈ done ++ names then some o.cells.length else o.address? x := by
    funext x
    by_cases hx : x ∈ names <;> by_cases hx' : x ∈ done <;> simp [hx, hx']
  have hline : (fun x ↦ if x ∈ names then some line
      else if x ∈ done then some line else o.line? x) =
        fun x ↦ if x ∈ done ++ names then some line else o.line? x := by
    funext x
    by_cases hx : x ∈ names <;> by_cases hx' : x ∈ done <;> simp [hx, hx']
  simp only [setMarks, meetAll, List.foldl_append, haddress, hline]

/-- Names can be marked together if and only if they can be marked one part after the other. -/
theorem canMark_append (o : Outline) (line : Nat) (done names : List String) :
    o.CanMark (done ++ names) ↔ o.CanMark done ∧ (o.setMarks line done).CanMark names := by
  constructor
  · rintro ⟨hnodup, hunmarked, hfits⟩
    obtain ⟨hdone, hnames, hdisjoint⟩ := List.nodup_append.mp hnodup
    refine ⟨⟨hdone, fun x hx ↦ hunmarked x (List.mem_append_left _ hx), ?_⟩,
      ⟨hnames, ?_, ?_⟩⟩
    · exact fun h ↦ hfits (List.append_ne_nil_of_left_ne_nil h _)
    · intro x hx
      have hx' : x ∉ done := fun hd ↦ hdisjoint x hd x hx rfl
      simpa [setMarks, hx'] using hunmarked x (List.mem_append_right _ hx)
    · exact fun h ↦ hfits (List.append_ne_nil_of_right_ne_nil _ h)
  · rintro ⟨hdone, hnames⟩
    have hdisjoint : ∀ x ∈ names, x ∉ done := by
      intro x hx hd
      have := hnames.unmarked x hx
      simp [setMarks, hd] at this
    refine ⟨List.nodup_append.mpr ⟨hdone.nodup, hnames.nodup, ?_⟩, ?_, ?_⟩
    · rintro x hx y hy rfl
      exact hdisjoint x hy hx
    · intro x hx
      rcases List.mem_append.mp hx with hx | hx
      · exact hdone.unmarked x hx
      · simpa [setMarks, hdisjoint x hx] using hnames.unmarked x hx
    · intro h
      by_cases hd : done = []
      · subst hd
        exact hnames.fits h
      · exact hdone.fits hd

/-- Names that can be marked are marked before the others are looked at. -/
theorem markAll_append {o : Outline} {done : List String} (h : o.CanMark done) (line : Nat)
    (names : List String) :
    o.markAll line (done ++ names) = (o.setMarks line done).markAll line names := by
  induction done generalizing o with
  | nil => rw [setMarks_nil, List.nil_append]
  | cons name done ih =>
      obtain ⟨hname, hdone⟩ := (canMark_append o line [name] done).mp h
      rw [List.cons_append, markAll, hname.setMarks_eq_mark line]
      simp only
      rw [ih hdone, setMarks_setMarks, List.singleton_append]

theorem markAll_of_canMark {o : Outline} {names : List String} (h : o.CanMark names)
    (line : Nat) : o.markAll line names = (.ok (), o.setMarks line names) := by
  have happend := markAll_append h line []
  rwa [List.append_nil] at happend

/-- A name that is refused is still met. -/
theorem Refused.mark_eq {o : Outline} {done : List String} {name : String} {e : LineError}
    (h : o.Refused done name e) (line : Nat) :
    (o.setMarks line done).mark line name = (.error e, (o.setMarks line done).meet name) := by
  cases h with
  | alreadyMarked h =>
      have hsome : ((o.setMarks line done).address? name).isSome := by
        by_cases hd : name ∈ done
        · simp [setMarks, hd]
        · obtain ⟨address, ha⟩ := h.resolve_left hd
          simp [setMarks, hd, ha]
      rw [mark, if_pos hsome]
  | overflow hd ha hsize =>
      have hnone : ¬((o.setMarks line done).address? name).isSome := by
        simp [setMarks, hd, ha]
      rw [mark, if_neg hnone]
      exact if_pos hsize

/-- The names in front of the first one that is refused are marked, and that one is met. -/
theorem markAll_of_refused {o : Outline} {done : List String} (hd : o.CanMark done)
    {name : String} {e : LineError} (h : o.Refused done name e) (line : Nat)
    (names : List String) :
    o.markAll line (done ++ name :: names) = (.error e, (o.setMarks line done).meet name) := by
  rw [markAll_append hd, markAll, h.mark_eq line]

/-- Either all names can be marked or one is the first that is refused. -/
theorem canMark_or_refused (o : Outline) (names : List String) :
    o.CanMark names ∨ ∃ done name rest e, names = done ++ name :: rest ∧ o.CanMark done ∧
      o.Refused done name e := by
  -- The induction is on the names from the end: a name is looked at with all before it marked.
  induction names using List.reverseRecOn with
  | nil => exact .inl (CanMark.nil o)
  | append_singleton names name ih =>
      rcases ih with h | ⟨done, name', rest, e, rfl, hd, hr⟩
      · by_cases hmarked : name ∈ names ∨ ∃ address, o.address? name = some address
        · exact .inr ⟨names, name, [], _, rfl, h, .alreadyMarked hmarked⟩
        · obtain ⟨hn, ha⟩ := not_or.mp hmarked
          have ha : o.address? name = none :=
            Option.eq_none_iff_forall_not_mem.mpr fun address h ↦ ha ⟨address, h⟩
          by_cases hsize : o.cells.length ≤ 0xFFFF
          · refine .inl ⟨List.nodup_append.mpr ⟨h.nodup, List.nodup_singleton name, ?_⟩, ?_,
              fun _ ↦ hsize⟩
            · rintro x hx y hy rfl
              exact hn (List.mem_singleton.mp hy ▸ hx)
            · intro x hx
              rcases List.mem_append.mp hx with hx | hx
              · exact h.unmarked x hx
              · exact List.mem_singleton.mp hx ▸ ha
          · exact .inr ⟨names, name, [], _, rfl, h, .overflow hn ha (Nat.lt_of_not_le hsize)⟩
      · exact .inr ⟨done, name', rest ++ [name], e, by simp, hd, hr⟩

/-! ## Lines -/

/-- A line does all or some of its marks; its body counts only if it does all of them. -/
theorem addLine_of_canMark {o : Outline} {line : Line} (h : o.CanMark line.marks)
    (index : Nat) : o.addLine index line = (o.setMarks index line.marks).addBody line.body := by
  rw [addLine, markAll_of_canMark h]

/-- A mark that is refused is the end of the line, and what follows it counts for nothing. -/
theorem addLine_of_refused {o : Outline} {line : Line} {done rest : List String} {name : String}
    {e : LineError} (hmarks : line.marks = done ++ name :: rest) (hd : o.CanMark done)
    (h : o.Refused done name e) (index : Nat) :
    o.addLine index line = (.error e, (o.setMarks index done).meet name) := by
  rw [addLine, hmarks, markAll_of_refused hd h]

/-- A line is accepted if and only if its marks can be made and its body can be read. -/
theorem addLine_eq_ok_iff {o : Outline} {line : Line} {index : Nat} :
    (o.addLine index line).1 = .ok () ↔
      o.CanMark line.marks ∧ ∃ statement?, line.body = .ok statement? := by
  rcases canMark_or_refused o line.marks with h | ⟨done, name, rest, e, hmarks, hd, hr⟩
  · rw [addLine_of_canMark h]
    rcases hb : line.body with fault | statement?
    · simp [addBody]
    · cases statement? <;> simp [addBody, h]
  · rw [addLine_of_refused hmarks hd hr]
    simp only [reduceCtorEq, false_iff, not_and]
    intro h
    have hmark := markAll_of_canMark h index
    rw [hmarks, markAll_of_refused hd hr] at hmark
    exact absurd (congrArg Prod.fst hmark) nofun

end Dcpu16.Outline
