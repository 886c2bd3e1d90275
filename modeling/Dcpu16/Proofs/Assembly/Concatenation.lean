import Dcpu16.Proofs.Assembly.Moving

/-!
# One text behind another

A text that ends with a line feed can be continued by another one.  If both can be assembled, look
up no name in common and leave room for all addresses, then the two can be assembled as one text,
and its image is the two images one behind the other, where each reference of the second to a label
has moved by the size of the first.  Main statement: `Concatenation.assemble_append`.
-/

namespace Dcpu16

namespace Builder

def isSite (b : Builder) (site : Nat) : Bool := b.slots.any fun slot ↦ slot.sites.contains site

/-- Moves the labels of an image: the words that depend on them change, and no others. -/
def relocate (b : Builder) (distance : Nat) (image : Array UInt16) : Array UInt16 :=
  image.mapIdx fun site word ↦ if b.isSite site then word + distance.toUInt16 else word

end Builder

/-- An issue about a line that comes so many lines later. -/
def Issue.delay (count : Nat) (issue : Issue) : Issue :=
  { issue with line := count + issue.line }

/-! ## Texts -/

/-- The lines of a text that ends with a line feed come before those of what follows. -/
theorem Text.lines_append {s : String} (h : s = "" ∨ ∃ text, s = text ++ "\n") (t : String) :
    Text.lines (s ++ t) = Text.lines s ++ Text.lines t := by
  rcases h with rfl | ⟨text, rfl⟩
  · rw [String.empty_append]
    rfl
  · have hpieces := Text.pieces_append_newline text.toList t.toList
    have hs : (text ++ "\n").toList = text.toList ++ ['\n'] := String.toList_append
    have ht : (text ++ "\n" ++ t).toList = text.toList ++ '\n' :: t.toList := by
      rw [String.toList_append, hs, List.append_assoc]
      rfl
    rw [Text.lines, ht, hpieces, List.map_append, Text.lines, hs]
    rfl

/-! ## References -/

namespace Outline

variable {o : Outline}

/-- The sites are the places of the cells that depend on labels. -/
theorem isSite_assembly (ho : o.Valid) {site : Nat} {cell : Cell String}
    (h : o.cells[site]? = some cell) :
    o.assembly.builder.isSite site = cell.label?.isSome := by
  have hsite : o.assembly.builder.isSite site ↔ cell.label?.isSome := by
    show ((o.labels.map o.slot).toArray.any fun slot ↦ slot.sites.contains site) ↔ _
    rw [List.any_toArray, List.any_map, List.any_eq_true]
    constructor
    · rintro ⟨name, -, hmem⟩
      have hmem : site ∈ o.sites name := List.mem_toArray.mp (Array.contains_iff_mem.mp hmem)
      obtain ⟨cell', hcell, hlabel⟩ := Sketch.mem_sites.mp hmem
      obtain rfl := Option.some.inj (h.symm.trans hcell)
      rw [hlabel, Option.isSome_some]
    · intro hsome
      obtain ⟨name, hlabel⟩ := Option.isSome_iff_exists.mp hsome
      refine ⟨name, ho.mentioned (List.mem_of_getElem? h) hlabel, ?_⟩
      apply Array.contains_iff_mem.mpr
      exact List.mem_toArray.mpr (Sketch.mem_sites.mpr ⟨cell, h, hlabel⟩)
  exact Bool.eq_iff_iff.mpr hsite

/-- Moving the labels of an image moves the words of the cells with labels. -/
theorem relocate_map (ho : o.Valid) (distance : Nat) (value : Cell String → UInt16) :
    o.assembly.builder.relocate distance (o.cells.map value).toArray =
      (o.cells.map fun cell ↦ Move.shift distance cell (value cell)).toArray := by
  apply Array.ext_getElem?
  intro site
  rw [Builder.relocate, Array.getElem?_mapIdx, List.getElem?_toArray, List.getElem?_toArray,
    List.getElem?_map, List.getElem?_map]
  cases hc : o.cells[site]? with
  | none => rfl
  | some cell =>
      simp only [Option.map_some, isSite_assembly ho hc]
      rfl

/-- The room that is asked for the addresses of labels. -/
theorem add_le_of_slots (ho : o.Valid) {offset : Nat}
    (h : ∀ slot ∈ o.assembly.builder.slots, ∀ address ∈ slot.address?,
      offset + address.toNat ≤ 0xFFFF) {name : String} {address : Nat}
    (ha : o.address? name = some address) : offset + address ≤ 0xFFFF := by
  have hslot : o.slot name ∈ o.assembly.builder.slots :=
    List.mem_toArray.mpr (List.mem_map_of_mem (ho.marked ha))
  have hword : address.toUInt16 ∈ (o.slot name).address? := by
    show o.word? name = _
    rw [Sketch.word?, ha, Option.map_some]
  have hfits := ho.fits ha
  have hle := h _ hslot _ hword
  rw [UInt16.toNat_ofNat', Nat.mod_eq_of_lt (by omega)] at hle
  exact hle

/-! ## Lines behind others -/

/-- The place of lines behind others that look up no name of theirs. -/
def Move.behind (front lines : List String)
    (h : ∀ name ∈ Diagnostics.names front, name ∉ Diagnostics.names lines) : Move where
  front
  names := Diagnostics.names lines
  rename := id
  injective _ _ _ _ heq := heq
  fresh := by
    intro name hn hmem
    rw [(Diagnostics.keeps_ofLines front).labels] at hmem
    exact h name hmem hn

/-- Lines without errors can be put behind others that look up other names, if their labels still
have addresses there. -/
theorem Move.carries_behind {front lines : List String}
    (h : ∀ name ∈ Diagnostics.names front, name ∉ Diagnostics.names lines)
    (hissues : lineIssues {} lines.zipIdx = [])
    (hfits : ∀ name address, (ofLines lines).address? name = some address →
      (ofLines front).cells.length + address ≤ 0xFFFF) :
    lineIssues {} (front ++ lines).zipIdx = lineIssues {} front.zipIdx ∧
      (Move.behind front lines h).Carries (ofLines lines) (ofLines (front ++ lines)) := by
  have hknown : ∀ name ∈ (ofLines lines).labels, name ∈ Diagnostics.names lines := by
    intro name hn
    rwa [(Diagnostics.keeps_ofLines lines).labels] at hn
  have hcarries := (Move.behind front lines h).carries_ofLines id
    (fun text _ ↦ (Line.map_id _).symm) hissues hknown hfits
  rwa [List.map_id] at hcarries

end Outline

namespace Concatenation

open Outline

/-- Two texts without errors, the first of which is empty or ends with a line feed, are one text
without errors if no name is looked up in both and the addresses of the second still fit in a word
behind the words of the first.  The second image follows the first, its references moved by the
size of the first, and the issues of the second follow those of the first, on later lines. -/
theorem assemble_append (s₁ s₂ : String) (r₁ r₂ : Report) (image₁ image₂ : Array UInt16)
    (h₁ : assemble s₁ = .ok r₁) (hi₁ : r₁.image? = some image₁)
    (h₂ : assemble s₂ = .ok r₂) (hi₂ : r₂.image? = some image₂)
    (hend : s₁ = "" ∨ ∃ text, s₁ = text ++ "\n")
    (hnames : ∀ name ∈ Diagnostics.names (Text.lines s₁),
      name ∉ Diagnostics.names (Text.lines s₂))
    (hfits : ∀ slot ∈ (Progress.ofLines (Text.lines s₂)).assembly.builder.slots,
      ∀ address ∈ slot.address?, image₁.size + address.toNat ≤ 0xFFFF) :
    ∃ r, assemble (s₁ ++ s₂) = .ok r ∧ r.hasErrors = false ∧
      r.image? = some (image₁ ++
        (Progress.ofLines (Text.lines s₂)).assembly.builder.relocate image₁.size image₂) ∧
      r.issues = r₁.issues ++ r₂.issues.map (Issue.delay (Text.lines s₁).length) := by
  obtain ⟨rfl, hc₁, rfl⟩ := clean_of_assemble h₁ hi₁
  obtain ⟨rfl, hc₂, rfl⟩ := clean_of_assemble h₂ hi₂
  refine ⟨_, assemble_eq _, ?_⟩
  rw [Text.lines_append hend]
  rw [progress_ofLines, List.size_toArray, List.length_map] at hfits
  rw [progress_ofLines, List.size_toArray, List.length_map]
  clear h₁ h₂ hi₁ hi₂ hend
  generalize Text.lines s₁ = front at *
  generalize Text.lines s₂ = lines at *
  have ho := valid_ofLines lines
  obtain ⟨hissues, hcarries⟩ := Move.carries_behind hnames hc₂.accepted
    fun name address ha ↦ add_le_of_slots ho hfits ha
  have hclean : Clean (front ++ lines) := hcarries.clean hc₁ hc₂ (hissues.trans hc₁.accepted)
  refine ⟨hclean.hasErrors, ?_, ?_⟩
  · rw [hclean.image?, relocate_map ho, hcarries.map_value ho hc₂.marked, List.append_toArray]
    rfl
  · rw [hclean.issues, hc₁.issues, hc₂.issues, hcarries.unused_eq ho hc₂.marked, List.map_append,
      List.map_map, List.map_map]
    rfl

/-- The second text refers to its label before and behind it, once with a constant so large that the
sum wraps, and each text has a label that is unused. -/
theorem assemble_append_wrapping :
    ∃ r, assemble (":start set a, start\n:spare\n" ++
        "jsr loop\n:Spare :loop dat loop, 'x'\nset [loop + 0xFFFF], b") = .ok r ∧
      r.hasErrors = false ∧
      r.image? = some #[0x7C01, 0x0000, 0x7C10, 0x0004, 0x0004, 0x0078, 0x05E1, 0x0003] ∧
      r.issues = [.unused 1 "spare", .unused 3 "Spare"] := by
  have hnames₁ : Diagnostics.names (Text.lines ":start set a, start\n:spare\n") =
      ["start", "spare"] := by decide +kernel
  have hnames₂ : Diagnostics.names (Text.lines
      "jsr loop\n:Spare :loop dat loop, 'x'\nset [loop + 0xFFFF], b") = ["loop", "Spare"] := by
    decide +kernel
  have hslots : (Progress.ofLines (Text.lines
      "jsr loop\n:Spare :loop dat loop, 'x'\nset [loop + 0xFFFF], b")).assembly.builder.slots =
        #[⟨some 2, #[1, 2, 5]⟩, ⟨some 2, #[]⟩] := by decide +kernel
  obtain ⟨r, hr, herrors, himage, hissues⟩ := assemble_append ":start set a, start\n:spare\n"
    "jsr loop\n:Spare :loop dat loop, 'x'\nset [loop + 0xFFFF], b" _ _ #[0x7C01, 0x0000]
    #[0x7C10, 0x0002, 0x0002, 0x0078, 0x05E1, 0x0001] (assemble_eq _) (by decide +kernel)
    (assemble_eq _) (by decide +kernel) (.inr ⟨":start set a, start\n:spare", by decide⟩)
    (by rw [hnames₁, hnames₂]; decide) (by rw [hslots]; simp)
  refine ⟨r, hr, herrors, himage.trans ?_, hissues.trans ?_⟩
  · decide +kernel
  · decide +kernel

end Concatenation

end Dcpu16
