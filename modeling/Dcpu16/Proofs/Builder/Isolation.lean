import Dcpu16.Proofs.Builder.Agreement
import Mathlib.Algebra.Ring.Nat
import Mathlib.Data.List.Induction

/-!
# Builders side by side

In a session any handle may be used with any builder, and the labels behind handles have small
places that are valid in many builders.  What keeps builders apart is their identities, which are
all different as long as there are no more builders than there are words of thirty-two bits.  Main
statement: `Session.isolated_run`, by which a builder in a session is in the state in which it would
be on its own, has given the answers that it would have given on its own, and refuses every request
that mentions a handle of another builder.

A builder on its own gets the same requests, where the handles that it has given away stand for its
own labels and all others for some label that is not its own.
-/

namespace Dcpu16

/-! ## A builder on its own -/

/-- The answers of a builder to requests one after the other, and the builder after them. -/
def Builder.answerAll (b : Builder) (requests : List (Request Label)) :
    List (Except BuildError (Reply Label)) × Builder :=
  requests.foldl (fun state request ↦
    match state.2.answer request with
    | (reply, b) => (state.1 ++ [reply], b)) ([], b)

namespace Session

inductive Action
  /-- Add a builder. -/
  | create
  /-- Ask something of the builder with a number. -/
  | ask (number : Nat) (request : Request Nat)
  /-- Take a builder away. -/
  | take (number : Nat)
  deriving DecidableEq

/-- A request that a builder has answered. -/
structure Exchange where
  number : Nat
  request : Request Nat
  reply : Except BuildError (Reply Nat)

/-- One more action in a session, where exchanges are written down. -/
def act (state : Session × List Exchange) : Action → Session × List Exchange
  | .create => (state.1.create.2, state.2)
  | .ask number request =>
    match state.1.ask number request with
    | (some reply, s) => (s, state.2 ++ [⟨number, request, reply⟩])
    | (none, s) => (s, state.2)
  | .take number => ((state.1.take number).2, state.2)

/-- A session after some actions, and the exchanges in it. -/
def run (nextId : UInt32) (actions : List Action) : Session × List Exchange :=
  actions.foldl act ({ nextId }, [])

def exchangesWith (number : Nat) (exchanges : List Exchange) : List Exchange :=
  exchanges.filter fun e ↦ e.number = number

/-- The handles of the labels that were defined, in order. -/
def handles (exchanges : List Exchange) : List Nat :=
  exchanges.flatMap fun e ↦ Reply.defined e.reply

/-- What a handle stands for on its own: a label of the builder if the builder has given it away,
and otherwise one that is not. -/
def ownLabel (id : UInt32) (foreign : Label) (own : List Nat) (handle : Nat) : Label :=
  if handle ∈ own then ⟨id, own.idxOf handle⟩ else foreign

/-- What a builder on its own answers to the requests of exchanges. -/
def alone (id : UInt32) (foreign : Label) (own : List Exchange) :
    List (Except BuildError (Reply Label)) × Builder :=
  ({ id } : Builder).answerAll
    (own.map fun e ↦ e.request.map (ownLabel id foreign (handles own)))

/-- A builder in a session that has noticed nothing of the others.  It has had the exchanges `own`,
and is compared with a builder on its own. -/
structure Isolated (s : Session) (number : Nat) (own : List Exchange) (id : UInt32)
    (foreign : Label) : Prop where
  /-- The answers are the same, where labels are told by their places among the builder's own. -/
  replies : own.map (fun e ↦ e.reply.map (Reply.map (handles own).idxOf)) =
    (alone id foreign own).1.map fun reply ↦ reply.map (Reply.map Label.index)
  /-- The state is the same, -/
  agrees : ∀ b, s.builder? number = some b → b.Agrees (alone id foreign own).2
  /-- and so is what is taken away in the end. -/
  output : ∀ words, (s.take number).1 = some words → words = (alone id foreign own).2.words
  /-- A request is answered whenever its handles have been given away by any builders. -/
  answered : ∀ b, s.builder? number = some b → ∀ request : Request Nat,
    (∀ handle ∈ request.labels, handle < s.labels.size) →
      ∃ reply, (s.ask number request).1 = some reply
  /-- A request that mentions a handle of another builder is refused and changes nothing. -/
  refused : ∀ b, s.builder? number = some b → ∀ request : Request Nat,
    (∀ handle ∈ request.labels, handle < s.labels.size) →
      ∀ handle ∈ request.labels, handle ∉ handles own →
        s.ask number request = (some (.error ((b.objection? request).getD .foreignLabel)), s)

/-! ## Actions -/

variable {s : Session} {number : Nat} {b : Builder}

theorem lt_size_of_builder? (h : s.builder? number = some b) : number < s.builders.size := by
  rw [builder?] at h
  cases hget : s.builders[number]? with
  | none => rw [hget] at h; exact nomatch h
  | some _ => exact (Array.getElem?_eq_some_iff.mp hget).1

/-- Putting a builder in place changes no other. -/
theorem builder?_setIfInBounds {builders : Array (Option Builder)} (h : number < builders.size)
    (x : Option Builder) (i : Nat) :
    (builders.setIfInBounds number x)[i]?.join =
      if i = number then x else builders[i]?.join := by
  rw [Array.getElem?_setIfInBounds]
  by_cases hi : number = i
  · rw [if_pos hi, if_pos (hi ▸ h), if_pos hi.symm]
    rfl
  · rw [if_neg hi, if_neg (Ne.symm hi)]

def answered (s : Session) (number : Nat) (result : Except BuildError (Reply Label) × Builder) :
    Session :=
  { s with
    builders := s.builders.setIfInBounds number (some { result.2 with journal := #[] })
    labels := s.labels ++ (Reply.defined result.1).toArray
    journal := s.journal ++ result.2.journal }

/-- A request whose handles all stand for labels is answered by its builder. -/
theorem ask_eq {request : Request Nat} {r : Request Label} (hb : s.builder? number = some b)
    (hr : (request.mapM fun handle ↦ s.labels[handle]?) = some r) :
    s.ask number request =
      (some ((b.answer r).1.map (Reply.map fun _ ↦ s.labels.size)),
        s.answered number (b.answer r)) := by
  rw [ask, hb, hr]
  simp only
  generalize b.answer r = result
  obtain ⟨reply, c⟩ := result
  rcases reply with e | (_ | l | _ | _)
  · simp [put, answered, Except.map, Reply.defined]
  · simp [put, publish, answered, Except.map, Reply.map, Reply.defined]
  · simp [put, publish, answered, Except.map, Reply.map, Reply.defined]
  · simp [put, publish, answered, Except.map, Reply.map, Reply.defined]
  · simp [put, publish, answered, Except.map, Reply.map, Reply.defined]

/-- There is no answer if there is no builder or if a handle was not given away. -/
theorem ask_cases (s : Session) (number : Nat) (request : Request Nat) :
    s.ask number request = (none, s) ∨
      ∃ b r, s.builder? number = some b ∧
        (request.mapM fun handle ↦ s.labels[handle]?) = some r := by
  rw [ask]
  cases hb : s.builder? number with
  | none => exact .inl rfl
  | some b =>
      cases hr : (request.mapM fun handle ↦ s.labels[handle]?) with
      | none => exact .inl rfl
      | some r => exact .inr ⟨b, r, rfl, rfl⟩

/-! ## What a session keeps -/

/-- An exchange is one with its own builder only. -/
theorem exchangesWith_append (i : Nat) (exchanges : List Exchange) (e : Exchange) :
    exchangesWith i (exchanges ++ [e]) =
      exchangesWith i exchanges ++ if e.number = i then [e] else [] := by
  rw [exchangesWith, List.filter_append, exchangesWith]
  by_cases h : e.number = i <;> simp [h]

theorem handles_append (exchanges exchanges' : List Exchange) :
    handles (exchanges ++ exchanges') = handles exchanges ++ handles exchanges' :=
  List.flatMap_append

/-- What holds of a session and the exchanges in it: the identities of the builders are consecutive,
and a handle stands for the label of the builder that has given it away. -/
structure Tracks (nextId : UInt32) (state : Session × List Exchange) : Prop where
  next : state.1.nextId = nextId + state.1.builders.size.toUInt32
  id : ∀ i b, state.1.builder? i = some b → b.id = nextId + i.toUInt32
  journal : ∀ i b, state.1.builder? i = some b → b.journal = #[]
  size : ∀ i b, state.1.builder? i = some b →
    b.slots.size = (handles (exchangesWith i state.2)).length
  number : ∀ e ∈ state.2, e.number < state.1.builders.size
  known : ∀ e ∈ state.2, ∀ handle ∈ e.request.labels, handle < state.1.labels.size
  own : ∀ i, ∀ handle ∈ handles (exchangesWith i state.2), state.1.labels[handle]? =
    some ⟨nextId + i.toUInt32, (handles (exchangesWith i state.2)).idxOf handle⟩
  given : ∀ handle < state.1.labels.size, ∃ i, handle ∈ handles (exchangesWith i state.2)

variable {nextId : UInt32} {exchanges : List Exchange}

theorem Tracks.empty (nextId : UInt32) : Tracks nextId ({ nextId }, []) where
  next := (UInt32.add_zero nextId).symm
  id _ _ h := nomatch h
  journal _ _ h := nomatch h
  size _ _ h := nomatch h
  number _ h := absurd h List.not_mem_nil
  known _ h := absurd h List.not_mem_nil
  own _ _ h := absurd h List.not_mem_nil
  given _ h := absurd h (Nat.not_lt_zero _)

/-- A handle that was given away is known, and so is the builder that gave it away. -/
theorem Tracks.lt_of_mem_handles (h : Tracks nextId (s, exchanges)) {i handle : Nat}
    (hh : handle ∈ handles (exchangesWith i exchanges)) :
    handle < s.labels.size ∧ i < s.builders.size := by
  refine ⟨(Array.getElem?_eq_some_iff.mp (h.own i handle hh)).1, ?_⟩
  obtain ⟨e, he, -⟩ := List.mem_flatMap.mp hh
  obtain ⟨he, hi⟩ := List.mem_filter.mp he
  exact of_decide_eq_true hi ▸ h.number e he

/-- There are no exchanges with a builder that is yet to come. -/
theorem Tracks.exchangesWith_eq_nil (h : Tracks nextId (s, exchanges)) {i : Nat}
    (hi : s.builders.size ≤ i) : exchangesWith i exchanges = [] := by
  rw [exchangesWith, List.filter_eq_nil_iff]
  intro e he heq
  have hlt : e.number < s.builders.size := h.number e he
  have hnumber : e.number = i := of_decide_eq_true heq
  omega

/-- A builder in a session after another one was added. -/
theorem builder?_create (s : Session) (i : Nat) :
    s.create.2.builder? i =
      if i = s.builders.size then some { id := s.nextId } else s.builder? i := by
  show (s.builders.push _)[i]?.join = _
  rw [Array.getElem?_push]
  split <;> rfl

theorem builder?_take (s : Session) (number i : Nat) :
    (s.take number).2.builder? i = if i = number then none else s.builder? i := by
  show (s.builders.setIfInBounds number none)[i]?.join = _
  by_cases hn : number < s.builders.size
  · exact builder?_setIfInBounds hn none i
  · rw [Array.setIfInBounds_eq_of_size_le (Nat.le_of_not_lt hn)]
    split
    · next hi =>
      rw [Array.getElem?_eq_none (hi ▸ Nat.le_of_not_lt hn)]
      rfl
    · rfl

/-- An answer changes one builder and leaves the others. -/
theorem builder?_answered (hb : s.builder? number = some b)
    (result : Except BuildError (Reply Label) × Builder) (i : Nat) :
    (s.answered number result).builder? i =
      if i = number then some { result.2 with journal := #[] } else s.builder? i :=
  builder?_setIfInBounds (lt_size_of_builder? hb) _ i

/-- The step lemma for a builder that is added: its identity is the next one. -/
theorem Tracks.create (h : Tracks nextId (s, exchanges)) :
    Tracks nextId (s.create.2, exchanges) := by
  -- What holds of the builders that were there holds of the new one too.
  have hbuilder : ∀ {p : Nat → Builder → Prop}, (∀ i b, s.builder? i = some b → p i b) →
      p s.builders.size { id := s.nextId } → ∀ i b, s.create.2.builder? i = some b → p i b := by
    intro p hold hnew i b hb
    rw [builder?_create] at hb
    split at hb
    · next hi => exact hi ▸ Option.some.inj hb ▸ hnew
    · exact hold i b hb
  have hsize : s.create.2.builders.size = s.builders.size + 1 := Array.size_push _
  exact {
    next := by
      show s.nextId + 1 = nextId + s.create.2.builders.size.toUInt32
      have hadd : (s.builders.size + 1).toUInt32 = s.builders.size.toUInt32 + 1 :=
        UInt32.ofNat_add _ _
      rw [hsize, hadd, ← UInt32.add_assoc, ← h.next]
    id := hbuilder h.id h.next
    journal := hbuilder h.journal rfl
    size := by
      refine hbuilder h.size ?_
      rw [h.exchangesWith_eq_nil (Nat.le_refl _)]
      rfl
    number e he := by
      show e.number < s.create.2.builders.size
      rw [hsize]
      exact Nat.lt_succ_of_lt (h.number e he)
    known := h.known
    own := h.own
    given := h.given }

theorem Tracks.take (h : Tracks nextId (s, exchanges)) (number : Nat) :
    Tracks nextId ((s.take number).2, exchanges) := by
  have hbuilder : ∀ i b, (s.take number).2.builder? i = some b → s.builder? i = some b := by
    intro i b hb
    rw [builder?_take] at hb
    split at hb
    · exact nomatch hb
    · exact hb
  have hsize : (s.take number).2.builders.size = s.builders.size := Array.size_setIfInBounds
  exact {
    next := by
      show s.nextId = nextId + (s.take number).2.builders.size.toUInt32
      rw [hsize, ← h.next]
    id i b hb := h.id i b (hbuilder i b hb)
    journal i b hb := h.journal i b (hbuilder i b hb)
    size i b hb := h.size i b (hbuilder i b hb)
    number e he := by
      show e.number < (s.take number).2.builders.size
      rw [hsize]
      exact h.number e he
    known := h.known
    own := h.own
    given := h.given }

/-- The builder `b` is asked `r`, which is the request with labels in the place of handles. -/
structure Answers (s : Session) (number : Nat) (request : Request Nat) (b : Builder)
    (r : Request Label) : Prop where
  builder? : s.builder? number = some b
  mapM : (request.mapM fun handle ↦ s.labels[handle]?) = some r

def exchange (s : Session) (number : Nat) (request : Request Nat)
    (result : Except BuildError (Reply Label) × Builder) : Exchange :=
  ⟨number, request, result.1.map (Reply.map fun _ ↦ s.labels.size)⟩

section Answer

variable {request : Request Nat} {r : Request Label}

theorem Answers.lt_size (ha : Answers s number request b r) {handle : Nat}
    (hh : handle ∈ request.labels) : handle < s.labels.size := by
  have hsome := (Request.eq_map_of_mapM ⟨0, 0⟩ ha.mapM).1 handle hh
  obtain ⟨label, hlabel⟩ := Option.isSome_iff_exists.mp hsome
  exact (Array.getElem?_eq_some_iff.mp hlabel).1

/-- A handle that is given away is that of the next label. -/
theorem handles_exchange (s : Session) (number i : Nat) (request : Request Nat)
    (result : Except BuildError (Reply Label) × Builder) :
    handles (exchangesWith i (exchanges ++ [s.exchange number request result])) =
      handles (exchangesWith i exchanges) ++
        if number = i then (Reply.defined result.1).map fun _ ↦ s.labels.size else [] := by
  rw [exchangesWith_append, handles_append]
  congr 1
  show handles (if number = i then _ else _) = _
  split
  · show Reply.defined (result.1.map _) ++ [] = _
    rw [List.append_nil, Reply.defined_map]
  · rfl

/-- A handle stands for the same label after any answer. -/
theorem getElem?_answered {handle : Nat} (h : handle < s.labels.size)
    (result : Except BuildError (Reply Label) × Builder) :
    (s.answered number result).labels[handle]? = s.labels[handle]? :=
  Array.getElem?_append_left h

/-- The label that is defined has the place behind those of the builder that defines it. -/
theorem Tracks.defined (h : Tracks nextId (s, exchanges)) (ha : Answers s number request b r)
    {l : Label} (hl : l ∈ Reply.defined (b.answer r).1) :
    l = ⟨nextId + number.toUInt32, (handles (exchangesWith number exchanges)).length⟩ ∧
      (s.answered number (b.answer r)).labels[s.labels.size]? = some l ∧
      (handles (exchangesWith number exchanges) ++
        (Reply.defined (b.answer r).1).map fun _ ↦ s.labels.size).idxOf s.labels.size =
          (handles (exchangesWith number exchanges)).length := by
  have hlength := Reply.length_defined_le (b.answer r).1
  have hdefined : Reply.defined (b.answer r).1 = [l] := by
    obtain ⟨before, later, heq⟩ := List.append_of_mem hl
    rw [heq] at hlength ⊢
    simp at hlength
    simp [List.eq_nil_of_length_eq_zero (show before.length = 0 by omega),
      List.eq_nil_of_length_eq_zero (show later.length = 0 by omega)]
  have hnew : s.labels.size ∉ handles (exchangesWith number exchanges) := by
    intro hmem
    exact Nat.lt_irrefl _ (h.lt_of_mem_handles hmem).1
  refine ⟨?_, ?_, ?_⟩
  · rw [(b.continues_answer r).label l hl, h.id number b ha.builder?, h.size number b ha.builder?]
  · show (s.labels ++ _)[s.labels.size]? = some l
    rw [hdefined, Array.getElem?_append_right (Nat.le_refl _), Nat.sub_self]
    rfl
  · rw [hdefined, List.idxOf_append, if_neg hnew]
    simp

theorem size_builders_answered (s : Session) (number : Nat)
    (result : Except BuildError (Reply Label) × Builder) :
    (s.answered number result).builders.size = s.builders.size := Array.size_setIfInBounds

theorem size_labels_answered (s : Session) (number : Nat)
    (result : Except BuildError (Reply Label) × Builder) :
    (s.answered number result).labels.size =
      s.labels.size + (Reply.defined result.1).length := by
  show (s.labels ++ _).size = _
  rw [Array.size_append]
  rfl

/-- What holds of the builder that has answered and of the others as they were holds of all. -/
theorem forall_builder?_answered (hb : s.builder? number = some b)
    {result : Except BuildError (Reply Label) × Builder} {p : Nat → Builder → Prop}
    (hold : ∀ i b, i ≠ number → s.builder? i = some b → p i b)
    (hnew : p number { result.2 with journal := #[] }) (i : Nat) (c : Builder)
    (hc : (s.answered number result).builder? i = some c) : p i c := by
  rw [builder?_answered hb] at hc
  split at hc
  · next hi => exact hi ▸ Option.some.inj hc ▸ hnew
  · next hi => exact hold i c hi hc

/-- A handle still stands for its label after an answer, and a new one for the label that the answer
has defined. -/
theorem Tracks.own_answered (h : Tracks nextId (s, exchanges)) (ha : Answers s number request b r)
    (i handle : Nat) (hh : handle ∈ handles
      (exchangesWith i (exchanges ++ [s.exchange number request (b.answer r)]))) :
    (s.answered number (b.answer r)).labels[handle]? = some ⟨nextId + i.toUInt32, (handles
      (exchangesWith i (exchanges ++ [s.exchange number request (b.answer r)]))).idxOf handle⟩ := by
  rw [handles_exchange] at hh ⊢
  by_cases hi : number = i
  · subst hi
    rw [if_pos rfl] at hh ⊢
    rcases List.mem_append.mp hh with hh | hh
    · rw [List.idxOf_append, if_pos hh, getElem?_answered (h.lt_of_mem_handles hh).1]
      exact h.own number handle hh
    · obtain ⟨l, hl, rfl⟩ := List.mem_map.mp hh
      obtain ⟨hlabel, hget, hidx⟩ := h.defined ha hl
      rw [hidx, hget, hlabel]
  · rw [if_neg hi, List.append_nil] at hh ⊢
    rw [getElem?_answered (h.lt_of_mem_handles hh).1]
    exact h.own i handle hh

/-- Every handle has been given away by some builder, the new one by the builder that answered. -/
theorem Tracks.given_answered (h : Tracks nextId (s, exchanges)) {handle : Nat}
    (hh : handle < (s.answered number (b.answer r)).labels.size) :
    ∃ i, handle ∈
      handles (exchangesWith i (exchanges ++ [s.exchange number request (b.answer r)])) := by
  rw [size_labels_answered] at hh
  by_cases hold : handle < s.labels.size
  · obtain ⟨i, hi⟩ := h.given handle hold
    refine ⟨i, ?_⟩
    rw [handles_exchange]
    exact List.mem_append_left _ hi
  · have hlength := Reply.length_defined_le (b.answer r).1
    refine ⟨number, ?_⟩
    rw [handles_exchange, if_pos rfl]
    apply List.mem_append_right
    obtain ⟨l, hl⟩ := List.exists_mem_of_length_pos
      (show 0 < (Reply.defined (b.answer r).1).length by omega)
    exact List.mem_map.mpr ⟨l, hl, by omega⟩

theorem Tracks.answered (h : Tracks nextId (s, exchanges)) (ha : Answers s number request b r) :
    Tracks nextId (s.answered number (b.answer r),
      exchanges ++ [s.exchange number request (b.answer r)]) where
  next := by
    show s.nextId = nextId + (s.answered number (b.answer r)).builders.size.toUInt32
    rw [size_builders_answered, ← h.next]
  id := forall_builder?_answered ha.builder? (fun i c _ ↦ h.id i c)
    ((b.continues_answer r).id.trans (h.id number b ha.builder?))
  journal := forall_builder?_answered ha.builder? (fun i c _ ↦ h.journal i c) rfl
  size := by
    refine forall_builder?_answered ha.builder? (fun i c hi hc ↦ ?_) ?_
    · rw [handles_exchange, if_neg (Ne.symm hi), List.append_nil]
      exact h.size i c hc
    · rw [handles_exchange, if_pos rfl, List.length_append, List.length_map,
        ← h.size number b ha.builder?]
      exact (b.continues_answer r).size
  number e he := by
    show e.number < (s.answered number (b.answer r)).builders.size
    rw [size_builders_answered]
    rcases List.mem_append.mp he with he | he
    · exact h.number e he
    · obtain rfl := List.mem_singleton.mp he
      exact lt_size_of_builder? ha.builder?
  known e he handle hh := by
    show handle < (s.answered number (b.answer r)).labels.size
    rw [size_labels_answered]
    apply Nat.lt_add_right
    rcases List.mem_append.mp he with he | he
    · exact h.known e he handle hh
    · obtain rfl := List.mem_singleton.mp he
      exact ha.lt_size hh
  own := h.own_answered ha
  given _ hh := h.given_answered hh

end Answer

/-! ## Runs -/

theorem run_append (nextId : UInt32) (actions : List Action) (action : Action) :
    run nextId (actions ++ [action]) = act (run nextId actions) action := by
  rw [run, List.foldl_append]
  rfl

/-- A request either has no answer and changes nothing, or has one that is written down. -/
theorem act_ask (state : Session × List Exchange) (number : Nat) (request : Request Nat) :
    act state (.ask number request) = state ∨
      ∃ b r, Answers state.1 number request b r ∧ act state (.ask number request) =
        (state.1.answered number (b.answer r),
          state.2 ++ [state.1.exchange number request (b.answer r)]) := by
  rcases ask_cases state.1 number request with hask | ⟨b, r, hb, hr⟩
  · left
    rw [act, hask]
  · right
    refine ⟨b, r, ⟨hb, hr⟩, ?_⟩
    rw [act, ask_eq hb hr]
    rfl

theorem tracks_run (nextId : UInt32) (actions : List Action) :
    Tracks nextId (run nextId actions) := by
  induction actions using List.reverseRecOn with
  | nil => exact .empty nextId
  | append_singleton actions action ih =>
      rw [run_append]
      cases action with
      | create => exact ih.create
      | take number => exact ih.take number
      | ask number request =>
          rcases act_ask (run nextId actions) number request with hact | ⟨b, r, ha, hact⟩
          · rw [hact]
            exact ih
          · rw [hact]
            exact ih.answered ha

/-- Numbers of builders are not used again: there are as many as builders were added. -/
theorem size_builders_run (nextId : UInt32) (actions : List Action) :
    (run nextId actions).1.builders.size = actions.count .create := by
  induction actions using List.reverseRecOn with
  | nil => rfl
  | append_singleton actions action ih =>
      rw [run_append, List.count_append, ← ih]
      cases action with
      | create => exact Array.size_push _
      | take number => exact Array.size_setIfInBounds
      | ask number request =>
          rcases act_ask (run nextId actions) number request with hact | ⟨b, r, -, hact⟩
          · rw [hact]
            rfl
          · rw [hact]
            exact Array.size_setIfInBounds

/-- A builder stays until it is taken away. -/
theorem isSome_builder?_run {nextId : UInt32} {actions : List Action} {number : Nat}
    (hn : number < actions.count .create) (ht : .take number ∉ actions) :
    ((run nextId actions).1.builder? number).isSome := by
  induction actions using List.reverseRecOn with
  | nil => exact absurd hn (Nat.not_lt_zero _)
  | append_singleton actions action ih =>
      have ht' : Action.take number ∉ actions := fun h ↦ ht (List.mem_append_left _ h)
      rw [run_append]
      cases action with
      | create =>
          show ((run nextId actions).1.create.2.builder? number).isSome
          rw [builder?_create, size_builders_run]
          split
          · rfl
          · next hne =>
            rw [List.count_append, List.count_singleton_self] at hn
            exact ih (by omega) ht'
      | take i =>
          have hne : number ≠ i := by
            rintro rfl
            exact ht (List.mem_append_right _ (List.mem_singleton_self _))
          show (((run nextId actions).1.take i).2.builder? number).isSome
          rw [builder?_take, if_neg hne]
          exact ih (by simpa using hn) ht'
      | ask i request =>
          have hold := ih (by simpa using hn) ht'
          rcases act_ask (run nextId actions) i request with hact | ⟨b, r, ha, hact⟩
          · rw [hact]
            exact hold
          · rw [hact]
            show (((run nextId actions).1.answered i (b.answer r)).builder? number).isSome
            rw [builder?_answered ha.builder?]
            split
            · rfl
            · exact hold

/-! ## Own labels and those of others -/

section Labels

variable {foreign : Label} {handle : Nat}

/-- Identities are different as long as there are not too many. -/
theorem add_toUInt32_ne (nextId : UInt32) {i j count : Nat} (hcount : count ≤ 2 ^ 32)
    (hi : i < count) (hj : j < count) (hne : i ≠ j) :
    nextId + i.toUInt32 ≠ nextId + j.toUInt32 := by
  intro heq
  have htoNat := congrArg UInt32.toNat ((UInt32.add_right_inj nextId).mp heq)
  rw [UInt32.toNat_ofNat', UInt32.toNat_ofNat', Nat.mod_eq_of_lt (by omega),
    Nat.mod_eq_of_lt (by omega)] at htoNat
  exact hne htoNat

/-- The label of a handle that a builder has not given away is that of another builder. -/
theorem Tracks.owner_ne (h : Tracks nextId (s, exchanges)) (default : Label)
    (hsize : s.builders.size ≤ 2 ^ 32) (hb : s.builder? number = some b)
    (hh : handle < s.labels.size)
    (hown : handle ∉ handles (exchangesWith number exchanges)) :
    (s.labels[handle]?.getD default).owner ≠ b.id := by
  obtain ⟨i, hi⟩ := h.given handle hh
  have hne : i ≠ number := by
    rintro rfl
    exact hown hi
  rw [h.own i handle hi, Option.getD_some, h.id number b hb]
  exact add_toUInt32_ne nextId hsize (h.lt_of_mem_handles hi).2 (lt_size_of_builder? hb) hne

/-- A handle means to a builder in the session what it means to one on its own, as identities do not
repeat. -/
theorem Tracks.alike (h : Tracks nextId (s, exchanges)) (default : Label)
    (hsize : s.builders.size ≤ 2 ^ 32) (hb : s.builder? number = some b)
    (hh : handle < s.labels.size) {b' : Builder}
    (hforeign : foreign.owner ≠ b'.id) :
    Builder.Alike b b' (s.labels[handle]?.getD default)
      (ownLabel b'.id foreign (handles (exchangesWith number exchanges)) handle) := by
  rw [ownLabel]
  split
  · next hown =>
    rw [h.own number handle hown, Option.getD_some, ← h.id number b hb]
    exact .own _
  · next hown => exact .foreign (h.owner_ne default hsize hb hh hown) hforeign

/-- What is given away later changes the meaning of no earlier handle. -/
theorem ownLabel_append {id : UInt32} {own added : List Nat} (h : handle ∉ added) :
    ownLabel id foreign (own ++ added) handle = ownLabel id foreign own handle := by
  rw [ownLabel, ownLabel, List.idxOf_append]
  by_cases hown : handle ∈ own
  · rw [if_pos hown, if_pos (List.mem_append_left _ hown), if_pos hown]
  · have happend : handle ∉ own ++ added := fun hmem ↦ (List.mem_append.mp hmem).elim hown h
    rw [if_neg happend, if_neg hown]

end Labels

/-! ## Sessions and builders on their own -/

theorem answerAll_append (b : Builder) (requests : List (Request Label))
    (request : Request Label) :
    b.answerAll (requests ++ [request]) =
      ((b.answerAll requests).1 ++ [((b.answerAll requests).2.answer request).1],
        ((b.answerAll requests).2.answer request).2) := by
  rw [Builder.answerAll, List.foldl_append]
  rfl

theorem id_answerAll (b : Builder) (requests : List (Request Label)) :
    (b.answerAll requests).2.id = b.id := by
  induction requests using List.reverseRecOn with
  | nil => rfl
  | append_singleton requests request ih =>
      rw [answerAll_append]
      exact ((b.answerAll requests).2.continues_answer request).id.trans ih

/-- The part of isolation that is carried along a run. -/
structure Matches (state : Session × List Exchange) (number : Nat) (id : UInt32)
    (foreign : Label) : Prop where
  replies : (exchangesWith number state.2).map
      (fun e ↦ e.reply.map (Reply.map (handles (exchangesWith number state.2)).idxOf)) =
    (alone id foreign (exchangesWith number state.2)).1.map
      fun reply ↦ reply.map (Reply.map Label.index)
  agrees : ∀ b, state.1.builder? number = some b →
    b.Agrees (alone id foreign (exchangesWith number state.2)).2

variable {id : UInt32} {foreign : Label}

/-- One more request to a builder on its own.  No request mentions a handle that was given away
only afterwards. -/
theorem alone_append {own : List Exchange} {e : Exchange}
    (h : ∀ e' ∈ own ++ [e], ∀ handle ∈ e'.request.labels, handle ∉ Reply.defined e.reply) :
    alone id foreign (own ++ [e]) =
      ((alone id foreign own).1 ++
          [((alone id foreign own).2.answer
            (e.request.map (ownLabel id foreign (handles own)))).1],
        ((alone id foreign own).2.answer
          (e.request.map (ownLabel id foreign (handles own)))).2) := by
  have hhandles : handles (own ++ [e]) = handles own ++ Reply.defined e.reply := by
    rw [handles_append]
    exact congrArg _ (List.append_nil _)
  have hrequest : ∀ e' ∈ own ++ [e],
      e'.request.map (ownLabel id foreign (handles (own ++ [e]))) =
        e'.request.map (ownLabel id foreign (handles own)) := by
    intro e' he'
    apply Request.map_congr
    intro handle hh
    rw [hhandles]
    exact ownLabel_append (h e' he' handle hh)
  rw [alone, List.map_congr_left hrequest, List.map_append, List.map_singleton, answerAll_append]
  rfl

section Answer

variable {request : Request Nat} {r : Request Label}

/-- The builder that answers does so as it would on its own. -/
theorem Matches.answered (h : Matches (s, exchanges) number id foreign)
    (ht : Tracks nextId (s, exchanges)) (hsize : s.builders.size ≤ 2 ^ 32)
    (hforeign : foreign.owner ≠ id) (ha : Answers s number request b r) :
    Matches (s.answered number (b.answer r),
      exchanges ++ [s.exchange number request (b.answer r)]) number id foreign := by
  have hb := ha.builder?
  have hown : exchangesWith number (exchanges ++ [s.exchange number request (b.answer r)]) =
      exchangesWith number exchanges ++ [s.exchange number request (b.answer r)] := by
    rw [exchangesWith_append]
    exact congrArg _ (if_pos rfl)
  have hhandles : handles
      (exchangesWith number exchanges ++ [s.exchange number request (b.answer r)]) =
        handles (exchangesWith number exchanges) ++
          (Reply.defined (b.answer r).1).map fun _ ↦ s.labels.size := by
    rw [← hown, handles_exchange, if_pos rfl]
  -- Handles that requests have mentioned so far are older than the one that is given away now.
  have hlater : ∀ e ∈ exchangesWith number exchanges ++ [s.exchange number request (b.answer r)],
      ∀ handle ∈ e.request.labels,
        handle ∉ Reply.defined (s.exchange number request (b.answer r)).reply := by
    intro e he handle hh hdefined
    have hlt : handle < s.labels.size := by
      rcases List.mem_append.mp he with he | he
      · exact ht.known e (List.mem_filter.mp he).1 handle hh
      · obtain rfl := List.mem_singleton.mp he
        exact ha.lt_size hh
    rw [exchange, Reply.defined_map] at hdefined
    obtain ⟨l, -, hl⟩ := List.mem_map.mp hdefined
    exact absurd hlt (hl ▸ Nat.lt_irrefl _)
  have hid : (alone id foreign (exchangesWith number exchanges)).2.id = id := id_answerAll _ _
  have halike : ∀ handle ∈ request.labels, Builder.Alike b
      (alone id foreign (exchangesWith number exchanges)).2 (s.labels[handle]?.getD foreign)
      (ownLabel id foreign (handles (exchangesWith number exchanges)) handle) := by
    intro handle hh
    have hlabel := ht.alike foreign hsize hb (ha.lt_size hh) (hid.symm ▸ hforeign)
    rwa [hid] at hlabel
  obtain ⟨-, rfl⟩ := Request.eq_map_of_mapM foreign ha.mapM
  obtain ⟨hreply, hagrees⟩ := (h.agrees b hb).answer halike
  refine ⟨?_, ?_⟩
  · show (exchangesWith number (exchanges ++ _)).map _ =
      (alone id foreign (exchangesWith number (exchanges ++ _))).1.map _
    rw [hown, alone_append hlater, List.map_append, List.map_append, List.map_singleton,
      List.map_singleton, hhandles, ← h.replies]
    congr 1
    · apply List.map_congr_left
      intro e he
      apply Reply.map_congr
      intro handle hh
      have hmem : handle ∈ handles (exchangesWith number exchanges) :=
        List.mem_flatMap.mpr ⟨e, he, hh⟩
      rw [List.idxOf_append, if_pos hmem]
    · refine congrArg (fun reply ↦ [reply]) (Eq.trans ?_ hreply)
      rw [exchange, Reply.map_map]
      apply Reply.map_congr
      intro l hl
      obtain ⟨hlabel, -, hidx⟩ := ht.defined ha hl
      rw [Function.comp_apply, hidx, hlabel]
  · intro c hc
    replace hc : (s.answered number (b.answer _)).builder? number = some c := hc
    rw [builder?_answered hb, if_pos rfl] at hc
    obtain rfl := Option.some.inj hc
    show Builder.Agrees _ (alone id foreign (exchangesWith number (exchanges ++ _))).2
    rw [hown, alone_append hlater]
    exact ⟨hagrees.words, hagrees.slots, hagrees.finished⟩

/-- The others do not take notice. -/
theorem Matches.answered_other {other : Nat} (h : Matches (s, exchanges) number id foreign)
    (hne : other ≠ number) (ha : Answers s other request b r) :
    Matches (s.answered other (b.answer r),
      exchanges ++ [s.exchange other request (b.answer r)]) number id foreign := by
  have hown : exchangesWith number (exchanges ++ [s.exchange other request (b.answer r)]) =
      exchangesWith number exchanges := by
    rw [exchangesWith_append]
    show _ ++ (if other = number then _ else _) = _
    rw [if_neg hne, List.append_nil]
  refine ⟨?_, ?_⟩
  · show (exchangesWith number (exchanges ++ _)).map _ = _
    rw [hown]
    exact h.replies
  · intro c hc
    replace hc : (s.answered other (b.answer r)).builder? number = some c := hc
    rw [builder?_answered ha.builder?, if_neg (Ne.symm hne)] at hc
    show c.Agrees (alone id foreign (exchangesWith number (exchanges ++ _))).2
    rw [hown]
    exact h.agrees c hc

end Answer

/-- The run lemma of isolation: state and answers are those of a builder on its own. -/
theorem matches_run (nextId : UInt32) {actions : List Action}
    (hcount : actions.count .create ≤ 2 ^ 32) (number : Nat) (hforeign : foreign.owner ≠ id) :
    Matches (run nextId actions) number id foreign := by
  induction actions using List.reverseRecOn with
  | nil => exact ⟨rfl, fun b hb ↦ nomatch hb⟩
  | append_singleton actions action ih =>
      have ht := tracks_run nextId actions
      have hle : actions.count .create ≤ 2 ^ 32 := by
        rw [List.count_append] at hcount
        exact Nat.le_of_add_right_le hcount
      have hsize : (run nextId actions).1.builders.size ≤ 2 ^ 32 := by
        rw [size_builders_run]
        exact hle
      have hm := ih hle
      rw [run_append]
      cases action with
      | create =>
          refine ⟨hm.replies, fun b hb ↦ ?_⟩
          replace hb : (run nextId actions).1.create.2.builder? number = some b := hb
          rw [builder?_create] at hb
          split at hb
          · next hnumber =>
            -- The new builder has had no exchanges.
            obtain rfl := Option.some.inj hb
            have hnil : exchangesWith number (run nextId actions).2 = [] :=
              ht.exchangesWith_eq_nil (Nat.le_of_eq hnumber.symm)
            show Builder.Agrees _ (alone id foreign (exchangesWith number (run nextId actions).2)).2
            rw [hnil]
            exact ⟨rfl, rfl, rfl⟩
          · exact hm.agrees b hb
      | take i =>
          refine ⟨hm.replies, fun b hb ↦ ?_⟩
          replace hb : ((run nextId actions).1.take i).2.builder? number = some b := hb
          rw [builder?_take] at hb
          split at hb
          · exact nomatch hb
          · exact hm.agrees b hb
      | ask i request =>
          rcases act_ask (run nextId actions) i request with hact | ⟨b, r, ha, hact⟩
          · rw [hact]
            exact hm
          · rw [hact]
            by_cases hi : i = number
            · subst hi
              exact hm.answered ht hsize hforeign ha
            · exact hm.answered_other hi ha

/-! ## Requests with handles -/

/-- A request whose handles have all been given away can be made. -/
theorem mapM_eq_some {request : Request Nat}
    (hh : ∀ handle ∈ request.labels, handle < s.labels.size) (default : Label) :
    (request.mapM fun handle ↦ s.labels[handle]?) =
      some (request.map fun handle ↦ s.labels[handle]?.getD default) := by
  apply Request.mapM_eq_some
  intro handle hmem
  rw [Array.getElem?_eq_getElem (hh handle hmem), Option.getD_some]

/-- A refusal that changes nothing in the builder changes nothing in the session. -/
theorem answered_refused (hb : s.builder? number = some b) (hj : b.journal = #[])
    (e : BuildError) : s.answered number (.error e, b) = s := by
  have hget : s.builders[number]? = some (some b) := Option.join_eq_some_iff.mp hb
  have hbuilder : { b with journal := #[] } = b := by rw [← hj]
  have hkeep : s.builders.setIfInBounds number (some b) = s.builders := by
    apply Array.ext_getElem?
    intro i
    rw [Array.getElem?_setIfInBounds]
    split
    · next hi => rw [← hi, hget, if_pos (lt_size_of_builder? hb)]
    · rfl
  show Session.mk (s.builders.setIfInBounds number (some { b with journal := #[] }))
    (s.labels ++ #[]) s.nextId (s.journal ++ b.journal) = s
  rw [hbuilder, hkeep, hj, Array.append_empty, Array.append_empty]

/-- In a session with at most 2³² builders, whatever is asked of which of them in which order and
with whose handles, each builder is isolated from the others, and it is there until it is taken
away. -/
theorem isolated_run (nextId : UInt32) (actions : List Action)
    (hcount : actions.count .create ≤ 2 ^ 32) (number : Nat) (id : UInt32) (foreign : Label)
    (hforeign : foreign.owner ≠ id) :
    Isolated (run nextId actions).1 number (exchangesWith number (run nextId actions).2) id
        foreign ∧
      (number < actions.count .create → .take number ∉ actions →
        ((run nextId actions).1.builder? number).isSome) := by
  have ht := tracks_run nextId actions
  have hm := matches_run nextId hcount number hforeign
  have hsize : (run nextId actions).1.builders.size ≤ 2 ^ 32 := by
    rw [size_builders_run]
    exact hcount
  refine ⟨⟨hm.replies, hm.agrees, ?_, ?_, ?_⟩, isSome_builder?_run⟩
  · intro words hw
    obtain ⟨b, hb, rfl⟩ := Option.map_eq_some_iff.mp hw
    exact (hm.agrees b hb).words
  · intro b hb request hh
    exact ⟨_, congrArg Prod.fst (ask_eq hb (mapM_eq_some hh foreign))⟩
  · intro b hb request hh handle hmem hother
    have howner := ht.owner_ne foreign hsize hb (hh handle hmem) hother
    rw [ask_eq hb (mapM_eq_some hh foreign), Builder.answer_of_foreign hmem howner,
      answered_refused hb (ht.journal number b hb)]
    rfl

/-- Two builders with the last identity and the first have each defined a label, both at the place
zero.  The second refuses the label of the first all the same. -/
theorem isolated_run_wrapping :
    Isolated (run 0xFFFFFFFF [.create, .create, .ask 0 .define, .ask 1 .define]).1 1
        [⟨1, .define, .ok (.label 1)⟩] 7 ⟨8, 0⟩ ∧
      (run 0xFFFFFFFF [.create, .create, .ask 0 .define, .ask 1 .define]).1.ask 1 (.mark 0) =
        (some (.error .foreignLabel),
          (run 0xFFFFFFFF [.create, .create, .ask 0 .define, .ask 1 .define]).1) := by
  have hown : exchangesWith 1
      (run 0xFFFFFFFF [.create, .create, .ask 0 .define, .ask 1 .define]).2 =
        [⟨1, .define, .ok (.label 1)⟩] := rfl
  have hbuilder : (run 0xFFFFFFFF
      [.create, .create, .ask 0 .define, .ask 1 .define]).1.builder? 1 =
        some { id := 0, slots := #[{}] } := rfl
  have hsize : (run 0xFFFFFFFF
      [.create, .create, .ask 0 .define, .ask 1 .define]).1.labels.size = 2 := rfl
  obtain ⟨h, -⟩ := isolated_run 0xFFFFFFFF [.create, .create, .ask 0 .define, .ask 1 .define]
    (by decide) 1 7 ⟨8, 0⟩ (by decide)
  rw [hown] at h
  refine ⟨h, h.refused _ hbuilder (.mark 0) ?_ 0 List.mem_cons_self (by decide)⟩
  intro handle hh
  obtain rfl := List.mem_singleton.mp hh
  rw [hsize]
  decide

end Session

end Dcpu16
