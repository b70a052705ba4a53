import NginBase.Async.CancellationStory
import NginBase.Library.Tables

namespace NginBase.Async.Cancellation

open Library Library.Interleaving Function List Option State

namespace State

variable (s : State)

def content (a : Nat) : Option (Option Entry) :=
  (s.memory a).map fun registration => registration.source.map fun source =>
    ⟨source, registration.context, registration.callback⟩

def view : View := ⟨s.content, s.canceled, s.stack, s.fresh, s.log⟩

def indexOf (a : Nat) : Option Nat := (s.memory a).bind Registration.index

/-- An empty registration has no callback. -/
def Silent : Prop := ∀ a registration, s.memory a = some registration → registration.source = none → registration.callback = false

/-- The vector of a source has the registrations that belong to it, at their indices, until it is canceled. -/
structure Vectors : Prop where
  indexed : ∀ source, Indexed s.indexOf (s.registrations source)
  members : ∀ source a, a ∈ s.registrations source ↔
    s.canceled source = false ∧ ∃ e, s.content a = some (some e) ∧ e.source = source
  empty : s.Silent
  safe : s.misused = false

variable {s s' : State} {a b source i : Nat} {registration other : Registration}

theorem Silent.store (silent : s.Silent) (callback : registration.source = none → registration.callback = false) :
    (s.store a registration).Silent := by
  intro b other stored none_
  by_cases same : b = a
  · obtain rfl : registration = other := by simpa [State.store, same] using stored
    exact callback none_
  · exact silent b other (by simpa [State.store, same] using stored) none_

theorem content_of (found : s.memory a = some registration) :
    s.content a = some (registration.source.map fun source => ⟨source, registration.context, registration.callback⟩) := by
  rw [content, found]
  rfl

theorem content_belongs (found : s.memory a = some registration) (belongs : registration.source = some source) :
    s.content a = some (some ⟨source, registration.context, registration.callback⟩) := by
  rw [content_of found, belongs]
  rfl

theorem memory_of {e : Entry} (content : s.content a = some (some e)) :
    ∃ registration, s.memory a = some registration ∧ registration.source = some e.source := by
  obtain ⟨registration, found, entry⟩ := map_eq_some_iff.mp content
  obtain ⟨source, belongs, rfl⟩ := map_eq_some_iff.mp entry
  exact ⟨registration, found, belongs⟩

theorem content_store (a : Nat) (registration : Registration) : (s.store a registration).content = update s.content a
      (some (registration.source.map fun source => ⟨source, registration.context, registration.callback⟩)) := by
  funext b
  by_cases same : b = a
  · subst same
    simp [content, store]
  · simp [content, store, same]

theorem indexOf_store (a : Nat) (registration : Registration) :
    (s.store a registration).indexOf = update s.indexOf a registration.index := by
  funext b
  by_cases same : b = a
  · subst same
    simp [indexOf, store]
  · simp [indexOf, store, same]

theorem Vectors.position_open (vectors : s.Vectors) (found : s.memory a = some registration)
    (belongs : registration.source = some source) (open_ : s.canceled source = false) :
    ∃ i, registration.index = some i ∧ (s.registrations source)[i]? = some a ∧
      position (s.registrations source) a registration.index = some i := by
  have mem := (vectors.members source a).mpr ⟨open_, _, content_belongs found belongs, rfl⟩
  obtain ⟨i, place⟩ := mem_iff_getElem?.mp mem
  have index : registration.index = some i := by
    have said := vectors.indexed source i a place
    simpa [indexOf, found] using said
  refine ⟨i, index, place, ?_⟩
  simp [position, index, place]

theorem Vectors.position_canceled (vectors : s.Vectors) (closed : s.canceled source = true) (a : Nat) (index : Option Nat) :
    s.registrations source = [] ∧ position (s.registrations source) a index = none := by
  have empty : s.registrations source = [] := by
    apply eq_nil_iff_forall_not_mem.mpr
    intro b mem
    have open_ := ((vectors.members source b).mp mem).1
    rw [closed] at open_
    contradiction
  refine ⟨empty, ?_⟩
  rw [empty]
  cases index <;> simp [position]

/-- A registration has been taken out of the vector of its source, and only indices have changed. -/
structure Removed (s t : State) (source a : Nat) : Prop where
  canceled : t.canceled = s.canceled
  stack : t.stack = s.stack
  fresh : t.fresh = s.fresh
  log : t.log = s.log
  misused : t.misused = s.misused
  content : t.content = s.content
  others : ∀ other, other ≠ source → t.registrations other = s.registrations other
  indexed : Indexed t.indexOf (t.registrations source)
  members : ∀ b, b ∈ t.registrations source ↔ b ∈ s.registrations source ∧ b ≠ a
  indices : ∀ b, b ∉ s.registrations source → t.indexOf b = s.indexOf b
  empty : t.Silent

theorem Vectors.removed_canceled (vectors : s.Vectors) (closed : s.canceled source = true) (a : Nat) (index : Option Nat) :
    Removed s (s.unregister source a index) source a := by
  obtain ⟨none_, nowhere⟩ := vectors.position_canceled closed a index
  have same : s.unregister source a index = s := by rw [unregister, nowhere]
  rw [same]
  constructor
  · rfl
  · rfl
  · rfl
  · rfl
  · rfl
  · rfl
  · intro _ _
    rfl
  · exact vectors.indexed source
  · intro b
    simp [none_]
  · intro _ _
    rfl
  · exact vectors.empty

theorem Vectors.removed_open (vectors : s.Vectors) (found : s.memory a = some registration)
    (belongs : registration.source = some source) (open_ : s.canceled source = false) :
    Removed s (s.unregister source a registration.index) source a := by
  obtain ⟨i, _, place, at_⟩ := vectors.position_open found belongs open_
  obtain ⟨moved, last⟩ : ∃ moved, (s.registrations source).getLast? = some moved := by
    cases last : (s.registrations source).getLast? with
    | none => simp [getLast?_eq_none_iff.mp last] at place
    | some moved => exact ⟨moved, rfl⟩
  have indexed := vectors.indexed source
  rw [unregister, at_]
  simp only [removeAt, last]
  split
  case isTrue final =>
    have same : moved = a := by
      rw [getLast?_eq_getElem?, ← final, place] at last
      exact (some.inj last).symm
    subst same
    have lists : ∀ other, other ≠ source → (s.setList source (s.registrations source).dropLast).registrations other =
        s.registrations other := fun other differ => update_of_ne differ _ _
    have list : (s.setList source (s.registrations source).dropLast).registrations source =
        (s.registrations source).dropLast := update_self ..
    constructor
    · rfl
    · rfl
    · rfl
    · rfl
    · rfl
    · rfl
    · exact lists
    · rw [list]
      exact indexed.dropLast
    · rw [list]
      exact indexed.mem_dropLast last
    · intro _ _
      rfl
    · exact vectors.empty
  case isFalse before =>
    have mem : moved ∈ s.registrations source := mem_of_getLast? last
    obtain ⟨_, e, content, _⟩ := (vectors.members source moved).mp mem
    obtain ⟨other, held, _⟩ := memory_of content
    obtain ⟨swapped, left⟩ := indexed.swapRemove place last before
    have result : (s.setList source ((s.registrations source).set i moved).dropLast).setIndex moved i =
        (s.setList source ((s.registrations source).set i moved).dropLast).store moved { other with index := some i } := by
      simp [setIndex, setList, held]
    have list : ((s.setList source ((s.registrations source).set i moved).dropLast).store moved
        { other with index := some i }).registrations source = ((s.registrations source).set i moved).dropLast :=
      update_self ..
    rw [result]
    constructor
    · rfl
    · rfl
    · rfl
    · rfl
    · rfl
    · rw [content_store]
      apply update_eq_iff.mpr
      exact ⟨(content_of held).symm, fun _ _ => rfl⟩
    · intro other differ
      exact update_of_ne differ _ _
    · rw [list, indexOf_store]
      exact swapped
    · rw [list]
      exact left
    · intro b outside
      have differ : b ≠ moved := by
        rintro rfl
        exact outside mem
      rw [indexOf_store]
      exact update_of_ne differ _ _
    · exact Silent.store (s := s.setList source _) vectors.empty (vectors.empty moved other held)

theorem Removed.store (removed : Removed s s' source a) (vectors : s.Vectors) {e : Entry}
    (content : s.content a = some (some e)) (belongs : e.source = source) : (s'.store a {}).Vectors where
  indexed other := by
    rw [indexOf_store]
    by_cases same : other = source
    · subst same
      apply removed.indexed.congr
      intro b mem
      exact update_of_ne ((removed.members b).mp mem).2 _ _
    have list : (s'.store a {}).registrations other = s.registrations other := removed.others other same
    rw [list]
    apply (vectors.indexed other).congr
    intro b mem
    obtain ⟨_, f, known, owner⟩ := (vectors.members other b).mp mem
    have differ : b ≠ a := by
      rintro rfl
      obtain rfl := some.inj (some.inj (content.symm.trans known))
      exact same (owner.symm.trans belongs)
    rw [update_of_ne differ]
    apply removed.indices
    intro mine
    obtain ⟨_, f', known', owner'⟩ := (vectors.members source b).mp mine
    obtain rfl := some.inj (some.inj (known.symm.trans known'))
    exact same (owner.symm.trans owner')
  members other b := by
    have before := vectors.members other b
    rw [← removed.content] at before
    have list : (s'.store a {}).registrations other = s'.registrations other := rfl
    have canceled : (s'.store a {}).canceled = s.canceled := removed.canceled
    rw [content_store, list, canceled]
    by_cases same : b = a
    · subst same
      have gone : b ∉ s'.registrations other := by
        by_cases mine : other = source
        · subst mine
          exact fun mem => ((removed.members b).mp mem).2 rfl
        rw [removed.others other mine]
        intro mem
        obtain ⟨_, f, known, owner⟩ := (vectors.members other b).mp mem
        obtain rfl := some.inj (some.inj (content.symm.trans known))
        exact mine (owner.symm.trans belongs)
      simp [gone]
    · rw [update_of_ne same, ← before]
      by_cases mine : other = source
      · subst mine
        simp [removed.members b, same]
      · rw [removed.others other mine]
  empty := removed.empty.store fun _ => rfl
  safe := removed.misused.trans vectors.safe

section

variable (vectors : s.Vectors)

include vectors

theorem note_vectors (events : List Event) : (s.note events).Vectors :=
  ⟨vectors.indexed, vectors.members, vectors.empty, vectors.safe⟩

theorem Vectors.reset (found : s.memory a = some registration) : (s.reset a).Vectors ∧ (s.reset a).view = s.view.reset a ∧
      ∃ empty, (s.reset a).memory a = some empty ∧ empty.source = none := by
  cases belongs : registration.source with
  | none =>
    have same : s.reset a = s := by simp [State.reset, found, belongs]
    rw [same]
    refine ⟨vectors, ?_, registration, found, belongs⟩
    have content : s.view.content a = some none := (content_of found).trans (by rw [belongs]; rfl)
    simp [View.reset, content]
  | some source =>
    have removed : Removed s (s.unregister source a registration.index) source a := by
      cases open_ : s.canceled source with
      | false => exact vectors.removed_open found belongs open_
      | true => exact vectors.removed_canceled open_ a registration.index
    have result : s.reset a = ((s.unregister source a registration.index).store a {}).note (about registration .dropped) := by
      simp [State.reset, found, belongs]
    rw [result]
    have content : s.view.content a = some (some ⟨source, registration.context, registration.callback⟩) :=
      content_belongs found belongs
    refine ⟨note_vectors (removed.store vectors content rfl) _, ?_, {}, ?_, rfl⟩
    · simp only [View.reset, content]
      have contents : ((s.unregister source a registration.index).store a {}).content =
          Function.update s.content a (some none) := by
        rw [content_store, removed.content]
        rfl
      simp only [view, View.note, View.mk.injEq]
      exact ⟨contents, removed.canceled, removed.stack, removed.fresh, congrArg (· ++ _) removed.log⟩
    · exact Function.update_self ..

theorem Vectors.outside (empty : s.content a = some none) (source : Nat) : a ∉ s.registrations source := by
  intro mem
  obtain ⟨_, e, content, _⟩ := (vectors.members source a).mp mem
  rw [empty] at content
  exact absurd (some.inj content) nofun

theorem Vectors.transfer (found : s.memory b = some other) (differ : a ≠ b) {lists : Nat → List Nat}
    {index : Option Nat} (left : ∀ source, b ∉ lists source)
    (taken : ∀ source, a ∈ lists source ↔ b ∈ s.registrations source)
    (others : ∀ source c, c ≠ a → c ≠ b → (c ∈ lists source ↔ c ∈ s.registrations source))
    (indexed : ∀ source, Indexed (update s.indexOf a index) (lists source)) :
    (({ s with registrations := lists }.store a { other with index := index }).store b {}).Vectors ∧
      (({ s with registrations := lists }.store a { other with index := index }).store b {}).view = s.view.moveFrom a b := by
  have content : (({ s with registrations := lists }.store a { other with index := index }).store b {}).content =
      update (update s.content a (s.content b)) b (some none) := by
    rw [content_store, content_store, content_of found]
    rfl
  constructor
  · constructor
    · intro source
      rw [indexOf_store, indexOf_store]
      exact (indexed source).update (left source) _
    · intro source c
      rw [content]
      by_cases first : c = b
      · subst first
        have gone : c ∉ lists source := left source
        simp [store, gone]
      · rw [update_of_ne first]
        by_cases second : c = a
        · subst second
          rw [update_self]
          exact (taken source).trans (vectors.members source b)
        · rw [update_of_ne second]
          exact (others source c second first).trans (vectors.members source c)
    · have moved : ({ s with registrations := lists }.store a { other with index := index }).Silent :=
        Silent.store (s := { s with registrations := lists }) vectors.empty (vectors.empty b other found)
      exact moved.store fun _ => rfl
    · exact vectors.safe
  · simp only [view, content]
    rfl

theorem Vectors.moveFrom (empty : s.content a = some none) (found : s.memory b = some other) (differ : a ≠ b) :
    (s.moveFrom a b).Vectors ∧ (s.moveFrom a b).view = s.view.moveFrom a b := by
  have outside := vectors.outside empty
  cases belongs : other.source with
  | none =>
    have nothing : s.content b = some none := (content_of found).trans (by rw [belongs]; rfl)
    have result : s.moveFrom a b = (({ s with registrations := s.registrations }.store a
        { other with index := other.index }).store b {}) := by
      simp [State.moveFrom, found, belongs]
    rw [result]
    apply vectors.transfer found differ (vectors.outside nothing)
    · intro source
      simp [outside source, vectors.outside nothing source]
    · intro _ _ _ _
      rfl
    · exact fun source => (vectors.indexed source).update (outside source) _
  | some source =>
    have content := content_belongs found belongs
    cases open_ : s.canceled source with
    | true =>
      obtain ⟨none_, nowhere⟩ := vectors.position_canceled open_ b other.index
      have unlisted : ∀ source, b ∉ s.registrations source := by
        intro source' mem
        obtain ⟨still, e, known, rfl⟩ := (vectors.members source' b).mp mem
        obtain rfl := some.inj (some.inj (content.symm.trans known))
        rw [open_] at still
        contradiction
      have result : s.moveFrom a b = (({ s with registrations := s.registrations }.store a
          { other with index := other.index }).store b {}) := by
        simp [State.moveFrom, found, belongs, nowhere]
      rw [result]
      apply vectors.transfer found differ unlisted
      · intro source
        simp [outside source, unlisted source]
      · intro _ _ _ _
        rfl
      · exact fun source => (vectors.indexed source).update (outside source) _
    | false =>
      obtain ⟨i, index, place, at_⟩ := vectors.position_open found belongs open_
      have indexed := vectors.indexed source
      obtain ⟨self, swapped⟩ := indexed.mem_replace (a := a) place
      have result : s.moveFrom a b =
          ((s.setList source ((s.registrations source).set i a)).store a { other with index := some i }).store b {} := by
        simp [State.moveFrom, found, belongs, at_]
      rw [result]
      have elsewhere : ∀ other', other' ≠ source → b ∉ s.registrations other' := by
        intro other' apart mem
        obtain ⟨_, e, known, rfl⟩ := (vectors.members other' b).mp mem
        obtain rfl := some.inj (some.inj (content.symm.trans known))
        exact apart rfl
      apply vectors.transfer found differ
      · intro other' mem
        by_cases same : other' = source
        · subst same
          rw [update_self] at mem
          exact ((swapped b (Ne.symm differ)).mp mem).2 rfl
        · rw [update_of_ne same] at mem
          exact elsewhere other' same mem
      · intro other'
        by_cases same : other' = source
        · subst same
          simp [self, mem_of_getElem? place]
        · simp [same, outside other', elsewhere other' same]
      · intro other' c first second
        by_cases same : other' = source
        · subst same
          simp [swapped c first, second]
        · simp [same]
      intro other'
      by_cases same : other' = source
      · subst same
        rw [update_self]
        exact indexed.replace (outside other')
      · rw [update_of_ne same]
        exact (vectors.indexed other').update (outside other') _

theorem Vectors.change (free : ∀ e, s.content a ≠ some (some e)) {memory : Nat → Option Registration}
    (others : ∀ b, b ≠ a → memory b = s.memory b)
    (empty : ∀ registration, memory a = some registration → registration.source = none ∧ registration.callback = false) :
    { s with memory := memory }.Vectors := by
  have outside : ∀ source, a ∉ s.registrations source := by
    intro source mem
    obtain ⟨_, e, content, _⟩ := (vectors.members source a).mp mem
    exact free e content
  have same : ∀ b, b ≠ a → { s with memory := memory }.content b = s.content b := by
    intro b differ
    simp only [content, others b differ]
  constructor
  · intro source
    apply (vectors.indexed source).congr
    intro b mem
    have differ : b ≠ a := by
      rintro rfl
      exact outside source mem
    simp only [indexOf, others b differ]
  · intro source b
    by_cases at_ : b = a
    · subst at_
      constructor
      · intro mem
        exact absurd mem (outside source)
      · rintro ⟨_, e, content, _⟩
        obtain ⟨registration, found, belongs⟩ := memory_of content
        rw [(empty registration found).1] at belongs
        contradiction
    · rw [same b at_]
      exact vectors.members source b
  · intro b registration found none_
    by_cases at_ : b = a
    · subst at_
      exact (empty registration found).2
    · exact vectors.empty b registration (others b at_ ▸ found) none_
  · exact vectors.safe

end

theorem content_update (a : Nat) (r : Option Registration) : { s with memory := update s.memory a r }.content =
    update s.content a (r.map fun r => r.source.map fun source => ⟨source, r.context, r.callback⟩) := by
  funext b
  by_cases same : b = a
  · subst same
    simp [content]
  · simp [content, same]

section

variable (vectors : s.Vectors)

include vectors

theorem Vectors.construct (free : ∀ e, s.content a ≠ some (some e)) :
    (s.store a {}).Vectors ∧ (s.store a {}).view = s.view.setContent a (some none) := by
  constructor
  · apply vectors.change free
    · intro b differ
      exact update_of_ne differ _ _
    · intro registration found
      obtain rfl : ({} : Registration) = registration := by simpa using found
      exact ⟨rfl, rfl⟩
  · simp only [view, content_store]
    rfl

theorem Vectors.destroy (found : s.memory a = some registration) :
    (s.destroy a).Vectors ∧ (s.destroy a).view = (s.view.reset a).setContent a none := by
  obtain ⟨after, same, empty, left, none_⟩ := vectors.reset found
  constructor
  · apply after.change
    · intro e content
      rw [content_of left, none_] at content
      exact absurd (some.inj content) nofun
    · intro b differ
      exact update_of_ne differ _ _
    · intro registration gone
      simp at gone
  · rw [← same]
    simp only [view, State.destroy, content_update]
    rfl

theorem Vectors.enroll (empty : s.content a = some none) (open_ : s.canceled source = false) (resume callback : Bool) :
    (s.enroll a source resume callback).Vectors ∧
      (s.enroll a source resume callback).view = s.view.enroll a source callback := by
  have outside := vectors.outside empty
  have content : (s.enroll a source resume callback).content =
      update s.content a (some (some ⟨source, s.fresh, callback⟩)) := content_store a _
  have indices : (s.enroll a source resume callback).indexOf =
      update s.indexOf a (some (s.registrations source).length) := indexOf_store a _
  constructor
  · constructor
    · intro other
      rw [indices]
      by_cases same : other = source
      · subst same
        have list : (s.enroll a other resume callback).registrations other = s.registrations other ++ [a] :=
          update_self ..
        rw [list]
        exact (vectors.indexed other).push (outside other)
      have list : (s.enroll a source resume callback).registrations other = s.registrations other :=
        update_of_ne same _ _
      rw [list]
      exact (vectors.indexed other).update (outside other) _
    · intro other b
      rw [content]
      have canceled : (s.enroll a source resume callback).canceled = s.canceled := rfl
      rw [canceled]
      have lists : b ∈ (s.enroll a source resume callback).registrations other ↔
          b ∈ s.registrations other ∨ (other = source ∧ b = a) := by
        by_cases same : other = source
        · subst same
          simp [enroll, note, setList]
        · simp [State.enroll, note, setList, State.store, same]
      rw [lists]
      by_cases at_ : b = a
      · subst at_
        rw [update_self]
        constructor
        · rintro (mem | ⟨rfl, _⟩)
          · exact absurd mem (outside other)
          · exact ⟨open_, _, rfl, rfl⟩
        · rintro ⟨_, e, found, rfl⟩
          obtain rfl := some.inj (some.inj found)
          exact .inr ⟨rfl, rfl⟩
      · simpa [at_] using vectors.members other b
    · exact Silent.store (s := s.setList source (s.registrations source ++ [a])) vectors.empty nofun
    · exact vectors.safe
  · simp only [view, content]
    rfl

theorem Vectors.refuse (empty : s.content a = some none) (resume callback : Bool) :
    (s.refuse a source resume callback).Vectors ∧
      (s.refuse a source resume callback).view = s.view.refuse a source resume callback := by
  have free : ∀ e, s.content a ≠ some (some e) := fun e found => absurd (Option.some.inj (empty.symm.trans found)) nofun
  obtain ⟨after, same⟩ := vectors.construct free
  have content : (s.store a {}).content = Function.update s.content a (some none) := congrArg View.content same
  cases callback with
  | false =>
    refine ⟨⟨after.indexed, after.members, after.empty, after.safe⟩, ?_⟩
    simp only [State.refuse, View.refuse, view, Bool.false_eq_true, if_false, note, View.note, View.mk.injEq]
    exact ⟨content, rfl, rfl, trivial, rfl⟩
  | true =>
    refine ⟨⟨after.indexed, after.members, after.empty, after.safe⟩, ?_⟩
    simp only [State.refuse, View.refuse, view, if_true, note, View.note, push, View.mk.injEq]
    exact ⟨content, rfl, rfl, trivial, rfl⟩

theorem Vectors.cancel (open_ : s.canceled source = false) : (s.cancel source).Vectors ∧
    (s.cancel source).view = s.view.cancel source (s.registrations source) := by
  have result : s.cancel source = { s with
      canceled := update s.canceled source true, registrations := update s.registrations source [],
      stack := .looping source (s.registrations source) :: s.stack } := by
    simp [State.cancel, open_]
  rw [result]
  refine ⟨?_, rfl⟩
  constructor
  · intro other
    by_cases same : other = source
    · subst same
      simp [Indexed]
    · have list : update s.registrations source [] other = s.registrations other := update_of_ne same _ _
      simp only [list]
      exact vectors.indexed other
  · intro other b
    by_cases same : other = source
    · subst same
      simp
    · simpa [same, content] using vectors.members other b
  · exact vectors.empty
  · exact vectors.safe

theorem Vectors.disarm (found : s.memory a = some registration) :
    (s.store a { registration with armed := false }).Vectors ∧ (s.store a { registration with armed := false }).view = s.view := by
  have content : (s.store a { registration with armed := false }).content = s.content := by
    rw [content_store]
    apply update_eq_iff.mpr
    exact ⟨(content_of found).symm, fun _ _ => rfl⟩
  have indices : (s.store a { registration with armed := false }).indexOf = s.indexOf := by
    rw [indexOf_store]
    apply update_eq_iff.mpr
    exact ⟨by simp [indexOf, found], fun _ _ => rfl⟩
  constructor
  · constructor
    · intro source
      rw [indices]
      exact vectors.indexed source
    · intro source b
      rw [content]
      exact vectors.members source b
    · exact vectors.empty.store (vectors.empty a registration found)
    · exact vectors.safe
  · simp only [view, content]
    rfl

end

structure Inv (s : State) : Prop where
  vectors : s.Vectors
  story : Story s.view

theorem start_inv : start.Inv where
  vectors := by
    constructor
    · intro source i a found
      simp [start] at found
    · intro source a
      simp [start, content]
    · intro a registration found
      simp [start] at found
    · rfl
  story := by
    constructor
    · intro a mem
      exact absurd mem not_mem_nil
    · exact nodup_nil
    · intro a mem
      exact absurd mem not_mem_nil
    · intro a b e e' found
      simp [view, start, content] at found
    · intro a e found
      simp [view, start, content] at found
    · intro event mem
      exact absurd mem not_mem_nil
    · intro a e found
      simp [view, start, content] at found
    · intro context source mem
      exact absurd mem not_mem_nil
    · intro context mem
      exact absurd mem not_mem_nil
    · exact Told.nil

theorem exists_content (present : s.memory a ≠ none) : ∃ registration, s.memory a = some registration := by
  cases found : s.memory a with
  | none => exact absurd found present
  | some registration => exact ⟨registration, rfl⟩

theorem Inv.reset (inv : s.Inv) (present : s.memory a ≠ none) : (s.reset a).Inv ∧ (s.reset a).content a = some none ∧
    (∀ b, b ≠ a → (s.reset a).content b = s.content b) ∧ (s.reset a).stack = s.stack ∧ (s.reset a).canceled = s.canceled := by
  obtain ⟨registration, found⟩ := exists_content present
  obtain ⟨vectors, same, empty, left, none_⟩ := inv.vectors.reset found
  have others : ∀ b, b ≠ a → (s.view.reset a).content b = s.content b := by
    intro b differ
    unfold View.reset
    split
    · exact update_of_ne differ _ _
    · rfl
  have kept : (s.view.reset a).stack = s.stack ∧ (s.view.reset a).canceled = s.canceled := by
    unfold View.reset
    split
    · exact ⟨rfl, rfl⟩
    · exact ⟨rfl, rfl⟩
  rw [← same] at others kept
  refine ⟨⟨vectors, ?_⟩, ?_, others, kept⟩
  · rw [same]
    exact inv.story.reset a
  · rw [content_of left, none_]
    rfl

theorem content_present {b : Nat} (present : s.memory b ≠ none) : s.content b ≠ none := by
  obtain ⟨registration, found⟩ := exists_content present
  rw [content_of found]
  nofun

theorem memory_present (present : s.content b ≠ none) : s.memory b ≠ none := by
  intro gone
  apply present
  rw [content, gone]
  rfl

theorem Inv.moveFrom (inv : s.Inv) (empty : s.content a = some none) (present : s.memory b ≠ none) (differ : a ≠ b)
    (moves : ∀ e, s.content b = some (some e) → (b ∈ pending s.stack → Due e.source a s.stack) ∧
      (b ∉ pending s.stack → a ∉ pending s.stack)) : (s.moveFrom a b).Inv := by
  obtain ⟨other, found⟩ := exists_content present
  obtain ⟨vectors, same⟩ := inv.vectors.moveFrom empty found differ
  refine ⟨vectors, ?_⟩
  rw [same]
  exact inv.story.moveFrom empty (content_present present) differ moves

theorem moves_content (moves : s.Moves a b) (e : Entry) (content : s.content b = some (some e)) :
    (b ∈ pending s.stack → Due e.source a s.stack) ∧ (b ∉ pending s.stack → a ∉ pending s.stack) := by
  obtain ⟨registration, found, belongs⟩ := memory_of content
  exact moves registration e.source found belongs

section

variable (inv : s.Inv)

include inv

theorem Inv.construct (acted : s.construct a = some s') : s'.Inv ∧ s'.content a = some none ∧
    (∀ b, b ≠ a → s'.content b = s.content b) ∧ (∀ b, b ≠ a → s'.memory b = s.memory b) ∧ s'.stack = s.stack := by
  unfold State.construct at acted
  split at acted
  case isFalse => contradiction
  case isTrue gone =>
    obtain rfl := some.inj acted
    have free : ∀ e, s.content a ≠ some (some e) := by
      intro e content
      obtain ⟨registration, found, _⟩ := memory_of content
      rw [gone] at found
      contradiction
    obtain ⟨vectors, same⟩ := inv.vectors.construct free
    have content := content_store (s := s) a {}
    refine ⟨⟨vectors, ?_⟩, ?_, ?_, ?_, rfl⟩
    · rw [same]
      exact inv.story.construct free
    · rw [content]
      exact update_self ..
    · intro b differ
      rw [content]
      exact update_of_ne differ _ _
    · intro b differ
      exact update_of_ne differ _ _

theorem Inv.cancel (source : Nat) : (s.cancel source).Inv := by
  cases open_ : s.canceled source with
  | true =>
    have same : s.cancel source = s := by simp [State.cancel, open_]
    rwa [same]
  | false =>
    obtain ⟨vectors, same⟩ := inv.vectors.cancel open_
    refine ⟨vectors, ?_⟩
    rw [same]
    apply inv.story.cancel open_ (inv.vectors.indexed source).nodup
    intro a
    have members := inv.vectors.members source a
    simpa [open_, view] using members

theorem Inv.register (present : s.memory a ≠ none) {token : Option Nat} {resume callback : Bool}
    (orderly : s.Orderly (.register a token resume callback)) : (s.register a token resume callback).Inv := by
  obtain ⟨after, empty, _, stack, canceled⟩ := inv.reset present
  unfold State.register
  cases token with
  | none => exact after
  | some source =>
    simp only
    split
    case isFalse => exact after
    case isTrue wanted =>
      cases open_ : s.canceled source with
      | true =>
        obtain ⟨vectors, same⟩ : ((s.reset a).refuse a source resume callback).Vectors ∧ _ :=
          after.vectors.refuse empty resume callback
        refine ⟨vectors, ?_⟩
        simp only [if_true]
        rw [same]
        exact after.story.refuse empty ((congrFun canceled source).trans open_) resume callback
      | false =>
        have still : (s.reset a).canceled source = false := canceled ▸ open_
        obtain ⟨vectors, same⟩ := after.vectors.enroll empty still resume callback
        refine ⟨vectors, ?_⟩
        simp only [Bool.false_eq_true, if_false]
        rw [same]
        apply after.story.enroll empty still
        have unseen := orderly wanted open_
        rw [← stack] at unseen
        exact unseen

theorem Inv.fired (present : s.memory a ≠ none) (shouldResume : Bool) : (s.fired a shouldResume).Inv := by
  obtain ⟨registration, found⟩ := exists_content present
  unfold State.fired
  rw [found]
  simp only
  split
  case isFalse => exact inv
  case isTrue =>
    obtain ⟨vectors, same⟩ := inv.vectors.disarm found
    refine ⟨note_vectors vectors _, ?_⟩
    have told : ∀ events, ((s.store a { registration with armed := false }).note events).view = s.view.note events := by
      intro events
      rw [← same]
      rfl
    rw [told]
    split
    case isFalse => simpa [View.note] using inv.story
    case isTrue => exact inv.story.resumed _

theorem Inv.return_ {shouldResume : Bool} (acted : s.return_ shouldResume = some s') : s'.Inv := by
  unfold State.return_ at acted
  split at acted
  case h_1 a below top =>
    obtain rfl := some.inj acted
    have popped : { s with stack := below }.Inv :=
      ⟨⟨inv.vectors.indexed, inv.vectors.members, inv.vectors.empty, inv.vectors.safe⟩, inv.story.pop top⟩
    apply popped.fired
    apply memory_present
    apply inv.story.fired
    simp [view, top, firing]
  case h_2 resume context below top =>
    obtain rfl := some.inj acted
    refine ⟨⟨inv.vectors.indexed, inv.vectors.members, inv.vectors.empty, inv.vectors.safe⟩, ?_⟩
    have popped := inv.story.pop top
    split
    · exact popped.resumed context
    · have same : { s with stack := below }.note [] = { s with stack := below } := by simp [note]
      rw [same]
      exact popped
  case h_3 => contradiction

theorem Inv.proceed (acted : s.proceed = some s') : s'.Inv := by
  unfold State.proceed at acted
  split at acted
  case h_1 source below top =>
    obtain rfl := some.inj acted
    exact ⟨⟨inv.vectors.indexed, inv.vectors.members, inv.vectors.empty, inv.vectors.safe⟩, inv.story.finish top⟩
  case h_2 source a rest below top =>
    obtain rfl := some.inj acted
    have vectors : { s with stack := .looping source rest :: below }.Vectors :=
      ⟨inv.vectors.indexed, inv.vectors.members, inv.vectors.empty, inv.vectors.safe⟩
    have present : s.memory a ≠ none := by
      apply memory_present
      apply (inv.story.due a _).1
      simp [view, top, pending]
    obtain ⟨registration, found⟩ := exists_content present
    unfold fire
    simp only [found]
    split
    case isTrue callback =>
      refine ⟨⟨vectors.indexed, vectors.members, vectors.empty, vectors.safe⟩, ?_⟩
      cases belongs : registration.source with
      | none =>
        rw [inv.vectors.empty a registration found belongs] at callback
        contradiction
      | some owner => exact inv.story.invoke top (content_belongs found belongs) callback
    case isFalse silent =>
      have skipped : { s with stack := .looping source rest :: below }.Inv := by
        refine ⟨vectors, inv.story.skip top ?_⟩
        intro e content
        have same := content_of found
        rw [show s.content a = some (some e) from content] at same
        obtain ⟨owner, _, rfl⟩ := map_eq_some_iff.mp (some.inj same).symm
        simpa using silent
      exact skipped.fired present true
  case h_3 => contradiction

theorem Inv.act {action : Action} (orderly : s.Orderly action) (acted : s.act action = some s') : s'.Inv := by
  cases action with
  | construct a =>
    simp only [State.act] at acted
    split at acted
    · exact (inv.construct acted).1
    · contradiction
  | register a token resume callback =>
    simp only [State.act] at acted
    split at acted
    case isTrue allowed =>
      obtain rfl := some.inj acted
      exact inv.register allowed.2 orderly
    case isFalse => contradiction
  | reset a =>
    simp only [State.act] at acted
    split at acted
    case isTrue allowed =>
      obtain rfl := some.inj acted
      exact (inv.reset allowed.2).1
    case isFalse => contradiction
  | destroy a =>
    simp only [State.act] at acted
    split at acted
    case isTrue allowed =>
      obtain rfl := some.inj acted
      obtain ⟨registration, found⟩ := exists_content allowed.2
      obtain ⟨vectors, same⟩ := inv.vectors.destroy found
      obtain ⟨after, empty, _, stack, _⟩ := inv.reset allowed.2
      obtain ⟨_, reset, _⟩ := inv.vectors.reset found
      refine ⟨vectors, ?_⟩
      rw [same, ← reset]
      apply after.story.remove
      · intro e content
        have both := empty.symm.trans content
        exact absurd (some.inj both) nofun
      · rw [show (s.reset a).view.stack = s.stack from stack]
        exact orderly.1
      · rw [show (s.reset a).view.stack = s.stack from stack]
        exact orderly.2
    case isFalse => contradiction
  | moveConstruct a b =>
    simp only [State.act] at acted
    split at acted
    case isTrue allowed =>
      obtain ⟨middle, made, rfl⟩ := map_eq_some_iff.mp acted
      obtain ⟨fresh, empty, contents, memories, stack⟩ := inv.construct made
      have differ : a ≠ b := by
        rintro rfl
        unfold State.construct at made
        rw [if_neg allowed.2] at made
        contradiction
      apply fresh.moveFrom empty
      · rw [memories b (Ne.symm differ)]
        exact allowed.2
      · exact differ
      · intro e content
        rw [contents b (Ne.symm differ)] at content
        rw [stack]
        exact moves_content orderly e content
    case isFalse => contradiction
  | moveAssign a b =>
    simp only [State.act] at acted
    split at acted
    case isTrue allowed =>
      obtain rfl := some.inj acted
      unfold State.moveAssign
      split
      case isTrue => exact inv
      case isFalse differ =>
        obtain ⟨after, empty, contents, stack, _⟩ := inv.reset allowed.2.1
        apply after.moveFrom empty
        · apply memory_present
          rw [contents b (Ne.symm differ)]
          exact content_present allowed.2.2
        · exact differ
        · intro e content
          rw [contents b (Ne.symm differ)] at content
          rw [stack]
          exact moves_content (orderly differ) e content
    case isFalse => contradiction
  | cancel source =>
    simp only [State.act] at acted
    split at acted
    · obtain rfl := some.inj acted
      exact inv.cancel source
    · contradiction
  | return_ shouldResume => exact inv.return_ acted
  | proceed => exact inv.proceed acted

theorem Inv.exact : s.Exact where
  once := inv.story.told.once
  safe := inv.vectors.safe
  quiet := inv.story.told.quiet
  early := inv.story.early
  all context source registered closed := by
    rcases inv.story.lost context source registered with dropped | ⟨a, content⟩
    · exact .inr (.inl dropped)
    obtain ⟨_, _, turn⟩ := inv.story.held a _ content rfl
    by_cases due : a ∈ pending s.stack
    · apply Or.inr
      apply Or.inr
      obtain ⟨_, found, entry⟩ := map_eq_some_iff.mp content
      obtain ⟨owner, belongs, same⟩ := map_eq_some_iff.mp entry
      obtain ⟨rfl, rfl, callback⟩ : owner = source ∧ _ = context ∧ _ = true := by simpa using same
      exact ⟨a, ⟨_, found, belongs, callback, rfl⟩, ((inv.story.due a due).2 _ content).2⟩
    · exact .inl (turn.mpr ⟨closed, due⟩)
  late := inv.story.told.late
  again source closed := by simp [State.cancel, closed]

end

/-- The list of a source has its live registrations, each once and where its index says, and what takes one out or moves it
    leaves the others their entries. -/
structure Placed (s : State) : Prop where
  live : ∀ source a, a ∈ s.registrations source ↔
    ∃ registration, s.memory a = some registration ∧ registration.source = some source
  once : ∀ source, (s.registrations source).Nodup
  index : ∀ source i a, (s.registrations source)[i]? = some a →
    ∃ registration, s.memory a = some registration ∧ registration.index = some i
  /-- The index leads to the entry, so nothing has to be searched. -/
  fast : ∀ source a registration, s.memory a = some registration → registration.source = some source →
    ∃ i, registration.index = some i ∧ (s.registrations source)[i]? = some a
  unregisters : ∀ source a registration, s.memory a = some registration → registration.source = some source →
    (∀ b, b ∈ (s.unregister source a registration.index).registrations source ↔ b ∈ s.registrations source ∧ b ≠ a) ∧
      ∀ other, other ≠ source → (s.unregister source a registration.index).registrations other = s.registrations other
  moves : ∀ source a b registration, s.memory b = some registration → registration.source = some source →
    ∃ i, registration.index = some i ∧
      (s.moveFrom a b).registrations = update s.registrations source ((s.registrations source).set i a)

/-- No `Cancel` has begun. -/
structure Uncanceled (s : State) : Prop where
  inv : s.Inv
  stack : s.stack = []
  open_ : ∀ source, s.canceled source = false

theorem Uncanceled.placed (uncanceled : s.Uncanceled) : s.Placed := by
  obtain ⟨⟨vectors, _⟩, _, open_⟩ := uncanceled
  have at_ {source a : Nat} {registration : Registration} (found : s.memory a = some registration)
      (belongs : registration.source = some source) := vectors.position_open found belongs (open_ source)
  constructor
  · intro source a
    rw [vectors.members]
    constructor
    · rintro ⟨_, e, content, rfl⟩
      exact memory_of content
    · rintro ⟨registration, found, belongs⟩
      exact ⟨open_ source, _, content_belongs found belongs, rfl⟩
  · exact fun source => (vectors.indexed source).nodup
  · intro source i a place
    exact bind_eq_some_iff.mp (vectors.indexed source i a place)
  · intro source a registration found belongs
    obtain ⟨i, index, place, _⟩ := at_ found belongs
    exact ⟨i, index, place⟩
  · intro source a registration found belongs
    have removed := vectors.removed_open found belongs (open_ source)
    exact ⟨removed.members, removed.others⟩
  · intro source a b registration found belongs
    obtain ⟨i, index, _, found_⟩ := at_ found belongs
    refine ⟨i, index, ?_⟩
    simp [State.moveFrom, found, belongs, found_, setList, store]

theorem moveFrom_kept (a b : Nat) : (s.moveFrom a b).stack = s.stack ∧ (s.moveFrom a b).canceled = s.canceled := by
  unfold State.moveFrom
  split
  · split
    · split <;> exact ⟨rfl, rfl⟩
    · exact ⟨rfl, rfl⟩
  · exact ⟨rfl, rfl⟩

theorem moves_idle (idle : s.stack = []) : s.Moves a b := by
  intro _ _ _ _
  rw [idle]
  exact ⟨fun mem => absurd mem not_mem_nil, fun _ => not_mem_nil⟩

theorem Uncanceled.orderly (uncanceled : s.Uncanceled) (action : Action) : s.Orderly action := by
  have idle := uncanceled.stack
  cases action with
  | destroy a =>
    unfold Orderly
    rw [idle]
    exact ⟨not_mem_nil, not_mem_nil⟩
  | register a token resume callback =>
    cases token with
    | none => trivial
    | some source =>
      intro _ _
      rw [idle]
      exact not_mem_nil
  | moveConstruct a b => exact moves_idle idle
  | moveAssign a b => exact fun _ => moves_idle idle
  | _ => trivial

theorem Uncanceled.act {action : Action} (uncanceled : s.Uncanceled) (other : ∀ source, action ≠ .cancel source)
    (acted : s.act action = some s') : s'.Uncanceled := by
  obtain ⟨inv, idle, open_⟩ := uncanceled
  suffices kept : s'.stack = s.stack ∧ s'.canceled = s.canceled from
    ⟨inv.act (Uncanceled.orderly ⟨inv, idle, open_⟩ action) acted, kept.1.trans idle, fun source => kept.2 ▸ open_ source⟩
  cases action with
  | cancel source => exact absurd rfl (other source)
  | return_ shouldResume => simp [State.act, State.return_, idle] at acted
  | proceed => simp [State.act, State.proceed, idle] at acted
  | construct a =>
    obtain ⟨_, acted⟩ := ite_none_right_eq_some.mp acted
    obtain ⟨_, acted⟩ := ite_none_right_eq_some.mp acted
    obtain rfl := some.inj acted
    exact ⟨rfl, rfl⟩
  | register a token resume callback =>
    obtain ⟨allowed, acted⟩ := ite_none_right_eq_some.mp acted
    obtain rfl := some.inj acted
    have kept := (inv.reset allowed.2).2.2.2
    unfold State.register
    cases token with
    | none => exact kept
    | some source =>
      dsimp only
      rw [open_ source]
      split
      · exact kept
      · exact kept
  | reset a =>
    obtain ⟨allowed, acted⟩ := ite_none_right_eq_some.mp acted
    obtain rfl := some.inj acted
    exact (inv.reset allowed.2).2.2.2
  | destroy a =>
    obtain ⟨allowed, acted⟩ := ite_none_right_eq_some.mp acted
    obtain rfl := some.inj acted
    exact (inv.reset allowed.2).2.2.2
  | moveConstruct a b =>
    obtain ⟨_, acted⟩ := ite_none_right_eq_some.mp acted
    obtain ⟨middle, made, rfl⟩ := map_eq_some_iff.mp acted
    obtain ⟨_, made⟩ := ite_none_right_eq_some.mp made
    obtain rfl := some.inj made
    exact moveFrom_kept a b
  | moveAssign a b =>
    obtain ⟨allowed, acted⟩ := ite_none_right_eq_some.mp acted
    obtain rfl := some.inj acted
    unfold State.moveAssign
    split
    · exact ⟨rfl, rfl⟩
    have kept := (inv.reset allowed.2.1).2.2.2
    have moved := moveFrom_kept (s := s.reset a) a b
    exact ⟨moved.1.trans kept.1, moved.2.trans kept.2⟩

/-- As long as nothing is canceled, the registrations know their places. -/
theorem uncanceled_placed (actions : List Action) (ran : run act start actions = some s)
    (outside : ∀ source, .cancel source ∉ actions) : s.Placed := by
  apply Uncanceled.placed
  apply keeps _ (along_of_mem fun action mem _ source => ne_of_mem_of_not_mem mem (outside source)) ran ⟨start_inv, rfl, fun _ => rfl⟩
  intro s action s' uncanceled other acted
  exact uncanceled.act other acted

def swapRuns : List Action :=
  [.construct 1, .construct 2, .construct 3, .register 1 (some 0) false true, .register 2 (some 0) false true,
    .register 3 (some 0) true false, .reset 1, .register 2 (some 0) false true, .moveConstruct 4 3, .moveAssign 1 2]

theorem uncanceled_placed_swapped : ∃ s, run act start swapRuns = some s ∧ s.registrations 0 = [4, 1] ∧ s.Placed := by
  obtain ⟨s, ran, seen⟩ : ∃ s, run act start swapRuns = some s ∧ s.registrations 0 = [4, 1] := ⟨_, rfl, by decide⟩
  exact ⟨s, ran, seen, uncanceled_placed _ ran (by simp [swapRuns])⟩

end State

end NginBase.Async.Cancellation
