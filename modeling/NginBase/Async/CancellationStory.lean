import NginBase.Async.CancellationViews

namespace NginBase.Async.Cancellation

open List Option View Nat

variable {v : View} {a b source context : Nat} {below : List Frame} {rest : List Nat}

theorem mem_about {e : Entry} {event : Nat → Event} {x : Event} :
    x ∈ about e event ↔ e.callback = true ∧ x = event e.context := by
  unfold about
  split
  case isTrue callback => simp [callback]
  case isFalse callback => simp [callback]

section

variable (story : Story v)

include story

theorem Story.resumed (context : Nat) : Story (v.note [.resumed context]) where
  due := story.due
  distinct := story.distinct
  fired := story.fired
  unique := story.unique
  old := story.old
  past event mem := by
    rcases mem_append.mp mem with mem | mem
    · exact story.past event mem
    · rw [mem_singleton.mp mem]
      nofun
  held a e content callback := by
    simpa [note] using story.held a e content callback
  lost context source mem := by
    have before := story.lost context source (by simpa [note] using mem)
    simpa [note] using before
  early context mem := by
    have before := story.early context (by simpa [note] using mem)
    simpa [note] using before
  told := story.told.add (fun _ => nofun) (fun _ _ => nofun)

theorem Story.construct (free : ∀ e, v.content a ≠ some (some e)) : Story (v.setContent a (some none)) where
  due b mem := by
    by_cases same : b = a
    · subst same
      simp [setContent]
    · simpa [setContent, same] using story.due b mem
  distinct := story.distinct
  fired b mem := by
    by_cases same : b = a
    · subst same
      simp [setContent]
    · simpa [setContent, same] using story.fired b mem
  unique b c e e' first second := by
    have differ : b ≠ a := by
      rintro rfl
      simp [setContent] at first
    have differ' : c ≠ a := by
      rintro rfl
      simp [setContent] at second
    apply story.unique
    · simpa [setContent, differ] using first
    · simpa [setContent, differ'] using second
  old b e content := by
    have differ : b ≠ a := by
      rintro rfl
      simp [setContent] at content
    exact story.old b e (by simpa [setContent, differ] using content)
  past := story.past
  held b e content := by
    have differ : b ≠ a := by
      rintro rfl
      simp [setContent] at content
    exact story.held b e (by simpa [setContent, differ] using content)
  lost context source mem := by
    rcases story.lost context source mem with dropped | ⟨b, content⟩
    · exact .inl dropped
    apply Or.inr
    have differ : b ≠ a := by
      rintro rfl
      exact free _ content
    exact ⟨b, by simpa [setContent, differ] using content⟩
  early := story.early
  told := story.told

theorem Story.reset (a : Nat) : Story (v.reset a) := by
  unfold View.reset
  split
  case h_2 => exact story
  case h_1 e content =>
    have others : ∀ b f, (v.setContent a (some none)).content b = some (some f) → v.content b = some (some f) ∧ b ≠ a := by
      intro b f found
      have differ : b ≠ a := by
        rintro rfl
        simp [setContent] at found
      exact ⟨by simpa [setContent, differ] using found, differ⟩
    constructor
    · intro b mem
      by_cases same : b = a
      · subst same
        simp [note, setContent]
      · simpa [note, setContent, same] using story.due b mem
    · exact story.distinct
    · intro b mem
      by_cases same : b = a
      · subst same
        simp [note, setContent]
      · simpa [note, setContent, same] using story.fired b mem
    · intro b c f f' first second
      exact story.unique b c f f' (others b f first).1 (others c f' second).1
    · intro b f found
      exact story.old b f (others b f found).1
    · intro event mem
      rcases mem_append.mp mem with mem | mem
      · exact story.past event mem
      rw [(mem_about.mp mem).2]
      intro context same
      rw [← some.inj same]
      exact story.old a e content
    · intro b f found callback
      obtain ⟨before, differ⟩ := others b f found
      obtain ⟨registered, kept, turn⟩ := story.held b f before callback
      have apart : f.context ≠ e.context := fun same => differ (story.unique b a f e before content same)
      have plain : ∀ x, x ∈ (v.setContent a (some none)).log ++ about e .dropped ↔
          x ∈ v.log ∨ (e.callback = true ∧ x = .dropped e.context) := by
        intro x
        rw [mem_append, mem_about]
        rfl
      simp only [note, plain, reduceCtorEq, and_false, or_false, Event.dropped.injEq, apart]
      exact ⟨registered, kept, turn⟩
    · intro context source mem
      have before : .registered context source ∈ v.log := by
        rcases mem_append.mp mem with mem | mem
        · exact mem
        · exact absurd (mem_about.mp mem).2 nofun
      rcases story.lost context source before with dropped | ⟨b, held⟩
      · exact .inl (mem_append_left _ dropped)
      by_cases same : b = a
      · subst same
        apply Or.inl
        apply mem_append_right
        rw [content] at held
        obtain rfl := some.inj (some.inj held)
        exact mem_about.mpr ⟨rfl, rfl⟩
      · exact .inr ⟨b, by simpa [note, setContent, same] using held⟩
    · intro context mem
      have before : .invoked context ∈ v.log := by
        rcases mem_append.mp mem with mem | mem
        · exact mem
        · exact absurd (mem_about.mp mem).2 nofun
      obtain ⟨source, known, canceled⟩ := story.early context before
      exact ⟨source, known.imp (mem_append_left _) (mem_append_left _), canceled⟩
    · unfold about
      split
      · exact story.told.add (fun _ => nofun) (fun _ _ => nofun)
      · simpa [note, setContent] using story.told

theorem Story.remove (empty : ∀ e, v.content a ≠ some (some e)) (unseen : a ∉ pending v.stack)
    (over_ : a ∉ firing v.stack) : Story (v.setContent a none) := by
  have others : ∀ b f, (v.setContent a none).content b = some (some f) → v.content b = some (some f) := by
    intro b f found
    have differ : b ≠ a := by
      rintro rfl
      simp [setContent] at found
    simpa [setContent, differ] using found
  constructor
  · intro b mem
    have differ : b ≠ a := by
      rintro rfl
      exact unseen mem
    simpa [setContent, differ] using story.due b mem
  · exact story.distinct
  · intro b mem
    have differ : b ≠ a := by
      rintro rfl
      exact over_ mem
    simpa [setContent, differ] using story.fired b mem
  · intro b c f f' first second
    exact story.unique b c f f' (others b f first) (others c f' second)
  · intro b f found
    exact story.old b f (others b f found)
  · exact story.past
  · intro b f found
    exact story.held b f (others b f found)
  · intro context source mem
    rcases story.lost context source mem with dropped | ⟨b, held⟩
    · exact .inl dropped
    have differ : b ≠ a := by
      rintro rfl
      exact empty _ held
    exact .inr ⟨b, by simpa [setContent, differ] using held⟩
  · exact story.early
  · exact story.told

theorem Story.moveFrom (empty : v.content a = some none) (exists_ : v.content b ≠ none) (differ : a ≠ b)
    (moves : ∀ e, v.content b = some (some e) → (b ∈ pending v.stack → Due e.source a v.stack) ∧
      (b ∉ pending v.stack → a ∉ pending v.stack)) : Story (v.moveFrom a b) := by
  have atA : (v.moveFrom a b).content a = v.content b := by
    simp [View.moveFrom, View.setContent, differ]
  have atB : (v.moveFrom a b).content b = some none := by
    simp [View.moveFrom, View.setContent]
  have others : ∀ c, c ≠ a → c ≠ b → (v.moveFrom a b).content c = v.content c := by
    intro c first second
    simp [View.moveFrom, View.setContent, first, second]
  -- where a registration was before
  have from_ : ∀ c e, (v.moveFrom a b).content c = some (some e) → ∃ d, v.content d = some (some e) ∧
      ((c = a ∧ d = b) ∨ (c = d ∧ c ≠ a ∧ c ≠ b)) := by
    intro c e found
    by_cases first : c = a
    · subst first
      exact ⟨b, atA ▸ found, .inl ⟨rfl, rfl⟩⟩
    by_cases second : c = b
    · subst second
      rw [atB] at found
      exact absurd (some.inj found) nofun
    · exact ⟨c, others c first second ▸ found, .inr ⟨rfl, first, second⟩⟩
  have alive : ∀ c, v.content c ≠ none → (v.moveFrom a b).content c ≠ none := by
    intro c present
    by_cases first : c = a
    · subst first
      rwa [atA]
    by_cases second : c = b
    · subst second
      rw [atB]
      nofun
    · rwa [others c first second]
  constructor
  · intro c mem
    obtain ⟨present, due⟩ := story.due c mem
    refine ⟨alive c present, ?_⟩
    intro e found
    obtain ⟨d, before, ⟨rfl, rfl⟩ | ⟨rfl, _, _⟩⟩ := from_ c e found
    · by_cases turn : d ∈ pending v.stack
      · exact ⟨((story.due d turn).2 e before).1, (moves e before).1 turn⟩
      · exact absurd mem ((moves e before).2 turn)
    · exact due e before
  · exact story.distinct
  · intro c mem
    exact alive c (story.fired c mem)
  · intro c d e e' first second same
    obtain ⟨c', before, ⟨rfl, rfl⟩ | ⟨rfl, _, away⟩⟩ := from_ c e first
    · obtain ⟨d', before', ⟨rfl, rfl⟩ | ⟨rfl, _, away⟩⟩ := from_ d e' second
      · rfl
      · exact absurd (story.unique _ _ e e' before before' same).symm away
    · obtain ⟨d', before', ⟨rfl, rfl⟩ | ⟨rfl, _, _⟩⟩ := from_ d e' second
      · exact absurd (story.unique _ _ e e' before before' same) away
      · exact story.unique _ _ e e' before before' same
  · intro c e found
    obtain ⟨d, before, _⟩ := from_ c e found
    exact story.old d e before
  · exact story.past
  · intro c e found callback
    obtain ⟨d, before, ⟨rfl, rfl⟩ | ⟨rfl, _, _⟩⟩ := from_ c e found
    · obtain ⟨registered, kept, turn⟩ := story.held d e before callback
      refine ⟨registered, kept, ?_⟩
      have moved : c ∈ pending v.stack ↔ d ∈ pending v.stack := by
        constructor
        · intro mem
          by_contra turn
          exact (moves e before).2 turn mem
        · intro mem
          exact ((moves e before).1 mem).pending
      exact turn.trans (by rw [← moved]; rfl)
    · exact story.held c e before callback
  · intro context source mem
    rcases story.lost context source mem with dropped | ⟨c, held⟩
    · exact .inl dropped
    apply Or.inr
    by_cases first : c = b
    · subst first
      exact ⟨a, atA.trans held⟩
    have second : c ≠ a := by
      rintro rfl
      rw [empty] at held
      exact absurd (some.inj held) nofun
    exact ⟨c, (others c second first).trans held⟩
  · exact story.early
  · exact story.told

theorem Story.enroll (empty : v.content a = some none) (open_ : v.canceled source = false)
    (unseen : a ∉ pending v.stack) (callback : Bool) : Story (v.enroll a source callback) := by
  have atA : (v.enroll a source callback).content a = some (some ⟨source, v.fresh, callback⟩) := by
    simp [View.enroll, View.note, View.setContent]
  have others : ∀ c, c ≠ a → (v.enroll a source callback).content c = v.content c := by
    intro c differ
    simp [View.enroll, View.note, View.setContent, differ]
  have logged : ∀ x, x ∈ (v.enroll a source callback).log ↔
      x ∈ v.log ∨ (callback = true ∧ x = .registered v.fresh source) := by
    intro x
    rw [View.enroll, View.note, List.mem_append, mem_about]
    rfl
  constructor
  · intro c mem
    have differ : c ≠ a := by
      rintro rfl
      exact unseen mem
    rw [others c differ]
    exact story.due c mem
  · exact story.distinct
  · intro c mem
    by_cases same : c = a
    · subst same
      rw [atA]
      nofun
    · rw [others c same]
      exact story.fired c mem
  · intro c d e e' first second same
    by_cases atC : c = a
    · by_cases atD : d = a
      · rw [atC, atD]
      · rw [atC, atA] at first
        rw [others d atD] at second
        obtain rfl := some.inj (some.inj first)
        have before := story.old d e' second
        simp only at same
        omega
    rw [others c atC] at first
    by_cases atD : d = a
    · rw [atD, atA] at second
      obtain rfl := some.inj (some.inj second)
      have before := story.old c e first
      simp only at same
      omega
    · rw [others d atD] at second
      exact story.unique c d e e' first second same
  · intro c e found
    by_cases same : c = a
    · rw [same, atA] at found
      obtain rfl := some.inj (some.inj found)
      exact lt_succ_self _
    · rw [others c same] at found
      exact lt_succ_of_lt (story.old c e found)
  · intro event mem
    intro context same
    rcases (logged event).mp mem with mem | ⟨_, rfl⟩
    · exact lt_succ_of_lt (story.past event mem context same)
    · rw [← some.inj same]
      exact lt_succ_self _
  · intro c e found called
    have unheard : ∀ event ∈ v.log, event.context ≠ some v.fresh :=
      fun event mem same => Nat.lt_irrefl _ (story.past event mem v.fresh same)
    simp only [logged, reduceCtorEq, and_false, or_false]
    by_cases same : c = a
    · rw [same, atA] at found
      obtain rfl := some.inj (some.inj found)
      refine ⟨.inr ⟨called, rfl⟩, ?_, ?_⟩
      · intro dropped
        exact unheard _ dropped rfl
      · constructor
        · intro invoked
          exact absurd rfl (unheard _ invoked)
        · rintro ⟨canceled, _⟩
          have closed : v.canceled source = true := canceled
          rw [open_] at closed
          contradiction
    · rw [others c same] at found
      obtain ⟨registered, kept, turn⟩ := story.held c e found called
      exact ⟨.inl registered, kept, turn⟩
  · intro context source' mem
    rw [logged] at mem
    rcases mem with mem | ⟨called, new⟩
    · rcases story.lost context source' mem with dropped | ⟨c, held⟩
      · exact .inl ((logged _).mpr (.inl dropped))
      · apply Or.inr
        have differ : c ≠ a := by
          rintro rfl
          rw [empty] at held
          exact absurd (some.inj held) nofun
        exact ⟨c, (others c differ).trans held⟩
    · obtain ⟨rfl, rfl⟩ : context = v.fresh ∧ source' = source := by simpa using new
      exact .inr ⟨a, called ▸ atA⟩
  · intro context mem
    simp only [logged, reduceCtorEq, and_false, or_false] at mem
    obtain ⟨source', known, canceled⟩ := story.early context mem
    refine ⟨source', known.imp ?_ ?_, canceled⟩
    · intro registered
      exact (logged _).mpr (.inl registered)
    · intro refused
      exact (logged _).mpr (.inl refused)
  · rw [View.enroll, View.note, View.about]
    split
    · exact story.told.add (fun _ => nofun) (fun _ _ => nofun)
    · simpa [View.setContent] using story.told

theorem Story.restack {stack : List Frame} (turns : pending stack = pending v.stack)
    (over_ : ∀ a ∈ firing stack, a ∈ firing v.stack) (due : ∀ source a, Due source a v.stack → Due source a stack) :
    Story { v with stack := stack } where
  due a mem := by
    simp only [turns] at mem
    obtain ⟨present, later⟩ := story.due a mem
    exact ⟨present, fun e found => ⟨(later e found).1, due _ _ (later e found).2⟩⟩
  distinct := by simpa [turns] using story.distinct
  fired a mem := story.fired a (over_ a mem)
  unique := story.unique
  old := story.old
  past := story.past
  held a e found callback := by
    simpa [turns] using story.held a e found callback
  lost := story.lost
  early := story.early
  told := story.told

theorem Story.pop {after : After} (top : v.stack = .running after :: below) : Story { v with stack := below } := by
  apply story.restack
  · rw [top]
    rfl
  · intro a mem
    rw [top]
    cases after with
    | fire b => exact mem_cons_of_mem _ mem
    | register resume context => exact mem
  · intro source a due
    rw [top] at due
    exact due

theorem Story.finish (top : v.stack = .looping source [] :: below) : Story { v with stack := below } := by
  apply story.restack
  · rw [top]
    rfl
  · intro a mem
    rw [top]
    exact mem
  · intro source a due
    rw [top] at due
    exact due.resolve_left fun empty => not_mem_nil empty.1

theorem Story.refuse (empty : v.content a = some none) (closed : v.canceled source = true) (resume callback : Bool) :
    Story (v.refuse a source resume callback) := by
  have grown : Story { v.setContent a (some none) with fresh := v.fresh + 1 } := by
    have same := story.construct (fun e found => absurd (some.inj (empty.symm.trans found)) nofun)
    exact { same with
      old := fun b e found => lt_succ_of_lt (same.old b e found)
      past := fun event mem context known => lt_succ_of_lt (same.past event mem context known) }
  unfold View.refuse
  split
  case isFalse =>
    split
    · exact grown.resumed _
    · simpa [note] using grown
  case isTrue =>
    have unheard : ∀ event ∈ v.log, event.context ≠ some v.fresh :=
      fun event mem same => Nat.lt_irrefl _ (story.past event mem v.fresh same)
    have logged : ∀ x, x ∈ v.log ++ [Event.refused v.fresh source, .invoked v.fresh] ↔
        x ∈ v.log ∨ x = .refused v.fresh source ∨ x = .invoked v.fresh := by simp
    constructor
    · exact grown.due
    · exact grown.distinct
    · exact grown.fired
    · exact grown.unique
    · exact grown.old
    · intro event mem
      intro context known
      rcases (logged event).mp mem with mem | rfl | rfl
      · exact grown.past event mem context known
      · rw [← some.inj known]
        exact lt_succ_self _
      · rw [← some.inj known]
        exact lt_succ_self _
    · intro b e found called
      obtain ⟨registered, kept, turn⟩ := grown.held b e found called
      have differ : e.context ≠ v.fresh := fun same => unheard _ registered (congrArg some same)
      refine ⟨(logged _).mpr (.inl registered), ?_, ?_⟩
      · intro dropped
        rcases (logged _).mp dropped with dropped | same | same
        · exact kept dropped
        · contradiction
        · contradiction
      · refine Iff.trans ?_ turn
        refine (logged _).trans ?_
        simp [differ, setContent]
    · intro context source' mem
      rcases (logged _).mp mem with mem | same | same
      · exact (grown.lost context source' mem).imp (fun dropped => (logged _).mpr (.inl dropped)) id
      · contradiction
      · contradiction
    · intro context mem
      rcases (logged _).mp mem with mem | same | same
      · obtain ⟨source', known, canceled⟩ := grown.early context mem
        exact ⟨source', known.imp (fun x => (logged _).mpr (.inl x)) (fun x => (logged _).mpr (.inl x)), canceled⟩
      · contradiction
      · obtain rfl : context = v.fresh := by simpa using same
        exact ⟨source, .inr ((logged _).mpr (.inr (.inl rfl))), closed⟩
    · exact story.told.refuse unheard

theorem Story.cancel {list : List Nat} (open_ : v.canceled source = false) (once : list.Nodup)
    (all : ∀ a, a ∈ list ↔ ∃ e, v.content a = some (some e) ∧ e.source = source) : Story (v.cancel source list) := by
  have fresh : ∀ a ∈ list, a ∉ pending v.stack := by
    intro a mem turn
    obtain ⟨e, found, rfl⟩ := (all a).mp mem
    have closed := ((story.due a turn).2 e found).1
    rw [open_] at closed
    contradiction
  have still : ∀ other, v.canceled other = true → (v.cancel source list).canceled other = true := by
    intro other closed
    by_cases same : other = source
    · subst same
      exact Function.update_self ..
    · exact (Function.update_of_ne same _ _).trans closed
  constructor
  · intro a mem
    rcases List.mem_append.mp mem with mem | mem
    · obtain ⟨e, found, same⟩ := (all a).mp mem
      refine ⟨by simp [View.cancel, found], ?_⟩
      intro e' found'
      obtain rfl := some.inj (some.inj (found.symm.trans found'))
      refine ⟨?_, .inl ⟨mem, .inl same⟩⟩
      rw [same]
      exact Function.update_self ..
    · obtain ⟨present, due⟩ := story.due a mem
      exact ⟨present, fun e found => ⟨still _ (due e found).1, .inr (due e found).2⟩⟩
  · apply List.nodup_append'.mpr
    exact ⟨once, story.distinct, fun a mem turn => fresh a mem turn⟩
  · exact story.fired
  · exact story.unique
  · exact story.old
  · exact story.past
  · intro a e found callback
    obtain ⟨registered, kept, turn⟩ := story.held a e found callback
    refine ⟨registered, kept, turn.trans ?_⟩
    by_cases same : e.source = source
    · have mem : a ∈ list := (all a).mpr ⟨e, found, same⟩
      simp [View.cancel, pending, mem, same, open_]
    have mem : a ∉ list := by
      intro mem
      obtain ⟨e', found', same'⟩ := (all a).mp mem
      obtain rfl := some.inj (some.inj (found.symm.trans found'))
      exact same same'
    simp [View.cancel, pending, mem, same]
  · exact story.lost
  · intro context mem
    obtain ⟨source', known, canceled⟩ := story.early context mem
    exact ⟨source', known, still source' canceled⟩
  · exact story.told

theorem Story.skip (top : v.stack = .looping source (a :: rest) :: below)
    (silent : ∀ e, v.content a = some (some e) → e.callback = false) :
    Story { v with stack := .looping source rest :: below } := by
  have turns : pending v.stack = a :: pending (.looping source rest :: below) := by
    rw [top]
    rfl
  have distinct := story.distinct
  rw [turns, nodup_cons] at distinct
  constructor
  · intro b mem
    obtain ⟨present, due⟩ := story.due b (turns ▸ mem_cons_of_mem _ mem)
    have differ : b ≠ a := by
      rintro rfl
      exact distinct.1 mem
    refine ⟨present, fun e found => ⟨(due e found).1, ?_⟩⟩
    have later := (due e found).2
    rw [top] at later
    exact later.proceed differ
  · exact distinct.2
  · intro b mem
    apply story.fired b
    rw [top]
    exact mem
  · exact story.unique
  · exact story.old
  · exact story.past
  · intro b e found callback
    have differ : b ≠ a := by
      rintro rfl
      rw [silent e found] at callback
      contradiction
    have held := story.held b e found callback
    simpa [turns, differ] using held
  · exact story.lost
  · exact story.early
  · exact story.told

theorem Story.invoke (top : v.stack = .looping source (a :: rest) :: below) {e : Entry}
    (found : v.content a = some (some e)) (callback : e.callback = true) :
    Story { v.note [.invoked e.context] with stack := .running (.fire a) :: .looping source rest :: below } := by
  have turns : pending v.stack = a :: pending (.looping source rest :: below) := by
    rw [top]
    rfl
  have distinct := story.distinct
  rw [turns, nodup_cons] at distinct
  have turn : a ∈ pending v.stack := turns ▸ mem_cons_self
  obtain ⟨registered, kept, mine⟩ := story.held a e found callback
  have new : .invoked e.context ∉ v.log := fun invoked => (mine.mp invoked).2 turn
  obtain ⟨closed, _⟩ := (story.due a turn).2 e found
  have logged : ∀ x, x ∈ v.log ++ [Event.invoked e.context] ↔ x ∈ v.log ∨ x = .invoked e.context := by simp
  constructor
  · intro b mem
    obtain ⟨present, due⟩ := story.due b (turns ▸ mem_cons_of_mem _ mem)
    have differ : b ≠ a := by
      rintro rfl
      exact distinct.1 mem
    refine ⟨present, fun f found => ⟨(due f found).1, ?_⟩⟩
    have later := (due f found).2
    rw [top] at later
    exact later.proceed differ
  · exact distinct.2
  · intro b mem
    cases mem with
    | head =>
      have present : v.content a ≠ none := by simp [found]
      exact present
    | tail _ mem =>
      apply story.fired b
      rw [top]
      exact mem
  · exact story.unique
  · exact story.old
  · intro event mem
    intro context known
    rcases (logged event).mp mem with mem | rfl
    · exact story.past event mem context known
    · rw [← some.inj known]
      exact story.old a e found
  · intro b f known called
    obtain ⟨registered', kept', turn'⟩ := story.held b f known called
    refine ⟨(logged _).mpr (.inl registered'), ?_, ?_⟩
    · intro dropped
      rcases (logged _).mp dropped with dropped | same
      · exact kept' dropped
      · contradiction
    by_cases same : b = a
    · subst same
      obtain rfl := some.inj (some.inj (found.symm.trans known))
      constructor
      · intro _
        exact ⟨closed, distinct.1⟩
      · intro _
        exact (logged _).mpr (.inr rfl)
    · have differ : f.context ≠ e.context := fun equal => same (story.unique b a f e known found equal)
      refine (logged _).trans ?_
      simp only [Event.invoked.injEq, differ, or_false]
      refine turn'.trans ?_
      rw [turns, mem_cons, not_or]
      exact ⟨fun ⟨first, _, second⟩ => ⟨first, second⟩, fun ⟨first, second⟩ => ⟨first, same, second⟩⟩
  · intro context source' mem
    rcases (logged _).mp mem with mem | same
    · exact (story.lost context source' mem).imp (fun dropped => (logged _).mpr (.inl dropped)) id
    · contradiction
  · intro context mem
    rcases (logged _).mp mem with mem | same
    · obtain ⟨source', known, canceled⟩ := story.early context mem
      exact ⟨source', known.imp (fun x => (logged _).mpr (.inl x)) (fun x => (logged _).mpr (.inl x)), canceled⟩
    · obtain rfl : context = e.context := by simpa using same
      exact ⟨e.source, .inl ((logged _).mpr (.inl registered)), closed⟩
  · exact story.told.invoke new kept

end

end NginBase.Async.Cancellation
