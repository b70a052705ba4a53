import NginBase.Json.Admission
import NginBase.Json.EventParser
import NginBase.Json.Ownership

namespace NginBase.Json

open Library Audited Cursor List Prod Reference

mutual

def walk : SpannedValue → List EventData
  | .scalar _ value => [scalarEvent value]
  | .array _ elements => .startArray :: (walkElements elements ++ [.endArray])
  | .object _ members => .startObject :: (walkMembers members ++ [.endObject])

def walkElements : List SpannedValue → List EventData
  | [] => []
  | element :: rest => walk element ++ walkElements rest

def walkMembers : List Member → List EventData
  | [] => []
  | (key, _, value) :: rest => .key key :: (walk value ++ walkMembers rest)

end

theorem walkMembers_append (first second : List Member) :
    walkMembers (first ++ second) = walkMembers first ++ walkMembers second := by
  induction first with
  | nil => rfl
  | cons member rest ih =>
    simp [walkMembers, ih]

def Continues (handler : EventHandler) : Prop := ∀ earlier event, (handler earlier event).continueParsing = true

namespace EventContext

variable (setup : Setup)

/-- The context has read up to `c`, counted `t` and delivered `log`. -/
structure Tracks (depth : Nat) (log : List EventData) (ctx : EventContext) (c : Cursor) (t : Tally) :
    Prop where
  follows : ctx.reader.Follows setup c t.decoded
  depth : ctx.depth = depth
  nodes : ctx.nodeCount = t.nodes
  members : ctx.memberCount = t.members
  events : ctx.events.map Event.data = log

abbrev Steps {α β : Type} (t : Tally) (val : Tally → α → β → Prop) :
    Except Failure α → Audited Cost β → Prop :=
  Checks (eventBudget setup.toProfile) (Exhausted setup) (LimitFailure setup.toProfile) t val

/-- The result of a step that delivers the events `new` of what was read, when it emits at all. -/
def Delivers {β : Type} (depth : Nat) (log : List EventData) (emit : Bool) (ctx : EventContext)
    (new : β → List EventData) (t : Tally) (ctx' : EventContext) (q : β × Cursor) : Prop :=
  Tracks setup depth (log ++ if emit then new q.1 else []) ctx' q.2 t ∧ ctx.reader.Extends ctx'.reader

variable {setup} {handler : EventHandler} {depth : Nat} {log : List EventData} {ctx : EventContext} {c : Cursor}
  {t : Tally}

theorem lex_steps {α : Type} {read : Cursor → Except Failure (α × Cursor)} (here : Tracks setup depth log ctx c t)
    (within : (eventBudget setup.toProfile).fits t 0) (moves : ∀ a c', read c = .ok (a, c') → ∃ n, c.Over c' n) :
    Steps setup t
      (fun t' p q => p.1 = q.1 ∧ Tracks setup depth log p.2 q.2 t' ∧ ctx.reader.Extends p.2.reader ∧ read c = .ok q)
      (ctx.lex read) (.free (read c)) := by
  have run : Simulates (Exhausted setup) Failure.Same
      (fun p q => p.1 = q.1 ∧ Tracks setup depth log p.2 q.2 t ∧ ctx.reader.Extends p.2.reader)
      (ctx.lex read) (read c >>= pure) := by
    refine (Reader.lex_spec here.follows moves).bind ?_
    rintro ⟨a, reader⟩ ⟨b, c'⟩ ⟨same, follows, extended⟩
    exact .ok ⟨same, ⟨follows, here.depth, here.nodes, here.members, here.events⟩, extended⟩
  rw [bind_pure] at run
  refine .free within (run.keep.mono ?_)
  rintro p q ⟨⟨same, tracks, extended⟩, result⟩
  exact ⟨same, tracks, extended, result⟩

theorem limitFailure_same {profile : Profile} {e e' : Failure} (same : e.Same e') (limited : LimitFailure profile e') :
    LimitFailure profile e := by
  cases e with
  | fuel => cases e' <;> exact (by first | exact same.elim | exact limited)
  | diagnostic d =>
    cases e' with
    | fuel => exact same.elim
    | diagnostic d' =>
      simp only [LimitFailure, same.code]
      exact limited

theorem parseString_steps (here : Tracks setup depth log ctx c t) (within : (eventBudget setup.toProfile).fits t 0) :
    Steps setup t
      (fun t' p q => Tracks setup depth log p.2 q.2 t' ∧ ctx.reader.Extends p.2.reader ∧
        p.2.reader.Live p.1.value ∧ p.2.reader.memory.view p.1.value = q.1.1)
      (ctx.parseString setup) (Syntax.readString setup.toProfile c) := by
  have run : Simulates (Exhausted setup) Failure.Same
      (fun p q => (q.2.tally = { t with decoded := q.2.tally.decoded } ∧
        p.2.reader.Follows setup q.2.cursor q.2.tally.decoded ∧ p.2 = { ctx with reader := p.2.reader }) ∧
        ctx.reader.Extends p.2.reader ∧ p.2.reader.Live p.1.value ∧ p.2.reader.memory.view p.1.value = q.1.1)
      (ctx.parseString setup) (Reference.parseString setup.toProfile ⟨c, t⟩ >>= pure) := by
    refine (Reader.parseString_spec (s := ⟨c, t⟩) "JSON event string allocation failed" here.follows).bind ?_
    rintro ⟨string, reader⟩ ⟨text, s⟩ parsed
    exact .ok ⟨⟨parsed.tally, parsed.follows, rfl⟩, parsed.extends', parsed.live, parsed.view⟩
  rw [bind_pure] at run
  have checked := Reference.parseString_admitted (c := c) (Reference.eventBudget_countsStrings setup.toProfile) within
  refine (Checks.of_simulates run checked fun _ _ => limitFailure_same).mono ?_
  rintro t' ⟨string, ctx'⟩ ⟨text, c'⟩ ⟨_, ⟨⟨tally, follows, rest⟩, extended, live, view⟩, rfl⟩
  dsimp only at tally follows rest view
  refine ⟨⟨follows, ?_, ?_, ?_, ?_⟩, extended, live, view⟩
  · rw [rest]; exact here.depth
  · rw [rest, tally]; exact here.nodes
  · rw [rest, tally]; exact here.members
  · rw [rest]; exact here.events

theorem deliver_continues (continues : Continues handler) (ctx : EventContext) (event : Event) (emit : Bool) :
    ctx.deliver handler event emit = .ok { ctx with events := ctx.events ++ if emit then [event] else [] } := by
  unfold deliver
  cases emit with
  | false => simp
  | true => simp [continues ctx.events event]

section

variable (here : Tracks setup depth log ctx c t)

include here

theorem Tracks.deliver (event : Event) (emit : Bool) :
    Tracks setup depth (log ++ if emit then [event.data] else [])
      { ctx with events := ctx.events ++ if emit then [event] else [] } c t := by
  refine ⟨here.follows, here.depth, here.nodes, here.members, ?_⟩
  cases emit <;> simp [here.events]

theorem beginValue_steps {α β : Type} {val : Tally → α → β → Prop} {f : EventContext → Except Failure α}
    {y : Audited Cost β} (within : (eventBudget setup.toProfile).fits t 0)
    (next : ∀ ctx', Tracks setup depth log ctx' c (spend t { nodes := 1 }) → ctx'.reader = ctx.reader →
      (eventBudget setup.toProfile).fits (spend t { nodes := 1 }) 0 →
      Steps setup (spend t { nodes := 1 }) val (f ctx') y) :
    Steps setup t val (ctx.beginValue setup >>= f) (do charge { nodes := 1 }; y) := by
  refine .prepay (fun fits => ?_) fun exceeds => ?_
  · have room := fits.nodes
    dsimp only at room
    unfold beginValue
    rw [if_neg (by have := here.nodes; omega)]
    refine next _ ⟨here.follows, here.depth, ?_, here.members, here.events⟩ rfl
      (((eventBudget setup.toProfile).fits_add t _ 0).mp (by rwa [add_zero])).2
    simp [spend, here.nodes]
  · unfold beginValue
    split
    · exact ⟨_, rfl, .inl rfl⟩
    refine absurd ⟨?_, within.members, Nat.zero_le _, trivial, rfl⟩ exceeds
    have := here.nodes
    dsimp only
    omega

theorem Tracks.pass (depth' : Nat) (present : 0 < c.rest.length) :
    let passed := { ctx with depth := depth', reader := { ctx.reader with offset := ctx.reader.offset + 1 } }
    Tracks setup depth' log passed (c.advance 1) t ∧ ctx.reader.Extends passed.reader := by
  have past : c.Over (c.advance 1) 1 := ⟨present, rfl⟩
  obtain ⟨follows, further⟩ := here.follows.past past
  simp only [advance_offset, ← here.follows.offset] at follows further
  exact ⟨⟨follows, rfl, here.nodes, here.members, here.events⟩, further⟩

end

theorem openContainer_steps {α β : Type} {val : Tally → α → β → Prop} {f : EventContext → Except Failure α}
    {y : Audited Cost β} {data : EventData} {emit : Bool} (continues : Continues handler)
    (here : Tracks setup depth log ctx c t) (within : (eventBudget setup.toProfile).fits t 0)
    (present : 0 < c.rest.length)
    (next : ∀ ctx', Tracks setup (depth + 1) (log ++ if emit then [data] else []) ctx' (c.advance 1)
        (spend t { nodes := 1 }) → ctx.reader.Extends ctx'.reader →
      (eventBudget setup.toProfile).fits (spend t { nodes := 1 }) 0 →
      Steps setup (spend t { nodes := 1 }) val (f ctx') y) :
    Steps setup t val (ctx.openContainer setup handler data emit >>= f)
      (do charge { nodes := 1 }; charge { deepest := depth + 1 }; y) := by
  unfold openContainer
  rw [bind_assoc]
  refine beginValue_steps here within fun ctx' there reader within' => ?_
  refine .prepay (fun fits => ?_) fun exceeds => ?_
  · have shallow := fits.deepest
    dsimp only at shallow
    rw [if_neg (by rw [there.depth]; omega)]
    obtain ⟨passed, further⟩ := there.pass (depth + 1) present
    have delivered := passed.deliver ⟨data, ⟨setup.source, ctx.reader.offset, ctx.reader.offset + 1⟩⟩ emit
    simp only [deliver_continues continues, there.depth]
    exact next _ (by simpa only [← reader] using delivered) (reader ▸ further) within'
  · by_cases deep : setup.limits.maxDepth ≤ ctx'.depth
    · rw [if_pos deep]
      exact ⟨_, rfl, .inl rfl⟩
    · rw [there.depth] at deep
      refine absurd ⟨within'.nodes, within'.members, ?_, trivial, rfl⟩ exceeds
      dsimp only
      omega

theorem closeContainer_tracks {close : UInt8} {unterminated : String} {data : EventData} {emit : Bool}
    (continues : Continues handler) (here : Tracks setup (depth + 1) log ctx c t) (found : peekByte c.rest = close)
    (visible : close ≠ 0) :
    ∃ ctx', ctx.closeContainer setup handler close unterminated data emit = .ok ctx' ∧
      Tracks setup depth (log ++ if emit then [data] else []) ctx' (c.advance 1) t ∧ ctx.reader.Extends ctx'.reader := by
  obtain ⟨passed, further⟩ := here.pass depth (peekByte_some found visible)
  have delivered := passed.deliver ⟨data, ⟨setup.source, ctx.reader.offset, ctx.reader.offset + 1⟩⟩ emit
  unfold closeContainer
  rw [here.follows.cursor, if_neg (not_not.mpr found), deliver_continues continues]
  simp only [here.depth]
  exact ⟨_, rfl, delivered, further⟩

section

variable {parse : EventContext → Bool → Except Failure EventContext}
  {parse' : Cursor → Audited Cost (SpannedValue × Cursor)}

abbrev Agrees (setup : Setup) (depth : Nat) (parse : EventContext → Bool → Except Failure EventContext)
    (parse' : Cursor → Audited Cost (SpannedValue × Cursor)) : Prop :=
  ∀ ctx c t log emit, Tracks setup depth log ctx c t → (eventBudget setup.toProfile).fits t 0 →
    Steps setup t (Delivers setup depth log emit ctx walk) (parse ctx emit) (parse' c)

theorem arrayLoop_steps {emit : Bool} (fuel : Nat) (same : Agrees setup depth parse parse')
    (here : Tracks setup depth log ctx c t) (within : (eventBudget setup.toProfile).fits t 0) :
    Steps setup t
      (fun t' ctx' q => Delivers setup depth log emit ctx walkElements t' ctx' q ∧ peekByte q.2.rest = 0x5D)
      (arrayLoop setup parse emit fuel ctx) (Syntax.arrayLoop setup.toProfile parse' fuel c) := by
  induction fuel generalizing ctx c t log with
  | zero => exact .failed
  | succ fuel ih =>
    refine (same ctx c t log emit here within).bind ?_
    rintro t₁ ctx₁ ⟨tree, c₁⟩ within₁ ⟨there₁, further₁⟩
    refine (lex_steps there₁ within₁ fun _ _ h => let ⟨n, past, _⟩ := separator_over h; ⟨n, past⟩).bind ?_
    rintro t₂ ⟨closed, ctx₂⟩ ⟨closed', c₂⟩ within₂ ⟨rfl, there₂, further₂, separated⟩
    dsimp only at there₁ there₂ ⊢
    cases closed with
    | true =>
      obtain ⟨_, _, _, found, _⟩ := separator_over separated
      refine .pure within₂ ⟨⟨?_, further₁.trans further₂⟩, found rfl⟩
      simpa [walkElements] using there₂
    | false =>
      rw [← bind_pure (arrayLoop setup parse emit fuel ctx₂)]
      refine (ih there₂ within₂).bind ?_
      rintro t₃ ctx₃ ⟨trees, c₃⟩ within₃ ⟨⟨there₃, further₃⟩, close⟩
      refine .pure within₃ ⟨⟨?_, (further₁.trans further₂).trans further₃⟩, close⟩
      cases emit <;> simpa [walkElements] using there₃

theorem arrayValues_steps {emit : Bool} (same : Agrees setup depth parse parse')
    (here : Tracks setup depth log ctx c t) (within : (eventBudget setup.toProfile).fits t 0) :
    Steps setup t
      (fun t' ctx' q => Delivers setup depth log emit ctx walkElements t' ctx' q ∧ peekByte q.2.rest = 0x5D)
      (arrayValues setup parse ctx emit) (Syntax.arrayValues setup.toProfile parse' c) := by
  unfold arrayValues Syntax.arrayValues
  rw [here.follows.cursor]
  refine .ite Iff.rfl (fun _ empty => .pure within ⟨⟨?_, .refl _⟩, empty⟩) fun _ _ => ?_
  · cases emit <;> simpa [walkElements] using here
  · exact arrayLoop_steps _ same here within

theorem parseArray_first (profile : Profile) (depth : Nat) (c : Cursor) :
    Syntax.parseArray profile parse' depth c = (do
      charge { nodes := 1 }
      charge { deepest := depth + 1 }
      let (_, after) ← free ((c.advance 1).skipTrivia profile)
      let (values, after) ← Syntax.arrayValues profile parse' after
      charge { elements := values.length }
      pure (.array ⟨profile.source, c.offset, (after.advance 1).offset⟩ values, after.advance 1)) := by
  rw [← charge_comm (Cost.commute rfl)]
  simp only [Syntax.parseArray, bind_assoc', pure_eq_done, done_zero_bind]

theorem parseArray_steps {emit : Bool} (continues : Continues handler) (same : Agrees setup (depth + 1) parse parse')
    (here : Tracks setup depth log ctx c t) (within : (eventBudget setup.toProfile).fits t 0)
    (present : 0 < c.rest.length) :
    Steps setup t (Delivers setup depth log emit ctx walk) (parseArray setup handler parse ctx emit)
      (Syntax.parseArray setup.toProfile parse' depth c) := by
  rw [parseArray_first]
  refine openContainer_steps continues here within present fun ctx₁ there₁ further₁ within₁ => ?_
  refine (lex_steps there₁ within₁ fun _ _ h => let ⟨n, past, _⟩ := Cursor.skipTrivia_over h; ⟨n, past⟩).bind ?_
  rintro t₂ ⟨_, ctx₂⟩ ⟨_, c₂⟩ within₂ ⟨-, there₂, further₂, -⟩
  refine (arrayValues_steps same there₂ within₂).bind ?_
  rintro t₃ ctx₃ ⟨trees, c₃⟩ within₃ ⟨⟨there₃, further₃⟩, close⟩
  obtain ⟨ctx₄, closed, there₄, further₄⟩ := closeContainer_tracks continues there₃ close (by decide)
  rw [closed]
  -- the event parser does not count elements
  refine .ok (k := ({ elements := trees.length } : Cost) + 0) ?_ ⟨?_, ?_⟩
  · exact ⟨within₃.nodes, within₃.members, Nat.zero_le _, trivial, rfl⟩
  · refine ⟨there₄.follows, there₄.depth, there₄.nodes, there₄.members, ?_⟩
    rw [there₄.events]
    cases emit <;> simp [walk]
  · exact ((further₁.trans further₂).trans further₃).trans further₄

end

section

def admitKeys (policy : DuplicateKeyPolicy) (members : List Member) :
    List Member → Audited Cost (List Member)
  | [] => .done members 0
  | member :: rest =>
    match keep policy members member with
    | none => .done [] { repeated := 1 }
    | some members' => do
      charge { members := members'.length - members.length }
      admitKeys policy members' rest

variable {members : List Member} {policy : DuplicateKeyPolicy}

theorem keep_length {members' : List Member} {member : Member}
    (kept : keep policy members member = some members') :
    members.length ≤ members'.length := by
  unfold keep at kept
  split at kept
  · cases kept
    simp
  · split at kept <;> cases kept <;> simp

theorem admitKeys_keepAll (policy : DuplicateKeyPolicy) (members new : List Member) :
    (∀ kept, keepAll policy members new = some kept →
      members.length ≤ kept.length ∧ admitKeys policy members new = .done kept { members := kept.length - members.length }) ∧
    (keepAll policy members new = none → ∃ k, admitKeys policy members new = .done [] k ∧ 0 < k.repeated) := by
  induction new generalizing members with
  | nil =>
    refine ⟨fun kept all => ?_, nofun⟩
    cases all
    exact ⟨le_refl _, by simp; rfl⟩
  | cons member rest ih =>
    cases first : keep policy members member with
    | none =>
      refine ⟨fun kept all => ?_, fun _ => ⟨{ repeated := 1 }, by simp only [admitKeys, first], Nat.one_pos⟩⟩
      simp [keepAll, first] at all
    | some members' =>
      have grows := keep_length first
      obtain ⟨all, refused⟩ := ih members'
      simp only [keepAll, first]
      refine ⟨fun kept settled => ?_, fun none => ?_⟩
      · obtain ⟨grows', paid⟩ := all kept settled
        refine ⟨by omega, ?_⟩
        simp only [admitKeys, first, paid, charge, done_bind]
        congr 1
        ext1 <;> simp
        omega
      · obtain ⟨k, settled, positive⟩ := refused none
        refine ⟨{ members := members'.length - members.length } + k, ?_, ?_⟩
        · simp only [admitKeys, first, settled, charge, done_bind]
        · simpa using positive

/-- The keys the event parser remembers are those of the members kept so far. -/
structure Seen (setup : Setup) (ctx : EventContext) (keys : List SeenKey) (members : List Member) : Prop where
  live : ∀ key ∈ keys, ctx.reader.Live key.value
  texts : setup.options.duplicateKeys ≠ .preserve →
    (keys.map fun key => ctx.reader.memory.view key.value) = members.map fst

variable {keys : List SeenKey}

theorem Seen.mono {ctx' : EventContext} (seen : Seen setup ctx keys members)
    (further : ctx.reader.Extends ctx'.reader) : Seen setup ctx' keys members where
  live key mem := further.live _ (seen.live key mem)
  texts policy := by
    rw [← seen.texts policy]
    refine map_congr_left fun key mem => further.view _ (seen.live key mem)

theorem Seen.find (seen : Seen setup ctx keys members) (policy : setup.options.duplicateKeys ≠ .preserve)
    (text : Bytes) :
    (keys.find? fun candidate => ctx.reader.memory.view candidate.value = text).isSome ↔ text ∈ members.map fst := by
  rw [← seen.texts policy]
  simp

theorem keep_found {key : Bytes} (found : key ∈ members.map fst) (span : SourceSpan) (value : SpannedValue) :
    (policy = .reject → keep policy members (key, span, value) = none) ∧
      (policy = .keepFirst → keep policy members (key, span, value) = some members) ∧
      (policy = .preserve → keep policy members (key, span, value) = some (members ++ [(key, span, value)])) := by
  unfold keep
  cases place : members.findIdx? (fun earlier => earlier.1 = key) with
  | none =>
    rw [findIdx?_eq_none_iff] at place
    obtain ⟨earlier, mem, same⟩ := mem_map.mp found
    simpa [same] using place earlier mem
  | some i => refine ⟨?_, ?_, ?_⟩ <;> rintro rfl <;> rfl

theorem keep_new {key : Bytes} (new : key ∉ members.map fst) (span : SourceSpan) (value : SpannedValue) :
    keep policy members (key, span, value) = some (members ++ [(key, span, value)]) := by
  have place : members.findIdx? (fun earlier => earlier.1 = key) = none := by
    rw [findIdx?_eq_none_iff]
    intro earlier mem
    have : earlier.1 ≠ key := fun same => new (mem_map.mpr ⟨earlier, mem, same⟩)
    simpa using this
  simp [keep, place]

theorem admitKey_found {key : ParsedString} (seen : Seen setup ctx keys members)
    (found : ctx.reader.memory.view key.value ∈ members.map fst) :
    (setup.options.duplicateKeys = .reject →
      ∃ e, admitKey setup ctx keys key = .error e ∧ LimitFailure setup.toProfile e) ∧
    (setup.options.duplicateKeys = .keepFirst → admitKey setup ctx keys key = .ok (false, keys, ctx)) := by
  refine ⟨fun policy => ?_, fun policy => ?_⟩
  · have duplicate := (seen.find (by simp [policy]) _).mpr found
    simp only [admitKey, policy, reduceCtorEq, if_false, duplicate]
    exact ⟨_, rfl, .inr (.inr ⟨rfl, policy⟩)⟩
  · have duplicate := (seen.find (by simp [policy]) _).mpr found
    simp only [admitKey, policy, reduceCtorEq, if_false, duplicate, and_false, if_true, pure_eq_ok]

theorem admitKey_new {key : ParsedString} {text : Bytes} (here : Tracks setup depth log ctx c t)
    (seen : Seen setup ctx keys members) (live : ctx.reader.Live key.value)
    (view : ctx.reader.memory.view key.value = text)
    (new : setup.options.duplicateKeys = .preserve ∨ text ∉ members.map fst) :
    (setup.limits.maxMembers ≤ t.members →
      ∃ e, admitKey setup ctx keys key = .error e ∧ LimitFailure setup.toProfile e) ∧
    (t.members < setup.limits.maxMembers →
      (∃ e, admitKey setup ctx keys key = .error e ∧ Exhausted setup e) ∨
      ∃ keys' ctx', admitKey setup ctx keys key = .ok (true, keys', ctx') ∧
        Tracks setup depth log ctx' c (spend t { members := 1 }) ∧ ctx.reader.Extends ctx'.reader ∧
        ∀ member : Member, member.1 = text → Seen setup ctx' keys' (members ++ [member])) := by
  have duplicate : (if setup.options.duplicateKeys = .preserve then none
      else keys.find? fun candidate => ctx.reader.memory.view candidate.value = ctx.reader.memory.view key.value) =
        none := by
    split
    · rfl
    · rename_i policy
      rw [← Option.not_isSome_iff_eq_none, seen.find policy, view]
      exact new.resolve_left policy
  unfold admitKey
  simp only [duplicate, Option.isSome_none, Bool.false_eq_true, false_and, if_false, here.members]
  refine ⟨fun full => ?_, fun room => ?_⟩
  · rw [if_pos full]
    exact ⟨_, rfl, .inl rfl⟩
  · rw [if_neg (by omega)]
    by_cases policy : setup.options.duplicateKeys = .preserve
    · refine .inr ⟨keys, { ctx with memberCount := t.members + 1 }, by rw [if_pos policy]; rfl,
        ⟨here.follows, here.depth, here.nodes, rfl, here.events⟩, .refl _, fun member _ => ?_⟩
      exact ⟨seen.live, fun other => absurd policy other⟩
    · rw [if_neg policy]
      unfold Reader.request
      by_cases granted : setup.resources.grants ctx.reader.requests = true
      · refine .inr ⟨keys ++ [⟨key.value, key.span⟩],
          { ctx with memberCount := t.members + 1, reader := { ctx.reader with requests := ctx.reader.requests + 1 } },
          by simp [granted], ⟨⟨here.follows.offset, here.follows.rest, here.follows.inside, here.follows.decoded,
            here.follows.room⟩, here.depth, here.nodes, rfl, here.events⟩,
          ⟨le_refl _, fun _ live => live, fun _ _ => rfl⟩, fun member same => ⟨?_, fun _ => ?_⟩⟩
        · intro k mem
          rcases mem_append.mp mem with old | last
          · exact seen.live k old
          · rw [mem_singleton.mp last]
            exact live
        · have texts := seen.texts policy
          simp only [map_append, map_singleton, texts, view, same]
      · exact .inl ⟨ctx.reader.errorAt setup .outOfMemory "JSON event key tracking allocation failed"
          key.span.first key.span.last, by simp [granted], ⟨⟨_, .inl (by simpa using granted)⟩, .inl rfl⟩⟩

end

section

variable {parse : EventContext → Bool → Except Failure EventContext}
  {parse' : Cursor → Audited Cost (SpannedValue × Cursor)}

def moreMembers (profile : Profile) (parse' : Cursor → Audited Cost (SpannedValue × Cursor)) (fuel : Nat)
    (closed : Bool) (c : Cursor) : Audited Cost (List Member × Cursor) :=
  if closed then pure ([], c) else Syntax.objectLoop profile parse' fuel c

def afterKey (profile : Profile) (parse' : Cursor → Audited Cost (SpannedValue × Cursor)) (fuel : Nat)
    (keySpan : SourceSpan) (key : Bytes) (c : Cursor)
    (settle : Member → List Member → Audited Cost (List Member)) :
    Audited Cost (List Member × Cursor) := do
  let (_, c) ← free (c.colon profile "Expected ':' after JSON key")
  let (value, c) ← parse' c
  let (closed, c) ← free
    (c.separator profile 0x7D "Expected ',' or '\x7d' in JSON object" "Trailing comma in JSON object")
  let (new, c) ← moreMembers profile parse' fuel closed c
  let kept ← settle (key, ⟨profile.source, keySpan.first, value.span.last⟩, value) new
  pure (kept, c)

variable (profile : Profile)

theorem objectLoop_afterKey (fuel : Nat) (c : Cursor)
    (settle : List Member → Audited Cost (List Member)) :
    (do
      let (new, c) ← Syntax.objectLoop profile parse' (fuel + 1) c
      let kept ← settle new
      pure (kept, c)) = (do
      let ((key, keySpan), c) ← Syntax.readString profile c
      afterKey profile parse' fuel keySpan key c fun member new => settle (member :: new)) := by
  simp only [Syntax.objectLoop, bind_assoc']
  congr 1
  funext key
  congr 1
  funext colon
  congr 1
  funext value
  congr 1
  funext closed
  rcases closed with ⟨- | -, c₄⟩ <;> simp [moreMembers]

theorem afterKey_congr {profile : Profile} {fuel : Nat} {keySpan : SourceSpan} {key : Bytes} {c : Cursor}
    {settle settle' : Member → List Member → Audited Cost (List Member)}
    (same : ∀ span value new, settle (key, span, value) new = settle' (key, span, value) new) :
    afterKey profile parse' fuel keySpan key c settle = afterKey profile parse' fuel keySpan key c settle' := by
  simp only [afterKey, same]

theorem afterKey_charge (fuel : Nat) (keySpan : SourceSpan) (key : Bytes) (c : Cursor)
    (settle : Member → List Member → Audited Cost (List Member)) {k : Cost}
    (plain : k.strings = []) :
    afterKey profile parse' fuel keySpan key c (fun member new => do charge k; settle member new) = (do
      charge k
      afterKey profile parse' fuel keySpan key c settle) := by
  have late {α β : Type} (x : Audited Cost α) (f : α → Audited Cost β) :
      (do let a ← x; charge k; f a) = (do charge k; let a ← x; f a) :=
    charge_bind_comm (Cost.commute plain) x f
  simp only [afterKey, bind_assoc', late]

theorem colon_message (c : Cursor) (first second : String) :
    (free (c.colon profile first) : Audited Cost (Unit × Cursor)) = free (c.colon profile second) := by
  unfold colon
  cases c.skipTrivia profile with
  | error e => rfl
  | ok r =>
    simp only [ok_bind]
    split <;> rfl

abbrev LoopAgrees (setup : Setup) (handler : EventHandler) (depth : Nat) (log : List EventData) (emit : Bool)
    (parse : EventContext → Bool → Except Failure EventContext)
    (parse' : Cursor → Audited Cost (SpannedValue × Cursor)) (fuel : Nat) : Prop :=
  ∀ ctx c t keys members, Seen setup ctx keys members →
    Tracks setup depth (log ++ if emit then walkMembers members else []) ctx c t →
    (eventBudget setup.toProfile).fits t 0 →
    Steps setup t
      (fun t' ctx' q => Delivers setup depth log emit ctx walkMembers t' ctx' q ∧ peekByte q.2.rest = 0x7D)
      (objectLoop setup handler parse emit fuel ctx keys) (do
        let (new, c) ← Syntax.objectLoop setup.toProfile parse' fuel c
        let kept ← admitKeys setup.options.duplicateKeys members new
        pure (kept, c))

theorem afterKey_steps {emit : Bool} {fuel : Nat} (continues : Continues handler)
    (same : Agrees setup depth parse parse') (loop : LoopAgrees setup handler depth log emit parse parse' fuel)
    {keys : List SeenKey} {members : List Member} {key : ParsedString} {text : Bytes} {keySpan : SourceSpan}
    (keepMember : Bool) (place : Member → List Member)
    (kept : ∀ span value, place (text, span, value) = if keepMember then members ++ [(text, span, value)] else members)
    (remembered : ∀ member : Member, member.1 = text → Seen setup ctx keys (place member))
    (live : ctx.reader.Live key.value) (view : ctx.reader.memory.view key.value = text)
    (here : Tracks setup depth (log ++ if emit then walkMembers members else []) ctx c t)
    (within : (eventBudget setup.toProfile).fits t 0) :
    Steps setup t
      (fun t' ctx' q => Delivers setup depth log emit ctx walkMembers t' ctx' q ∧ peekByte q.2.rest = 0x7D)
      (do
        let (_, ctx) ← ctx.lex (colon setup.toProfile "Expected ':' after JSON object key")
        let ctx ← ctx.deliver handler ⟨.key (ctx.reader.memory.view key.value), key.span⟩ (emit && keepMember)
        let ctx ← parse ctx (emit && keepMember)
        let (closed, ctx) ← ctx.lex (separator setup.toProfile 0x7D
          "Expected ',' or '\x7d' in JSON object" "Trailing comma in JSON object")
        if closed then return ctx else objectLoop setup handler parse emit fuel ctx keys)
      (afterKey setup.toProfile parse' fuel keySpan text c fun member new =>
        admitKeys setup.options.duplicateKeys (place member) new) := by
  unfold afterKey
  rw [colon_message setup.toProfile c _ "Expected ':' after JSON object key"]
  refine (lex_steps here within fun _ _ h => let ⟨n, past, _⟩ := colon_over h; ⟨n, past⟩).bind ?_
  rintro t₁ ⟨_, ctx₁⟩ ⟨_, c₁⟩ within₁ ⟨-, there₁, further₁, -⟩
  dsimp only at there₁ further₁ ⊢
  rw [deliver_continues continues]
  have delivered := there₁.deliver ⟨.key (ctx₁.reader.memory.view key.value), key.span⟩ (emit && keepMember)
  refine (same _ c₁ t₁ _ (emit && keepMember) delivered within₁).bind ?_
  rintro t₂ ctx₂ ⟨value, c₂⟩ within₂ ⟨there₂, further₂⟩
  refine (lex_steps there₂ within₂ fun _ _ h => let ⟨n, past, _⟩ := separator_over h; ⟨n, past⟩).bind ?_
  rintro t₃ ⟨closed, ctx₃⟩ ⟨closed', c₃⟩ within₃ ⟨rfl, there₃, further₃, separated⟩
  have further : ctx.reader.Extends ctx₃.reader := (further₁.trans further₂).trans further₃
  have logged : Tracks setup depth
      (log ++ if emit then walkMembers (place (text, ⟨setup.source, keySpan.first, value.span.last⟩, value)) else [])
      ctx₃ c₃ t₃ := by
    have text' : ctx₁.reader.memory.view key.value = text := (further₁.view _ live).trans view
    refine ⟨there₃.follows, there₃.depth, there₃.nodes, there₃.members, ?_⟩
    rw [there₃.events, kept, text']
    cases emit <;> cases keepMember <;> simp [walkMembers_append, walkMembers]
  cases closed with
  | true =>
    obtain ⟨_, _, _, found, _⟩ := separator_over separated
    exact .pure within₃ ⟨⟨logged, further⟩, found rfl⟩
  | false =>
    refine (loop ctx₃ c₃ t₃ keys _ ((remembered _ rfl).mono further) logged within₃).mono ?_
    rintro t' ctx' q ⟨⟨tracks, extended⟩, close⟩
    exact ⟨⟨tracks, further.trans extended⟩, close⟩

theorem afterKey_refused {fuel : Nat} {keySpan : SourceSpan} {key : Bytes} {profile : Profile}
    {settle : Member → List Member → Audited Cost (List Member)}
    {q : List Member × Cursor} {k : Cost}
    (refused : ∀ span value new, settle (key, span, value) new = .done [] { repeated := 1 })
    (h : afterKey profile parse' fuel keySpan key c settle = .done q k) : 0 < k.repeated := by
  obtain ⟨_, _, k₁, _, h₁, rfl⟩ := bind_done h
  obtain ⟨_, _, k₂, _, h₂, rfl⟩ := bind_done h₁
  obtain ⟨_, _, k₃, _, h₃, rfl⟩ := bind_done h₂
  obtain ⟨_, _, k₄, _, h₄, rfl⟩ := bind_done h₃
  obtain ⟨_, _, k₅, settled, h₅, rfl⟩ := bind_done h₄
  rw [refused] at settled
  cases settled
  simp only [Cost.add_repeated]
  omega

theorem objectLoop_steps {emit : Bool} (fuel : Nat) (continues : Continues handler)
    (streaming : setup.options.duplicateKeys ≠ .keepLast) (same : Agrees setup depth parse parse') :
    LoopAgrees setup handler depth log emit parse parse' fuel := by
  induction fuel with
  | zero => exact fun _ _ _ _ _ _ _ _ => .failed
  | succ fuel ih =>
    intro ctx c t keys members seen here within
    rw [objectLoop_afterKey]
    unfold objectLoop
    rw [here.follows.cursor]
    by_cases quote : peekByte c.rest = 0x22
    · rw [if_neg (not_not.mpr quote)]
      refine (parseString_steps here within).bind ?_
      rintro t₁ ⟨key, ctx₁⟩ ⟨⟨text, keySpan⟩, c₁⟩ within₁ ⟨there, further, live, view⟩
      dsimp only at there further live view ⊢
      have back {t' : Tally} {ctx' : EventContext} {q : List Member × Cursor}
          (done : Delivers setup depth log emit ctx₁ walkMembers t' ctx' q ∧ peekByte q.2.rest = 0x7D) :
          Delivers setup depth log emit ctx walkMembers t' ctx' q ∧ peekByte q.2.rest = 0x7D :=
        ⟨⟨done.1.1, further.trans done.1.2⟩, done.2⟩
      have seen₁ := seen.mono further
      by_cases new : setup.options.duplicateKeys = .preserve ∨ text ∉ members.map fst
      · have kept (span : SourceSpan) (value : SpannedValue) :
            keep setup.options.duplicateKeys members (text, span, value) = some (members ++ [(text, span, value)]) := by
          by_cases repeated : text ∈ members.map fst
          · exact (keep_found repeated span value).2.2 (new.resolve_right fun absent => absent repeated)
          · exact keep_new repeated span value
        have paid : (afterKey setup.toProfile parse' fuel keySpan text c₁ fun member new =>
              admitKeys setup.options.duplicateKeys members (member :: new)) = (do
            charge { members := 1 }
            afterKey setup.toProfile parse' fuel keySpan text c₁ fun member new =>
              admitKeys setup.options.duplicateKeys (members ++ [member]) new) := by
          rw [← afterKey_charge _ _ _ _ _ _ rfl]
          exact afterKey_congr fun span value new => by simp [admitKeys, kept]
        rw [paid]
        obtain ⟨full, room⟩ := admitKey_new there seen₁ live view new
        refine .prepay (fun fits => ?_) fun exceeds => ?_
        · have space := fits.members
          rcases room (by dsimp only at space; omega) with ⟨e, failed, gives⟩ | ⟨keys', ctx₂, admitted, there₂, further₂, seen₂⟩
          · rw [failed]
            exact .giveUp gives
          rw [admitted]
          have within₂ := (((eventBudget setup.toProfile).fits_add t₁ _ 0).mp (by rwa [add_zero])).2
          refine (afterKey_steps continues same ih true (fun member => members ++ [member]) (fun _ _ => rfl) seen₂
            (further₂.live _ live) ((further₂.view _ live).trans view) there₂ within₂).mono ?_
          rintro t' ctx' q ⟨⟨tracks, extended⟩, close⟩
          exact back ⟨⟨tracks, further₂.trans extended⟩, close⟩
        · obtain ⟨e, failed, limited⟩ := full (by
            by_contra space
            exact exceeds ⟨within₁.nodes, by dsimp only; omega, Nat.zero_le _, trivial, rfl⟩)
          rw [failed]
          exact ⟨e, rfl, limited⟩
      · push_neg at new
        obtain ⟨policy, found⟩ := new
        obtain ⟨rejects, drops⟩ := admitKey_found seen₁ (by rw [view]; exact found)
        by_cases mode : setup.options.duplicateKeys = .reject
        · obtain ⟨e, failed, limited⟩ := rejects mode
          rw [failed]
          refine .doomed limited fun q k h fits => ?_
          have refused (span : SourceSpan) (value : SpannedValue) (new : List Member) :
              admitKeys setup.options.duplicateKeys members ((text, span, value) :: new) = .done [] { repeated := 1 } := by
            simp only [admitKeys, (keep_found found span value).1 mode]
          have positive := afterKey_refused refused h
          have := fits.distinct
          omega
        · have first : setup.options.duplicateKeys = .keepFirst := by
            cases other : setup.options.duplicateKeys <;> simp_all
          have dropped : (afterKey setup.toProfile parse' fuel keySpan text c₁ fun member new =>
                admitKeys setup.options.duplicateKeys members (member :: new)) =
              afterKey setup.toProfile parse' fuel keySpan text c₁ fun _ new =>
                admitKeys setup.options.duplicateKeys members new := by
            refine afterKey_congr fun span value new => ?_
            simp only [admitKeys, (keep_found found span value).2.1 first, Nat.sub_self]
            exact done_zero_bind _ _
          rw [drops first, dropped]
          exact (afterKey_steps continues same ih false (fun _ => members) (fun _ _ => rfl) (fun _ _ => seen₁) live view
            there within₁).mono fun _ _ _ => back
    · rw [if_pos quote]
      have failed : Syntax.readString setup.toProfile c = .failed := by
        simp only [Syntax.readString, Cursor.scanString, if_pos quote, free, failed_bind]
      rw [failed]
      exact .failed

theorem objectMembers_steps {emit : Bool} (continues : Continues handler)
    (streaming : setup.options.duplicateKeys ≠ .keepLast) (same : Agrees setup depth parse parse')
    (here : Tracks setup depth log ctx c t) (within : (eventBudget setup.toProfile).fits t 0) :
    Steps setup t
      (fun t' ctx' q => Delivers setup depth log emit ctx walkMembers t' ctx' q ∧ peekByte q.2.rest = 0x7D)
      (objectMembers setup handler parse ctx emit) (do
        let (new, c) ← Syntax.objectMembers setup.toProfile parse' c
        let kept ← admitKeys setup.options.duplicateKeys [] new
        pure (kept, c)) := by
  have start : Tracks setup depth (log ++ if emit then walkMembers [] else []) ctx c t := by
    cases emit <;> simpa [walkMembers] using here
  unfold objectMembers Syntax.objectMembers
  rw [here.follows.cursor]
  by_cases empty : peekByte c.rest = 0x7D
  · rw [if_pos empty, if_pos empty]
    exact .pure within ⟨⟨start, .refl _⟩, empty⟩
  · rw [if_neg empty, if_neg empty]
    exact objectLoop_steps _ continues streaming same _ _ _ [] [] ⟨by simp, by simp⟩ start within

theorem parseObject_first (depth : Nat) (c : Cursor) :
    Alike (eventBudget profile) (do
      charge { nodes := 1 }
      charge { deepest := depth + 1 }
      let (_, after) ← free ((c.advance 1).skipTrivia profile)
      let (kept, after) ← (do
        let (new, c) ← Syntax.objectMembers profile parse' after
        let kept ← admitKeys profile.options.duplicateKeys [] new
        pure (kept, c))
      pure (.object ⟨profile.source, c.offset, (after.advance 1).offset⟩ kept, after.advance 1))
      (Syntax.parseObject profile parse' depth c) := by
  simp only [Syntax.parseObject, pure_eq_done]
  cases (c.advance 1).skipTrivia profile with
  | error e => exact .same _
  | ok r =>
    simp only [free, done_zero_bind]
    cases Syntax.objectMembers profile parse' r.2 with
    | failed => exact .same _
    | done q k =>
      obtain ⟨new, after⟩ := q
      obtain ⟨all, refused⟩ := admitKeys_keepAll profile.options.duplicateKeys [] new
      cases settled : keepAll profile.options.duplicateKeys [] new with
      | some kept =>
        have paid := (all kept settled).2
        simp only [done_bind, charge, Syntax.settle, settled, paid, List.length_nil, Nat.sub_zero,
          zero_add, add_zero]
        have equal : ({ nodes := 1 } : Cost) + ({ deepest := depth + 1 } + (k + { members := kept.length })) =
            { deepest := depth + 1 } + (k + ({ members := kept.length } + { nodes := 1 })) := by
          ext1 <;> simp
          omega
        rw [equal]
        exact .same _
      | none =>
        obtain ⟨k', paid, positive⟩ := refused settled
        simp only [done_bind, Syntax.settle, settled, paid]
        refine .unaffordable (fun t fits => ?_) (fun t fits => ?_)
        · have := fits.distinct
          simp only [Cost.add_repeated] at this
          omega
        · have := fits.distinct
          simp only [Cost.add_repeated] at this
          omega

theorem parseObject_steps {emit : Bool} (continues : Continues handler)
    (streaming : setup.options.duplicateKeys ≠ .keepLast) (same : Agrees setup (depth + 1) parse parse')
    (here : Tracks setup depth log ctx c t) (within : (eventBudget setup.toProfile).fits t 0)
    (present : 0 < c.rest.length) :
    Steps setup t (Delivers setup depth log emit ctx walk) (parseObject setup handler parse ctx emit)
      (Syntax.parseObject setup.toProfile parse' depth c) := by
  refine Checks.alike ?_ (parseObject_first setup.toProfile depth c)
  refine openContainer_steps continues here within present fun ctx₁ there₁ further₁ within₁ => ?_
  refine (lex_steps there₁ within₁ fun _ _ h => let ⟨n, past, _⟩ := Cursor.skipTrivia_over h; ⟨n, past⟩).bind ?_
  rintro t₂ ⟨_, ctx₂⟩ ⟨_, c₂⟩ within₂ ⟨-, there₂, further₂, -⟩
  refine (objectMembers_steps continues streaming same there₂ within₂).bind ?_
  rintro t₃ ctx₃ ⟨kept, c₃⟩ within₃ ⟨⟨there₃, further₃⟩, close⟩
  obtain ⟨ctx₄, closed, there₄, further₄⟩ := closeContainer_tracks continues there₃ close (by decide)
  rw [closed]
  refine .pure within₃ ⟨⟨there₄.follows, there₄.depth, there₄.nodes, there₄.members, ?_⟩,
    ((further₁.trans further₂).trans further₃).trans further₄⟩
  rw [there₄.events]
  cases emit <;> simp [walk]

end

theorem parseValue_steps (setup : Setup) (fuel : Nat) (continues : Continues handler)
    (streaming : setup.options.duplicateKeys ≠ .keepLast) :
    Agrees setup depth (parseValue setup handler fuel) (Syntax.parseValue setup.toProfile fuel depth) := by
  have late {α β : Type} (x : Audited Cost α) (f : α → Audited Cost β) :
      (do let a ← x; charge { nodes := 1 }; f a) = (do charge { nodes := 1 }; let a ← x; f a) :=
    charge_bind_comm (Cost.commute rfl) x f
  induction fuel generalizing depth with
  | zero => exact fun _ _ _ _ _ _ _ => .failed
  | succ fuel ih =>
    intro ctx c t log emit here within
    refine (lex_steps here within fun _ _ h => let ⟨n, past, _⟩ := skipTrivia_over h; ⟨n, past⟩).bind ?_
    rintro t₁ ⟨_, ctx₁⟩ ⟨_, c₁⟩ within₁ ⟨-, there, further, -⟩
    dsimp only at there further ⊢
    have back {t' : Tally} {ctx' : EventContext} {q : SpannedValue × Cursor}
        (done : Delivers setup depth log emit ctx₁ walk t' ctx' q) : Delivers setup depth log emit ctx walk t' ctx' q :=
      ⟨done.1, further.trans done.2⟩
    rw [there.follows.cursor]
    refine .ite Iff.rfl (fun _ brace => ?_) fun _ _ => .ite Iff.rfl (fun _ bracket => ?_) fun _ _ => ?_
    · exact (parseObject_steps continues streaming ih there within₁ (peekByte_some brace (by decide))).mono
        fun _ _ _ => back
    · exact (parseArray_steps continues ih there within₁ (peekByte_some bracket (by decide))).mono fun _ _ _ => back
    · by_cases quote : peekByte c₁.rest = 0x22
      · simp only [quote, late]
        refine beginValue_steps there within₁ fun ctx₂ there₂ reader₂ within₂ => ?_
        refine (parseString_steps there₂ within₂).bind ?_
        rintro t₃ ⟨string, ctx₃⟩ ⟨⟨text, span⟩, c₃⟩ within₃ ⟨there₃, further₃, live, view⟩
        rw [deliver_continues continues]
        refine .pure within₃ (back ⟨?_, reader₂ ▸ further₃⟩)
        have delivered := there₃.deliver ⟨.string (ctx₃.reader.memory.view string.value), string.span⟩ emit
        simpa [walk, scalarEvent, view] using delivered
      · simp only [quote, late]
        refine beginValue_steps there within₁ fun ctx₂ there₂ reader₂ within₂ => ?_
        refine (lex_steps there₂ within₂ fun _ _ h => let ⟨n, past, _⟩ := readScalar_over h; ⟨n, past⟩).bind ?_
        rintro t₃ ⟨⟨value, span⟩, ctx₃⟩ ⟨⟨value', span'⟩, c₃⟩ within₃ ⟨read, there₃, further₃, -⟩
        cases read
        rw [deliver_continues continues]
        refine .pure within₃ (back ⟨?_, reader₂ ▸ further₃⟩)
        exact there₃.deliver ⟨scalarEvent value, span⟩ emit

end EventContext

/-- The event parser accepts exactly the readable, well-formed texts whose cost fits its limits, and
    delivers their walk. -/
theorem parseEvents_steps (setup : Setup) {handler : EventHandler} (continues : Continues handler)
    (scratch : ParseScratch) (input : Bytes) (streaming : setup.options.duplicateKeys ≠ .keepLast)
    (readable : Readable setup.toProfile input) :
    Checks (eventBudget setup.toProfile) (Exhausted setup) (LimitFailure setup.toProfile) {}
      (fun _ events tree => events.map Event.data = walk tree)
      (parseEventsContiguous setup handler scratch input) (Syntax.parse setup.toProfile input) := by
  unfold parseEventsContiguous
  dsimp only
  rw [if_neg (by have := readable.1; omega), if_neg fun invalid => by simp [readable.2 invalid.1] at invalid]
  by_cases granted : setup.resources.grants 0 = false
  · rw [if_pos granted]
    exact .giveUp ⟨⟨0, .inl granted⟩, .inl rfl⟩
  rw [if_neg granted]
  have start : EventContext.Tracks { setup with ownership := .borrowed } 0 []
      { reader := { memory := { source := input, scratch := scratch.reset.reserve input.length }, requests := 1 } }
      { rest := input } {} := by
    refine ⟨⟨rfl, rfl, Nat.zero_le _, rfl, fun _ => ?_⟩, rfl, rfl, rfl, rfl⟩
    unfold ParseScratch.reserve
    split
    · exact ⟨‹_›, Nat.zero_le _⟩
    · exact ⟨le_refl _, Nat.zero_le _⟩
  have within : (eventBudget setup.toProfile).fits {} 0 := (start_fits setup.toProfile).1
  refine (EventContext.parseValue_steps { setup with ownership := .borrowed } (input.length + 1) continues
    streaming _ _ _ _ true start within).bind ?_
  rintro t₁ ctx₁ ⟨root, c₁⟩ within₁ ⟨there₁, _⟩
  refine (EventContext.lex_steps there₁ within₁ fun _ _ h =>
    let ⟨n, past, _⟩ := skipTrivia_over h; ⟨n, past⟩).bind ?_
  rintro t₂ ⟨_, ctx₂⟩ ⟨_, c₂⟩ within₂ ⟨-, there₂, -, -⟩
  dsimp only
  rw [there₂.follows.cursor]
  by_cases finished : c₂.rest = []
  · rw [if_neg (not_not.mpr finished), if_pos finished]
    exact .pure within₂ (by simpa using there₂.events)
  · rw [if_pos finished, if_neg finished]
    exact .failed

end NginBase.Json
