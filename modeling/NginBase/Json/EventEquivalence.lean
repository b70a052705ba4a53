import NginBase.Json.EventAgreement

namespace NginBase.Json

open Library Parser Syntax Audited

theorem Parser.run_checks (setup : Setup) (scratch : ParseScratch) (mode : Ownership) (input : Bytes)
    (readable : Reference.Readable setup.toProfile input) :
    Checks (documentBudget setup.toProfile) (Exhausted setup) (LimitFailure setup.toProfile) {}
      (fun _ doc tree => doc.tree = tree) (run setup scratch mode input) (Syntax.parse setup.toProfile input) := by
  have run := Checks.of_simulates (run_refines setup scratch mode input) (Reference.parse_admitted input readable)
    fun _ _ => EventContext.limitFailure_same
  refine run.mono ?_
  rintro _ doc tree ⟨_, same, rfl⟩
  exact same

theorem Parser.run_readable {setup : Setup} {scratch : ParseScratch} {mode : Ownership} {input : Bytes}
    {doc : Document} (h : run setup scratch mode input = .ok doc) : Reference.Readable setup.toProfile input := by
  rcases run_cases setup scratch mode input with ⟨e, failed, _⟩ | ⟨doc', ok, reference⟩ | ⟨d, e, failed, _, _⟩
  · rw [failed] at h
    cases h
  · exact Reference.parse_readable reference
  · rw [failed] at h
    cases h

theorem parseEvents_readable {setup : Setup} {handler : EventHandler} {scratch : ParseScratch} {input : Bytes}
    {events : List Event} (h : parseEventsContiguous setup handler scratch input = .ok events) :
    Reference.Readable setup.toProfile input := by
  unfold parseEventsContiguous at h
  dsimp only at h
  split at h
  · cases h
  split at h
  · cases h
  rename_i small valid
  exact ⟨by omega, fun validate => by simpa [validate] using valid⟩

/-- What the event parser accepts although the document parser stops at a limit of its own: too many
    array elements, or more nodes than there are node identifiers. -/
def ExceedsTables (profile : Profile) (input : Bytes) : Prop :=
  ∃ tree k, parse profile input = .done tree k ∧
    (profile.limits.maxMembers < k.elements ∨ 2 ^ 32 - 1 < k.nodes)

/-- A text that the document parser accepts is delivered as the walk of its tree, and a text that the
    event parser accepts is a document unless it exceeds the tables; either run may also be refused
    memory. -/
theorem events_agree_with_document (profile : Profile) (resources eventResources : Resources)
    (scratch eventScratch : ParseScratch) (handler : EventHandler) (input : Bytes) (continues : Continues handler)
    (streaming : profile.options.duplicateKeys ≠ .keepLast) : let setup : Setup := { profile with resources := resources }
    let eventSetup : Setup := { profile with resources := eventResources }
    (∀ doc, parseBorrowed setup scratch input = .ok doc →
      (∃ events, parseEventsContiguous eventSetup handler eventScratch input = .ok events ∧
        events.map Event.data = walk doc.tree) ∨
      ∃ e, parseEventsContiguous eventSetup handler eventScratch input = .error e ∧ MemoryFailure e ∧
        eventSetup.Scarce) ∧
    ∀ events, parseEventsContiguous eventSetup handler eventScratch input = .ok events →
      (∃ doc, parseBorrowed setup scratch input = .ok doc ∧ events.map Event.data = walk doc.tree) ∨
      (∃ e, parseBorrowed setup scratch input = .error e ∧ MemoryFailure e ∧ setup.Scarce) ∨
      ExceedsTables profile input := by
  intro setup eventSetup
  have checked (readable : Reference.Readable profile input) :=
    And.intro (run_checks setup scratch .borrowed input readable)
      (parseEvents_steps eventSetup continues eventScratch input streaming readable)
  change (∀ doc, run setup scratch .borrowed input = .ok doc → _) ∧ ∀ events, _ →
    (∃ doc, run setup scratch .borrowed input = .ok doc ∧ _) ∨
    (∃ e, run setup scratch .borrowed input = .error e ∧ _) ∨ _
  constructor
  · intro doc ok
    obtain ⟨document, stream⟩ := checked (run_readable ok)
    rw [ok] at document
    obtain ⟨tree, k, parsed, fits, same⟩ := document.ok_cases
    rw [show parse eventSetup.toProfile input = .done tree k from parsed] at stream
    rcases stream.done_cases with ⟨e, failed, scarce, memory⟩ | ⟨e, failed, limited, exceeds⟩ | ⟨events, ok', _, walked⟩
    · exact .inr ⟨e, failed, memory, scarce⟩
    · exact absurd fits.1 exceeds
    · exact .inl ⟨events, ok', by rw [walked, same]⟩
  · intro events ok
    obtain ⟨document, stream⟩ := checked (parseEvents_readable ok)
    rw [ok] at stream
    obtain ⟨tree, k, parsed, fits, walked⟩ := stream.ok_cases
    rw [show parse setup.toProfile input = .done tree k from parsed] at document
    rcases document.done_cases with ⟨e, failed, scarce, memory⟩ | ⟨e, failed, limited, exceeds⟩ | ⟨doc, ok', _, same⟩
    · exact .inr (.inl ⟨e, failed, memory, scarce⟩)
    · refine .inr (.inr ⟨tree, k, parsed, ?_⟩)
      by_contra within
      push Not at within
      exact exceeds ⟨fits, ⟨by simpa using within.2, by simpa using within.1⟩⟩
    · exact .inl ⟨doc, ok', by rw [walked, same]⟩

section

def zeros : Nat → Bytes
  | 0 => [0x30, 0x5D]
  | n + 1 => 0x30 :: 0x2C :: zeros n

theorem length_zeros (n : Nat) : (zeros n).length = 2 * n + 2 := by
  induction n with
  | zero => rfl
  | succ n ih => simp [zeros]; omega

theorem zeros_ascii (n : Nat) : ∀ b ∈ zeros n, b.toNat < 0x80 := by
  induction n with
  | zero => simp [zeros]
  | succ n ih => simpa [zeros] using ih

theorem zeros_readable (profile : Profile) (n : Nat) (small : 2 * n + 3 ≤ profile.limits.maxInputBytes) :
    Reference.Readable profile (0x5B :: zeros n) := by
  refine ⟨by simp only [List.length_cons, length_zeros]; omega, fun _ => ?_⟩
  rw [Unicode.isValidUtf8_iff]
  refine Unicode.validUtf8_ascii fun b member => ?_
  rcases List.mem_cons.mp member with rfl | inside
  · decide
  · exact zeros_ascii n b inside

theorem zeros_head (n : Nat) : ∃ rest, zeros n = 0x30 :: rest := by
  cases n <;> exact ⟨_, rfl⟩

variable (profile : Profile)

theorem zero_value (fuel depth offset : Nat) (b : UInt8) (rest : Bytes) (next : b = 0x2C ∨ b = 0x5D) :
    parseValue profile (fuel + 1) depth ⟨offset, 0x30 :: b :: rest⟩ =
      .done (.scalar ⟨profile.source, offset, offset + 1⟩ (.int64 0), ⟨offset + 1, b :: rest⟩) { nodes := 1 } := by
  rcases next with rfl | rfl <;> rfl

theorem bracket_value (fuel depth offset : Nat) (rest : Bytes) :
    parseValue profile (fuel + 1) depth ⟨offset, 0x5B :: rest⟩ =
      parseArray profile (parseValue profile fuel (depth + 1)) depth ⟨offset, 0x5B :: rest⟩ := by
  have plain : (⟨offset, 0x5B :: rest⟩ : Cursor).skipTrivia profile = .ok ((), ⟨offset, 0x5B :: rest⟩) := rfl
  exact done_zero_bind _ _

theorem zeros_values (n fuel fuel' depth offset : Nat) (enough : n < fuel) :
    ∃ values c k, arrayLoop profile (parseValue profile (fuel' + 1) depth) fuel ⟨offset, zeros n⟩ =
        .done (values, c) k ∧ c.rest = [0x5D] ∧ values.length = n + 1 ∧ k = { nodes := n + 1 } := by
  induction n generalizing fuel offset with
  | zero =>
    obtain ⟨fuel, rfl⟩ : ∃ m, fuel = m + 1 := ⟨fuel - 1, by omega⟩
    simp only [zeros, arrayLoop, zero_value profile fuel' depth offset 0x5D [] (.inr rfl)]
    exact ⟨_, _, _, rfl, rfl, rfl, rfl⟩
  | succ n ih =>
    obtain ⟨fuel, rfl⟩ : ∃ m, fuel = m + 1 := ⟨fuel - 1, by omega⟩
    obtain ⟨values, c, k, rest, close, count, paid⟩ := ih fuel (offset + 1 + 1) (by omega)
    obtain ⟨more, head⟩ := zeros_head n
    have separated : (⟨offset + 1, 0x2C :: zeros n⟩ : Cursor).separator profile 0x5D
        "Expected ',' or ']' in JSON array" "Trailing comma in JSON array" = .ok (false, ⟨offset + 1 + 1, zeros n⟩) := by
      rw [head]
      rfl
    simp only [zeros, arrayLoop, zero_value profile fuel' depth offset 0x2C _ (.inl rfl), separated, free,
      Bool.false_eq_true, if_false, done_bind, rest, pure_eq_done]
    refine ⟨_, _, _, rfl, close, by simp [count], ?_⟩
    rw [paid]
    ext1 <;> simp
    omega

theorem zeros_parse (n : Nat) :
    ∃ tree, Syntax.parse profile (0x5B :: zeros n) = .done tree { nodes := n + 2, elements := n + 1, deepest := 1 } := by
  have length := length_zeros n
  obtain ⟨values, c, k, rest, close, count, paid⟩ :=
    zeros_values profile n ((zeros n).length + 1) (zeros n).length 1 1 (by omega)
  obtain ⟨more, head⟩ := zeros_head n
  have skipped : ((⟨0, 0x5B :: zeros n⟩ : Cursor).advance 1).skipTrivia profile = .ok ((), ⟨1, zeros n⟩) := by
    rw [head]
    rfl
  have nonempty : peekByte (zeros n) ≠ 0x5D := by
    rw [head]
    exact (by decide : (0x30 : UInt8) ≠ 0x5D)
  have finished : (c.advance 1).skipTrivia profile = .ok ((), c.advance 1) := by
    obtain ⟨offset, _⟩ := c
    rw [show (⟨offset, _⟩ : Cursor).advance 1 = ⟨offset + 1, []⟩ by rw [Cursor.advance, close]; rfl]
    rfl
  have bracket : Syntax.parseArray profile (Syntax.parseValue profile ((zeros n).length + 1) 1) 0
        ⟨0, 0x5B :: zeros n⟩ = .done (.array ⟨profile.source, 0, (c.advance 1).offset⟩ values, c.advance 1)
        { nodes := n + 2, elements := n + 1, deepest := 1 } := by
    simp only [Syntax.parseArray, skipped, free, Syntax.arrayValues, nonempty, if_false,
      rest, done_bind, charge, pure_eq_done, paid, count]
    congr 1
    ext1 <;> simp
  refine ⟨.array ⟨profile.source, 0, (c.advance 1).offset⟩ values, ?_⟩
  rw [Syntax.parse, List.length_cons, bracket_value, bracket]
  simp only [done_bind, finished, free]
  rw [if_pos (by simp [close])]
  rfl

theorem zeros_events_without_document (setup : Setup) (handler : EventHandler) (scratch : ParseScratch) (n : Nat)
    (continues : Continues handler) (streaming : setup.options.duplicateKeys ≠ .keepLast)
    (limits : setup.limits = .unlimited) (plenty : ¬ setup.Scarce) (large : 2 ^ 32 - 1 < n + 2) (small : n < 2 ^ 60) :
    (∃ events, parseEventsContiguous setup handler scratch (0x5B :: zeros n) = .ok events) ∧
      ∃ e, parseBorrowed setup scratch (0x5B :: zeros n) = .error e := by
  have readable := zeros_readable setup.toProfile n (by rw [limits]; simp only [ParseLimits.unlimited]; omega)
  obtain ⟨tree, parsed⟩ := zeros_parse setup.toProfile n
  have stream := parseEvents_steps setup continues scratch _ streaming readable
  have document := run_checks setup scratch .borrowed _ readable
  rw [parsed] at stream document
  constructor
  · rcases stream.done_cases with ⟨e, _, scarce, _⟩ | ⟨e, _, _, exceeds⟩ | ⟨events, ok, _, _⟩
    · exact absurd scarce plenty
    · refine absurd ⟨?_, ?_, ?_, trivial, rfl⟩ exceeds <;> rw [limits] <;> simp only [ParseLimits.unlimited] <;> omega
    · exact ⟨events, ok⟩
  · rcases document.done_cases with ⟨e, _, scarce, _⟩ | ⟨e, failed, _, _⟩ | ⟨doc, _, fits, _⟩
    · exact absurd scarce plenty
    · exact ⟨e, failed⟩
    · have ids := fits.2.ids
      dsimp only at ids
      omega

theorem document_runs_out_of_ids : let setup : Setup := { limits := .unlimited, fromChars := fun _ => ⟨⟨0⟩, 0, false⟩ }
    let input := 0x5B :: zeros (2 ^ 32 - 2)
    (∃ events, parseEventsContiguous setup (fun _ _ => {}) {} input = .ok events) ∧
      (∃ e, parseBorrowed setup {} input = .error e) ∧
      ¬ setup.Scarce ∧ ∀ tree k, parse setup.toProfile input = .done tree k → k.elements ≤ setup.limits.maxMembers := by
  intro setup input
  have plenty : ¬ setup.Scarce := by
    rintro ⟨n, refused | exceeded⟩
    · cases refused
    · exact absurd exceeded (Nat.not_lt_zero _)
  obtain ⟨stream, document⟩ := zeros_events_without_document setup (fun _ _ => {}) {} (2 ^ 32 - 2) (fun _ _ => rfl)
    (by decide) rfl plenty (by omega) (by omega)
  refine ⟨stream, document, plenty, fun tree k parsed => ?_⟩
  obtain ⟨tree', parsed'⟩ := zeros_parse setup.toProfile (2 ^ 32 - 2)
  rw [parsed'] at parsed
  cases parsed
  simp only [setup, ParseLimits.unlimited]
  omega

end

theorem events_agree_keepFirst :
    let setup : Setup := { options := { duplicateKeys := .keepFirst }, fromChars := fun _ => ⟨⟨0⟩, 0, false⟩ }
    let input : Bytes := [0x7B, 0x22, 0x61, 0x22, 0x3A, 0x31, 0x2C, 0x22, 0x61, 0x22, 0x3A, 0x5B, 0x32, 0x5D, 0x7D]
    (parseBorrowed setup {} input).isOk = true ∧
      ∀ doc, parseBorrowed setup {} input = .ok doc →
        ∃ events, parseEventsContiguous setup (fun _ _ => {}) {} input = .ok events ∧
          events.map Event.data = walk doc.tree := by
  intro setup input
  refine ⟨by decide +kernel, fun doc ok => ?_⟩
  have agree := events_agree_with_document setup.toProfile setup.resources setup.resources {} {} (fun _ _ => {}) input
    (fun _ _ => rfl) (by decide)
  exact (agree.1 doc ok).resolve_right fun ⟨_, _, _, n, scarce⟩ => by
    rcases scarce with refused | exceeded
    · cases refused
    · exact absurd exceeded (Nat.not_lt_zero _)

end NginBase.Json
