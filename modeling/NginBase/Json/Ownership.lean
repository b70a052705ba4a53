import NginBase.Json.ParserRefines

namespace NginBase.Json

open Library Reference

def Parser.run (setup : Setup) (scratch : ParseScratch) (mode : Ownership) (input : Bytes) : Except Failure Document :=
  match mode with
  | .owned => parse setup input
  | .inSitu => parseInSitu setup input
  | .borrowed => parseBorrowed setup scratch input

theorem Parser.run_refines (setup : Setup) (scratch : ParseScratch) (mode : Ownership) (input : Bytes) :
    Simulates (Exhausted setup) Failure.Same (fun doc tree => doc.tree = tree)
      (run setup scratch mode input) (Reference.parse setup.toProfile input) := by
  cases mode with
  | owned => exact parseWith_refines { setup with ownership := .owned } { source := input } nofun
  | inSitu => exact parseWith_refines { setup with ownership := .inSitu } { source := input } nofun
  | borrowed =>
    refine parseWith_refines { setup with ownership := .borrowed }
      { source := input, scratch := scratch.reset.reserve input.length } fun _ => ?_
    unfold ParseScratch.reserve
    split
    · exact ⟨‹_›, rfl⟩
    · exact ⟨le_refl _, rfl⟩

theorem Parser.run_cases (setup : Setup) (scratch : ParseScratch) (mode : Ownership) (input : Bytes) :
    (∃ e, run setup scratch mode input = .error e ∧ Exhausted setup e) ∨
      (∃ doc, run setup scratch mode input = .ok doc ∧ Reference.parse setup.toProfile input = .ok doc.tree) ∨
      ∃ d e, run setup scratch mode input = .error (.diagnostic d) ∧
        Reference.parse setup.toProfile input = .error (.diagnostic e) ∧ d.Same e := by
  have simulation := run_refines setup scratch mode input
  have fueled := Reference.parse_fueled setup.toProfile input
  generalize run setup scratch mode input = x at simulation ⊢
  generalize Reference.parse setup.toProfile input = y at simulation fueled ⊢
  cases simulation with
  | giveUp gives => exact .inl ⟨_, rfl, gives⟩
  | @ok doc tree same => exact .inr (.inl ⟨doc, rfl, by rw [same]⟩)
  | @error f g same =>
    cases g with
    | fuel => exact absurd rfl fueled
    | diagnostic e =>
      cases f with
      | fuel => exact same.elim
      | diagnostic d => exact .inr (.inr ⟨d, e, rfl, rfl, same⟩)

section

/-- What parsing on from `ctx` left alone: the bytes still to be read and every string produced
    before. -/
structure Undisturbed (r r' : Reader) : Prop where
  ahead : r'.memory.source.drop r'.offset = r.memory.source.drop r'.offset
  strings : ∀ ref, r.Live ref → r'.Live ref ∧ r'.memory.view ref = r.memory.view ref

variable {setup : Setup}

theorem Undisturbed.of_follows {r r' : Reader} {c : Cursor} {decoded n : Nat} (follows : r'.Follows setup c decoded)
    (past : r.cursor.Over c n) (extended : r.Extends r') : Undisturbed r r' where
  ahead := by
    obtain ⟨_, rfl⟩ := past
    rw [follows.rest, follows.offset, Cursor.advance_rest, Cursor.advance_offset, Reader.cursor, List.drop_drop]
  strings ref live := ⟨extended.live ref live, extended.view ref live⟩

theorem parseString_undisturbed {r r' : Reader} {refused : String} {string : ParsedString}
    (mode : setup.ownership = .inSitu) (inside : r.offset ≤ r.memory.source.length)
    (h : r.parseString setup refused = .ok (string, r')) : Undisturbed r r' := by
  have start : r.Follows setup r.cursor r.decodedBytes := ⟨rfl, rfl, inside, rfl, by simp [mode]⟩
  have run := Reader.parseString_spec (s := ⟨r.cursor, { decoded := r.decodedBytes }⟩) refused start
  rw [h] at run
  generalize result : parseString setup.toProfile _ = y at run
  cases run with
  | ok parsed =>
    obtain ⟨n, _, past⟩ := parseString_further result
    exact .of_follows parsed.follows past parsed.extends'

theorem parseValue_undisturbed {ctx ctx' : ParseContext} {fuel : Nat} {id : NodeId}
    (mode : setup.ownership = .inSitu) (inside : ctx.reader.offset ≤ ctx.reader.memory.source.length)
    (h : ctx.parseValue setup fuel = .ok (id, ctx')) : Undisturbed ctx.reader ctx'.reader := by
  have start : ParseContext.Matches setup ctx.depth ctx ⟨ctx.reader.cursor,
      ⟨ctx.nodes.length, ctx.elements.length, ctx.members.length, ctx.reader.decodedBytes⟩⟩ :=
    ⟨⟨rfl, rfl, inside, rfl, by simp [mode]⟩, rfl, rfl, rfl, rfl⟩
  have run := ParseContext.parseValue_refines fuel start
  rw [h] at run
  generalize result : parseValue setup.toProfile _ _ _ = y at run
  cases run with
  | ok produced =>
    obtain ⟨n, _, past⟩ := parseValue_further result
    exact .of_follows produced.matches'.follows past produced.extends'.reader

end

/-- Parsing the same text under the same options and limits ends the same way in all three modes
    unless one of them runs out of memory, and decoding in place disturbs nothing. -/
theorem ownership_modes_agree (profile : Profile) (resources : Ownership → Resources) (scratch : ParseScratch)
    (input : Bytes) :
    let setup (mode : Ownership) : Setup := { profile with ownership := mode, resources := resources mode }
    let run (mode : Ownership) := Parser.run (setup mode) scratch mode input
    ((∃ mode e, run mode = .error e ∧ MemoryFailure e ∧ (setup mode).Scarce) ∨
      (∃ documents : Ownership → Document, (∀ mode, run mode = .ok (documents mode)) ∧
        ∀ mode mode', (documents mode).tree = (documents mode').tree) ∨
      ∃ diagnostics : Ownership → ParseDiagnostic, (∀ mode, run mode = .error (.diagnostic (diagnostics mode))) ∧
        ∀ mode mode', (diagnostics mode).code = (diagnostics mode').code ∧
          (diagnostics mode).span = (diagnostics mode').span ∧
          (diagnostics mode).related = (diagnostics mode').related) ∧
    (∀ (r r' : Reader) (refused : String) (string : ParsedString), r.offset ≤ r.memory.source.length →
      r.parseString (setup .inSitu) refused = .ok (string, r') → Undisturbed r r') ∧
    ∀ (ctx ctx' : ParseContext) (fuel : Nat) (id : NodeId), ctx.reader.offset ≤ ctx.reader.memory.source.length →
      ctx.parseValue (setup .inSitu) fuel = .ok (id, ctx') → Undisturbed ctx.reader ctx'.reader := by
  intro setup run
  refine ⟨?_, fun r r' refused string inside h => parseString_undisturbed rfl inside h,
    fun ctx ctx' fuel id inside h => parseValue_undisturbed rfl inside h⟩
  have cases' (mode : Ownership) := Parser.run_cases (setup mode) scratch mode input
  by_cases scarce : ∃ mode e, run mode = .error e ∧ MemoryFailure e ∧ (setup mode).Scarce
  · exact .inl scarce
  have ends (mode : Ownership) := (cases' mode).resolve_left fun ⟨e, failed, gives⟩ =>
    scarce ⟨mode, e, failed, gives.2, gives.1⟩
  refine .inr ?_
  cases reference : parse profile input with
  | ok tree =>
    have succeeds (mode : Ownership) : ∃ doc, run mode = .ok doc ∧ doc.tree = tree := by
      rcases ends mode with ⟨doc, ok, same⟩ | ⟨d, e, _, failed, _⟩
      · exact ⟨doc, ok, by rw [reference] at same; exact (Except.ok.inj same).symm⟩
      · rw [reference] at failed
        cases failed
    choose documents ok same using succeeds
    exact .inl ⟨documents, ok, fun mode mode' => (same mode).trans (same mode').symm⟩
  | error f =>
    have fails (mode : Ownership) : ∃ d, run mode = .error (.diagnostic d) ∧ ∃ e, f = .diagnostic e ∧ d.Same e := by
      rcases ends mode with ⟨doc, _, same⟩ | ⟨d, e, failed, failed', same⟩
      · rw [reference] at same
        cases same
      · rw [reference] at failed'
        exact ⟨d, failed, e, Except.error.inj failed', same⟩
    choose diagnostics failed e is same using fails
    refine .inr ⟨diagnostics, failed, fun mode mode' => ?_⟩
    have both : e mode = e mode' := Failure.diagnostic.inj ((is mode).symm.trans (is mode'))
    have first := same mode
    have second := same mode'
    rw [both] at first
    exact ⟨first.code.trans second.code.symm, first.span.trans second.span.symm,
      first.related.trans second.related.symm⟩

end NginBase.Json
