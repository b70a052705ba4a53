import NginBase.Xml.ParserRefines
import NginBase.Xml.Totality

namespace NginBase.Xml

open Library Syntax ParseContext

def Parser.run (setup : Setup) (mode : Ownership) (input : Bytes) : Except Failure Document :=
  match mode with
  | .owned => parse setup input
  | .inSitu => parseInSitu setup input
  | .borrowed => parseBorrowed setup input

theorem Parser.run_refines (setup : Setup) (mode : Ownership) (input : Bytes) :
    Simulates (Exhausted setup) Failure.Same (fun doc tree => ∃ ref, doc.Laid ref ∧ doc.tree = tree)
      (run setup mode input) (document setup.toProfile input) := by
  cases mode with
  | owned => exact parseWith_refines { setup with ownership := .owned } _ input
  | inSitu => exact parseWith_refines { setup with ownership := .inSitu } _ input
  | borrowed => exact parseWith_refines { setup with ownership := .borrowed } _ input

theorem Syntax.document_fueled (profile : Profile) (input : Bytes) : document profile input ≠ .error .fuel := by
  unfold document
  cases result : (parse profile input).execute (documentBudget profile.limits) 0 with
  | error e =>
    intro h
    cases h
    exact (parse_ends input).execute result rfl
  | ok value =>
    intro h
    cases h

theorem Syntax.document_ok {profile : Profile} {input : Bytes} {tree : Tree Bytes} : document profile input = .ok tree ↔
      (parse profile input).result = .ok tree ∧ (parse profile input).total.Stored profile.limits := by
  have start : (documentBudget profile.limits).fits 0 0 :=
    Cost.stored_iff.mpr ⟨Cost.admitted_iff.mpr (by simp), by simp⟩
  have run := Charged.execute_ok (documentBudget profile.limits) (parse profile input) start
  have total : (documentBudget profile.limits).fits 0 (parse profile input).total ↔
      (parse profile input).total.Stored profile.limits := by
    show (0 + (parse profile input).total).Stored profile.limits ↔ _
    rw [zero_add]
  rw [← total]
  unfold document
  constructor
  · intro h
    cases result : (parse profile input).execute (documentBudget profile.limits) 0 with
    | error e =>
      rw [result] at h
      cases h
    | ok p =>
      rw [result] at h
      cases h
      obtain ⟨value, fits, _⟩ := (run p.1 p.2).mp result
      exact ⟨value, fits⟩
  · intro ⟨value, fits⟩
    rw [(run tree _).mpr ⟨value, fits, rfl⟩]
    rfl

theorem Parser.run_cases (setup : Setup) (mode : Ownership) (input : Bytes) :
    (∃ e, run setup mode input = .error e ∧ Exhausted setup e) ∨
      (∃ doc ref, run setup mode input = .ok doc ∧ doc.Laid ref ∧
        document setup.toProfile input = .ok doc.tree) ∨
      ∃ d e, run setup mode input = .error (.diagnostic d) ∧
        document setup.toProfile input = .error (.diagnostic e) ∧ d.Same e := by
  have simulation := run_refines setup mode input
  have fueled := document_fueled setup.toProfile input
  generalize run setup mode input = x at simulation ⊢
  generalize document setup.toProfile input = y at simulation fueled ⊢
  cases simulation with
  | giveUp gives => exact .inl ⟨_, rfl, gives⟩
  | @ok doc tree same =>
    obtain ⟨ref, laid, shown⟩ := same
    exact .inr (.inl ⟨doc, ref, rfl, laid, by rw [shown]⟩)
  | @error f g same =>
    cases g with
    | fuel => exact absurd rfl fueled
    | diagnostic e =>
      cases f with
      | fuel => exact same.elim
      | diagnostic d => exact .inr (.inr ⟨d, e, rfl, rfl, same⟩)

section

/-- What parsing on from `ctx` left alone: the bytes still to be read and every text read before. -/
structure Undisturbed (ctx ctx' : ParseContext) : Prop where
  ahead : ctx'.memory.source.drop ctx'.offset = ctx.memory.source.drop ctx'.offset
  texts : ∀ ref, ctx.Live ref → ctx'.Live ref ∧ ctx'.memory.text ref = ctx.memory.text ref

variable {setup : Setup} {ctx ctx' : ParseContext}

theorem decodeInSitu_confined {raw : Slice} {ref : TextRef} (inside : raw.last ≤ ctx.memory.source.length)
    (bytes : (ctx.memory.source.drop raw.first).take raw.bytes.length = raw.bytes)
    (h : ctx.decodeInSitu setup raw = .ok (ref, ctx')) :
    ctx'.memory.source.take raw.first = ctx.memory.source.take raw.first ∧
      ctx'.memory.source.drop raw.last = ctx.memory.source.drop raw.last ∧
      ctx'.memory.decoded = ctx.memory.decoded ∧ ctx'.offset = ctx.offset := by
  have run := decodeInSitu_eq setup ctx bytes inside
  cases result : decodeXmlText raw.bytes with
  | error e =>
    rw [result] at run
    obtain ⟨source, failed⟩ := run
    rw [failed] at h
    cases h
  | ok text =>
    rw [result] at run
    rw [run] at h
    have short := decodeXmlText_length result
    obtain ⟨_, _, h⟩ := bind_ok h
    cases h
    refine ⟨overwrite_take _ _ _ _ (Nat.le_refl _), overwrite_drop _ _ _ _ ?_, rfl, rfl⟩
    unfold Slice.last
    omega

theorem parseElement_undisturbed {fuel : Nat} {id : NodeId} {t : Cost}
    (here : Matches setup ctx.depth ctx ctx.cursor t) (opens : ctx.cursor.peek = 0x3C)
    (enough : ctx.cursor.rest.length < fuel) (h : ctx.parseElement setup fuel = .ok (id, ctx')) : Undisturbed ctx ctx' := by
  have run := parseElement_refines fuel here opens
  have ends : Syntax.Ends (Syntax.ElementEnd ctx.cursor)
      (parseElement setup.toProfile fuel ctx.depth ctx.cursor) := parseElement_ends fuel ctx.depth enough
  unfold Refines Runs at run
  rw [h] at run
  generalize result : Charged.execute (documentBudget setup.limits) t _ = y at run
  cases run with
  | @ok _ p read =>
    obtain ⟨ref, there, further, _⟩ := read
    have value := ((Charged.execute_ok (documentBudget setup.limits) _ (by
      show (t + 0).Stored setup.limits
      rw [add_zero]
      exact here.within) p.1 p.2).mp result).1
    obtain ⟨n, _, over', _⟩ := ends.ok _ value
    constructor
    · rw [there.rest, there.offset, over'.rest, over'.offset, cursor, List.drop_drop]
    · intro ref live
      exact ⟨further.live ref live, further.text ref live⟩

end

/-- Parsing the same text under the same options and limits ends the same way in all three modes
    unless one of them runs out of memory, and decoding in place disturbs nothing. -/
theorem ownership_modes_parse_alike (profile : Profile) (resources : Ownership → Resources) (input : Bytes) :
    let setup (mode : Ownership) : Setup := { profile with ownership := mode, resources := resources mode }
    let run (mode : Ownership) := Parser.run (setup mode) mode input
    ((∃ mode e, run mode = .error e ∧ MemoryFailure e ∧ (setup mode).Scarce) ∨
      (∃ documents : Ownership → Document, (∀ mode, run mode = .ok (documents mode)) ∧
        ∀ mode mode', (documents mode).tree = (documents mode').tree) ∨
      ∃ diagnostics : Ownership → ParseDiagnostic, (∀ mode, run mode = .error (.diagnostic (diagnostics mode))) ∧
        ∀ mode mode', (diagnostics mode).code = (diagnostics mode').code ∧
          (diagnostics mode).span = (diagnostics mode').span ∧
          (diagnostics mode).related = (diagnostics mode').related) ∧
    (∀ (ctx ctx' : ParseContext) (raw : Slice) (ref : TextRef), raw.last ≤ ctx.memory.source.length →
      (ctx.memory.source.drop raw.first).take raw.bytes.length = raw.bytes →
      ctx.decodeInSitu (setup .inSitu) raw = .ok (ref, ctx') →
      ctx'.memory.source.take raw.first = ctx.memory.source.take raw.first ∧
        ctx'.memory.source.drop raw.last = ctx.memory.source.drop raw.last ∧
        ctx'.memory.decoded = ctx.memory.decoded ∧ ctx'.offset = ctx.offset) ∧
    ∀ (ctx ctx' : ParseContext) (fuel : Nat) (id : NodeId) (t : Cost),
      Matches (setup .inSitu) ctx.depth ctx ctx.cursor t → ctx.cursor.peek = 0x3C →
      ctx.cursor.rest.length < fuel → ctx.parseElement (setup .inSitu) fuel = .ok (id, ctx') →
      Undisturbed ctx ctx' := by
  intro setup run
  refine ⟨?_, fun ctx ctx' raw ref inside bytes h => decodeInSitu_confined inside bytes h,
    fun ctx ctx' fuel id t here opens enough h => parseElement_undisturbed here opens enough h⟩
  have cases' (mode : Ownership) := Parser.run_cases (setup mode) mode input
  by_cases scarce : ∃ mode e, run mode = .error e ∧ MemoryFailure e ∧ (setup mode).Scarce
  · exact .inl scarce
  have ends (mode : Ownership) := (cases' mode).resolve_left fun ⟨e, failed, gives⟩ =>
    scarce ⟨mode, e, failed, gives.2, gives.1⟩
  right
  cases grammar : document profile input with
  | ok tree =>
    have succeeds (mode : Ownership) : ∃ doc, run mode = .ok doc ∧ doc.tree = tree := by
      rcases ends mode with ⟨doc, _, ok, _, same⟩ | ⟨d, e, _, failed, _⟩
      · rw [grammar] at same
        exact ⟨doc, ok, (Except.ok.inj same).symm⟩
      · rw [grammar] at failed
        cases failed
    choose documents ok same using succeeds
    exact .inl ⟨documents, ok, fun mode mode' => (same mode).trans (same mode').symm⟩
  | error f =>
    have fails (mode : Ownership) : ∃ d, run mode = .error (.diagnostic d) ∧ ∃ e, f = .diagnostic e ∧ d.Same e := by
      rcases ends mode with ⟨doc, _, _, _, same⟩ | ⟨d, e, failed, failed', same⟩
      · rw [grammar] at same
        cases same
      · rw [grammar] at failed'
        exact ⟨d, failed, e, Except.error.inj failed', same⟩
    choose diagnostics failed e is same using fails
    refine .inr ⟨diagnostics, failed, fun mode mode' => ?_⟩
    have both : e mode = e mode' := Failure.diagnostic.inj ((is mode).symm.trans (is mode'))
    have first := same mode
    have second := same mode'
    rw [both] at first
    exact ⟨first.code.trans second.code.symm, first.span.trans second.span.symm,
      first.related.trans second.related.symm⟩

end NginBase.Xml
