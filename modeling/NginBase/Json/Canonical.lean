import NginBase.Json.RoundTrip

namespace NginBase.Json

open Library List Writer Value

/-- Equal up to the order of members and the kinds of equal integers, at every depth. -/
inductive Alike : Value → Value → Prop
  | scalar {s t : Scalar} (same : s.Same t) : Alike (.scalar s) (.scalar t)
  | array {elements elements' : List Value} (each : Forall₂ Alike elements elements') :
    Alike (.array elements) (.array elements')
  | object {members arranged members' : List (Bytes × Value)} (order : arranged.Perm members)
    (keys : members'.map Prod.fst = arranged.map Prod.fst)
    (values : Forall₂ Alike (arranged.map Prod.snd) (members'.map Prod.snd)) : Alike (.object members) (.object members')

def Value.UniqueKeys (value : Value) : Prop := value.Holds (fun _ => True) Nodup

namespace Writer

def canonicalOptions : WriteOptions := { sortObjectKeys := true }

def writeCanonical (toChars : F64 → Option Bytes) (value : Option Value) : Except WriteDiagnostic Bytes :=
  write canonicalOptions toChars value

theorem writeScalar_same (options : WriteOptions) (toChars : F64 → Option Bytes) (output : Bytes) {s t : Scalar}
    (same : s.Same t) : writeScalar options toChars output s = writeScalar options toChars output t := by
  have mixed (a : Int64) (b : UInt64) (equal : a.toInt = b.toNat) : signedText a.toInt = unsignedText b.toNat := by
    rw [equal, signedText, if_neg (by omega), Int.natAbs_natCast]
  rcases same with rfl | ⟨n, first, second⟩
  · rfl
  cases s <;> cases t <;> simp only [Scalar.integer?, Option.some.injEq, reduceCtorEq] at first second
  · rw [Int64.toInt_inj.mp (first.trans second.symm)]
  · rw [writeScalar, writeScalar, mixed _ _ (first.trans second.symm)]
  · rw [writeScalar, writeScalar, mixed _ _ (second.trans first.symm)]
  · rw [UInt64.toNat_inj.mp (Int.ofNat_inj.mp (first.trans second.symm))]

theorem key_le_antisymm {a b : Bytes} (ab : a ≤ b) (ba : b ≤ a) : a = b := by
  exact List.le_antisymm ab ba

theorem forall₂_imp_mem {α β : Type} {r r' : α → β → Prop} {xs : List α} {ys : List β} (each : Forall₂ r xs ys)
    (weaker : ∀ x ∈ xs, ∀ y, r x y → r' x y) : Forall₂ r' xs ys :=
  ((forall₂_and_left (p := (· ∈ xs)) xs ys).mpr ⟨fun _ inside => inside, each⟩).imp fun x y both => weaker x both.1 y both.2

theorem map_eq_of_forall₂ {α β : Type} {r : α → α → Prop} {f : α → β} {xs ys : List α} (each : Forall₂ r xs ys)
    (same : ∀ x ∈ xs, ∀ y, r x y → f x = f y) : xs.map f = ys.map f := by
  rw [← forall₂_eq_eq_eq, forall₂_map_left_iff, forall₂_map_right_iff]
  exact forall₂_imp_mem each same

section

variable {options : WriteOptions} (sorted : options.sortObjectKeys = true)

include sorted

theorem sortMembers_perm {α : Type} {members members' : List (Bytes × α)} (order : members.Perm members')
    (distinct : (members.map Prod.fst).Nodup) : sortMembers options members = sortMembers options members' := by
  have ordered := sortMembers_order options members
  have ordered' := sortMembers_order options members'
  rw [if_pos sorted] at ordered ordered'
  have perm := ordered.1.trans (order.trans ordered'.1.symm)
  apply Perm.eq_of_pairwise _ (pairwise_map.mp ordered.2) (pairwise_map.mp ordered'.2) perm
  intro a b inside inside' low high
  have same : a.1 = b.1 := key_le_antisymm low high
  have distinct' : ((sortMembers options members).map Prod.fst).Nodup := (ordered.1.map Prod.fst).nodup_iff.mpr distinct
  exact inj_on_of_nodup_map distinct' inside (perm.mem_iff.mpr inside') same

theorem writeValue_alike (toChars : F64 → Option Bytes) {v w : Value} (distinct : v.UniqueKeys) (alike : Alike v w)
    (depth : Nat) : writeValue options toChars depth v = writeValue options toChars depth w := by
  induction v using induct generalizing w depth with
  | scalar value =>
    cases alike with
    | scalar same =>
      rw [writeValue_scalar, writeValue_scalar]
      funext output
      rw [writeScalar_same options toChars output same]
  | array elements ih =>
    have inside := (holds_array _ _ elements).mp distinct
    cases alike with
    | array each =>
      rw [writeValue_array, writeValue_array]
      rw [map_eq_of_forall₂ each fun element member w alike => ih element member (inside element member) alike (depth + 1)]
  | object members ih =>
    have inside := (holds_object _ _ members).mp distinct
    cases alike with
    | @object members arranged members' order keys values =>
      let written : Bytes × Value → Bytes × Pending := fun member => (member.1, writeValue options toChars (depth + 1) member.2)
      have values' : (arranged.map Prod.snd).map (writeValue options toChars (depth + 1)) =
          (members'.map Prod.snd).map (writeValue options toChars (depth + 1)) := by
        apply map_eq_of_forall₂ values
        intro value listed w alike
        obtain ⟨member, found, rfl⟩ := mem_map.mp listed
        have found := order.mem_iff.mp found
        exact ih member found (inside.2 member found) alike (depth + 1)
      have pairs : arranged.map written = members'.map written := by
        have first : (arranged.map written).map Prod.fst = (members'.map written).map Prod.fst := by
          rw [map_map, map_map]
          exact keys.symm
        have second : (arranged.map written).map Prod.snd = (members'.map written).map Prod.snd := by
          rw [map_map, map_map] at values' ⊢
          exact values'
        exact (zip_of_prod first second).trans (zip_of_prod rfl rfl).symm
      have order' : (members.map written).Perm (members'.map written) := by
        rw [← pairs]
        exact (order.map written).symm
      have unique : ((members.map written).map Prod.fst).Nodup := by
        rw [map_map]
        exact inside.1
      have arrangedAlike := sortMembers_perm sorted order' unique
      rw [sortMembers_map, sortMembers_map] at arrangedAlike
      have items := congrArg (map fun member => writeMember options member.1 member.2) arrangedAlike
      rw [map_map, map_map] at items
      rw [writeValue_object, writeValue_object]
      dsimp only [Function.comp_def] at items
      rw [items]

end

end Writer

section

variable (toChars : F64 → Option Bytes)

theorem Writable.encodable {limit depth : Nat} {value : Value} (writable : Writable toChars limit depth value) :
    value.Encodable := by
  induction value using Value.induct generalizing depth with
  | scalar value =>
    intro text same
    rw [same] at writable
    exact writable.2
  | array elements ih =>
    have inside := (writableElements_iff toChars limit (depth + 1) elements).mp writable.2
    exact (holds_array _ _ elements).mpr fun element member => ih element member (inside element member)
  | object members ih =>
    have inside := (writableMembers_iff toChars limit (depth + 1) members).mp writable.2
    apply (holds_object _ _ members).mpr
    constructor
    · intro key listed
      obtain ⟨member, found, rfl⟩ := mem_map.mp listed
      exact (inside member found).1
    · exact fun member found => ih member found (inside member found).2

theorem Value.UniqueKeys.wellBuilt {value : Value} (unique : value.UniqueKeys) (valid : value.Encodable) :
    value.WellBuilt := by
  induction value using induct with
  | scalar value => exact valid
  | array elements ih =>
    have unique := (holds_array _ _ elements).mp unique
    have valid := (holds_array _ _ elements).mp valid
    exact (holds_array _ _ elements).mpr fun element member => ih element member (unique element member) (valid element member)
  | object members ih =>
    have unique := (holds_object _ _ members).mp unique
    have valid := (holds_object _ _ members).mp valid
    apply (holds_object _ _ members).mpr
    exact ⟨⟨valid.1, unique.1⟩, fun member found => ih member found (unique.2 member found) (valid.2 member found)⟩

theorem ReadBack.alike {sorted : Bool} {v w : Value} (back : ReadBack sorted v w) : Alike v w := by
  induction v using induct generalizing w with
  | scalar value =>
    cases back with
    | scalar same => exact .scalar same
  | array elements ih =>
    cases back with
    | array each => exact .array (forall₂_imp_mem each fun element member _ back => ih element member back)
  | object members ih =>
    cases back with
    | @object members arranged members' order keys values =>
      have permuted : arranged.Perm members := by
        cases sorted with
        | false => exact .of_eq order
        | true => exact order.1
      apply Alike.object permuted keys
      apply forall₂_imp_mem values
      intro value listed w back
      obtain ⟨member, found, rfl⟩ := mem_map.mp listed
      exact ih member (permuted.mem_iff.mp found) back

/-- The canonical text depends on nothing but the value, and reading it back and writing that gives
    the same text, unless memory or a limit of the parser stops the reading. -/
theorem canonical_text_unique :
    (∀ v w, v.UniqueKeys → Alike v w → writeCanonical toChars (some v) = writeCanonical toChars (some w)) ∧
    ∀ v text, v.NoDouble → v.UniqueKeys → writeCanonical toChars (some v) = .ok text → ∀ setup,
      (∃ doc, Parser.parse setup text = .ok doc ∧ writeCanonical toChars (some doc.tree.erase) = .ok text) ∨
        (∃ e, Parser.parse setup text = .error e ∧ MemoryFailure e ∧ setup.Scarce) ∨
        ∃ e, Parser.parse setup text = .error e ∧ LimitFailure setup.toProfile e ∧ Exceeds setup.toProfile text := by
  have alike_written {v w : Value} (unique : v.UniqueKeys) (alike : Alike v w) :
      writeCanonical toChars (some v) = writeCanonical toChars (some w) :=
    congrFun (writeValue_alike (show canonicalOptions.sortObjectKeys = true from rfl) toChars unique alike 0) []
  apply And.intro fun v w unique alike => alike_written unique alike
  intro v text plain unique written setup
  have writable := ((writeValue_writes canonicalOptions toChars 0 v).only [] text (Nat.zero_le _) written).1
  have built := unique.wellBuilt (writable.encodable toChars)
  rcases parse_written canonicalOptions toChars plain built written setup with ⟨doc, ok, back⟩ | failed
  · apply Or.inl
    exact ⟨doc, ok, (alike_written unique back.alike).symm.trans written⟩
  · exact .inr failed

theorem canonical_text_unique_reordered :
    writeCanonical (fun _ => none) (some (.object [([0x62], .scalar .null), ([0x61], .scalar (.int64 7))])) =
      writeCanonical (fun _ => none) (some (.object [([0x61], .scalar (.uint64 7)), ([0x62], .scalar .null)])) := by
  apply (canonical_text_unique fun _ => none).1
  · rw [UniqueKeys, holds_object]
    exact ⟨by decide, by simp [Holds]⟩
  · let arranged : List (Bytes × Value) := [([0x61], .scalar (.int64 7)), ([0x62], .scalar .null)]
    have order : arranged.Perm [([0x62], .scalar .null), ([0x61], .scalar (.int64 7))] := .swap _ _ _
    apply Alike.object order
    · rfl
    · exact .cons (.scalar (.inr ⟨7, rfl, rfl⟩)) (.cons (.scalar (.inl rfl)) .nil)

end

end NginBase.Json
