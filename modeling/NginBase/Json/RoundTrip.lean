import NginBase.Json.BuilderInvariant

namespace NginBase.Json

open Library List Parser Writer Value Builder

section

variable {keys : List Bytes → Prop} {scalar : Scalar → Prop} {value : Value}

theorem Value.Holds.mono {scalar' : Scalar → Prop} {keys' : List Bytes → Prop} (holds : value.Holds scalar keys)
    (scalars : ∀ s, scalar s → scalar' s) (keyed : ∀ ks, keys ks → keys' ks) : value.Holds scalar' keys' := by
  induction value using Value.induct with
  | scalar value => exact scalars value holds
  | array elements ih =>
    have inside := (Value.holds_array _ _ elements).mp holds
    exact (Value.holds_array _ _ elements).mpr fun element member => ih element member (inside element member)
  | object members ih =>
    rcases (Value.holds_object _ _ members).mp holds with ⟨these, inside⟩
    exact (Value.holds_object _ _ members).mpr ⟨keyed _ these, fun member found => ih member found (inside member found)⟩

theorem Value.WellBuilt.encodable (built : value.WellBuilt) : value.Encodable :=
  Holds.mono built (fun _ valid => valid) fun _ valid => valid.1

variable (options : WriteOptions)

theorem Writer.arrange_holds (unordered : ∀ ks ks', ks.Perm ks' → keys ks → keys ks') (holds : value.Holds scalar keys) :
    (arrange options value).Holds scalar keys := by
  induction value using induct with
  | scalar value => exact holds
  | array elements ih =>
    have inside := (holds_array _ _ elements).mp holds
    rw [arrange, arrangeElements_map, holds_array, forall_mem_map]
    exact fun element member => ih element member (inside element member)
  | object members ih =>
    rcases (holds_object _ _ members).mp holds with ⟨these, inside⟩
    rw [arrange, arrangeMembers_map, sortMembers_map, holds_object, forall_mem_map, map_map]
    constructor
    · refine unordered _ _ ?_ these
      unfold sortMembers
      split
      · exact ((mergeSort_perm members _).map Prod.fst).symm
      · exact .refl _
    · intro member found
      have found := (mem_sortMembers options members member).mp found
      exact ih member found (inside member found)

theorem Value.canonical_holds (kept : ∀ s, scalar s → scalar s.canonical) (holds : value.Holds scalar keys) :
    value.canonical.Holds scalar keys := by
  induction value using induct with
  | scalar value => exact kept value holds
  | array elements ih =>
    have inside := (holds_array _ _ elements).mp holds
    rw [canonical, canonicalElements_map, holds_array, forall_mem_map]
    exact fun element member => ih element member (inside element member)
  | object members ih =>
    rcases (holds_object _ _ members).mp holds with ⟨these, inside⟩
    rw [canonical, canonicalMembers_map, holds_object, forall_mem_map, map_map]
    exact ⟨these, fun member found => ih member found (inside member found)⟩

end

mutual

/-- The depth of the deepest value inside, where the value itself has depth 0. -/
def Value.height : Value → Nat
  | .scalar _ => 0
  | .array elements => heightElements elements
  | .object members => heightMembers members

def heightElements : List Value → Nat
  | [] => 0
  | element :: rest => max (element.height + 1) (heightElements rest)

def heightMembers : List (Bytes × Value) → Nat
  | [] => 0
  | (_, value) :: rest => max (value.height + 1) (heightMembers rest)

end

theorem heightElements_le (n : Nat) (elements : List Value) :
    heightElements elements ≤ n ↔ ∀ element ∈ elements, element.height + 1 ≤ n := by
  induction elements with
  | nil => simp [heightElements]
  | cons element rest ih => rw [heightElements, Nat.max_le, ih, forall_mem_cons]

theorem heightMembers_le (n : Nat) (members : List (Bytes × Value)) :
    heightMembers members ≤ n ↔ ∀ member ∈ members, member.2.height + 1 ≤ n := by
  induction members with
  | nil => simp [heightMembers]
  | cons member rest ih => rw [heightMembers, Nat.max_le, ih, forall_mem_cons]

theorem writable_iff (toChars : F64 → Option Bytes) (limit depth : Nat) {value : Value} (plain : value.NoDouble)
    (valid : value.Encodable) : Writable toChars limit depth value ↔ depth + value.height ≤ limit := by
  induction value using induct generalizing depth with
  | scalar value =>
    have fine : value.Writable toChars := by
      cases value with
      | double value => exact plain.elim
      | string text => exact valid text rfl
      | _ => trivial
    simp [Writable, fine, height]
  | array elements ih =>
    have plain := (holds_array _ _ elements).mp plain
    have valid := (holds_array _ _ elements).mp valid
    have each (element : Value) (member : element ∈ elements) :=
      ih element member (depth + 1) (plain element member) (valid element member)
    rw [Writable, writableElements_iff, height]
    constructor
    · rintro ⟨shallow, inside⟩
      have bound := (heightElements_le (limit - depth) elements).mpr fun element member => by
        have := (each element member).mp (inside element member)
        omega
      omega
    · intro small
      have bound := (heightElements_le (limit - depth) elements).mp (by omega)
      refine ⟨by omega, fun element member => (each element member).mpr ?_⟩
      have := bound element member
      omega
  | object members ih =>
    have plain := ((holds_object _ _ members).mp plain).2
    rcases (holds_object _ _ members).mp valid with ⟨keys, valid⟩
    have keys : ∀ member ∈ members, Unicode.isValidUtf8 member.1 = true := fun member found =>
      keys member.1 (mem_map_of_mem found)
    have each (member : Bytes × Value) (found : member ∈ members) :=
      ih member found (depth + 1) (plain member found) (valid member found)
    rw [Writable, writableMembers_iff, height]
    constructor
    · rintro ⟨shallow, inside⟩
      have bound := (heightMembers_le (limit - depth) members).mpr fun member found => by
        have := (each member found).mp (inside member found).2
        omega
      omega
    · intro small
      have bound := (heightMembers_le (limit - depth) members).mp (by omega)
      refine ⟨by omega, fun member found => ⟨keys member found, (each member found).mpr ?_⟩⟩
      have := bound member found
      omega

section

def Scalar.integer? : Scalar → Option Int
  | .int64 value => some value.toInt
  | .uint64 value => some value.toNat
  | _ => none

def Scalar.Same (s t : Scalar) : Prop := s = t ∨ ∃ n, s.integer? = some n ∧ t.integer? = some n

/-- The second value is the first as it is read back: integers agree by value, elements keep their
    order, and members keep it unless they were sorted, in which case they stand by their keys. -/
inductive ReadBack (sorted : Bool) : Value → Value → Prop
  | scalar {s t : Scalar} (same : s.Same t) : ReadBack sorted (.scalar s) (.scalar t)
  | array {elements elements' : List Value} (each : List.Forall₂ (ReadBack sorted) elements elements') :
    ReadBack sorted (.array elements) (.array elements')
  | object {members arranged members' : List (Bytes × Value)}
    (order : if sorted then arranged.Perm members ∧ (arranged.map Prod.fst).Pairwise (· ≤ ·) else arranged = members)
    (keys : members'.map Prod.fst = arranged.map Prod.fst)
    (values : List.Forall₂ (ReadBack sorted) (arranged.map Prod.snd) (members'.map Prod.snd)) :
    ReadBack sorted (.object members) (.object members')

theorem Scalar.same_canonical (s : Scalar) : s.Same s.canonical := by
  cases s with
  | uint64 value =>
    simp only [Scalar.canonical]
    split
    · refine .inr ⟨value.toNat, rfl, ?_⟩
      have low : (value.toNat : Int) < 2 ^ 63 := by omega
      simp only [Scalar.integer?]
      rw [← Int64.ofInt_eq_ofNat, Int64.toInt_ofInt_of_le (by omega) low]
    · exact .inl rfl
  | _ => exact .inl rfl

variable (options : WriteOptions)

theorem key_le_trans {a b c : Bytes} (ab : a ≤ b) (bc : b ≤ c) : a ≤ c := by
  exact List.le_trans ab bc

theorem key_le_total (a b : Bytes) : a ≤ b ∨ b ≤ a := by
  exact List.le_total a b

theorem sortMembers_order {α : Type} (members : List (Bytes × α)) :
    if options.sortObjectKeys then (sortMembers options members).Perm members ∧
        ((sortMembers options members).map Prod.fst).Pairwise (· ≤ ·) else sortMembers options members = members := by
  unfold sortMembers
  cases options.sortObjectKeys with
  | false => rfl
  | true =>
    refine ⟨mergeSort_perm _ _, ?_⟩
    have total (a b : Bytes × α) : (decide (a.1 ≤ b.1) || decide (b.1 ≤ a.1)) = true := by
      simpa using key_le_total a.1 b.1
    have trans (a b c : Bytes × α) (ab : decide (a.1 ≤ b.1) = true) (bc : decide (b.1 ≤ c.1) = true) :
        decide (a.1 ≤ c.1) = true := by
      simp only [decide_eq_true_eq] at ab bc ⊢
      exact key_le_trans ab bc
    have sorted := pairwise_mergeSort trans total members
    rw [pairwise_map]
    simpa using sorted

theorem readBack_arrange (value : Value) : ReadBack options.sortObjectKeys value (arrange options value).canonical := by
  induction value using induct with
  | scalar value => exact .scalar value.same_canonical
  | array elements ih =>
    rw [arrange, canonical, canonicalElements_map, arrangeElements_map, map_map]
    refine .array ?_
    rw [forall₂_map_right_iff]
    exact forall₂_same.mpr ih
  | object members ih =>
    rw [arrange, canonical, canonicalMembers_map, arrangeMembers_map, sortMembers_map,
      map_map]
    refine .object (sortMembers_order options members) ?_ ?_
    · rw [map_map]
      rfl
    · rw [map_map, forall₂_map_left_iff, forall₂_map_right_iff]
      exact forall₂_same.mpr fun member found =>
        ih member ((mem_sortMembers options members member).mp found)

end

section

variable (options : WriteOptions) (toChars : F64 → Option Bytes)

theorem Writer.write_iff {value : Value} (plain : value.NoDouble) (valid : value.Encodable) (text : Bytes) :
    write options toChars (some value) = .ok text ↔ value.height ≤ options.maxDepth ∧
      text.length ≤ options.maxOutputBytes ∧ text = render options toChars 0 (arrange options value) := by
  have writes := writeValue_writes options toChars 0 value
  have writable := writable_iff toChars options.maxDepth 0 plain valid
  rw [Nat.zero_add] at writable
  constructor
  · intro ok
    rcases writes.only [] text (Nat.zero_le _) ok with ⟨fine, same, small⟩
    exact ⟨writable.mp fine, small, same⟩
  · rintro ⟨shallow, small, rfl⟩
    have ok := writes.ok [] (writable.mpr shallow) (by simpa using small)
    rwa [nil_append] at ok

/-- Reading back what was written for a value without doubles: the value, up to the kinds of
    integers and the order of sorted keys, unless memory or a limit of the parser stops it. -/
theorem parse_written {value : Value} (plain : value.NoDouble) (built : value.WellBuilt) {text : Bytes}
    (written : write options toChars (some value) = .ok text) (setup : Setup) :
    (∃ doc, parse setup text = .ok doc ∧ ReadBack options.sortObjectKeys value doc.tree.erase) ∨
      (∃ e, parse setup text = .error e ∧ MemoryFailure e ∧ setup.Scarce) ∨
      ∃ e, parse setup text = .error e ∧ LimitFailure setup.toProfile e ∧ Exceeds setup.toProfile text := by
  rcases (write_iff options toChars plain built.encodable text).mp written with ⟨_, _, rfl⟩
  have plain' : (arrange options value).NoDouble := arrange_holds options (fun _ _ _ _ => trivial) plain
  have built' : (arrange options value).WellBuilt := by
    refine arrange_holds options ?_ built
    intro ks ks' same fine
    exact ⟨fun key member => fine.1 key (same.mem_iff.mpr member), same.nodup_iff.mp fine.2⟩
  have keeps : (arrange options value).canonical.Keeps setup.toProfile := by
    refine canonical_holds (fun _ _ => trivial) ?_
    exact built'.mono (fun _ _ => trivial) fun _ fine => .inr fine.2
  have denotes : Grammar.Denotes setup.fromChars _ _ := render_denotes options toChars 0 plain'
  have valid := render_valid options toChars 0 plain' built'.encodable
  have grammar : Grammar.Text setup.fromChars (render options toChars 0 (arrange options value))
      (arrange options value).canonical :=
    ⟨[], _, [], by simp, by simp [Grammar.Ws], denotes, by simp [Grammar.Ws]⟩
  rcases parse_text setup keeps valid grammar with ⟨doc, ok, meaning⟩ | memory | limited
  · refine .inl ⟨doc, ok, ?_⟩
    rw [meaning]
    exact readBack_arrange options value
  · exact .inr (.inl memory)
  · exact .inr (.inr limited)

/-- A document from a builder without doubles is written whenever it is within the limits of the
    writer, and is read back as it was, whatever the options of the writer and of the parser. -/
theorem builder_round_trip {limits : ParseLimits} {resources : Resources} {builder builder' : Builder} {root : NodeId}
    {doc : Document} (reachable : Reachable limits resources builder)
    (finished : finish limits resources root builder = (.ok doc, builder')) (plain : doc.tree.erase.NoDouble) :
    let value := doc.tree.erase
    (value.height ≤ options.maxDepth →
      (render options toChars 0 (arrange options value)).length ≤ options.maxOutputBytes →
      write options toChars (some value) = .ok (render options toChars 0 (arrange options value))) ∧
    ∀ text, write options toChars (some value) = .ok text → ∀ setup : Setup,
      (∃ doc', parse setup text = .ok doc' ∧ ReadBack options.sortObjectKeys value doc'.tree.erase) ∨
        (∃ e, parse setup text = .error e ∧ MemoryFailure e ∧ setup.Scarce) ∨
        ∃ e, parse setup text = .error e ∧ LimitFailure setup.toProfile e ∧ Exceeds setup.toProfile text := by
  intro value
  have built := (finish_wellBuilt reachable finished).1
  constructor
  · intro shallow small
    exact (write_iff options toChars plain built.encodable _).mpr ⟨shallow, small, rfl⟩
  · intro text written setup
    exact parse_written options toChars plain built written setup

theorem builder_round_trip_shared : let limits : ParseLimits := {}
    let resources : Resources := { grants := fun _ => true, committed := fun _ => 0 }
    let options : WriteOptions := { pretty := true }
    let setup : Setup := { fromChars := fun _ => ⟨⟨0⟩, 0, false⟩ }
    let call := fun (call : Call) (builder : Builder) => (make limits resources call builder).2
    let builder := call (.object [⟨[0x7A, 0x22], 1⟩, ⟨[0x61], 0⟩]) (call (.array [0, 0]) (call (.uint (2 ^ 64 - 1)) (some {})))
    let value : Value := .object [([0x7A, 0x22], .array [.scalar (.uint64 (2 ^ 64 - 1)), .scalar (.uint64 (2 ^ 64 - 1))]),
      ([0x61], .scalar (.uint64 (2 ^ 64 - 1)))]
    ∃ doc text, finish limits resources 2 builder = (.ok doc, none) ∧ doc.tree.erase = value ∧
      write options (fun _ => none) (some value) = .ok text ∧
      ∃ doc', parse setup text = .ok doc' ∧ ReadBack false value doc'.tree.erase := by
  intro limits resources options setup call builder value
  have reachable : Reachable limits resources builder := .made (.made (.made .fresh _) _) _
  have plain : value.NoDouble := by simp [value, NoDouble, Scalar.NoDouble, Holds, HoldsMembers,
    HoldsElements]
  have finished : ∃ doc, finish limits resources 2 builder = (.ok doc, none) ∧ doc.tree.erase = value :=
    ⟨_, rfl, rfl⟩
  have accepted : (write options (fun _ => none) (some value)).toOption.any (fun text => (parse setup text).isOk) = true := by
    decide +kernel
  rcases finished with ⟨doc, finished, tree⟩
  cases result : write options (fun _ => none) (some value) with
  | error e =>
    rw [result] at accepted
    cases accepted
  | ok text =>
    have accepted : (parse setup text).isOk = true := by rwa [result] at accepted
    rcases (builder_round_trip options (fun _ => none) reachable finished (by rwa [tree])).2 text (by rwa [tree]) setup with
      ⟨doc', ok, same⟩ | ⟨e, failed, _⟩ | ⟨e, failed, _⟩
    · exact ⟨doc, text, finished, tree, rfl, doc', ok, by rwa [tree] at same⟩
    · rw [failed] at accepted
      cases accepted
    · rw [failed] at accepted
      cases accepted

end

end NginBase.Json
