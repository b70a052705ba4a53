import NginBase.Containers.FlatHashMapTable

namespace NginBase.Containers

open Library Library.Probing Command List

variable {Key Value : Type}

namespace FlatHashMap

section

variable {policy : Policy Key} (lawful : policy.Lawful) {grants : Nat → Bool} {s : Allocating Key Value}

theorem targetCapacity_power (requested : Nat) : ∃ k, 4 ≤ k ∧ targetCapacity requested = 2 ^ k := by
  unfold targetCapacity nextPow2 kInitialCapacity
  split
  · exact ⟨4, le_rfl, rfl⟩
  rename_i large
  refine ⟨_, ?_, rfl⟩
  rw [Nat.not_lt] at large
  exact (Nat.pow_le_pow_iff_right (by decide : 1 < 2)).mp large

theorem targetCapacity_pos (requested : Nat) : 16 ≤ targetCapacity requested := by
  rcases targetCapacity_power requested with ⟨k, four, power⟩
  rw [power]
  exact Nat.pow_le_pow_right (show 0 < 2 by decide) four

theorem targetCapacity_self {c k : Nat} (four : 4 ≤ k) (power : c = 2 ^ k) : targetCapacity c = c := by
  have fixed : nextPow2 c = c := by rw [nextPow2, power, Nat.clog_pow 2 k (by decide)]
  have large : kInitialCapacity ≤ c := by
    rw [power]
    exact Nat.pow_le_pow_right (show 0 < 2 by decide) four
  rw [targetCapacity, fixed, if_neg (Nat.not_lt.mpr large)]

theorem sound_empty : Sound policy ({} : FlatHashMap Key Value) where
  length := rfl
  mask := rfl
  power := .inl rfl
  size := rfl
  hashed := by simp [occupied]
  distinct := by simp [occupied]
  clustered := by
    intro i e here
    simp [ring] at here

theorem occupied_replicate (capacity : Nat) : occupied (replicate capacity (none : Option (Entry Key Value))) = [] := by
  simp [occupied]

theorem sound_fresh {capacity k : Nat} (four : 4 ≤ k) (power : capacity = 2 ^ k) :
    Sound policy (⟨replicate capacity none, capacity, capacity - 1, 0⟩ : FlatHashMap Key Value) where
  length := length_replicate
  mask := rfl
  power := .inr ⟨k, four, power⟩
  size := by rw [occupied_replicate]; rfl
  hashed := by simp [occupied_replicate]
  distinct := by simp [occupied_replicate]
  clustered := by
    intro i e here
    rw [ring, getD_eq_getElem?_getD, getElem?_replicate] at here
    split at here <;> cases here

variable (policy) in
theorem initializeTable_spec (requested : Nat) : (initializeTable grants requested).Ensures s
      (fun _ s' => grants s.requests = true ∧ Sound policy s'.map ∧ s'.map.capacity = targetCapacity requested ∧
        occupied s'.map.buckets = []) fun e s' => e = .badAlloc ∧ grants s.requests = false ∧ s'.map = s.map := by
  rcases targetCapacity_power requested with ⟨k, four, power⟩
  unfold initializeTable allocateBuckets store
  simp only [ensures_bind, ensures_get, ensures_modify]
  cases granted : grants s.requests with
  | true =>
    simp only [ensures_pure]
    exact ⟨trivial, sound_fresh four power, trivial, occupied_replicate _⟩
  | false =>
    rw [if_neg (by decide)]
    simp only [ensures_fail]
    exact ⟨trivial, trivial, trivial⟩

theorem Gives.congr {entries entries' : List (Entry Key Value)} (order : entries.Perm entries') (key : Key) (value : Value) :
    Gives policy entries key value ↔ Gives policy entries' key value := by
  constructor
  · rintro ⟨e, mem, same⟩
    exact ⟨e, order.mem_iff.mp mem, same⟩
  · rintro ⟨e, mem, same⟩
    exact ⟨e, order.mem_iff.mpr mem, same⟩

include lawful

theorem insertExisting_spec (sound : Sound policy s.map) (positive : s.map.capacity ≠ 0) {e : Entry Key Value}
    (hashed : e.hash = policy.hash e.key) (fresh : ∀ e' ∈ occupied s.map.buckets, policy.equal e'.key e.key = false) :
    (insertExisting policy e).Ensures s (fun _ s' => Sound policy s'.map ∧ s'.map.capacity = s.map.capacity ∧
        (occupied s'.map.buckets).Perm (e :: occupied s.map.buckets))
      fun failure s' => failure = .badAlloc ∧ s' = s ∧ s.map.size = s.map.capacity := by
  have notHeld : ∀ e' ∈ occupied s.map.buckets, holds policy e.key e.hash e' = false := by
    intro e' mem
    rw [holds, fresh e' mem, Bool.and_false]
  unfold insertExisting current store
  simp only [ensures_bind, ensures_get, ensures_pure]
  rcases sound.findInsertSlot_cases e.key e.hash positive with ⟨i, small, slot, found⟩ | ⟨slot, _, full⟩
  · rw [slot]
    simp only [ensures_modify]
    rcases found with ⟨e', here, wanted⟩ | ⟨empty, _, way⟩
    · have : NeZero s.map.capacity := ⟨positive⟩
      have mem := (mem_occupied sound.length).mpr ⟨(i : ZMod s.map.capacity), (ring_cast small).trans here⟩
      rw [notHeld e' mem] at wanted
      cases wanted
    · exact ⟨sound.fill lawful small empty hashed fresh way, trivial,
        occupied_fill (by rw [sound.length]; exact small) empty e⟩
  · rw [slot]
    simp only [ensures_fail]
    exact ⟨trivial, trivial, sound.size.trans full⟩

theorem insertAll_spec (contents : List (Option (Entry Key Value))) (sound : Sound policy s.map)
    (positive : s.map.capacity ≠ 0) (hashed : ∀ e ∈ occupied contents, e.hash = policy.hash e.key)
    (distinct : (occupied contents).Pairwise fun e e' => policy.equal e.key e'.key = false)
    (fresh : ∀ e' ∈ occupied s.map.buckets, ∀ e ∈ occupied contents, policy.equal e'.key e.key = false) :
    (insertAll policy contents).Ensures s (fun _ s' => Sound policy s'.map ∧ s'.map.capacity = s.map.capacity ∧
        (occupied s'.map.buckets).Perm (occupied contents ++ occupied s.map.buckets))
      fun failure s' => failure = .badAlloc ∧ Sound policy s'.map ∧ s'.map.capacity = s.map.capacity ∧
        s'.map.size = s.map.capacity ∧ s.map.capacity < s.map.size + (occupied contents).length := by
  induction contents generalizing s with
  | nil =>
    simp only [insertAll, ensures_pure]
    exact ⟨sound, trivial, List.Perm.refl _⟩
  | cons content contents ih =>
    cases content with
    | none => exact ih sound positive hashed distinct fresh
    | some e =>
      have shape : occupied (some e :: contents) = e :: occupied contents := rfl
      rw [shape] at hashed distinct fresh ⊢
      rw [forall_mem_cons] at hashed
      rw [pairwise_cons] at distinct
      simp only [insertAll, ensures_bind]
      apply (insertExisting_spec lawful sound positive hashed.1
        fun e' mem => fresh e' mem e mem_cons_self).mono
      · rintro _ s₁ ⟨sound₁, capacity₁, order⟩
        have fresh₁ : ∀ e' ∈ occupied s₁.map.buckets, ∀ e ∈ occupied contents, policy.equal e'.key e.key = false := by
          intro e' mem e'' later
          rcases mem_cons.mp (order.mem_iff.mp mem) with rfl | old
          · exact distinct.1 e'' later
          · exact fresh e' old e'' (mem_cons_of_mem e later)
        apply (ih sound₁ (by rw [capacity₁]; exact positive) hashed.2 distinct.2 fresh₁).mono
        · rintro _ s₂ ⟨sound₂, capacity₂, order₂⟩
          refine ⟨sound₂, capacity₂.trans capacity₁, order₂.trans ?_⟩
          exact (order.append_left _).trans perm_middle
        · rintro _ s₂ ⟨bad, sound₂, capacity₂, full, short⟩
          have count := order.length_eq
          rw [← sound₁.size, length_cons, ← sound.size] at count
          rw [capacity₁] at capacity₂ full short
          refine ⟨bad, sound₂, capacity₂, full, ?_⟩
          rw [length_cons]
          omega
      · rintro _ s₁ ⟨bad, rfl, full⟩
        refine ⟨bad, sound, rfl, full, ?_⟩
        rw [length_cons]
        omega

theorem rehash_spec (sound : Sound policy s.map) (requested : Nat) : (rehash policy grants requested).Ensures s
      (fun _ s' => Sound policy s'.map ∧ s'.map.capacity = targetCapacity requested ∧
        (occupied s'.map.buckets).Perm (occupied s.map.buckets) ∧
        (targetCapacity requested = s.map.capacity ∨ grants s.requests = true ∧ s.map.size ≤ targetCapacity requested))
      fun failure s' => failure = .badAlloc ∧ targetCapacity requested ≠ s.map.capacity ∧ Sound policy s'.map ∧
        (grants s.requests = false ∧ s'.map = {} ∨
          targetCapacity requested < s.map.size ∧ s'.map.size = targetCapacity requested) := by
  rcases targetCapacity_power requested with ⟨k, four, power⟩
  unfold rehash current store
  simp only [ensures_bind, ensures_get, ensures_pure]
  by_cases same : targetCapacity requested = s.map.capacity
  · rw [if_pos same]
    exact ⟨sound, same.symm, List.Perm.refl _, .inl same⟩
  rw [if_neg same]
  simp only [ensures_bind]
  apply (initializeTable_spec policy _).mono
  · rintro _ s₁ ⟨granted, sound₁, capacity₁, empty⟩
    rw [targetCapacity_self four power] at capacity₁
    have positive : s₁.map.capacity ≠ 0 := by
      have large := targetCapacity_pos requested
      omega
    have size₁ : s₁.map.size = 0 := by rw [sound₁.size, empty]; rfl
    apply (insertAll_spec lawful s.map.buckets sound₁ positive sound.hashed sound.distinct
      (by simp [empty])).mono
    · rintro _ s₂ ⟨sound₂, capacity₂, order⟩
      rw [empty, append_nil] at order
      rw [capacity₁] at capacity₂
      have fits : (occupied s₂.map.buckets).length ≤ s₂.map.capacity := by
        rw [← sound₂.length]
        exact occupied_length_le
      rw [order.length_eq, ← sound.size, capacity₂] at fits
      exact ⟨sound₂, capacity₂, order, .inr ⟨granted, fits⟩⟩
    · rintro _ s₂ ⟨bad, sound₂, _, full, short⟩
      rw [size₁, Nat.zero_add, ← sound.size, capacity₁] at short
      rw [capacity₁] at full
      exact ⟨bad, same, sound₂, .inr ⟨short, full⟩⟩
  · rintro _ s₁ ⟨bad, refused, left⟩
    exact ⟨bad, same, by rw [left]; exact sound_empty, .inl ⟨refused, left⟩⟩

end

section

/-- The map holds exactly the values that `f` gives. -/
structure Represents (policy : Policy Key) (m : FlatHashMap Key Value) (f : Key → Option Value) : Prop where
  sound : Sound policy m
  gives : ∀ key value, f key = some value ↔ Gives policy (occupied m.buckets) key value

def put (policy : Policy Key) (key : Key) (value : Value) (f : Key → Option Value) (other : Key) : Option Value :=
  if policy.equal key other then some value else f other

def erase (policy : Policy Key) (key : Key) (f : Key → Option Value) (other : Key) : Option Value :=
  if policy.equal key other then none else f other

variable {policy : Policy Key} {m m' : FlatHashMap Key Value} {f : Key → Option Value}

theorem Represents.reorder (rep : Represents policy m f) (sound : Sound policy m')
    (order : (occupied m'.buckets).Perm (occupied m.buckets)) : Represents policy m' f where
  sound := sound
  gives key value := (rep.gives key value).trans (Gives.congr order.symm key value)

theorem represents_empty (sound : Sound policy m) (empty : occupied m.buckets = []) :
    Represents policy m fun _ => none where
  sound := sound
  gives key value := by simp [Gives, empty]

variable (lawful : policy.Lawful)

include lawful

theorem Represents.getPtr (rep : Represents policy m f) (key : Key) : getPtr policy m key = f key := by
  apply Option.ext
  intro value
  rw [rep.sound.getPtr_iff lawful, rep.gives]

theorem Sound.represents (sound : Sound policy m) : Represents policy m (getPtr policy m) where
  sound := sound
  gives key value := sound.getPtr_iff lawful key value

theorem Represents.update {e : Entry Key Value} {rest : List (Entry Key Value)} (rep : Represents policy m f)
    (sound : Sound policy m') (other : ∀ e' ∈ rest, policy.equal e.key e'.key = false)
    (before : ∀ key value, policy.equal e.key key = false →
      (Gives policy (occupied m.buckets) key value ↔ Gives policy rest key value))
    (order : (occupied m'.buckets).Perm (e :: rest)) : Represents policy m' (put policy e.key e.value f) where
  sound := sound
  gives key value := by
    rw [Gives.congr order, put]
    by_cases same : policy.equal e.key key = true
    · rw [if_pos same, Option.some.injEq]
      constructor
      · exact fun same' => ⟨e, mem_cons_self, same, same'⟩
      · rintro ⟨e', mem, same', rfl⟩
        rcases mem_cons.mp mem with rfl | later
        · rfl
        · have apart := other e' later
          rw [lawful.trans _ _ _ same (lawful.symm _ _ same')] at apart
          cases apart
    rw [if_neg same, rep.gives, before key value (Bool.eq_false_iff.mpr same)]
    constructor
    · rintro ⟨e', mem, found⟩
      exact ⟨e', mem_cons_of_mem e mem, found⟩
    · rintro ⟨e', mem, found⟩
      rcases mem_cons.mp mem with rfl | later
      · exact absurd found.1 same
      · exact ⟨e', later, found⟩

theorem put_congr {key key' : Key} (same : policy.equal key key' = true) (value : Value) (f : Key → Option Value) :
    put policy key value f = put policy key' value f := by
  funext other
  have both : policy.equal key other = policy.equal key' other := by
    rw [Bool.eq_iff_iff]
    exact ⟨lawful.trans _ _ _ (lawful.symm _ _ same), lawful.trans _ _ _ same⟩
  rw [put, put, both]

section

variable (rep : Represents policy m f)

include rep

theorem Represents.add {e : Entry Key Value} (sound : Sound policy m')
    (fresh : ∀ e' ∈ occupied m.buckets, policy.equal e'.key e.key = false)
    (order : (occupied m'.buckets).Perm (e :: occupied m.buckets)) : Represents policy m' (put policy e.key e.value f) := by
  have : Std.Symm fun e e' : Entry Key Value => policy.equal e.key e'.key = false := lawful.apart_symm
  exact rep.update lawful sound (fun e' mem => this.symm _ _ (fresh e' mem)) (fun _ _ _ => Iff.rfl) order

theorem Represents.assign {i : Nat} {e : Entry Key Value} (small : i < m.capacity)
    (here : m.buckets.getD i none = some e) (value : Value) :
    Represents policy { m with buckets := m.buckets.set i (some { e with value }) } (put policy e.key value f) := by
  have : Std.Symm fun e e' : Entry Key Value => policy.equal e.key e'.key = false := lawful.apart_symm
  rcases rep.sound.assign lawful small here value with ⟨sound, rest, before, after⟩
  have apart := pairwise_cons.mp ((before.pairwise_iff fun {a b} => this.symm a b).mp rep.sound.distinct)
  apply rep.update lawful sound (e := { e with value }) apart.1 _ after
  intro key v other
  rw [Gives.congr before]
  constructor
  · rintro ⟨e', mem, same, found⟩
    rcases mem_cons.mp mem with rfl | later
    · rw [other] at same
      cases same
    · exact ⟨e', later, same, found⟩
  · rintro ⟨e', mem, found⟩
    exact ⟨e', mem_cons_of_mem e mem, found⟩

theorem Represents.removeAt {i : Nat} {e : Entry Key Value} (small : i < m.capacity)
    (here : m.buckets.getD i none = some e) :
    ∃ buckets, backwardShift m.mask (m.capacity * m.capacity * m.capacity) (m.buckets.set i none) i ((i + 1) &&& m.mask) =
        some buckets ∧ Represents policy { m with buckets, size := m.size - 1 } (erase policy e.key f) := by
  have : Std.Symm fun e e' : Entry Key Value => policy.equal e.key e'.key = false := lawful.apart_symm
  rcases rep.sound.removeAt lawful small here with ⟨buckets, shifted, sound, order⟩
  have apart := pairwise_cons.mp ((order.pairwise_iff fun {a b} => this.symm a b).mp rep.sound.distinct)
  refine ⟨buckets, shifted, sound, ?_⟩
  intro key value
  unfold erase
  by_cases same : policy.equal e.key key = true
  · rw [if_pos same]
    constructor
    · exact nofun
    · rintro ⟨e', mem, same', _⟩
      have other := apart.1 e' mem
      rw [lawful.trans _ _ _ same (lawful.symm _ _ same')] at other
      cases other
  rw [if_neg same, rep.gives, Gives.congr order]
  constructor
  · rintro ⟨e', mem, found⟩
    rcases mem_cons.mp mem with rfl | later
    · exact absurd found.1 same
    · exact ⟨e', later, found⟩
  · rintro ⟨e', mem, found⟩
    exact ⟨e', mem_cons_of_mem e mem, found⟩

end

theorem erase_congr {key key' : Key} (same : policy.equal key key' = true) (f : Key → Option Value) :
    erase policy key f = erase policy key' f := by
  funext other
  have both : policy.equal key other = policy.equal key' other := by
    rw [Bool.eq_iff_iff]
    exact ⟨lawful.trans _ _ _ (lawful.symm _ _ same), lawful.trans _ _ _ same⟩
  rw [erase, erase, both]

end

section

variable {policy : Policy Key} (lawful : policy.Lawful) {grants : Nat → Bool} {s : Allocating Key Value}
  {f : Key → Option Value}

theorem Sound.size_le {m : FlatHashMap Key Value} (sound : Sound policy m) : m.size ≤ m.capacity := by
  rw [sound.size, ← sound.length]
  exact occupied_length_le

theorem Sound.target_double {m : FlatHashMap Key Value} (sound : Sound policy m) (positive : m.capacity ≠ 0) :
    targetCapacity (m.capacity * 2) = m.capacity * 2 := by
  rcases sound.power with zero | ⟨k, four, power⟩
  · exact absurd zero positive
  · exact targetCapacity_self (k := k + 1) (by omega) (by rw [power, Nat.pow_succ])

variable (policy) in
theorem reserveBuckets_power (count : Nat) : ∃ k, 4 ≤ k ∧ reserveBuckets policy count = 2 ^ k := by
  refine ⟨_, ?_, rfl⟩
  have large : 2 ^ 4 ≤ (if policy.quotient count + 1 < kInitialCapacity then kInitialCapacity else policy.quotient count + 1) := by
    unfold kInitialCapacity
    split <;> omega
  have below := large.trans (Nat.le_pow_clog (show 1 < 2 by decide) _)
  exact (Nat.pow_le_pow_iff_right (by decide : 1 < 2)).mp below

theorem clear_spec (rep : Represents policy s.map f) :
    (clear : Action Key Value Unit).Ensures s (fun _ s' => Represents policy s'.map fun _ => none) fun _ _ => False := by
  unfold clear current store
  simp only [ensures_bind, ensures_get, ensures_pure]
  by_cases empty : s.map.buckets = []
  · rw [if_pos empty]
    exact represents_empty rep.sound (by rw [empty]; rfl)
  rw [if_neg empty]
  have nothing : s.map.buckets.map (fun _ => (none : Option (Entry Key Value))) = replicate s.map.capacity none := by
    rw [map_const', rep.sound.length]
  rcases rep.sound.power with zero | ⟨k, four, power⟩
  · exact absurd (length_eq_zero_iff.mp (rep.sound.length.trans zero)) empty
  rw [nothing, rep.sound.mask]
  exact represents_empty (sound_fresh four power) (occupied_replicate _)

theorem put_put (key : Key) (value value' : Value) :
    put policy key value' (put policy key value f) = put policy key value' f := by
  funext other
  unfold put
  split <;> rfl

theorem construct_spec (requested : Nat) :
    (construct grants requested).Ensures s (fun _ s' => Represents policy s'.map fun _ => none)
      fun failure s' => failure = .badAlloc ∧ s'.map = {} ∧ grants s.requests = false := by
  unfold construct store
  apply (initializeTable_spec policy requested).mono
  · rintro _ s' ⟨_, sound, _, empty⟩
    exact represents_empty sound empty
  · rintro _ s' ⟨bad, refused, left⟩
    exact ⟨bad, left, refused⟩

include lawful

section

variable (rep : Represents policy s.map f)

include rep

theorem maybeGrow_spec : (maybeGrow policy grants).Ensures s
      (fun _ s' => Represents policy s'.map f ∧ withinLoadFactor s'.map = true ∧
        (withinLoadFactor s.map = true ∧ s' = s ∨ s'.map.capacity ≠ 0 ∧ grants s.requests = true))
      fun failure s' => failure = .badAlloc ∧ s'.map = {} ∧ withinLoadFactor s.map = false ∧ grants s.requests = false := by
  unfold maybeGrow current
  simp only [ensures_bind, ensures_get, ensures_pure]
  by_cases within : withinLoadFactor s.map = true
  · rw [if_pos within]
    simp only [ensures_pure]
    exact ⟨rep, within, .inl ⟨within, trivial⟩⟩
  rw [if_neg within]
  have small := rep.sound.size_le
  have positive : s.map.capacity ≠ 0 := by
    intro zero
    simp only [withinLoadFactor, decide_eq_true_eq] at within
    omega
  have target := rep.sound.target_double positive
  apply (rehash_spec lawful rep.sound (s.map.capacity * 2)).mono
  · rintro _ s' ⟨sound, capacity, order, provided⟩
    have same : s'.map.size = s.map.size := by rw [sound.size, order.length_eq, rep.sound.size]
    have granted : grants s.requests = true := (provided.resolve_left (by omega)).1
    refine ⟨rep.reorder sound order, ?_, .inr ⟨by omega, granted⟩⟩
    simp only [withinLoadFactor, decide_eq_true_eq]
    omega
  · rintro _ s' ⟨bad, _, sound, ⟨refused, lost⟩ | ⟨short, _⟩⟩
    · exact ⟨bad, lost, Bool.eq_false_iff.mpr within, refused⟩
    · omega

theorem insertGrown_spec (within : withinLoadFactor s.map = true) (positive : s.map.capacity ≠ 0) (key : Key)
    (value : Value) (again : Action Key Value Unit) : (insertGrown policy grants key value again).Ensures s
      (fun _ s' => Represents policy s'.map (put policy key value f)) fun _ _ => False := by
  unfold insertGrown current store
  simp only [ensures_bind, ensures_get, ensures_pure]
  rcases rep.sound.findInsertSlot_cases key (policy.hash key) positive with ⟨i, small, slot, found⟩ | ⟨_, _, full⟩
  · rw [slot]
    dsimp only
    rcases found with ⟨e, here, wanted⟩ | ⟨empty, none, way⟩
    · have : NeZero s.map.capacity := ⟨positive⟩
      have mem := (mem_occupied rep.sound.length).mpr ⟨(i : ZMod s.map.capacity), (ring_cast small).trans here⟩
      rw [here]
      rw [← put_congr lawful ((rep.sound.holds_iff lawful mem key).mp wanted) value f]
      exact rep.assign lawful small here value
    · rw [empty]
      have fresh : ∀ e ∈ occupied s.map.buckets, policy.equal e.key key = false := by
        intro e mem
        rw [← Bool.not_eq_true, ← rep.sound.holds_iff lawful mem key, none e mem]
        decide
      exact rep.add lawful (rep.sound.fill lawful small empty rfl fresh way) fresh
        (occupied_fill (by rw [rep.sound.length]; exact small) empty _)
  · rw [← rep.sound.size] at full
    simp only [withinLoadFactor, decide_eq_true_eq] at within
    omega

theorem insert_spec (key : Key) (value : Value) : (insert policy grants key value).Ensures s
      (fun _ s' => Represents policy s'.map (put policy key value f) ∧
        (withinLoadFactor s.map = false ∨ s.map.capacity = 0 → grants s.requests = true))
      fun failure s' => failure = .badAlloc ∧ s'.map = {} ∧ grants s.requests = false ∧
        (withinLoadFactor s.map = false ∨ s.map.capacity = 0) := by
  unfold insert insertImpl
  simp only [ensures_bind]
  apply (maybeGrow_spec lawful rep).mono
  · rintro _ s₁ ⟨rep₁, within₁, grown⟩
    by_cases zero : s₁.map.capacity = 0
    · rcases grown with ⟨_, rfl⟩ | positive
      · -- a map without a table: the first table is made and the call starts again
        have slot : findInsertSlot policy s₁.map key (policy.hash key) = none := by
          rw [findInsertSlot, zero]
          rfl
        unfold insertGrown current
        simp only [ensures_bind, ensures_get, ensures_pure]
        rw [slot]
        simp only [ensures_bind]
        apply (rehash_spec lawful rep₁.sound _).mono
        · rintro _ s₂ ⟨sound₂, capacity₂, order₂, provided⟩
          have positive := targetCapacity_pos (max kInitialCapacity (s₁.map.capacity * 2))
          have size₂ : s₂.map.size ≤ s₁.map.capacity := by
            rw [sound₂.size, order₂.length_eq, ← rep₁.sound.size]
            exact rep₁.sound.size_le
          have granted : grants s₁.requests = true := (provided.resolve_left (by omega)).1
          have within₂ : withinLoadFactor s₂.map = true := by
            simp only [withinLoadFactor, decide_eq_true_eq]
            omega
          unfold insertImpl
          simp only [ensures_bind]
          apply (maybeGrow_spec lawful (rep₁.reorder sound₂ order₂)).mono
          · rintro _ s₃ ⟨rep₃, within₃, grown⟩
            have positive₃ : s₃.map.capacity ≠ 0 := by
              rcases grown with ⟨_, rfl⟩ | ⟨positive₃, _⟩
              · omega
              · exact positive₃
            exact (insertGrown_spec lawful rep₃ within₃ positive₃ key value _).mono
              (fun _ _ rep' => ⟨rep', fun _ => granted⟩) fun _ _ h => h.elim
          · rintro _ s₃ ⟨_, _, exceeded, _⟩
            rw [within₂] at exceeded
            cases exceeded
        · rintro _ s₂ ⟨bad, _, _, ⟨refused, lost⟩ | ⟨short, _⟩⟩
          · exact ⟨bad, lost, refused, .inr zero⟩
          · have small := rep₁.sound.size_le
            omega
      · exact absurd zero positive.1
    apply (insertGrown_spec lawful rep₁ within₁ zero key value _).mono _ fun _ _ h => h.elim
    intro _ s₂ rep₂
    refine ⟨rep₂, fun needed => ?_⟩
    rcases grown with ⟨within, rfl⟩ | ⟨_, granted⟩
    · rcases needed with exceeded | none
      · rw [within] at exceeded
        cases exceeded
      · exact absurd none zero
    · exact granted
  · rintro _ s₁ ⟨bad, lost, exceeded, refused⟩
    exact ⟨bad, lost, refused, .inl exceeded⟩

theorem reserve_spec (count : Nat) : (reserve policy grants count).Ensures s (fun _ s' => Represents policy s'.map f ∧
        (s.map.capacity < reserveBuckets policy count → grants s.requests = true))
      fun failure s' => failure = .badAlloc ∧ s'.map = {} ∧ grants s.requests = false ∧
        s.map.capacity < reserveBuckets policy count := by
  unfold reserve current
  simp only [ensures_bind, ensures_get, ensures_pure]
  by_cases enough : reserveBuckets policy count ≤ s.map.capacity
  · rw [if_pos enough]
    exact ⟨rep, fun short => absurd enough (Nat.not_le.mpr short)⟩
  rw [if_neg enough]
  rcases reserveBuckets_power policy count with ⟨k, four, power⟩
  have target := targetCapacity_self four power
  have small := rep.sound.size_le
  apply (rehash_spec lawful rep.sound _).mono
  · rintro _ s' ⟨sound, _, order, provided⟩
    exact ⟨rep.reorder sound order, fun _ => (provided.resolve_left (by omega)).1⟩
  · rintro _ s' ⟨bad, _, _, ⟨refused, lost⟩ | ⟨short, _⟩⟩
    · exact ⟨bad, lost, refused, by omega⟩
    · omega

theorem remove_spec (key : Key) :
    (remove policy key).Ensures s (fun _ s' => Represents policy s'.map (erase policy key f)) fun _ _ => False := by
  unfold remove current store
  simp only [ensures_bind, ensures_get, ensures_pure]
  rcases rep.sound.findIndex_cases key (policy.hash key) with ⟨i, small, found, e, here, wanted⟩ | ⟨missed, none⟩
  · have : NeZero s.map.capacity := ⟨by omega⟩
    have mem := (mem_occupied rep.sound.length).mpr ⟨(i : ZMod s.map.capacity), (ring_cast small).trans here⟩
    rcases rep.removeAt lawful small here with ⟨buckets, shifted, rep'⟩
    rw [found]
    dsimp only
    rw [shifted]
    rwa [erase_congr lawful ((rep.sound.holds_iff lawful mem key).mp wanted)] at rep'
  rw [missed]
  refine ⟨rep.sound, fun other value => ?_⟩
  rw [← rep.gives, erase]
  split
  · rename_i same
    constructor
    · rintro ⟨⟩
    · intro given
      rcases (rep.gives other value).mp given with ⟨e, mem, same', _⟩
      have wanted := (rep.sound.holds_iff lawful mem key).mpr
        (lawful.trans _ _ _ same' (lawful.symm _ _ same))
      rw [none e mem] at wanted
      cases wanted
  · rfl

theorem writeValue_spec (key : Key) (write : Value → Value) {value : Value} (present : f key = some value) :
    (writeValue policy key write).Ensures s (fun _ s' => Represents policy s'.map (put policy key (write value) f))
      fun _ _ => False := by
  unfold writeValue current store
  simp only [ensures_bind, ensures_get, ensures_pure]
  rcases (rep.gives key value).mp present with ⟨e', mem', same', rfl⟩
  rcases rep.sound.findIndex_cases key (policy.hash key) with ⟨i, small, found, e, here, wanted⟩ | ⟨missed, none⟩
  · have : NeZero s.map.capacity := ⟨by omega⟩
    have mem := (mem_occupied rep.sound.length).mpr ⟨(i : ZMod s.map.capacity), (ring_cast small).trans here⟩
    have same := (rep.sound.holds_iff lawful mem key).mp wanted
    have one := rep.sound.unique lawful mem mem' (lawful.trans _ _ _ same (lawful.symm _ _ same'))
    rw [found]
    simp only [here]
    rw [← one, ← put_congr lawful same]
    exact rep.assign lawful small here _
  · have wanted := (rep.sound.holds_iff lawful mem' key).mpr same'
    rw [none e' mem'] at wanted
    cases wanted

theorem index_spec [Inhabited Value] (key : Key) (write : Value → Value) : (index policy grants key write).Ensures s
      (fun _ s' => Represents policy s'.map (put policy key (write ((f key).getD default)) f))
      fun failure s' => failure = .badAlloc ∧ s'.map = {} ∧ grants s.requests = false := by
  unfold index current
  simp only [ensures_bind, ensures_get, ensures_pure]
  rw [rep.getPtr lawful]
  cases present : f key with
  | some value =>
    exact (writeValue_spec lawful rep key write present).mono (fun _ _ h => h) fun _ _ h => h.elim
  | none =>
    rw [if_neg (by simp)]
    simp only [ensures_bind]
    apply (insert_spec lawful rep key default).mono
    · rintro _ s₁ ⟨rep₁, _⟩
      have present₁ : put policy key default f key = some default := if_pos (lawful.refl key)
      apply (writeValue_spec lawful rep₁ key write present₁).mono
      · intro _ s₂ rep₂
        rwa [put_put] at rep₂
      · exact fun _ _ h => h.elim
    · rintro _ s₁ ⟨bad, lost, refused, _⟩
      exact ⟨bad, lost, refused⟩

end

theorem copyFrom_spec {other : FlatHashMap Key Value} (rep : Represents policy other f) :
    (copyFrom policy grants other).Ensures s (fun _ s' => Represents policy s'.map f)
      fun failure s' => failure = .badAlloc ∧ s'.map = {} ∧ grants s.requests = false := by
  unfold copyFrom store
  simp only [ensures_bind]
  apply (initializeTable_spec policy _).mono
  · rintro _ s₁ ⟨_, sound₁, capacity₁, empty⟩
    have large := targetCapacity_pos other.capacity
    have enough : other.size ≤ targetCapacity other.capacity := by
      have small := rep.sound.size_le
      rcases rep.sound.power with zero | ⟨k, four, power⟩
      · omega
      rw [targetCapacity_self four power]
      exact small
    have size₁ : s₁.map.size = 0 := by rw [sound₁.size, empty]; rfl
    apply (insertAll_spec lawful other.buckets sound₁ (by omega) rep.sound.hashed rep.sound.distinct
      (by simp [empty])).mono
    · rintro _ s₂ ⟨sound₂, _, order⟩
      rw [empty, append_nil] at order
      exact rep.reorder sound₂ order
    · rintro _ s₂ ⟨_, _, _, _, short⟩
      rw [← rep.sound.size] at short
      omega
  · rintro _ s₁ ⟨bad, refused, left⟩
    exact ⟨bad, left, refused⟩

def putEach (policy : Policy Key) (entries : List (Entry Key Value)) (f : Key → Option Value) : Key → Option Value :=
  entries.foldl (fun f e => put policy e.key e.value f) f

theorem insertEach_spec (entries : List (Entry Key Value)) (rep : Represents policy s.map f) :
    (insertEach policy grants entries).Ensures s (fun _ s' => Represents policy s'.map (putEach policy entries f))
      fun failure s' => failure = .badAlloc ∧ s'.map = {} ∧ ∃ request, grants request = false := by
  induction entries generalizing s f with
  | nil => exact rep
  | cons e entries ih =>
    simp only [insertEach, ensures_bind]
    apply (insert_spec lawful rep e.key e.value).mono
    · rintro _ s₁ ⟨rep₁, _⟩
      exact ih rep₁
    · rintro _ s₁ ⟨bad, lost, refused, _⟩
      exact ⟨bad, lost, _, refused⟩

theorem putEach_gives (entries : List (Entry Key Value))
    (distinct : entries.Pairwise fun e e' => policy.equal e.key e'.key = false) (key : Key) (value : Value) :
    putEach policy entries f key = some value ↔
      Gives policy entries key value ∨ (∀ e ∈ entries, policy.equal e.key key = false) ∧ f key = some value := by
  induction entries generalizing f with
  | nil => simp [putEach, Gives]
  | cons e entries ih =>
    rw [pairwise_cons] at distinct
    have step : putEach policy (e :: entries) f = putEach policy entries (put policy e.key e.value f) := rfl
    rw [step, ih distinct.2, forall_mem_cons]
    by_cases same : policy.equal e.key key = true
    · have later : ∀ e' ∈ entries, policy.equal e'.key key = false := by
        intro e' mem
        rw [← Bool.not_eq_true]
        intro same'
        have apart := distinct.1 e' mem
        rw [lawful.trans _ _ _ same (lawful.symm _ _ same')] at apart
        cases apart
      have none : ¬ Gives policy entries key value := by
        rintro ⟨e', mem, same', _⟩
        rw [later e' mem] at same'
        cases same'
      rw [put, if_pos same, Option.some.injEq]
      constructor
      · rintro (given | ⟨_, found⟩)
        · exact absurd given none
        · exact .inl ⟨e, mem_cons_self, same, found⟩
      · rintro (⟨e', mem, same', found⟩ | ⟨⟨other, _⟩, _⟩)
        · rcases mem_cons.mp mem with rfl | inside
          · exact .inr ⟨later, found⟩
          · exact absurd ⟨e', inside, same', found⟩ none
        · rw [same] at other
          cases other
    rw [put, if_neg same]
    have other := Bool.eq_false_iff.mpr same
    constructor
    · rintro (⟨e', mem, found⟩ | ⟨rest, found⟩)
      · exact .inl ⟨e', mem_cons_of_mem e mem, found⟩
      · exact .inr ⟨⟨other, rest⟩, found⟩
    · rintro (⟨e', mem, same', found⟩ | ⟨⟨_, rest⟩, found⟩)
      · rcases mem_cons.mp mem with rfl | inside
        · exact absurd same' same
        · exact .inl ⟨e', inside, same', found⟩
      · exact .inr ⟨rest, found⟩

theorem relocateFrom_spec {other : FlatHashMap Key Value} {g : Key → Option Value} (rep : Represents policy s.map f)
    (rep' : Represents policy other g) :
    (relocateFrom policy grants other).Ensures s (fun _ s' => Represents policy s'.map g)
      fun failure s' => failure = .badAlloc ∧ s'.map = {} ∧ ∃ request, grants request = false := by
  unfold relocateFrom
  simp only [ensures_bind]
  apply (clear_spec rep).mono
  · intro _ s₁ rep₁
    apply (reserve_spec lawful rep₁ other.size).mono
    · rintro _ s₂ ⟨rep₂, _⟩
      apply (insertEach_spec lawful other.iterate rep₂).mono
      · intro _ s₃ rep₃
        rw [iterate_eq rep'.sound] at rep₃
        refine ⟨rep₃.sound, fun key value => ?_⟩
        rw [← rep₃.gives, putEach_gives lawful _ rep'.sound.distinct, rep'.gives]
        simp
      · exact fun _ _ h => h
    · rintro _ s₂ ⟨bad, lost, refused, _⟩
      exact ⟨bad, lost, _, refused⟩
  · exact fun _ _ h => h.elim

end

end FlatHashMap

end NginBase.Containers
