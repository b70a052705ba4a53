import NginBase.Containers.FlatHashMap
import NginBase.Library.Probing

namespace NginBase.Containers

open Library Library.Probing List Nat

variable {Key Value : Type}

/-- `KeyEqual` is an equality, and `Hash` respects it. -/
structure Policy.Lawful (policy : Policy Key) : Prop where
  refl : ∀ a, policy.equal a a = true
  symm : ∀ a b, policy.equal a b = true → policy.equal b a = true
  trans : ∀ a b c, policy.equal a b = true → policy.equal b c = true → policy.equal a c = true
  respects : ∀ a b, policy.equal a b = true → policy.hash a = policy.hash b

theorem Policy.Lawful.apart_symm {policy : Policy Key} (lawful : policy.Lawful) :
    Std.Symm fun e e' : Entry Key Value => policy.equal e.key e'.key = false where
  symm a b apart := by
    rw [← Bool.not_eq_true] at apart ⊢
    exact fun same => apart (lawful.symm _ _ same)

section

def homeSlot (c : Nat) (entry : Entry Key Value) : ZMod c := (entry.hash.toNat : ZMod c)

def ring (c : Nat) (buckets : List (Option (Entry Key Value))) (z : ZMod c) : Option (Entry Key Value) :=
  buckets.getD z.val none

variable {c k : Nat} {buckets : List (Option (Entry Key Value))}

theorem and_mask (power : c = 2 ^ k) (n : Nat) : n &&& (c - 1) = n % c := by
  rw [power]
  exact and_two_pow_sub_one_eq_mod n k

theorem ring_cast {i : Nat} (small : i < c) : ring c buckets (i : ZMod c) = buckets.getD i none := by
  rw [ring, ZMod.val_natCast, mod_eq_of_lt small]

theorem cast_and_mask (power : c = 2 ^ k) (n : Nat) : ((n &&& (c - 1) : Nat) : ZMod c) = (n : ZMod c) := by
  rw [and_mask power, ZMod.natCast_mod]

theorem and_mask_lt (power : c = 2 ^ k) (n : Nat) : n &&& (c - 1) < c := by
  rw [and_mask power]
  apply mod_lt
  rw [power]
  exact Nat.two_pow_pos k

theorem distance_gap (power : c = 2 ^ k) {i j : Nat} (small : i < c) (small' : j < c) :
    distance i j (c - 1) = gap (i : ZMod c) (j : ZMod c) := by
  have whole : c - 1 + 1 = c := by omega
  have cast : ((j + c - i : Nat) : ZMod c) = (j : ZMod c) - (i : ZMod c) := by
    rw [cast_sub (by omega), cast_add, ZMod.natCast_self, add_zero]
  rw [distance, whole, and_mask power, gap, ← cast, ZMod.val_natCast]

theorem ring_set (full : buckets.length = c) {i : Nat} (small : i < c) (content : Option (Entry Key Value)) :
    ring c (buckets.set i content) = Function.update (ring c buckets) (i : ZMod c) content := by
  have : NeZero c := ⟨by omega⟩
  funext z
  rw [Function.update_apply]
  by_cases here : z = (i : ZMod c)
  · rw [if_pos here, here, ring_cast small, getD_eq_getElem?_getD, getElem?_set_self (by omega)]
    rfl
  have other : i ≠ z.val := by
    intro same
    apply here
    rw [same, ZMod.natCast_zmod_val]
  rw [if_neg here, ring, ring, getD_eq_getElem?_getD, getElem?_set_ne other, getD_eq_getElem?_getD]

def occupied (buckets : List (Option (Entry Key Value))) : List (Entry Key Value) := buckets.filterMap id

theorem mem_occupied [NeZero c] (full : buckets.length = c) {e : Entry Key Value} :
    e ∈ occupied buckets ↔ ∃ z, ring c buckets z = some e := by
  unfold occupied ring
  rw [mem_filterMap]
  constructor
  · rintro ⟨content, mem, rfl⟩
    rcases getElem_of_mem mem with ⟨i, bound, here⟩
    refine ⟨(i : ZMod c), ?_⟩
    rw [ZMod.val_natCast, mod_eq_of_lt (by omega), getD_eq_getElem _ _ bound, here]
  · rintro ⟨z, here⟩
    have bound : z.val < buckets.length := by
      rw [full]
      exact ZMod.val_lt z
    rw [getD_eq_getElem _ _ bound] at here
    exact ⟨_, getElem_mem bound, by rw [here]; rfl⟩

theorem occupied_fill {i : Nat} (bound : i < buckets.length) (empty : buckets.getD i none = none) (e : Entry Key Value) :
    (occupied (buckets.set i (some e))).Perm (e :: occupied buckets) := by
  rw [getD_eq_getElem _ _ bound] at empty
  have before : buckets = buckets.take i ++ none :: buckets.drop (i + 1) := by
    rw [← empty, getElem_cons_drop, take_append_drop]
  have after : buckets.set i (some e) = buckets.take i ++ some e :: buckets.drop (i + 1) :=
    set_eq_take_append_cons_drop.trans (if_pos bound)
  unfold occupied
  rw [after]
  conv_rhs => rw [before]
  rw [filterMap_append, filterMap_append]
  exact perm_middle

theorem occupied_empty {i : Nat} (bound : i < buckets.length) {e : Entry Key Value} (here : buckets.getD i none = some e) :
    (occupied buckets).Perm (e :: occupied (buckets.set i none)) := by
  rw [getD_eq_getElem _ _ bound] at here
  have before : buckets = buckets.take i ++ some e :: buckets.drop (i + 1) := by
    rw [← here, getElem_cons_drop, take_append_drop]
  have after : buckets.set i none = buckets.take i ++ none :: buckets.drop (i + 1) :=
    set_eq_take_append_cons_drop.trans (if_pos bound)
  unfold occupied
  rw [after]
  conv_lhs => rw [before]
  rw [filterMap_append, filterMap_append]
  exact perm_middle

theorem occupied_length_le : (occupied buckets).length ≤ buckets.length := length_filterMap_le _ _

theorem occupied_full [NeZero c] (full : buckets.length = c) (all : ∀ z, ring c buckets z ≠ none) :
    (occupied buckets).length = c := by
  have every : ∀ content ∈ buckets, (id content : Option (Entry Key Value)).isSome := by
    intro content mem
    rcases getElem_of_mem mem with ⟨i, bound, here⟩
    have taken := all (i : ZMod c)
    rw [ring_cast (by omega), getD_eq_getElem _ _ bound, here] at taken
    exact Option.isSome_iff_ne_none.mpr taken
  rw [← full]
  exact filterMap_length_eq_length.mpr every

end

namespace FlatHashMap

variable (policy : Policy Key)

structure Sound (m : FlatHashMap Key Value) : Prop where
  length : m.buckets.length = m.capacity
  mask : m.mask = m.capacity - 1
  power : m.capacity = 0 ∨ ∃ k, 4 ≤ k ∧ m.capacity = 2 ^ k
  size : m.size = (occupied m.buckets).length
  hashed : ∀ e ∈ occupied m.buckets, e.hash = policy.hash e.key
  distinct : (occupied m.buckets).Pairwise fun e e' => policy.equal e.key e'.key = false
  clustered : Clustered (homeSlot m.capacity) (ring m.capacity m.buckets)

section

variable {policy} {m : FlatHashMap Key Value} {k : Nat}

theorem findInsertSlotLoop_scan (power : m.capacity = 2 ^ k) (mask : m.mask = m.capacity - 1) (key : Key) (h : UInt64)
    (probes : Nat) {index : Nat} (small : index < m.capacity) : findInsertSlotLoop policy m key h probes index =
      (scan (emptyOr (holds policy key h)) (ring m.capacity m.buckets) probes (index : ZMod m.capacity)).map ZMod.val := by
  induction probes generalizing index with
  | zero => rfl
  | succ probes ih =>
    have value : ((index : ZMod m.capacity)).val = index := by rw [ZMod.val_natCast, mod_eq_of_lt small]
    have next : (((index + 1) &&& (m.capacity - 1) : Nat) : ZMod m.capacity) = (index : ZMod m.capacity) + 1 := by
      rw [cast_and_mask power, cast_succ]
    have rest := ih (and_mask_lt power (index + 1))
    rw [next] at rest
    unfold findInsertSlotLoop scan
    rw [ring_cast small, mask, rest]
    cases m.buckets.getD index none with
    | none => simp [emptyOr, value]
    | some e =>
      cases found : holds policy key h e with
      | true => simp [emptyOr, found, value]
      | false => simp [emptyOr, found]

theorem findIndexLoop_eq (key : Key) (h : UInt64) (probes index : Nat) : findIndexLoop policy m key h probes index =
      (findInsertSlotLoop policy m key h probes index).filter fun i => (m.buckets.getD i none).isSome := by
  induction probes generalizing index with
  | zero => rfl
  | succ probes ih =>
    unfold findIndexLoop findInsertSlotLoop
    cases content : m.buckets.getD index none with
    | none => simp only [Option.filter, content, Option.isSome_none, Bool.false_eq_true, if_false]
    | some e =>
      cases found : holds policy key h e with
      | true => simp only [Option.filter, content, found, Option.isSome_some, if_true]
      | false => simp only [found, ih, Bool.false_eq_true, if_false]

theorem findIndex_eq (key : Key) (h : UInt64) :
    findIndex policy m key h = (findInsertSlot policy m key h).filter fun i => (m.buckets.getD i none).isSome := by
  unfold findIndex findInsertSlot
  split
  · rename_i none
    rw [none]
    rfl
  · exact findIndexLoop_eq key h _ _

/-- What `FindInsertSlot_` answers: a bucket with the key, or the empty bucket for it, or that the
    table is full of other keys. -/
theorem Sound.findInsertSlot_cases (sound : Sound policy m) (key : Key) (h : UInt64) (positive : m.capacity ≠ 0) :
    (∃ i < m.capacity, findInsertSlot policy m key h = some i ∧
      ((∃ e, m.buckets.getD i none = some e ∧ holds policy key h e = true) ∨
        (m.buckets.getD i none = none ∧ (∀ e ∈ occupied m.buckets, holds policy key h e = false) ∧
          ∀ j < gap ((h.toNat : Nat) : ZMod m.capacity) (i : ZMod m.capacity),
            ring m.capacity m.buckets (((h.toNat : Nat) : ZMod m.capacity) + (j : ZMod m.capacity)) ≠ none))) ∨
    (findInsertSlot policy m key h = none ∧ (∀ e ∈ occupied m.buckets, holds policy key h e = false) ∧
      (occupied m.buckets).length = m.capacity) := by
  have : NeZero m.capacity := ⟨positive⟩
  rcases sound.power with none | ⟨k, _, power⟩
  · exact absurd none positive
  have start : ((h.toNat &&& m.mask : Nat) : ZMod m.capacity) = ((h.toNat : Nat) : ZMod m.capacity) := by
    rw [sound.mask, cast_and_mask power]
  have scanned : findInsertSlot policy m key h =
      (scan (emptyOr (holds policy key h)) (ring m.capacity m.buckets) m.capacity ((h.toNat : Nat) : ZMod m.capacity)).map
        ZMod.val := by
    rw [← start]
    exact findInsertSlotLoop_scan power sound.mask key h _ (by rw [sound.mask]; exact and_mask_lt power _)
  have home : ∀ e : Entry Key Value, holds policy key h e = true → homeSlot m.capacity e = ((h.toNat : Nat) : ZMod m.capacity) := by
    intro e found
    simp only [holds, Bool.and_eq_true, decide_eq_true_eq] at found
    rw [homeSlot, found.1]
  cases result : scan (emptyOr (holds policy key h)) (ring m.capacity m.buckets) m.capacity
      ((h.toNat : Nat) : ZMod m.capacity) with
  | none =>
    rw [result] at scanned
    have all := scan_missed result
    refine .inr ⟨scanned, ?_, occupied_full sound.length fun z => ?_⟩
    · intro e mem
      rcases (mem_occupied sound.length).mp mem with ⟨z, here⟩
      rcases all z with ⟨e', here', other⟩
      rw [here] at here'
      cases here'
      exact other
    · rcases all z with ⟨e, here, _⟩
      rw [here]
      exact Option.some_ne_none e
  | some j =>
    rw [result] at scanned
    have slot : ((j.val : Nat) : ZMod m.capacity) = j := ZMod.natCast_zmod_val j
    refine .inl ⟨j.val, ZMod.val_lt j, scanned, ?_⟩
    rcases sound.clustered.scan_found home result with ⟨e, here, found⟩ | ⟨empty, none, way⟩
    · exact .inl ⟨e, here, found⟩
    refine .inr ⟨empty, ?_, by rwa [slot]⟩
    intro e mem
    rcases (mem_occupied sound.length).mp mem with ⟨z, here⟩
    exact none z e here

theorem Sound.findIndex_cases (sound : Sound policy m) (key : Key) (h : UInt64) :
    (∃ i < m.capacity, findIndex policy m key h = some i ∧
      ∃ e, m.buckets.getD i none = some e ∧ holds policy key h e = true) ∨
    (findIndex policy m key h = none ∧ ∀ e ∈ occupied m.buckets, holds policy key h e = false) := by
  by_cases zero : m.capacity = 0
  · have empty : m.buckets = [] := List.length_eq_zero_iff.mp (sound.length.trans zero)
    refine .inr ⟨by rw [findIndex, if_pos zero], ?_⟩
    rw [empty]
    intro e mem
    cases mem
  rw [findIndex_eq]
  rcases sound.findInsertSlot_cases key h zero with ⟨i, small, slot, ⟨e, here, found⟩ | ⟨empty, none, _⟩⟩ | ⟨slot, none, _⟩
  · refine .inl ⟨i, small, ?_, e, here, found⟩
    simp only [slot, Option.filter, here, Option.isSome_some, if_true]
  · refine .inr ⟨?_, none⟩
    simp only [slot, Option.filter, empty, Option.isSome_none, Bool.false_eq_true, if_false]
  · exact .inr ⟨by rw [slot]; rfl, none⟩

variable (policy) in
def Gives (entries : List (Entry Key Value)) (key : Key) (value : Value) : Prop :=
  ∃ e ∈ entries, policy.equal e.key key = true ∧ e.value = value

variable (lawful : policy.Lawful)

include lawful

theorem Sound.holds_iff (sound : Sound policy m) {e : Entry Key Value} (mem : e ∈ occupied m.buckets) (key : Key) :
    holds policy key (policy.hash key) e = true ↔ policy.equal e.key key = true := by
  unfold holds
  rw [Bool.and_eq_true, decide_eq_true_eq, and_iff_right_iff_imp]
  intro same
  rw [sound.hashed e mem, lawful.respects _ _ same]

theorem Sound.unique (sound : Sound policy m) {e e' : Entry Key Value} (first : e ∈ occupied m.buckets)
    (second : e' ∈ occupied m.buckets) (same : policy.equal e.key e'.key = true) : e = e' := by
  have : Std.Symm fun e e' : Entry Key Value => policy.equal e.key e'.key = false := lawful.apart_symm
  by_contra differ
  have apart := sound.distinct.forall first second differ
  rw [apart] at same
  cases same

theorem Sound.getPtr_iff (sound : Sound policy m) (key : Key) (value : Value) :
    getPtr policy m key = some value ↔ Gives policy (occupied m.buckets) key value := by
  unfold getPtr
  rcases sound.findIndex_cases key (policy.hash key) with ⟨i, small, found, e, here, wanted⟩ | ⟨missed, none⟩
  · have mem : e ∈ occupied m.buckets := by
      have : NeZero m.capacity := ⟨by omega⟩
      exact (mem_occupied sound.length).mpr ⟨(i : ZMod m.capacity), by rw [ring_cast small, here]⟩
    have equal := (sound.holds_iff lawful mem key).mp wanted
    rw [found]
    simp only [here, Option.map_some, Option.some.injEq]
    constructor
    · exact fun same => ⟨e, mem, equal, same⟩
    · rintro ⟨e', mem', equal', rfl⟩
      rw [sound.unique lawful mem mem' (lawful.trans _ _ _ equal (lawful.symm _ _ equal'))]
  · rw [missed]
    constructor
    · exact nofun
    · rintro ⟨e, mem, equal, _⟩
      have wanted := (sound.holds_iff lawful mem key).mpr equal
      rw [none e mem] at wanted
      cases wanted

end

section

variable {policy} {m : FlatHashMap Key Value}

theorem Sound.fill (lawful : policy.Lawful) (sound : Sound policy m) {i : Nat} (small : i < m.capacity)
    {e : Entry Key Value} (empty : m.buckets.getD i none = none) (hashed : e.hash = policy.hash e.key)
    (fresh : ∀ e' ∈ occupied m.buckets, policy.equal e'.key e.key = false)
    (way : ∀ j < gap ((e.hash.toNat : Nat) : ZMod m.capacity) (i : ZMod m.capacity),
      ring m.capacity m.buckets (((e.hash.toNat : Nat) : ZMod m.capacity) + (j : ZMod m.capacity)) ≠ none) :
    Sound policy { m with buckets := m.buckets.set i (some e), size := m.size + 1 } := by
  have filled := occupied_fill (by rw [sound.length]; exact small) empty e
  have : Std.Symm fun e e' : Entry Key Value => policy.equal e.key e'.key = false := lawful.apart_symm
  constructor
  · exact (length_set ..).trans sound.length
  · exact sound.mask
  · exact sound.power
  · exact (congrArg (· + 1) sound.size).trans filled.length_eq.symm
  · intro e' mem
    rcases mem_cons.mp (filled.mem_iff.mp mem) with rfl | old
    · exact hashed
    · exact sound.hashed e' old
  · apply (filled.pairwise_iff fun {a b} => this.symm a b).mpr
    exact pairwise_cons.mpr ⟨fun e' old => this.symm _ _ (fresh e' old), sound.distinct⟩
  · rw [ring_set sound.length small]
    exact sound.clustered.insert way

theorem Sound.assign (lawful : policy.Lawful) (sound : Sound policy m) {i : Nat} (small : i < m.capacity) {e : Entry Key Value}
    (here : m.buckets.getD i none = some e) (value : Value) :
    Sound policy { m with buckets := m.buckets.set i (some { e with value }) } ∧
      ∃ rest, (occupied m.buckets).Perm (e :: rest) ∧
        (occupied (m.buckets.set i (some { e with value }))).Perm ({ e with value } :: rest) := by
  have bound : i < m.buckets.length := by rw [sound.length]; exact small
  have taken := occupied_empty bound here
  have emptied : (m.buckets.set i none).getD i none = none := by
    rw [getD_eq_getElem?_getD, getElem?_set_self bound]
    rfl
  have put := occupied_fill (by rw [length_set]; exact bound) emptied { e with value }
  rw [set_set] at put
  have : Std.Symm fun e e' : Entry Key Value => policy.equal e.key e'.key = false := lawful.apart_symm
  have apart := pairwise_cons.mp ((taken.pairwise_iff fun {a b} => this.symm a b).mp sound.distinct)
  refine ⟨?_, _, taken, put⟩
  constructor
  · exact (length_set ..).trans sound.length
  · exact sound.mask
  · exact sound.power
  · have count := taken.length_eq.trans put.length_eq.symm
    exact sound.size.trans count
  · intro e' mem
    rcases mem_cons.mp (put.mem_iff.mp mem) with rfl | old
    · exact sound.hashed e (taken.mem_iff.mpr mem_cons_self)
    · exact sound.hashed e' (taken.mem_iff.mpr (mem_cons_of_mem e old))
  · apply (put.pairwise_iff fun {a b} => this.symm a b).mpr
    exact pairwise_cons.mpr apart
  · rw [ring_set sound.length small]
    exact sound.clustered.replace ((ring_cast small).trans here) rfl

theorem backwardShift_ring {c k : Nat} (power : c = 2 ^ k) (steps : Nat) {buckets : List (Option (Entry Key Value))}
    {hole next : Nat} {t : ZMod c → Option (Entry Key Value)} (full : buckets.length = c) (small : hole < c) (small' : next < c)
    (empty : buckets.getD hole none = none)
    (h : shift (homeSlot c) steps (ring c buckets) (hole : ZMod c) (next : ZMod c) = some t) :
    ∃ shifted, backwardShift (c - 1) steps buckets hole next = some shifted ∧ shifted.length = c ∧ ring c shifted = t ∧
      (occupied shifted).Perm (occupied buckets) := by
  induction steps generalizing buckets hole next with
  | zero => cases h
  | succ steps ih =>
    have after : (((next + 1) &&& (c - 1) : Nat) : ZMod c) = (next : ZMod c) + 1 := by
      rw [cast_and_mask power, cast_succ]
    unfold shift at h
    unfold backwardShift
    rw [ring_cast small'] at h
    cases content : buckets.getD next none with
    | none =>
      rw [content] at h
      cases h
      exact ⟨buckets, rfl, full, rfl, List.Perm.refl _⟩
    | some e =>
      rw [content] at h
      dsimp only at h ⊢
      have home : ((e.hash.toNat &&& (c - 1) : Nat) : ZMod c) = homeSlot c e := cast_and_mask power _
      have home' := and_mask_lt power e.hash.toNat
      rw [distance_gap power home' small, distance_gap power home' small', home]
      have apart : hole ≠ next := by
        rintro rfl
        rw [empty] at content
        cases content
      by_cases moves : gap (homeSlot c e) (hole : ZMod c) < gap (homeSlot c e) (next : ZMod c)
      · rw [if_pos moves] at h ⊢
        have filled := occupied_fill (by rw [full]; exact small) empty e
        have there : (buckets.set hole (some e)).getD next none = some e := by
          rw [getD_eq_getElem?_getD, getElem?_set_ne apart, ← getD_eq_getElem?_getD, content]
        have bound : next < (buckets.set hole (some e)).length := by
          rw [length_set, full]
          exact small'
        have emptied := occupied_empty bound there
        have moved : (occupied ((buckets.set hole (some e)).set next none)).Perm (occupied buckets) :=
          (emptied.symm.trans filled).cons_inv
        have hollow : ((buckets.set hole (some e)).set next none).getD next none = none := by
          rw [getD_eq_getElem?_getD, getElem?_set_self bound]
          rfl
        have full' : ((buckets.set hole (some e)).set next none).length = c := by
          rw [length_set, length_set, full]
        rw [← ring_set full small, ← ring_set (by rw [length_set, full]) small', ← after] at h
        rcases ih full' small' (and_mask_lt power _) hollow h with ⟨shifted, result, length, same, order⟩
        exact ⟨shifted, result, length, same, order.trans moved⟩
      · rw [if_neg moves] at h ⊢
        rw [← after] at h
        exact ih full small (and_mask_lt power _) empty h

theorem Sound.removeAt (lawful : policy.Lawful) (sound : Sound policy m) {i : Nat} (small : i < m.capacity)
    {e : Entry Key Value} (here : m.buckets.getD i none = some e) :
    ∃ buckets, backwardShift m.mask (m.capacity * m.capacity * m.capacity) (m.buckets.set i none) i ((i + 1) &&& m.mask) =
        some buckets ∧
      Sound policy { m with buckets, size := m.size - 1 } ∧ (occupied m.buckets).Perm (e :: occupied buckets) := by
  have : NeZero m.capacity := ⟨by omega⟩
  have : Std.Symm fun e e' : Entry Key Value => policy.equal e.key e'.key = false := lawful.apart_symm
  rcases sound.power with zero | ⟨k, _, power⟩
  · omega
  have bound : i < m.buckets.length := by rw [sound.length]; exact small
  have taken := occupied_empty bound here
  have hollow : (m.buckets.set i none).getD i none = none := by
    rw [getD_eq_getElem?_getD, getElem?_set_self bound]
    rfl
  have full : (m.buckets.set i none).length = m.capacity := by rw [length_set, sound.length]
  have after : (((i + 1) &&& (m.capacity - 1) : Nat) : ZMod m.capacity) = (i : ZMod m.capacity) + 1 := by
    rw [cast_and_mask power, cast_succ]
  rcases sound.clustered.remove (i : ZMod m.capacity) with ⟨t, shifted, clustered⟩
  rw [← ring_set sound.length small, ← after] at shifted
  rcases backwardShift_ring power _ full small (and_mask_lt power _) hollow shifted with
    ⟨buckets, result, length, same, order⟩
  have perm : (occupied m.buckets).Perm (e :: occupied buckets) := taken.trans (order.symm.cons e)
  refine ⟨buckets, by rw [sound.mask]; exact result, ?_, perm⟩
  constructor
  · exact length
  · exact sound.mask
  · exact sound.power
  · have count := perm.length_eq
    rw [length_cons, ← sound.size] at count
    dsimp only
    omega
  · intro e' mem
    exact sound.hashed e' (perm.mem_iff.mpr (mem_cons_of_mem e mem))
  · exact (pairwise_cons.mp ((perm.pairwise_iff fun {a b} => this.symm a b).mp sound.distinct)).2
  · rw [same]
    exact clustered

end

section

variable {m : FlatHashMap Key Value}

theorem visit_eq (length : m.buckets.length = m.capacity) (n : Nat) {index steps : Nat} (left : index + n = m.capacity)
    (enough : n ≤ steps) : visit m steps index = occupied (m.buckets.drop index) := by
  induction n generalizing index steps with
  | zero =>
    have done : m.buckets.drop index = [] := drop_eq_nil_of_le (by omega)
    rw [done]
    cases steps with
    | zero => rfl
    | succ steps =>
      have stop : m.capacity - index = 0 := by omega
      rw [visit, stop, advance, getD_eq_default _ _ (by omega)]
      rfl
  | succ n ih =>
    have bound : index < m.buckets.length := by omega
    have head := getElem_cons_drop bound
    rcases Nat.exists_eq_add_of_le' (Nat.le_trans (Nat.succ_le_succ (Nat.zero_le n)) enough) with ⟨steps, rfl⟩
    have here := getD_eq_getElem m.buckets none bound
    have more : m.capacity - index = n + 1 := by omega
    have more' : m.capacity - (index + 1) = n := by omega
    rw [← head]
    cases content : m.buckets[index] with
    | none =>
      rw [content] at here
      have same : visit m (steps + 1) index = visit m (steps + 1) (index + 1) := by
        rw [visit, visit, more, more', advance, here]
        rfl
      rw [same, ih (by omega) (by omega)]
      rfl
    | some e =>
      rw [content] at here
      have stay : advance m (m.capacity - index) index = index := by
        rw [more, advance, here]
        rfl
      rw [visit, stay, here]
      rw [ih (by omega) (by omega)]
      rfl

theorem iterate_eq {policy : Policy Key} (sound : Sound policy m) : m.iterate = occupied m.buckets :=
  visit_eq sound.length m.capacity (zero_add _) le_rfl

end

end FlatHashMap

end NginBase.Containers
