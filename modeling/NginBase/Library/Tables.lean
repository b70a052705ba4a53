import Mathlib

namespace Library

open List Prod

/-! Rows at a position of a table. -/

section

variable {α : Type*} {table rows more : List α} {base : Nat}

def Segment (table : List α) (base : Nat) (rows : List α) : Prop := rows <+: table.drop base

namespace Segment

theorem whole (table : List α) : Segment table 0 table := prefix_refl table

theorem append_iff :
    Segment table base (rows ++ more) ↔ Segment table base rows ∧ Segment table (base + rows.length) more := by
  unfold Segment
  rw [← drop_drop]
  constructor
  · intro ⟨tail, h⟩
    rw [← h]
    constructor
    · rw [append_assoc]
      exact prefix_append _ _
    · rw [append_assoc, drop_left]
      exact prefix_append _ _
  · intro ⟨⟨tail, first⟩, second⟩
    rw [← first, drop_left] at second
    rw [← first]
    exact (prefix_append_right_inj rows).mpr second

theorem get (segment : Segment table base rows) {i : Nat} (inside : i < rows.length) : table[base + i]? = rows[i]? := by
  obtain ⟨tail, h⟩ := segment
  rw [← getElem?_drop, ← h, getElem?_append_left inside]

theorem slice (segment : Segment table base rows) : (table.drop base).take rows.length = rows := by
  obtain ⟨tail, h⟩ := segment
  rw [← h, take_left]

end Segment

theorem modify_between (front back : List α) (row : α) (f : α → α) :
    (front ++ row :: back).modify front.length f = front ++ f row :: back := by
  induction front with
  | nil => rfl
  | cons first rest ih => rw [cons_append, length_cons, modify_succ_cons, ih, cons_append]

theorem modify_right (front back : List α) (i : Nat) (f : α → α) :
    (front ++ back).modify (front.length + i) f = front ++ back.modify i f := by
  induction front with
  | nil => rw [nil_append, length_nil, Nat.zero_add, nil_append]
  | cons first rest ih =>
    rw [cons_append, length_cons, Nat.add_right_comm, modify_succ_cons, ih, cons_append]

end

/-! Things that are in one place each: the elements of lists, as a whole, when one list is replaced. -/

section

variable {α β : Type}

theorem set_perm {l : List α} {i : Nat} {a : α} (found : l[i]? = some a) (b : α) : (a :: l.set i b).Perm (b :: l) := by
  induction l generalizing i with
  | nil => simp at found
  | cons c l step =>
    cases i with
    | zero =>
      obtain rfl : c = a := by simpa using found
      exact List.Perm.swap _ _ _
    | succ i =>
      have inner := step (i := i) (by simpa using found)
      exact (List.Perm.swap _ _ _).trans ((inner.cons c).trans (List.Perm.swap _ _ _))

theorem flatMap_set_perm {l : List α} {i : Nat} {a : α} (found : l[i]? = some a) (b : α) (f : α → List β) :
    (f a ++ (l.set i b).flatMap f).Perm (f b ++ l.flatMap f) :=
  (set_perm found b).flatMap_right f

theorem flatMap_set_same {l : List α} {i : Nat} {a b : α} {f : α → List β} (found : l[i]? = some a) (same : f b = f a) :
    ((l.set i b).flatMap f).Perm (l.flatMap f) := by
  have whole := flatMap_set_perm found b f
  rw [same] at whole
  exact (perm_append_left_iff _).mp whole

/-- The list that starts at an address and goes on by `next`, up to 0. -/
def Linked (next : Nat → Nat) : Nat → List Nat → Prop
  | a, [] => a = 0
  | a, b :: l => a = b ∧ b ≠ 0 ∧ Linked next (next b) l

variable {next next' : Nat → Nat} {a b c : Nat} {l : List Nat}

theorem Linked.frame (linked : Linked next a l) (same : ∀ b ∈ l, next' b = next b) : Linked next' a l := by
  induction l generalizing a with
  | nil => exact linked
  | cons b l step =>
    obtain ⟨rfl, nonzero, rest⟩ := linked
    refine ⟨rfl, nonzero, ?_⟩
    rw [same a (mem_cons_self ..)]
    exact step rest fun c mem => same c (mem_cons_of_mem _ mem)

theorem Linked.update (linked : Linked next a l) (outside : c ∉ l) (v : Nat) : Linked (Function.update next c v) a l := by
  apply linked.frame
  intro b mem
  apply Function.update_of_ne
  rintro rfl
  exact outside mem

theorem Linked.uncons (linked : Linked next a l) (nonzero : a ≠ 0) : ∃ rest, l = a :: rest ∧ Linked next (next a) rest := by
  cases l with
  | nil => exact absurd linked nonzero
  | cons b l =>
    obtain ⟨rfl, _, rest⟩ := linked
    exact ⟨l, rfl, rest⟩

theorem Linked.push (linked : Linked next (next b) l) (nonzero : b ≠ 0) : Linked next b (b :: l) := ⟨rfl, nonzero, linked⟩

/-- An address comes up on the way from a start by `next`. -/
inductive OnList (next : Nat → Nat) (b : Nat) : Nat → Prop
  | here (nonzero : b ≠ 0) : OnList next b b
  | later {a : Nat} (nonzero : a ≠ 0) (rest : OnList next b (next a)) : OnList next b a

theorem Linked.onList_iff (linked : Linked next a l) : OnList next b a ↔ b ∈ l := by
  induction l generalizing a with
  | nil =>
    obtain rfl : a = 0 := linked
    simp only [List.not_mem_nil, iff_false]
    intro on
    cases on with
    | here nonzero => exact nonzero rfl
    | later nonzero _ => exact nonzero rfl
  | cons c l step =>
    obtain ⟨rfl, nonzero, rest⟩ := linked
    rw [List.mem_cons, ← step rest]
    constructor
    · intro on
      cases on with
      | here _ => exact .inl rfl
      | later _ further => exact .inr further
    · rintro (rfl | further)
      · exact .here nonzero
      · exact .later nonzero further

end

/-! Vectors whose elements know where they are: an element is removed by putting the last one in its place. -/

section

variable {α : Type} {index : α → Option Nat} {l : List α} {i : Nat} {a b : α}

def Indexed (index : α → Option Nat) (l : List α) : Prop := ∀ i a, l[i]? = some a → index a = some i

section

variable (indexed : Indexed index l)

include indexed

theorem Indexed.nodup : l.Nodup := by
  apply nodup_iff_injective_getElem.mpr
  intro i j same
  have first : index l[i.1] = some i.1 := indexed i.1 l[i.1] (getElem?_eq_getElem i.2)
  have second : index l[j.1] = some j.1 := indexed j.1 l[j.1] (getElem?_eq_getElem j.2)
  have same : l[i.1] = l[j.1] := same
  rw [same, second] at first
  exact Fin.ext (Option.some.inj first).symm

theorem Indexed.congr {index' : α → Option Nat} (same : ∀ a ∈ l, index' a = index a) : Indexed index' l := by
  intro i a found
  rw [same a (mem_of_getElem? found)]
  exact indexed i a found

theorem Indexed.update [DecidableEq α] (outside : a ∉ l) (i : Option Nat) : Indexed (Function.update index a i) l := by
  apply indexed.congr
  intro b mem
  apply Function.update_of_ne
  rintro rfl
  exact outside mem

theorem Indexed.push [DecidableEq α] (outside : a ∉ l) : Indexed (Function.update index a (some l.length)) (l ++ [a]) := by
  intro i b found
  rw [getElem?_append] at found
  split at found
  case isTrue inside =>
    have differ : b ≠ a := by
      rintro rfl
      exact outside (mem_of_getElem? found)
    rw [Function.update_of_ne differ]
    exact indexed i b found
  case isFalse past =>
    obtain ⟨place, rfl⟩ : i - l.length = 0 ∧ a = b := by
      rw [getElem?_singleton] at found
      split at found
      case isTrue place => exact ⟨place, Option.some.inj found⟩
      case isFalse => contradiction
    rw [Function.update_self]
    congr 1
    omega

theorem Indexed.replace [DecidableEq α] (outside : a ∉ l) : Indexed (Function.update index a (some i)) (l.set i a) := by
  intro j b found
  by_cases same : i = j
  · subst same
    have inside : i < l.length := by
      have bound := List.getElem?_eq_some_iff.mp found
      simpa using bound.1
    rw [getElem?_set_self inside] at found
    rw [← Option.some.inj found, Function.update_self]
  · rw [getElem?_set_ne same] at found
    have differ : b ≠ a := by
      rintro rfl
      exact outside (mem_of_getElem? found)
    rw [Function.update_of_ne differ]
    exact indexed j b found

theorem Indexed.mem_replace (found : l[i]? = some b) : a ∈ l.set i a ∧
    ∀ c, c ≠ a → (c ∈ l.set i a ↔ c ∈ l ∧ c ≠ b) := by
  obtain ⟨inside, rfl⟩ := List.getElem?_eq_some_iff.mp found
  refine ⟨mem_set inside a, ?_⟩
  intro c differ
  constructor
  · intro mem
    obtain ⟨j, place⟩ := mem_iff_getElem?.mp mem
    have other : i ≠ j := by
      rintro rfl
      rw [getElem?_set_self inside] at place
      exact differ (Option.some.inj place).symm
    rw [getElem?_set_ne other] at place
    refine ⟨mem_of_getElem? place, ?_⟩
    rintro rfl
    have twice := (indexed j _ place).symm.trans (indexed i _ found)
    exact other (Option.some.inj twice).symm
  · rintro ⟨mem, other⟩
    obtain ⟨j, place⟩ := mem_iff_getElem?.mp mem
    apply mem_of_getElem? (i := j)
    rw [getElem?_set_ne _, place]
    rintro rfl
    rw [found] at place
    exact other (Option.some.inj place).symm

theorem Indexed.dropLast : Indexed index l.dropLast := by
  intro i a found
  apply indexed i a
  rw [getElem?_dropLast] at found
  split at found
  · exact found
  · contradiction

theorem Indexed.mem_dropLast (last : l.getLast? = some a) (b : α) : b ∈ l.dropLast ↔ b ∈ l ∧ b ≠ a := by
  obtain ⟨init, rfl⟩ := getLast?_eq_some_iff.mp last
  have apart := nodup_append'.mp indexed.nodup
  rw [dropLast_concat, mem_append, mem_singleton]
  constructor
  · intro mem
    refine ⟨.inl mem, ?_⟩
    rintro rfl
    exact apart.2.2 mem (mem_singleton_self _)
  · rintro ⟨mem | same, differ⟩
    · exact mem
    · exact absurd same differ

theorem Indexed.swapRemove [DecidableEq α] (found : l[i]? = some a) (last : l.getLast? = some b)
    (before : i ≠ l.length - 1) : Indexed (Function.update index b (some i)) (l.set i b).dropLast ∧
      ∀ c, c ∈ (l.set i b).dropLast ↔ c ∈ l ∧ c ≠ a := by
  obtain ⟨init, rfl⟩ := getLast?_eq_some_iff.mp last
  have whole := indexed.nodup
  have apart := nodup_append'.mp whole
  have inside : i < init.length := by
    have bound := (List.getElem?_eq_some_iff.mp found).1
    simp only [length_append, length_singleton] at bound before
    omega
  rw [getElem?_append_left inside] at found
  have outside : b ∉ init := fun mem => apart.2.2 mem (mem_singleton_self _)
  have short : Indexed index init := by
    have dropped := indexed.dropLast
    rwa [dropLast_concat] at dropped
  rw [set_append_left _ _ inside, dropLast_concat]
  refine ⟨short.replace outside, ?_⟩
  intro c
  have differ : a ≠ b := by
    rintro rfl
    exact outside (mem_of_getElem? found)
  obtain ⟨self, others⟩ := short.mem_replace found (a := b)
  by_cases same : c = b
  · subst same
    simp [self, Ne.symm differ]
  · rw [others c same]
    simp [same]

end

end

/-! Lists of entries with keys that may repeat: the first entry of every key and the last one. -/

section

variable {κ α : Type} [DecidableEq κ]

def firsts : List (κ × α) → List (κ × α)
  | [] => []
  | entry :: rest => entry :: (firsts rest).filter fun later => later.1 ≠ entry.1

def lastOf (entries : List (κ × α)) (key : κ) : Option (κ × α) := entries.reverse.find? fun entry => entry.1 = key

def lasts (entries : List (κ × α)) : List (κ × α) := (firsts entries).map fun entry => (lastOf entries entry.1).getD entry

def newTo (keys : List κ) (entries : List (κ × α)) : List (κ × α) := entries.filter fun entry => entry.1 ∉ keys

variable {entry : κ × α} {rest before : List (κ × α)} {key : κ}

theorem firsts_known (known : entry.1 ∈ before.map fst) :
    newTo (before.map fst) (firsts (entry :: rest)) = newTo (before.map fst) (firsts rest) := by
  rw [firsts, newTo, filter_cons_of_neg (by simpa using known), filter_filter]
  apply filter_congr
  intro later _
  by_cases inside : later.1 ∈ before.map fst
  · simp [inside]
  · have differs : later.1 ≠ entry.1 := fun same => inside (same ▸ known)
    simp [differs]

theorem firsts_fresh (fresh : entry.1 ∉ before.map fst) : newTo (before.map fst) (firsts (entry :: rest)) =
      entry :: newTo ((before ++ [entry]).map fst) (firsts rest) := by
  rw [firsts, newTo, filter_cons_of_pos (by simpa using fresh), filter_filter]
  congr 1
  apply filter_congr
  intro later _
  rw [Bool.eq_iff_iff]
  simp only [Bool.and_eq_true, decide_eq_true_eq, map_append, mem_append, map_cons, map_nil,
    mem_singleton, not_or, ne_eq]

theorem newTo_nil (entries : List (κ × α)) : newTo [] entries = entries := by
  rw [newTo]
  simp

theorem lastOf_cons : lastOf (entry :: rest) key = (lastOf rest key).or (if entry.1 = key then some entry else none) := by
  by_cases same : entry.1 = key <;> simp [lastOf]

theorem lastOf_other (other : entry.1 ≠ key) : lastOf (entry :: rest) key = lastOf rest key := by
  rw [lastOf_cons, if_neg other, Option.or_none]

theorem lastOf_same (later : κ × α) : (lastOf (entry :: rest) entry.1).getD later = (lastOf rest entry.1).getD entry := by
  rw [lastOf_cons, if_pos rfl]
  cases lastOf rest entry.1 <;> rfl

theorem set_found {index : Nat} (distinct : (before.map fst).Nodup)
    (found : before.findIdx? (fun earlier => earlier.1 = entry.1) = some index) :
    before.set index entry = before.map fun earlier => if earlier.1 = entry.1 then entry else earlier := by
  obtain ⟨inside, same, _⟩ := findIdx?_eq_some_iff_getElem.mp found
  have same := of_decide_eq_true same
  apply ext_getElem (by simp)
  intro i low high
  rw [getElem_set, getElem_map]
  by_cases here : index = i
  · subst here
    rw [if_pos rfl, if_pos same]
  rw [if_neg here, if_neg]
  intro equal
  have later : i < (before.map fst).length := by simpa using high
  have first : index < (before.map fst).length := by simpa using inside
  have keys : (before.map fst)[index] = (before.map fst)[i] := by
    rw [getElem_map, getElem_map, same, equal]
  exact here ((List.Nodup.getElem_inj_iff distinct).mp keys)

theorem keys_set_found {index : Nat} (found : before.findIdx? (fun earlier => earlier.1 = entry.1) = some index) :
    (before.set index entry).map fst = before.map fst := by
  obtain ⟨inside, same, _⟩ := findIdx?_eq_some_iff_getElem.mp found
  have same := of_decide_eq_true same
  rw [map_set, ← same]
  apply ext_getElem (by simp)
  intro i low high
  rw [getElem_set]
  split
  · rename_i here
    subst here
    rw [getElem_map]
  · rfl

theorem lasts_replaced (distinct : (before.map Prod.fst).Nodup) {index : Nat}
    (found : before.findIdx? (fun earlier => earlier.1 = entry.1) = some index) :
    ((before.set index entry).map fun earlier => (lastOf rest earlier.1).getD earlier) =
      before.map fun earlier => (lastOf (entry :: rest) earlier.1).getD earlier := by
  rw [set_found distinct found, List.map_map]
  apply List.map_congr_left
  intro earlier _
  by_cases same : earlier.1 = entry.1
  · rw [Function.comp_apply, if_pos same, same, lastOf_same]
  · rw [Function.comp_apply, if_neg same, lastOf_other (Ne.symm same)]

theorem lasts_other {entries : List (κ × α)} (others : ∀ other ∈ entries, other.1 ≠ entry.1) :
    (entries.map fun other => (lastOf (entry :: rest) other.1).getD other) =
      entries.map fun other => (lastOf rest other.1).getD other := by
  apply map_congr_left
  intro other inside
  rw [lastOf_other (others other inside).symm]

theorem newTo_keys {keys : List κ} {entries : List (κ × α)} (known : key ∈ keys) :
    ∀ other ∈ newTo keys entries, other.1 ≠ key := by
  intro other inside same
  have new := (mem_filter.mp inside).2
  simp only [same, decide_eq_true_eq] at new
  exact new known

theorem nodup_keys_concat (distinct : (before.map fst).Nodup) (fresh : entry.1 ∉ before.map fst) :
    ((before ++ [entry]).map fst).Nodup := by
  rw [map_append, nodup_append]
  apply And.intro distinct
  apply And.intro (nodup_singleton _)
  intro key inside key' same equal
  rw [mem_singleton.mp same] at equal
  exact fresh (equal ▸ inside)

end

/-! Lists of intervals that stand in order between two places. -/

section

variable {τ : Type} (first last : τ → Nat)

/-- The intervals of the list follow one another between `a` and `b`; every place between them is `free`. -/
inductive Tiles (free : Nat → Prop) : Nat → List τ → Nat → Prop
  | done {a b : Nat} (forward : a ≤ b) (gap : ∀ i, a ≤ i → i < b → free i) : Tiles free a [] b
  | token {a b : Nat} {t : τ} {rest : List τ} (forward : a ≤ first t) (gap : ∀ i, a ≤ i → i < first t → free i)
    (wide : first t < last t) (tail : Tiles free (last t) rest b) : Tiles free a (t :: rest) b

namespace Tiles

variable {first last} {free free' : Nat → Prop} {a b c : Nat} {ts ts' : List τ}

theorem refl (a : Nat) : Tiles first last free a [] a := .done (Nat.le_refl a) fun _ low high => absurd low (Nat.not_le_of_lt high)

theorem le (tiles : Tiles first last free a ts b) : a ≤ b := by
  induction tiles with
  | done forward gap => exact forward
  | token forward gap wide tail ih => omega

theorem skip (forward : a ≤ b) (gap : ∀ i, a ≤ i → i < b → free i) (tiles : Tiles first last free b ts c) :
    Tiles first last free a ts c := by
  have both {e : Nat} (gap' : ∀ i, b ≤ i → i < e → free i) (i : Nat) (low : a ≤ i) (high : i < e) : free i := by
    rcases Nat.lt_or_ge i b with here | there
    · exact gap i low here
    · exact gap' i there high
  cases tiles with
  | done forward' gap' => exact .done (Nat.le_trans forward forward') (both gap')
  | token forward' gap' wide tail => exact .token (Nat.le_trans forward forward') (both gap') wide tail

theorem append (tiles : Tiles first last free a ts b) (tiles' : Tiles first last free b ts' c) :
    Tiles first last free a (ts ++ ts') c := by
  induction tiles with
  | done forward gap => exact tiles'.skip forward gap
  | token forward gap wide _ ih => exact .token forward gap wide (ih tiles')

theorem mono (weaker : ∀ i, a ≤ i → i < b → free i → free' i) (tiles : Tiles first last free a ts b) :
    Tiles first last free' a ts b := by
  induction tiles with
  | done forward gap => exact .done forward fun i low high => weaker i low high (gap i low high)
  | @token a b t rest forward gap wide tail ih =>
    have behind := tail.le
    apply Tiles.token forward _ wide
    · exact ih fun i low high => weaker i (by omega) high
    · exact fun i low high => weaker i low (by omega) (gap i low high)

section

variable (tiles : Tiles first last free a ts b)

include tiles

theorem inside {t : τ} (mem : t ∈ ts) : a ≤ first t ∧ first t < last t ∧ last t ≤ b := by
  induction tiles with
  | done => cases mem
  | token forward gap wide tail ih =>
    have behind := tail.le
    rcases List.mem_cons.mp mem with rfl | later
    · exact ⟨forward, wide, behind⟩
    · have within := ih later
      omega

theorem ordered : ts.Pairwise fun t t' => last t ≤ first t' := by
  induction tiles with
  | done => exact .nil
  | token forward gap wide tail ih => exact .cons (fun _ mem => (tail.inside mem).1) ih

end

end Tiles

end

end Library
