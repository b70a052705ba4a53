import NginBase.Utilities.StringInterner

namespace NginBase.Utilities

open Library List Nat Block Function Option

def Entry.stop (entry : Entry) : Nat := entry.offset + entry.length + 1

structure Page.Valid (page : Page) : Prop where
  block : page.data.length = page.capacity
  used_le : page.used ≤ page.capacity

namespace StringInterner

variable {x x' : StringInterner} {hashOf : Bytes → UInt64} {table : List Bytes} {value s : Bytes} {id storage : Nat}

/-- An entry holds a string, which the used part of its page contains with the zero after it. -/
structure Stored (x : StringInterner) (entry : Entry) (s : Bytes) : Prop where
  length : entry.length = s.length
  placed : ∃ page, x.pages[entry.page]? = some page ∧ entry.stop ≤ page.used ∧
    read page.data entry.offset entry.length = some s

/-- The interner holds the strings of a table, each under its index. -/
structure Holds (hashOf : Bytes → UInt64) (x : StringInterner) (table : List Bytes) : Prop where
  pages : ∀ page ∈ x.pages, page.Valid
  pages_le : x.pages.length ≤ x.entries.length
  size : x.entries.length = table.length
  stored : ∀ (id : Nat) entry, x.entries[id]? = some entry → ∃ s, table[id]? = some s ∧ x.Stored entry s
  apart : x.entries.Pairwise fun e e' => e.page < e'.page ∨ e.page = e'.page ∧ e.stop ≤ e'.offset
  buckets : ∀ h (id : Nat), id ∈ (x.buckets h).getD [] ↔ ∃ s, table[id]? = some s ∧ hashOf s = h
  distinct : table.Nodup
  few : table.length < 2 ^ 32 - 1
  next : x.nextPageCapacity < 2 ^ 32

theorem Holds.empty (hashOf : Bytes → UInt64) : Holds hashOf {} [] where
  pages := by simp
  pages_le := le_refl _
  size := rfl
  stored := by simp
  apart := .nil
  buckets := by simp
  distinct := nodup_nil
  few := by decide
  next := by decide

theorem getEntry_eq (holds : Holds hashOf x table) : x.getEntry id = x.entries[id]? := by
  unfold getEntry
  split
  · rename_i outside
    have few := holds.few
    have size := holds.size
    unfold invalidId at outside
    exact (getElem?_eq_none (by omega)).symm
  · rfl

theorem Stored.read {entry : Entry} (stored : x.Stored entry s) : x.readEntry entry = some s := by
  obtain ⟨page, here, -, read⟩ := stored.placed
  unfold readEntry
  rw [here]
  exact read

theorem Holds.entry (holds : Holds hashOf x table) (here : table[id]? = some s) :
    ∃ entry, x.entries[id]? = some entry ∧ x.Stored entry s := by
  have inside : id < x.entries.length := by
    rw [holds.size]
    exact (List.getElem?_eq_some_iff.mp here).1
  obtain ⟨s', same, stored⟩ := holds.stored id _ (getElem?_eq_getElem inside)
  rw [here] at same
  cases same
  exact ⟨_, getElem?_eq_getElem inside, stored⟩

theorem findIn_eq (holds : Holds hashOf x table) (ids : List Nat) (known : ∀ id ∈ ids, ∃ s, table[id]? = some s) :
    x.findIn value ids = some (ids.find? fun id => table[id]? = some value) := by
  induction ids with
  | nil => rfl
  | cons candidate rest ih =>
    have later := ih fun id mem => known id (mem_cons_of_mem _ mem)
    obtain ⟨s, here⟩ := known candidate mem_cons_self
    obtain ⟨entry, isEntry, stored⟩ := holds.entry here
    unfold findIn
    rw [getEntry_eq holds, isEntry, find?_cons, here]
    dsimp only
    rw [stored.length]
    by_cases same : s = value
    · subst same
      simp [stored.read]
    have different : decide (some s = some value) = false := by simpa using same
    rw [different, later]
    split
    · rename_i lengths
      split
      · rename_i empty
        rw [empty, length_nil, length_eq_zero_iff] at lengths
        exact absurd (lengths.trans empty.symm) same
      · rw [stored.read]
        simp [same]
    · rfl

theorem findId_spec (holds : Holds hashOf x table) (value : Bytes) :
    ∃ r, x.findId (hashOf value) value = some r ∧ ∀ id, r = some id ↔ table[id]? = some value := by
  let ids := (x.buckets (hashOf value)).getD []
  have known : ∀ id ∈ ids, ∃ s, table[id]? = some s := by
    intro id mem
    obtain ⟨s, here, -⟩ := (holds.buckets _ id).mp mem
    exact ⟨s, here⟩
  have found : x.findId (hashOf value) value = some (ids.find? fun id => table[id]? = some value) := by
    rw [← findIn_eq holds ids known]
    unfold findId ids
    cases x.buckets (hashOf value) with
    | none => rfl
    | some bucket => rfl
  refine ⟨_, found, ?_⟩
  intro id
  constructor
  · intro first
    simpa using find?_some first
  · intro here
    have mem : id ∈ ids := (holds.buckets _ id).mpr ⟨value, here, rfl⟩
    have isSome : (ids.find? fun id => table[id]? = some value).isSome := by
      rw [find?_isSome]
      exact ⟨id, mem, by simpa using here⟩
    obtain ⟨id', first⟩ := isSome_iff_exists.mp isSome
    have here' : table[id']? = some value := by simpa using find?_some first
    have inside : id' < table.length := (List.getElem?_eq_some_iff.mp here').1
    rw [first, (getElem?_inj inside holds.distinct).mp (here'.trans here.symm)]

theorem le_growCapacity {minCapacity : Nat} (small : minCapacity < 2 ^ 32) (fuel capacity : Nat)
    (enough : 2 ^ 32 ≤ capacity * 2 ^ fuel) : minCapacity ≤ growCapacity minCapacity fuel capacity := by
  induction fuel generalizing capacity with
  | zero =>
    unfold growCapacity
    omega
  | succ fuel ih =>
    unfold growCapacity
    split
    · split
      · exact le_refl _
      · apply ih
        rw [mul_assoc, ← pow_succ']
        exact enough
    · omega

/-- There is storage at the end of the last page, and the bytes that were used before are where they were. -/
structure Allocated (x x' : StringInterner) (storage byteCount : Nat) : Prop where
  entries : x'.entries = x.entries
  buckets : x'.buckets = x.buckets
  last : ∃ page, x'.pages[x'.pages.length - 1]? = some page ∧ page.used = storage + byteCount
  pages : ∀ page ∈ x'.pages, page.Valid
  next : x'.nextPageCapacity < 2 ^ 32
  length_le : x'.pages.length ≤ x.pages.length + 1
  old : ∀ (i : Nat) page, x.pages[i]? = some page → ∃ page', x'.pages[i]? = some page' ∧ page'.data = page.data ∧
    page.used ≤ page'.used ∧ (i + 1 = x'.pages.length → page.used ≤ storage)

theorem takeBytes_spec {page : Page} {byteCount : Nat} (valid : ∀ page ∈ x.pages, page.Valid)
    (last : x.pages.getLast? = some page) (room : page.used + byteCount ≤ page.capacity)
    (next : x.nextPageCapacity < 2 ^ 32) :
    ∃ x', x.takeBytes byteCount = some (x', page.used) ∧ Allocated x x' page.used byteCount ∧
      x'.pages.length = x.pages.length := by
  have here : x.pages[x.pages.length - 1]? = some page := by rw [← List.getLast?_eq_getElem?, last]
  have inside := (List.getElem?_eq_some_iff.mp here).1
  have taken : x.takeBytes byteCount = some
      ({ x with pages := x.pages.set (x.pages.length - 1) { page with used := page.used + byteCount } }, page.used) := by
    unfold takeBytes
    rw [last]
    rfl
  refine ⟨_, taken, ⟨rfl, rfl, ⟨{ page with used := page.used + byteCount }, ?_, rfl⟩, ?_, next, ?_, ?_⟩, List.length_set⟩
  · rw [List.length_set, List.getElem?_set_self inside]
  · intro other mem
    rcases List.mem_or_eq_of_mem_set mem with mem | rfl
    · exact valid other mem
    · exact ⟨(valid page (List.mem_of_getElem? here)).block, room⟩
  · rw [List.length_set]
    omega
  · intro i other isPage
    rw [List.length_set]
    by_cases same : x.pages.length - 1 = i
    · subst same
      rw [here] at isPage
      cases isPage
      exact ⟨_, List.getElem?_set_self inside, rfl, le_add_right _ _, fun _ => le_refl _⟩
    · exact ⟨other, by rw [List.getElem?_set_ne same, isPage], rfl, le_refl _, fun isLast => by omega⟩

theorem allocateBytes_spec (valid : ∀ page ∈ x.pages, page.Valid) (content : Nat → UInt8) {byteCount : Nat}
    (some_ : 0 < byteCount) (small : byteCount < 2 ^ 32) (next : x.nextPageCapacity < 2 ^ 32) :
    ∃ x' storage, x.allocateBytes (some content) byteCount = some (x', storage) ∧ Allocated x x' storage byteCount := by
  unfold allocateBytes
  rw [if_neg (ne_of_gt some_)]
  split
  · let capacity := growCapacity (max x.nextPageCapacity byteCount) 32 (max minPageCapacity x.nextPageCapacity)
    let page : Page := { data := (range capacity).map content, capacity }
    let grown : StringInterner := { x with pages := x.pages ++ [page], nextPageCapacity := capacity * 2 % 2 ^ 32 }
    have large : byteCount ≤ capacity := by
      have least : max x.nextPageCapacity byteCount ≤ capacity := by
        apply le_growCapacity (by omega)
        have : 1 ≤ max minPageCapacity x.nextPageCapacity := le_trans (by decide) (le_max_left _ _)
        omega
      omega
    have valid' : ∀ page ∈ grown.pages, page.Valid := by
      intro other mem
      rcases mem_append.mp mem with mem | mem
      · exact valid other mem
      · obtain rfl := mem_singleton.mp mem
        exact ⟨by simp [page], zero_le _⟩
    have last : grown.pages.getLast? = some page := getLast?_concat
    obtain ⟨x', taken, allocated, length⟩ := takeBytes_spec valid' last
      (by simpa [page] using large : page.used + byteCount ≤ page.capacity) (mod_lt _ (by decide))
    refine ⟨x', 0, taken, allocated.entries, allocated.buckets, allocated.last, allocated.pages, allocated.next, ?_, ?_⟩
    · rw [length]
      exact le_of_eq (length_append ..)
    · intro i other isPage
      have inside := (List.getElem?_eq_some_iff.mp isPage).1
      obtain ⟨page', isPage', data, used, -⟩ := allocated.old i other (by
        rw [getElem?_append_left inside, isPage])
      refine ⟨page', isPage', data, used, ?_⟩
      intro isLast
      have total : grown.pages.length = x.pages.length + 1 := length_append ..
      omega
  · rename_i fits
    simp only [not_or] at fits
    obtain ⟨page, last⟩ : ∃ page, x.pages.getLast? = some page := by
      cases isLast : x.pages.getLast? with
      | none =>
        rw [getLast?_eq_none_iff] at isLast
        simp [isLast] at fits
      | some page => exact ⟨page, rfl⟩
    have room := fits.2
    unfold remainingInLastPage at room
    rw [last] at room
    dsimp only at room
    obtain ⟨x', taken, allocated, -⟩ := takeBytes_spec valid last (by omega : page.used + byteCount ≤ page.capacity) next
    exact ⟨x', page.used, taken, allocated⟩

theorem getElem?_concat_iff {α : Type} {l : List α} {a b : α} {i : Nat} :
    (l ++ [a])[i]? = some b ↔ l[i]? = some b ∨ i = l.length ∧ a = b := by
  by_cases inside : i < l.length
  · rw [List.getElem?_append_left inside]
    simp [Nat.ne_of_lt inside]
  rw [getElem?_append_right (by omega), getElem?_eq_none (by omega : l.length ≤ i)]
  by_cases here : i = l.length
  · simp [here]
  · have some_ : i - l.length ≠ 0 := by omega
    obtain ⟨k, next⟩ := exists_eq_succ_of_ne_zero some_
    simp [here, next]

/-- What an insertion does to the entries, for a string of any length. Only as much of it is stored as fits into 32 bits. -/
structure Inserted (x x' x'' : StringInterner) (hash : UInt64) (value : Bytes) (storage : Nat) (entry : Entry) : Prop where
  entries : x''.entries = x.entries ++ [entry]
  count : x''.pages.length = x'.pages.length
  pages : ∀ page ∈ x''.pages, page.Valid
  next : x''.nextPageCapacity < 2 ^ 32
  buckets : x''.buckets = update x.buckets hash (some ((x.buckets hash).getD [] ++ [x.entries.length % 2 ^ 32]))
  old : ∀ e s, x.Stored e s → x''.Stored e s ∧
    (e.page < x'.pages.length - 1 ∨ e.page = x'.pages.length - 1 ∧ e.stop ≤ storage)
  new : x'.pages.length ≤ 2 ^ 32 → x''.Stored entry (value.take (value.length % 2 ^ 32)) ∧
    entry.page = x'.pages.length - 1 ∧ entry.offset = storage

theorem insertAt_inserted (hash : UInt64) (fits : value.length % 2 ^ 32 + 1 < 2 ^ 32)
    (allocated : Allocated x x' storage (value.length % 2 ^ 32 + 1)) :
    ∃ x'' entry, x'.insertAt hash value storage = some (x.entries.length % 2 ^ 32, x'') ∧
      Inserted x x' x'' hash value storage entry := by
  obtain ⟨page, here, used⟩ := allocated.last
  have valid := allocated.pages page (List.mem_of_getElem? here)
  have room := valid.used_le
  have inside := (List.getElem?_eq_some_iff.mp here).1
  let short := value.take (value.length % 2 ^ 32)
  have length : short.length = value.length % 2 ^ 32 := List.length_take_of_le (mod_le _ _)
  have units : (short ++ [0]).length = value.length % 2 ^ 32 + 1 := by rw [List.length_append, length, List.length_singleton]
  have block : storage + (short ++ [0]).length ≤ page.data.length := by
    rw [valid.block]
    omega
  let data := page.data.take storage ++ (short ++ [0]) ++ page.data.drop (storage + (short ++ [0]).length)
  have written : write page.data storage (short ++ [0]) = some data := write_eq block
  let page' : Page := { page with data }
  let pages := x'.pages.set (x'.pages.length - 1) page'
  have count : pages.length = x'.pages.length := List.length_set
  have at_ : pages[x'.pages.length - 1]? = some page' := List.getElem?_set_self inside
  have index : (pages.length - 1) % 2 ^ 32 < pages.length :=
    lt_of_le_of_lt (mod_le _ _) (by rw [count]; omega)
  let last := pages[(pages.length - 1) % 2 ^ 32]
  let entry : Entry := {
    page := (pages.length - 1) % 2 ^ 32
    offset := last.used - (value.length % 2 ^ 32 + 1)
    length := value.length % 2 ^ 32
    hash }
  let ids := (x'.buckets hash).elim [x'.entries.length % 2 ^ 32] (· ++ [x'.entries.length % 2 ^ 32])
  let x'' : StringInterner := { x' with
    pages
    entries := x'.entries ++ [entry]
    buckets := update x'.buckets hash (some ids) }
  have result : x'.insertAt hash value storage = some (x'.entries.length % 2 ^ 32, x'') := by
    unfold insertAt
    rw [List.getLast?_eq_getElem?, here]
    simp only [bind_eq_bind, bind_some]
    rw [written]
    simp only [bind_some]
    rw [List.getElem?_eq_getElem index]
    simp only [mod_eq_of_lt fits]
    unfold x'' ids
    cases x'.buckets hash <;> rfl
  refine ⟨x'', entry, by rw [← allocated.entries]; exact result, ?_, count, ?_, allocated.next, ?_, ?_, ?_⟩
  · exact congrArg (· ++ [entry]) allocated.entries
  · intro other mem
    rcases List.mem_or_eq_of_mem_set mem with mem | rfl
    · exact allocated.pages other mem
    · exact ⟨by rw [length_write written]; exact valid.block, room⟩
  · show update x'.buckets hash (some ids) = _
    unfold ids
    rw [allocated.buckets, allocated.entries]
    cases x.buckets hash <;> rfl
  · intro e s stored
    obtain ⟨before, isPage, stop, read⟩ := stored.placed
    obtain ⟨after, isPage', same, more, isLast⟩ := allocated.old e.page before isPage
    have inside' := (List.getElem?_eq_some_iff.mp isPage').1
    by_cases last : x'.pages.length - 1 = e.page
    · rw [← last, here] at isPage'
      cases isPage'
      refine ⟨⟨stored.length, page', by rw [← last]; exact at_, le_trans stop more, ?_⟩, .inr ⟨last.symm, ?_⟩⟩
      · rw [← read, ← same]
        apply read_before written
        unfold Entry.stop at stop
        omega
      · omega
    · have isPage'' : pages[e.page]? = some after := by rw [List.getElem?_set_ne last, isPage']
      exact ⟨⟨stored.length, after, isPage'', le_trans stop more, by rw [same]; exact read⟩, .inl (by omega)⟩
  · intro few
    have place : (pages.length - 1) % 2 ^ 32 = x'.pages.length - 1 := by
      rw [count]
      exact mod_eq_of_lt (by omega)
    have isLast : last = page' := by
      have getLast : pages[(pages.length - 1) % 2 ^ 32]? = some last := List.getElem?_eq_getElem index
      rw [place, at_] at getLast
      exact (some.inj getLast).symm
    have offset : entry.offset = storage := by
      show last.used - _ = _
      rw [isLast]
      show page.used - _ = _
      omega
    refine ⟨⟨length.symm, page', by rw [← at_, ← place], ?_, ?_⟩, place, offset⟩
    · show entry.offset + value.length % 2 ^ 32 + 1 ≤ page.used
      omega
    · have read : read data storage short.length = some short := read_part (read_written written)
      rw [length] at read
      rw [offset]
      exact read

theorem insertAt_spec (holds : Holds hashOf x table) (allocated : Allocated x x' storage (value.length + 1))
    (short : value.length < 2 ^ 32 - 1) (fresh : value ∉ table) :
    ∃ x'', x'.insertAt (hashOf value) value storage = some (table.length, x'') ∧
      x''.entries.length = table.length + 1 ∧
      (table.length + 1 < 2 ^ 32 - 1 → Holds hashOf x'' (table ++ [value])) := by
  have size := holds.size
  have few := holds.few
  have length : value.length % 2 ^ 32 = value.length := mod_eq_of_lt (by omega)
  have number : x.entries.length % 2 ^ 32 = table.length := by
    rw [size]
    exact mod_eq_of_lt (by omega)
  have pagesFew : x'.pages.length ≤ table.length + 1 := by
    have := allocated.length_le
    have := holds.pages_le
    omega
  obtain ⟨x'', entry, result, inserted⟩ :=
    insertAt_inserted (hashOf value) (by rw [length]; omega) (by rw [length]; exact allocated)
  obtain ⟨stored, last, offset⟩ := inserted.new (by omega)
  rw [length, take_length] at stored
  refine ⟨x'', by rw [result, number], by rw [inserted.entries, length_append, size]; rfl, ?_⟩
  intro still
  refine ⟨inserted.pages, ?_, ?_, ?_, ?_, ?_, ?_, by simpa using still, inserted.next⟩
  · rw [inserted.count, inserted.entries, length_append, length_singleton]
    omega
  · rw [inserted.entries, length_append, length_append, size]
    rfl
  · intro id e isEntry
    rw [inserted.entries] at isEntry
    rcases getElem?_concat_iff.mp isEntry with isEntry | ⟨isNew, rfl⟩
    · obtain ⟨s, isString, stored⟩ := holds.stored id e isEntry
      exact ⟨s, getElem?_concat_iff.mpr (.inl isString), (inserted.old e s stored).1⟩
    · exact ⟨value, getElem?_concat_iff.mpr (.inr ⟨by omega, rfl⟩), stored⟩
  · rw [inserted.entries, pairwise_append]
    refine ⟨holds.apart, pairwise_singleton _ _, ?_⟩
    intro e mem e' isNew
    obtain rfl := mem_singleton.mp isNew
    obtain ⟨id, isEntry⟩ := mem_iff_getElem?.mp mem
    obtain ⟨s, -, stored⟩ := holds.stored id e isEntry
    rw [last, offset]
    exact (inserted.old e s stored).2
  · intro h id
    rw [inserted.buckets, number]
    simp only [getElem?_concat_iff]
    by_cases same : h = hashOf value
    · subst same
      rw [update_self, getD_some, mem_append, mem_singleton, holds.buckets]
      constructor
      · rintro (⟨s, isString, sameHash⟩ | rfl)
        · exact ⟨s, .inl isString, sameHash⟩
        · exact ⟨value, .inr ⟨rfl, rfl⟩, rfl⟩
      · rintro ⟨s, isString | ⟨rfl, rfl⟩, sameHash⟩
        · exact .inl ⟨s, isString, sameHash⟩
        · exact .inr rfl
    · rw [update_of_ne same, holds.buckets]
      constructor
      · rintro ⟨s, isString, sameHash⟩
        exact ⟨s, .inl isString, sameHash⟩
      · rintro ⟨s, isString | ⟨rfl, rfl⟩, sameHash⟩
        · exact ⟨s, isString, sameHash⟩
        · exact absurd sameHash.symm same
  · apply holds.distinct.append (nodup_singleton _)
    simpa using fresh

theorem insertOrGet_spec (holds : Holds hashOf x table) (content : Nat → UInt8) (short : value.length < 2 ^ 32 - 1) :
    ∃ id x', x.insertOrGet hashOf (some content) value = some (id, x') ∧
      (x' = x ∧ table[id]? = some value ∨
        value ∉ table ∧ id = table.length ∧ x'.entries.length = table.length + 1 ∧
          (table.length + 1 < 2 ^ 32 - 1 → Holds hashOf x' (table ++ [value]))) := by
  obtain ⟨found, finds, isFound⟩ := findId_spec holds value
  unfold insertOrGet
  rw [finds]
  cases found with
  | some id => exact ⟨id, x, rfl, .inl ⟨rfl, (isFound id).mp rfl⟩⟩
  | none =>
    have fresh : value ∉ table := by
      intro mem
      obtain ⟨id, here⟩ := mem_iff_getElem?.mp mem
      cases (isFound id).mpr here
    have bytes : (value.length % 2 ^ 32 + 1) % 2 ^ 32 = value.length + 1 := by omega
    obtain ⟨x', storage, allocates, allocated⟩ :=
      allocateBytes_spec holds.pages content (succ_pos value.length) (by omega) holds.next
    obtain ⟨x'', inserted, size, after⟩ := insertAt_spec holds allocated short fresh
    refine ⟨table.length, x'', ?_, .inr ⟨fresh, rfl, size, after⟩⟩
    simp only [bytes]
    rw [allocates]
    exact inserted

end StringInterner

end NginBase.Utilities
