import NginBase.Net.MessageStream

namespace NginBase.Net.MessageStream

open Library.Interleaving Option Nat Reading Writing

@[simp] theorem length_encodeLength (length : Nat) : (encodeLength length).length = 4 := rfl

theorem octet_toNat (n : Nat) : (UInt8.ofNat (n &&& 0xFF)).toNat = n % 256 := by
  rw [show n &&& 0xFF = n % 2 ^ 8 from and_two_pow_sub_one_eq_mod n 8, UInt8.toNat_ofNat']
  omega

theorem decodeLength_eq (b0 b1 b2 b3 : UInt8) :
    decodeLength [b0, b1, b2, b3] = b0.toNat * 2 ^ 24 + b1.toNat * 2 ^ 16 + b2.toNat * 2 ^ 8 + b3.toNat := by
  have first : b0.toNat <<< 24 ||| b1.toNat <<< 16 = (b0.toNat <<< 8 + b1.toNat) <<< 16 := by
    rw [shiftLeft_add_eq_or_of_lt b1.toNat_lt, shiftLeft_or_distrib, ← shiftLeft_add]
  have second : (b0.toNat <<< 8 + b1.toNat) <<< 16 ||| b2.toNat <<< 8 = ((b0.toNat <<< 8 + b1.toNat) <<< 8 + b2.toNat) <<< 8 := by
    rw [shiftLeft_add_eq_or_of_lt b2.toNat_lt, shiftLeft_or_distrib, ← shiftLeft_add]
  show b0.toNat <<< 24 ||| b1.toNat <<< 16 ||| b2.toNat <<< 8 ||| b3.toNat = _
  rw [first, second, ← shiftLeft_add_eq_or_of_lt b3.toNat_lt]
  omega

theorem decodeLength_encodeLength {length : Nat} (small : length ≤ maxLength) : decodeLength (encodeLength length) = length := by
  unfold encodeLength
  simp only [decodeLength_eq, octet_toNat]
  simp only [maxLength] at small
  omega

theorem encodeLength_inj {m n : Nat} (small : m ≤ maxLength) (small' : n ≤ maxLength) (same : encodeLength m = encodeLength n) :
    m = n := by
  rw [← decodeLength_encodeLength small, same, decodeLength_encodeLength small']

namespace Writing

@[simp] theorem remaining_idle : idle.remaining = [] := rfl

variable (message : Bytes) (offset : Nat)

theorem remaining_payloadFrom : (payloadFrom message offset).remaining = message.drop offset := by
  unfold payloadFrom
  split
  · rfl
  · exact (List.drop_of_length_le (by omega)).symm

theorem remaining_headerFrom :
    (headerFrom message offset).remaining = (encodeLength message.length).drop offset ++ message := by
  unfold headerFrom
  split
  · rfl
  · rename_i past
    have written : (encodeLength message.length).drop offset = [] := List.drop_of_length_le (Nat.le_of_not_lt past)
    rw [remaining_payloadFrom, written, List.drop_zero, List.nil_append]

theorem remaining_wrote (w : Writing) {bytes : Nat} (inside : bytes ≤ w.source.length) :
    w.source.take bytes ++ (w.wrote bytes).remaining = w.remaining := by
  cases w with
  | idle => simp [source, wrote]
  | header message offset =>
    rw [wrote, remaining_headerFrom, source, remaining, ← List.append_assoc, ← List.drop_drop, List.take_append_drop]
  | payload message offset => rw [wrote, remaining_payloadFrom, source, remaining, ← List.drop_drop, List.take_append_drop]

def Fits : Writing → Prop
  | .idle => True
  | .header _ offset => offset < lengthBytes
  | .payload message offset => offset < message.length

def busy : Writing → Nat
  | .idle => 0
  | _ => 1

@[simp] theorem busy_idle : idle.busy = 0 := rfl

theorem busy_le (w : Writing) : w.busy ≤ 1 := by cases w <;> simp [busy]

theorem busy_of_ne {w : Writing} (going : w ≠ .idle) : w.busy = 1 := by
  cases w with
  | idle => contradiction
  | header | payload => rfl

theorem fits_payloadFrom : (payloadFrom message offset).Fits := by
  unfold payloadFrom
  split
  · assumption
  · trivial

theorem fits_headerFrom : (headerFrom message offset).Fits := by
  unfold headerFrom
  split
  · assumption
  · exact fits_payloadFrom message 0

theorem fits_wrote (w : Writing) (bytes : Nat) : (w.wrote bytes).Fits := by
  cases w with
  | idle => trivial
  | header message offset => exact fits_headerFrom message _
  | payload message offset => exact fits_payloadFrom message _

end Writing

namespace Reading

def bytes : Reading → Bytes
  | .idle => []
  | .header bytes => bytes
  | .payload size bytes => encodeLength size ++ bytes

def Fits : Reading → Prop
  | .idle => True
  | .header bytes => bytes.length < lengthBytes
  | .payload size bytes => bytes.length < size ∧ size ≤ maxLength

def busy : Reading → Nat
  | .idle => 0
  | _ => 1

theorem busy_le (r : Reading) : r.busy ≤ 1 := by cases r <;> simp [busy]

theorem busy_of_ne {r : Reading} (going : r ≠ .idle) : r.busy = 1 := by
  cases r with
  | idle => contradiction
  | header | payload => rfl

end Reading

namespace State

variable {s : State} {messages : List Bytes} {room : Bool → Nat → Prop}

section

variable (s) (w : Writing)

@[simp] theorem setWriting_writing : (s.setWriting w).writing = w := by cases w <;> rfl
@[simp] theorem setWriting_toWrite : (s.setWriting w).toWrite = s.toWrite := by cases w <;> rfl
@[simp] theorem setWriting_pipe : (s.setWriting w).pipe = s.pipe := by cases w <;> rfl
@[simp] theorem setWriting_ended : (s.setWriting w).ended = s.ended := by cases w <;> rfl
@[simp] theorem setWriting_lost : (s.setWriting w).lost = s.lost := by cases w <;> rfl
@[simp] theorem setWriting_buffer : (s.setWriting w).buffer = s.buffer := by cases w <;> rfl
@[simp] theorem setWriting_toRead : (s.setWriting w).toRead = s.toRead := by cases w <;> rfl
@[simp] theorem setWriting_reading : (s.setWriting w).reading = s.reading := by cases w <;> rfl
@[simp] theorem setWriting_reads : (s.setWriting w).reads = s.reads := by cases w <;> rfl

end

def coming (s : State) : Bytes := if s.ended then s.lost else s.pending

theorem coming_of_ended (ended : s.ended = true) : s.coming = s.lost := if_pos ended

theorem coming_of_open (open_ : s.ended = false) : s.coming = s.pending := if_neg (by simp [open_])

/-- Either the reading side goes through the messages in order, or the end of the stream has been seen. -/
inductive Progress (s : State) (messages : List Bytes) : Prop
  | reading (count : Nat) (inside : count ≤ messages.length) (reads : s.reads = (messages.take count).map .ok)
      (stream : s.reading.bytes ++ s.pipe ++ s.coming = (messages.drop count).flatMap frame) : Progress s messages
  | cut (count failures : Nat) (inside : count ≤ messages.length)
      (reads : s.reads = (messages.take count).map .ok ++ List.replicate (failures + 1) (.error (.net .disconnected)))
      (ended : s.ended = true) (empty : s.pipe = []) (nothing : s.reading.bytes = [])
      (all : s.lost = [] → messages.length ≤ count) : Progress s messages

/-- The buffer meets the condition `room` on its data and its capacity. -/
structure Inv (s : State) (room : Bool → Nat → Prop) (messages : List Bytes) (calls : Nat) : Prop where
  small : ∀ message ∈ s.toWrite, message.length ≤ maxLength
  buffer : room s.buffer.data s.buffer.capacity
  handing : s.writing.Fits
  fits : s.reading.Fits
  counted : s.toRead + s.reads.length + (if s.reading = .idle then 0 else 1) = calls
  progress : s.Progress messages

theorem Progress.keep {s' : State} (progress : s.Progress messages) (reads : s'.reads = s.reads)
    (reading : s'.reading.bytes = s.reading.bytes) (same : s'.pipe ++ s'.coming = s.pipe ++ s.coming)
    (after : s.ended = true → s'.ended = true ∧ s'.pipe = s.pipe ∧ s'.lost = s.lost) : s'.Progress messages := by
  cases progress with
  | reading count inside before stream =>
    apply Progress.reading count inside (reads.trans before)
    rw [reading, List.append_assoc, same, ← List.append_assoc]
    exact stream
  | cut count failures inside before ended empty nothing all =>
    obtain ⟨ended', pipe, lost⟩ := after ended
    apply Progress.cut count failures inside (reads.trans before) ended' (pipe.trans empty)
    · rw [reading]
      exact nothing
    · intro none_
      exact all (lost.symm.trans none_)

theorem Inv.keep {s' : State} {calls : Nat} (inv : s.Inv room messages calls) (toWrite : ∀ message ∈ s'.toWrite, message ∈ s.toWrite)
    (handing : s'.writing.Fits) (buffer : s'.buffer = s.buffer) (toRead : s'.toRead = s.toRead) (reads : s'.reads = s.reads) (reading : s'.reading = s.reading)
    (same : s'.pipe ++ s'.coming = s.pipe ++ s.coming)
    (after : s.ended = true → s'.ended = true ∧ s'.pipe = s.pipe ∧ s'.lost = s.lost) : s'.Inv room messages calls where
  small message mem := inv.small message (toWrite message mem)
  buffer := by
    rw [buffer]
    exact inv.buffer
  handing := handing
  fits := by
    rw [reading]
    exact inv.fits
  counted := by
    rw [toRead, reads, reading]
    exact inv.counted
  progress := inv.progress.keep reads (congrArg bytes reading) same after

section

variable {calls : Nat} {s' : State}

section

variable (inv : s.Inv room messages calls)

include inv

theorem Inv.callWrite (acted : s.act .callWrite = some s') : s'.Inv room messages calls := by
  simp only [act] at acted
  split at acted
  case h_1 message rest idle next =>
    have modest : ¬ maxLength < message.length := not_lt.mpr (inv.small message (next ▸ List.mem_cons_self))
    obtain rfl := some.inj acted
    rw [if_neg modest]
    apply inv.keep
    · intro other mem
      rw [next]
      exact List.mem_cons_of_mem _ mem
    · exact fits_headerFrom message 0
    · simp
    · simp
    · simp
    · simp
    · have whole : (headerFrom message 0).remaining = frame message := remaining_headerFrom message 0
      have nothing : s.writing.remaining = [] := by
        rw [idle]
        rfl
      simp [coming, pending, nothing, next, whole]
    · simp
  case h_2 => contradiction

theorem Inv.write {bytes : Nat} (acted : s.act (.write bytes) = some s') : s'.Inv room messages calls := by
  simp only [act] at acted
  split at acted
  case isTrue inside =>
    have handed := s.writing.remaining_wrote inside.2
    obtain rfl := some.inj acted
    apply inv.keep
    · simp
    · rw [setWriting_writing]
      exact s.writing.fits_wrote bytes
    · simp
    · simp
    · simp
    · simp
    · cases ended : s.ended with
      | true => simp [coming, ended]
      | false => simp [coming, ended, pending, ← handed]
    · intro ended
      simp [ended]
  case isFalse => contradiction

theorem Inv.writeNothing (acted : s.act .writeNothing = some s') : s'.Inv room messages calls := by
  simp only [act] at acted
  split at acted
  case isTrue refused =>
    obtain rfl := some.inj acted
    apply inv.keep
    · exact fun _ mem => mem
    · trivial
    · rfl
    · rfl
    · rfl
    · rfl
    · simp [coming, endWrite, refused.1]
    · exact fun ended => ⟨ended, rfl, rfl⟩
  case isFalse => contradiction

theorem Inv.stop {kept : Nat} (acted : s.act (.stop kept) = some s') : s'.Inv room messages calls := by
  simp only [act] at acted
  split at acted
  case isTrue => contradiction
  case isFalse open_ =>
    obtain rfl := some.inj acted
    apply inv.keep
    · exact fun _ mem => mem
    · exact inv.handing
    · rfl
    · rfl
    · rfl
    · rfl
    · simp only [coming, if_true, if_neg open_, ← List.append_assoc, List.take_append_drop]
    · exact fun ended => absurd ended open_

end

end

section

variable {calls : Nat} {s' : State}

section

variable (small : ∀ message ∈ messages, message.length ≤ maxLength)

include small

theorem next_message {count : Nat} {header rest : Bytes} (four : header.length = 4)
    (stream : header ++ rest = (messages.drop count).flatMap frame) :
    ∃ message, messages[count]? = some message ∧ header = encodeLength message.length ∧ message.length ≤ maxLength ∧
      rest = message ++ (messages.drop (count + 1)).flatMap frame := by
  cases next : messages[count]? with
  | none =>
    rw [List.drop_of_length_le (List.getElem?_eq_none_iff.mp next)] at stream
    have empty : header ++ rest = [] := stream
    rw [(List.append_eq_nil_iff.mp empty).1] at four
    contradiction
  | some message =>
    obtain ⟨inside, found⟩ := List.getElem?_eq_some_iff.mp next
    rw [List.drop_eq_getElem_cons inside, found, List.flatMap_cons, frame, List.append_assoc] at stream
    obtain ⟨first, last⟩ := List.append_inj stream four
    exact ⟨message, rfl, first, small message (List.mem_of_getElem? next), last⟩

theorem incomplete {reading : Reading} (fits : reading.Fits) {count : Nat}
    (stream : reading.bytes = (messages.drop count).flatMap frame) : messages.length ≤ count := by
  by_contra more
  have long : 4 ≤ reading.bytes.length := by
    rw [stream, List.drop_eq_getElem_cons (not_le.mp more), List.flatMap_cons, frame, List.length_append, List.length_append,
      length_encodeLength]
    omega
  cases reading with
  | idle => exact absurd long (by decide)
  | header bytes => exact absurd long (not_le.mpr fits)
  | payload size bytes =>
    obtain ⟨message, _, header, modest, rest⟩ := next_message small rfl stream
    have same := encodeLength_inj fits.2 modest header
    have short := fits.1
    rw [rest, List.length_append] at short
    omega

end

theorem take_snoc {count : Nat} {message : Bytes} (next : messages[count]? = some message) :
    (messages.take count).map Except.ok ++ [Except.ok message] = (messages.take (count + 1)).map (Except.ok (ε := Failure)) := by
  rw [List.take_add_one, next, List.map_append]
  rfl

/-- A call of the reading side is going on and has returned nothing yet. -/
structure Busy (s : State) (room : Bool → Nat → Prop) (messages : List Bytes) (calls count : Nat) : Prop where
  small : ∀ message ∈ s.toWrite, message.length ≤ maxLength
  buffer : room s.buffer.data s.buffer.capacity
  handing : s.writing.Fits
  counted : s.toRead + s.reads.length + 1 = calls
  inside : count ≤ messages.length
  reads : s.reads = (messages.take count).map .ok

section

variable {count : Nat} (busy : s.Busy room messages calls count)

include busy

theorem Busy.return_ {message : Bytes} (next : messages[count]? = some message)
    (stream : s.pipe ++ s.coming = (messages.drop (count + 1)).flatMap frame) (size : Nat) :
    ({ s with buffer.size := size }.endRead (.ok message)).Inv room messages calls where
  small := busy.small
  buffer := busy.buffer
  handing := busy.handing
  fits := trivial
  counted := by
    have counted := busy.counted
    simp only [endRead, List.length_append, if_true]
    omega
  progress := by
    apply Progress.reading (count + 1) (List.getElem?_eq_some_iff.mp next).1
    · simp only [busy.reads]
      exact take_snoc next
    · exact stream

theorem Busy.goOn (reading : Reading) (fits : reading.Fits) (still : reading ≠ .idle)
    (stream : reading.bytes ++ s.pipe ++ s.coming = (messages.drop count).flatMap frame) :
    ({ s with reading := reading } : State).Inv room messages calls where
  small := busy.small
  buffer := busy.buffer
  handing := busy.handing
  fits := fits
  counted := by
    simp only [if_neg still]
    exact busy.counted
  progress := .reading count busy.inside busy.reads stream

theorem Busy.payloadRead {bytes message : Bytes} (next : messages[count]? = some message)
    (modest : message.length ≤ maxLength) (inside : bytes.length ≤ message.length)
    (stream : bytes ++ s.pipe ++ s.coming = message ++ (messages.drop (count + 1)).flatMap frame) :
    (s.payloadRead message.length bytes).Inv room messages calls := by
  unfold State.payloadRead
  split
  case isTrue more =>
    apply busy.goOn (.payload message.length bytes) ⟨more, modest⟩ nofun
    obtain ⟨low, found⟩ := List.getElem?_eq_some_iff.mp next
    rw [Reading.bytes, List.append_assoc, List.append_assoc, ← List.append_assoc bytes, stream, List.drop_eq_getElem_cons low, found,
      List.flatMap_cons, frame, List.append_assoc]
  case isFalse whole =>
    rw [List.append_assoc] at stream
    obtain ⟨rfl, rest⟩ := List.append_inj stream (le_antisymm inside (not_lt.mp whole))
    exact busy.return_ next rest _

end

/-- There is room for the message of which this is the header. -/
def Takes (s : State) (messages : List Bytes) (header : Bytes) : Prop :=
  ∀ message ∈ messages, header = encodeLength message.length → message.length = 0 ∨
    s.buffer.data = true ∧ message.length ≤ s.buffer.capacity

theorem Busy.headerRead {count : Nat} (busy : s.Busy room messages calls count) (small : ∀ message ∈ messages, message.length ≤ maxLength)
    {bytes : Bytes} (takes : s.Takes messages bytes) (fits : bytes.length ≤ lengthBytes) (stream : bytes ++ s.pipe ++ s.coming = (messages.drop count).flatMap frame) :
    (s.headerRead bytes).Inv room messages calls := by
  unfold State.headerRead
  split
  case isTrue more => exact busy.goOn (.header bytes) more nofun stream
  case isFalse whole =>
    rw [List.append_assoc] at stream
    obtain ⟨message, next, rfl, modest, rest⟩ := next_message small (le_antisymm fits (not_lt.mp whole)) stream
    simp only [decodeLength_encodeLength modest]
    split
    case isTrue empty =>
      obtain rfl := List.eq_nil_of_length_eq_zero empty
      exact busy.return_ next rest 0
    case isFalse some_ =>
      have large : (!s.buffer.data || decide (s.buffer.capacity < message.length)) = false := by
        obtain ⟨present, large⟩ := (takes message (List.mem_of_getElem? next) rfl).resolve_left some_
        simp [present, large]
      rw [large]
      exact busy.payloadRead next modest (zero_le _) rest

section

variable (inv : s.Inv room messages calls)

include inv

theorem Inv.busy (more : s.pipe ≠ []) (going : s.reading ≠ .idle) (pipe : Bytes) :
    ∃ count, ({ s with pipe := pipe } : State).Busy room messages calls count ∧
      s.reading.bytes ++ s.pipe ++ s.coming = (messages.drop count).flatMap frame := by
  have counted := inv.counted
  rw [if_neg going] at counted
  cases inv.progress with
  | reading count inside reads stream => exact ⟨count, ⟨inv.small, inv.buffer, inv.handing, counted, inside, reads⟩, stream⟩
  | cut _ _ _ _ _ empty => exact absurd empty more

theorem Inv.read (small : ∀ message ∈ messages, message.length ≤ maxLength) {bytes : Nat}
    (takes : ∀ read, s.reading = .header read → s.Takes messages (read ++ s.pipe.take bytes))
    (acted : s.act (.read bytes) = some s') : s'.Inv room messages calls := by
  simp only [act] at acted
  split at acted
  case isFalse => contradiction
  case isTrue inside =>
    obtain ⟨positive, there, wanted⟩ := inside
    have more : s.pipe ≠ [] := by
      intro empty
      rw [empty] at there
      exact absurd there (not_le.mpr positive)
    have moved : (s.pipe.take bytes).length = bytes := List.length_take_of_le there
    cases reading : s.reading with
    | idle => simp [reading] at acted
    | header read =>
      obtain ⟨count, busy, stream⟩ := inv.busy more (by rw [reading]; nofun) (s.pipe.drop bytes)
      have fits := inv.fits
      simp only [reading, some.injEq] at acted
      rw [reading] at stream fits
      rw [State.wanted, reading] at wanted
      rw [← acted]
      apply busy.headerRead small (takes read reading)
      · rw [List.length_append]
        simp only [] at wanted
        omega
      · rw [List.append_assoc read, List.take_append_drop]
        exact stream
    | payload size read =>
      obtain ⟨count, busy, stream⟩ := inv.busy more (by rw [reading]; nofun) (s.pipe.drop bytes)
      obtain ⟨short, modest⟩ : read.length < size ∧ size ≤ maxLength := by
        have fits := inv.fits
        rwa [reading] at fits
      simp only [reading, some.injEq] at acted
      rw [reading, Reading.bytes, List.append_assoc, List.append_assoc] at stream
      rw [State.wanted, reading] at wanted
      obtain ⟨message, next, header, fits, rest⟩ := next_message small rfl stream
      obtain rfl := encodeLength_inj modest fits header
      rw [← acted]
      apply busy.payloadRead next fits
      · rw [List.length_append]
        simp only [] at wanted
        omega
      · rw [List.append_assoc read, List.take_append_drop, List.append_assoc]
        exact rest

theorem Inv.callRead (acted : s.act .callRead = some s') : s'.Inv room messages calls := by
  simp only [act] at acted
  split at acted
  case h_1 left idle next =>
    obtain rfl := some.inj acted
    have counted := inv.counted
    rw [idle, if_pos rfl] at counted
    constructor
    · exact inv.small
    · exact inv.buffer
    · exact inv.handing
    · exact (by decide : ([] : Bytes).length < lengthBytes)
    · show left + s.reads.length + 1 = calls
      omega
    · apply inv.progress.keep
      · rfl
      · rw [idle]
        rfl
      · rfl
      · exact fun ended => ⟨ended, rfl, rfl⟩
  case h_2 => contradiction

section

variable (small : ∀ message ∈ messages, message.length ≤ maxLength)

include small

theorem Inv.readNothing (acted : s.act .readNothing = some s') : s'.Inv room messages calls := by
  simp only [act] at acted
  split at acted
  case isFalse => contradiction
  case isTrue over_ =>
    obtain ⟨ended, empty, going⟩ := over_
    obtain rfl := some.inj acted
    have counted := inv.counted
    rw [if_neg going] at counted
    constructor
    · exact inv.small
    · exact inv.buffer
    · exact inv.handing
    · exact trivial
    · simp only [endRead, List.length_append, if_true]
      omega
    · cases inv.progress with
      | reading count inside reads stream =>
        apply Progress.cut count 0 inside
        · simp only [endRead, reads]
          rfl
        · exact ended
        · exact empty
        · rfl
        · intro none_
          have cut : s.lost = [] := none_
          rw [empty, coming_of_ended ended, cut, List.append_nil, List.append_nil] at stream
          exact incomplete small inv.fits stream
      | cut count failures inside reads ended empty _ all =>
        apply Progress.cut count (failures + 1) inside
        · simp only [endRead, reads, List.append_assoc]
          rw [List.replicate_succ' (n := failures + 1)]
        · exact ended
        · exact empty
        · rfl
        · exact all

theorem Inv.act {action : Action}
    (takes : ∀ bytes read, action = .read bytes → s.reading = .header read → s.Takes messages (read ++ s.pipe.take bytes))
    (acted : s.act action = some s') : s'.Inv room messages calls := by
  cases action with
  | callWrite => exact inv.callWrite acted
  | write bytes => exact inv.write acted
  | writeNothing => exact inv.writeNothing acted
  | callRead => exact inv.callRead acted
  | read bytes => exact inv.read small (fun read => takes bytes read rfl) acted
  | readNothing => exact inv.readNothing small acted
  | stop kept => exact inv.stop acted

end

end

end

section

variable {calls : Nat}

theorem Halted.read (halted : s.Halted) (fits : s.reading.Fits) :
    s.reading = .idle ∧ s.toRead = 0 ∨ s.reading ≠ .idle ∧ s.ended = false ∧ s.pipe = [] := by
  by_cases idle : s.reading = .idle
  · apply Or.inl
    apply And.intro idle
    cases left : s.toRead with
    | zero => rfl
    | succ calls =>
      have called := halted .callRead nofun
      simp [act, idle, left] at called
  · apply Or.inr
    have empty : s.pipe = [] := by
      by_contra more
      have there : 1 ≤ s.pipe.length := List.length_pos_iff.mpr more
      have wanted : 1 ≤ s.wanted := by
        unfold wanted
        cases reading : s.reading with
        | idle => exact absurd reading idle
        | header bytes =>
          rw [reading] at fits
          exact Nat.sub_pos_of_lt fits
        | payload size bytes =>
          rw [reading] at fits
          exact Nat.sub_pos_of_lt fits.1
      have read := halted (.read 1) nofun
      simp only [act, there, wanted] at read
      cases reading : s.reading with
      | idle => exact absurd reading idle
      | header bytes => simp [reading] at read
      | payload size bytes => simp [reading] at read
    have open_ : s.ended = false := by
      by_contra ended
      have answered := halted .readNothing nofun
      simp [act, idle, empty, ended] at answered
    exact ⟨idle, open_, empty⟩

theorem Halted.write (halted : s.Halted) (fits : s.writing.Fits) : s.pending = [] := by
  have idle : s.writing = .idle := by
    by_contra going
    have source : 1 ≤ s.writing.source.length := by
      cases writing : s.writing with
      | idle => exact absurd writing going
      | header message offset =>
        rw [writing] at fits
        rw [source, List.length_drop]
        exact Nat.sub_pos_of_lt fits
      | payload message offset =>
        rw [writing] at fits
        rw [source, List.length_drop]
        exact Nat.sub_pos_of_lt fits
    have written := halted (.write 1) nofun
    simp [act, source] at written
  cases next : s.toWrite with
  | nil => simp [pending, idle, next]
  | cons message rest =>
    have called := halted .callWrite nofun
    simp [act, idle, next] at called

theorem Inv.delivered (inv : s.Inv room messages calls) (small : ∀ message ∈ messages, message.length ≤ maxLength) :
    s.Delivered messages calls where
  shape := by
    cases inv.progress with
    | reading count inside reads stream => exact ⟨count, 0, by simpa using reads, nofun⟩
    | cut count failures inside reads ended => exact ⟨count, failures + 1, reads, fun _ => ended⟩
  whole halted kept := by
    have counted := inv.counted
    cases inv.progress with
    | reading count inside reads stream =>
      exists 0
      apply And.intro _ nofun
      rw [List.replicate_zero, List.append_nil, reads]
      rw [reads, List.length_map, List.length_take_of_le inside] at counted
      rcases halted.read inv.fits with ⟨idle, none_⟩ | ⟨going, open_, empty⟩
      · rw [if_pos idle] at counted
        rw [show count = calls by omega]
      rw [empty, coming_of_open open_, halted.write inv.handing, List.append_nil, List.append_nil] at stream
      have whole := incomplete small inv.fits stream
      rw [List.take_of_length_le whole, List.take_of_length_le (by omega)]
    | cut count failures inside reads ended _ _ all =>
      have whole := all kept
      rw [reads, List.length_append, List.length_map, List.length_take_of_le inside] at counted
      refine ⟨failures + 1, ?_, fun _ => ended⟩
      rw [reads, List.take_of_length_le whole, List.take_of_length_le (by omega)]
  answered halted ended := by
    have counted := inv.counted
    rcases halted.read inv.fits with ⟨idle, none_⟩ | ⟨_, open_, _⟩
    · rw [if_pos idle] at counted
      omega
    rw [ended] at open_
    contradiction

end

def burden (s : State) : Nat :=
  2 * s.pending.length + 2 * s.toWrite.length + s.writing.busy + s.pipe.length + 2 * s.toRead + (if s.ended then 0 else 1)

def effort (s : State) : Nat := s.burden + s.reading.busy

theorem burden_payloadRead (s : State) (size : Nat) (bytes : Bytes) : (s.payloadRead size bytes).burden = s.burden := by
  unfold payloadRead
  split <;> rfl

theorem burden_headerRead (s : State) (bytes : Bytes) : (s.headerRead bytes).burden = s.burden := by
  unfold headerRead
  split
  · rfl
  simp only
  split
  · rfl
  · split
    · rfl
    · exact burden_payloadRead s _ _

theorem effort_callWrite {s' : State} (acted : s.act .callWrite = some s') : s'.effort < s.effort := by
  simp only [act] at acted
  split at acted
  case h_1 message rest idle next =>
    obtain rfl := some.inj acted
    have before : s.pending = frame message ++ rest.flatMap frame := by
      rw [pending, idle, next]
      rfl
    rw [effort, effort, burden, burden, before, next]
    by_cases long : maxLength < message.length
    · simp only [if_pos long, endWrite, pending, Writing.remaining, Writing.busy, List.nil_append, List.length_append, List.length_cons]
      omega
    have whole : (Writing.headerFrom message 0).remaining = frame message := Writing.remaining_headerFrom message 0
    have busy := (Writing.headerFrom message 0).busy_le
    simp only [if_neg long, pending, setWriting_writing, setWriting_toWrite, setWriting_pipe, setWriting_toRead,
      setWriting_reading, setWriting_ended, whole, List.length_append, List.length_cons]
    omega
  case h_2 => contradiction

theorem effort_write {bytes : Nat} {s' : State} (acted : s.act (.write bytes) = some s') : s'.effort < s.effort := by
  simp only [act] at acted
  split at acted
  case isTrue inside =>
    have handed := congrArg List.length (s.writing.remaining_wrote inside.2)
    have moved := List.length_take_of_le inside.2
    have busy := (s.writing.wrote bytes).busy_le
    have going : s.writing.busy = 1 := by
      cases writing : s.writing with
      | idle =>
        rw [writing] at inside
        exact absurd (lt_of_lt_of_le inside.1 inside.2) (not_lt_zero 0)
      | header | payload => rfl
    rw [List.length_append] at handed
    obtain rfl := some.inj acted
    rw [effort, effort, burden, burden]
    cases ended : s.ended with
    | true =>
      simp only [pending, setWriting_writing, setWriting_toWrite, setWriting_pipe, setWriting_toRead, setWriting_reading,
        setWriting_ended, if_true, List.length_append]
      omega
    | false =>
      simp only [pending, setWriting_writing, setWriting_toWrite, setWriting_pipe, setWriting_toRead, setWriting_reading,
        setWriting_ended, Bool.false_eq_true, if_false, List.length_append, moved]
      omega
  case isFalse => contradiction

theorem effort_read {bytes : Nat} {s' : State} (acted : s.act (.read bytes) = some s') : s'.effort < s.effort := by
  simp only [act] at acted
  split at acted
  case isTrue inside =>
    have lighter (reading : Reading) : ({ s with pipe := s.pipe.drop bytes, reading := reading } : State).burden < s.burden := by
      simp only [burden, pending, List.length_drop]
      omega
    have busy := s'.reading.busy_le
    cases reading : s.reading with
    | idle => simp [reading] at acted
    | header read =>
      have going : s.reading.busy = 1 := busy_of_ne (by rw [reading]; nofun)
      simp only [reading, some.injEq] at acted
      have same := congrArg burden acted
      rw [burden_headerRead] at same
      have less := lighter (.header read)
      rw [effort, effort]
      omega
    | payload size read =>
      have going : s.reading.busy = 1 := busy_of_ne (by rw [reading]; nofun)
      simp only [reading, some.injEq] at acted
      have same := congrArg burden acted
      rw [burden_payloadRead] at same
      have less := lighter (.payload size read)
      rw [effort, effort]
      omega
  case isFalse => contradiction

theorem effort_decreases {action : Action} {s' : State} (acted : s.act action = some s') : s'.effort < s.effort := by
  cases action with
  | callWrite => exact effort_callWrite acted
  | write bytes => exact effort_write acted
  | writeNothing =>
    simp only [act] at acted
    split at acted
    case isTrue refused =>
      obtain rfl := some.inj acted
      have busy := Writing.busy_of_ne refused.2
      rw [effort, effort, burden, burden]
      simp only [pending, endWrite, refused.1, Writing.busy_idle, Writing.remaining_idle, List.length_append, List.length_nil]
      omega
    case isFalse => contradiction
  | callRead =>
    simp only [act] at acted
    split at acted
    case h_1 left idle next =>
      obtain rfl := some.inj acted
      have busy := (({ s with toRead := left } : State).headerRead []).reading.busy_le
      rw [effort, burden_headerRead]
      simp only [effort, burden, pending]
      omega
    case h_2 => contradiction
  | read bytes => exact effort_read acted
  | readNothing =>
    simp only [act] at acted
    split at acted
    case isTrue over_ =>
      obtain rfl := some.inj acted
      have busy := busy_of_ne over_.2.2
      rw [effort, effort, busy]
      exact lt_succ_self _
    case isFalse => contradiction
  | stop kept =>
    simp only [act] at acted
    split at acted
    case isTrue => contradiction
    case isFalse open_ =>
      obtain rfl := some.inj acted
      simp only [effort, burden, pending, if_neg open_, if_true, List.length_take]
      omega

theorem start_inv {buffer : Buffer} {calls : Nat} (small : ∀ message ∈ messages, message.length ≤ maxLength)
    (given : room buffer.data buffer.capacity) : (start messages buffer calls).Inv room messages calls where
  small := small
  buffer := given
  handing := trivial
  fits := trivial
  counted := rfl
  progress := .reading 0 (zero_le _) rfl rfl

/-- However the bytes are split up, the messages arrive in order and whole, and a run comes to its end. -/
theorem messages_delivered {messages : List Bytes} {buffer : Buffer} {calls : Nat} {actions : List Action} {s : State}
    (small : ∀ message ∈ messages, message.length ≤ maxLength) (present : buffer.data = true)
    (large : ∀ message ∈ messages, message.length ≤ buffer.capacity) (ran : run act (start messages buffer calls) actions = some s) :
    s.Delivered messages calls ∧ actions.length ≤ 2 * (messages.flatMap frame).length + 2 * messages.length + 2 * calls + 1 := by
  constructor
  · have inv : s.Inv (fun data capacity => data = true ∧ ∀ message ∈ messages, message.length ≤ capacity) messages calls := by
      apply invariant _ ran (start_inv small ⟨present, large⟩)
      intro s action s' inv acted
      exact inv.act small (fun _ _ _ _ message mem _ => .inr (inv.buffer.imp_right fun large => large message mem)) acted
    exact inv.delivered small
  · have spent := bounded (fun s action s' => effort_decreases) ran
    have first : (start messages buffer calls).effort = 2 * (messages.flatMap frame).length + 2 * messages.length + 2 * calls + 1 := by
      rfl
    omega

def pieces : List Action :=
  [.callWrite, .write 3, .callRead, .read 1, .read 2, .write 1, .read 1, .write 2, .read 1, .read 1, .callWrite, .write 4, .callRead,
    .read 4, .callRead, .stop 0, .readNothing]

theorem messages_delivered_pieces : ∃ s, run act (start [[1, 2], []] { data := true, capacity := 2 } 3) pieces = some s ∧
    s.Delivered [[1, 2], []] 3 ∧ s.reads = [.ok [1, 2], .ok [], .error (.net .disconnected)] := by
  have seen : (run act (start [[1, 2], []] { data := true, capacity := 2 } 3) pieces).any
      (fun s => s.reads = [.ok [1, 2], .ok [], .error (.net .disconnected)]) = true := by decide +kernel
  cases ran : run act (start [[1, 2], []] { data := true, capacity := 2 } 3) pieces with
  | none => simp [ran] at seen
  | some s =>
    rw [ran] at seen
    have delivered := (messages_delivered (by decide) rfl (by decide) ran).1
    exact ⟨s, rfl, delivered, by simpa using seen⟩

/-- The stream goes on, or the caller takes another buffer for its next call. -/
def step (s : State) : Action ⊕ Buffer → Option State
  | .inl action => s.act action
  | .inr buffer => if s.reading = .idle then some { s with buffer := buffer } else none

/-- The size of the message whose header a step completes. -/
def announced (s : State) : Action ⊕ Buffer → Nat
  | .inl (.read bytes) =>
    match s.reading with
    | .header read => decodeLength (read ++ s.pipe.take bytes)
    | _ => 0
  | _ => 0

def HasRoom (s : State) (action : Action ⊕ Buffer) : Prop :=
  s.announced action = 0 ∨ s.buffer.data = true ∧ s.announced action ≤ s.buffer.capacity

instance (s : State) (action : Action ⊕ Buffer) : Decidable (s.HasRoom action) := inferInstanceAs (Decidable (_ ∨ _))

/-- The reads that return a message return the messages in order. -/
def InOrder (s : State) (messages : List Bytes) : Prop := s.reads.filterMap Except.toOption <+: messages

theorem Inv.inOrder {calls : Nat} (inv : s.Inv room messages calls) : s.InOrder messages := by
  have returned (count : Nat) : ((messages.take count).map (Except.ok (ε := Failure))).filterMap Except.toOption = messages.take count := by
    simp only [List.filterMap_map, Function.comp_def, Except.toOption, List.filterMap_some]
  unfold InOrder
  cases inv.progress with
  | reading count _ reads _ =>
    rw [reads, returned]
    exact List.take_prefix _ _
  | cut count failures _ reads _ _ _ _ =>
    have failed : (List.replicate (failures + 1) (Except.error (.net .disconnected) : Except Failure Bytes)).filterMap Except.toOption = [] := by
      simp [Except.toOption]
    rw [reads, List.filterMap_append, returned, failed, List.append_nil]
    exact List.take_prefix _ _

theorem Inv.step {calls : Nat} {s' : State} {action : Action ⊕ Buffer} (inv : s.Inv (fun _ _ => True) messages calls)
    (small : ∀ message ∈ messages, message.length ≤ maxLength) (room : s.HasRoom action) (acted : s.step action = some s') :
    s'.Inv (fun _ _ => True) messages calls := by
  cases action with
  | inl action =>
    apply inv.act small _ acted
    rintro bytes read rfl reading message mem header
    simpa only [HasRoom, announced, reading, header, decodeLength_encodeLength (small message mem)] using room
  | inr buffer =>
    simp only [State.step, ite_none_right_eq_some, some.injEq] at acted
    obtain ⟨_, rfl⟩ := acted
    exact ⟨inv.small, trivial, inv.handing, inv.fits, inv.counted, inv.progress.keep rfl rfl rfl fun ended => ⟨ended, rfl, rfl⟩⟩

/-- Whatever buffers the calls are given, the messages are read in order as long as each fits into its buffer. -/
theorem reads_in_order {messages : List Bytes} {buffer : Buffer} {calls : Nat} {actions : List (Action ⊕ Buffer)} {s : State}
    (small : ∀ message ∈ messages, message.length ≤ maxLength) (room : Along step HasRoom (start messages buffer calls) actions)
    (ran : run step (start messages buffer calls) actions = some s) : s.InOrder messages := by
  have first : (start messages buffer calls).Inv (fun _ _ => True) messages calls := start_inv small trivial
  exact (keeps (fun s action s' inv room acted => Inv.step inv small room acted) room ran first).inOrder

def replaced : List (Action ⊕ Buffer) :=
  [.inl .callWrite, .inl (.write 4), .inl (.write 1), .inl .callRead, .inl (.read 4), .inl (.read 1), .inr ⟨true, 0, 2⟩, .inl .callWrite,
    .inl (.write 4), .inl (.write 2), .inl .callRead, .inl (.read 4), .inl (.read 2)]

theorem reads_in_order_replaced : ∃ s, run step (start [[7], [8, 9]] ⟨true, 0, 1⟩ 2) replaced = some s ∧ s.InOrder [[7], [8, 9]] ∧
    s.reads = [.ok [7], .ok [8, 9]] :=
  ⟨_, rfl, reads_in_order (by decide) (by decide : Along step HasRoom (start [[7], [8, 9]] ⟨true, 0, 1⟩ 2) replaced) rfl, rfl⟩

/-- The first call refuses a message of five bytes; the second one takes four of them for a header. -/
def refused : List (Action ⊕ Buffer) :=
  [.inl .callWrite, .inl (.write 4), .inl (.write 5), .inl .callRead, .inl (.read 4), .inl .callRead, .inl (.read 4), .inl (.read 1)]

theorem reads_out_of_order : ¬∀ messages buffer calls actions s, (∀ message ∈ messages, message.length ≤ maxLength) →
    run step (start messages buffer calls) actions = some s → s.InOrder messages := by
  intro ordered
  have first : State.InOrder _ [[0, 0, 0, 1, 7]] := ordered [[0, 0, 0, 1, 7]] ⟨true, 0, 2⟩ 2 refused _ (by decide) rfl
  have second : ([[7]] : List Bytes) <+: [[0, 0, 0, 1, 7]] := first
  exact absurd second (by decide)

end State

end NginBase.Net.MessageStream
