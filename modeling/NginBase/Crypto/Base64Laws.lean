import NginBase.Crypto.Base64

namespace NginBase.Crypto.Base64

open Library List Nat Sink

theorem decodeValue_letter {q : UInt8} (small : q.toNat < 64) : decodeValue (letter q) = q.toNat := by
  have all : ∀ n : Fin 64, decodeValue (letter (.ofNat n.val)) = (n.val : Int) := by decide
  have value := all ⟨q.toNat, small⟩
  rwa [UInt8.ofNat_toNat] at value

theorem letter_ne_pad {q : UInt8} (small : q.toNat < 64) : letter q ≠ 0x3D := by
  intro pad
  have value := decodeValue_letter small
  rw [pad] at value
  have negative : decodeValue 0x3D = -1 := by decide
  omega

theorem letter_decodeValue {c : UInt8} (valid : ¬ decodeValue c < 0) :
    (UInt8.ofNat (decodeValue c).toNat).toNat < 64 ∧ letter (.ofNat (decodeValue c).toNat) = c := by
  have all : ∀ n : Fin 256, ¬ decodeValue (.ofNat n.val) < 0 →
      (UInt8.ofNat (decodeValue (.ofNat n.val)).toNat).toNat < 64 ∧
        letter (.ofNat (decodeValue (.ofNat n.val)).toNat) = .ofNat n.val := by decide +kernel
  have value := all ⟨c.toNat, c.toNat_lt⟩
  rw [UInt8.ofNat_toNat] at value
  exact value valid

section

theorem join_toNat {a b : UInt8} {k : Nat} (few : k < 8) (low : b.toNat < 2 ^ k) :
    ((a <<< UInt8.ofNat k) ||| b).toNat = a.toNat * 2 ^ k % 256 + b.toNat := by
  have shift : (UInt8.ofNat k).toNat % 8 = k := by
    rw [UInt8.toNat_ofNat_of_lt' (by omega : k < 256)]
    omega
  rw [UInt8.toNat_or, UInt8.toNat_shiftLeft, shift, shiftLeft_eq]
  have high : a.toNat * 2 ^ k % 2 ^ 8 = (a.toNat % 2 ^ (8 - k)) * 2 ^ k := by
    have split : 2 ^ 8 = 2 ^ (8 - k) * 2 ^ k := by rw [← pow_add]; congr 1; omega
    rw [split, mul_mod_mul_right]
  rw [show (256 : Nat) = 2 ^ 8 from rfl, high, mul_comm, ← two_pow_add_eq_or_of_lt low]

section

variable (b : UInt8)

theorem shiftRight_two : (b >>> 2).toNat = b.toNat / 4 := by
  rw [UInt8.toNat_shiftRight, shiftRight_eq_div_pow]
  rfl

theorem shiftRight_four : (b >>> 4).toNat = b.toNat / 16 := by
  rw [UInt8.toNat_shiftRight, shiftRight_eq_div_pow]
  rfl

theorem shiftRight_six : (b >>> 6).toNat = b.toNat / 64 := by
  rw [UInt8.toNat_shiftRight, shiftRight_eq_div_pow]
  rfl

theorem and_three : (b &&& 0x03).toNat = b.toNat % 4 := by
  exact and_two_pow_sub_one_eq_mod b.toNat 2

theorem and_fifteen : (b &&& 0x0F).toNat = b.toNat % 16 := by
  exact and_two_pow_sub_one_eq_mod b.toNat 4

theorem and_sixtyThree : (b &&& 0x3F).toNat = b.toNat % 64 := by
  exact and_two_pow_sub_one_eq_mod b.toNat 6

end

variable (a b : UInt8)

theorem join_two (low : b.toNat < 4) : ((a <<< 2) ||| b).toNat = a.toNat * 4 % 256 + b.toNat :=
  join_toNat (k := 2) (by decide) low

theorem join_four (low : b.toNat < 16) : ((a <<< 4) ||| b).toNat = a.toNat * 16 % 256 + b.toNat :=
  join_toNat (k := 4) (by decide) low

theorem join_six (low : b.toNat < 64) : ((a <<< 6) ||| b).toNat = a.toNat * 64 % 256 + b.toNat :=
  join_toNat (k := 6) (by decide) low

theorem shiftLeft_two : (a <<< 2).toNat = a.toNat * 4 % 256 := by
  rw [UInt8.toNat_shiftLeft, shiftLeft_eq]
  rfl

theorem shiftLeft_four : (a <<< 4).toNat = a.toNat * 16 % 256 := by
  rw [UInt8.toNat_shiftLeft, shiftLeft_eq]
  rfl

end

def sextets : Bytes → List UInt8
  | b0 :: b1 :: b2 :: rest =>
    ((b0 >>> 2) &&& 0x3F) :: (((b0 &&& 0x03) <<< 4) ||| (b1 >>> 4)) :: (((b1 &&& 0x0F) <<< 2) ||| (b2 >>> 6)) ::
      (b2 &&& 0x3F) :: sextets rest
  | [b0, b1] => [(b0 >>> 2) &&& 0x3F, ((b0 &&& 0x03) <<< 4) ||| (b1 >>> 4), (b1 &&& 0x0F) <<< 2]
  | [b0] => [(b0 >>> 2) &&& 0x3F, (b0 &&& 0x03) <<< 4]
  | [] => []

def octets : List UInt8 → Bytes
  | q0 :: q1 :: q2 :: q3 :: rest =>
    ((q0 <<< 2) ||| (q1 >>> 4)) :: ((q1 <<< 4) ||| (q2 >>> 2)) :: ((q2 <<< 6) ||| q3) :: octets rest
  | [q0, q1, q2] => [(q0 <<< 2) ||| (q1 >>> 4), (q1 <<< 4) ||| (q2 >>> 2)]
  | [q0, q1] => [(q0 <<< 2) ||| (q1 >>> 4)]
  | _ => []

/-- Groups of six bits that stand for whole bytes: no group is left alone and the bits beyond the
    last byte are zero. -/
structure Tight (v : List UInt8) : Prop where
  small : ∀ q ∈ v, q.toNat < 64
  whole : v.length % 4 ≠ 1
  two : v.length % 4 = 2 → ∀ q, v.getLast? = some q → q.toNat % 16 = 0
  three : v.length % 4 = 3 → ∀ q, v.getLast? = some q → q.toNat % 4 = 0

theorem Tight.tail {q0 q1 q2 q3 : UInt8} {rest : List UInt8} (tight : Tight (q0 :: q1 :: q2 :: q3 :: rest)) :
    Tight rest := by
  have last (q : UInt8) (h : rest.getLast? = some q) : (q0 :: q1 :: q2 :: q3 :: rest).getLast? = some q := by
    simp [getLast?_cons, h]
  rcases tight with ⟨small, whole, two, three⟩
  simp only [length_cons] at whole two three
  refine ⟨fun q mem => small q (by simp [mem]), by omega, ?_, ?_⟩
  · intro length q h
    exact two (by omega) q (last q h)
  · intro length q h
    exact three (by omega) q (last q h)

theorem Tight.append {q0 q1 q2 q3 : UInt8} {rest : List UInt8}
    (first : q0.toNat < 64 ∧ q1.toNat < 64 ∧ q2.toNat < 64 ∧ q3.toNat < 64) (tight : Tight rest) : Tight (q0 :: q1 :: q2 :: q3 :: rest) := by
  rcases tight with ⟨small, whole, two, three⟩
  have last (q : UInt8) (nonempty : rest ≠ []) (h : (q0 :: q1 :: q2 :: q3 :: rest).getLast? = some q) :
      rest.getLast? = some q := by
    rw [show q0 :: q1 :: q2 :: q3 :: rest = [q0, q1, q2, q3] ++ rest from rfl, getLast?_append] at h
    cases found : rest.getLast? with
    | none => exact absurd (getLast?_eq_none_iff.mp found) nonempty
    | some last =>
      rw [found] at h
      exact h
  refine ⟨?_, ?_, ?_, ?_⟩
  · simpa using ⟨first.1, first.2.1, first.2.2.1, first.2.2.2, small⟩
  · simp only [length_cons]
    omega
  · intro length q h
    simp only [length_cons] at length
    exact two (by omega) q (last q (by rintro rfl; simp at length) h)
  · intro length q h
    simp only [length_cons] at length
    exact three (by omega) q (last q (by rintro rfl; simp at length) h)

variable (bytes : Bytes)

theorem sextets_tight : Tight (sextets bytes) := by
  fun_induction sextets bytes with
  | case1 b0 b1 b2 rest ih =>
    have bound1 := b1.toNat_lt
    have bound2 := b2.toNat_lt
    refine ih.append ⟨?_, ?_, ?_, ?_⟩
    · rw [and_sixtyThree]
      omega
    · rw [join_four _ _ (by rw [shiftRight_four]; omega), and_three, shiftRight_four]
      omega
    · rw [join_two _ _ (by rw [shiftRight_six]; omega), and_fifteen, shiftRight_six]
      omega
    · rw [and_sixtyThree]
      omega
  | case2 b0 b1 =>
    have bound1 := b1.toNat_lt
    refine ⟨?_, by simp, by simp, ?_⟩
    · simp only [forall_mem_cons, and_sixtyThree, shiftLeft_two, and_fifteen]
      rw [join_four _ _ (by rw [shiftRight_four]; omega), and_three]
      simp
      omega
    · rintro _ q ⟨⟩
      show ((b1 &&& 0x0F) <<< 2).toNat % 4 = 0
      rw [shiftLeft_two]
      omega
  | case3 b0 =>
    refine ⟨?_, by simp, ?_, by simp⟩
    · simp only [forall_mem_cons, and_sixtyThree, shiftLeft_four, and_three]
      simp
      omega
    · rintro _ q ⟨⟩
      show ((b0 &&& 0x03) <<< 4).toNat % 16 = 0
      rw [shiftLeft_four]
      omega
  | case4 => exact ⟨by simp, by simp, by simp, by simp⟩

theorem octets_sextets : octets (sextets bytes) = bytes := by
  fun_induction sextets bytes with
  | case1 b0 b1 b2 rest ih =>
    have bound0 := b0.toNat_lt
    have bound1 := b1.toNat_lt
    have bound2 := b2.toNat_lt
    have q1 : (((b0 &&& 0x03) <<< 4) ||| (b1 >>> 4)).toNat = b0.toNat % 4 * 16 % 256 + b1.toNat / 16 := by
      rw [join_four _ _ (by rw [shiftRight_four]; omega), and_three, shiftRight_four]
    have q2 : (((b1 &&& 0x0F) <<< 2) ||| (b2 >>> 6)).toNat = b1.toNat % 16 * 4 % 256 + b2.toNat / 64 := by
      rw [join_two _ _ (by rw [shiftRight_six]; omega), and_fifteen, shiftRight_six]
    rw [octets]
    congr 1
    · rw [← UInt8.toNat_inj, join_two _ _ (by rw [shiftRight_four]; omega), shiftRight_four, q1, and_sixtyThree,
        shiftRight_two]
      omega
    congr 1
    · rw [← UInt8.toNat_inj, join_four _ _ (by rw [shiftRight_two]; omega), shiftRight_two]
      omega
    congr 1
    · rw [← UInt8.toNat_inj, join_six _ _ (by rw [and_sixtyThree]; omega), and_sixtyThree]
      omega
  | case2 b0 b1 =>
    have bound0 := b0.toNat_lt
    have bound1 := b1.toNat_lt
    have q1 : (((b0 &&& 0x03) <<< 4) ||| (b1 >>> 4)).toNat = b0.toNat % 4 * 16 % 256 + b1.toNat / 16 := by
      rw [join_four _ _ (by rw [shiftRight_four]; omega), and_three, shiftRight_four]
    have q2 : ((b1 &&& 0x0F) <<< 2).toNat = b1.toNat % 16 * 4 % 256 := by rw [shiftLeft_two, and_fifteen]
    rw [octets]
    congr 1
    · rw [← UInt8.toNat_inj, join_two _ _ (by rw [shiftRight_four]; omega), shiftRight_four, q1, and_sixtyThree,
        shiftRight_two]
      omega
    congr 1
    · rw [← UInt8.toNat_inj, join_four _ _ (by rw [shiftRight_two]; omega), shiftRight_two]
      omega
  | case3 b0 =>
    have bound0 := b0.toNat_lt
    have q1 : ((b0 &&& 0x03) <<< 4).toNat = b0.toNat % 4 * 16 % 256 := by rw [shiftLeft_four, and_three]
    rw [octets]
    congr 1
    rw [← UInt8.toNat_inj, join_two _ _ (by rw [shiftRight_four]; omega), shiftRight_four, q1, and_sixtyThree,
      shiftRight_two]
    omega
  | case4 => rfl

variable {v : List UInt8}

theorem sextets_octets (tight : Tight v) : sextets (octets v) = v := by
  fun_induction octets v with
  | case1 q0 q1 q2 q3 rest ih =>
    have small := tight.small
    simp only [forall_mem_cons] at small
    rcases small with ⟨small0, small1, small2, small3, _⟩
    have b0 : ((q0 <<< 2) ||| (q1 >>> 4)).toNat = q0.toNat * 4 % 256 + q1.toNat / 16 := by
      rw [join_two _ _ (by rw [shiftRight_four]; omega), shiftRight_four]
    have b1 : ((q1 <<< 4) ||| (q2 >>> 2)).toNat = q1.toNat * 16 % 256 + q2.toNat / 4 := by
      rw [join_four _ _ (by rw [shiftRight_two]; omega), shiftRight_two]
    have b2 : ((q2 <<< 6) ||| q3).toNat = q2.toNat * 64 % 256 + q3.toNat := join_six _ _ small3
    rw [sextets, ih tight.tail]
    congr 1
    · rw [← UInt8.toNat_inj, and_sixtyThree, shiftRight_two]
      omega
    congr 1
    · rw [← UInt8.toNat_inj, join_four _ _ (by rw [shiftRight_four]; omega), and_three, shiftRight_four]
      omega
    congr 1
    · rw [← UInt8.toNat_inj, join_two _ _ (by rw [shiftRight_six]; omega), and_fifteen, shiftRight_six]
      omega
    congr 1
    · rw [← UInt8.toNat_inj, and_sixtyThree]
      omega
  | case2 q0 q1 q2 =>
    have small := tight.small
    simp only [forall_mem_cons] at small
    have loose := tight.three (by simp) q2 rfl
    have b0 : ((q0 <<< 2) ||| (q1 >>> 4)).toNat = q0.toNat * 4 % 256 + q1.toNat / 16 := by
      rw [join_two _ _ (by rw [shiftRight_four]; omega), shiftRight_four]
    have b1 : ((q1 <<< 4) ||| (q2 >>> 2)).toNat = q1.toNat * 16 % 256 + q2.toNat / 4 := by
      rw [join_four _ _ (by rw [shiftRight_two]; omega), shiftRight_two]
    rw [sextets]
    congr 1
    · rw [← UInt8.toNat_inj, and_sixtyThree, shiftRight_two]
      omega
    congr 1
    · rw [← UInt8.toNat_inj, join_four _ _ (by rw [shiftRight_four]; omega), and_three, shiftRight_four]
      omega
    congr 1
    · rw [← UInt8.toNat_inj, shiftLeft_two, and_fifteen]
      omega
  | case3 q0 q1 =>
    have small := tight.small
    simp only [forall_mem_cons] at small
    have loose := tight.two (by simp) q1 rfl
    have b0 : ((q0 <<< 2) ||| (q1 >>> 4)).toNat = q0.toNat * 4 % 256 + q1.toNat / 16 := by
      rw [join_two _ _ (by rw [shiftRight_four]; omega), shiftRight_four]
    rw [sextets]
    congr 1
    · rw [← UInt8.toNat_inj, and_sixtyThree, shiftRight_two]
      omega
    congr 1
    · rw [← UInt8.toNat_inj, shiftLeft_four, and_three]
      omega
  | case4 v long three two =>
    rcases v with _ | ⟨q0, _ | ⟨q1, _ | ⟨q2, _ | ⟨q3, rest⟩⟩⟩⟩
    · rfl
    · exact absurd rfl tight.whole
    · exact absurd rfl (two q0 q1)
    · exact absurd rfl (three q0 q1 q2)
    · exact absurd rfl (long q0 q1 q2 q3 rest)

theorem octets_length (whole : v.length % 4 ≠ 1) : (octets v).length = v.length * 3 / 4 := by
  fun_induction octets v with
  | case1 q0 q1 q2 q3 rest ih =>
    simp only [length_cons] at whole ⊢
    omega
  | case2 q0 q1 q2 => simp
  | case3 q0 q1 => simp
  | case4 v long three two =>
    rcases v with _ | ⟨q0, _ | ⟨q1, _ | ⟨q2, _ | ⟨q3, rest⟩⟩⟩⟩
    · rfl
    · exact absurd rfl whole
    · exact absurd rfl (two q0 q1)
    · exact absurd rfl (three q0 q1 q2)
    · exact absurd rfl (long q0 q1 q2 q3 rest)

theorem sextets_length : (sextets bytes).length = (bytes.length * 4 + 2) / 3 := by
  fun_induction sextets bytes with
  | case1 b0 b1 b2 rest ih =>
    simp only [length_cons]
    omega
  | case2 b0 b1 => simp
  | case3 b0 => simp
  | case4 => rfl

theorem Sink.put_append (before room after bytes : Bytes) (exact' : room.length = bytes.length) :
    put ⟨before ++ (room ++ after), before.length⟩ bytes =
      .ok ⟨before ++ (bytes ++ after), before.length + bytes.length⟩ := by
  induction bytes generalizing before room with
  | nil =>
    have none : room = [] := length_eq_zero_iff.mp exact'
    rw [none]
    rfl
  | cons b rest ih =>
    rcases room with _ | ⟨old, room⟩
    · cases exact'
    have inside : before.length < (before ++ (old :: room ++ after)).length := by simp
    rw [put, if_pos inside]
    have step := ih (before ++ [b]) room (by simpa using exact')
    simp only [length_append, length_cons, length_nil, append_assoc, singleton_append] at step
    simp only [cons_append, set_append_right, le_refl, Nat.sub_self, set_cons_zero, step,
      length_cons, Nat.zero_add]
    rw [Nat.add_assoc, Nat.add_comm 1]

def text (padding : Base64Padding) (bytes : Bytes) : Bytes :=
  (sextets bytes).map letter ++ pad padding ((3 - bytes.length % 3) % 3)

theorem text_length (padding : Base64Padding) (bytes : Bytes) :
    (text padding bytes).length = encodedLength bytes.length padding := by
  unfold text encodedLength pad
  rw [length_append, length_map, sextets_length]
  cases padding with
  | required =>
    simp only [length_replicate]
    split <;> omega
  | omitted =>
    simp only [length_nil]
    split <;> omega

theorem encodeLoop_writes (padding : Base64Padding) (before room input : Bytes)
    (exact' : room.length = (text padding input).length) : encodeLoop padding ⟨before ++ room, before.length⟩ input =
      .ok ⟨before ++ text padding input, before.length + (text padding input).length⟩ := by
  fun_induction sextets input generalizing before room with
  | case1 b0 b1 b2 rest ih =>
    have tail : text padding (b0 :: b1 :: b2 :: rest) = [letter ((b0 >>> 2) &&& 0x3F),
        letter (((b0 &&& 0x03) <<< 4) ||| (b1 >>> 4)), letter (((b1 &&& 0x0F) <<< 2) ||| (b2 >>> 6)),
        letter (b2 &&& 0x3F)] ++ text padding rest := by
      have length : (b0 :: b1 :: b2 :: rest).length % 3 = rest.length % 3 := by
        simp only [length_cons]
        omega
      unfold text
      rw [length]
      rfl
    rw [tail, length_append] at exact'
    rw [tail, encodeLoop]
    have put := put_append before (room.take 4) (room.drop 4) [letter ((b0 >>> 2) &&& 0x3F),
        letter (((b0 &&& 0x03) <<< 4) ||| (b1 >>> 4)), letter (((b1 &&& 0x0F) <<< 2) ||| (b2 >>> 6)),
        letter (b2 &&& 0x3F)] (by simp only [length_take, length_cons, length_nil] at exact' ⊢; omega)
    rw [take_append_drop] at put
    rw [put, ok_bind, ← append_assoc]
    have step := ih (before ++ [letter ((b0 >>> 2) &&& 0x3F),
        letter (((b0 &&& 0x03) <<< 4) ||| (b1 >>> 4)), letter (((b1 &&& 0x0F) <<< 2) ||| (b2 >>> 6)),
        letter (b2 &&& 0x3F)]) (room.drop 4) (by simp only [length_drop, length_cons, length_nil] at exact' ⊢; omega)
    rw [length_append] at step
    rw [step, append_assoc, length_append, add_assoc]
  | case2 b0 b1 =>
    have put := put_append before room [] (text padding [b0, b1]) exact'
    rw [append_nil, append_nil] at put
    exact put
  | case3 b0 =>
    have put := put_append before room [] (text padding [b0]) exact'
    rw [append_nil, append_nil] at put
    exact put
  | case4 =>
    have none : text padding [] = [] := by cases padding <;> rfl
    rw [none] at exact' ⊢
    rw [length_eq_zero_iff.mp exact']
    rfl

theorem encode_eq (input : Bytes) (padding : Base64Padding) : encode input padding = .ok (text padding input) := by
  have loop := encodeLoop_writes padding [] (replicate (encodedLength input.length padding) 0) input
    (by rw [text_length, length_replicate])
  unfold encode encodeInto
  rw [if_neg (by rw [length_replicate]; exact not_not.mpr rfl)]
  rw [show (⟨replicate (encodedLength input.length padding) 0, 0⟩ : Sink) =
    ⟨[] ++ replicate (encodedLength input.length padding) 0, ([] : Bytes).length⟩ from rfl, loop]
  rfl

structure Framed (text : Bytes) (v : List UInt8) (pads : Nat) : Prop where
  tight : Tight v
  shape : text = v.map letter ++ replicate pads 0x3D
  padded : pads = 0 ∨ (v.length + pads) % 4 = 0 ∧ pads ≤ 2

theorem checkCharacters_tail {limit i : Nat} (tail : Bytes) (here : limit ≤ i) :
    checkCharacters limit i tail = true ↔ ∀ c ∈ tail, c = 0x3D ∨ ¬ decodeValue c < 0 := by
  induction tail generalizing i with
  | nil => simp [checkCharacters]
  | cons c rest ih =>
    have rest' := ih (show limit ≤ i + 1 by omega)
    unfold checkCharacters
    rw [forall_mem_cons, ← rest']
    by_cases pad : c = 0x3D
    · rw [if_pos pad, if_neg (by omega)]
      simp [pad]
    rw [if_neg pad]
    by_cases invalid : decodeValue c < 0
    · simp [pad]
    · simp [invalid]

theorem checkCharacters_append (limit i : Nat) (body tail : Bytes) (here : i + body.length = limit) :
    checkCharacters limit i (body ++ tail) = true ↔
      (∀ c ∈ body, c ≠ 0x3D ∧ ¬ decodeValue c < 0) ∧ ∀ c ∈ tail, c = 0x3D ∨ ¬ decodeValue c < 0 := by
  induction body generalizing i with
  | nil =>
    rw [nil_append, checkCharacters_tail tail (show limit ≤ i from here.ge)]
    simp
  | cons c rest ih =>
    simp only [length_cons] at here
    have rest' := ih (i + 1) (show i + 1 + rest.length = limit by omega)
    rw [cons_append, checkCharacters, forall_mem_cons, and_assoc, ← rest']
    by_cases pad : c = 0x3D
    · rw [if_pos pad, if_pos (by omega)]
      simp [pad]
    rw [if_neg pad]
    by_cases invalid : decodeValue c < 0
    · simp [invalid]
    · simp [pad]

theorem paddingOf_split (text : Bytes) : paddingOf text ≤ 2 ∧ ∃ body, text = body ++ replicate (paddingOf text) 0x3D := by
  unfold paddingOf
  rcases eq_nil_or_concat text with rfl | ⟨body, last, rfl⟩
  · exact ⟨by simp, [], rfl⟩
  rw [concat_eq_append, getLast?_concat]
  by_cases pad : last = 0x3D
  · subst pad
    rw [if_pos rfl]
    rcases eq_nil_or_concat body with rfl | ⟨body, last, rfl⟩
    · exact ⟨by simp, [], by simp⟩
    have second : (body.concat last ++ [0x3D])[(body.concat last ++ [0x3D]).length - 2]? = some last := by
      simp
    rw [second]
    by_cases pad : last = 0x3D
    · subst pad
      exact ⟨by simp, body, by simp⟩
    · rw [if_neg (fun both => pad (Option.some.inj both.2))]
      exact ⟨by simp, body.concat last, by simp⟩
  · rw [if_neg (fun same => pad (Option.some.inj same))]
    exact ⟨by simp, body ++ [last], by simp⟩

theorem paddingOf_framed {pads : Nat} (small : ∀ q ∈ v, q.toNat < 64) (few : pads ≤ 2) (nonempty : v = [] → pads = 0) :
    paddingOf (v.map letter ++ replicate pads 0x3D) = pads := by
  rcases eq_nil_or_concat v with rfl | ⟨front, q, rfl⟩
  · rw [nonempty rfl]
    rfl
  have letters : letter q ≠ 0x3D := letter_ne_pad (small q (by simp))
  have cases' : pads = 0 ∨ pads = 1 ∨ pads = 2 := by omega
  rcases cases' with rfl | rfl | rfl
  · simp [paddingOf, letters]
  · simp [paddingOf, letters]
  · simp [paddingOf]

theorem valueFromEnd_framed {q : UInt8} (pads : Nat) (small : ∀ q ∈ v, q.toNat < 64) (last : v.getLast? = some q) :
    valueFromEnd (v.map letter ++ replicate pads 0x3D) (pads + 1) = q.toNat := by
  rcases eq_nil_or_concat v with rfl | ⟨front, q', rfl⟩
  · cases last
  rw [concat_eq_append, getLast?_concat] at last
  cases last
  have here : (map letter (front.concat q) ++ replicate pads 0x3D).getD
      ((map letter (front.concat q) ++ replicate pads 0x3D).length - (pads + 1)) 0 = letter q := by
    simp
  rw [valueFromEnd, here]
  exact decodeValue_letter (small q (by simp))

theorem looseBits_framed {pads : Nat} (small : ∀ q ∈ v, q.toNat < 64) (whole : v.length % 4 ≠ 1)
    (padded : pads = 0 ∨ (v.length + pads) % 4 = 0 ∧ pads ≤ 2) :
    looseBits (v.map letter ++ replicate pads 0x3D) pads = false ↔
      (v.length % 4 = 2 → ∀ q, v.getLast? = some q → q.toNat % 16 = 0) ∧
        (v.length % 4 = 3 → ∀ q, v.getLast? = some q → q.toNat % 4 = 0) := by
  cases found : v.getLast? with
  | none =>
    rw [getLast?_eq_none_iff] at found
    subst found
    rcases padded with rfl | ⟨multiple, few⟩
    · simp [looseBits]
    · have none : pads = 0 := by simp at multiple; omega
      subst none
      simp [looseBits]
  | some q =>
    have value := valueFromEnd_framed pads small found
    simp only [Option.some.injEq, forall_eq']
    rcases padded with rfl | ⟨multiple, few⟩
    · simp only [looseBits, lt_irrefl, if_false, value, length_append, length_map,
        length_replicate, add_zero, Bool.or_eq_false_iff, Bool.and_eq_false_iff, decide_eq_false_iff_not]
      constructor
      · intro ⟨two, three⟩
        exact ⟨fun h => by simp only [not_not] at two; omega, fun h => by simp only [not_not] at three; omega⟩
      · intro ⟨two, three⟩
        constructor
        · by_cases h : v.length % 4 = 2
          · omega
          · exact .inl h
        · by_cases h : v.length % 4 = 3
          · omega
          · exact .inl h
    · have cases' : pads = 0 ∨ pads = 1 ∨ pads = 2 := by omega
      rcases cases' with rfl | rfl | rfl
      · simp only [looseBits, lt_irrefl, if_false, value, length_append, length_map,
          length_replicate, add_zero]
        have two : ¬ v.length % 4 = 2 := by omega
        have three : ¬ v.length % 4 = 3 := by omega
        simp [two, three]
      · have three : v.length % 4 = 3 := by omega
        have value : valueFromEnd (v.map letter ++ [0x3D]) 2 = q.toNat := value
        have cast : (q.toNat : Int) % 4 = 0 ↔ q.toNat % 4 = 0 := by omega
        simp [looseBits, value, three, cast]
      · have two : v.length % 4 = 2 := by omega
        have value : valueFromEnd (v.map letter ++ [0x3D, 0x3D]) 3 = q.toNat := value
        have cast : (q.toNat : Int) % 16 = 0 ↔ q.toNat % 16 = 0 := by omega
        simp [looseBits, value, two, cast]

theorem letters_of_valid {body : Bytes} (valid : ∀ c ∈ body, c ≠ 0x3D ∧ ¬ decodeValue c < 0) :
    ∃ v : List UInt8, body = v.map letter ∧ ∀ q ∈ v, q.toNat < 64 := by
  refine ⟨body.map fun c => .ofNat (decodeValue c).toNat, ?_, ?_⟩
  · rw [map_map]
    symm
    apply (map_congr_left fun c mem => ?_).trans (map_id body)
    exact (letter_decodeValue (valid c mem).2).2
  · rw [forall_mem_map]
    exact fun c mem => (letter_decodeValue (valid c mem).2).1

theorem decodedLength_iff (text : Bytes) (n : Nat) :
    decodedLength text = .ok n ↔ ∃ v pads, Framed text v pads ∧ n = (octets v).length := by
  unfold decodedLength
  by_cases empty : text = []
  · subst empty
    constructor
    · intro h
      cases h
      exact ⟨[], 0, ⟨⟨by simp, by simp, by simp, by simp⟩, rfl, .inl rfl⟩, rfl⟩
    · rintro ⟨v, pads, ⟨_, shape, _⟩, rfl⟩
      have none : v = [] := by simpa using (append_eq_nil_iff.mp shape.symm).1
      rw [none]
      rfl
  · rw [if_neg empty]
    constructor
    · intro h
      obtain ⟨alone, h⟩ := guard_ok h
      rcases paddingOf_split text with ⟨few, body, split⟩
      generalize paddingOf text = pads at h few split
      subst split
      simp only [length_append, length_replicate] at alone h
      rw [Nat.add_sub_cancel] at h
      have characters := checkCharacters_append body.length 0 body (replicate pads 0x3D) (Nat.zero_add _)
      cases checked : checkCharacters body.length 0 (body ++ replicate pads 0x3D) with
      | false =>
        simp only [checked] at h
        cases h
      | true =>
        rcases letters_of_valid (characters.mp checked).1 with ⟨v, rfl, small⟩
        rw [length_map] at alone checked
        simp only [length_map, checked] at h
        by_cases misplaced : 0 < pads ∧ ((v.length + pads) % 4 ≠ 0 ∨ 2 < pads ∨ v.length + pads < 4)
        · rw [if_pos misplaced] at h
          cases h
        rw [if_neg misplaced] at h
        have padded : pads = 0 ∨ (v.length + pads) % 4 = 0 ∧ pads ≤ 2 := by omega
        have whole : v.length % 4 ≠ 1 := by omega
        cases loose : looseBits (v.map letter ++ replicate pads 0x3D) pads with
        | true =>
          rw [loose] at h
          cases h
        | false =>
          rw [loose] at h
          rcases (looseBits_framed small whole padded).mp loose with ⟨two, three⟩
          refine ⟨v, pads, ⟨⟨small, whole, two, three⟩, rfl, padded⟩, ?_⟩
          have value := Except.ok.inj h
          rw [octets_length whole, ← value]
          split_ifs <;> omega
    · rintro ⟨v, pads, ⟨tight, rfl, padded⟩, rfl⟩
      have whole := tight.whole
      have few : pads ≤ 2 := by omega
      have nonempty : v = [] → pads = 0 := by
        rintro rfl
        simp only [length_nil] at padded
        omega
      have alone : ¬ (v.length + pads) % 4 = 1 := by omega
      have characters := checkCharacters_append v.length 0 (v.map letter) (replicate pads 0x3D)
        (by rw [length_map, Nat.zero_add])
      have checked : checkCharacters v.length 0 (v.map letter ++ replicate pads 0x3D) = true := by
        refine characters.mpr ⟨?_, fun c mem => .inl (eq_of_mem_replicate mem)⟩
        rw [forall_mem_map]
        intro q mem
        refine ⟨letter_ne_pad (tight.small q mem), ?_⟩
        rw [decodeValue_letter (tight.small q mem)]
        omega
      have misplaced : ¬ (0 < pads ∧ ((v.length + pads) % 4 ≠ 0 ∨ 2 < pads ∨ v.length + pads < 4)) := by omega
      have loose := (looseBits_framed tight.small whole padded).mpr ⟨tight.two, tight.three⟩
      simp only [paddingOf_framed tight.small few nonempty, length_append, length_map, length_replicate,
        Nat.add_sub_cancel, checked, alone, misplaced, loose, if_false, Bool.true_eq_false, Bool.false_eq_true, pure_eq_ok]
      rw [octets_length whole]
      congr 1
      split_ifs <;> omega

theorem decodeLoop_octets (small : ∀ q ∈ v, q.toNat < 64) (whole : v.length % 4 ≠ 1) (pads : Nat)
    (before room : Bytes) (exact' : room.length = (octets v).length) :
    (decodeLoop (v.map letter ++ replicate pads 0x3D) [] ⟨before ++ room, before.length⟩ >>= fun p => decodeRest p.1 p.2) =
      .ok ⟨before ++ octets v, before.length + (octets v).length⟩ := by
  have step {q : UInt8} (small : q.toNat < 64) (rest : Bytes) (quartet : List UInt8) (sink : Sink) :
      decodeLoop (letter q :: rest) quartet sink =
        flush (quartet ++ [q]) sink >>= fun p => decodeLoop rest p.1 p.2 := by
    have valid : ¬ (q.toNat : Int) < 0 := by omega
    rw [decodeLoop, if_neg (letter_ne_pad small), decodeValue_letter small, if_neg valid, Int.toNat_natCast,
      UInt8.ofNat_toNat]
  have stop (quartet : List UInt8) (sink : Sink) :
      decodeLoop (replicate pads 0x3D) quartet sink = .ok (quartet, sink) := by
    cases pads with
    | zero => rfl
    | succ pads => rw [replicate_succ, decodeLoop, if_pos rfl]
  fun_induction octets v generalizing before room with
  | case1 q0 q1 q2 q3 rest ih =>
    simp only [forall_mem_cons] at small
    rcases small with ⟨small0, small1, small2, small3, small⟩
    simp only [length_cons] at whole exact'
    have put := put_append before (room.take 3) (room.drop 3)
      [(q0 <<< 2) ||| (q1 >>> 4), (q1 <<< 4) ||| (q2 >>> 2), (q2 <<< 6) ||| q3]
      (by simp only [length_take, length_cons, length_nil]; omega)
    rw [take_append_drop] at put
    have next := ih small (by omega)
      (before ++ [(q0 <<< 2) ||| (q1 >>> 4), (q1 <<< 4) ||| (q2 >>> 2), (q2 <<< 6) ||| q3]) (room.drop 3)
      (by rw [length_drop]; omega)
    simp only [map_cons, cons_append, step small0, step small1, step small2, step small3, nil_append, flush,
      put, ok_bind, pure_eq_ok]
    rw [length_append, append_assoc] at next
    refine next.trans ?_
    simp only [length_cons, length_nil, append_assoc, cons_append, nil_append]
    rw [show before.length + (0 + 1 + 1 + 1) + (octets rest).length = before.length + ((octets rest).length + 1 + 1 + 1) by omega]
  | case2 q0 q1 q2 =>
    simp only [forall_mem_cons] at small
    rcases small with ⟨small0, small1, small2, _⟩
    have put := put_append before room [] [(q0 <<< 2) ||| (q1 >>> 4), (q1 <<< 4) ||| (q2 >>> 2)] exact'
    rw [append_nil] at put
    simp only [map_cons, map_nil, cons_append, step small0, step small1, step small2, nil_append, flush,
      stop, ok_bind]
    exact put
  | case3 q0 q1 =>
    simp only [forall_mem_cons] at small
    rcases small with ⟨small0, small1, _⟩
    have put := put_append before room [] [(q0 <<< 2) ||| (q1 >>> 4)] exact'
    rw [append_nil] at put
    simp only [map_cons, map_nil, cons_append, step small0, step small1, nil_append, flush, stop,
      ok_bind]
    exact put
  | case4 v long three two =>
    rcases v with _ | ⟨q0, _ | ⟨q1, _ | ⟨q2, _ | ⟨q3, rest⟩⟩⟩⟩
    · rw [length_eq_zero_iff.mp exact', map_nil, nil_append, stop]
      rfl
    · exact absurd rfl whole
    · exact absurd rfl (two q0 q1)
    · exact absurd rfl (three q0 q1 q2)
    · exact absurd rfl (long q0 q1 q2 q3 rest)

theorem decodeInto_framed {text output : Bytes} {pads : Nat} (framed : Framed text v pads)
    (exact' : output.length = (octets v).length) : decodeInto text output = .ok (octets v) := by
  have length := (decodedLength_iff text (octets v).length).mpr ⟨v, pads, framed, rfl⟩
  have loop := decodeLoop_octets framed.tight.small framed.tight.whole pads [] output exact'
  unfold decodeInto
  rw [length, ok_bind, if_neg (not_not.mpr exact'), framed.shape]
  rcases bind_ok loop with ⟨⟨quartet, sink⟩, read, rest⟩
  rw [show ({ output } : Sink) = ⟨[] ++ output, ([] : Bytes).length⟩ from rfl, read, ok_bind]
  dsimp only at rest ⊢
  rw [rest]
  rfl

theorem decode_iff (text bytes : Bytes) : decode text = .ok bytes ↔ ∃ v pads, Framed text v pads ∧ bytes = octets v := by
  unfold decode
  constructor
  · intro h
    rcases bind_ok h with ⟨n, length, h⟩
    rcases (decodedLength_iff text n).mp length with ⟨v, pads, framed, rfl⟩
    rw [decodeInto_framed framed (by rw [length_replicate])] at h
    exact ⟨v, pads, framed, (Except.ok.inj h).symm⟩
  · rintro ⟨v, pads, framed, rfl⟩
    rw [(decodedLength_iff text _).mpr ⟨v, pads, framed, rfl⟩]
    exact decodeInto_framed framed (by rw [length_replicate])

theorem framed_iff (text' : Bytes) (bytes : Bytes) :
    (∃ v pads, Framed text' v pads ∧ bytes = octets v) ↔ ∃ padding, text' = text padding bytes := by
  constructor
  · rintro ⟨v, pads, ⟨tight, shape, padded⟩, rfl⟩
    have same := sextets_octets tight
    have length := octets_length tight.whole
    rcases Nat.eq_zero_or_pos pads with none | some
    · refine ⟨.omitted, ?_⟩
      rw [shape, none, text, same]
      rfl
    · refine ⟨.required, ?_⟩
      have count : pads = (3 - (octets v).length % 3) % 3 := by
        have cases' : pads = 1 ∨ pads = 2 := by omega
        rcases cases' with rfl | rfl <;> omega
      rw [shape, text, same, pad, ← count]
  · rintro ⟨padding, rfl⟩
    have tight := sextets_tight bytes
    have length := sextets_length bytes
    cases padding with
    | required =>
      refine ⟨sextets bytes, (3 - bytes.length % 3) % 3, ⟨tight, rfl, ?_⟩, (octets_sextets bytes).symm⟩
      have remainder : bytes.length % 3 = 0 ∨ bytes.length % 3 = 1 ∨ bytes.length % 3 = 2 := by omega
      rcases remainder with h | h | h <;> rw [h] <;> omega
    | omitted => exact ⟨sextets bytes, 0, ⟨tight, rfl, .inl rfl⟩, (octets_sextets bytes).symm⟩

theorem decode_text (t bytes : Bytes) : decode t = .ok bytes ↔ ∃ padding, encode bytes padding = .ok t := by
  rw [decode_iff, framed_iff]
  constructor
  · rintro ⟨padding, rfl⟩
    exact ⟨padding, encode_eq bytes padding⟩
  · rintro ⟨padding, encoded⟩
    rw [encode_eq] at encoded
    exact ⟨padding, (Except.ok.inj encoded).symm⟩

theorem decodeInto_eq (t output : Bytes) : decodeInto t output =
      (decodedLength t >>= fun n => if output.length ≠ n then .error (.code .outputBufferTooSmall) else decode t) := by
  cases length : decodedLength t with
  | error e =>
    unfold decodeInto
    rw [length]
    rfl
  | ok n =>
    rcases (decodedLength_iff t n).mp length with ⟨v, pads, framed, rfl⟩
    by_cases fits : output.length = (octets v).length
    · rw [decodeInto_framed framed fits, ok_bind, if_neg (not_not.mpr fits)]
      exact ((decode_iff t _).mpr ⟨v, pads, framed, rfl⟩).symm
    · unfold decodeInto
      rw [length, ok_bind, ok_bind, if_pos fits, if_pos fits]
      rfl

theorem decodedLength_bounds (t : Bytes) : decodedLength t ≠ .error .outOfBounds := by
  unfold decodedLength
  dsimp only
  split_ifs <;> exact nofun

theorem decodeInto_bounds (t output : Bytes) : decodeInto t output ≠ .error .outOfBounds := by
  rw [decodeInto_eq]
  cases length : decodedLength t with
  | error e =>
    intro same
    have bounds : e = .outOfBounds := Except.error.inj same
    exact decodedLength_bounds t (by rw [length, bounds])
  | ok n =>
    rcases (decodedLength_iff t n).mp length with ⟨v, pads, framed, rfl⟩
    rw [ok_bind, (decode_iff t _).mpr ⟨v, pads, framed, rfl⟩]
    split <;> exact nofun

end NginBase.Crypto.Base64
