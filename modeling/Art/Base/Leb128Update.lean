import Art.Base.Leb128

/-!
# Updating and searching LEB128 in place

`UpdateUnsignedLeb128` and `ReverseSearchUnsignedLeb128` of `libartbase/base/leb128.h`.
`UpdateUnsignedLeb128` decodes the old `uint32_t` to find where its encoding ends, writes the
canonical encoding of the new value over it and, while that is shorter, sets bit 7 of the last
byte written and writes a zero byte after it. The result is the new value in the old value's
bytes: its encoding, then `0x80` bytes, then a zero byte. `ReverseSearchUnsignedLeb128` steps back
from the end of an encoding while the byte before is not a terminator.

Memory is the list of bytes from `dest` on, and pointers into it are indices. The `DCHECK`s of
both functions are not modelled: the size condition of `UpdateUnsignedLeb128` is a hypothesis of
the results instead.

The main results are `decodeUnsignedLeb128_updateUnsignedLeb128` (the updated bytes decode to the
new value and end where the old encoding ended, with the bytes after it untouched) and
`reverseSearchUnsignedLeb128_append` (the search from the end of the second of two encodings finds
its start).
-/

namespace Art

/-! ### The model -/

/-- `IsLeb128Terminator`. -/
def isLeb128Terminator (b : BitVec 8) : Bool := decide (b.toNat ≤ 0x7f)

/-- `EncodeUnsignedLeb128(uint8_t*, uint64_t)` as a write: the encoding replaces the bytes at
`dest`. -/
def writeUnsignedLeb128 (dest : List (BitVec 8)) (value : BitVec 64) : List (BitVec 8) :=
  encodeUnsignedLeb128 value ++ dest.drop (encodeUnsignedLeb128 value).length

/-- The loop of `UpdateUnsignedLeb128`: while `end < old_end`, `end[-1] |= 0x80` and
`end[0] = 0`. -/
def updateUnsignedLeb128Loop (oldEnd endIdx : Nat) (dest : List (BitVec 8)) : List (BitVec 8) :=
  if endIdx < oldEnd then
    updateUnsignedLeb128Loop oldEnd (endIdx + 1)
      ((dest.modify (endIdx - 1) (· ||| 0x80)).set endIdx 0)
  else dest
termination_by oldEnd - endIdx

/-- `UpdateUnsignedLeb128`; `none` where decoding the old value reads past `dest`. -/
def updateUnsignedLeb128 (dest : List (BitVec 8)) (value : BitVec 32) :
    Option (List (BitVec 8)) :=
  (decodeUnsignedLeb128 32 dest).map fun old =>
    updateUnsignedLeb128Loop old.2 (encodeUnsignedLeb128 (value.setWidth 64)).length
      (writeUnsignedLeb128 dest (value.setWidth 64))

/-- The loop of `ReverseSearchUnsignedLeb128`, at `ptr`: step back while the byte before `ptr` is
not a terminator. `none` where it would read outside `data`. -/
def reverseSearchUnsignedLeb128Loop (data : List (BitVec 8)) : Nat → Option Nat
  | 0 => none
  | ptr + 1 =>
    match data[ptr]? with
    | none => none
    | some b =>
      if isLeb128Terminator b then some (ptr + 1)
      else reverseSearchUnsignedLeb128Loop data ptr

/-- `ReverseSearchUnsignedLeb128`, with `end_ptr` at byte `endPtr` of `data`. -/
def reverseSearchUnsignedLeb128 (data : List (BitVec 8)) (endPtr : Nat) : Option Nat :=
  reverseSearchUnsignedLeb128Loop data (endPtr - 1)

/-! ### The shape of an encoding -/

/-- An unsigned encoding is bytes with bit 7 set and a last byte with bit 7 clear. -/
theorem encodeUnsignedLeb128Loop_eq_concat (out : BitVec 8) (value : BitVec 64)
    (hout : out.toNat ≤ 0x7f) :
    ∃ init last, encodeUnsignedLeb128Loop out value = init ++ [last] ∧
      (∀ b ∈ init, ¬b.toNat ≤ 0x7f) ∧ last.toNat ≤ 0x7f := by
  induction out, value using encodeUnsignedLeb128Loop.induct with
  | case1 out value hne ih =>
    obtain ⟨init, last, h, hinit, hlast⟩ := ih (toNat_payload_le value)
    refine ⟨(out ||| 0x80) :: init, last, ?_, ?_, hlast⟩
    · rw [encodeUnsignedLeb128Loop, if_pos hne, h, List.cons_append]
    · rintro b (_ | ⟨_, hb⟩)
      · exact not_toNat_or_0x80_le out
      · exact hinit b hb
  | case2 out value hz =>
    refine ⟨[], out, ?_, by simp, hout⟩
    rw [encodeUnsignedLeb128Loop, if_neg hz, List.nil_append]

theorem encodeUnsignedLeb128_eq_concat (value : BitVec 64) :
    ∃ init last, encodeUnsignedLeb128 value = init ++ [last] ∧
      (∀ b ∈ init, ¬b.toNat ≤ 0x7f) ∧ last.toNat ≤ 0x7f :=
  encodeUnsignedLeb128Loop_eq_concat _ _ (toNat_payload_le value)

/-- A `uint32_t` takes at most five bytes. -/
theorem length_encodeUnsignedLeb128_setWidth_le (x : BitVec 32) :
    (encodeUnsignedLeb128 (x.setWidth 64)).length ≤ maxBytes 32 := by
  have hx : (x.setWidth 64).toNat < 2 ^ 32 := by
    rw [BitVec.toNat_setWidth]
    exact (Nat.mod_le _ _).trans_lt x.isLt
  rw [encodeUnsignedLeb128, length_encodeUnsignedLeb128Loop_le_iff _ _ (by decide),
    ← BitVec.shiftRight_add, ushiftRight_eq_zero_iff]
  exact hx.trans_le (Nat.pow_le_pow_right Nat.two_pos (by decide))

/-! ### Padding -/

/-- The bytes `UpdateUnsignedLeb128` leaves from the last byte `c` of the new encoding to the old
end, `n` bytes after `c`: `c` with bit 7 set, bytes `0x80`, and a zero byte. -/
def padUnsignedLeb128 (c : BitVec 8) : Nat → List (BitVec 8)
  | 0 => [c]
  | n + 1 => (c ||| 0x80) :: padUnsignedLeb128 0 n

@[simp]
theorem length_padUnsignedLeb128 (c : BitVec 8) (n : Nat) :
    (padUnsignedLeb128 c n).length = n + 1 := by
  induction n generalizing c with
  | zero => rfl
  | succ n ih => rw [padUnsignedLeb128, List.length_cons, ih]

/-- One pass of the loop at the byte after `c`: bit 7 goes onto `c` and the next byte is
cleared. -/
theorem modify_set_append (init : List (BitVec 8)) (c r : BitVec 8) (rest : List (BitVec 8)) :
    ((init ++ c :: r :: rest).modify init.length (· ||| 0x80)).set (init.length + 1) 0 =
      (init ++ [c ||| 0x80]) ++ 0 :: rest := by
  simp [List.modify_eq_set, List.set_append_right]

/-- The loop from the byte after `c` to `n` bytes further pads `c` to `n + 1` bytes. -/
theorem updateUnsignedLeb128Loop_append (n : Nat) :
    ∀ (init : List (BitVec 8)) (c : BitVec 8) (rest : List (BitVec 8)), n ≤ rest.length →
      updateUnsignedLeb128Loop (init.length + 1 + n) (init.length + 1) (init ++ c :: rest) =
        init ++ padUnsignedLeb128 c n ++ rest.drop n := by
  induction n with
  | zero =>
    intro init c rest _
    rw [updateUnsignedLeb128Loop, if_neg (by omega)]
    simp [padUnsignedLeb128]
  | succ n ih =>
    intro init c rest hn
    obtain ⟨r, rest, rfl⟩ := List.exists_cons_of_length_pos (by omega : 0 < rest.length)
    rw [updateUnsignedLeb128Loop, if_pos (by omega), Nat.add_sub_cancel, modify_set_append]
    have h := ih (init ++ [c ||| 0x80]) 0 rest (by simpa using hn)
    rw [List.length_append, List.length_singleton] at h
    rw [show init.length + 1 + (n + 1) = init.length + 1 + 1 + n by omega, h]
    simp [padUnsignedLeb128]

/-! ### Decoding the padded bytes -/

section Decode

variable {numBits : Nat} {signed : Bool} {endAt : Option Nat}

/-- Bytes with bit 7 set are read through: whatever follows them is read from where they end,
with the bits they hold. -/
theorem decodeLeb128Loop_append_of_continue {init : List (BitVec 8)}
    (hinit : ∀ b ∈ init, ¬b.toNat ≤ 0x7f) :
    ∀ {index : Nat} (result : BitVec numBits), index + init.length ≤ maxBytes numBits →
      (∀ e ∈ endAt, index + init.length ≤ e) →
      ∃ result', ∀ rest, decodeLeb128Loop numBits signed endAt index result (init ++ rest) =
        decodeLeb128Loop numBits signed endAt (index + init.length) result' rest := by
  induction init with
  | nil =>
    intro index result _ _
    exact ⟨result, fun rest => rfl⟩
  | cons b init ih =>
    intro index result hi hend
    simp only [List.length_cons] at hi hend
    obtain ⟨result', h⟩ := @ih (fun x hx => hinit x (List.mem_cons_of_mem b hx)) (index + 1)
      (result ||| ((b.setWidth numBits &&& 0x7f) <<< (index * 7))) (by omega)
      (fun e he => by have := hend e he; omega)
    refine ⟨result', fun rest => ?_⟩
    rw [List.cons_append, decodeLeb128Loop_cons_of_continue (by omega)
      (fun e he => by have := hend e he; omega) (hinit b List.mem_cons_self), h,
      List.length_cons, Nat.add_assoc, Nat.add_comm 1]

/-- The seven bits a byte holds do not see its bit 7. -/
theorem setWidth_or_0x80_and_0x7f (c : BitVec 8) :
    (c ||| 0x80).setWidth numBits &&& 0x7f = c.setWidth numBits &&& 0x7f := by
  apply BitVec.eq_of_getLsbD_eq
  intro j _
  simp only [BitVec.getLsbD_and, BitVec.getLsbD_setWidth, getLsbD_0x7f]
  by_cases h7 : j < 7
  · rw [getLsbD_or_0x80 c h7]
  · simp [h7]

/-- An unsigned terminator `c` padded by `n` bytes reads as `c` does, and ends `n` bytes
later. -/
theorem decodeLeb128Loop_padUnsignedLeb128 (n : Nat) :
    ∀ {c : BitVec 8}, c.toNat ≤ 0x7f → ∀ {index : Nat} (result : BitVec numBits) rest,
      index + n < maxBytes numBits → (∀ e ∈ endAt, index + n < e) →
      decodeLeb128Loop numBits false endAt index result (padUnsignedLeb128 c n ++ rest) =
        (decodeLeb128Loop numBits false endAt index result (c :: rest)).map
          fun r => (r.1, r.2 + n) := by
  induction n with
  | zero =>
    intro c _ index result rest _ _
    simp [padUnsignedLeb128]
  | succ n ih =>
    intro c hc index result rest hi hend
    -- `c` with bit 7 set adds the same bits as `c`; the zero byte at the end stops the loop
    rw [padUnsignedLeb128, List.cons_append, decodeLeb128Loop_cons_of_continue (by omega)
        (fun e he => by have := hend e he; omega) (not_toNat_or_0x80_le c),
      setWidth_or_0x80_and_0x7f, ih (by decide) _ rest (by omega)
        (fun e he => by have := hend e he; omega),
      decodeLeb128Loop_cons_of_stop (by omega) (fun e he => by have := hend e he; omega)
        (by decide),
      decodeLeb128Loop_cons_of_stop (by omega) (fun e he => by have := hend e he; omega) hc]
    simp only [Bool.false_and, Bool.false_eq_true, if_false, Option.map_some]
    simp
    omega

end Decode

/-- An unsigned encoding of an `N`-bit `x`, padded by `n` bytes as `UpdateUnsignedLeb128` pads
it, decodes to `x` and ends after the padding, if it stays within `maxBytes N`. -/
theorem decodeLeb128Helper_padUnsignedLeb128 {N : Nat} (hN : 7 ≤ N) (hN64 : N ≤ 64)
    (x : BitVec N) {init : List (BitVec 8)} {c : BitVec 8}
    (hx : encodeUnsignedLeb128 (x.setWidth 64) = init ++ [c])
    (hinit : ∀ b ∈ init, ¬b.toNat ≤ 0x7f) (hc : c.toNat ≤ 0x7f) (n : Nat)
    (hn : init.length + 1 + n ≤ maxBytes N) (rest : List (BitVec 8)) :
    decodeLeb128Helper N false (init ++ padUnsignedLeb128 c n ++ rest) none =
      some (x, init.length + 1 + n) := by
  obtain ⟨result, h⟩ : ∃ result', ∀ rest, decodeLeb128Loop N false none 0 0 (init ++ rest) =
      decodeLeb128Loop N false none (0 + init.length) result' rest :=
    decodeLeb128Loop_append_of_continue hinit 0 (by omega) (by simp)
  -- the unpadded encoding decodes to `x` through the same prefix
  have henc : decodeLeb128Helper N false (encodeUnsignedLeb128 (x.setWidth 64) ++ rest) none =
      some (x, (encodeUnsignedLeb128 (x.setWidth 64)).length) :=
    decodeLeb128Helper_encodeUnsignedLeb128_setWidth hN hN64 x rest (by simp)
  rw [hx, List.append_assoc, List.singleton_append] at henc
  unfold decodeLeb128Helper at henc ⊢
  rw [h, Nat.zero_add] at henc
  rw [List.append_assoc, h, Nat.zero_add,
    decodeLeb128Loop_padUnsignedLeb128 n hc result rest (by omega) (by simp), henc]
  simp

/-! ### Update -/

/-- `UpdateUnsignedLeb128` over an encoding of `oldValue`, with a `newValue` whose encoding is no
longer: the bytes decode to `newValue` and end where the old encoding ended, and the bytes after
it are untouched. -/
theorem decodeUnsignedLeb128_updateUnsignedLeb128 (oldValue newValue : BitVec 32)
    (rest : List (BitVec 8))
    (hsize : unsignedLeb128Size (newValue.setWidth 64) ≤
      unsignedLeb128Size (oldValue.setWidth 64)) :
    ∃ dest, updateUnsignedLeb128 (encodeUnsignedLeb128 (oldValue.setWidth 64) ++ rest)
        newValue = some dest ∧
      decodeUnsignedLeb128 32 dest =
        some (newValue, (encodeUnsignedLeb128 (oldValue.setWidth 64)).length) ∧
      dest.drop (encodeUnsignedLeb128 (oldValue.setWidth 64)).length = rest := by
  obtain ⟨init, c, hnew, hinit, hc⟩ := encodeUnsignedLeb128_eq_concat (newValue.setWidth 64)
  have hlen : init.length + 1 ≤ (encodeUnsignedLeb128 (oldValue.setWidth 64)).length := by
    rw [← length_encodeUnsignedLeb128, ← length_encodeUnsignedLeb128, hnew] at hsize
    simpa using hsize
  have hold5 := length_encodeUnsignedLeb128_setWidth_le oldValue
  obtain ⟨n, hn⟩ : ∃ n, (encodeUnsignedLeb128 (oldValue.setWidth 64)).length =
      init.length + 1 + n := ⟨_, (Nat.add_sub_of_le hlen).symm⟩
  -- the new encoding over the old one, then the loop pads it to the old end
  have hwrite : writeUnsignedLeb128 (encodeUnsignedLeb128 (oldValue.setWidth 64) ++ rest)
      (newValue.setWidth 64) =
      init ++ c :: ((encodeUnsignedLeb128 (oldValue.setWidth 64)).drop (init.length + 1) ++ rest) := by
    rw [writeUnsignedLeb128, hnew, List.length_append, List.length_singleton,
      List.drop_append_of_le_length hlen, List.append_assoc, List.singleton_append]
  have hloop := updateUnsignedLeb128Loop_append n init c
    ((encodeUnsignedLeb128 (oldValue.setWidth 64)).drop (init.length + 1) ++ rest)
    (by simp only [List.length_append, List.length_drop]; omega)
  rw [List.drop_left' (by rw [List.length_drop]; omega), ← hn] at hloop
  have hdec : decodeUnsignedLeb128 32 (encodeUnsignedLeb128 (oldValue.setWidth 64) ++ rest) =
      some (oldValue, (encodeUnsignedLeb128 (oldValue.setWidth 64)).length) :=
    decodeLeb128Helper_encodeUnsignedLeb128_setWidth (by decide) (by decide) oldValue rest
      (by simp)
  refine ⟨init ++ padUnsignedLeb128 c n ++ rest, ?_, ?_, ?_⟩
  · rw [updateUnsignedLeb128, hdec, Option.map_some, hnew, List.length_append,
      List.length_singleton, hwrite, hloop]
  · rw [hn]
    exact decodeLeb128Helper_padUnsignedLeb128 (by decide) (by decide) newValue hnew hinit hc n
      (by omega) rest
  · rw [List.drop_left' (by simp only [List.length_append, length_padUnsignedLeb128]; omega)]

/-- `1` over the two bytes of `128`: `0x81 0x00`. -/
example : updateUnsignedLeb128 [0x80, 0x01, 0x33] 1 = some [0x81, 0x00, 0x33] := by
  decide +kernel

/-! ### Reverse search -/

/-- From `k` bytes into a run of non-terminators that follows a terminator `b`, the loop steps
back to the byte after `b`. -/
theorem reverseSearchUnsignedLeb128Loop_of_continue (pre : List (BitVec 8)) {b : BitVec 8}
    (hb : b.toNat ≤ 0x7f) {init : List (BitVec 8)} (hinit : ∀ x ∈ init, ¬x.toNat ≤ 0x7f)
    (post : List (BitVec 8)) :
    ∀ k ≤ init.length, reverseSearchUnsignedLeb128Loop (pre ++ b :: (init ++ post))
      (pre.length + 1 + k) = some (pre.length + 1) := by
  intro k hk
  induction k with
  | zero =>
    rw [Nat.add_zero, reverseSearchUnsignedLeb128Loop, List.getElem?_append_right le_rfl,
      Nat.sub_self, List.getElem?_cons_zero]
    simp [isLeb128Terminator, hb]
  | succ k ih =>
    have hk' : k < init.length := by omega
    rw [show pre.length + 1 + (k + 1) = pre.length + 1 + k + 1 by omega,
      reverseSearchUnsignedLeb128Loop, List.getElem?_append_right (by omega),
      show pre.length + 1 + k - pre.length = k + 1 by omega, List.getElem?_cons_succ,
      List.getElem?_append_left hk', List.getElem?_eq_getElem hk']
    simp only [isLeb128Terminator, hinit _ (List.getElem_mem hk'), decide_false,
      Bool.false_eq_true, if_false]
    exact ih (by omega)

/-- From the end of an encoding that follows another, `ReverseSearchUnsignedLeb128` finds where
it starts. -/
theorem reverseSearchUnsignedLeb128_append (pre : List (BitVec 8)) (u v : BitVec 64)
    (post : List (BitVec 8)) :
    reverseSearchUnsignedLeb128 (pre ++ encodeUnsignedLeb128 u ++ encodeUnsignedLeb128 v ++ post)
        (pre.length + (encodeUnsignedLeb128 u).length + (encodeUnsignedLeb128 v).length) =
      some (pre.length + (encodeUnsignedLeb128 u).length) := by
  obtain ⟨initU, lastU, hu, -, hlastU⟩ := encodeUnsignedLeb128_eq_concat u
  obtain ⟨initV, lastV, hv, hinitV, -⟩ := encodeUnsignedLeb128_eq_concat v
  have h := reverseSearchUnsignedLeb128Loop_of_continue (pre ++ initU) hlastU hinitV
    (lastV :: post) initV.length le_rfl
  rw [reverseSearchUnsignedLeb128, hu, hv]
  simp only [List.length_append, List.length_singleton, List.append_assoc, List.cons_append,
    List.nil_append] at h ⊢
  rw [show pre.length + (initU.length + 1) + (initV.length + 1) - 1 =
    pre.length + initU.length + 1 + initV.length by omega, h, Nat.add_assoc]

example : reverseSearchUnsignedLeb128 [0x05, 0x80, 0x01] 3 = some 1 := by decide

/-- `UpdateUnsignedLeb128` keeps the length of the encoding: over the encoding of a `uint32_t`
`oldValue` followed by anything, with a `newValue` of no larger `UnsignedLeb128Size`, the bytes
decode to `newValue` and the decoder ends where the old encoding ended, with the bytes after it
kept; and `ReverseSearchUnsignedLeb128` from the end of the last of two consecutive encodings,
after any bytes, returns the start of the last one. -/
theorem updateUnsignedLeb128_keepsLength :
    (∀ (oldValue newValue : BitVec 32) (rest : List (BitVec 8)),
      unsignedLeb128Size (newValue.setWidth 64) ≤ unsignedLeb128Size (oldValue.setWidth 64) →
      ∃ dest, updateUnsignedLeb128 (encodeUnsignedLeb128 (oldValue.setWidth 64) ++ rest)
          newValue = some dest ∧
        decodeUnsignedLeb128 32 dest =
          some (newValue, (encodeUnsignedLeb128 (oldValue.setWidth 64)).length) ∧
        dest.drop (encodeUnsignedLeb128 (oldValue.setWidth 64)).length = rest) ∧
    (∀ (pre : List (BitVec 8)) (u v : BitVec 64) (post : List (BitVec 8)),
      reverseSearchUnsignedLeb128
          (pre ++ encodeUnsignedLeb128 u ++ encodeUnsignedLeb128 v ++ post)
          (pre.length + (encodeUnsignedLeb128 u).length + (encodeUnsignedLeb128 v).length) =
        some (pre.length + (encodeUnsignedLeb128 u).length)) :=
  ⟨fun oldValue newValue rest hsize =>
      decodeUnsignedLeb128_updateUnsignedLeb128 oldValue newValue rest hsize,
    reverseSearchUnsignedLeb128_append⟩

end Art
