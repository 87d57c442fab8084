import Mathlib

-- Bit strings packed into bytes, most significant bit first.
namespace Bits

abbrev Byte := BitVec 8
instance instTransOrdBytes : Std.TransOrd (List Byte) := inferInstance
def bitAt (bytes : List Byte) (index : Nat) : Bool := (bytes.getD (index / 8) 0).getMsbD (index % 8)
def bytesForBits (count : Nat) : Nat := (count + 7) / 8
def packByte (bit : Nat → Bool) : Byte := BitVec.ofBoolListBE [bit 0,bit 1,bit 2,bit 3,bit 4,bit 5,bit 6,bit 7]

theorem packByte_bit (bit : Nat → Bool) (within : offset < 8) : (packByte bit).getMsbD offset = bit offset := by
  rw [packByte,BitVec.getMsbD_ofBoolListBE]
  interval_cases offset <;> rfl

theorem eq_packByte (same : ∀ offset < 8, byte.getMsbD offset = bit offset) : byte = packByte bit :=
  BitVec.eq_of_getMsbD_eq fun offset within => by rw [same offset within,packByte_bit bit within]

def pack (bits : List Bool) : List Byte :=
  (List.range (bytesForBits bits.length)).map fun byte => packByte fun offset => bits.getD (8 * byte + offset) false

@[simp] theorem bitAt_nil (index : Nat) : bitAt [] index = false := by simp [bitAt]

variable {index : Nat}

theorem bitAt_of_ge (past : 8 * bytes.length ≤ index) : bitAt bytes index = false := by
  have beyond : bytes.length ≤ index / 8 := by omega
  rw [bitAt,List.getD_eq_default _ _ beyond]
  exact BitVec.getMsbD_zero

theorem bitAt_split (bytes : List Byte) (byte : Nat) (within : offset < 8) :
    bitAt bytes (8 * byte + offset) = (bytes.getD byte 0).getMsbD offset := by
  have quotient : (8 * byte + offset) / 8 = byte := by omega
  have remainder : (8 * byte + offset) % 8 = offset := by omega
  simp only [bitAt,quotient,remainder]

theorem bytes_ext (size : one.length = two.length) (same : ∀ index, bitAt one index = bitAt two index) : one = two := by
  apply List.ext_getElem size
  intro byte inOne inTwo
  apply BitVec.eq_of_getMsbD_eq
  intro offset within
  have bit := same (8 * byte + offset)
  rwa [bitAt_split _ _ within,bitAt_split _ _ within,List.getD_eq_getElem _ _ inOne, List.getD_eq_getElem _ _ inTwo] at bit

@[simp] theorem pack_length (bits : List Bool) : (pack bits).length = bytesForBits bits.length := by
  simp [pack]

@[simp] theorem bitAt_pack (bits : List Bool) (index : Nat) : bitAt (pack bits) index = bits.getD index false := by
  by_cases inside : index / 8 < bytesForBits bits.length
  · have position : 8 * (index / 8) + index % 8 = index := by omega
    have within : index % 8 < 8 := by omega
    rw [bitAt,List.getD_eq_getElem _ _ (by rwa [pack_length])]
    simp [pack,packByte_bit _ within,position]
  · have beyond : bits.length ≤ index := by unfold bytesForBits at inside; omega
    rw [bitAt_of_ge (by rw [pack_length]; omega),List.getD_eq_default _ _ beyond]

def bitsOf (bytes : List Byte) : List Bool := (List.range (8 * bytes.length)).map (bitAt bytes)
@[simp] theorem bitsOf_length (bytes : List Byte) : (bitsOf bytes).length = 8 * bytes.length := by simp [bitsOf]

theorem bitsOf_getD (bytes : List Byte) (index : Nat) : (bitsOf bytes).getD index false = bitAt bytes index := by
  by_cases inside : index < 8 * bytes.length
  · rw [List.getD_eq_getElem _ _ (by simpa using inside)]
    simp [bitsOf]
  · rw [List.getD_eq_default _ _ (by rw [bitsOf_length]; omega),bitAt_of_ge (by omega)]

variable {bits : List Bool}

theorem eq_pack (size : bytes.length = bytesForBits bits.length)
    (same : ∀ index, bitAt bytes index = bits.getD index false) : bytes = pack bits :=
  bytes_ext (by rw [size,pack_length]) fun index => by rw [same,bitAt_pack]

@[simp] theorem pack_bitsOf (bytes : List Byte) : pack (bitsOf bytes) = bytes :=
  (eq_pack (by rw [bitsOf_length,bytesForBits]; omega) fun index => (bitsOf_getD bytes index).symm).symm

theorem bitAt_append (one two : List Byte) (index : Nat) : bitAt (one ++ two) index =
      if index < 8 * one.length then bitAt one index else bitAt two (index - 8 * one.length) := by
  unfold bitAt
  split
  · rename_i before
    rw [List.getD_append _ _ _ _ (by omega)]
  · rename_i after
    have quotient : index / 8 - one.length = (index - 8 * one.length) / 8 := by omega
    have remainder : index % 8 = (index - 8 * one.length) % 8 := by omega
    rw [List.getD_append_right _ _ _ _ (by omega),quotient,remainder]

theorem bitsOf_append (one two : List Byte) : bitsOf (one ++ two) = bitsOf one ++ bitsOf two := by
  refine List.ext_getElem (by simp [Nat.mul_add]) fun index inWhole inParts => ?_
  have whole := bitsOf_getD (one ++ two) index
  rw [List.getD_eq_getElem _ _ inWhole,bitAt_append] at whole
  rw [whole]
  split
  · rename_i inOne
    rw [List.getElem_append_left (by simpa using inOne)]
    simp [bitsOf]
  · rename_i inTwo
    rw [List.getElem_append_right (by simpa using inTwo)]
    simp [bitsOf]

theorem bitsOf_injective : Function.Injective bitsOf := fun one two same => by
  rw [← pack_bitsOf one,same,pack_bitsOf]

theorem bytes_begin (begins : bitsOf one <+: bitsOf two) : one <+: two := by
  have short : one.length ≤ two.length := by
    have size := begins.length_le
    simp only [bitsOf_length] at size
    omega
  have parts : bitsOf two = bitsOf (two.take one.length) ++ bitsOf (two.drop one.length) := by
    rw [← bitsOf_append,List.take_append_drop]
  have size : (bitsOf one).length = (bitsOf (two.take one.length)).length := by simp [short]
  have cut : bitsOf one = bitsOf (two.take one.length) := by
    rw [parts] at begins
    exact (List.prefix_of_prefix_length_le begins (List.prefix_append _ _) (Nat.le_of_eq size)).eq_of_length size
  exact List.prefix_iff_eq_take.mpr (bitsOf_injective cut)

theorem bitAt_cons (byte : Byte) (rest : List Byte) (index : Nat) :
    bitAt (byte::rest) index = if index < 8 then byte.getMsbD index else bitAt rest (index - 8) := by
  have split := bitAt_append [byte] rest index
  simp only [List.singleton_append,List.length_singleton,Nat.mul_one] at split
  rw [split]
  split
  · rename_i inside
    rw [bitAt,Nat.div_eq_of_lt inside,Nat.mod_eq_of_lt inside]
    rfl
  · rfl

variable {count : Nat}

theorem bitAt_take : bitAt (bytes.take count) index = (bitAt bytes index && decide (index / 8 < count)) := by
  simp only [bitAt,List.getD_eq_getElem?_getD,List.getElem?_take]
  split <;> simp_all

-- Single-byte facts: the bits a shifted pair, a mask and a leading-zero count show.
section
variable {high low byte : Byte} {shift offset kept : Nat}

theorem shifted_pair_bit (within : offset < 8) (partly : shift ≤ 8) : ((high <<< shift) ||| (low >>> (8 - shift))).getMsbD offset =
      if offset + shift < 8 then high.getMsbD (offset + shift) else low.getMsbD (offset + shift - 8) := by
  rw [BitVec.getMsbD_or,BitVec.getMsbD_shiftLeft,BitVec.getMsbD_ushiftRight]
  split
  · rename_i inHigh
    have early : offset < 8 - shift := by omega
    simp [early]
  · rename_i inLow
    have late : ¬offset < 8 - shift := by omega
    have position : offset - (8 - shift) = offset + shift - 8 := by omega
    rw [BitVec.getMsbD_of_ge _ _ (by omega : 8 ≤ offset + shift),position]
    simp [late,within]

theorem masked_bit (partly : kept ≤ 8) :
    (byte &&& (0xFF#8 <<< (8 - kept))).getMsbD offset = (byte.getMsbD offset && decide (offset < kept)) := by
  have ones : (0xFF#8).getMsbD (offset + (8 - kept)) = decide (offset + (8 - kept) < 8) := BitVec.getMsbD_allOnes
  have same : offset + (8 - kept) < 8 ↔ offset < kept := by omega
  rw [BitVec.getMsbD_and,BitVec.getMsbD_shiftLeft,ones]
  simp only [same]

theorem masked_eq (partly : kept ≤ 8) : one &&& (0xFF#8 <<< (8 - kept)) = two &&& (0xFF#8 <<< (8 - kept)) ↔
      ∀ offset < kept, one.getMsbD offset = two.getMsbD offset := by
  constructor
  · intro same offset below
    have bit := congrArg (fun byte => BitVec.getMsbD byte offset) same
    simpa [-BitVec.getMsbD_and,masked_bit partly,below] using bit
  · intro same
    refine BitVec.eq_of_getMsbD_eq fun offset _ => ?_
    rw [masked_bit partly,masked_bit partly]
    by_cases below : offset < kept
    · rw [same offset below]
    · simp [below]

theorem low_mask_zero (partly : kept ≤ 8) : byte &&& (0xFF#8 >>> kept) = 0 ↔ ∀ offset, kept ≤ offset → byte.getMsbD offset = false := by
  have ones (index : Nat) : (0xFF#8).getMsbD index = decide (index < 8) := BitVec.getMsbD_allOnes
  constructor
  · intro clear offset past
    by_cases within : offset < 8
    · have bit := congrArg (fun word => BitVec.getMsbD word offset) clear
      have late : ¬offset < kept := by omega
      have room : offset - kept < 8 := by omega
      simpa [BitVec.getMsbD_and,BitVec.getMsbD_ushiftRight,within,late,ones,room] using bit
    · exact BitVec.getMsbD_of_ge _ _ (by omega)
  · intro clear
    apply BitVec.eq_of_getMsbD_eq
    intro offset within
    by_cases late : kept ≤ offset
    · simp [clear offset late]
    · have early : offset < kept := by omega
      simp [BitVec.getMsbD_and,BitVec.getMsbD_ushiftRight,early]
end

def leadingZeros (byte : Byte) : Nat := byte.clz.toNat

theorem leadingZeros_spec (byte : Byte) : leadingZeros byte ≤ 8 ∧ (∀ offset < leadingZeros byte, byte.getMsbD offset = false) ∧
      (leadingZeros byte < 8 → byte.getMsbD (leadingZeros byte) = true) := by
  revert byte
  decide +kernel

theorem selected_bit (byte : Byte) (offset : Nat) (within : offset < 8) : ((byte >>> (7 - offset)) &&& 1 == 1) = byte.getMsbD offset := by
  revert byte offset
  decide +kernel

theorem getD_take : (bits.take count).getD index false = (bits.getD index false && decide (index < count)) := by
  simp only [List.getD_eq_getElem?_getD,List.getElem?_take]
  split <;> simp_all

theorem getD_drop : (bits.drop start).getD index false = bits.getD (start + index) false := by
  simp only [List.getD_eq_getElem?_getD,List.getElem?_drop]

-- Two bit strings show the same bits below a position.
def Agree (one two : List Bool) (count : Nat) : Prop := ∀ index < count, one.getD index false = two.getD index false

theorem Agree.extend (agree : Agree one two count)
    (next : ∀ offset < more, one.getD (count + offset) false = two.getD (count + offset) false) : Agree one two (count + more) := by
  intro index below
  by_cases before : index < count
  · exact agree index before
  · have shown := next (index - count) (by omega)
    rwa [Nat.add_sub_cancel' (by omega)] at shown

theorem isPrefix_iff_agree (short : two.length ≤ one.length) : two <+: one ↔ Agree one two two.length := by
  rw [List.prefix_iff_eq_take]
  constructor
  · intro same index below
    rw [same,getD_take]
    simp [below]
  · intro agree
    refine List.ext_getElem (by simp [short]) fun index inTwo inOne => ?_
    have bit := agree index inTwo
    rw [List.getD_eq_getElem _ _ (by omega),List.getD_eq_getElem _ _ inTwo] at bit
    rw [List.getElem_take,bit]

def leBytes : Nat → Nat → List Byte
  | 0,_ => []
  | width+1,number => BitVec.ofNat 8 number::leBytes width (number / 256)

def fromLe : List Byte → Nat
  | [] => 0
  | low::rest => low.toNat + 256 * fromLe rest

@[simp] theorem leBytes_length (width number : Nat) : (leBytes width number).length = width := by
  induction width generalizing number with
  | zero => rfl
  | succ width ih => simp [leBytes,ih]

theorem fromLe_leBytes (width number : Nat) : fromLe (leBytes width number) = number % 256 ^ width := by
  induction width generalizing number with
  | zero => simp [leBytes,fromLe,Nat.mod_one]
  | succ width ih =>
    have scale : 256 ^ (width + 1) = 256 * 256 ^ width := by rw [Nat.pow_succ,Nat.mul_comm]
    rw [leBytes,fromLe,ih,BitVec.toNat_ofNat,scale,Nat.mod_mul]
end Bits
