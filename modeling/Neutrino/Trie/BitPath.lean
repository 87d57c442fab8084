import Neutrino.Library.Bits
import Neutrino.Library.Checks
import Neutrino.Library.Patricia

-- Bit paths of the state trie: a bit count and the bytes that pack the bits.
namespace Neutrino.StateTrie
open Checks Bits

inductive TrieError where
  | prefixCollision
  | truncatedNode
  | trailingNodeBytes
  | invalidNodeTag (tag : Option Byte)
  | nonCanonicalBitPath
  | missingRetainedEntry
  | retainedHashMismatch
  deriving Repr,DecidableEq

-- Where the source would panic: a failed assertion or expect, an index past the end,
-- or a bit length that leaves 32 bits.
inductive Panic where
  | keyTooLong
  | bitIndex
  | prefixLength
  | suffixStart
  | byteIndex
  | lengthOverflow
  | missingNode
  | malformedNode (error : TrieError)
  | missingValue
  deriving Repr,DecidableEq

-- A walk can also go on for ever; its model reports that it ran out of steps.
inductive Fault where
  | panicked (reason : Panic)
  | refused (error : TrieError)
  | diverged
  deriving Repr,DecidableEq

structure BitPath where
  bitLen : BitVec 32
  bytes : List Byte
  deriving Repr,DecidableEq

def maskPadding (bytes : List Byte) (bitLen : Nat) : List Byte :=
  if bitLen % 8 = 0 then bytes
  else bytes.modify (bytes.length - 1) fun last => last &&& (0xFF#8 <<< (8 - bitLen % 8))

def hasNonzeroPadding (bitLen : Nat) (bytes : List Byte) : Bool :=
  if bitLen % 8 = 0 then false
  else bytes.getLast?.any fun last => last &&& (0xFF#8 >>> (bitLen % 8)) != 0

namespace BitPath

def length (path : BitPath) : Nat := path.bitLen.toNat
def empty : BitPath := ⟨0,[]⟩

def fromOwnedKey (bytes : List Byte) : Except Fault BitPath := do
  ensure (bytes.length * 8 < 2 ^ 32) (.panicked .keyTooLong)
  return ⟨BitVec.ofNat 32 (bytes.length * 8),bytes⟩

def forKey (key : List Byte) : Except Fault BitPath := do
  ensure (key.length < 2 ^ 32) (.panicked .keyTooLong)
  fromOwnedKey (leBytes 4 key.length ++ key)

def single (bit : Bool) : BitPath := ⟨1,[(if bit then 1#8 else 0#8) <<< 7]⟩

section
variable (path : BitPath)

def byteAt (index : Nat) : Except Fault Byte := required path.bytes[index]? (.panicked .byteIndex)

def leadingBytes (count : Nat) : Except Fault (List Byte) := do
  ensure (count ≤ path.bytes.length) (.panicked .byteIndex)
  return path.bytes.take count

def bit (index : Nat) : Except Fault Bool := do
  ensure (index < path.length) (.panicked .bitIndex)
  let byte ← path.byteAt (index / 8)
  return (byte >>> (7 - index % 8)) &&& 1 == 1

def prefixTo (len : Nat) : Except Fault BitPath := do
  ensure (len ≤ path.length) (.panicked .prefixLength)
  if len = 0 then return empty
  let bytes ← path.leadingBytes (bytesForBits len)
  return ⟨BitVec.ofNat 32 len,maskPadding bytes len⟩

def window (start shift index : Nat) : Except Fault Byte := do
  let high ← path.byteAt (start + index)
  if shift = 0 then return high
  let low := (path.bytes[start + index + 1]?).elim 0#8 fun byte => byte >>> (8 - shift)
  return (high <<< shift) ||| low

def suffix (start : Nat) : Except Fault BitPath := do
  ensure (start ≤ path.length) (.panicked .suffixStart)
  let rest := path.length - start
  if rest = 0 then return empty
  let bytes ← (List.range (bytesForBits rest)).mapM (path.window (start / 8) (start % 8))
  return ⟨BitVec.ofNat 32 rest,maskPadding bytes rest⟩
end

def firstMismatch (path other : BitPath) : Nat → Nat → Except Fault (Option Nat)
  | 0,_ => return none
  | count+1,index => do
    let one ← path.byteAt index
    let two ← other.byteAt index
    if one = two then firstMismatch path other count (index + 1)
    else return some (index * 8 + leadingZeros (one ^^^ two))

def commonPrefixLen (path other : BitPath) : Except Fault Nat := do
  let most := min path.length other.length
  if most = 0 then return 0
  match ← firstMismatch path other (most / 8) 0 with
  | some found => return found
  | none =>
    if most % 8 = 0 then return most
    let one ← path.byteAt (most / 8)
    let two ← other.byteAt (most / 8)
    return most / 8 * 8 + min (leadingZeros (one ^^^ two)) (most % 8)

def windowsMatch (path : BitPath) (start shift : Nat) (other : BitPath) : Nat → Nat → Except Fault Bool
  | 0,_ => return true
  | count+1,index => do
    let here ← path.window start shift index
    let there ← other.byteAt index
    if here = there then windowsMatch path start shift other count (index + 1) else return false

def matchesAt (path : BitPath) (offset : Nat) (other : BitPath) : Except Fault Bool := do
  if 2 ^ 32 ≤ offset + other.length then return false
  if path.length < offset + other.length then return false
  let full := other.length / 8
  if !(← path.windowsMatch (offset / 8) (offset % 8) other full 0) then return false
  let tail := other.length % 8
  if tail = 0 then return true
  let here ← path.window (offset / 8) (offset % 8) full
  let there ← other.byteAt full
  let mask := 0xFF#8 <<< (8 - tail)
  return here &&& mask == there &&& mask

-- Each byte spills over into the room left and carries its low bits into the next.
def spill (shift : Nat) : Byte → List Byte → List Byte
  | last,[] => [last]
  | last,byte::rest => (last ||| (byte >>> shift))::spill shift (byte <<< (8 - shift)) rest

def joinBytes (head : List Byte) (shift : Nat) (rest : List Byte) : Except Fault (List Byte) := do
  if shift = 0 then return head ++ rest
  let last ← required head.getLast? (.panicked .byteIndex)
  return head.dropLast ++ spill shift last rest

def concat (path tail : BitPath) : Except Fault BitPath := do
  if path.length = 0 then return tail
  if tail.length = 0 then return path
  let total := path.length + tail.length
  ensure (total < 2 ^ 32) (.panicked .lengthOverflow)
  let front ← path.leadingBytes (bytesForBits path.length)
  let head := maskPadding front path.length
  let rest ← tail.leadingBytes (bytesForBits tail.length)
  let bytes ← joinBytes head (path.length % 8) rest
  return ⟨BitVec.ofNat 32 total,maskPadding (bytes.take (bytesForBits total)) total⟩

def encode (path : BitPath) : List Byte := leBytes 4 path.length ++ path.bytes
def ofBits (bits : List Bool) : BitPath := ⟨BitVec.ofNat 32 bits.length,pack bits⟩
end BitPath

theorem maskPadding_length (bytes : List Byte) (bitLen : Nat) : (maskPadding bytes bitLen).length = bytes.length := by
  unfold maskPadding
  split <;> simp

theorem bitAt_maskPadding (size : bytes.length = bytesForBits bitLen) (index : Nat) :
    bitAt (maskPadding bytes bitLen) index = (bitAt bytes index && decide (index < bitLen)) := by
  unfold bytesForBits at size
  unfold maskPadding
  split
  · rename_i whole
    by_cases inside : index < bitLen
    · simp [inside]
    · rw [bitAt_of_ge (by omega),Bool.false_and]
  · rename_i ragged
    simp only [bitAt,List.getD_eq_getElem?_getD,List.getElem?_modify]
    by_cases last : bytes.length - 1 = index / 8
    · have present : index / 8 < bytes.length := by omega
      have same : index % 8 < bitLen % 8 ↔ index < bitLen := by omega
      simp [last,List.getElem?_eq_getElem present,masked_bit (by omega : bitLen % 8 ≤ 8),same]
    · by_cases present : index / 8 < bytes.length
      · have inside : index < bitLen := by omega
        simp [last,inside]
      · simp [last,List.getElem?_eq_none (by omega : bytes.length ≤ index / 8)]

@[simp] theorem maskPadding_pack (bits : List Bool) : maskPadding (pack bits) bits.length = pack bits := by
  refine bytes_ext (maskPadding_length _ _) fun index => ?_
  rw [bitAt_maskPadding (pack_length bits),bitAt_pack]
  by_cases inside : index < bits.length
  · simp [inside]
  · rw [List.getD_eq_default _ _ (by omega),Bool.false_and]

namespace BitPath

theorem eq_ofBits {bits : List Bool} {bytes : List Byte} (long : count = bits.length)
    (size : bytes.length = bytesForBits count) (same : ∀ index, bitAt bytes index = bits.getD index false) :
    (⟨BitVec.ofNat 32 count,bytes⟩ : BitPath) = ofBits bits := by
  subst long
  rw [ofBits,eq_pack size same]

section
variable {index : Nat}

theorem byteAt_ofBits (inside : index < bytesForBits bits.length) : (ofBits bits).byteAt index = .ok ((pack bits).getD index 0) := by
  have present : index < (pack bits).length := by rwa [pack_length]
  simp [byteAt,ofBits,List.getElem?_eq_getElem present]

variable {count : Nat}

theorem leadingBytes_ofBits (inside : count ≤ bytesForBits bits.length) :
    (ofBits bits).leadingBytes count = .ok ((pack bits).take count) := by
  have room : count ≤ (ofBits bits).bytes.length := by rwa [ofBits,pack_length]
  rw [leadingBytes,ensure_pos room,ok_bind]
  rfl

theorem window_ofBits (inside : start / 8 + index < bytesForBits bits.length) : (ofBits bits).window (start / 8) (start % 8) index =
      .ok (packByte fun offset => bits.getD (start + 8 * index + offset) false) := by
  rw [window,byteAt_ofBits inside,ok_bind]
  by_cases aligned : start % 8 = 0
  · rw [if_pos aligned,pure_ok]
    refine eq_packByte fun offset within => ?_
    rw [← bitAt_split _ _ within,bitAt_pack]
    congr 1
    omega
  · have next : (pack bits)[start / 8 + index + 1]?.elim 0#8 (fun byte => byte >>> (8 - start % 8)) =
        (pack bits).getD (start / 8 + index + 1) 0 >>> (8 - start % 8) := by
      rw [List.getD_eq_getElem?_getD]
      cases (pack bits)[start / 8 + index + 1]? <;> simp
    rw [if_neg aligned,pure_ok]
    refine eq_packByte fun offset within => ?_
    rw [show (ofBits bits).bytes = pack bits from rfl,next,shifted_pair_bit within (by omega)]
    split
    · rw [← bitAt_split _ _ (by omega),bitAt_pack]
      congr 1
      omega
    · rw [← bitAt_split _ _ (by omega),bitAt_pack]
      congr 1
      omega

variable {offset : Nat}

theorem packed_bit (byte : Nat) (within : offset < 8) : ((pack bits).getD byte 0).getMsbD offset = bits.getD (8 * byte + offset) false := by
  rw [← bitAt_split _ _ within,bitAt_pack]

theorem mismatch_bit (bits other : List Bool) (byte : Nat)
    (counted : leadingZeros ((pack bits).getD byte 0 ^^^ (pack other).getD byte 0) = zeros) :
    (∀ offset < zeros, bits.getD (8 * byte + offset) false = other.getD (8 * byte + offset) false) ∧
      (zeros < 8 → bits.getD (8 * byte + zeros) false ≠ other.getD (8 * byte + zeros) false) := by
  obtain ⟨most,clear,set⟩ := leadingZeros_spec ((pack bits).getD byte 0 ^^^ (pack other).getD byte 0)
  rw [counted] at most clear set
  constructor
  · intro offset inside
    have bit := clear offset inside
    rw [BitVec.getMsbD_xor,packed_bit _ (by omega),packed_bit _ (by omega)] at bit
    simpa using bit
  · intro inside
    have bit := set inside
    rw [BitVec.getMsbD_xor,packed_bit _ inside,packed_bit _ inside] at bit
    simpa using bit

theorem firstMismatch_ofBits (bits other : List Bool) (inOne : 8 * (index + count) ≤ bits.length)
    (inTwo : 8 * (index + count) ≤ other.length) (before : Agree bits other (8 * index)) :
    ∃ result, (ofBits bits).firstMismatch (ofBits other) count index = .ok result ∧
      (result = none → Agree bits other (8 * (index + count))) ∧
      ∀ found, result = some found → found < 8 * (index + count) ∧ Agree bits other found ∧
        bits.getD found false ≠ other.getD found false := by
  induction count generalizing index with
  | zero => exact ⟨none,rfl,fun _ => before,nofun⟩
  | succ count ih =>
    have one : index < bytesForBits bits.length := by unfold bytesForBits; omega
    have two : index < bytesForBits other.length := by unfold bytesForBits; omega
    rw [firstMismatch,byteAt_ofBits one,ok_bind,byteAt_ofBits two,ok_bind]
    by_cases same : (pack bits).getD index 0 = (pack other).getD index 0
    · have through : Agree bits other (8 * (index + 1)) := before.extend fun offset within => by
        rw [← packed_bit _ within,← packed_bit _ within,same]
      rw [if_pos same,Nat.add_comm count 1,← Nat.add_assoc]
      exact ih (by omega) (by omega) through
    · obtain ⟨agree,differ⟩ := mismatch_bit bits other index rfl
      have within : leadingZeros ((pack bits).getD index 0 ^^^ (pack other).getD index 0) < 8 := by
        by_contra all
        exact same (BitVec.eq_of_getMsbD_eq fun offset inside => by
          rw [packed_bit _ inside,packed_bit _ inside,agree offset (by omega)])
      refine ⟨some _,by rw [if_neg same]; rfl,nofun,?_⟩
      rintro found ⟨⟩
      rw [Nat.mul_comm index]
      exact ⟨by omega,before.extend agree,differ within⟩

theorem windowsMatch_ofBits (bits other : List Bool)
    (inOne : offset + 8 * (index + count) ≤ bits.length) (inTwo : 8 * (index + count) ≤ other.length)
    (before : Agree (bits.drop offset) other (8 * index)) :
    ∃ result, (ofBits bits).windowsMatch (offset / 8) (offset % 8) (ofBits other) count index = .ok result ∧
      (result = true ↔ Agree (bits.drop offset) other (8 * (index + count))) := by
  induction count generalizing index with
  | zero => exact ⟨true,rfl,by simpa using before⟩
  | succ count ih =>
    have one : offset / 8 + index < bytesForBits bits.length := by unfold bytesForBits; omega
    have two : index < bytesForBits other.length := by unfold bytesForBits; omega
    rw [windowsMatch,window_ofBits one,ok_bind,byteAt_ofBits two,ok_bind]
    have shown {within : Nat} (inside : within < 8) :
        (packByte fun within => bits.getD (offset + 8 * index + within) false).getMsbD within =
          (bits.drop offset).getD (8 * index + within) false := by
      rw [packByte_bit _ inside,getD_drop,Nat.add_assoc]
    by_cases same : (packByte fun within => bits.getD (offset + 8 * index + within) false) = (pack other).getD index 0
    · have through : Agree (bits.drop offset) other (8 * (index + 1)) := before.extend fun within inside => by
        rw [← shown inside,same,packed_bit _ inside]
      rw [if_pos same,Nat.add_comm count 1,← Nat.add_assoc]
      exact ih (by omega) (by omega) through
    · refine ⟨false,by rw [if_neg same]; rfl,by simp,fun agree => absurd ?_ same⟩
      exact BitVec.eq_of_getMsbD_eq fun within inside => by
        rw [shown inside,packed_bit _ inside,agree _ (by omega)]

theorem pack_last (ragged : bits.length % 8 ≠ 0) : (pack bits).getLast? = some ((pack bits).getD (bits.length / 8) 0) := by
  have count : bytesForBits bits.length = bits.length / 8 + 1 := by unfold bytesForBits; omega
  have present : bits.length / 8 < (pack bits).length := by rw [pack_length]; omega
  rw [List.getLast?_eq_getElem?,pack_length,count,Nat.add_sub_cancel,List.getElem?_eq_getElem present, List.getD_eq_getElem _ _ present]

theorem last_clear (past : bits.length % 8 ≤ offset) : ((pack bits).getD (bits.length / 8) 0).getMsbD offset = false := by
  by_cases within : offset < 8
  · rw [packed_bit _ within,List.getD_eq_default _ _ (by omega)]
  · exact BitVec.getMsbD_of_ge _ _ (by omega)

theorem spill_length (shift : Nat) (last : Byte) (rest : List Byte) : (spill shift last rest).length = rest.length + 1 := by
  induction rest generalizing last with
  | nil => rfl
  | cons byte rest ih => simp [spill,ih]

theorem bitAt_spill (partly : shift < 8) (clear : ∀ offset, shift ≤ offset → last.getMsbD offset = false) (index : Nat) :
    bitAt (spill shift last rest) index = if index < shift then last.getMsbD index else bitAt rest (index - shift) := by
  induction rest generalizing last index with
  | nil =>
    rw [spill,bitAt_cons,bitAt_nil,bitAt_nil]
    split
    · split
      · rfl
      · exact clear _ (by omega)
    · split
      · omega
      · rfl
  | cons byte rest ih =>
    have carried : ∀ offset, shift ≤ offset → (byte <<< (8 - shift)).getMsbD offset = false := fun offset past => by
      rw [BitVec.getMsbD_shiftLeft,BitVec.getMsbD_of_ge _ _ (by omega)]
    rw [spill,bitAt_cons,ih carried,BitVec.getMsbD_or,BitVec.getMsbD_ushiftRight,BitVec.getMsbD_shiftLeft,bitAt_cons]
    by_cases first : index < 8
    · by_cases used : index < shift
      · simp [first,used]
      · have inside : index - shift < 8 := by omega
        simp [first,used,inside,clear index (by omega)]
    · have later : ¬index < shift := by omega
      by_cases carry : index - 8 < shift
      · have inside : index - shift < 8 := by omega
        have position : index - 8 + (8 - shift) = index - shift := by omega
        simp [first,later,carry,inside,position]
      · have beyond : ¬index - shift < 8 := by omega
        have position : index - 8 - shift = index - shift - 8 := by omega
        simp [first,later,carry,beyond,position]
end
variable {bits other : List Bool} (short : bits.length < 2 ^ 32) (brief : other.length < 2 ^ 32)
include short

@[simp] theorem length_ofBits : (ofBits bits).length = bits.length := by
  simpa [length,ofBits] using short

include brief in
theorem ofBits_inj : ofBits bits = ofBits other ↔ bits = other := by
  refine ⟨fun same => ?_,congrArg ofBits⟩
  have size : bits.length = other.length := by
    rw [← length_ofBits short,same,length_ofBits brief]
  have bytes : pack bits = pack other := congrArg BitPath.bytes same
  refine List.ext_getElem size fun index inOne inTwo => ?_
  rw [← List.getD_eq_getElem _ false inOne,← List.getD_eq_getElem _ false inTwo,← bitAt_pack,bytes,bitAt_pack]

theorem bit_ofBits (inside : index < bits.length) : (ofBits bits).bit index = .ok (bits.getD index false) := by
  have present : index / 8 < bytesForBits bits.length := by unfold bytesForBits; omega
  rw [bit,ensure_pos (by rwa [length_ofBits short]),ok_bind,byteAt_ofBits present,ok_bind,
    selected_bit _ _ (Nat.mod_lt _ (by omega)),← bitAt_pack,bitAt]
  rfl

theorem prefixTo_ofBits {len : Nat} (inside : len ≤ bits.length) : (ofBits bits).prefixTo len = .ok (ofBits (bits.take len)) := by
  rw [prefixTo,ensure_pos (by rwa [length_ofBits short]),ok_bind]
  by_cases zero : len = 0
  · rw [if_pos zero,zero,List.take_zero]
    rfl
  · have room : bytesForBits len ≤ bytesForBits bits.length := by unfold bytesForBits; omega
    rw [if_neg zero,leadingBytes_ofBits room,ok_bind,pure_ok]
    refine eq_ofBits (by simp [inside]) (by simp [maskPadding_length,room]) fun index => ?_
    rw [bitAt_maskPadding (by simp [room]),bitAt_take,bitAt_pack,getD_take]
    by_cases before : index < len
    · have counted : index / 8 < bytesForBits len := by unfold bytesForBits; omega
      simp [before,counted]
    · simp [before]

theorem suffix_ofBits (inside : start ≤ bits.length) : (ofBits bits).suffix start = .ok (ofBits (bits.drop start)) := by
  rw [suffix,ensure_pos (by rwa [length_ofBits short]),ok_bind]
  simp only [length_ofBits short,← List.length_drop]
  by_cases none : (bits.drop start).length = 0
  · rw [if_pos none,List.length_eq_zero_iff.mp none]
    rfl
  · have shown : (List.range (bytesForBits (bits.drop start).length)).mapM
        ((ofBits bits).window (start / 8) (start % 8)) = .ok (pack (bits.drop start)) := by
      rw [mapM_ok fun index listed => window_ofBits ?_,pack]
      · simp [Nat.add_assoc]
      · have counted := List.mem_range.mp listed
        rw [List.length_drop] at counted none
        unfold bytesForBits at counted ⊢
        omega
    rw [if_neg none,shown,ok_bind,maskPadding_pack]
    rfl

include brief in
theorem commonPrefixLen_ofBits : (ofBits bits).commonPrefixLen (ofBits other) = .ok (Patricia.diverge bits other).1.length := by
  rw [commonPrefixLen]
  simp only [length_ofBits short,length_ofBits brief]
  generalize shorter : min bits.length other.length = most
  by_cases none : most = 0
  · rw [if_pos none,pure_ok]
    exact (Patricia.diverge_length (by omega) (by omega) (by simp) (by omega)).symm
  · have room : 8 * (0 + most / 8) ≤ min bits.length other.length := by omega
    obtain ⟨result,run,all,first⟩ := firstMismatch_ofBits bits other (Nat.le_trans room (Nat.min_le_left _ _))
      (Nat.le_trans room (Nat.min_le_right _ _)) (fun index below => by omega)
    rw [if_neg none,run,ok_bind]
    cases result with
    | some found =>
      obtain ⟨inside,agree,differ⟩ := first found rfl
      rw [pure_ok]
      exact (Patricia.diverge_length (by omega) (by omega) agree (.inr (.inr differ))).symm
    | none =>
      have agree := all rfl
      by_cases whole : most % 8 = 0
      · have count : 8 * (0 + most / 8) = most := by omega
        rw [count] at agree
        simp only [whole,if_true,pure_ok]
        exact (Patricia.diverge_length (by omega) (by omega) agree (by omega)).symm
      · have one : most / 8 < bytesForBits bits.length := by unfold bytesForBits; omega
        have two : most / 8 < bytesForBits other.length := by unfold bytesForBits; omega
        simp only [whole,if_false,byteAt_ofBits one,byteAt_ofBits two,ok_bind,pure_ok]
        obtain ⟨next,differ⟩ := mismatch_bit bits other (most / 8) rfl
        generalize leadingZeros ((pack bits).getD (most / 8) 0 ^^^ (pack other).getD (most / 8) 0) = zeros at next differ ⊢
        rw [Nat.zero_add] at agree
        rw [Nat.mul_comm (most / 8)]
        refine (Patricia.diverge_length (by omega) (by omega) (agree.extend fun offset below => next offset (by omega)) ?_).symm
        by_cases shown : zeros < most % 8
        · rw [Nat.min_eq_left (by omega)]
          exact .inr (.inr (differ (by omega)))
        · omega

include brief in
theorem matchesAt_iff (inside : offset ≤ bits.length) : ∃ result, (ofBits bits).matchesAt offset (ofBits other) = .ok result ∧
      (result = true ↔ other <+: bits.drop offset) := by
  rw [matchesAt]
  simp only [length_ofBits short,length_ofBits brief]
  by_cases past : bits.length < offset + other.length
  · have longer : ¬other <+: bits.drop offset := fun found => by
      have size := found.length_le
      rw [List.length_drop] at size
      omega
    exact ⟨false,by simp only [past,if_true]; split <;> rfl,by simp [longer]⟩
  · have room : 8 * (0 + other.length / 8) ≤ other.length := by omega
    have start : Agree (bits.drop offset) other (8 * 0) := fun index below => by omega
    obtain ⟨result,run,full⟩ := windowsMatch_ofBits bits other (by omega) room start
    have fits : ¬2 ^ 32 ≤ offset + other.length := by omega
    have size : other.length ≤ (bits.drop offset).length := by rw [List.length_drop]; omega
    rw [if_neg fits,if_neg past,run,ok_bind,isPrefix_iff_agree size]
    rw [Nat.zero_add] at full
    cases result with
    | false =>
      exact ⟨false,rfl,by simp,fun agree => full.mpr fun index below => agree index (by omega)⟩
    | true =>
      have agree := full.mp rfl
      by_cases whole : other.length % 8 = 0
      · have count : 8 * (other.length / 8) = other.length := by omega
        rw [count] at agree
        exact ⟨true,by simp [whole],by simpa using agree⟩
      · have one : offset / 8 + other.length / 8 < bytesForBits bits.length := by unfold bytesForBits; omega
        have two : other.length / 8 < bytesForBits other.length := by unfold bytesForBits; omega
        refine ⟨_,by simp only [whole,if_false,window_ofBits one,byteAt_ofBits two,ok_bind]; rfl,?_⟩
        rw [beq_iff_eq,masked_eq (by omega)]
        constructor
        · intro next
          have both := agree.extend fun within below => by
            have bit := next within below
            rwa [packByte_bit _ (by omega),packed_bit _ (by omega),Nat.add_assoc,← getD_drop] at bit
          rwa [Nat.div_add_mod] at both
        · intro all within below
          have bit := all (8 * (other.length / 8) + within) (by omega)
          rwa [packByte_bit _ (by omega),packed_bit _ (by omega),Nat.add_assoc,← getD_drop]

include brief in
theorem matchesAt_ofBits (inside : offset ≤ bits.length) :
    (ofBits bits).matchesAt offset (ofBits other) = .ok (decide (other <+: bits.drop offset)) := by
  obtain ⟨result,run,same⟩ := matchesAt_iff short brief inside
  rw [run,Bool.eq_iff_iff.mpr (same.trans (decide_eq_true_iff).symm)]

omit short in
theorem joinBytes_pack (bits other : List Bool) : ∃ bytes, joinBytes (pack bits) (bits.length % 8) (pack other) = .ok bytes ∧
      bytesForBits (bits.length + other.length) ≤ bytes.length ∧ ∀ index, bitAt bytes index = (bits ++ other).getD index false := by
  have parts (index : Nat) : (bits ++ other).getD index false =
      if index < bits.length then bits.getD index false else other.getD (index - bits.length) false := by
    split
    · exact List.getD_append _ _ _ _ (by omega)
    · exact List.getD_append_right _ _ _ _ (by omega)
  rw [joinBytes]
  by_cases aligned : bits.length % 8 = 0
  · refine ⟨pack bits ++ pack other,by rw [if_pos aligned]; rfl,?_,fun index => ?_⟩
    · rw [List.length_append,pack_length,pack_length]
      unfold bytesForBits
      omega
    · have whole : 8 * bytesForBits bits.length = bits.length := by unfold bytesForBits; omega
      rw [bitAt_append,pack_length,whole,bitAt_pack,bitAt_pack,parts]
  · have count : bytesForBits bits.length = bits.length / 8 + 1 := by unfold bytesForBits; omega
    refine ⟨_,by rw [if_neg aligned,pack_last aligned]; rfl,?_,fun index => ?_⟩
    · rw [List.length_append,List.length_dropLast,spill_length,pack_length,pack_length]
      unfold bytesForBits
      omega
    · rw [bitAt_append,List.length_dropLast,pack_length,count,Nat.add_sub_cancel,
        bitAt_spill (by omega) (fun offset => last_clear),List.dropLast_eq_take,pack_length,count,Nat.add_sub_cancel,bitAt_take,parts]
      by_cases front : index < 8 * (bits.length / 8)
      · have inside : index < bits.length := by omega
        have counted : index / 8 < bits.length / 8 := by omega
        simp [front,inside,counted]
      · have same : index - 8 * (bits.length / 8) < bits.length % 8 ↔ index < bits.length := by omega
        simp only [front,if_false,same]
        split
        · rw [packed_bit _ (by omega)]
          congr 1
          omega
        · rw [bitAt_pack]
          congr 1
          omega

include brief in
theorem concat_ofBits (fits : bits.length + other.length < 2 ^ 32) :
    (ofBits bits).concat (ofBits other) = .ok (ofBits (bits ++ other)) := by
  rw [concat]
  simp only [length_ofBits short,length_ofBits brief]
  by_cases noHead : bits.length = 0
  · simp [List.length_eq_zero_iff.mp noHead]
  by_cases noTail : other.length = 0
  · simp [noHead,List.length_eq_zero_iff.mp noTail]
  have head : (pack bits).take (bytesForBits bits.length) = pack bits := List.take_of_length_le (by simp)
  have tail : (pack other).take (bytesForBits other.length) = pack other := List.take_of_length_le (by simp)
  obtain ⟨bytes,join,room,same⟩ := joinBytes_pack bits other
  rw [if_neg noHead,if_neg noTail,ensure_pos fits,ok_bind,leadingBytes_ofBits (Nat.le_refl _),ok_bind,
    leadingBytes_ofBits (Nat.le_refl _),ok_bind,head,tail,maskPadding_pack,join,ok_bind,pure_ok]
  have size : (bytes.take (bytesForBits (bits.length + other.length))).length = bytesForBits (bits.length + other.length) := by simp [room]
  refine eq_ofBits (by simp) (by rw [maskPadding_length,size]) fun index => ?_
  rw [bitAt_maskPadding size,bitAt_take,same]
  by_cases inside : index < bits.length + other.length
  · have counted : index / 8 < bytesForBits (bits.length + other.length) := by unfold bytesForBits; omega
    simp [inside,counted]
  · rw [List.getD_eq_default _ _ (by simp; omega)]
    simp
end BitPath

theorem BitPath.parting {bit : Bool} (short : (shared ++ bit::rest).length < 2 ^ 32) (brief : (shared ++ (!bit)::tail).length < 2 ^ 32) :
    (ofBits (shared ++ bit::rest)).commonPrefixLen (ofBits (shared ++ (!bit)::tail)) = .ok shared.length ∧
    (ofBits (shared ++ bit::rest)).bit shared.length = .ok bit ∧
    (ofBits (shared ++ bit::rest)).suffix (shared.length + 1) = .ok (ofBits rest) ∧
    (ofBits (shared ++ (!bit)::tail)).suffix (shared.length + 1) = .ok (ofBits tail) := by
  have apart := Patricia.apart_bits bit rest tail
  refine ⟨?_,?_,?_,?_⟩
  · rw [commonPrefixLen_ofBits short brief,Patricia.diverge_append _ _ _ apart]
  · rw [bit_ofBits short (by simp)]
    simp
  · rw [suffix_ofBits short (by simp)]
    simp
  · rw [suffix_ofBits brief (by simp)]
    simp

-- With the length in front no key's path is the beginning of another's.
def keyBits (key : List Byte) : List Bool := bitsOf (leBytes 4 key.length ++ key)
def KeyFits (key : List Byte) : Prop := (4 + key.length) * 8 < 2 ^ 32
instance (key : List Byte) : Decidable (KeyFits key) := inferInstanceAs (Decidable (_ < _))

def decodeRawKey (bits : List Bool) : Option (List Byte) :=
  if bits.length < 32 ∨ bits.length % 8 ≠ 0 then none
  else
    let encoded := pack bits
    if encoded.length ≠ 4 + fromLe (encoded.take 4) then none else some (encoded.drop 4)

section
theorem keyBits_length : (keyBits key).length = 8 * (4 + key.length) := by simp [keyBits]

variable (fits : KeyFits key)
include fits

theorem KeyFits.short : (keyBits key).length < 2 ^ 32 := by
  unfold KeyFits at fits
  rw [keyBits_length]
  omega

theorem forKey_ofBits : BitPath.forKey key = .ok (BitPath.ofBits (keyBits key)) := by
  unfold KeyFits at fits
  have small : key.length < 2 ^ 32 := by omega
  have room : (leBytes 4 key.length ++ key).length * 8 < 2 ^ 32 := by
    rw [List.length_append,leBytes_length]
    exact fits
  rw [BitPath.forKey,ensure_pos small,ok_bind,BitPath.fromOwnedKey,ensure_pos room,ok_bind,BitPath.ofBits,
    keyBits,pack_bitsOf,bitsOf_length,Nat.mul_comm 8]
  rfl

theorem fromLe_key : fromLe (leBytes 4 key.length) = key.length := by
  unfold KeyFits at fits
  rw [fromLe_leBytes,Nat.mod_eq_of_lt]
  omega

theorem keyBits_begins (fitsOther : KeyFits other) (begins : keyBits key <+: keyBits other) : key = other := by
  have bytes := bytes_begin begins
  have front : leBytes 4 key.length = leBytes 4 other.length := by
    have one := (List.prefix_append (leBytes 4 key.length) key).trans bytes
    have two := List.prefix_append (leBytes 4 other.length) other
    exact (List.prefix_of_prefix_length_le one two (by simp)).eq_of_length (by simp)
  have size : key.length = other.length := by rw [← fromLe_key fits,front,fromLe_key fitsOther]
  have whole := bytes.eq_of_length (by simp [size])
  exact (List.append_inj whole (by simp)).2

theorem keyBits_injective (fitsOther : KeyFits other) (same : keyBits key = keyBits other) : key = other :=
  keyBits_begins fits fitsOther (same ▸ List.prefix_rfl)

theorem decodeRawKey_keyBits : decodeRawKey (keyBits key) = some key := by
  have long : ¬((keyBits key).length < 32 ∨ (keyBits key).length % 8 ≠ 0) := by rw [keyBits_length]; omega
  have packed : pack (keyBits key) = leBytes 4 key.length ++ key := pack_bitsOf _
  have front : (leBytes 4 key.length ++ key).take 4 = leBytes 4 key.length := by simp
  simp only [decodeRawKey,if_neg long,packed,front,fromLe_key fits]
  simp
end

theorem BitPath.single_ofBits (bit : Bool) : BitPath.single bit = BitPath.ofBits [bit] := by
  cases bit <;> decide
end Neutrino.StateTrie
