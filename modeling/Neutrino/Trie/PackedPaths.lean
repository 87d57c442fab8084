import Neutrino.Trie.Node

-- Packed paths as lists of bits, and the node format read back.
namespace Neutrino.StateTrie
open Checks Bits

namespace BitPath

-- What a path keeps: the bytes its length needs, no bit set past its end.
def Canonical (path : BitPath) : Prop :=
  path.bytes.length = bytesForBits path.length ∧ hasNonzeroPadding path.length path.bytes = false

def bits (path : BitPath) : List Bool := (bitsOf path.bytes).take path.length

variable {path : BitPath}

theorem Canonical.bits_length (canonical : path.Canonical) : path.bits.length = path.length := by
  have size := canonical.1
  unfold bytesForBits at size
  rw [bits,List.length_take,bitsOf_length]
  omega

theorem padding_clear (canonical : path.Canonical) (past : path.length ≤ index) : bitAt path.bytes index = false := by
  obtain ⟨size,clear⟩ := canonical
  unfold bytesForBits at size
  by_cases inside : index < 8 * path.bytes.length
  · have ragged : path.length % 8 ≠ 0 := by omega
    have place : index / 8 = path.bytes.length - 1 := by omega
    have present : path.bytes.length - 1 < path.bytes.length := by omega
    rw [hasNonzeroPadding,if_neg ragged,List.getLast?_eq_getElem?,List.getElem?_eq_getElem present,Option.any_some,bne_eq_false_iff_eq,
      low_mask_zero (by omega)] at clear
    rw [bitAt,place,List.getD_eq_getElem _ _ present]
    exact clear _ (by omega)
  · exact bitAt_of_ge (by omega)

theorem Canonical.eq_ofBits (canonical : path.Canonical) : path = ofBits path.bits := by
  have same (index : Nat) : bitAt path.bytes index = path.bits.getD index false := by
    rw [bits,getD_take,bitsOf_getD]
    by_cases inside : index < path.length
    · simp [inside]
    · simp [inside,padding_clear canonical (Nat.le_of_not_lt inside)]
  rw [← BitPath.eq_ofBits canonical.bits_length.symm canonical.1 same]
  simp [length]

theorem canonical_iff : path.Canonical ↔ ∃ bits : List Bool, bits.length < 2 ^ 32 ∧ path = ofBits bits := by
  refine ⟨fun canonical => ⟨path.bits,canonical.bits_length ▸ path.length_lt,canonical.eq_ofBits⟩,?_⟩
  rintro ⟨bits,short,rfl⟩
  rw [Canonical,length_ofBits short]
  exact ⟨pack_length bits,hasNonzeroPadding_pack bits⟩

theorem bits_ofBits {list : List Bool} (short : list.length < 2 ^ 32) : (ofBits list).Canonical ∧ (ofBits list).bits = list := by
  have canonical := canonical_iff.mpr ⟨list,short,rfl⟩
  have brief : (ofBits list).bits.length < 2 ^ 32 := canonical.bits_length ▸ length_lt _
  exact ⟨canonical,((ofBits_inj short brief).mp canonical.eq_ofBits).symm⟩

-- A run that ends in the canonical path of these bits.
def Returns (list : List Bool) (run : Except Fault BitPath) : Prop := ∃ path, run = .ok path ∧ path.Canonical ∧ path.bits = list

theorem returns_ofBits {list : List Bool} {run : Except Fault BitPath} (short : list.length < 2 ^ 32) (same : run = .ok (ofBits list)) : Returns list run :=
  ⟨_,same,bits_ofBits short⟩
end BitPath

theorem leBytes_fromLe (bytes : List Byte) : leBytes bytes.length (fromLe bytes) = bytes := by
  induction bytes with
  | nil => rfl
  | cons low rest ih =>
    have rest : (low.toNat + 256 * fromLe rest) / 256 = fromLe rest := by have := low.isLt; omega
    rw [List.length_cons,leBytes,fromLe,rest,ih]
    congr 1
    apply BitVec.eq_of_toNat_eq
    rw [BitVec.toNat_ofNat]
    have := low.isLt
    omega

theorem fromLe_lt (bytes : List Byte) : fromLe bytes < 256 ^ bytes.length := by
  rw [← leBytes_fromLe bytes,fromLe_leBytes,leBytes_length]
  exact Nat.mod_lt _ (by positivity)

section
variable {text : List Byte}

theorem readBytes_eq : readBytes text = .ok text := by
  have read := readBytes_symbols (β := Byte) text
  rwa [symbols,show (ofByte : Byte → Byte) = id from rfl,List.map_id] at read

theorem BitPath.decode_ok (decoded : BitPath.decode text = .ok (path,consumed)) :
    path.Canonical ∧ text = path.encode ++ text.drop consumed := by
  simp only [BitPath.decode,readBytes_eq,bind_ok,ensure_ok,pure_ok,Prod.mk.injEq,Except.ok.injEq] at decoded
  obtain ⟨_,long,_,rfl,_,room,_,rfl,_,clear,rfl,rfl⟩ := decoded
  have four : (text.take 4).length = 4 := by simp [long]
  have small : fromLe (text.take 4) < 2 ^ 32 := by simpa [four] using fromLe_lt (text.take 4)
  have size : BitPath.length ⟨BitVec.ofNat 32 (fromLe (text.take 4)),(text.take (4 + bytesForBits (fromLe (text.take 4)))).drop 4⟩ =
      fromLe (text.take 4) := by simpa [BitPath.length] using small
  refine ⟨⟨?_,by rwa [size]⟩,?_⟩
  · rw [size]
    simp
    omega
  · have head := leBytes_fromLe (text.take 4)
    have parts (count : Nat) : text.take 4 ++ (text.take (4 + count)).drop 4 = text.take (4 + count) := by
      have whole := List.take_append_drop 4 (text.take (4 + count))
      rwa [List.take_take,Nat.min_eq_left (by omega)] at whole
    rw [four] at head
    rw [BitPath.encode,size,head,parts,List.take_append_drop]

theorem decodeHashTail_ok {hash : Hash Byte} (decoded : decodeHashTail text = .ok hash) : hash.toList = text := by
  simp only [decodeHashTail] at decoded
  split_ifs at decoded
  cases decoded
  rfl

theorem path_hash_ok {build : BitPath → Hash Byte → Node Byte} (decoded : (do
      let (path,consumed) ← BitPath.decode text
      let read ← decodeHashTail (text.drop consumed)
      return build path read) = .ok node) :
    ∃ path hash, build path hash = node ∧ path.Canonical ∧ path.encode ++ hash.toList = text := by
  simp only [bind_ok,pure_ok] at decoded
  obtain ⟨⟨path,consumed⟩,front,hash,rest,built⟩ := decoded
  obtain ⟨canonical,parts⟩ := BitPath.decode_ok front
  exact ⟨path,hash,built,canonical,by rw [decodeHashTail_ok rest,← parts]⟩

theorem Node.decode_ok {node : Node Byte} (decoded : Node.decode text = .ok node) : node.Packed ∧ node.encode = text := by
  have plain (bytes : List Byte) : symbols bytes = bytes := List.map_id bytes
  rcases text with _ | ⟨tag,body⟩
  · cases decoded
  · rw [Node.decode] at decoded
    split_ifs at decoded with leaf branch extension
    · obtain ⟨path,hash,rfl,canonical,rfl⟩ := path_hash_ok decoded
      obtain rfl := Option.some.inj leaf
      exact ⟨BitPath.canonical_iff.mp canonical,by rw [Node.encode,plain]; rfl⟩
    · simp only [bind_ok,ensure_ok,pure_ok] at decoded
      obtain ⟨_,_,_,_,left,first,right,second,rfl⟩ := decoded
      obtain rfl := Option.some.inj branch
      refine ⟨trivial,?_⟩
      rw [Node.encode,decodeHashTail_ok first,decodeHashTail_ok second,List.take_append_drop]
      rfl
    · obtain ⟨path,hash,rfl,canonical,rfl⟩ := path_hash_ok decoded
      obtain rfl := Option.some.inj extension
      exact ⟨BitPath.canonical_iff.mp canonical,by rw [Node.encode,plain]; rfl⟩
end

-- Every operation on canonical paths is the operation on their bits.
theorem packed_paths :
    (∀ path : BitPath, (path.Canonical ↔ ∃ bits : List Bool, bits.length < 2 ^ 32 ∧ path = .ofBits bits) ∧ (path.Canonical →
      path.bits.length = path.length ∧
      (∀ index < path.length, path.bit index = .ok (path.bits.getD index false)) ∧
      (∀ len ≤ path.length, BitPath.Returns (path.bits.take len) (path.prefixTo len)) ∧
      (∀ start ≤ path.length, BitPath.Returns (path.bits.drop start) (path.suffix start)) ∧
      ∀ other : BitPath, other.Canonical →
        path.commonPrefixLen other = .ok (Patricia.diverge path.bits other.bits).1.length ∧
        (∀ offset ≤ path.length, path.matchesAt offset other = .ok (decide (other.bits <+: path.bits.drop offset))) ∧
        (path.length + other.length < 2 ^ 32 → BitPath.Returns (path.bits ++ other.bits) (path.concat other)))) ∧
    (∀ key, KeyFits key → BitPath.Returns (keyBits key) (BitPath.forKey key) ∧
      ∀ other, KeyFits other → key ≠ other → ¬keyBits key <+: keyBits other) ∧
    ∀ (text : List Byte) (node : Node Byte), Node.decode text = .ok node ↔ node.Packed ∧ node.encode = text := by
  refine ⟨fun path => ⟨BitPath.canonical_iff,fun canonical => ?_⟩,fun key fits => ?_,fun text node => ?_⟩
  · obtain ⟨bits,short,rfl⟩ := BitPath.canonical_iff.mp canonical
    simp only [(BitPath.bits_ofBits short).2,BitPath.length_ofBits short]
    refine ⟨trivial,fun index inside => BitPath.bit_ofBits short inside,fun len inside => ?_,fun start inside => ?_,fun other canonical => ?_⟩
    · exact BitPath.returns_ofBits (by simp; omega) (BitPath.prefixTo_ofBits short inside)
    · exact BitPath.returns_ofBits (by simp; omega) (BitPath.suffix_ofBits short inside)
    · obtain ⟨tail,brief,rfl⟩ := BitPath.canonical_iff.mp canonical
      simp only [(BitPath.bits_ofBits brief).2,BitPath.length_ofBits brief]
      refine ⟨BitPath.commonPrefixLen_ofBits short brief,fun offset inside => BitPath.matchesAt_ofBits short brief inside,fun fits => ?_⟩
      exact BitPath.returns_ofBits (by simpa using fits) (BitPath.concat_ofBits short brief fits)
  · exact ⟨BitPath.returns_ofBits fits.short (forKey_ofBits fits),fun other fitsOther apart begins =>
      apart (keyBits_begins fits fitsOther begins)⟩
  · refine ⟨Node.decode_ok,?_⟩
    rintro ⟨packed,rfl⟩
    exact Node.decode_encode packed

theorem two_bits_packed : ∃ path : BitPath, path.Canonical ∧ path.bits.length = path.length ∧
    BitPath.Returns (path.bits ++ path.bits) (path.concat path) := by
  obtain ⟨packs,operations⟩ := packed_paths.1 (.ofBits [true,false])
  have canonical := packs.mpr ⟨_,by decide,rfl⟩
  obtain ⟨long,-,-,-,joins⟩ := operations canonical
  exact ⟨_,canonical,long,(joins _ canonical).2.2 (by decide)⟩
end Neutrino.StateTrie
