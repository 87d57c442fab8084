import Neutrino.Trie.BitPath

-- Trie nodes and their canonical encoding.
namespace Neutrino.StateTrie
open Checks Bits
open BitPath (ofBits)

class Alphabet (β : Type) where
  ofByte : Byte → β
  toByte : β → Option Byte
  toByte_ofByte : ∀ byte, toByte (ofByte byte) = some byte

export Alphabet (ofByte toByte)

instance : Alphabet Byte where
  ofByte byte := byte
  toByte byte := some byte
  toByte_ofByte _ := rfl

abbrev Hash (β : Type) := List.Vector β 32

variable {β : Type} [Alphabet β]

def zeroHash : Hash β := List.Vector.replicate 32 (ofByte 0)

structure Hasher (β : Type) where
  hashNode : List β → Hash β
  hashValue : List Byte → Hash β

inductive Node (β : Type) where
  | leaf (keySuffix : BitPath) (valueHash : Hash β)
  | branch (left right : Hash β)
  | extension (prefixPath : BitPath) (child : Hash β)
  deriving DecidableEq

def nodeTagLeaf : Byte := 0x00#8
def nodeTagBranch : Byte := 0x01#8
def nodeTagExtension : Byte := 0x02#8
def symbols (bytes : List Byte) : List β := bytes.map ofByte

def Node.encode : Node β → List β
  | .leaf keySuffix valueHash => ofByte nodeTagLeaf::(symbols keySuffix.encode ++ valueHash.toList)
  | .branch left right => ofByte nodeTagBranch::(left.toList ++ right.toList)
  | .extension prefixPath child => ofByte nodeTagExtension::(symbols prefixPath.encode ++ child.toList)

-- Reading bytes back; a symbol that is no byte occurs in digests only.
def readBytes (text : List β) : Except TrieError (List Byte) := required (text.mapM toByte) .nonCanonicalBitPath

-- The path and the symbols it took. The source's guard of 4 + byte count cannot fail.
def BitPath.decode (text : List β) : Except TrieError (BitPath × Nat) := do
  ensure (4 ≤ text.length) .truncatedNode
  let head ← readBytes (text.take 4)
  let bitLen := fromLe head
  let total := 4 + bytesForBits bitLen
  ensure (total ≤ text.length) .truncatedNode
  let bytes ← readBytes ((text.take total).drop 4)
  ensure (hasNonzeroPadding bitLen bytes = false) .nonCanonicalBitPath
  return (⟨BitVec.ofNat 32 bitLen,bytes⟩,total)

def decodeHashTail (tail : List β) : Except TrieError (Hash β) :=
  if tail.length < 32 then .error .truncatedNode
  else if exact : tail.length = 32 then .ok ⟨tail,exact⟩
  else .error .trailingNodeBytes

def Node.decode (text : List β) : Except TrieError (Node β) :=
  match text with
  | [] => .error .truncatedNode
  | tag::body =>
    if toByte tag = some nodeTagLeaf then do
      let (keySuffix,consumed) ← BitPath.decode body
      let valueHash ← decodeHashTail (body.drop consumed)
      return .leaf keySuffix valueHash
    else if toByte tag = some nodeTagBranch then do
      ensure (64 ≤ body.length) .truncatedNode
      ensure (body.length ≤ 64) .trailingNodeBytes
      let left ← decodeHashTail (body.take 32)
      let right ← decodeHashTail (body.drop 32)
      return .branch left right
    else if toByte tag = some nodeTagExtension then do
      let (prefixPath,consumed) ← BitPath.decode body
      let child ← decodeHashTail (body.drop consumed)
      return .extension prefixPath child
    else .error (.invalidNodeTag (toByte tag))

theorem ofByte_injective : Function.Injective (ofByte : Byte → β) := fun one two same => by
  have read := congrArg (toByte : β → Option Byte) same
  simpa [Alphabet.toByte_ofByte] using read

@[simp] theorem symbols_length (bytes : List Byte) : (symbols bytes : List β).length = bytes.length := by
  simp [symbols]

theorem symbols_injective : Function.Injective (symbols : List Byte → List β) := List.map_injective_iff.mpr ofByte_injective
theorem BitPath.length_lt (path : BitPath) : path.length < 2 ^ 32 := path.bitLen.isLt

theorem BitPath.encode_injective : Function.Injective BitPath.encode := fun one two same => by
  obtain ⟨lengths,bytes⟩ := List.append_inj same (by simp)
  have bits : one.length = two.length := by
    have read := congrArg fromLe lengths
    have first := one.length_lt
    have second := two.length_lt
    rw [fromLe_leBytes,fromLe_leBytes] at read
    omega
  cases one
  cases two
  simp_all [BitPath.length,BitVec.toNat_inj]

theorem path_hash_inj {one two : BitPath} {first second : Hash β}
    (same : (symbols one.encode ++ first.toList : List β) = symbols two.encode ++ second.toList) : one = two ∧ first = second := by
  obtain ⟨paths,hashes⟩ := List.append_inj' same (by simp)
  exact ⟨BitPath.encode_injective (symbols_injective paths),List.Vector.eq _ _ hashes⟩

theorem Node.encode_injective : Function.Injective (Node.encode : Node β → List β) := by
  intro one two same
  have tags {a b : Byte} {x y : List β} (same : ofByte a::x = ofByte b::y) : a = b := ofByte_injective (List.cons.inj same).1
  cases one <;> cases two
  case leaf.leaf | extension.extension =>
    obtain ⟨rfl,rfl⟩ := path_hash_inj (List.cons.inj same).2
    rfl
  case branch.branch =>
    obtain ⟨left,right⟩ := List.append_inj (List.cons.inj same).2 (by simp)
    rw [List.Vector.eq _ _ left,List.Vector.eq _ _ right]
  all_goals exact absurd (tags same) (by decide)

theorem mapM_toByte (bytes : List Byte) : (symbols bytes : List β).mapM toByte = some bytes := by
  induction bytes with
  | nil => rfl
  | cons byte rest ih =>
    rw [symbols,List.map_cons,List.mapM_cons]
    simp only [Alphabet.toByte_ofByte,Option.bind_eq_bind,Option.bind_some]
    rw [show List.mapM toByte (rest.map ofByte : List β) = some rest from ih]
    rfl

theorem readBytes_symbols (bytes : List Byte) : readBytes (symbols bytes : List β) = .ok bytes := by
  rw [readBytes,mapM_toByte]
  rfl

theorem hasNonzeroPadding_pack (bits : List Bool) : hasNonzeroPadding bits.length (pack bits) = false := by
  unfold hasNonzeroPadding
  split
  · rfl
  · rename_i ragged
    have clear : (pack bits).getD (bits.length / 8) 0 &&& (0xFF#8 >>> (bits.length % 8)) = 0 :=
      (low_mask_zero (by omega)).mpr fun offset => BitPath.last_clear
    rw [BitPath.pack_last ragged,Option.any_some,clear]
    rfl

theorem BitPath.decode_encode (short : bits.length < 2 ^ 32) (rest : List β) :
    BitPath.decode (symbols (ofBits bits).encode ++ rest) = .ok (ofBits bits,(ofBits bits).encode.length) := by
  have size : (ofBits bits).encode.length = 4 + bytesForBits bits.length := by
    simp [BitPath.encode,ofBits]
  have parts : (ofBits bits).encode = leBytes 4 bits.length ++ pack bits := by
    rw [BitPath.encode,BitPath.length_ofBits short]
    rfl
  have head : (symbols (ofBits bits).encode ++ rest).take 4 = (symbols (leBytes 4 bits.length) : List β) := by
    rw [parts]
    simp [symbols]
  have count : fromLe (leBytes 4 bits.length) = bits.length := by
    rw [fromLe_leBytes,Nat.mod_eq_of_lt]
    omega
  have body : ((symbols (ofBits bits).encode ++ rest).take (4 + bytesForBits bits.length)).drop 4 =
      (symbols (pack bits) : List β) := by
    rw [List.take_left' (by simp [size]),parts]
    simp [symbols]
  have long : 4 ≤ (symbols (ofBits bits).encode ++ rest).length := by simp [size]; omega
  have room : 4 + bytesForBits bits.length ≤ (symbols (ofBits bits).encode ++ rest).length := by simp [size]
  rw [BitPath.decode,ensure_pos long,ok_bind,head,readBytes_symbols,ok_bind,count]
  simp only
  rw [ensure_pos room,ok_bind,body,readBytes_symbols,ok_bind,ensure_pos (hasNonzeroPadding_pack bits),ok_bind,size]
  rfl

omit [Alphabet β] in
theorem decodeHashTail_toList (hash : Hash β) : decodeHashTail hash.toList = .ok hash := by
  have exact : hash.toList.length = 32 := hash.toList_length
  simp [decodeHashTail,exact]

theorem decode_path_hash (short : bits.length < 2 ^ 32) (hash : Hash β) (build : BitPath → Hash β → Node β) : (do
      let (path,consumed) ← BitPath.decode (symbols (ofBits bits).encode ++ hash.toList)
      let read ← decodeHashTail ((symbols (ofBits bits).encode ++ hash.toList).drop consumed)
      return build path read) = .ok (build (ofBits bits) hash) := by
  have dropped : (symbols (ofBits bits).encode ++ hash.toList : List β).drop
      (ofBits bits).encode.length = hash.toList := List.drop_left' (by simp)
  rw [BitPath.decode_encode short,ok_bind]
  simp only [dropped]
  rw [decodeHashTail_toList,ok_bind]
  rfl

def Node.Packed : Node β → Prop
  | .leaf path _ => ∃ bits : List Bool, bits.length < 2 ^ 32 ∧ path = ofBits bits
  | .branch _ _ => True
  | .extension path _ => ∃ bits : List Bool, bits.length < 2 ^ 32 ∧ path = ofBits bits

theorem Node.decode_encode {node : Node β} (packed : node.Packed) : Node.decode node.encode = .ok node := by
  cases node with
  | leaf path hash =>
    obtain ⟨bits,short,rfl⟩ := packed
    simp only [Node.encode,Node.decode,Alphabet.toByte_ofByte,if_true]
    exact decode_path_hash short hash Node.leaf
  | branch left right =>
    have size : (left.toList ++ right.toList).length = 64 := by simp
    have first : (left.toList ++ right.toList).take 32 = left.toList := List.take_left' left.toList_length
    have second : (left.toList ++ right.toList).drop 32 = right.toList := List.drop_left' left.toList_length
    have tag : some nodeTagBranch ≠ some nodeTagLeaf := by decide
    simp only [Node.encode,Node.decode,Alphabet.toByte_ofByte,if_true,if_neg tag,first,second]
    rw [ensure_pos (by omega),ok_bind,ensure_pos (by omega),ok_bind,decodeHashTail_toList,ok_bind, decodeHashTail_toList,ok_bind]
    rfl
  | extension path hash =>
    obtain ⟨bits,short,rfl⟩ := packed
    have notLeaf : some nodeTagExtension ≠ some nodeTagLeaf := by decide
    have notBranch : some nodeTagExtension ≠ some nodeTagBranch := by decide
    simp only [Node.encode,Node.decode,Alphabet.toByte_ofByte,if_true,if_neg notLeaf,if_neg notBranch]
    exact decode_path_hash short hash Node.extension

structure Hasher.Injective (hasher : Hasher β) : Prop where
  node : Function.Injective hasher.hashNode
  value : Function.Injective hasher.hashValue

def Hasher.NeverZero (hasher : Hasher β) : Prop := ∀ text, hasher.hashNode text ≠ zeroHash

-- A digest's first symbol spells out what was hashed: no collisions, never zero.
inductive Symbol where
  | byte (value : Byte)
  | blank
  | pair (head tail : Symbol)
  deriving DecidableEq

instance : Alphabet Symbol where
  ofByte := .byte
  toByte
    | .byte value => some value
    | _ => none
  toByte_ofByte _ := rfl

def Symbol.spell : List Symbol → Symbol
  | [] => .blank
  | symbol::rest => .pair symbol (spell rest)

theorem Symbol.spell_injective : Function.Injective Symbol.spell := by
  intro one
  induction one with
  | nil => rintro (_ | ⟨symbol,rest⟩) same <;> simp_all [spell]
  | cons first rest ih =>
    rintro (_ | ⟨symbol,others⟩) same
    · cases same
    · obtain ⟨rfl,tails⟩ := Symbol.pair.inj same
      rw [ih tails]

def Symbol.digest (symbol : Symbol) : Hash Symbol := symbol ::ᵥ List.Vector.replicate 31 (.byte 0)
theorem Symbol.digest_injective : Function.Injective Symbol.digest := fun _ _ same => congrArg List.Vector.head same

def spelledHasher : Hasher Symbol where
  hashNode text := Symbol.digest (.pair .blank (Symbol.spell text))
  hashValue bytes := Symbol.digest (.pair (.byte 1) (Symbol.spell (symbols bytes)))

theorem spelledHasher_injective : spelledHasher.Injective where
  node _ _ same := Symbol.spell_injective (Symbol.pair.inj (Symbol.digest_injective same)).2
  value _ _ same := symbols_injective (Symbol.spell_injective (Symbol.pair.inj (Symbol.digest_injective same)).2)

theorem spelledHasher_neverZero : spelledHasher.NeverZero := fun text same => by
  have first := congrArg List.Vector.head same
  cases first
end Neutrino.StateTrie
