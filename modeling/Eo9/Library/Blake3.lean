import Eo9.Library.Endian
import Eo9.Library.Bytes

/-!
# BLAKE3

The hash mode and the keyed mode of BLAKE3 with the default output of 32 bytes:
chunks of up to 1024 bytes in blocks of 64 bytes, under a binary tree of parent
nodes.
-/

namespace Eo9.Library.Blake3

def IV : List UInt32 :=
  [0x6A09E667, 0xBB67AE85, 0x3C6EF372, 0xA54FF53A, 0x510E527F, 0x9B05688C, 0x1F83D9AB, 0x5BE0CD19]

def MSG_PERMUTATION : List Nat := [2, 6, 3, 10, 7, 0, 4, 13, 1, 11, 12, 5, 9, 14, 15, 8]

def CHUNK_START : UInt32 := 1

def CHUNK_END : UInt32 := 2

def PARENT : UInt32 := 4

def ROOT : UInt32 := 8

/-- Rotate a word right. -/
def rotr (x n : UInt32) : UInt32 := (x >>> n) ||| (x <<< (32 - n))

/-- Mix one column or diagonal of the state with two message words. -/
def mix (state : List UInt32) (ia ib ic id : Nat) (mx my : UInt32) : List UInt32 :=
  let a := state.getD ia 0 + state.getD ib 0 + mx
  let d := rotr (state.getD id 0 ^^^ a) 16
  let c := state.getD ic 0 + d
  let b := rotr (state.getD ib 0 ^^^ c) 12
  let a := a + b + my
  let d := rotr (d ^^^ a) 8
  let c := c + d
  let b := rotr (b ^^^ c) 7
  (((state.set ia a).set ib b).set ic c).set id d

/-- The columns and diagonals of one round. -/
def lanes : List (Nat × Nat × Nat × Nat) :=
  [(0, 4, 8, 12), (1, 5, 9, 13), (2, 6, 10, 14), (3, 7, 11, 15),
   (0, 5, 10, 15), (1, 6, 11, 12), (2, 7, 8, 13), (3, 4, 9, 14)]

def round (state words : List UInt32) : List UInt32 :=
  lanes.zipIdx.foldl (fun state (lane, i) =>
    mix state lane.1 lane.2.1 lane.2.2.1 lane.2.2.2
      (words.getD (2 * i) 0) (words.getD (2 * i + 1) 0)) state

/-- `n` rounds, with the message words permuted after each. -/
def rounds : Nat → List UInt32 → List UInt32 → List UInt32
  | 0, state, _ => state
  | n + 1, state, words =>
    rounds n (round state words) (MSG_PERMUTATION.map fun i => words.getD i 0)

/-- The compression function, cut to its first eight words. -/
def compress (cv words : List UInt32) (counter blockLen : Nat) (flags : UInt32) : List UInt32 :=
  let state := rounds 7 (cv ++ IV.take 4 ++
    [UInt32.ofNat counter, UInt32.ofNat (counter / 2 ^ 32), UInt32.ofNat blockLen, flags]) words
  List.zipWith (· ^^^ ·) (state.take 8) (state.drop 8)

/-- The message words of a block, padded with zeros. -/
def wordsOf (block : List UInt8) : List UInt32 :=
  (chunks 4 (block ++ List.replicate (64 - block.length) 0)).map fun w => UInt32.ofNat (leValue w)

/-- The chaining value after the remaining blocks of a chunk. -/
def chunkBlocks (counter : Nat) (root : UInt32) :
    List UInt32 → UInt32 → List (List UInt8) → List UInt32
  | cv, _, [] => cv
  | cv, start, [block] =>
    compress cv (wordsOf block) counter block.length (start ||| CHUNK_END ||| root)
  | cv, start, block :: blocks =>
    chunkBlocks counter root (compress cv (wordsOf block) counter block.length start) 0 blocks

def chunkValue (counter : Nat) (root : UInt32) (bytes : List UInt8) : List UInt32 :=
  chunkBlocks counter root IV CHUNK_START (if bytes = [] then [[]] else Library.chunks 64 bytes)

/-- The chaining value of a subtree; the left half holds as many chunks as a
power of two allows. Each unit of fuel halves the number of chunks. -/
def subtree : Nat → Nat → UInt32 → List UInt8 → List UInt32
  | 0, counter, root, bytes => chunkValue counter root bytes
  | fuel + 1, counter, root, bytes =>
    if bytes.length ≤ 1024 then chunkValue counter root bytes
    else
      let left := 2 ^ ((bytes.length - 1) / 1024).log2
      let words := subtree fuel counter 0 (bytes.take (left * 1024)) ++
        subtree fuel (counter + left) 0 (bytes.drop (left * 1024))
      compress IV words 0 64 (PARENT ||| root)

/-- The 32-byte digest. -/
def digest (bytes : List UInt8) : List UInt8 :=
  (subtree bytes.length 0 ROOT bytes).flatMap fun w => leBytes 4 w.toNat

def KEYED_HASH : UInt32 := 16

/-- The chaining value after the remaining blocks of a chunk, in keyed mode. -/
def keyedBlocks (counter : Nat) (root : UInt32) :
    List UInt32 → UInt32 → List (List UInt8) → List UInt32
  | cv, _, [] => cv
  | cv, start, [block] =>
    compress cv (wordsOf block) counter block.length (KEYED_HASH ||| start ||| CHUNK_END ||| root)
  | cv, start, block :: blocks =>
    keyedBlocks counter root
      (compress cv (wordsOf block) counter block.length (KEYED_HASH ||| start)) 0 blocks

/-- The chaining value of a subtree under the key words. -/
def keyedSubtree (key : List UInt32) : Nat → Nat → UInt32 → List UInt8 → List UInt32
  | 0, counter, root, bytes =>
    keyedBlocks counter root key CHUNK_START
      (if bytes = [] then [[]] else Library.chunks 64 bytes)
  | fuel + 1, counter, root, bytes =>
    if bytes.length ≤ 1024 then
      keyedBlocks counter root key CHUNK_START
        (if bytes = [] then [[]] else Library.chunks 64 bytes)
    else
      let left := 2 ^ ((bytes.length - 1) / 1024).log2
      let words := keyedSubtree key fuel counter 0 (bytes.take (left * 1024)) ++
        keyedSubtree key fuel (counter + left) 0 (bytes.drop (left * 1024))
      compress key words 0 64 (KEYED_HASH ||| PARENT ||| root)

def keyedDigest (key bytes : List UInt8) : List UInt8 :=
  (keyedSubtree ((Library.chunks 4 key).map fun w => UInt32.ofNat (leValue w))
    bytes.length 0 ROOT bytes).flatMap fun w => leBytes 4 w.toNat

set_option maxRecDepth 100000 in
example : leValue (keyedDigest ("whats the Elvish word for friend".toList.map
    fun c => UInt8.ofNat c.toNat) []).reverse =
    0x92b2b75604ed3c761f9d6f62392c8a9227ad0ea3f09573e783f1498a4ed60d26 := by decide +kernel

set_option maxRecDepth 100000 in
example : leValue (digest [97, 98, 99]).reverse =
    0x6437b3ac38465133ffb63b75273a8db548c558465d79db03fd359c6cd5bd9d85 := by decide +kernel

def DERIVE_KEY_CONTEXT : UInt32 := 32

def DERIVE_KEY_MATERIAL : UInt32 := 64

/-- The chaining value after the remaining blocks of a chunk, in the mode of a flag. -/
def modeBlocks (mode : UInt32) (counter : Nat) (root : UInt32) :
    List UInt32 → UInt32 → List (List UInt8) → List UInt32
  | cv, _, [] => cv
  | cv, start, [block] =>
    compress cv (wordsOf block) counter block.length (mode ||| start ||| CHUNK_END ||| root)
  | cv, start, block :: blocks =>
    modeBlocks mode counter root
      (compress cv (wordsOf block) counter block.length (mode ||| start)) 0 blocks

/-- The chaining value of a subtree under the key words, in the mode of a flag. -/
def modeSubtree (mode : UInt32) (key : List UInt32) :
    Nat → Nat → UInt32 → List UInt8 → List UInt32
  | 0, counter, root, bytes =>
    modeBlocks mode counter root key CHUNK_START
      (if bytes = [] then [[]] else Library.chunks 64 bytes)
  | fuel + 1, counter, root, bytes =>
    if bytes.length ≤ 1024 then
      modeBlocks mode counter root key CHUNK_START
        (if bytes = [] then [[]] else Library.chunks 64 bytes)
    else
      let left := 2 ^ ((bytes.length - 1) / 1024).log2
      let words := modeSubtree mode key fuel counter 0 (bytes.take (left * 1024)) ++
        modeSubtree mode key fuel (counter + left) 0 (bytes.drop (left * 1024))
      compress key words 0 64 (mode ||| PARENT ||| root)

/-- The 32-byte key that is derived from key material in a context. -/
def deriveKey (context material : List UInt8) : List UInt8 :=
  let key := modeSubtree DERIVE_KEY_CONTEXT IV context.length 0 ROOT context
  (modeSubtree DERIVE_KEY_MATERIAL key material.length 0 ROOT material).flatMap
    fun w => leBytes 4 w.toNat

set_option maxRecDepth 100000 in
example : leValue (deriveKey ("BLAKE3 2019-12-27 16:29:52 test vectors context".toList.map
    fun c => UInt8.ofNat c.toNat) []).reverse =
    0x2cc39783c223154fea8dfb7c1b1660f2ac2dcbd1c1de8277b0b0dd39b7e50d7d := by decide +kernel

end Eo9.Library.Blake3
