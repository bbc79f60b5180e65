import Effectful.Bytes
/-!
# The BLAKE3 hash

Input is cut into chunks of 1024 bytes and each chunk into blocks of 64.  A compression function
mixes a chaining value with a block; the blocks of a chunk are chained, and the chunks are the leaves
of a binary tree whose left subtrees are complete.  The node at the top is compressed once more with
the root flag, and the result starts with the little-endian words of that last compression.
-/

namespace Effectful.Blake3

/-- Eight words that summarise what was hashed so far. -/
abbrev Chain := Vector UInt32 8

/-- The sixteen words of a block or of the mixing state. -/
abbrev Words := Vector UInt32 16

def initial : Chain :=
  #v[0x6A09E667, 0xBB67AE85, 0x3C6EF372, 0xA54FF53A, 0x510E527F, 0x9B05688C, 0x1F83D9AB, 0x5BE0CD19]

def chunkStart : UInt32 := 1
def chunkEnd : UInt32 := 2
def parent : UInt32 := 4
def root : UInt32 := 8

def rotateRight (w : UInt32) (n : UInt32) : UInt32 := (w >>> n) ||| (w <<< (32 - n))

/-- Mixes two message words into one column or diagonal of the state. -/
def quarter (s : Words) (a b c d : Fin 16) (x y : UInt32) : Words :=
  let s := s.set a (s[a] + s[b] + x)
  let s := s.set d (rotateRight (s[d] ^^^ s[a]) 16)
  let s := s.set c (s[c] + s[d])
  let s := s.set b (rotateRight (s[b] ^^^ s[c]) 12)
  let s := s.set a (s[a] + s[b] + y)
  let s := s.set d (rotateRight (s[d] ^^^ s[a]) 8)
  let s := s.set c (s[c] + s[d])
  s.set b (rotateRight (s[b] ^^^ s[c]) 7)

/-- One round: the four columns, then the four diagonals. -/
def round (s m : Words) : Words :=
  let s := quarter s 0 4 8 12 m[0] m[1]
  let s := quarter s 1 5 9 13 m[2] m[3]
  let s := quarter s 2 6 10 14 m[4] m[5]
  let s := quarter s 3 7 11 15 m[6] m[7]
  let s := quarter s 0 5 10 15 m[8] m[9]
  let s := quarter s 1 6 11 12 m[10] m[11]
  let s := quarter s 2 7 8 13 m[12] m[13]
  quarter s 3 4 9 14 m[14] m[15]

/-- The order in which the next round takes the message words. -/
def permute (m : Words) : Words :=
  #v[m[2], m[6], m[3], m[10], m[7], m[0], m[4], m[13],
     m[1], m[11], m[12], m[5], m[9], m[14], m[15], m[8]]

/-- `n` rounds, the message permuted between them. -/
def rounds : Nat → Words → Words → Words
  | 0, s, _ => s
  | n + 1, s, m => rounds n (round s m) (permute m)

structure Node where
  chain : Chain
  block : Words
  counter : Nat
  length : Nat
  flags : UInt32

namespace Node

/-- The first eight words of the compression. -/
def compress (n : Node) (flags : UInt32) : Chain :=
  let h := n.chain
  let s : Words :=
    #v[h[0], h[1], h[2], h[3], h[4], h[5], h[6], h[7],
       initial[0], initial[1], initial[2], initial[3],
       .ofNat n.counter, .ofNat (n.counter / UInt32.size), .ofNat n.length, n.flags ||| flags]
  let s := rounds 7 s n.block
  #v[s[0] ^^^ s[8], s[1] ^^^ s[9], s[2] ^^^ s[10], s[3] ^^^ s[11],
     s[4] ^^^ s[12], s[5] ^^^ s[13], s[6] ^^^ s[14], s[7] ^^^ s[15]]

def chaining (n : Node) : Chain := n.compress 0

end Node

/-- The words of a block of at most 64 bytes, filled up with zeros. -/
def blockWords (bytes : List UInt8) : Words :=
  Vector.ofFn fun i => .ofNat (ofLittleEndian ((bytes.drop (4 * i)).take 4))

/-- Chains the blocks of a chunk; the last block stays uncompressed. -/
def chunkNode (counter : Nat) : (fuel : Nat) → Chain → UInt32 → List UInt8 → Node
  | 0, chain, flags, bytes => ⟨chain, blockWords bytes, counter, bytes.length, flags ||| chunkEnd⟩
  | fuel + 1, chain, flags, bytes =>
    if bytes.length ≤ 64 then ⟨chain, blockWords bytes, counter, bytes.length, flags ||| chunkEnd⟩
    else
      let head : Node := ⟨chain, blockWords (bytes.take 64), counter, 64, flags⟩
      chunkNode counter fuel head.chaining 0 (bytes.drop 64)

def parentNode (left right : Node) : Node :=
  let l := left.chaining
  let r := right.chaining
  ⟨initial, #v[l[0], l[1], l[2], l[3], l[4], l[5], l[6], l[7], r[0], r[1], r[2], r[3], r[4], r[5], r[6], r[7]],
    0, 64, parent⟩

/-- The tree over some bytes whose first chunk has the given number.  The left subtree takes the
largest power of two of chunks that leaves something for the right one. -/
def tree : (fuel : Nat) → (counter : Nat) → List UInt8 → Node
  | 0, counter, bytes => chunkNode counter 16 initial chunkStart bytes
  | fuel + 1, counter, bytes =>
    if bytes.length ≤ 1024 then chunkNode counter 16 initial chunkStart bytes
    else
      let chunks := Nat.pow 2 ((bytes.length - 1) / 1024).log2
      parentNode (tree fuel counter (bytes.take (1024 * chunks)))
        (tree fuel (counter + chunks) (bytes.drop (1024 * chunks)))

def hash (bytes : List UInt8) : List UInt8 :=
  ((tree bytes.length 0 bytes).compress root).toList.flatMap fun w => littleEndian 4 w.toNat

end Effectful.Blake3
