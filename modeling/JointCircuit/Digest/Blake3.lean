/-!
# BLAKE3

The hash function BLAKE3 with the default output of 32 bytes.

The input is cut into chunks of 1024 bytes and a chunk into blocks of 64 bytes.
The blocks of a chunk are compressed one after another, each from the chaining
value of the one before.  The chunks are the leaves of a binary tree.  A parent
compresses the two chaining values of its children.  The hash is the compression
of the root, marked as such.

A `Node` is a compression that has not been run yet, so that the root can still
be marked.  The tree is built level by level: neighbours are paired and a last
one without a partner moves up.  This gives every left subtree the greatest power
of two of chunks that leaves something for the right one.
-/

namespace JointCircuit.Blake3

/-- Eight words that chain compressions. -/
abbrev Chain := Vector UInt32 8

/-- Sixteen words, a block or the state of a compression. -/
abbrev Block := Vector UInt32 16

/-- The chaining value every chunk starts from. -/
def start : Chain :=
  #v[0x6A09E667, 0xBB67AE85, 0x3C6EF372, 0xA54FF53A, 0x510E527F, 0x9B05688C, 0x1F83D9AB,
    0x5BE0CD19]

/-- Rotate a word to the right. -/
def rotate (x : UInt32) (n : UInt32) : UInt32 := (x >>> n) ||| (x <<< (32 - n))

/-- Mix two words of the block into one column or diagonal of the state. -/
def quarter (v : Block) (a b c d : Fin 16) (x y : UInt32) : Block :=
  let va := v[a] + v[b] + x
  let vd := rotate (v[d] ^^^ va) 16
  let vc := v[c] + vd
  let vb := rotate (v[b] ^^^ vc) 12
  let va := va + vb + y
  let vd := rotate (vd ^^^ va) 8
  let vc := vc + vd
  let vb := rotate (vb ^^^ vc) 7
  (((v.set a va).set b vb).set c vc).set d vd

/-- One round: the four columns, then the four diagonals. -/
def round (v m : Block) : Block :=
  let v := quarter v 0 4 8 12 m[0] m[1]
  let v := quarter v 1 5 9 13 m[2] m[3]
  let v := quarter v 2 6 10 14 m[4] m[5]
  let v := quarter v 3 7 11 15 m[6] m[7]
  let v := quarter v 0 5 10 15 m[8] m[9]
  let v := quarter v 1 6 11 12 m[10] m[11]
  let v := quarter v 2 7 8 13 m[12] m[13]
  quarter v 3 4 9 14 m[14] m[15]

/-- The order of the words of the block in the next round. -/
def permute (m : Block) : Block :=
  #v[m[2], m[6], m[3], m[10], m[7], m[0], m[4], m[13], m[1], m[11], m[12], m[5], m[9], m[14],
    m[15], m[8]]

/-- A number of rounds, the block reordered between them. -/
def rounds : Nat → Block → Block → Block
  | 0, v, _ => v
  | n + 1, v, m => rounds n (round v m) (permute m)

/-- A compression that has not been run. -/
structure Node where
  /-- The chaining value it starts from. -/
  chain : Chain
  block : Block
  /-- The number of the chunk, zero for a parent. -/
  counter : Nat
  length : Nat
  /-- The role of the block, a bit each. -/
  flags : UInt32

/-- The first block of a chunk. -/
def chunkStart : UInt32 := 1

/-- The last block of a chunk. -/
def chunkEnd : UInt32 := 2

/-- A parent. -/
def parentFlag : UInt32 := 4

/-- The root. -/
def rootFlag : UInt32 := 8

/-- The state before the first round. -/
def Node.state (n : Node) : Block :=
  let h := n.chain
  #v[h[0], h[1], h[2], h[3], h[4], h[5], h[6], h[7], start[0], start[1], start[2], start[3],
    UInt32.ofNat n.counter, UInt32.ofNat (n.counter >>> 32), UInt32.ofNat n.length, n.flags]

/-- The chaining value of a compression. -/
def Node.compress (n : Node) : Chain :=
  let v := rounds 7 n.state n.block
  #v[v[0] ^^^ v[8], v[1] ^^^ v[9], v[2] ^^^ v[10], v[3] ^^^ v[11], v[4] ^^^ v[12], v[5] ^^^ v[13],
    v[6] ^^^ v[14], v[7] ^^^ v[15]]

/-- The word of four bytes, lowest first.  Missing bytes are zero. -/
def wordAt (bytes : List UInt8) (i : Nat) : UInt32 :=
  let b (k : Nat) : UInt32 := (bytes.getD (4 * i + k) 0).toUInt32
  b 0 ||| (b 1 <<< 8) ||| (b 2 <<< 16) ||| (b 3 <<< 24)

/-- The words of at most 64 bytes. -/
def blockOf (bytes : List UInt8) : Block := Vector.ofFn fun i => wordAt bytes i.val

/-- The last block of a chunk, the blocks before it compressed.  At most `fuel`
blocks come before it. -/
def chunkFrom (counter : Nat) : Nat → Chain → UInt32 → List UInt8 → Node
  | 0, chain, flags, bytes =>
      ⟨chain, blockOf bytes, counter, min bytes.length 64, flags ||| chunkEnd⟩
  | fuel + 1, chain, flags, bytes =>
      if bytes.length ≤ 64 then ⟨chain, blockOf bytes, counter, bytes.length, flags ||| chunkEnd⟩
      else
        let node : Node := ⟨chain, blockOf (bytes.take 64), counter, 64, flags⟩
        chunkFrom counter fuel node.compress 0 (bytes.drop 64)

/-- The last block of a chunk. -/
def chunk (counter : Nat) (bytes : List UInt8) : Node :=
  chunkFrom counter 16 start chunkStart bytes

/-- The chunks of an input, numbered from `counter` on.  At most `fuel` chunks
come before the last. -/
def chunksFrom : Nat → Nat → List UInt8 → List Node
  | 0, counter, bytes => [chunk counter bytes]
  | fuel + 1, counter, bytes =>
      if bytes.length ≤ 1024 then [chunk counter bytes]
      else chunk counter (bytes.take 1024) :: chunksFrom fuel (counter + 1) (bytes.drop 1024)

/-- The parent of two nodes. -/
def parent (left right : Node) : Node :=
  ⟨start, left.compress ++ right.compress, 0, 64, parentFlag⟩

/-- The next level of the tree. -/
def pairUp : List Node → List Node
  | left :: right :: rest => parent left right :: pairUp rest
  | rest => rest

/-- The root above a level of the tree, in at most `fuel` levels. -/
def root : Nat → Node → List Node → Node
  | 0, first, _ => first
  | _ + 1, first, [] => first
  | fuel + 1, first, second :: rest => root fuel (parent first second) (pairUp rest)

/-- The four bytes of a word, lowest first. -/
def wordBytes (w : UInt32) : List UInt8 :=
  [w.toUInt8, (w >>> 8).toUInt8, (w >>> 16).toUInt8, (w >>> 24).toUInt8]

/-- The root of the tree over an input. -/
def rootOf (bytes : List UInt8) : Node :=
  match chunksFrom bytes.length 0 bytes with
  | [] => chunk 0 []
  | first :: rest => root bytes.length first rest

/-- The hash of an input. -/
def hash (bytes : List UInt8) : List UInt8 :=
  let node := rootOf bytes
  { node with flags := node.flags ||| rootFlag }.compress.toList.flatMap wordBytes

theorem length_hash (bytes : List UInt8) : (hash bytes).length = 32 := by
  simp [hash, List.length_flatMap, wordBytes, List.map_const']

end JointCircuit.Blake3
