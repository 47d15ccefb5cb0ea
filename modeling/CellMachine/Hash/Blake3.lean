import CellMachine.Bytes

/-!
# BLAKE3

The 256-bit BLAKE3 digest of a byte string. The input is cut into chunks of 1024 bytes, a chunk
into blocks of 64 bytes, and the chunks are the leaves of a binary tree whose left subtrees are
complete and as large as possible. Every node is one compression; the compression at the root is
marked, and its first eight words are the digest.

Words are 32 bits wide and are read from and written to bytes with the low byte first.

Main statement: `length_digest` (a digest has 32 bytes).
-/

namespace CellMachine.Blake3

/-- Sixteen words: a message block, or the state of a compression. -/
structure Block where
  w0 : UInt32
  w1 : UInt32
  w2 : UInt32
  w3 : UInt32
  w4 : UInt32
  w5 : UInt32
  w6 : UInt32
  w7 : UInt32
  w8 : UInt32
  w9 : UInt32
  w10 : UInt32
  w11 : UInt32
  w12 : UInt32
  w13 : UInt32
  w14 : UInt32
  w15 : UInt32

/-- Eight words passed from one compression to the next. -/
structure Chain where
  w0 : UInt32
  w1 : UInt32
  w2 : UInt32
  w3 : UInt32
  w4 : UInt32
  w5 : UInt32
  w6 : UInt32
  w7 : UInt32

/-- The chaining value that every chunk starts from. -/
def Chain.start : Chain :=
  ⟨0x6A09E667, 0xBB67AE85, 0x3C6EF372, 0xA54FF53A, 0x510E527F, 0x9B05688C, 0x1F83D9AB, 0x5BE0CD19⟩

/-! ## Reading and writing words -/

/-- The word spelled by the first four bytes, with zeros for bytes that are absent. -/
def wordOf : Bytes → UInt32
  | a :: b :: c :: d :: _ =>
    a.toUInt32 ||| (b.toUInt32 <<< 8) ||| (c.toUInt32 <<< 16) ||| (d.toUInt32 <<< 24)
  | [a, b, c] => a.toUInt32 ||| (b.toUInt32 <<< 8) ||| (c.toUInt32 <<< 16)
  | [a, b] => a.toUInt32 ||| (b.toUInt32 <<< 8)
  | [a] => a.toUInt32
  | [] => 0

/-- The four bytes of a word. -/
def wordBytes (w : UInt32) : Bytes :=
  [w.toUInt8, (w >>> 8).toUInt8, (w >>> 16).toUInt8, (w >>> 24).toUInt8]

/-- The message block in the first 64 bytes, with zeros for bytes that are absent, and the bytes
after it. -/
def Block.read (b0 : Bytes) : Block × Bytes :=
  let b1 := b0.drop 4
  let b2 := b1.drop 4
  let b3 := b2.drop 4
  let b4 := b3.drop 4
  let b5 := b4.drop 4
  let b6 := b5.drop 4
  let b7 := b6.drop 4
  let b8 := b7.drop 4
  let b9 := b8.drop 4
  let b10 := b9.drop 4
  let b11 := b10.drop 4
  let b12 := b11.drop 4
  let b13 := b12.drop 4
  let b14 := b13.drop 4
  let b15 := b14.drop 4
  (⟨wordOf b0, wordOf b1, wordOf b2, wordOf b3, wordOf b4, wordOf b5, wordOf b6, wordOf b7,
    wordOf b8, wordOf b9, wordOf b10, wordOf b11, wordOf b12, wordOf b13, wordOf b14, wordOf b15⟩, b15.drop 4)

/-- The thirty-two bytes of a chaining value. -/
def Chain.toBytes (c : Chain) : Bytes :=
  wordBytes c.w0 ++ wordBytes c.w1 ++ wordBytes c.w2 ++ wordBytes c.w3 ++
    wordBytes c.w4 ++ wordBytes c.w5 ++ wordBytes c.w6 ++ wordBytes c.w7

/-! ## Compression -/

/-- Rotation of a word to the right by `n` places, for `0 < n < 32`. -/
@[inline] def rotate (w : UInt32) (n : UInt32) : UInt32 := (w >>> n) ||| (w <<< (32 - n))

/-- Mixes two message words into four state words. -/
@[inline] def quarter (a b c d x y : UInt32) : UInt32 × UInt32 × UInt32 × UInt32 :=
  let a := a + b + x
  let d := rotate (d ^^^ a) 16
  let c := c + d
  let b := rotate (b ^^^ c) 12
  let a := a + b + y
  let d := rotate (d ^^^ a) 8
  let c := c + d
  let b := rotate (b ^^^ c) 7
  (a, b, c, d)

/-- One round: the columns of the state are mixed, then its diagonals. -/
def round (s m : Block) : Block :=
  let (v0, v4, v8, v12) := quarter s.w0 s.w4 s.w8 s.w12 m.w0 m.w1
  let (v1, v5, v9, v13) := quarter s.w1 s.w5 s.w9 s.w13 m.w2 m.w3
  let (v2, v6, v10, v14) := quarter s.w2 s.w6 s.w10 s.w14 m.w4 m.w5
  let (v3, v7, v11, v15) := quarter s.w3 s.w7 s.w11 s.w15 m.w6 m.w7
  let (v0, v5, v10, v15) := quarter v0 v5 v10 v15 m.w8 m.w9
  let (v1, v6, v11, v12) := quarter v1 v6 v11 v12 m.w10 m.w11
  let (v2, v7, v8, v13) := quarter v2 v7 v8 v13 m.w12 m.w13
  let (v3, v4, v9, v14) := quarter v3 v4 v9 v14 m.w14 m.w15
  ⟨v0, v1, v2, v3, v4, v5, v6, v7,
   v8, v9, v10, v11, v12, v13, v14, v15⟩

/-- The order in which the next round reads the message. -/
def Block.permute (m : Block) : Block :=
  ⟨m.w2, m.w6, m.w3, m.w10, m.w7, m.w0, m.w4, m.w13,
   m.w1, m.w11, m.w12, m.w5, m.w9, m.w14, m.w15, m.w8⟩

/-- `n` rounds, with the message permuted between them. -/
def rounds : Nat → Block → Block → Block
  | 0, s, _ => s
  | n + 1, s, m => rounds n (round s m) m.permute

/-- The marks that tell the compressions of a tree apart. -/
def chunkStart : UInt32 := 1
@[inherit_doc chunkStart] def chunkEnd : UInt32 := 2
@[inherit_doc chunkStart] def parentNode : UInt32 := 4
@[inherit_doc chunkStart] def rootNode : UInt32 := 8

/-- A compression that has its input and still lacks its final mark. -/
structure Node where
  /-- The chaining value that enters. -/
  chain : Chain
  /-- The message block. -/
  block : Block
  /-- The number of the chunk. -/
  counter : UInt64
  /-- The number of message bytes in the block. -/
  size : UInt32
  /-- The marks known so far. -/
  marks : UInt32

/-- The chaining value that leaves a node which carries the further marks `more`. -/
def Node.compress (n : Node) (more : UInt32) : Chain :=
  let s : Block :=
    ⟨n.chain.w0, n.chain.w1, n.chain.w2, n.chain.w3, n.chain.w4, n.chain.w5, n.chain.w6, n.chain.w7,
     0x6A09E667, 0xBB67AE85, 0x3C6EF372, 0xA54FF53A,
     n.counter.toUInt32, (n.counter >>> 32).toUInt32, n.size, n.marks ||| more⟩
  let s := rounds 7 s n.block
  ⟨s.w0 ^^^ s.w8, s.w1 ^^^ s.w9, s.w2 ^^^ s.w10, s.w3 ^^^ s.w11,
   s.w4 ^^^ s.w12, s.w5 ^^^ s.w13, s.w6 ^^^ s.w14, s.w7 ^^^ s.w15⟩

/-! ## Chunks and the tree -/

/-- The last node of a chunk that has at most `left + 1` blocks to go, and the bytes after it. -/
def chunkFrom (counter : UInt64) : Nat → Chain → UInt32 → Bytes → Node × Bytes
  | 0, chain, marks, bs =>
    let (block, rest) := Block.read bs
    let size := if rest.isEmpty then bs.length else 64
    (⟨chain, block, counter, UInt32.ofNat size, marks ||| chunkEnd⟩, rest)
  | left + 1, chain, marks, bs =>
    let (block, rest) := Block.read bs
    if rest.isEmpty then
      (⟨chain, block, counter, UInt32.ofNat bs.length, marks ||| chunkEnd⟩, rest)
    else chunkFrom counter left ((Node.mk chain block counter 64 marks).compress 0) 0 rest

/-- The last node of the chunk with the given number, and the bytes after it. -/
def chunk (counter : UInt64) (bs : Bytes) : Node × Bytes :=
  chunkFrom counter 15 Chain.start chunkStart bs

/-- The node above two subtrees. -/
def parent (l r : Chain) : Node :=
  ⟨Chain.start,
   ⟨l.w0, l.w1, l.w2, l.w3, l.w4, l.w5, l.w6, l.w7, r.w0, r.w1, r.w2, r.w3, r.w4, r.w5, r.w6, r.w7⟩,
   0, 64, parentNode⟩

/-- The top node over at most `2 ^ height` chunks, the first of which has number `counter`, and the
bytes after them. -/
def tree : Nat → UInt64 → Bytes → Node × Bytes
  | 0, counter, bs => chunk counter bs
  | height + 1, counter, bs =>
    let (left, rest) := tree height counter bs
    if rest.isEmpty then (left, rest)
    else
      let (right, rest) := tree height (counter + UInt64.ofNat (1 <<< height)) rest
      (parent (left.compress 0) (right.compress 0), rest)

/-- The BLAKE3 digest of a byte string. -/
def digest (bs : Bytes) : Bytes :=
  ((tree (Nat.log2 (bs.length / 1024) + 1) 0 bs).1.compress rootNode).toBytes

@[simp] theorem length_digest (bs : Bytes) : (digest bs).length = 32 := rfl

end CellMachine.Blake3
