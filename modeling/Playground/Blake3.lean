/-! The BLAKE3 hash of bytes: chunks of 1024 bytes in blocks of 64, and a tree over the chunks. -/

namespace Playground.Blake3

abbrev Chain := Vector UInt32 8

abbrev Block := Vector UInt32 16

def start : Chain :=
  #v[0x6a09e667, 0xbb67ae85, 0x3c6ef372, 0xa54ff53a, 0x510e527f, 0x9b05688c, 0x1f83d9ab, 0x5be0cd19]

def permutation : Vector (Fin 16) 16 := #v[2, 6, 3, 10, 7, 0, 4, 13, 1, 11, 12, 5, 9, 14, 15, 8]

def chunkStart : UInt32 := 1

def chunkEnd : UInt32 := 2

def parentFlag : UInt32 := 4

def rootFlag : UInt32 := 8

def rotateRight (w n : UInt32) : UInt32 := (w >>> n) ||| (w <<< (32 - n))

def mix (s : Block) (a b c d : Fin 16) (x y : UInt32) : Block :=
  let a₁ := s[a] + s[b] + x
  let d₁ := rotateRight (s[d] ^^^ a₁) 16
  let c₁ := s[c] + d₁
  let b₁ := rotateRight (s[b] ^^^ c₁) 12
  let a₂ := a₁ + b₁ + y
  let d₂ := rotateRight (d₁ ^^^ a₂) 8
  let c₂ := c₁ + d₂
  let b₂ := rotateRight (b₁ ^^^ c₂) 7
  (((s.set a a₂).set b b₂).set c c₂).set d d₂

def round (s m : Block) : Block :=
  let s := mix s 0 4 8 12 m[0] m[1]
  let s := mix s 1 5 9 13 m[2] m[3]
  let s := mix s 2 6 10 14 m[4] m[5]
  let s := mix s 3 7 11 15 m[6] m[7]
  let s := mix s 0 5 10 15 m[8] m[9]
  let s := mix s 1 6 11 12 m[10] m[11]
  let s := mix s 2 7 8 13 m[12] m[13]
  mix s 3 4 9 14 m[14] m[15]

def permute (m : Block) : Block := permutation.map fun i => m[i]

def rounds : Nat → Block → Block → Block
  | 0, s, _ => s
  | n + 1, s, m => rounds n (round s m) (permute m)

structure Node where
  chain : Chain
  block : Block
  counter : Nat
  length : Nat
  flags : UInt32

namespace Node

def compress (n : Node) : Block :=
  let chain := n.chain
  let state : Block :=
    #v[chain[0], chain[1], chain[2], chain[3], chain[4], chain[5], chain[6], chain[7],
      start[0], start[1], start[2], start[3],
      n.counter.toUInt32, (n.counter / Nat.pow 2 32).toUInt32, n.length.toUInt32, n.flags]
  rounds 7 state n.block

def output (n : Node) : Chain :=
  let s := n.compress
  #v[s[0] ^^^ s[8], s[1] ^^^ s[9], s[2] ^^^ s[10], s[3] ^^^ s[11], s[4] ^^^ s[12], s[5] ^^^ s[13],
    s[6] ^^^ s[14], s[7] ^^^ s[15]]

end Node

def pieces {α : Type} (n : Nat) (xs : List α) : List (List α) :=
  match xs with
  | [] => []
  | x :: rest => (x :: rest.take n) :: pieces n (rest.drop n)
termination_by xs.length
decreasing_by
  rw [List.length_drop, List.length_cons]
  omega

def word (bytes : List UInt8) : UInt32 :=
  bytes.foldr (fun b w => (w <<< 8) ||| b.toUInt32) 0

def blockOf (bytes : List UInt8) : Block :=
  let words := (pieces 3 bytes).map word
  Vector.ofFn fun i => words[i.val]?.getD 0

def chunkBlocks (counter : Nat) (flags : UInt32) (chain : Chain) : List (List UInt8) → Node
  | [] => ⟨chain, blockOf [], counter, 0, flags ||| chunkEnd⟩
  | [last] => ⟨chain, blockOf last, counter, last.length, flags ||| chunkEnd⟩
  | block :: more =>
    chunkBlocks counter 0 (Node.output ⟨chain, blockOf block, counter, block.length, flags⟩) more

def chunkNode (counter : Nat) (bytes : List UInt8) : Node :=
  chunkBlocks counter chunkStart start (pieces 63 bytes)

def parentNode (left right : Chain) : Node := ⟨start, left ++ right, 0, 64, parentFlag⟩

def treeNode (counter : Nat) (chunks : List (List UInt8)) : Node :=
  match chunks with
  | [] => chunkNode counter []
  | [only] => chunkNode counter only
  | first :: second :: more =>
    let half := Nat.pow 2 (more.length + 1).log2
    have _small : half ≤ more.length + 1 := Nat.log2_self_le (by omega)
    have _some : 0 < half := Nat.two_pow_pos _
    parentNode (treeNode counter ((first :: second :: more).take half)).output
      (treeNode (counter + half) ((first :: second :: more).drop half)).output
termination_by chunks.length
decreasing_by all_goals simp only [List.length_take, List.length_drop, List.length_cons]; omega

def bytesOfWord (w : UInt32) : List UInt8 :=
  [w.toUInt8, (w >>> 8).toUInt8, (w >>> 16).toUInt8, (w >>> 24).toUInt8]

def hash (bytes : List UInt8) : List UInt8 :=
  let root := treeNode 0 (pieces 1023 bytes)
  (Node.output { root with flags := root.flags ||| rootFlag }).toList.flatMap bytesOfWord

end Playground.Blake3
