import StellarWind.Random.Source

/-!
# The stream of a seed

Words from the ChaCha stream cipher with twelve rounds. The key is made from a
64-bit seed; the counter starts at zero and the nonce is zero.
-/

namespace StellarWind

/-- A position in the stream of a key. -/
structure ChaCha where
  key : List UInt32
  /-- The number of the next block. -/
  counter : UInt64
  /-- The words of the current block that are left. -/
  left : List UInt32

namespace ChaCha

/-! ### Keys -/

/-- One step of the generator that spreads a seed. -/
def spread (s : UInt64) : UInt64 := s * 6364136223846793005 + 11634580027462260723

def rotateRight (x : UInt32) (n : UInt32) : UInt32 := (x >>> n) ||| (x <<< ((32 - n) % 32))

def rotateLeft (x : UInt32) (n : UInt32) : UInt32 := (x <<< n) ||| (x >>> (32 - n))

/-- The word that a state of the generator gives. -/
def output (s : UInt64) : UInt32 :=
  rotateRight (((s >>> 18) ^^^ s) >>> 27).toUInt32 (s >>> 59).toUInt32

def keyWords : Nat → UInt64 → List UInt32
  | 0, _ => []
  | n + 1, s => output (spread s) :: keyWords n (spread s)

def ofSeed (seed : UInt64) : ChaCha := ⟨keyWords 8 seed, 0, []⟩

/-! ### Blocks -/

structure Quad where
  a : UInt32
  b : UInt32
  c : UInt32
  d : UInt32

/-- The mixing of four words. -/
def Quad.mix (q : Quad) : Quad :=
  let a := q.a + q.b
  let d := rotateLeft (q.d ^^^ a) 16
  let c := q.c + d
  let b := rotateLeft (q.b ^^^ c) 12
  let a := a + b
  let d := rotateLeft (d ^^^ a) 8
  let c := c + d
  let b := rotateLeft (b ^^^ c) 7
  ⟨a, b, c, d⟩

/-- Mix the words at four places. -/
def mixAt (x : Array UInt32) (i j k l : Nat) : Array UInt32 :=
  let q := (Quad.mk (x.getD i 0) (x.getD j 0) (x.getD k 0) (x.getD l 0)).mix
  (((x.setIfInBounds i q.a).setIfInBounds j q.b).setIfInBounds k q.c).setIfInBounds l q.d

/-- A round over the columns and one over the diagonals. -/
def doubleRound (x : Array UInt32) : Array UInt32 :=
  let x := mixAt x 0 4 8 12
  let x := mixAt x 1 5 9 13
  let x := mixAt x 2 6 10 14
  let x := mixAt x 3 7 11 15
  let x := mixAt x 0 5 10 15
  let x := mixAt x 1 6 11 12
  let x := mixAt x 2 7 8 13
  mixAt x 3 4 9 14

def initial (key : List UInt32) (counter : UInt64) : List UInt32 :=
  ([0x61707865, 0x3320646e, 0x79622d32, 0x6b206574] : List UInt32) ++ key ++
    [counter.toUInt32, (counter >>> 32).toUInt32, 0, 0]

def block (key : List UInt32) (counter : UInt64) : List UInt32 :=
  let start := initial key counter
  let mixed := (List.range 6).foldl (fun x _ => doubleRound x) start.toArray
  List.zipWith (· + ·) mixed.toList start

def next (g : ChaCha) : UInt32 × ChaCha :=
  match g.left with
  | w :: rest => (w, { g with left := rest })
  | [] =>
    match block g.key g.counter with
    | w :: rest => (w, { g with counter := g.counter + 1, left := rest })
    | [] => (0, g)

instance : RandomSource ChaCha := ⟨next⟩

end ChaCha

end StellarWind
