namespace TourPricing.Random

/-- A state of the cipher: constants, key, block counter and nonce, word by word. -/
abbrev Block := Vector UInt32 16

def rotateLeft (w : UInt32) (k : UInt32) : UInt32 :=
  (w <<< k) ||| (w >>> (32 - k))

/-- Mixes four words of a state. -/
def quarterRound (s : Block) (a b c d : Fin 16) : Block :=
  let s := s.set a (s[a] + s[b])
  let s := s.set d (rotateLeft (s[d] ^^^ s[a]) 16)
  let s := s.set c (s[c] + s[d])
  let s := s.set b (rotateLeft (s[b] ^^^ s[c]) 12)
  let s := s.set a (s[a] + s[b])
  let s := s.set d (rotateLeft (s[d] ^^^ s[a]) 8)
  let s := s.set c (s[c] + s[d])
  s.set b (rotateLeft (s[b] ^^^ s[c]) 7)

/-- A round on the columns, then one on the diagonals. -/
def doubleRound (s : Block) : Block :=
  let s := quarterRound s 0 4 8 12
  let s := quarterRound s 1 5 9 13
  let s := quarterRound s 2 6 10 14
  let s := quarterRound s 3 7 11 15
  let s := quarterRound s 0 5 10 15
  let s := quarterRound s 1 6 11 12
  let s := quarterRound s 2 7 8 13
  quarterRound s 3 4 9 14

/-- Eight rounds, added to the state they started from. -/
def scramble (s : Block) : Block :=
  let mixed := (List.range 4).foldl (fun s _ => doubleRound s) s
  mixed.zipWith (· + ·) s

/-- The word that a state of the key schedule yields: its upper bits, rotated. -/
def keyWord (state : UInt64) : UInt32 :=
  let mixed := (((state >>> 18) ^^^ state) >>> 27).toUInt32
  let turn := (state >>> 59).toUInt32
  (mixed >>> turn) ||| (mixed <<< ((32 - turn) % 32))

def keyStep (state : UInt64) : UInt64 :=
  state * 6364136223846793005 + 11634580027462260723

def keyWords : Nat → UInt64 → List UInt32
  | 0, _ => []
  | n + 1, state => keyWord (keyStep state) :: keyWords n (keyStep state)

/-- A generator: its key, and how many 64-bit words it has given out. -/
structure Generator where
  key : List UInt32
  drawn : Nat

def Generator.seeded (seed : UInt64) : Generator :=
  ⟨keyWords 8 seed, 0⟩

def Generator.block (g : Generator) (index : Nat) : Block :=
  let counter := [index.toUInt32, (index / Nat.pow 2 32).toUInt32, 0, 0]
  let words := [0x61707865, 0x3320646E, 0x79622D32, 0x6B206574] ++ g.key ++ counter
  scramble (Vector.ofFn fun i => words.getD i 0)

/-- The next 64 bits: two words of the key stream, the low one first. -/
def Generator.next (g : Generator) : UInt64 × Generator :=
  let b := g.block (g.drawn / 8)
  let low := b.toArray.getD (2 * (g.drawn % 8)) 0
  let high := b.toArray.getD (2 * (g.drawn % 8) + 1) 0
  (low.toUInt64 + (high.toUInt64 <<< 32), { g with drawn := g.drawn + 1 })

/-- The largest lower half of a product with `k` that is accepted, so that every outcome is equally
likely: the multiples of `k` up to `2 ^ 64`, scaled by a power of two. -/
def acceptedBelow (k : Nat) : Nat :=
  k * Nat.pow 2 (63 - Nat.log2 k)

/-- A number below `k`: the upper half of the product of `k` and 64 random bits. Products with a
lower half that is not accepted are drawn again, `tries` times at most. -/
def Generator.below (k : Nat) (hk : 0 < k) : (tries : Nat) → Generator → Fin k × Generator
  | 0, g => (⟨0, hk⟩, g)
  | tries + 1, g =>
    let (v, g) := g.next
    if v.toNat * k % Nat.pow 2 64 < acceptedBelow k then
      (⟨v.toNat * k / Nat.pow 2 64,
        Nat.div_lt_of_lt_mul (Nat.mul_lt_mul_of_pos_right v.toNat_lt hk)⟩, g)
    else g.below k hk tries

end TourPricing.Random
