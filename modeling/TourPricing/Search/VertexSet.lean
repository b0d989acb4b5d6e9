namespace TourPricing

/-- A set of vertices, vertex `v` being a member if bit `v` is set. -/
structure VertexSet where
  blocks : Nat
  bits : Nat
deriving DecidableEq, Inhabited

namespace VertexSet

def empty (n : Nat) : VertexSet :=
  ⟨(n + 63) / 64, 0⟩

def covers (s : VertexSet) (v : Nat) : Bool :=
  v < 64 * s.blocks

def contains (s : VertexSet) (v : Nat) : Bool :=
  s.bits.testBit v

def insert (s : VertexSet) (v : Nat) : VertexSet :=
  { s with bits := s.bits ||| 1 <<< v }

/-- Whether every member that the other set has room for is a member of it. -/
def isSubset (s t : VertexSet) : Bool :=
  let shared := s.bits % Nat.pow 2 (64 * t.blocks)
  shared &&& t.bits == shared

def contains? (s : VertexSet) (v : Nat) : Option Bool :=
  if s.covers v then some (s.contains v) else none

def insert? (s : VertexSet) (v : Nat) : Option VertexSet :=
  if s.covers v then some (s.insert v) else none

@[simp] theorem contains_empty (n v : Nat) : (empty n).contains v = false := by
  simp [empty, contains]

@[simp] theorem contains_insert (s : VertexSet) (v w : Nat) :
    (s.insert v).contains w = (s.contains w || decide (v = w)) := by
  simp only [insert, contains, Nat.testBit_or, Nat.shiftLeft_eq, Nat.one_mul, Nat.testBit_two_pow]

@[simp] theorem blocks_insert (s : VertexSet) (v : Nat) : (s.insert v).blocks = s.blocks := rfl

theorem isSubset_iff {s t : VertexSet} : s.isSubset t = true ↔
    ∀ v < 64 * t.blocks, s.contains v = true → t.contains v = true := by
  have hbit (v : Nat) : (s.bits % Nat.pow 2 (64 * t.blocks)).testBit v =
      (decide (v < 64 * t.blocks) && s.contains v) :=
    Nat.testBit_mod_two_pow s.bits (64 * t.blocks) v
  rw [isSubset, beq_iff_eq]
  constructor
  · intro h v hv hs
    have hv' := congrArg (Nat.testBit · v) h
    simp only [Nat.testBit_and, hbit, hv, hs, decide_true, Bool.true_and] at hv'
    exact hv'
  · intro h
    refine Nat.eq_of_testBit_eq fun v => ?_
    rw [Nat.testBit_and, hbit]
    by_cases hv : v < 64 * t.blocks
    · cases hs : s.contains v with
      | false => simp
      | true =>
        have ht : t.bits.testBit v = true := h v hv hs
        simp [hv, ht]
    · simp [hv]

end VertexSet

end TourPricing
