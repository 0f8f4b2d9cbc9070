import CallScript.FixedBytes

/-!
# Keccak-256

The sponge with a rate of 136 bytes over the permutation of 25 lanes of 64 bits, in 24 rounds. The
padding is a single one bit, zeros and a single one bit, with no domain suffix.
-/

namespace CallScript.Keccak

/-- Five lanes of one row. -/
structure Plane where
  x0 : UInt64
  x1 : UInt64
  x2 : UInt64
  x3 : UInt64
  x4 : UInt64

/-- Five rows of lanes. -/
structure State where
  y0 : Plane
  y1 : Plane
  y2 : Plane
  y3 : Plane
  y4 : Plane

namespace Plane

def xor (p q : Plane) : Plane :=
  ⟨p.x0 ^^^ q.x0, p.x1 ^^^ q.x1, p.x2 ^^^ q.x2, p.x3 ^^^ q.x3, p.x4 ^^^ q.x4⟩

/-- Row step: each lane is combined with its two right neighbours. -/
def chi (p : Plane) : Plane :=
  ⟨p.x0 ^^^ (~~~p.x1 &&& p.x2), p.x1 ^^^ (~~~p.x2 &&& p.x3), p.x2 ^^^ (~~~p.x3 &&& p.x4),
    p.x3 ^^^ (~~~p.x4 &&& p.x0), p.x4 ^^^ (~~~p.x0 &&& p.x1)⟩

/-- The row of the lanes at positions `i` to `i + 4`; missing lanes are zero. -/
def ofLanes (lanes : List UInt64) (i : Nat) : Plane :=
  ⟨lanes.getD i 0, lanes.getD (i + 1) 0, lanes.getD (i + 2) 0, lanes.getD (i + 3) 0,
    lanes.getD (i + 4) 0⟩

end Plane

/-- Rotation to the left by `k` bits, `0 < k < 64`. -/
def rotate (lane : UInt64) (k : UInt64) : UInt64 :=
  (lane <<< k) ||| (lane >>> (64 - k))

namespace State

def zero : State :=
  let p : Plane := ⟨0, 0, 0, 0, 0⟩
  ⟨p, p, p, p, p⟩

def xor (s t : State) : State :=
  ⟨s.y0.xor t.y0, s.y1.xor t.y1, s.y2.xor t.y2, s.y3.xor t.y3, s.y4.xor t.y4⟩

/-- Lanes row by row. -/
def ofLanes (lanes : List UInt64) : State :=
  ⟨.ofLanes lanes 0, .ofLanes lanes 5, .ofLanes lanes 10, .ofLanes lanes 15, .ofLanes lanes 20⟩

/-- Column step: every lane is combined with the parities of two neighbouring columns. -/
def theta (s : State) : State :=
  let c := (((s.y0.xor s.y1).xor s.y2).xor s.y3).xor s.y4
  let d : Plane := ⟨c.x4 ^^^ rotate c.x1 1, c.x0 ^^^ rotate c.x2 1, c.x1 ^^^ rotate c.x3 1,
    c.x2 ^^^ rotate c.x4 1, c.x3 ^^^ rotate c.x0 1⟩
  ⟨s.y0.xor d, s.y1.xor d, s.y2.xor d, s.y3.xor d, s.y4.xor d⟩

/-- Lane step: every lane is rotated by its own amount and moved to its new place. -/
def scatter (s : State) : State where
  y0 := ⟨s.y0.x0, rotate s.y1.x1 44, rotate s.y2.x2 43, rotate s.y3.x3 21, rotate s.y4.x4 14⟩
  y1 := ⟨rotate s.y0.x3 28, rotate s.y1.x4 20, rotate s.y2.x0 3, rotate s.y3.x1 45,
    rotate s.y4.x2 61⟩
  y2 := ⟨rotate s.y0.x1 1, rotate s.y1.x2 6, rotate s.y2.x3 25, rotate s.y3.x4 8,
    rotate s.y4.x0 18⟩
  y3 := ⟨rotate s.y0.x4 27, rotate s.y1.x0 36, rotate s.y2.x1 10, rotate s.y3.x2 15,
    rotate s.y4.x3 56⟩
  y4 := ⟨rotate s.y0.x2 62, rotate s.y1.x3 55, rotate s.y2.x4 39, rotate s.y3.x0 41,
    rotate s.y4.x1 2⟩

/-- One round; the constant breaks the symmetry between rounds. -/
def round (s : State) (constant : UInt64) : State :=
  let t := s.theta.scatter
  let y0 := t.y0.chi
  ⟨⟨y0.x0 ^^^ constant, y0.x1, y0.x2, y0.x3, y0.x4⟩, t.y1.chi, t.y2.chi, t.y3.chi, t.y4.chi⟩

end State

/-- The constants of the 24 rounds. -/
def roundConstants : List UInt64 :=
  [0x0000000000000001, 0x0000000000008082, 0x800000000000808a, 0x8000000080008000,
   0x000000000000808b, 0x0000000080000001, 0x8000000080008081, 0x8000000000008009,
   0x000000000000008a, 0x0000000000000088, 0x0000000080008009, 0x000000008000000a,
   0x000000008000808b, 0x800000000000008b, 0x8000000000008089, 0x8000000000008003,
   0x8000000000008002, 0x8000000000000080, 0x000000000000800a, 0x800000008000000a,
   0x8000000080008081, 0x8000000000008080, 0x0000000080000001, 0x8000000080008008]

/-- The permutation of the state. -/
def permute (s : State) : State :=
  roundConstants.foldl State.round s

/-- Bytes taken in per permutation. -/
def rate : Nat := 136

/-- The message followed by its padding, a whole number of blocks. -/
def pad (message : Bytes) : Bytes :=
  match rate - message.length % rate with
  | 1 => message ++ [0x81]
  | room => message ++ 0x01 :: List.replicate (room - 2) 0 ++ [0x80]

/-- The lanes of a block, each with its least significant byte first. -/
def lanes (block : Bytes) : List UInt64 :=
  (block.chunks 8).map fun lane => UInt64.ofNat lane.toNatLE

/-- Takes one block in. -/
def absorb (s : State) (block : Bytes) : State :=
  permute (s.xor (.ofLanes (lanes block)))

/-- The first four lanes of a state. -/
def squeeze (s : State) : FixedBytes 32 where
  bytes := [s.y0.x0, s.y0.x1, s.y0.x2, s.y0.x3].flatMap fun lane => Bytes.ofNatLE 8 lane.toNat
  length_eq := by simp

/-- The digest of a message. -/
def digest (message : Bytes) : FixedBytes 32 :=
  squeeze (((pad message).chunks rate).foldl absorb .zero)

end CallScript.Keccak
