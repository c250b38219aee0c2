/-!
# Handles

Blocks, instructions and values of a function are named by their index in the arena that holds
them. An arena only grows, so a handle names the same thing for as long as its function lives.
A handle made from an outside number keeps the low 32 bits of it (`handleIndex`).
-/

namespace LoopHoist

/-- The number of different handles of one kind: two to the power of 32. -/
def handleCount : Nat := 4294967296

/-- The index that a handle keeps of an outside number: its low 32 bits. -/
def handleIndex (n : Nat) : Nat := n % handleCount

/-- A number below the count of handles is kept as it is. -/
theorem handleIndex_of_lt {n : Nat} (h : n < handleCount) : handleIndex n = n := Nat.mod_eq_of_lt h

/-- Every handle index is below the count of handles. -/
theorem handleIndex_lt (n : Nat) : handleIndex n < handleCount := Nat.mod_lt _ (by decide)

/-- A basic block, by its place in the layout; block order is program order. -/
structure BlockId where
  /-- The place of the block in the layout. -/
  index : Nat
deriving DecidableEq, Inhabited

/-- An instruction, by its place in the order of creation. -/
structure InstId where
  /-- The place of the instruction in the arena. -/
  index : Nat
deriving DecidableEq, Inhabited

/-- A value, by its place in the order of allocation. -/
structure ValueId where
  /-- The place of the value in the arena. -/
  index : Nat
deriving DecidableEq, Inhabited

/-- The block handle of an outside number. -/
def BlockId.ofNat (n : Nat) : BlockId := ⟨handleIndex n⟩

/-- The instruction handle of an outside number. -/
def InstId.ofNat (n : Nat) : InstId := ⟨handleIndex n⟩

/-- The value handle of an outside number. -/
def ValueId.ofNat (n : Nat) : ValueId := ⟨handleIndex n⟩

/-- A block is written `bb3`. -/
def BlockId.text (b : BlockId) : String := "bb" ++ b.index.repr

/-- An instruction is written `i4`. -/
def InstId.text (i : InstId) : String := "i" ++ i.index.repr

/-- A value is written `v5`. -/
def ValueId.text (v : ValueId) : String := "v" ++ v.index.repr

/-- Blocks compare by program order. -/
def BlockId.order (a b : BlockId) : Ordering := compare a.index b.index

end LoopHoist
