import TensorGraph.Data

/-!
Memory of one device: blocks that live as long as somebody holds them. Blocks are numbered in the
order of their allocation and a number is never given twice, so a number that outlives its block
refers to nothing.
-/

namespace TensorGraph

/-- Number of a block in the memory of its device. -/
abbrev BlockId := Nat

/-- An allocation. -/
structure Block where
  data : Data
  /-- Size in bytes, fixed when the block is made. -/
  bytes : Nat
  /-- How many slots and handles refer to the block. -/
  holders : Nat
  /-- Whether a kernel broke off while it wrote the block, so that its contents are unknown. -/
  broken : Bool := false
  deriving Inhabited

/-- The blocks of a device. -/
structure Memory where
  blocks : Array (Option Block) := #[]
  /-- Bytes of the blocks that live. -/
  inUse : Nat := 0
  deriving Inhabited

namespace Memory

/-- The block of that number, while it lives. -/
def get? (m : Memory) (b : BlockId) : Option Block := m.blocks[b]?.join

/-- Replaces what lives under a number. -/
def set (m : Memory) (b : BlockId) (block : Option Block) : Memory :=
  { m with blocks := m.blocks.setIfInBounds b block }

/-- The number of the next block. -/
def next (m : Memory) : BlockId := m.blocks.size

/-- A block of zeros with one holder. -/
def alloc (m : Memory) (kind : Kind) (n : Nat) : Memory :=
  let bytes := n * kind.bytes
  { blocks := m.blocks.push (some { data := .zeros kind n, bytes, holders := 1 })
    inUse := m.inUse + bytes }

/-- Adds a holder. -/
def retain (m : Memory) (b : BlockId) : Memory :=
  match m.get? b with
  | some block => m.set b (some { block with holders := block.holders + 1 })
  | none => m

/-- Removes a holder. A block without holders is freed. -/
def release (m : Memory) (b : BlockId) : Memory :=
  match m.get? b with
  | some block =>
    if block.holders ≤ 1 then { m.set b none with inUse := m.inUse - block.bytes }
    else m.set b (some { block with holders := block.holders - 1 })
  | none => m

/-- Replaces the contents of a block. -/
def write (m : Memory) (b : BlockId) (data : Data) : Memory :=
  match m.get? b with
  | some block => m.set b (some { block with data })
  | none => m

/-- Marks a block whose contents are unknown. -/
def damage (m : Memory) (b : BlockId) : Memory :=
  match m.get? b with
  | some block => m.set b (some { block with broken := true })
  | none => m

/-- Number of holders of a block. -/
def holders (m : Memory) (b : BlockId) : Nat :=
  match m.get? b with
  | some block => block.holders
  | none => 0

end Memory

end TensorGraph
