import Mathlib.Algebra.Group.Nat.Defs
import Mathlib.Logic.Equiv.Basic

/-!
# Block allocators

`BlockAllocator` hands out memory for objects from blocks and lists the objects in chunks of
pointers, which it places in the blocks too. Memory holds the live blocks and chunks of all
allocators. A block has a number that is never used again, and what is in it other than chunks is
left out. A history, which the code does not have, notes what happens.
-/

namespace Langsvr.BlockAllocator

/-- The arguments of the template. A block is an object, so that offsets in it do not overflow. -/
structure BlockParameters where
  blockSize : ℕ
  blockAlignment : ℕ
  alignment_pos : 0 < blockAlignment
  fits : blockSize + blockAlignment < 2 ^ 63

/-- The layout of a type for which `Create` compiles. -/
structure TypeLayout (B : BlockParameters) where
  size : ℕ
  alignment : ℕ
  size_pos : 0 < size
  size_le : size ≤ B.blockSize
  alignment_dvd : alignment ∣ B.blockAlignment

/-- An instance of the template. The layout of `Pointers` depends on the platform. -/
structure Template extends BlockParameters where
  pointers : TypeLayout toBlockParameters

abbrev Template.Layout (T : Template) := TypeLayout T.toBlockParameters

/-- A place in the data of a block. -/
structure Address where
  block : ℕ
  offset : ℕ
  deriving DecidableEq

structure Block where
  next : Option ℕ := none

/-- A chunk of pointers. The pointers that are set come first, and `count` is their number. -/
structure Pointers where
  ptrs : List Address := []
  next : Option Address := none
  prev : Option Address := none

def kMax : ℕ := 32

/-- The member `data` of an allocator. -/
structure Data where
  root : Option ℕ := none
  current : Option ℕ := none
  currentOffset : ℕ
  pointersRoot : Option Address := none
  pointersCurrent : Option Address := none
  count : ℕ := 0

def Data.initial (T : Template) : Data where
  currentOffset := T.blockSize

/-- Memory that is handed out for an object of a type. -/
structure Region (T : Template) where
  address : Address
  type : T.Layout

/-- What happens to an allocator, or to the two whose data are swapped. -/
inductive Event (T : Template) where
  | allocated (this : ℕ) (region : Region T)
  | created (this : ℕ) (object : Address)
  | reset (this : ℕ)
  | swapped (this rhs : ℕ)
  | destroyed (object : Address)
  | freed (block : ℕ)

/-- The memory, the allocators that exist, and the history, the last event first. -/
structure Store (T : Template) where
  blocks : ℕ → Option Block := fun _ => none
  chunks : Address → Option Pointers := fun _ => none
  fresh : ℕ := 0
  allocators : ℕ → Option Data := fun _ => none
  history : List (Event T) := []

/-- How the use of a pointer or a bound can go wrong. -/
inductive Fault where
  | null
  | dangling
  | unset
  | outOfFuel
  deriving DecidableEq

section Store

variable {T : Template}

namespace Store

/-- The data of an allocator. An allocator that does not exist has none of its own. -/
def data (st : Store T) (this : ℕ) : Data := (st.allocators this).getD (Data.initial T)

def setData (st : Store T) (this : ℕ) (data : Data) : Store T :=
  { st with allocators := Function.update st.allocators this (some data) }

def record (st : Store T) (event : Event T) : Store T :=
  { st with history := event :: st.history }

def setBlock (st : Store T) (b : ℕ) (block : Block) : Store T :=
  { st with blocks := Function.update st.blocks b (some block) }

def setChunk (st : Store T) (a : Address) (chunk : Pointers) : Store T :=
  { st with chunks := Function.update st.chunks a (some chunk) }

def block (st : Store T) : Option ℕ → Except Fault Block
  | none => .error .null
  | some b =>
    match st.blocks b with
    | some block => .ok block
    | none => .error .dangling

def chunk (st : Store T) : Option Address → Except Fault Pointers
  | none => .error .null
  | some a =>
    match st.chunks a with
    | some chunk => .ok chunk
    | none => .error .dangling

/-- `delete` of a block, with the chunks in it. -/
def delete (st : Store T) (b : ℕ) : Store T :=
  { st with
    blocks := Function.update st.blocks b none
    chunks := fun a => if a.block = b then none else st.chunks a
    history := .freed b :: st.history }

end Store

end Store

section Allocation

variable (T : Template)

/-- Arithmetic of `size_t`. -/
def sizeT (n : ℕ) : ℕ := n % 2 ^ 64

def roundUp (alignment value : ℕ) : ℕ :=
  sizeT (sizeT (value + alignment - 1) / alignment * alignment)

variable {T}

/-- The branch of `Allocate` in which the current block is full. -/
def newBlock (data : Data) (st : Store T) : Except Fault (Data × Store T) :=
  let prevBlock := data.current
  let current := st.fresh
  let st := { st.setBlock current {} with fresh := current + 1 }
  let data := { data with current := some current, currentOffset := 0 }
  match prevBlock with
  | some b => do
    let block ← st.block (some b)
    return (data, st.setBlock b { block with next := some current })
  | none => return ({ data with root := some current }, st)

/-- The part of `Allocate` that makes room: the offset is rounded up, and if the current block is
full there is a new one. -/
def makeRoom (this : ℕ) (type : T.Layout) (st : Store T) : Except Fault (Data × Store T) :=
  let data := { st.data this with
    currentOffset := roundUp type.alignment (st.data this).currentOffset }
  if T.blockSize < sizeT (data.currentOffset + type.size) then newBlock data st
  else .ok (data, st)

def allocate (this : ℕ) (type : T.Layout) (st : Store T) : Except Fault (Address × Store T) := do
  let (data, st) ← makeRoom this type st
  match data.current with
  | none => throw .null
  | some b =>
    let _ ← st.block (some b)
    let ptr := ⟨b, data.currentOffset⟩
    let data := { data with currentOffset := sizeT (data.currentOffset + type.size) }
    return (ptr, (st.setData this data).record (.allocated this ⟨ptr, type⟩))

/-- The branch of `AddObjectPointer` in which there is no chunk or the current one is full. -/
def newPointers (this : ℕ) (st : Store T) : Except Fault (Store T) := do
  let prevPointers := (st.data this).pointersCurrent
  let (current, st) ← allocate this T.pointers st
  let st := st.setChunk current { ptrs := [], next := none, prev := prevPointers }
  let data := { st.data this with pointersCurrent := some current }
  match prevPointers with
  | some a =>
    let chunk ← st.chunk (some a)
    return (st.setChunk a { chunk with next := some current }).setData this data
  | none => return st.setData this { data with pointersRoot := some current }

/-- The condition of `AddObjectPointer` for a new chunk. -/
def full (this : ℕ) (st : Store T) : Except Fault Bool :=
  match (st.data this).pointersCurrent with
  | none => .ok true
  | some a => do
    let chunk ← st.chunk (some a)
    return chunk.ptrs.length = kMax

def addObjectPointer (this : ℕ) (ptr : Address) (st : Store T) : Except Fault (Store T) := do
  let st ← if ← full this st then newPointers this st else Except.ok st
  match (st.data this).pointersCurrent with
  | none => throw .null
  | some a =>
    let chunk ← st.chunk (some a)
    return st.setChunk a { chunk with ptrs := chunk.ptrs ++ [ptr] }

/-- A call of `Create`, with the calls that the constructor makes. -/
inductive Creation (T : Template) where
  | mk (this : ℕ) (type : T.Layout) (constructor : List (Creation T))

mutual

def create : Creation T → Store T → Except Fault (Address × Store T)
  | ⟨this, type, constructor⟩, st => do
    let (ptr, st) ← allocate this type st
    let st ← createAll constructor st
    let st ← addObjectPointer this ptr st
    let data := st.data this
    return (ptr, (st.setData this { data with count := data.count + 1 }).record (.created this ptr))

def createAll : List (Creation T) → Store T → Except Fault (Store T)
  | [], st => .ok st
  | c :: cs, st => do
    let (_, st) ← create c st
    createAll cs st

end

end Allocation

section Iteration

variable {T : Template}

/-- `TIterator`. -/
structure Iterator where
  ptrs : Option Address
  idx : ℕ
  deriving DecidableEq

/-- `begin` of the objects of an allocator. -/
def begin (this : ℕ) (st : Store T) : Iterator := ⟨(st.data this).pointersRoot, 0⟩

/-- `end` of the objects of any allocator. -/
def past : Iterator := ⟨none, 0⟩

namespace Iterator

def increment (it : Iterator) (st : Store T) : Except Fault Iterator :=
  match it.ptrs with
  | none => .ok it
  | some a => do
    let idx := sizeT (it.idx + 1)
    let chunk ← st.chunk (some a)
    if chunk.ptrs.length ≤ idx then return ⟨chunk.next, 0⟩
    else return ⟨some a, idx⟩

def decrement (it : Iterator) (st : Store T) : Except Fault Iterator :=
  match it.ptrs with
  | none => .ok it
  | some a => do
    let it ←
      if it.idx = 0 then do
        let chunk ← st.chunk (some a)
        let prev ← st.chunk chunk.prev
        Except.ok ⟨chunk.prev, sizeT (prev.ptrs.length + 2 ^ 64 - 1)⟩
      else Except.ok it
    return { it with idx := sizeT (it.idx + 2 ^ 64 - 1) }

def value (it : Iterator) (st : Store T) : Except Fault Address := do
  let chunk ← st.chunk it.ptrs
  match chunk.ptrs[it.idx]? with
  | some object => return object
  | none => throw .unset

end Iterator

end Iteration

section Destruction

variable {T : Template}

/-- The loop of `Reset` over the objects. -/
def destroyObjects : ℕ → Iterator → Store T → Except Fault (Store T)
  | fuel, it, st =>
    if it = past then .ok st
    else
      match fuel with
      | 0 => .error .outOfFuel
      | fuel + 1 => do
        let object ← it.value st
        let it ← it.increment (st.record (.destroyed object))
        destroyObjects fuel it (st.record (.destroyed object))

/-- The loop of `Reset` over the blocks. -/
def deleteBlocks : ℕ → Option ℕ → Store T → Except Fault (Store T)
  | _, none, st => .ok st
  | 0, some _, _ => .error .outOfFuel
  | fuel + 1, some b, st => do
    let block ← st.block (some b)
    deleteBlocks fuel block.next (st.delete b)

/-- `Reset`. The bounds on the loops are never reached. -/
def reset (this : ℕ) (st : Store T) : Except Fault (Store T) := do
  let st ← destroyObjects (st.data this).count (begin this st) st
  let st ← deleteBlocks st.fresh (st.data this).root st
  return (st.setData this (Data.initial T)).record (.reset this)

/-- `std::swap` of the data of two allocators. -/
def swap (this rhs : ℕ) (st : Store T) : Store T :=
  ((st.setData this (st.data rhs)).setData rhs (st.data this)).record (.swapped this rhs)

end Destruction

section Programs

variable {T : Template}

/-- What a program does with allocators. -/
inductive Operation (T : Template) where
  | construct (this : ℕ)
  | create (creation : Creation T)
  | reset (this : ℕ)
  | moveConstruct (this rhs : ℕ)
  | moveAssign (this rhs : ℕ)
  | destroy (this : ℕ)

def Store.Exists (st : Store T) (this : ℕ) : Prop := (st.allocators this).isSome

mutual

/-- The allocators in which a call of `Create` creates objects exist. -/
def Creation.Allowed (st : Store T) : Creation T → Prop
  | ⟨this, _, constructor⟩ => st.Exists this ∧ AllAllowed st constructor

def Creation.AllAllowed (st : Store T) : List (Creation T) → Prop
  | [] => True
  | c :: cs => c.Allowed st ∧ AllAllowed st cs

end

/-- An operation uses allocators that exist and constructs one that does not. -/
def Operation.Allowed (st : Store T) : Operation T → Prop
  | construct this => ¬ st.Exists this
  | create creation => creation.Allowed st
  | reset this => st.Exists this
  | moveConstruct this rhs => ¬ st.Exists this ∧ st.Exists rhs
  | moveAssign this rhs => st.Exists this ∧ st.Exists rhs
  | destroy this => st.Exists this

def step (st : Store T) : Operation T → Except Fault (Store T)
  | .construct this => .ok (st.setData this (Data.initial T))
  | .create creation => do
    let (_, st) ← BlockAllocator.create creation st
    return st
  | .reset this => BlockAllocator.reset this st
  | .moveConstruct this rhs => .ok (swap this rhs (st.setData this (Data.initial T)))
  | .moveAssign this rhs =>
    if this = rhs then .ok st
    else do
      let st ← BlockAllocator.reset this st
      return swap this rhs st
  | .destroy this => do
    let st ← BlockAllocator.reset this st
    return { st with allocators := Function.update st.allocators this none }

inductive Reachable : Store T → Prop
  | initial : Reachable {}
  | step {st st' : Store T} {op : Operation T} (h : Reachable st) (hop : op.Allowed st)
      (hstep : BlockAllocator.step st op = .ok st') : Reachable st'

end Programs

end Langsvr.BlockAllocator
