import CppCores.Lib.Blocks
import CppCores.Lib.Rounding

/-!
# ByteArray: the byte stream of `utils/bytearray.cc`

`m_root` is a chain of nodes that `m_cur` walks along; here the chain is the list `nodes` and a
pointer into it is an index, `none` for the null pointer.  A byte of a node that was never written
is `none`.  A call ends with what it read, with the exception `std::out_of_range`, or in a
dereference of the null pointer; the loops of `write` and `read` walk along the rest of the chain.
Sizes are natural numbers: no sum of the calls modelled here reaches `2 ^ 64` while the sizes are
below `2 ^ 53`, and `getCapacity` and `getReadSize` subtract the smaller from the larger.
-/

set_option linter.unusedSectionVars false

namespace CppCores
namespace Bytes

structure Node where
  ptr : List (Option UInt8)
  size : ℕ
  deriving DecidableEq, Repr

namespace Node

def new (s : ℕ) : Node := ⟨List.replicate s none, s⟩

/-- `memcpy(ptr + npos, src, ...)` -/
def copyIn (n : Node) (npos : ℕ) (src : List UInt8) : Node :=
  { n with ptr := patch n.ptr npos (src.map some) }

/-- `memcpy(..., ptr + npos, size)` -/
def copyOut (n : Node) (npos size : ℕ) : List (Option UInt8) := (n.ptr.drop npos).take size

end Node

structure ByteArray where
  m_baseSize : ℕ
  m_position : ℕ
  m_capacity : ℕ
  m_size : ℕ
  nodes : List Node
  m_cur : Option ℕ
  deriving DecidableEq, Repr

/-- how a call ends -/
inductive Outcome where
  /-- it returns; `buf` is what it read -/
  | done (buf : List (Option UInt8))
  | out_of_range
  | null_deref
  deriving DecidableEq, Repr

namespace ByteArray

def new (base_size : ℕ) : ByteArray where
  m_baseSize := base_size
  m_position := 0
  m_capacity := base_size
  m_size := 0
  nodes := [.new base_size]
  m_cur := some 0

def getReadSize (s : ByteArray) : ℕ := s.m_size - s.m_position

def getCapacity (s : ByteArray) : ℕ := s.m_capacity - s.m_position

/-- the pointer to the `i`-th node, which is null behind the last one -/
def nodeAt (s : ByteArray) (i : ℕ) : Option ℕ := if i < s.nodes.length then some i else none

def clear (s : ByteArray) : ByteArray :=
  { s with m_position := 0, m_capacity := s.m_baseSize, nodes := s.nodes.take 1, m_cur := some 0 }

/-- `ceil(static_cast<double>(size) / static_cast<double>(m_baseSize))` -/
def nodeCount (size base : ℕ) : ℕ := ⌈fl 53 (fl 53 size / fl 53 base)⌉₊

/-- the loop of `addCapacity` that appends nodes -/
def appendNodes (s : ByteArray) : ℕ → ByteArray
  | 0 => s
  | count + 1 => appendNodes
      { s with
        nodes := s.nodes ++ [.new s.m_baseSize]
        m_capacity := s.m_capacity + s.m_baseSize } count

def addCapacity (s : ByteArray) (size : ℕ) : ByteArray :=
  if size = 0 then s
  else
    let old_cap := s.getCapacity
    if old_cap ≥ size then s
    else
      let size := size - old_cap
      let count := nodeCount size s.m_baseSize
      let first := if count = 0 then none else some s.nodes.length
      let s := s.appendNodes count
      if old_cap = 0 then { s with m_cur := first } else s

/-- the loop of `write` from `node` on: the nodes it leaves and how far `m_cur` moved, or nothing if
it goes behind the last node -/
def writeLoop : List Node → Node → ℕ → ℕ → List UInt8 → Option (List Node × ℕ)
  | rest, node, npos, ncap, buf =>
    if buf.length = 0 then some (node :: rest, 0)
    else if ncap ≥ buf.length then
      some (node.copyIn npos buf :: rest, if node.size = npos + buf.length then 1 else 0)
    else
      match rest with
      | [] => none
      | next :: rest =>
        (writeLoop rest next 0 next.size (buf.drop ncap)).map fun r =>
          (node.copyIn npos (buf.take ncap) :: r.1, r.2 + 1)

def write (s : ByteArray) (buf : List UInt8) : Outcome × ByteArray :=
  if buf.length = 0 then (.done [], s)
  else
    let s := s.addCapacity buf.length
    let npos := s.m_position % s.m_baseSize
    match s.m_cur with
    | none => (.null_deref, s)
    | some i =>
      match s.nodes.drop i with
      | [] => (.null_deref, s)
      | node :: rest =>
        match writeLoop rest node npos (node.size - npos) buf with
        | none => (.null_deref, s)
        | some (nodes, moved) =>
          let position := s.m_position + buf.length
          (.done [],
            { s with
              nodes := s.nodes.take i ++ nodes
              m_cur := s.nodeAt (i + moved)
              m_position := position
              m_size := if position > s.m_size then position else s.m_size })

/-- the loop of `read` from `node` on: what it copies and how far `m_cur` moved -/
def readLoop : List Node → Node → ℕ → ℕ → ℕ → Option (List (Option UInt8) × ℕ)
  | rest, node, npos, ncap, size =>
    if size = 0 then some ([], 0)
    else if ncap ≥ size then
      some (node.copyOut npos size, if node.size = npos + size then 1 else 0)
    else
      match rest with
      | [] => none
      | next :: rest =>
        (readLoop rest next 0 next.size (size - ncap)).map fun r =>
          (node.copyOut npos ncap ++ r.1, r.2 + 1)

def read (s : ByteArray) (size : ℕ) : Outcome × ByteArray :=
  if size > s.getReadSize then (.out_of_range, s)
  else
    let npos := s.m_position % s.m_baseSize
    match s.m_cur with
    | none => (.null_deref, s)
    | some i =>
      match s.nodes.drop i with
      | [] => (.null_deref, s)
      | node :: rest =>
        match readLoop rest node npos (node.size - npos) size with
        | none => (.null_deref, s)
        | some (buf, moved) =>
          (.done buf,
            { s with m_position := s.m_position + size, m_cur := s.nodeAt (i + moved) })

/-- the bytes of the nodes, one node after the other -/
def bytes (s : ByteArray) : List (Option UInt8) := (s.nodes.map Node.ptr).flatten

end ByteArray
end Bytes
end CppCores
