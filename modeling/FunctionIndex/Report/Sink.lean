/-! # Sinks

A sink takes bytes up to its capacity. A chunk that does not fit is taken as far as there is room,
and nothing is taken after it.
-/
namespace FunctionIndex
set_option autoImplicit false

structure Sink where
  /-- The number of bytes that are still accepted; no bound if there is none. -/
  room : Option Nat
  held : List UInt8
  deriving DecidableEq, Repr

namespace Sink

def unbounded : Sink := ⟨none, []⟩

def ofCapacity (capacity : Nat) : Sink := ⟨some capacity, []⟩

def write (sink : Sink) (chunk : List UInt8) : Bool × Sink :=
  match sink.room with
  | none => (true, ⟨none, sink.held ++ chunk⟩)
  | some room =>
    if chunk.length ≤ room then (true, ⟨some (room - chunk.length), sink.held ++ chunk⟩)
    else (false, ⟨some 0, sink.held ++ chunk.take room⟩)

def writeAll (sink : Sink) : List (List UInt8) → Bool × Sink
  | [] => (true, sink)
  | chunk :: chunks =>
    match sink.write chunk with
    | (true, sink) => sink.writeAll chunks
    | (false, sink) => (false, sink)

end Sink
end FunctionIndex
