import SimpleFlashFs.Lib.Bytes

namespace SimpleFlashFs

open Lib

-- what a call of mem->write or mem->erase meets; `left` is what the touched area holds afterwards
inductive Outcome
  | ok
  | short (left : List UInt8)
  | cut (left : Option (List UInt8))
deriving DecidableEq, Repr

inductive PhysOp
  | write (address : ℕ) (data : List UInt8)
  | erase (address size : ℕ)
deriving DecidableEq, Repr

namespace PhysOp

def address : PhysOp → ℕ
  | write address _ => address
  | erase address _ => address

def content : PhysOp → List UInt8
  | write _ data => data
  | erase _ size => List.replicate size 0xFF

end PhysOp

structure Event where
  op : PhysOp
  before : List UInt8
  done : Bool
deriving DecidableEq, Repr

structure Memory where
  bytes : List UInt8
  canMapRead : Bool := false
  plan : List Outcome := []
  trace : List Event := []
deriving DecidableEq, Repr

namespace Memory

def size (m : Memory) : ℕ := m.bytes.length

def put (bytes : List UInt8) (address : ℕ) (data : List UInt8) : List UInt8 :=
  overwrite bytes address (data.take (bytes.length - address))

def record (m : Memory) (op : PhysOp) (left : List UInt8) (rest : List Outcome) (done : Bool) : Memory :=
  { m with bytes := put m.bytes op.address left, plan := rest, trace := ⟨op, m.bytes, done⟩ :: m.trace }

def perform (m : Memory) (op : PhysOp) : Memory × Outcome :=
  match m.plan with
  | [] => (m.record op op.content [] true, .ok)
  | .ok :: rest => (m.record op op.content rest true, .ok)
  | .short left :: rest => (m.record op (left.take op.content.length) rest false, .short left)
  | .cut none :: rest => ({ m with plan := rest }, .cut none)
  | .cut (some left) :: rest => (m.record op (left.take op.content.length) rest false, .cut (some left))

def read (m : Memory) (address size : ℕ) : List UInt8 := slice m.bytes address size

def mapRead (m : Memory) (address size : ℕ) : Option (List UInt8) :=
  if address + size ≤ m.bytes.length then some (slice m.bytes address size) else none

end Memory

end SimpleFlashFs
