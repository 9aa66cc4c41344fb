import WireSchema.Bytes.LittleEndian
import WireSchema.Bytes.Varint
import WireSchema.Number.Binary

/-! What can be written, one thing at a time. An item knows its size before it is turned
into bytes, so that the length of a part can be written in front of the part. -/

namespace WireSchema

inductive Item where
  | bool (b : Bool)
  | byte (b : UInt8)
  | bytes (bs : List UInt8)
  | varint (n : UInt64)
  /-- The low bytes of an integer in two's complement, at most the eight it has. -/
  | fixed (n : Int64) (width : Nat)
  | float32 (x : Binary32)
  | float64 (x : Binary64)
  deriving DecidableEq, Repr

namespace Item

def encode : Item → List UInt8
  | bool b => [if b then 1 else 0]
  | byte b => [b]
  | bytes bs => bs
  | varint n => Varint.encode n.toNat
  | fixed n width => LittleEndian.encode (min width 8) n.toUInt64.toNat
  | float32 x => LittleEndian.encode 4 x.bits.toNat
  | float64 x => LittleEndian.encode 8 x.bits.toNat

/-- The number of bytes of an item. -/
def size : Item → Nat
  | bool _ | byte _ => 1
  | bytes bs => bs.length
  | varint n => Varint.length n.toNat
  | fixed _ width => min width 8
  | float32 _ => 4
  | float64 _ => 8

def encodeAll (items : List Item) : List UInt8 := items.flatMap encode

end Item

end WireSchema
