import WireSchema.Bytes.Item
import WireSchema.Proofs.Bytes.Varint

/-! An item takes the number of bytes that it says it does, and lists of items are written
one after the other. -/

namespace WireSchema.Item

theorem length_encode (item : Item) : item.encode.length = item.size := by
  cases item with
  | varint n => exact Varint.length_encode n.toNat
  | _ => simp [encode, size]

@[simp] theorem encodeAll_nil : encodeAll [] = [] := rfl

@[simp] theorem encodeAll_cons (item : Item) (items : List Item) :
    encodeAll (item :: items) = item.encode ++ encodeAll items := List.flatMap_cons

@[simp] theorem encodeAll_append (items more : List Item) :
    encodeAll (items ++ more) = encodeAll items ++ encodeAll more := List.flatMap_append

end WireSchema.Item
