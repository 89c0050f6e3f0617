/-
The texts of a changelog (`hydradb/src/keys.rs`, `shard/xlog.rs`, `codec.rs`).

The store keeps its keys as texts, in the order of the texts, and a scan reads those that begin with
a prefix and go on between two bounds. The changelog of the model has its keys taken apart
(`XlogKey`); here they are put together and taken apart again.
-/

import ContextMemory.Hydra.GraphIndex
import ContextMemory.Lib.Decimal
import ContextMemory.Lib.Words

namespace ContextMemory.Topology

/-- `keys::xlog_type_prefix`. -/
def xlogTypePrefix (cellId edgeType : String) : List Char :=
  "cell/".toList ++ cellId.toList ++ "/xlog/".toList ++ (edgeType.toList ++ ['/'])

/-- What a key has behind the prefix of its type. -/
def XlogKey.numbers (k : XlogKey) : List Char :=
  Decimal.padded 20 k.sequence ++ '/' :: (Decimal.padded 20 k.src ++ '/' :: Decimal.padded 20 k.dst)

/-- `keys::xlog_entry`. -/
def xlogEntry (cellId : String) (k : XlogKey) : List Char :=
  xlogTypePrefix cellId k.edgeType ++ k.numbers

def missingNumber (key : List Char) (name : String) : GraphError :=
  .corruptValue (String.ofList key) ("xlog key missing numeric " ++ name)

def numberAt (key : List Char) (name : String) (component : Option (List Char)) :
    Except GraphError Nat :=
  match component with
  | none => .error (missingNumber key name)
  | some value =>
      match Decimal.read u64Max value with
      | .ok n => .ok n
      | .error _ => .error (missingNumber key name)

def ensureLast (key : List Char) (component : Option (List Char)) : Except GraphError Unit :=
  if component.isSome then
    .error (.corruptValue (String.ofList key) "xlog key has trailing components")
  else .ok ()

/-- `parse_xlog_entry_key`. -/
def parseXlogEntryKey (typePrefix key : List Char) : Except GraphError (Nat × Nat × Nat) :=
  if typePrefix.isPrefixOf key then do
    let components := (key.drop typePrefix.length).splitOn '/'
    let sequence ← numberAt key "sequence" components[0]?
    let src ← numberAt key "src" components[1]?
    let dst ← numberAt key "dst" components[2]?
    ensureLast key components[3]?
    return (sequence, src, dst)
  else .error (.corruptValue (String.ofList key) "xlog key does not match scan prefix")

/-- The texts that a scan with a prefix reads from one sequence on and before another. -/
def inScan (typePrefix : List Char) (first upper : Nat) (key : List Char) : Bool :=
  typePrefix.isPrefixOf key &&
    (!decide (key.drop typePrefix.length < Decimal.padded 20 first) &&
      decide (key.drop typePrefix.length < Decimal.padded 20 upper))

/-! ### Values -/

/-- `keys::xlog_low_water`. -/
def xlogLowWater (cellId edgeType : String) : String :=
  "cell/" ++ cellId ++ "/meta/xlog_low/" ++ edgeType

/-- `encode_u64`. -/
def encodeU64 (n : Nat) : List UInt8 := (Words.leBytes 8 n).reverse

/-- `decode_u64`. -/
def decodeU64 (key : String) (value : List UInt8) : Except GraphError Nat :=
  if value.length = 8 then .ok (Words.ofLeBytes value.reverse)
  else .error (.corruptValue key ("expected 8 bytes, got " ++ toString value.length))

/-- The value of an entry, as `mark_topology_change_txn` puts it. -/
def existsByte (present : Bool) : List UInt8 := if present then [1] else [0]

/-- `decode_xlog_exists`. -/
def decodeXlogExists (key : List Char) (value : List UInt8) : Except GraphError Bool :=
  if value = [0] then .ok false
  else if value = [1] then .ok true
  else .error (.corruptValue (String.ofList key) "xlog value must be a single 0/1 existence byte")

/-- What `xlog_delta_since` does with the entries that it scans. -/
def readEntries (typePrefix : List Char) :
    List (List Char × List UInt8) → Overlay → Except GraphError Overlay
  | [], overlay => .ok overlay
  | entry :: rest, overlay => do
      let numbers ← parseXlogEntryKey typePrefix entry.1
      let present ← decodeXlogExists entry.1 entry.2
      readEntries typePrefix rest (Overlay.set numbers.2.1 numbers.2.2 present overlay)

/-- `xlog_delta_since`, from the value of the floor and all texts of a store. -/
def xlogDeltaOfTexts (cellId edgeType : String) (low : Option (List UInt8))
    (texts : List (List Char × List UInt8)) (previousBase baseSequence : Nat) :
    Except GraphError XlogDelta :=
  match low with
  | none => .ok .uninitialized
  | some value => do
      let lowWater ← decodeU64 (xlogLowWater cellId edgeType) value
      if saturatingSucc previousBase < lowWater then return .coverageGap lowWater
      else
        let overlay ← readEntries (xlogTypePrefix cellId edgeType)
          (texts.filter fun entry => inScan (xlogTypePrefix cellId edgeType)
            (saturatingSucc previousBase) (saturatingSucc baseSequence) entry.1) []
        return .complete overlay

end ContextMemory.Topology
