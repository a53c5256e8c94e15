import Mathlib.Data.List.Basic
import Mathlib.Data.String.Basic
import Mathlib.Tactic.Common

/-! JSON values as a server and its clients read them, and bytes as texts of hexadecimal digits. -/
namespace L1

/-- A number is kept as far as it is an unsigned 64-bit integer. -/
inductive Json where
  | null
  | bool (value : Bool)
  | number (unsigned : Option (BitVec 64))
  | string (text : String)
  | array (items : List Json)
  | object (members : List (String × Json))

namespace Json

def get : Json → String → Option Json
  | .object members, name => members.lookup name
  | _, _ => none

def asStr : Json → Option String
  | .string text => some text
  | _ => none

def asU64 : Json → Option (BitVec 64)
  | .number unsigned => unsigned
  | _ => none

def asArray : Json → Option (List Json)
  | .array items => some items
  | _ => none

end Json

namespace Hex

def digitValue (c : Char) : Option Nat :=
  if '0' ≤ c ∧ c ≤ '9' then some (c.toNat - 48)
  else if 'a' ≤ c ∧ c ≤ 'f' then some (c.toNat - 87)
  else if 'A' ≤ c ∧ c ≤ 'F' then some (c.toNat - 55)
  else none

/-- Two digits a byte, the high half first. -/
def decodeDigits : List Char → Option (List UInt8)
  | [] => some []
  | [_] => none
  | high :: low :: rest => match digitValue high, digitValue low, decodeDigits rest with
    | some h, some l, some bytes => some (UInt8.ofNat (16 * h + l) :: bytes)
    | _, _, _ => none

def encodeDigits (bytes : List UInt8) : List Char :=
  bytes.flatMap fun b => [Nat.digitChar (b.toNat / 16),Nat.digitChar (b.toNat % 16)]

/-- The digits after one `0x`, if there is one. -/
def stripMarker : List Char → List Char
  | '0' :: 'x' :: digits => digits
  | digits => digits

def decodeHex (text : String) : Option (List UInt8) := decodeDigits (stripMarker text.toList)

def encodeHex (bytes : List UInt8) : String := String.ofList ('0' :: 'x' :: encodeDigits bytes)

theorem digitValue_digitChar : ∀ n < 16, digitValue (Nat.digitChar n) = some n := by decide

theorem decodeDigits_encodeDigits (bytes : List UInt8) : decodeDigits (encodeDigits bytes) = some bytes := by
  induction bytes with
  | nil => rfl
  | cons b rest ih =>
    have small := b.toNat_lt
    have high := digitValue_digitChar (b.toNat / 16) (by omega)
    have low := digitValue_digitChar (b.toNat % 16) (by omega)
    have whole : 16 * (b.toNat / 16) + b.toNat % 16 = b.toNat := by omega
    rw [encodeDigits] at ih ⊢
    simp only [List.flatMap_cons,List.cons_append,List.nil_append,decodeDigits,high,low,ih,whole,
      UInt8.ofNat_toNat]

@[simp] theorem decodeHex_encodeHex (bytes : List UInt8) : decodeHex (encodeHex bytes) = some bytes := by
  rw [decodeHex,encodeHex,String.toList_ofList,stripMarker,decodeDigits_encodeDigits]

end Hex
end L1
