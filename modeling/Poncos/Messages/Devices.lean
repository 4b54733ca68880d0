import Poncos.Messages.Conversion

/-!
The devices of a virtual machine in a start task.  The two numbers of a PCI id are
written in hexadecimal and read by a function that takes any base.
-/

namespace Poncos.Messages

open Poncos.Library.Document
open Poncos.Library.Numeral

/-- Hexadecimal digits, filled up with zeros in front. -/
def toHexString (integer digits : Nat) (showBase : Bool) : String :=
  let hex := Nat.toDigits 16 integer
  (if showBase then "0x" else "") ++ String.ofList (List.replicate (digits - hex.length) '0' ++ hex)

/-- `std::stoul` with base 0: what follows the digits is ignored. -/
def stoul (text : String) : Load Nat :=
  let (negative, text) := scanSign (text.toList.dropWhile isSpace)
  let scanned := match text with
    | '0' :: rest => some (((scanNumeral text).getD (0, rest)).1)
    | text => (scanNumeral text).map Prod.fst
  match scanned with
  | none => .error (.runtime "stoul")
  | some value =>
      if value < 2 ^ 64 then .ok (if negative then (2 ^ 64 - value) % 2 ^ 64 else value)
      else .error (.runtime "stoul")

structure PciId where
  vendor : Nat
  device : Nat
  deriving DecidableEq, Repr

namespace PciId

def vendorHex (pciId : PciId) : String := toHexString pciId.vendor 4 true

def deviceHex (pciId : PciId) : String := toHexString pciId.device 4 true

def emit (pciId : PciId) : Entries :=
  (Entries.set [] "vendor" (Codec.string.encode pciId.vendorHex)).set "device"
    (Codec.string.encode pciId.deviceHex)

/-- The numbers are cut off to 16 bits. -/
def load (node : Node) : Load PciId := do
  let vendor ← stoul (← loadField .string node "vendor")
  let device ← stoul (← loadField .string node "device")
  .ok ⟨vendor % 2 ^ 16, device % 2 ^ 16⟩

def Valid (pciId : PciId) : Prop := pciId.vendor < 2 ^ 16 ∧ pciId.device < 2 ^ 16

theorem stoul_toHexString {integer : Nat} (hinteger : integer < 2 ^ 64) (digits : Nat) :
    stoul (toHexString integer digits true) = .ok integer := by
  have htext : (toHexString integer digits true).toList = '0' :: 'x' ::
      (List.replicate (digits - (Nat.toDigits 16 integer).length) '0' ++
        Nat.toDigits 16 integer) := by
    simp [toHexString]
  have hscan := @scanSomeDigits_padded 16 (by decide) (by decide)
    (digits - (Nat.toDigits 16 integer).length) integer
  rw [stoul, htext]
  simpa [isSpace, scanSign, scanNumeral, hscan] using hinteger

theorem lt_of_lt_short {n : Nat} (h : n < 2 ^ 16) : n < 2 ^ 64 :=
  Nat.lt_of_lt_of_le h (Nat.pow_le_pow_right (by decide) (by decide))

theorem load_emit {pciId : PciId} (h : pciId.Valid) : load pciId.emit.node = .ok pciId := by
  obtain ⟨hvendor, hdevice⟩ := h
  have hvendorHex : stoul pciId.vendorHex = .ok pciId.vendor :=
    stoul_toHexString (lt_of_lt_short hvendor) 4
  have hdeviceHex : stoul pciId.deviceHex = .ok pciId.device :=
    stoul_toHexString (lt_of_lt_short hdevice) 4
  rw [load, load_bind_of (loadField_of pciId.vendorHex (by simp [emit]) trivial),
    load_bind_of hvendorHex,
    load_bind_of (loadField_of pciId.deviceHex (by simp [emit]) trivial),
    load_bind_of hdeviceHex, Nat.mod_eq_of_lt hvendor, Nat.mod_eq_of_lt hdevice]

theorem valid_of_load {node : Node} {pciId : PciId} (h : load node = .ok pciId) :
    pciId.Valid := by
  simp only [load, load_bind_ok] at h
  obtain ⟨_, _, _, _, _, _, _, _, h⟩ := h
  cases h
  exact ⟨Nat.mod_lt _ (by decide), Nat.mod_lt _ (by decide)⟩

def codec : Codec PciId :=
  .record emit load Valid (fun _ => load_emit) fun _ _ => valid_of_load

end PciId

structure DeviceIvshmem where
  id : String
  size : String
  path : Option String
  deriving DecidableEq, Repr

namespace DeviceIvshmem

def emit (device : DeviceIvshmem) : Entries :=
  ((Entries.set [] "id" (Codec.string.encode device.id)).set "size"
    (Codec.string.encode device.size)).merge (emitOptional .string "path" device.path)

def load (node : Node) : Load DeviceIvshmem := do
  let id ← loadField .string node "id"
  let size ← loadField .string node "size"
  let path ← loadOptional .string none node "path"
  .ok ⟨id, size, path⟩

theorem load_emit (device : DeviceIvshmem) : load device.emit.node = .ok device := by
  rw [load, load_bind_of (loadField_of device.id (by simp [emit]) trivial),
    load_bind_of (loadField_of device.size (by simp [emit]) trivial),
    load_bind_of (loadOptional_of device.path (by simp [emit]) fun _ _ => trivial)]

def codec : Codec DeviceIvshmem :=
  .record emit load (fun _ => True) (fun device _ => load_emit device) fun _ _ _ => trivial

end DeviceIvshmem

end Poncos.Messages
