/-
Module: Ziftrcoin.Spec.NetAddr
Purpose: Network addresses: which can be routed, and the group and key that
  address buckets are chosen by.
Trusted boundary: human-reviewed model of CNetAddr and CService in
  src/netbase.cpp and of CAddress in src/protocol.h
Main exports: CNetAddr, CNetAddr.IsRoutable, CNetAddr.GetGroup
-/
import Ziftrcoin.Spec.Bytes

namespace Ziftrcoin.Spec

/-- An address in network byte order. -/
structure CNetAddr where
  ip : Vector UInt8 16
deriving DecidableEq

namespace CNetAddr

variable (addr : CNetAddr)

/-- `ip[15 - n]`. -/
def GetByte (n : Nat) : UInt8 := addr.ip.toList.getD (15 - n) 0

/-- `memcmp` with the bytes from position `start` on. -/
def hasBytes (start : Nat) (pch : valtype) : Bool :=
  (addr.ip.toList.drop start).take pch.length == pch

def pchIPv4 : valtype := [0, 0, 0, 0, 0, 0, 0, 0, 0, 0, 0xff, 0xff]

def pchOnionCat : valtype := [0xFD, 0x87, 0xD8, 0x7E, 0xEB, 0x43]

def IsIPv4 : Bool := addr.hasBytes 0 pchIPv4

def IsRFC1918 : Bool :=
  addr.IsIPv4 &&
    (addr.GetByte 3 == 10 ||
      (addr.GetByte 3 == 192 && addr.GetByte 2 == 168) ||
      (addr.GetByte 3 == 172 && (decide (16 ≤ addr.GetByte 2) && decide (addr.GetByte 2 ≤ 31))))

def IsRFC3927 : Bool :=
  addr.IsIPv4 && (addr.GetByte 3 == 169 && addr.GetByte 2 == 254)

def IsRFC3849 : Bool :=
  addr.GetByte 15 == 0x20 && addr.GetByte 14 == 0x01 && addr.GetByte 13 == 0x0D &&
    addr.GetByte 12 == 0xB8

def IsRFC3964 : Bool := addr.GetByte 15 == 0x20 && addr.GetByte 14 == 0x02

def IsRFC6052 : Bool := addr.hasBytes 0 [0, 0x64, 0xFF, 0x9B, 0, 0, 0, 0, 0, 0, 0, 0]

def IsRFC4380 : Bool :=
  addr.GetByte 15 == 0x20 && addr.GetByte 14 == 0x01 && addr.GetByte 13 == 0 &&
    addr.GetByte 12 == 0

def IsRFC4862 : Bool := addr.hasBytes 0 [0xFE, 0x80, 0, 0, 0, 0, 0, 0]

def IsRFC4193 : Bool := addr.GetByte 15 &&& 0xFE == 0xFC

def IsRFC6145 : Bool := addr.hasBytes 0 [0, 0, 0, 0, 0, 0, 0, 0, 0xFF, 0xFF, 0, 0]

def IsRFC4843 : Bool :=
  addr.GetByte 15 == 0x20 && addr.GetByte 14 == 0x01 && addr.GetByte 13 == 0x00 &&
    (addr.GetByte 12 &&& 0xF0) == 0x10

def IsTor : Bool := addr.hasBytes 0 pchOnionCat

def IsLocal : Bool :=
  (addr.IsIPv4 && (addr.GetByte 3 == 127 || addr.GetByte 3 == 0)) ||
    addr.hasBytes 0 [0, 0, 0, 0, 0, 0, 0, 0, 0, 0, 0, 0, 0, 0, 0, 1]

def IsValid : Bool :=
  !addr.hasBytes 0 (pchIPv4.drop 3) &&
    !addr.hasBytes 0 (List.replicate 16 0) &&
    !addr.IsRFC3849 &&
    !(addr.IsIPv4 &&
      (addr.hasBytes 12 (List.replicate 4 0xFF) || addr.hasBytes 12 (List.replicate 4 0)))

def IsRoutable : Bool :=
  addr.IsValid &&
    !(addr.IsRFC1918 || addr.IsRFC3927 || addr.IsRFC4862 || (addr.IsRFC4193 && !addr.IsTor) ||
      addr.IsRFC4843 || addr.IsLocal)

def NET_UNROUTABLE : UInt8 := 0
def NET_IPV4 : UInt8 := 1
def NET_IPV6 : UInt8 := 2
def NET_TOR : UInt8 := 3

/-- The class, then `nBits` bits of the address from byte `nStartByte` on; the
bits that fill up the last byte are set. -/
def groupOf (nClass : UInt8) (nStartByte nBits : Nat) : valtype :=
  nClass :: (List.range (nBits / 8)).map (fun n => addr.GetByte (15 - (nStartByte + n))) ++
    if 0 < nBits % 8 then
      [addr.GetByte (15 - (nStartByte + nBits / 8)) |||
        UInt8.ofNat (2 ^ (nBits % 8) - 1)]
    else []

/-- `GetGroup`.  Local addresses are not routable, so the class that they get at
first is replaced. -/
def GetGroup : valtype :=
  if !addr.IsRoutable then addr.groupOf NET_UNROUTABLE 0 0
  else if addr.IsIPv4 || addr.IsRFC6145 || addr.IsRFC6052 then addr.groupOf NET_IPV4 12 16
  else if addr.IsRFC3964 then addr.groupOf NET_IPV4 2 16
  else if addr.IsRFC4380 then
    [NET_IPV4, addr.GetByte 3 ^^^ 0xFF, addr.GetByte 2 ^^^ 0xFF]
  else if addr.IsTor then addr.groupOf NET_TOR 6 4
  else if addr.GetByte 15 == 0x20 && addr.GetByte 14 == 0x01 && addr.GetByte 13 == 0x04 &&
      addr.GetByte 12 == 0x70 then
    addr.groupOf NET_IPV6 0 36
  else addr.groupOf NET_IPV6 0 32

end CNetAddr

structure CService extends CNetAddr where
  port : UInt16
deriving DecidableEq

/-- The address and the port, high byte first. -/
def CService.GetKey (addr : CService) : valtype :=
  addr.ip.toList ++ [UInt8.ofNat (addr.port.toNat / 0x100), UInt8.ofNat addr.port.toNat]

/-- `CAddress`; `nTime` is unsigned. -/
structure CAddress extends CService where
  nServices : UInt64
  nTime : Nat

end Ziftrcoin.Spec
