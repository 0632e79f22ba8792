import Mathlib.Data.BitVec

/-!
# IP addresses

An `IpAddr` and the kinds of addresses that `std::net` tells apart.
-/

namespace Rust

inductive IpAddr where
  | v4 (ip : UInt32)
  | v6 (ip : BitVec 128)
  deriving DecidableEq

def Ipv4.firstOctet (ip : UInt32) : UInt32 := ip >>> 24

/-- The first two octets. -/
def Ipv4.firstOctets (ip : UInt32) : UInt32 := ip >>> 16

/-- `Ipv4Addr::is_private`. -/
def Ipv4.isPrivate (ip : UInt32) : Bool :=
  firstOctet ip = 10 || (0xac10 ≤ firstOctets ip && firstOctets ip ≤ 0xac1f) ||
    firstOctets ip = 0xc0a8

/-- `Ipv4Addr::is_link_local`. -/
def Ipv4.isLinkLocal (ip : UInt32) : Bool := firstOctets ip = 0xa9fe

/-- `Ipv6Addr::segments()[0]`. -/
def Ipv6.firstSegment (ip : BitVec 128) : BitVec 16 := ip.extractLsb' 112 16

/-- `Ipv6Addr::is_multicast`. -/
def Ipv6.isMulticast (ip : BitVec 128) : Bool := firstSegment ip &&& 0xff00 = 0xff00

namespace IpAddr

/-- `IpAddr::is_loopback`. -/
def isLoopback : IpAddr → Bool
  | v4 ip => Ipv4.firstOctet ip = 127
  | v6 ip => ip = 1

/-- `IpAddr::is_unspecified`. -/
def isUnspecified : IpAddr → Bool
  | v4 ip => ip = 0
  | v6 ip => ip = 0

end IpAddr

end Rust
